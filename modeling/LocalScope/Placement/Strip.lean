import LocalScope.Arena.Edit

namespace LocalScope

/-- A variable whose declaration was taken out of its block. -/
structure LocalVariable where
  ty : Ty
  name : String
  variableId : Option VariableId
deriving DecidableEq

namespace Arena

/-- The variable that a statement declares, if it is a declaration. Only a declaration with one
binding and no initializer can be taken out. -/
def declared? (a : Arena) (block statement : NodeId) : Except Error (Option LocalVariable) := do
  match ← a.kind statement with
  | .declaration ty [binding] _ =>
    match ← a.kind binding with
    | .binding name none =>
      return some ⟨ty, name, (← a.note binding).variableId⟩
    | .binding name (some _) => .error (.declaration block (.initialized name statement))
    | _ => .error (.declaration block (.notABinding statement binding))
  | .declaration _ bindings _ =>
    .error (.declaration block (.bindingCount statement bindings.length))
  | _ => return none

/-- The declarations among some statements of a block, in order. -/
def declarations (a : Arena) (block : NodeId) :
    List NodeId → Except Error (List (NodeId × LocalVariable))
  | [] => .ok []
  | s :: rest => do
    match ← a.declared? block s with
    | none => a.declarations block rest
    | some v => return (s, v) :: (← a.declarations block rest)

/-- How many declarations the blocks below a node hold, if all of them can be taken out. -/
def countDeclarations (a : Arena) (root : NodeId) : Except Error Nat := do
  let tree ← a.whole root
  tree.ids.foldlM (fun count id => do
    let found ← a.declarations id (← a.kind id).statements
    return count + found.length) 0

end Arena

/-- Takes the declarations out of a block. If one of them is malformed none is. -/
def Editing.strip (block : NodeId) : Editing (List LocalVariable) := do
  let found ← query fun a => do a.declarations block (← a.kind block).statements
  found.forM fun (statement, _) => remove statement
  return found.map Prod.snd

end LocalScope
