import LocalScope.Arena.Edit
import LocalScope.Code.Usage

namespace LocalScope

/-- Where a declaration goes: before a statement, or in place of an assignment, whose value it
takes over. -/
inductive Site where
  | before (anchor : NodeId)
  | inPlaceOf (assignment : NodeId)
deriving DecidableEq, Repr

/-- A declaration to be made. -/
structure Edit where
  ty : Ty
  name : String
  variableId : Option VariableId
  site : Site
deriving DecidableEq

/-- What became of a list of edits; those whose place was gone are skipped. -/
structure Stats where
  inserted : Nat := 0
  folded : Nat := 0
  skipped : Nat := 0
deriving DecidableEq, Repr

namespace Edit

open Editing

/-- A variable that its scope writes just once may be final. -/
def finality (markFinal : Bool) (scope : NodeId) (name : String) : Editing Bool := do
  if markFinal then
    let tree ← query (·.whole scope)
    return tree.writeCount name == 1
  else return false

def insert (markFinal : Bool) (e : Edit) (anchor : NodeId) : Editing Bool := do
  match (← get).parent? anchor with
  | none => return false
  | some block =>
    let isFinal ← finality markFinal block e.name
    let binding ← add (.binding e.name none) { variableId := e.variableId }
    let declaration ← add (.declaration e.ty [binding] isFinal)
    insertBefore anchor declaration
    return true

/-- The value of an assignment becomes an initializer. It takes the variable of the edit and the
member of the assignment for its own. -/
def takeValue (e : Edit) (assignment value : NodeId) : Editing NodeId := do
  let memberId := (← query (·.note assignment)).memberId
  remove value
  let _ ← query (·.node value)
  modify fun a => a.setNote value ⟨e.variableId, memberId⟩
  return value

/- An assignment that is a statement of its own goes together with the statement around it, whose
annotation the declaration keeps. -/
def fold (markFinal : Bool) (e : Edit) (assignment : NodeId) : Editing Bool := do
  match ← query (·.kind assignment) with
  | .assignment _ _ value =>
    match (← get).parent? assignment with
    | none => return false
    | some parent =>
      match ← query (·.kind parent) with
      | .expressionStatement _ =>
        match (← get).parent? parent with
        | none => return false
        | some scope =>
          let value ← takeValue e assignment value
          declare value parent scope (← query (·.note parent))
      | _ =>
        let value ← takeValue e assignment value
        declare value assignment parent {}
  | _ => complain (.notAnAssignment assignment)
where
  declare (value replaced scope : NodeId) (note : Annotation) : Editing Bool := do
    let isFinal ← finality markFinal scope e.name
    let binding ← add (.binding e.name (some value))
    let declaration ← add (.declaration e.ty [binding] isFinal) note
    replace replaced declaration
    return true

def applyInsertion (markFinal : Bool) (stats : Stats) (e : Edit) : Editing Stats := do
  match e.site with
  | .before anchor =>
    if ← insert markFinal e anchor then return { stats with inserted := stats.inserted + 1 }
    else return { stats with skipped := stats.skipped + 1 }
  | .inPlaceOf _ => return stats

def applyFolding (markFinal : Bool) (stats : Stats) (e : Edit) : Editing Stats := do
  match e.site with
  | .before _ => return stats
  | .inPlaceOf assignment =>
    if ← fold markFinal e assignment then return { stats with folded := stats.folded + 1 }
    else return { stats with skipped := stats.skipped + 1 }

/-- Carries out edits: all insertions come before any folding. -/
def applyAll (markFinal : Bool) (edits : List Edit) : Editing Stats := do
  let stats ← edits.foldlM (applyInsertion markFinal) {}
  edits.foldlM (applyFolding markFinal) stats

end Edit

end LocalScope
