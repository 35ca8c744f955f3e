import LocalScope.Placement.Gap

namespace LocalScope

namespace Arena

/-- How many links there are between nodes. -/
def linkCount (a : Arena) : Nat :=
  (a.nodes.toList.map fun (_, n) => n.kind.children.length).foldr (· + ·) 0

end Arena

namespace Editing

/-- Takes a block's declarations out and tells where they go. -/
def replan (o : Options) (block : NodeId) : Editing (List Edit) := do
  let stripped ← strip block
  if stripped.isEmpty then return []
  else
    let next? := (← get).next?
    let tree ← query (·.look
      (fun t => stripped.findSome? fun v => v.placeGap? next? o t .receiver) block)
    return stripped.flatMap fun v => v.place next? o tree .receiver

/- Outer blocks come before inner ones, and nothing is put back before all have been visited. The
children are those left after the block has been stripped. -/
def planWithin (o : Options) : Nat → NodeId → Editing (List Edit)
  | 0, id => throw (.cyclic id)
  | levels + 1, id => do
    let here ← if (← query (·.kind id)).isBlock then replan o id else pure []
    let below ← (← query (·.kind id)).children.mapM (planWithin o levels)
    return here ++ below.flatten

/-- All edits that the body below a node needs; its declarations are gone afterwards. To come back
to a node is of use only if a link has been taken away since, which bounds how deep this goes. -/
def plan (o : Options) (root : NodeId) : Editing (List Edit) := do
  let a ← get
  planWithin o ((a.size + 1) * (a.linkCount + 1)) root

/-- Gives every declaration of a body its narrowest place. -/
def placeDeclarations (o : Options) (root : NodeId) : Editing Stats := do
  let edits ← plan o root
  Edit.applyAll o.markFinal edits

end Editing

end LocalScope
