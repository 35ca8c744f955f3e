import LocalScope.Arena.View
import LocalScope.Code.Slot

namespace LocalScope.Editing

/- Structural edits. Each looks up the recorded parent, changes the first fitting slot there, and
updates the parent table; a refused edit leaves the arena alone. -/

def setParent (child parent : NodeId) : Editing Unit :=
  modify fun a => { a with parents := a.parents.insert child parent }

def detach (child : NodeId) : Editing Unit :=
  modify fun a => { a with parents := a.parents.erase child }

def setKind (id : NodeId) (kind : Kind NodeId) : Editing Unit :=
  modify fun a => a.setKind id kind

/-- The recorded parent and its kind. -/
def parentOf (child : NodeId) (detached : EditFault) : Editing (NodeId × Kind NodeId) := do
  match (← get).parent? child with
  | none => complain detached
  | some parent => return (parent, ← query (·.kind parent))

/-- Puts a node just before another in the list that holds the latter. -/
def insertBefore (anchor child : NodeId) : Editing Unit := do
  let (parent, kind) ← parentOf anchor (.detachedAnchor anchor)
  match kind.editFirst (.insertion anchor child) with
  | none => complain (.anchorNotListed anchor parent)
  | some changed =>
    setKind parent changed
    setParent child parent

def replace (old new : NodeId) : Editing Unit := do
  let (parent, kind) ← parentOf old (.detachedReplacement old)
  match kind.editFirst (.replacement old new) with
  | none => complain (.notAChild old parent)
  | some changed =>
    setKind parent changed
    detach old
    setParent new parent

/-- Unlinks a node. Lists shrink and optional places become empty; a place that must be filled
gets a fresh empty statement. -/
def remove (child : NodeId) : Editing Unit := do
  let (parent, kind) ← parentOf child (.detachedRemoval child)
  match kind.holder? child with
  | none => complain (.notAChild child parent)
  | some (.one _) =>
    let filler ← add .empty
    setKind parent ((kind.editFirst (.replacement child filler)).getD kind)
    setParent filler parent
    detach child
  | some _ =>
    setKind parent ((kind.editFirst (.removal child)).getD kind)
    detach child

/- Adopts children again, owner by owner in the order given. -/
def adoptAll (owners : List NodeId) : Editing Unit :=
  owners.forM fun owner => do
    let kind ← query (·.kind owner)
    modify fun a => a.adopt owner kind.children

/-- Forgets all parents and records anew those found below a root. -/
def rebuildParents (root : NodeId) : Editing Unit := do
  let tree ← query (·.whole root)
  modify fun a => { a with parents := {} }
  adoptAll tree.ids

end LocalScope.Editing
