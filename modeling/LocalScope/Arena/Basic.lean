import LocalScope.Arena.Table
import LocalScope.Code.Term
import LocalScope.Error

namespace LocalScope

structure Node where
  kind : Kind NodeId
  note : Annotation := {}
deriving DecidableEq

/- All nodes of a method body, attached or not. Owners list their children; the parent of an
attached node is kept on the side. Structural edits keep the two in step, but `setKind` does not,
so nothing here takes the parent table on trust. -/
structure Arena where
  nodes : Table NodeId Node := {}
  parents : SideTable NodeId NodeId := {}

/-- Computations that may change the arena. What was changed before an error stays changed. -/
abbrev Editing := EStateM Error Arena

namespace Arena

def size (a : Arena) : Nat := a.nodes.size

def node (a : Arena) (id : NodeId) : Except Error Node :=
  match a.nodes.get? id with
  | some n => .ok n
  | none => .error (.missing id)

def kind (a : Arena) (id : NodeId) : Except Error (Kind NodeId) := return (← a.node id).kind

def note (a : Arena) (id : NodeId) : Except Error Annotation := return (← a.node id).note

def parent? (a : Arena) (id : NodeId) : Option NodeId := a.parents.get? id

def adopt (a : Arena) (parent : NodeId) (children : List NodeId) : Arena :=
  { a with parents := children.foldl (fun table child => table.insert child parent) a.parents }

/-- Adds a node, which becomes the parent of every child it names. -/
def push (a : Arena) (kind : Kind NodeId) (note : Annotation := {}) : NodeId × Arena :=
  let (id, nodes) := a.nodes.push ⟨kind, note⟩
  (id, { a with nodes }.adopt id kind.children)

def setKind (a : Arena) (id : NodeId) (kind : Kind NodeId) : Arena :=
  match a.nodes.get? id with
  | some n => { a with nodes := a.nodes.set id { n with kind } }
  | none => a

def setNote (a : Arena) (id : NodeId) (note : Annotation) : Arena :=
  match a.nodes.get? id with
  | some n => { a with nodes := a.nodes.set id { n with note } }
  | none => a

def after? (id : NodeId) : List NodeId → Option NodeId
  | [] => none
  | x :: rest => if x = id then rest.head? else after? id rest

/-- The sibling after a node in the first list of its parent that holds it. -/
def next? (a : Arena) (id : NodeId) : Option NodeId := do
  let parent ← a.nodes.get? (← a.parent? id)
  let lists := parent.kind.slots.filterMap fun
    | .many children => some children
    | _ => none
  after? id (← lists.find? (·.contains id))

end Arena

namespace Editing

def query {α : Type} (q : Arena → Except Error α) : Editing α := fun a =>
  match q a with
  | .ok x => .ok x a
  | .error e => .error e a

def add (kind : Kind NodeId) (note : Annotation := {}) : Editing NodeId :=
  modifyGet fun a => a.push kind note

def complain {α : Type} (fault : EditFault) : Editing α := throw (.edit fault)

end Editing

end LocalScope
