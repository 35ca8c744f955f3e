import LocalScope.Code.Kind

namespace LocalScope

/- An edit of one slot. Each part answers with the new content, or with nothing where the slot is
not the one that is meant. -/
structure SlotEdit (α : Type) where
  one : α → Option α := fun _ => none
  optional : Option α → Option (Option α) := fun _ => none
  many : List α → Option (List α) := fun _ => none

namespace SlotEdit

variable {α σ : Type}

/-- Applies an edit unless one has been applied before. -/
def firstTime (edit : σ → Option σ) (content : σ) : StateM Bool σ := fun applied =>
  if applied then (content, true)
  else match edit content with
    | some changed => (changed, true)
    | none => (content, false)

def once (e : SlotEdit α) : SlotMap (StateM Bool) α α :=
  ⟨firstTime e.one, firstTime e.optional, firstTime e.many⟩

variable [DecidableEq α]

def insertBefore (anchor child : α) : List α → List α
  | [] => []
  | x :: rest => if x = anchor then child :: x :: rest else x :: insertBefore anchor child rest

def insertion (anchor child : α) : SlotEdit α where
  many children := if anchor ∈ children then some (insertBefore anchor child children) else none

def replacement (old new : α) : SlotEdit α where
  one child := if child = old then some new else none
  optional child := if child = some old then some (some new) else none
  many children := if old ∈ children then some (children.replace old new) else none

def removal (child : α) : SlotEdit α where
  optional held := if held = some child then some none else none
  many children := if child ∈ children then some (children.erase child) else none

end SlotEdit

namespace Kind

variable {α : Type}

/-- Changes the first slot that the edit is about, if there is one. -/
def editFirst (e : SlotEdit α) (k : Kind α) : Option (Kind α) :=
  let (changed, applied) := Id.run (StateT.run (k.traverseSlots e.once) false)
  if applied then some changed else none

variable [DecidableEq α]

/-- The first slot that holds a child. -/
def holder? (k : Kind α) (child : α) : Option (Slot α) :=
  k.slots.find? fun slot => child ∈ slot.children

end Kind

end LocalScope
