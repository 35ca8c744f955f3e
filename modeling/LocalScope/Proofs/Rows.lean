import Mathlib
import LocalScope.Arena.Basic

namespace LocalScope.Arena

variable (a : Arena) (x id : NodeId) (kind : Kind NodeId) (note : Annotation)

/-- No parent is recorded for numbers that have not been handed out. -/
def Clean : Prop := ∀ x : NodeId, a.size ≤ x.index → a.parent? x = none

/-- Nodes of the first arena are in the second as they were. -/
structure Extends (a b : Arena) : Prop where
  grows : a.size ≤ b.size
  rows : ∀ x : NodeId, x.index < a.size → b.nodes.get? x = a.nodes.get? x
  parents : ∀ x : NodeId, x.index < a.size → b.parent? x = a.parent? x

theorem Extends.refl : Extends a a := ⟨Nat.le_refl _, fun _ _ => rfl, fun _ _ => rfl⟩

theorem Extends.trans {a b c : Arena} (first : Extends a b) (second : Extends b c) :
    Extends a c where
  grows := Nat.le_trans first.grows second.grows
  rows x old := (second.rows x (Nat.lt_of_lt_of_le old first.grows)).trans (first.rows x old)
  parents x old :=
    (second.parents x (Nat.lt_of_lt_of_le old first.grows)).trans (first.parents x old)

theorem parent?_adopt (parent : NodeId) (children : List NodeId) :
    (a.adopt parent children).parent? x = if x ∈ children then some parent else a.parent? x := by
  simp only [adopt, parent?]
  induction children generalizing a with
  | nil => simp
  | cons c rest ih =>
    have step := ih { a with parents := a.parents.insert c parent }
    simp only at step
    simp only [List.foldl_cons, step, SideTable.get?_insert, List.mem_cons]
    by_cases later : x ∈ rest
    · simp [later]
    · simp [later, eq_comm]

@[simp] theorem size_push : (a.push kind note).2.size = a.size + 1 := Table.size_push a.nodes _

theorem get?_push :
    (a.push kind note).2.nodes.get? x =
      if x = ⟨a.size⟩ then some ⟨kind, note⟩ else a.nodes.get? x :=
  Table.get?_push a.nodes _ x

theorem get?_push_old {a : Arena} {x : NodeId} (old : x.index < a.size) (kind : Kind NodeId)
    (note : Annotation) : (a.push kind note).2.nodes.get? x = a.nodes.get? x := by
  have differs : ¬ x = ⟨a.size⟩ := by
    rintro rfl
    exact Nat.lt_irrefl _ old
  rw [get?_push, if_neg differs]

theorem parent?_push :
    (a.push kind note).2.parent? x =
      if x ∈ kind.children then some ⟨a.size⟩ else a.parent? x :=
  parent?_adopt _ x _ kind.children

theorem Extends.push {a b : Arena} (older : Extends a b) {kind : Kind NodeId} (note : Annotation)
    (unlisted : ∀ x : NodeId, x.index < a.size → x ∉ kind.children) :
    Extends a (b.push kind note).2 where
  grows := by
    rw [size_push]
    exact Nat.le_succ_of_le older.grows
  rows x old := by
    rw [get?_push_old (Nat.lt_of_lt_of_le old older.grows), older.rows x old]
  parents x old := by
    rw [parent?_push, if_neg (unlisted x old), older.parents x old]

/-- One row changed, if it is there. -/
def update (change : Node → Node) : Arena :=
  match a.nodes.get? id with
  | some n => { a with nodes := a.nodes.set id (change n) }
  | none => a

theorem setKind_eq_update : a.setKind id kind = a.update id ({ · with kind }) := rfl

theorem setNote_eq_update : a.setNote id note = a.update id ({ · with note }) := rfl

section update

variable (change : Node → Node)

theorem parent?_update : (a.update id change).parent? x = a.parent? x := by
  unfold update
  split <;> rfl

theorem size_update : (a.update id change).size = a.size := by
  unfold update
  split
  · exact Table.size_set a.nodes _ _
  · rfl

theorem get?_update :
    (a.update id change).nodes.get? x =
      if x = id then (a.nodes.get? x).map change else a.nodes.get? x := by
  unfold update
  split
  · rename_i n found
    have inside : Key.index id < a.nodes.size := (Array.getElem?_eq_some_iff.mp found).1
    rw [Table.get?_set]
    by_cases same : id = x
    · subst same
      simp [inside, found]
    · have apart : ¬ x = id := fun h => same h.symm
      simp [same, apart]
  · rename_i missing
    by_cases same : x = id
    · simp [same, missing]
    · simp [same]

end update

@[simp] theorem parent?_setKind : (a.setKind id kind).parent? x = a.parent? x := by
  rw [setKind_eq_update, parent?_update]

@[simp] theorem parent?_setNote : (a.setNote id note).parent? x = a.parent? x := by
  rw [setNote_eq_update, parent?_update]

@[simp] theorem size_setKind : (a.setKind id kind).size = a.size := by
  rw [setKind_eq_update, size_update]

@[simp] theorem size_setNote : (a.setNote id note).size = a.size := by
  rw [setNote_eq_update, size_update]

theorem get?_setKind :
    (a.setKind id kind).nodes.get? x =
      if x = id then (a.nodes.get? x).map fun n => { n with kind } else a.nodes.get? x := by
  rw [setKind_eq_update, get?_update]

theorem get?_setNote :
    (a.setNote id note).nodes.get? x =
      if x = id then (a.nodes.get? x).map fun n => { n with note } else a.nodes.get? x := by
  rw [setNote_eq_update, get?_update]

/-- A parent recorded, and one forgotten. -/
def link (child parent : NodeId) : Arena := { a with parents := a.parents.insert child parent }
def unlink (child : NodeId) : Arena := { a with parents := a.parents.erase child }

theorem parent?_link (parent : NodeId) :
    (a.link id parent).parent? x = if id = x then some parent else a.parent? x :=
  SideTable.get?_insert a.parents id x parent

theorem parent?_unlink : (a.unlink id).parent? x = if id = x then none else a.parent? x :=
  SideTable.get?_erase a.parents id x

@[simp] theorem get?_link (parent : NodeId) :
    (a.link id parent).nodes.get? x = a.nodes.get? x := rfl

@[simp] theorem get?_unlink : (a.unlink id).nodes.get? x = a.nodes.get? x := rfl

@[simp] theorem size_link (parent : NodeId) : (a.link id parent).size = a.size := rfl

@[simp] theorem size_unlink : (a.unlink id).size = a.size := rfl

theorem index_lt_of_get? {n : Node} (found : a.nodes.get? x = some n) : x.index < a.size :=
  (Array.getElem?_eq_some_iff.mp found).1

end LocalScope.Arena
