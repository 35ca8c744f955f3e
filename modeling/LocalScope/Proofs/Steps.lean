import LocalScope.Arena.Edit
import LocalScope.Proofs.Holding
import LocalScope.Proofs.Rows

namespace LocalScope

theorem Except.ok_bind {ε α β : Type} (x : α) (f : α → Except ε β) : (.ok x >>= f) = f x := rfl

/- The edits of slots that come up here: statements of a block, the entry of a `for` header, and the
value of an assignment. -/
namespace Kind

variable {α : Type} [DecidableEq α] {x y : α}

theorem holder?_block {ss : List α} (member : x ∈ ss) :
    (Kind.block ss).holder? x = some (.many ss) := by
  simp [holder?, slots, Slot.children, member]

theorem holder?_right (op : AssignOp) (left : α) (apart : left ≠ x) :
    (Kind.assignment op left x).holder? x = some (.one x) := by
  simp [holder?, slots, Slot.children, apart.symm]

theorem removal_block {ss : List α} (member : x ∈ ss) :
    (Kind.block ss).editFirst (.removal x) = some (.block (ss.erase x)) := by
  simp [editFirst, traverseSlots, SlotEdit.once, SlotEdit.firstTime, SlotEdit.removal, member,
    StateT.run, bind, StateT.bind, pure, StateT.pure, Id.run]

theorem insertion_block {ss : List α} (member : x ∈ ss) :
    (Kind.block ss).editFirst (.insertion x y) = some (.block (SlotEdit.insertBefore x y ss)) := by
  simp [editFirst, traverseSlots, SlotEdit.once, SlotEdit.firstTime, SlotEdit.insertion, member,
    StateT.run, bind, StateT.bind, pure, StateT.pure, Id.run]

theorem replacement_block {ss : List α} (member : x ∈ ss) :
    (Kind.block ss).editFirst (.replacement x y) = some (.block (ss.replace x y)) := by
  simp [editFirst, traverseSlots, SlotEdit.once, SlotEdit.firstTime, SlotEdit.replacement, member,
    StateT.run, bind, StateT.bind, pure, StateT.pure, Id.run]

theorem replacement_header (cond : Option α) (update : List α) (body : α) :
    (Kind.forLoop [x] cond update body).editFirst (.replacement x y) =
      some (.forLoop [y] cond update body) := by
  simp [editFirst, traverseSlots, SlotEdit.once, SlotEdit.firstTime, SlotEdit.replacement,
    StateT.run, bind, StateT.bind, pure, StateT.pure, Id.run, List.replace]

theorem replacement_right (op : AssignOp) (left : α) (apart : left ≠ x) :
    (Kind.assignment op left x).editFirst (.replacement x y) =
      some (.assignment op left y) := by
  simp [editFirst, traverseSlots, SlotEdit.once, SlotEdit.firstTime, SlotEdit.replacement,
    StateT.run, bind, StateT.bind, pure, StateT.pure, Id.run, apart]

end Kind

namespace Arena

/-- Only rows and parents of some of the old numbers have changed. -/
structure Confined (ids : List NodeId) (a b : Arena) : Prop where
  grows : a.size ≤ b.size
  rows : ∀ x, x ∉ ids → x.index < a.size → b.nodes.get? x = a.nodes.get? x
  parents : ∀ x, x ∉ ids → x.index < a.size → b.parent? x = a.parent? x

namespace Confined

variable {ids more : List NodeId} {a b c : Arena}

theorem refl : Confined ids a a := ⟨Nat.le_refl _, fun _ _ _ => rfl, fun _ _ _ => rfl⟩

theorem trans (first : Confined ids a b) (second : Confined ids b c) : Confined ids a c where
  grows := Nat.le_trans first.grows second.grows
  rows x outside old :=
    (second.rows x outside (Nat.lt_of_lt_of_le old first.grows)).trans (first.rows x outside old)
  parents x outside old :=
    (second.parents x outside (Nat.lt_of_lt_of_le old first.grows)).trans
      (first.parents x outside old)

theorem mono (changes : Confined ids a b) (within : ids ⊆ more) : Confined more a b where
  grows := changes.grows
  rows x outside := changes.rows x fun inside => outside (within inside)
  parents x outside := changes.parents x fun inside => outside (within inside)

end Confined

theorem Holds.frame_confined {a b : Arena} {t : Tree} {ids : List NodeId} (held : a.Holds t)
    (changes : Confined ids a b) (apart : ∀ x ∈ t.ids, x ∉ ids) : b.Holds t := by
  apply held.frame
  · exact fun x inside => changes.rows x (apart x inside) (held.index_lt inside)
  · exact fun x inside _ => changes.parents x (apart x inside) (held.index_lt inside)

end Arena

section bind

variable {ε σ α β : Type} {x : EStateM ε σ α} {s t : σ}

theorem bind_ok {v : α} (run : x s = .ok v t) (f : α → EStateM ε σ β) : (x >>= f) s = f v t := by
  simp only [bind, EStateM.bind, run]

theorem bind_error {e : ε} (run : x s = .error e t) (f : α → EStateM ε σ β) :
    (x >>= f) s = .error e t := by
  simp only [bind, EStateM.bind, run]

end bind

namespace Editing

variable {α β : Type} {a b : Arena}

theorem query_ok {q : Arena → Except Error α} {v : α} (answer : q a = .ok v) :
    query q a = .ok v a := by
  simp only [query, answer]

theorem query_error {q : Arena → Except Error α} {e : Error} (answer : q a = .error e) :
    query q a = .error e a := by
  simp only [query, answer]

theorem parentOf_ok {child parent : NodeId} {kind : Kind NodeId} (fault : EditFault)
    (link : a.parent? child = some parent) (answer : a.kind parent = .ok kind) :
    parentOf child fault a = .ok (parent, kind) a := by
  have known : (get : Editing Arena) a = .ok a a := rfl
  rw [parentOf, bind_ok known]
  simp only [link]
  rw [bind_ok (query_ok answer)]
  rfl

theorem parentOf_detached {child : NodeId} (fault : EditFault)
    (detached : a.parent? child = none) : parentOf child fault a = .error (.edit fault) a := by
  have known : (get : Editing Arena) a = .ok a a := rfl
  rw [parentOf, bind_ok known, detached]
  rfl

end Editing

end LocalScope
