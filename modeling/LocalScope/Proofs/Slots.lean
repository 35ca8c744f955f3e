import Mathlib
import LocalScope.Code.Slot

namespace LocalScope

variable {α β σ : Type}

namespace SlotMap

variable (h : SlotMap (StateM σ) α β)

def visit (s : σ) : Slot α → Slot β × σ
  | .one x => (.one (h.one x s).1, (h.one x s).2)
  | .optional x => (.optional (h.optional x s).1, (h.optional x s).2)
  | .many xs => (.many (h.many xs s).1, (h.many xs s).2)

def visitAll : σ → List (Slot α) → List (Slot β) × σ
  | s, [] => ([], s)
  | s, slot :: rest =>
    let here := h.visit s slot
    let later := visitAll here.2 rest
    (here.1 :: later.1, later.2)

end SlotMap

/- The only place where the kinds are told apart. -/
theorem Kind.slots_traverseSlots (h : SlotMap (StateM σ) α β) (s : σ) (k : Kind α) :
    (((k.traverseSlots h).run s).1.slots, ((k.traverseSlots h).run s).2) =
      h.visitAll s k.slots := by
  cases k <;> rfl

namespace SlotEdit

def slot? (e : SlotEdit α) : Slot α → Option (Slot α)
  | .one x => (e.one x).map .one
  | .optional x => (e.optional x).map .optional
  | .many xs => (e.many xs).map .many

/-- The first slot that an edit is about is changed, and no other. -/
inductive Changes (e : SlotEdit α) : List (Slot α) → List (Slot α) → Prop
  | here {slot changed : Slot α} (hit : e.slot? slot = some changed) (rest : List (Slot α)) :
    Changes e (slot :: rest) (changed :: rest)
  | later {slot : Slot α} {rest rest' : List (Slot α)} (miss : e.slot? slot = none)
    (more : Changes e rest rest') : Changes e (slot :: rest) (slot :: rest')

variable {e : SlotEdit α} {slot changed : Slot α} {slots slots' : List (Slot α)}

theorem firstTime_none {edit : σ → Option σ} {content : σ} (miss : edit content = none) :
    firstTime edit content false = (content, false) := by
  simp [firstTime, miss]

theorem firstTime_some {edit : σ → Option σ} {content content' : σ}
    (hit : edit content = some content') : firstTime edit content false = (content', true) := by
  simp [firstTime, hit]

theorem visit_miss (miss : e.slot? slot = none) : e.once.visit false slot = (slot, false) := by
  cases slot <;> rw [slot?, Option.map_eq_none_iff] at miss <;>
    simp [SlotMap.visit, once, firstTime_none miss]

theorem visit_hit (hit : e.slot? slot = some changed) :
    e.once.visit false slot = (changed, true) := by
  cases slot <;> obtain ⟨content, found, rfl⟩ := Option.map_eq_some_iff.mp hit <;>
    simp [SlotMap.visit, once, firstTime_some found]

theorem visitAll_done (e : SlotEdit α) (slots : List (Slot α)) :
    e.once.visitAll true slots = (slots, true) := by
  induction slots with
  | nil => rfl
  | cons slot rest ih =>
    have same : e.once.visit true slot = (slot, true) := by cases slot <;> rfl
    simp only [SlotMap.visitAll, same, ih]

theorem visitAll_cases (e : SlotEdit α) (slots : List (Slot α)) :
    (e.once.visitAll false slots = (slots, false) ∧ ∀ slot ∈ slots, e.slot? slot = none) ∨
    ∃ slots', e.once.visitAll false slots = (slots', true) ∧ e.Changes slots slots' := by
  induction slots with
  | nil => exact .inl ⟨rfl, by simp⟩
  | cons slot rest ih =>
    cases found : e.slot? slot with
    | some changed =>
      refine .inr ⟨changed :: rest, ?_, .here found rest⟩
      simp only [SlotMap.visitAll, visit_hit found, visitAll_done]
    | none =>
      rcases ih with ⟨run, misses⟩ | ⟨rest', run, changes⟩
      · refine .inl ⟨?_, List.forall_mem_cons.mpr ⟨found, misses⟩⟩
        simp only [SlotMap.visitAll, visit_miss found, run]
      · refine .inr ⟨slot :: rest', ?_, .later found changes⟩
        simp only [SlotMap.visitAll, visit_miss found, run]

theorem Changes.perm (changes : e.Changes slots slots') (out new : List α)
    (each : ∀ slot changed, e.slot? slot = some changed →
      (out ++ changed.children).Perm (new ++ slot.children)) :
    (out ++ slots'.flatMap Slot.children).Perm (new ++ slots.flatMap Slot.children) := by
  induction changes with
  | here hit rest =>
    simp only [List.flatMap_cons, ← List.append_assoc]
    exact (each _ _ hit).append_right _
  | @later slot rest rest' miss more ih =>
    simp only [List.flatMap_cons]
    calc out ++ (slot.children ++ rest'.flatMap Slot.children)
      _ |>.Perm (slot.children ++ (out ++ rest'.flatMap Slot.children)) :=
        List.perm_append_comm_assoc ..
      _ |>.Perm (slot.children ++ (new ++ rest.flatMap Slot.children)) := ih.append_left _
      _ |>.Perm (new ++ (slot.children ++ rest.flatMap Slot.children)) :=
        List.perm_append_comm_assoc ..

variable [DecidableEq α] {x y : α}

theorem perm_insertBefore {xs : List α} (member : x ∈ xs) :
    (insertBefore x y xs).Perm (y :: xs) := by
  induction xs with
  | nil => cases member
  | cons z rest ih =>
    by_cases same : z = x
    · simp [insertBefore, same]
    · have later : x ∈ rest := by simpa [Ne.symm same] using member
      rw [insertBefore, if_neg same]
      exact ((ih later).cons z).trans (List.Perm.swap y z rest)

theorem perm_replace {xs : List α} (member : x ∈ xs) : (x :: xs.replace x y).Perm (y :: xs) := by
  induction xs with
  | nil => cases member
  | cons z rest ih =>
    by_cases same : z = x
    · subst same
      rw [List.replace_cons_self]
      exact List.Perm.swap y z rest
    · have later : x ∈ rest := by simpa [Ne.symm same] using member
      have apart : (x == z) = false := beq_eq_false_iff_ne.mpr (Ne.symm same)
      rw [List.replace_cons, apart]
      exact ((List.Perm.swap z x _).trans ((ih later).cons z)).trans (List.Perm.swap y z rest)

theorem perm_insertion (hit : (insertion x y).slot? slot = some changed) :
    ([] ++ changed.children).Perm ([y] ++ slot.children) := by
  cases slot with
  | many xs =>
    by_cases member : x ∈ xs
    · simp only [slot?, insertion, if_pos member, Option.map_some, Option.some.injEq] at hit
      subst hit
      exact perm_insertBefore member
    · simp [slot?, insertion, member] at hit
  | _ => cases hit

theorem perm_replacement (hit : (replacement x y).slot? slot = some changed) :
    ([x] ++ changed.children).Perm ([y] ++ slot.children) := by
  cases slot with
  | one z =>
    by_cases same : z = x
    · simp only [slot?, replacement, if_pos same, Option.map_some, Option.some.injEq] at hit
      subst hit same
      exact List.Perm.swap y z []
    · simp [slot?, replacement, same] at hit
  | optional z =>
    by_cases same : z = some x
    · simp only [slot?, replacement, if_pos same, Option.map_some, Option.some.injEq] at hit
      subst hit same
      exact List.Perm.swap y x []
    · simp [slot?, replacement, same] at hit
  | many xs =>
    by_cases member : x ∈ xs
    · simp only [slot?, replacement, if_pos member, Option.map_some, Option.some.injEq] at hit
      subst hit
      exact perm_replace member
    · simp [slot?, replacement, member] at hit

theorem perm_removal (hit : (removal x).slot? slot = some changed) :
    ([x] ++ changed.children).Perm ([] ++ slot.children) := by
  cases slot with
  | one z => cases hit
  | optional z =>
    by_cases same : z = some x
    · simp only [slot?, removal, if_pos same, Option.map_some, Option.some.injEq] at hit
      subst hit same
      exact List.Perm.refl [x]
    · simp [slot?, removal, same] at hit
  | many xs =>
    by_cases member : x ∈ xs
    · simp only [slot?, removal, if_pos member, Option.map_some, Option.some.injEq] at hit
      subst hit
      exact (List.perm_cons_erase member).symm
    · simp [slot?, removal, member] at hit

theorem replacement_hit (member : x ∈ slot.children) : (replacement x y).slot? slot ≠ none := by
  cases slot <;> simp_all [slot?, replacement, Slot.children, eq_comm]

theorem removal_hit (member : x ∈ slot.children) (free : ∀ z, slot ≠ .one z) :
    (removal x).slot? slot ≠ none := by
  cases slot <;> simp_all [slot?, removal, Slot.children, eq_comm]

end SlotEdit

namespace Kind

theorem editFirst_cases (e : SlotEdit α) (k : Kind α) :
    (k.editFirst e = none ∧ ∀ slot ∈ k.slots, e.slot? slot = none) ∨
    ∃ k', k.editFirst e = some k' ∧ e.Changes k.slots k'.slots := by
  have visited := slots_traverseSlots e.once false k
  rcases SlotEdit.visitAll_cases e k.slots with ⟨run, misses⟩ | ⟨slots', run, changes⟩
  · rw [run, Prod.mk.injEq] at visited
    refine .inl ⟨?_, misses⟩
    simp only [editFirst, Id.run, visited.2]
    rfl
  · rw [run, Prod.mk.injEq] at visited
    refine .inr ⟨_, ?_, visited.1 ▸ changes⟩
    simp only [editFirst, Id.run, visited.2]
    rfl

variable {k k' : Kind α}

theorem changes_of_editFirst {e : SlotEdit α} (edited : k.editFirst e = some k') :
    e.Changes k.slots k'.slots := by
  rcases editFirst_cases e k with ⟨none, -⟩ | ⟨_, run, changes⟩
  · simp [none] at edited
  · rw [run, Option.some.injEq] at edited
    exact edited ▸ changes

theorem exists_editFirst {e : SlotEdit α} {slot : Slot α} (member : slot ∈ k.slots)
    (hit : e.slot? slot ≠ none) : ∃ k', k.editFirst e = some k' := by
  rcases editFirst_cases e k with ⟨-, misses⟩ | ⟨k', run, -⟩
  · exact absurd (misses slot member) hit
  · exact ⟨k', run⟩

variable [DecidableEq α] {x y : α}

theorem children_insertion (edited : k.editFirst (.insertion x y) = some k') :
    k'.children.Perm (y :: k.children) :=
  (changes_of_editFirst edited).perm [] [y] fun _ _ => SlotEdit.perm_insertion

theorem children_replacement (edited : k.editFirst (.replacement x y) = some k') :
    (x :: k'.children).Perm (y :: k.children) :=
  (changes_of_editFirst edited).perm [x] [y] fun _ _ => SlotEdit.perm_replacement

theorem children_removal (edited : k.editFirst (.removal x) = some k') :
    (x :: k'.children).Perm k.children :=
  (changes_of_editFirst edited).perm [x] [] fun _ _ => SlotEdit.perm_removal

theorem holder?_isSome (member : x ∈ k.children) : ∃ slot, k.holder? x = some slot := by
  obtain ⟨slot, inside, holds⟩ := List.mem_flatMap.mp member
  cases found : k.holder? x with
  | some slot => exact ⟨slot, rfl⟩
  | none => simpa [holds] using List.find?_eq_none.mp found slot inside

theorem mem_of_holder? {slot : Slot α} (held : k.holder? x = some slot) :
    slot ∈ k.slots ∧ x ∈ slot.children :=
  ⟨List.mem_of_find?_eq_some held, by simpa using List.find?_some held⟩

end Kind

end LocalScope
