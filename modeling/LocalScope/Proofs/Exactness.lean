import LocalScope.Proofs.Inserting
import LocalScope.Proofs.Upkeep

/-! A structural edit changes one slot of one node, or nothing at all. Lists of children and the
parent table need not agree for that. All it takes is that recorded parents have rows, and they do
in every arena that can come about. -/
namespace LocalScope

namespace Slot

variable {α : Type}

def isOne : Slot α → Bool
  | one _ => true
  | _ => false

def isMany : Slot α → Bool
  | many _ => true
  | _ => false

end Slot

namespace Kind

variable {α : Type}

/-- All that a kind is besides its children. -/
def shell (k : Kind α) : Kind Unit :=
  Id.run (k.traverseSlots ⟨fun _ => pure (), fun _ => pure none, fun _ => pure []⟩)

/-- Of the slots that count, the first to hold `x` is this one, and there the first `x` has been
exchanged for others. Nothing else is different. -/
structure Exchanged (counts : Slot α → Bool) (x : α) (slot : Slot α) (new : List α)
    (k k' : Kind α) : Prop where
  shell : k'.shell = k.shell
  slots : ∃ earlier later changed us vs,
    k.slots = earlier ++ slot :: later ∧ k'.slots = earlier ++ changed :: later ∧
    (∀ s ∈ earlier, counts s = true → x ∉ s.children) ∧ counts slot = true ∧
    slot.children = us ++ x :: vs ∧ x ∉ us ∧ changed.children = us ++ (new ++ vs)

end Kind

namespace SlotEdit

variable {α : Type}

structure Exchanges (e : SlotEdit α) (counts : Slot α → Bool) (x : α) (new : List α) : Prop where
  miss : ∀ slot, (counts slot = true → x ∉ slot.children) → e.slot? slot = none
  hit : ∀ slot, counts slot = true → x ∈ slot.children → ∃ changed us vs,
    e.slot? slot = some changed ∧ slot.children = us ++ x :: vs ∧ x ∉ us ∧
    changed.children = us ++ (new ++ vs)

theorem Changes.eq_of_first {e : SlotEdit α} {slot changed : Slot α}
    {earlier later slots' : List (Slot α)} (misses : ∀ s ∈ earlier, e.slot? s = none)
    (hit : e.slot? slot = some changed) (changes : e.Changes (earlier ++ slot :: later) slots') :
    slots' = earlier ++ changed :: later := by
  induction earlier generalizing slots' with
  | nil =>
    cases changes with
    | here found rest =>
      rw [hit, Option.some.injEq] at found
      rw [found]
      rfl
    | later miss more => simp [hit] at miss
  | cons s rest ih =>
    have missed := misses s (by simp)
    cases changes with
    | here found => simp [missed] at found
    | later miss more =>
      rw [ih (fun s inside => misses s (by simp [inside])) more]
      rfl

theorem Changes.exists_hit {e : SlotEdit α} {slots slots' : List (Slot α)}
    (changes : e.Changes slots slots') : ∃ slot ∈ slots, e.slot? slot ≠ none := by
  induction changes with
  | here hit rest => exact ⟨_, List.mem_cons_self, by simp [hit]⟩
  | later miss more ih =>
    obtain ⟨slot, inside, hit⟩ := ih
    exact ⟨slot, by simp [inside], hit⟩

variable [DecidableEq α] {x y : α}

theorem replace_append {us : List α} (vs : List α) (new : x ∉ us) :
    (us ++ x :: vs).replace x y = us ++ ([y] ++ vs) := by
  rw [List.replace_append, if_neg new, List.replace_cons_self]
  rfl

theorem erase_append {us : List α} (vs : List α) (new : x ∉ us) :
    (us ++ x :: vs).erase x = us ++ ([] ++ vs) := by
  rw [List.erase_append_right _ new, List.erase_cons_head]
  rfl

theorem insertion_exchanges (x y : α) : (insertion x y).Exchanges Slot.isMany x [y, x] where
  miss slot away := by
    cases slot with
    | many xs => simpa [slot?, insertion, Slot.children] using away rfl
    | _ => rfl
  hit slot counts holds := by
    cases slot with
    | many xs =>
      obtain ⟨us, vs, rfl, new⟩ := List.eq_append_cons_of_mem holds
      refine ⟨.many (us ++ ([y, x] ++ vs)), us, vs, ?_, rfl, new, rfl⟩
      simp [slot?, insertion, insertBefore_append us vs new]
    | _ => cases counts

theorem replacement_exchanges (x y : α) : (replacement x y).Exchanges (fun _ => true) x [y] where
  miss slot away := by
    cases slot <;> simpa [slot?, replacement, Slot.children, eq_comm] using away rfl
  hit slot _ holds := by
    cases slot with
    | one z =>
      obtain rfl := List.mem_singleton.mp holds
      exact ⟨.one y, [], [], by simp [slot?, replacement], rfl, by simp, rfl⟩
    | optional z =>
      obtain rfl := Option.mem_toList.mp holds
      exact ⟨.optional (some y), [], [], by simp [slot?, replacement], rfl, by simp, rfl⟩
    | many xs =>
      obtain ⟨us, vs, rfl, new⟩ := List.eq_append_cons_of_mem holds
      refine ⟨.many (us ++ ([y] ++ vs)), us, vs, ?_, rfl, new, rfl⟩
      simp [slot?, replacement, replace_append vs new]

theorem removal_exchanges (x : α) : (removal x).Exchanges (fun slot => !slot.isOne) x [] where
  miss slot away := by
    cases slot with
    | one z => rfl
    | optional z => simpa [slot?, removal, Slot.children] using away rfl
    | many xs => simpa [slot?, removal, Slot.children] using away rfl
  hit slot counts holds := by
    cases slot with
    | one z => cases counts
    | optional z =>
      obtain rfl := Option.mem_toList.mp holds
      exact ⟨.optional none, [], [], by simp [slot?, removal], rfl, by simp, rfl⟩
    | many xs =>
      obtain ⟨us, vs, rfl, new⟩ := List.eq_append_cons_of_mem holds
      refine ⟨.many (us ++ ([] ++ vs)), us, vs, ?_, rfl, new, rfl⟩
      simp [slot?, removal, erase_append vs new]

end SlotEdit

namespace Kind

variable {α : Type} {k k' : Kind α} {x : α} {slot : Slot α} {new : List α}
  {counts wanted : Slot α → Bool}

theorem shell_editFirst {e : SlotEdit α} (edited : k.editFirst e = some k') :
    k'.shell = k.shell := by
  have kept (h : SlotMap (StateM Bool) α α) (s : Bool) :
      ((k.traverseSlots h).run s).1.shell = k.shell := by
    cases k <;> rfl
  simp only [editFirst, Id.run] at edited
  split at edited
  · rw [← Option.some.inj edited]
    exact kept _ _
  · cases edited

theorem Exchanged.slot_mem (exchanged : k.Exchanged counts x slot new k') :
    slot ∈ k.slots ∧ counts slot = true := by
  obtain ⟨earlier, later, -, -, -, before, -, -, fits, -⟩ := exchanged.slots
  exact ⟨by simp [before], fits⟩

theorem Exchanged.children (exchanged : k.Exchanged counts x slot new k') :
    ∃ us vs, k.children = us ++ x :: vs ∧ k'.children = us ++ (new ++ vs) := by
  obtain ⟨earlier, later, changed, us, vs, before, after, -, -, held, -, holds⟩ := exchanged.slots
  refine ⟨earlier.flatMap Slot.children ++ us, vs ++ later.flatMap Slot.children, ?_, ?_⟩
  · simp [Kind.children, before, held]
  · simp [Kind.children, after, holds]

theorem first_holder [DecidableEq α] (k : Kind α) (counts : Slot α → Bool) (x : α) :
    (∀ s ∈ k.slots, counts s = true → x ∉ s.children) ∨
    ∃ earlier slot later, k.slots = earlier ++ slot :: later ∧
      (∀ s ∈ earlier, counts s = true → x ∉ s.children) ∧ counts slot = true ∧
      x ∈ slot.children := by
  cases found : k.slots.find? (fun s => counts s && decide (x ∈ s.children)) with
  | none =>
    left
    simpa using found
  | some slot =>
    obtain ⟨fits, earlier, later, split, others⟩ := List.find?_eq_some_iff_append.mp found
    right
    refine ⟨earlier, slot, later, split, ?_, by simpa using fits⟩
    intro s inside counted
    simpa [counted] using others s inside

theorem holder?_of_clear [DecidableEq α] (clear : ∀ s ∈ k.slots, x ∉ s.children) :
    k.holder? x = none := by
  simpa [holder?] using clear

theorem holder?_of_first [DecidableEq α] {earlier later : List (Slot α)}
    (split : k.slots = earlier ++ slot :: later) (clear : ∀ s ∈ earlier, x ∉ s.children)
    (holds : x ∈ slot.children) : k.holder? x = some slot := by
  refine List.find?_eq_some_iff_append.mpr ⟨by simpa using holds, earlier, later, split, ?_⟩
  simpa using clear

theorem editFirst_of_clear {e : SlotEdit α} (edit : e.Exchanges counts x new)
    (clear : ∀ s ∈ k.slots, counts s = true → x ∉ s.children) : k.editFirst e = none := by
  rcases editFirst_cases e k with ⟨run, -⟩ | ⟨k', -, changes⟩
  · exact run
  · obtain ⟨slot, inside, hit⟩ := changes.exists_hit
    exact absurd (edit.miss slot (clear slot inside)) hit

theorem exchanged_of_first {e : SlotEdit α} (edit : e.Exchanges counts x new)
    (wide : ∀ s, counts s = true → wanted s = true) {earlier later : List (Slot α)}
    (split : k.slots = earlier ++ slot :: later)
    (clear : ∀ s ∈ earlier, wanted s = true → x ∉ s.children) (fits : counts slot = true)
    (holds : x ∈ slot.children) :
    ∃ k', k.editFirst e = some k' ∧ k.Exchanged wanted x slot new k' := by
  obtain ⟨changed, us, vs, hit, before, first, after⟩ := edit.hit slot fits holds
  have inside : slot ∈ k.slots := by simp [split]
  obtain ⟨k', run⟩ := exists_editFirst (e := e) inside (by simp [hit])
  have changes := changes_of_editFirst run
  rw [split] at changes
  have misses (s : Slot α) (inside : s ∈ earlier) : e.slot? s = none :=
    edit.miss s fun counted => clear s inside (wide s counted)
  exact ⟨k', run, shell_editFirst run, earlier, later, changed, us, vs, split,
    changes.eq_of_first misses hit, clear, wide slot fits, before, first, after⟩

end Kind

/-- The structural edits. -/
inductive Revision where
  | insertBefore (anchor child : NodeId)
  | replace (old new : NodeId)
  | remove (child : NodeId)

namespace Revision

def perform : Revision → Editing Unit
  | insertBefore anchor child => Editing.insertBefore anchor child
  | replace old new => Editing.replace old new
  | remove child => Editing.remove child

/-- The node whose place it is about. -/
def subject : Revision → NodeId
  | insertBefore anchor _ => anchor
  | replace old _ => old
  | remove child => child

/-- The slots in which that place is looked for. -/
def counts : Revision → Slot NodeId → Bool
  | insertBefore _ _ => Slot.isMany
  | replace _ _ | remove _ => fun _ => true

/-- What comes to stand in that place. -/
def put (a : Arena) (slot : Slot NodeId) : Revision → List NodeId
  | insertBefore anchor child => [child, anchor]
  | replace _ new => [new]
  | remove _ => if slot.isOne then [⟨a.size⟩] else []

end Revision

namespace Arena

/-- Of the old rows only one has changed, and of it only the kind. -/
structure Rekinded (a b : Arena) (p : NodeId) (before after : Kind NodeId) : Prop where
  row : ∃ note, a.nodes.get? p = some ⟨before, note⟩ ∧ b.nodes.get? p = some ⟨after, note⟩
  others : ∀ x, x ≠ p → x.index < a.size → b.nodes.get? x = a.nodes.get? x

/-- How many nodes there are afterwards, and which parents they have. -/
def Recorded (a b : Arena) (p : NodeId) (slot : Slot NodeId) : Revision → Prop
  | .insertBefore _ child =>
    b.size = a.size ∧ ∀ x, b.parent? x = if x = child then some p else a.parent? x
  | .replace old new =>
    b.size = a.size ∧
      ∀ x, b.parent? x = if x = new then some p else if x = old then none else a.parent? x
  | .remove child =>
    if slot.isOne then
      b.size = a.size + 1 ∧ b.nodes.get? ⟨a.size⟩ = some ⟨.empty, {}⟩ ∧
        ∀ x, b.parent? x =
          if x = child then none else if x = ⟨a.size⟩ then some p else a.parent? x
    else b.size = a.size ∧ ∀ x, b.parent? x = if x = child then none else a.parent? x

/-- An edit done exactly: in the recorded parent the first place of its subject is filled anew. -/
def Revised (a b : Arena) (r : Revision) : Prop :=
  ∃ p before after slot, a.parent? r.subject = some p ∧ a.Rekinded b p before after ∧
    before.Exchanged r.counts r.subject slot (r.put a slot) after ∧
    (∃ us vs, before.children = us ++ r.subject :: vs ∧
      after.children = us ++ (r.put a slot ++ vs)) ∧
    a.Recorded b p slot r

/-- There is no place to edit: no parent is recorded, or it does not list the subject. -/
def Placeless (a : Arena) (r : Revision) : Prop :=
  ∀ p n, a.parent? r.subject = some p → a.nodes.get? p = some n →
    ∀ slot ∈ n.kind.slots, r.counts slot = true → r.subject ∉ slot.children

def Anchored (a : Arena) : Prop := ∀ x p, a.parent? x = some p → p.index < a.size

variable {a b : Arena} {p : NodeId} {n : Node} {kind : Kind NodeId}

theorem rekinded_setKind (row : a.nodes.get? p = some n)
    (nodes : b.nodes = (a.setKind p kind).nodes) : a.Rekinded b p n.kind kind where
  row := ⟨n.note, row, by rw [nodes, get?_relisted kind row, if_pos rfl]⟩
  others x apart _ := by rw [nodes, get?_relisted kind row, if_neg apart]

theorem rekinded_push (added : Kind NodeId) (row : a.nodes.get? p = some n)
    (nodes : b.nodes = ((a.push added).2.setKind p kind).nodes) : a.Rekinded b p n.kind kind := by
  have old : p.index < a.size := a.index_lt_of_get? p row
  have rekinded := rekinded_setKind ((get?_push_old old added {}).trans row) nodes
  constructor
  · obtain ⟨note, before, after⟩ := rekinded.row
    exact ⟨note, (get?_push_old old added {}).symm.trans before, after⟩
  · intro x apart inside
    rw [rekinded.others x apart (by rw [size_push]; omega), get?_push_old inside added {}]

end Arena

namespace Editing

variable {a : Arena} {x y p : NodeId} {n : Node}

section Recorded

variable (recorded : a.parent? x = some p) (row : a.nodes.get? p = some n)
include recorded row

theorem parentOf_recorded (fault : EditFault) : parentOf x fault a = .ok (p, n.kind) a :=
  parentOf_ok fault recorded (Arena.kind_of_row row)

section Runs

variable {kind : Kind NodeId}

theorem insertBefore_edited (edited : n.kind.editFirst (.insertion x y) = some kind) :
    insertBefore x y a = .ok () ((a.setKind p kind).link y p) := by
  rw [insertBefore, bind_ok (parentOf_recorded recorded row _)]
  simp only [edited]
  rfl

theorem insertBefore_refused (unheld : n.kind.editFirst (.insertion x y) = none) :
    insertBefore x y a = .error (.edit (.anchorNotListed x p)) a := by
  rw [insertBefore, bind_ok (parentOf_recorded recorded row _)]
  simp only [unheld]
  rfl

theorem replace_edited (edited : n.kind.editFirst (.replacement x y) = some kind) :
    replace x y a = .ok () (((a.setKind p kind).unlink x).link y p) := by
  rw [replace, bind_ok (parentOf_recorded recorded row _)]
  simp only [edited]
  rfl

theorem replace_refused (unheld : n.kind.editFirst (.replacement x y) = none) :
    replace x y a = .error (.edit (.notAChild x p)) a := by
  rw [replace, bind_ok (parentOf_recorded recorded row _)]
  simp only [unheld]
  rfl

theorem remove_filled {z : NodeId} (held : n.kind.holder? x = some (.one z))
    (edited : n.kind.editFirst (.replacement x ⟨a.size⟩) = some kind) :
    remove x a =
      .ok () ((((a.push .empty).2.setKind p kind).link ⟨a.size⟩ p).unlink x) := by
  have filler : (add .empty : Editing NodeId) a = .ok ⟨a.size⟩ (a.push .empty).2 := rfl
  rw [remove, bind_ok (parentOf_recorded recorded row _)]
  simp only [held]
  rw [bind_ok filler, edited]
  rfl

theorem remove_dropped {slot : Slot NodeId} (held : n.kind.holder? x = some slot)
    (free : slot.isOne = false) (edited : n.kind.editFirst (.removal x) = some kind) :
    remove x a = .ok () ((a.setKind p kind).unlink x) := by
  rw [remove, bind_ok (parentOf_recorded recorded row _)]
  simp only [held]
  cases slot with
  | one z => cases free
  | optional z => rw [edited]; rfl
  | many xs => rw [edited]; rfl

theorem remove_refused (unheld : n.kind.holder? x = none) :
    remove x a = .error (.edit (.notAChild x p)) a := by
  rw [remove, bind_ok (parentOf_recorded recorded row _)]
  simp only [unheld]
  rfl

end Runs

section Places

variable {earlier later : List (Slot NodeId)} {slot : Slot NodeId}
  (split : n.kind.slots = earlier ++ slot :: later) (holds : x ∈ slot.children)
include split holds

theorem insertBefore_revised (y : NodeId)
    (clear : ∀ s ∈ earlier, s.isMany = true → x ∉ s.children) (list : slot.isMany = true) :
    ∃ b, insertBefore x y a = .ok () b ∧ a.Revised b (.insertBefore x y) := by
  obtain ⟨kind, edited, exchanged⟩ := Kind.exchanged_of_first
    (SlotEdit.insertion_exchanges x y) (fun _ => id) split clear list holds
  refine ⟨_, insertBefore_edited recorded row edited, p, n.kind, kind, slot, recorded,
    Arena.rekinded_setKind row rfl, exchanged, exchanged.children, ?_⟩
  simp [Arena.Recorded, Arena.parent?_link, eq_comm]

variable (clear : ∀ s ∈ earlier, x ∉ s.children)
include clear

theorem replace_revised (y : NodeId) :
    ∃ b, replace x y a = .ok () b ∧ a.Revised b (.replace x y) := by
  obtain ⟨kind, edited, exchanged⟩ := Kind.exchanged_of_first
    (SlotEdit.replacement_exchanges x y) (fun _ => id) split (fun s inside _ => clear s inside) rfl
    holds
  refine ⟨_, replace_edited recorded row edited, p, n.kind, kind, slot, recorded,
    Arena.rekinded_setKind row rfl, exchanged, exchanged.children, ?_⟩
  simp [Arena.Recorded, Arena.parent?_link, Arena.parent?_unlink, eq_comm]

theorem remove_revised_filled (place : slot.isOne = true) :
    ∃ b, remove x a = .ok () b ∧ a.Revised b (.remove x) := by
  obtain ⟨kind, edited, exchanged⟩ := Kind.exchanged_of_first
    (SlotEdit.replacement_exchanges x ⟨a.size⟩) (fun _ => id) split
    (fun s inside _ => clear s inside) rfl holds
  have held := Kind.holder?_of_first split clear holds
  cases slot with
  | one z =>
    refine ⟨_, remove_filled recorded row held edited, p, n.kind, kind, .one z, recorded,
      Arena.rekinded_push .empty row rfl, exchanged, exchanged.children, ?_⟩
    have old : (⟨a.size⟩ : NodeId) ≠ p := by
      rintro rfl
      exact Nat.lt_irrefl _ (a.index_lt_of_get? _ row)
    simp [Arena.Recorded, Slot.isOne, Arena.parent?_unlink, Arena.parent?_link, Arena.parent?_push,
      Arena.get?_setKind, Arena.get?_push, Kind.children, Kind.slots, old, eq_comm]
  | _ => cases place

theorem remove_revised_dropped (place : slot.isOne = false) :
    ∃ b, remove x a = .ok () b ∧ a.Revised b (.remove x) := by
  obtain ⟨kind, edited, exchanged⟩ := Kind.exchanged_of_first
    (SlotEdit.removal_exchanges x) (fun _ _ => rfl) split (fun s inside _ => clear s inside)
    (by simp [place]) holds
  have held := Kind.holder?_of_first split clear holds
  have put : Revision.put a slot (.remove x) = [] := by simp [Revision.put, place]
  refine ⟨_, remove_dropped recorded row held place edited, p, n.kind, kind, slot,
    recorded, Arena.rekinded_setKind row rfl, put ▸ exchanged, put ▸ exchanged.children, ?_⟩
  simp [Arena.Recorded, place, Arena.parent?_unlink, eq_comm]

end Places

end Recorded

end Editing

namespace Revision

open Arena

variable {a b : Arena} {p : NodeId} {n : Node} {r : Revision}

section Recorded

variable (recorded : a.parent? r.subject = some p) (row : a.nodes.get? p = some n)
include recorded row

theorem refused_of_clear
    (clear : ∀ s ∈ n.kind.slots, r.counts s = true → r.subject ∉ s.children) :
    ∃ fault, r.perform a = .error (.edit fault) a := by
  cases r with
  | insertBefore anchor child =>
    have unheld := Kind.editFirst_of_clear (SlotEdit.insertion_exchanges anchor child) clear
    exact ⟨_, Editing.insertBefore_refused recorded row unheld⟩
  | replace old new =>
    have unheld := Kind.editFirst_of_clear (SlotEdit.replacement_exchanges old new) clear
    exact ⟨_, Editing.replace_refused recorded row unheld⟩
  | remove child =>
    have unheld := Kind.holder?_of_clear fun s inside => clear s inside rfl
    exact ⟨_, Editing.remove_refused recorded row unheld⟩

theorem revised_of_first {earlier later : List (Slot NodeId)} {slot : Slot NodeId}
    (split : n.kind.slots = earlier ++ slot :: later)
    (clear : ∀ s ∈ earlier, r.counts s = true → r.subject ∉ s.children)
    (fits : r.counts slot = true) (holds : r.subject ∈ slot.children) :
    ∃ b, r.perform a = .ok () b ∧ a.Revised b r := by
  cases r with
  | insertBefore anchor child =>
    exact Editing.insertBefore_revised recorded row split holds child clear fits
  | replace old new =>
    exact Editing.replace_revised recorded row split holds (fun s inside => clear s inside rfl) new
  | remove child =>
    have unlisted (s : Slot NodeId) (inside : s ∈ earlier) := clear s inside rfl
    cases place : slot.isOne with
    | true => exact Editing.remove_revised_filled recorded row split holds unlisted place
    | false => exact Editing.remove_revised_dropped recorded row split holds unlisted place

end Recorded

theorem refused_of_detached (r : Revision) (detached : a.parent? r.subject = none) :
    ∃ fault, r.perform a = .error (.edit fault) a := by
  cases r <;> exact ⟨_, bind_error (Editing.parentOf_detached _ detached) _⟩

theorem outcome (anchored : a.Anchored) (r : Revision) :
    (∃ fault, r.perform a = .error (.edit fault) a ∧ a.Placeless r) ∨
    ∃ b, r.perform a = .ok () b ∧ a.Revised b r := by
  cases recorded : a.parent? r.subject with
  | none =>
    obtain ⟨fault, run⟩ := r.refused_of_detached recorded
    exact .inl ⟨fault, run, fun p n found => by simp [recorded] at found⟩
  | some p =>
    obtain ⟨n, row⟩ : ∃ n, a.nodes.get? p = some n :=
      ⟨_, Array.getElem?_eq_getElem (anchored _ p recorded)⟩
    rcases n.kind.first_holder r.counts r.subject with
      clear | ⟨earlier, slot, later, split, clear, fits, holds⟩
    · obtain ⟨fault, run⟩ := refused_of_clear recorded row clear
      refine .inl ⟨fault, run, fun p' n' recorded' row' => ?_⟩
      rw [recorded, Option.some.injEq] at recorded'
      subst recorded'
      rw [row, Option.some.injEq] at row'
      exact row' ▸ clear
    · exact .inr (revised_of_first recorded row split clear fits holds)

end Revision

namespace Arena

variable {a b : Arena}

theorem Revised.anchored {r : Revision} (anchored : a.Anchored) (revised : a.Revised b r) :
    b.Anchored := by
  obtain ⟨p, before, after, slot, recorded, -, -, -, books⟩ := revised
  have inside := anchored _ p recorded
  intro x q found
  have kept (known : a.parent? x = some q) := anchored x q known
  cases r <;> grind [Recorded]

theorem Anchored.push (anchored : a.Anchored) (kind : Kind NodeId) (note : Annotation) :
    (a.push kind note).2.Anchored := by
  intro x p found
  rw [parent?_push] at found
  rw [size_push]
  split at found
  · obtain rfl := Option.some.inj found
    exact Nat.lt_succ_self _
  · exact Nat.lt_succ_of_lt (anchored x p found)

theorem Anchored.setKind (anchored : a.Anchored) (id : NodeId) (kind : Kind NodeId) :
    (a.setKind id kind).Anchored := by
  intro x p found
  rw [parent?_setKind] at found
  rw [size_setKind]
  exact anchored x p found

theorem Anchored.adopt (anchored : a.Anchored) {owner : NodeId} (inside : owner.index < a.size)
    (children : List NodeId) : (a.adopt owner children).Anchored := by
  intro x p found
  rw [parent?_adopt] at found
  split at found
  · obtain rfl := Option.some.inj found
    exact inside
  · exact anchored x p found

/- An owner has been looked at before anything is recorded for it. Where one is missing it stops
half way, with what it has recorded so far. -/
theorem Anchored.adoptAll (owners : List NodeId) (anchored : a.Anchored) :
    ((Editing.adoptAll owners).after a).Anchored := by
  induction owners generalizing a with
  | nil => exact anchored
  | cons owner rest ih =>
    cases answer : a.kind owner with
    | error e =>
      have run : Editing.adoptAll (owner :: rest) a = .error e a :=
        bind_error (bind_error (Editing.query_error answer) _) _
      rw [Editing.after, run]
      exact anchored
    | ok kind =>
      obtain ⟨n, row, -⟩ := row_of_kind answer
      have step : (Editing.query (·.kind owner) >>= fun kind => modify fun a =>
          a.adopt owner kind.children) a = .ok () (a.adopt owner kind.children) :=
        bind_ok (Editing.query_ok answer) _
      have run : Editing.adoptAll (owner :: rest) a =
          Editing.adoptAll rest (a.adopt owner kind.children) := bind_ok step _
      rw [Editing.after, run]
      exact ih (anchored.adopt (a.index_lt_of_get? owner row) kind.children)

theorem Anchored.rebuildParents (anchored : a.Anchored) (root : NodeId) :
    ((Editing.rebuildParents root).after a).Anchored := by
  simp only [Editing.after, Editing.rebuildParents]
  cases answer : a.whole root with
  | error e =>
    rw [bind_error (Editing.query_error answer)]
    exact anchored
  | ok tree =>
    have forgotten : ({ a with parents := {} } : Arena).Anchored := by
      intro x p found
      simp [parent?, SideTable.get?] at found
    rw [bind_ok (Editing.query_ok answer)]
    exact forgotten.adoptAll (Tree.ids tree)

theorem Anchored.perform (anchored : a.Anchored) (r : Revision) :
    (r.perform.after a).Anchored := by
  rcases r.outcome anchored with ⟨fault, run, -⟩ | ⟨b, run, revised⟩
  · rw [Editing.after, run]
    exact anchored
  · rw [Editing.after, run]
    exact revised.anchored anchored

/-- Arenas that can come about when nodes are added, given any kind at all, and revised, and parents
are looked for anew now and then. Lists and the parent table may say different things. -/
inductive Reachable : Arena → Prop
  | empty : Reachable {}
  | add {a : Arena} (reachable : Reachable a) (kind : Kind NodeId) (note : Annotation) :
    Reachable (a.push kind note).2
  | relink {a : Arena} (reachable : Reachable a) (id : NodeId) (kind : Kind NodeId) :
    Reachable (a.setKind id kind)
  | rebuild {a : Arena} (reachable : Reachable a) (root : NodeId) :
    Reachable ((Editing.rebuildParents root).after a)
  | revise {a : Arena} (reachable : Reachable a) (r : Revision) : Reachable (r.perform.after a)

theorem Reachable.anchored (reachable : a.Reachable) : a.Anchored := by
  induction reachable with
  | empty =>
    intro x p found
    simp [parent?, SideTable.get?] at found
  | add _ kind note before => exact before.push kind note
  | relink _ id kind before => exact before.setKind id kind
  | rebuild _ root before => exact before.rebuildParents root
  | revise _ r before => exact before.perform r

end Arena

namespace Revision

open Arena

/-- In any arena that can come about, however lists and the parent table disagree, a structural edit
is refused and changes nothing, or it is done exactly. It is refused only where there is no place
for it. -/
theorem revised_or_unchanged {a : Arena} (reachable : a.Reachable) (r : Revision) :
    (∃ fault, r.perform a = .error (.edit fault) a ∧ a.Placeless r) ∨
    ∃ b, r.perform a = .ok () b ∧ a.Revised b r :=
  r.outcome reachable.anchored

end Revision

namespace Arena

/-- A loop with one node as its condition and as its body, which stands in a block as well, next to
another that stands there twice. Both came into the block past the parent table. -/
def tangled : Arena :=
  let first := (({} : Arena).push .empty).2
  let second := (first.push .empty).2
  let block := (second.push (.block [⟨1⟩])).2
  let loop := (block.push (.whileLoop ⟨0⟩ ⟨0⟩)).2
  loop.setKind ⟨2⟩ (.block [⟨1⟩, ⟨0⟩, ⟨1⟩])

theorem reachable_tangled : tangled.Reachable :=
  ((((Reachable.empty.add .empty {}).add .empty {}).add (.block [⟨1⟩]) {}).add
    (.whileLoop ⟨0⟩ ⟨0⟩) {}).relink ⟨2⟩ (.block [⟨1⟩, ⟨0⟩, ⟨1⟩])

end Arena

namespace Revision

open Arena

/- The block does list the first node, but it is not the recorded parent, and the loop has no list
to put anything into. Removed from there, the node leaves the block as it is. -/
theorem revised_or_unchanged_tangled :
    (∃ fault, (insertBefore ⟨0⟩ ⟨1⟩).perform tangled = .error (.edit fault) tangled) ∧
      ∃ b, (remove ⟨0⟩).perform tangled = .ok () b ∧ b.size = 5 ∧
        b.nodes.get? ⟨4⟩ = some ⟨.empty, {}⟩ ∧ b.nodes.get? ⟨2⟩ = tangled.nodes.get? ⟨2⟩ := by
  have parent : tangled.parent? ⟨0⟩ = some ⟨3⟩ := by decide +kernel
  have loop : tangled.nodes.get? ⟨3⟩ = some ⟨.whileLoop ⟨0⟩ ⟨0⟩, {}⟩ := by decide +kernel
  constructor
  · rcases revised_or_unchanged reachable_tangled (insertBefore ⟨0⟩ ⟨1⟩) with
      ⟨fault, run, -⟩ | ⟨b, -, p, before, after, slot, recorded, rekinded, exchanged, -⟩
    · exact ⟨fault, run⟩
    · obtain rfl := Option.some.inj (parent.symm.trans recorded)
      obtain ⟨note, row, -⟩ := rekinded.row
      cases loop.symm.trans row
      obtain ⟨inside, fits⟩ := exchanged.slot_mem
      obtain rfl : slot = .one ⟨0⟩ := by simpa [Kind.slots] using inside
      cases fits
  · rcases revised_or_unchanged reachable_tangled (remove ⟨0⟩) with
      ⟨-, -, nowhere⟩ | ⟨b, run, p, before, after, slot, recorded, rekinded, exchanged, -, books⟩
    · exact absurd (by decide) (nowhere ⟨3⟩ _ parent loop (.one ⟨0⟩) (by decide) rfl)
    · obtain rfl := Option.some.inj (parent.symm.trans recorded)
      obtain ⟨note, row, -⟩ := rekinded.row
      cases loop.symm.trans row
      obtain rfl : slot = .one ⟨0⟩ := by simpa [Kind.slots] using exchanged.slot_mem.1
      exact ⟨b, run, books.1, books.2.1, rekinded.others ⟨2⟩ (by decide) (by decide +kernel)⟩

end Revision

end LocalScope
