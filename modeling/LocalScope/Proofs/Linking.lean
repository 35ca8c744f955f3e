import LocalScope.Proofs.Raising
import LocalScope.Proofs.Slots
import LocalScope.Proofs.Steps

/-! Lists of children and the parent table in step with each other. An edit changes one row and the
table separately; what it takes out and what it puts in decides whether they still agree, and
whether a node has come to stand below itself. -/
namespace LocalScope

open Relation

namespace Arena

/-- Links and parents in order: links lead to rows and never round in a circle, no node lists
another twice, and the recorded parent of a node is the one that lists it. So no two nodes list the
same one. -/
structure Linked (a : Arena) : Prop extends a.WellLinked where
  once : ∀ x n, a.nodes.get? x = some n → n.kind.children.Nodup
  parents : ∀ x y, a.parent? y = some x ↔ a.LeadsTo x y

theorem linked_empty : ({} : Arena).Linked where
  inRange x y := by
    rintro ⟨n, found, -⟩
    cases found
  acyclic x cycle := by
    obtain ⟨y, ⟨n, found, -⟩, -⟩ := TransGen.head'_iff.mp cycle
    cases found
  once x n found := by cases found
  parents x y := by
    constructor
    · intro recorded
      simp [parent?, SideTable.get?] at recorded
    · rintro ⟨n, found, -⟩
      cases found

variable {a b : Arena} {p x y : NodeId}

theorem not_leadsTo_fresh (x : NodeId) : ¬ a.LeadsTo ⟨a.size⟩ x :=
  fun link => Nat.lt_irrefl _ link.index_lt

theorem kind_of_row {n : Node} (row : a.nodes.get? x = some n) : a.kind x = .ok n.kind := by
  simp only [kind, node, row]
  rfl

namespace Linked

theorem owner_unique {z : NodeId} (linked : a.Linked) (first : a.LeadsTo x z)
    (second : a.LeadsTo y z) : x = y :=
  Option.some.inj (((linked.parents x z).mpr first).symm.trans ((linked.parents y z).mpr second))

theorem unlisted (linked : a.Linked) (detached : a.parent? y = none) (x : NodeId) :
    ¬ a.LeadsTo x y := by
  intro link
  rw [← linked.parents, detached] at link
  cases link

theorem clean (linked : a.Linked) : a.Clean := by
  intro x outside
  cases recorded : a.parent? x with
  | none => rfl
  | some p =>
    have inside := linked.inRange p x ((linked.parents p x).mp recorded)
    omega

theorem not_reaches_fresh (linked : a.Linked) (path : ReflTransGen a.LeadsTo x ⟨a.size⟩) :
    x = ⟨a.size⟩ := by
  rcases path.cases_tail with same | ⟨y, -, link⟩
  · exact same.symm
  · exact absurd (linked.inRange y _ link) (Nat.lt_irrefl _)

end Linked

/- With new links from one node to nodes that it is not below, a path that was not there before
takes one of them, and does so once. -/
theorem path_cases {new : NodeId → Prop}
    (links : ∀ x y, b.LeadsTo x y → a.LeadsTo x y ∨ x = p ∧ new y)
    (apart : ∀ c, new c → ¬ ReflTransGen a.LeadsTo c p) (path : TransGen b.LeadsTo x y) :
    TransGen a.LeadsTo x y ∨
      ∃ c, new c ∧ ReflTransGen a.LeadsTo x p ∧ ReflTransGen a.LeadsTo c y := by
  induction path with
  | single link =>
    rcases links _ _ link with old | ⟨rfl, added⟩
    · exact .inl (.single old)
    · exact .inr ⟨_, added, .refl, .refl⟩
  | tail _ link before =>
    rcases before with before | ⟨c, added, above, below⟩
    · rcases links _ _ link with old | ⟨rfl, added⟩
      · exact .inl (before.tail old)
      · exact .inr ⟨_, added, before.to_reflTransGen, .refl⟩
    · rcases links _ _ link with old | ⟨rfl, -⟩
      · exact .inr ⟨c, added, above, below.tail old⟩
      · exact absurd below (apart c added)

theorem WellLinked.acyclic_of_links {new : NodeId → Prop} (linked : a.WellLinked)
    (links : ∀ x y, b.LeadsTo x y → a.LeadsTo x y ∨ x = p ∧ new y)
    (apart : ∀ c, new c → ¬ ReflTransGen a.LeadsTo c p) (x : NodeId) :
    ¬ TransGen b.LeadsTo x x := by
  intro cycle
  rcases path_cases links apart cycle with old | ⟨c, added, above, below⟩
  · exact linked.acyclic x old
  · exact apart c added (below.trans above)

/-- One node lists other children than before: some are taken out, and some that had no parent are
put in. -/
structure Relisted (a b : Arena) (p : NodeId) (out new : List NodeId) : Prop where
  rows : ∃ n kind, a.nodes.get? p = some n ∧ (out ++ kind.children).Perm (new ++ n.kind.children) ∧
    (∀ c ∈ out, c ∈ n.kind.children) ∧
    ∀ x, b.nodes.get? x = if x = p then some { n with kind } else a.nodes.get? x
  size : b.size = a.size
  parents : ∀ y, b.parent? y =
    if y ∈ new then some p else if y ∈ out then none else a.parent? y
  distinct : new.Nodup
  inside : ∀ c ∈ new, c.index < a.size
  detached : ∀ c ∈ new, a.parent? c = none
  apart : ∀ c ∈ new, ¬ ReflTransGen a.LeadsTo c p

namespace Relisted

variable {out new : List NodeId}

theorem listed (linked : a.Linked) (change : a.Relisted b p out new) : ∃ n kind,
    a.nodes.get? p = some n ∧ kind.children.Nodup ∧
    (∀ y, y ∈ kind.children ↔ y ∈ new ∨ y ∈ n.kind.children ∧ y ∉ out) ∧
    ∀ x, b.nodes.get? x = if x = p then some { n with kind } else a.nodes.get? x := by
  obtain ⟨n, kind, row, children, taken, rows⟩ := change.rows
  have others : ∀ c ∈ new, c ∉ n.kind.children := by
    intro c added old
    exact linked.unlisted (change.detached c added) p ⟨n, row, old⟩
  have before : (new ++ n.kind.children).Nodup :=
    List.nodup_append'.mpr ⟨change.distinct, linked.once p n row, fun c => others c⟩
  obtain ⟨-, once, disjoint⟩ := List.nodup_append'.mp (children.nodup_iff.mpr before)
  refine ⟨n, kind, row, once, fun y => ?_, rows⟩
  have same : y ∈ out ∨ y ∈ kind.children ↔ y ∈ new ∨ y ∈ n.kind.children := by
    simpa using children.mem_iff
  have either : ¬ (y ∈ out ∧ y ∈ kind.children) := fun both => disjoint both.1 both.2
  have old : y ∈ out → y ∈ n.kind.children := taken y
  have added : y ∈ new → y ∉ n.kind.children := others y
  tauto

theorem leadsTo_iff (linked : a.Linked) (change : a.Relisted b p out new) :
    b.LeadsTo x y ↔ a.LeadsTo x y ∧ ¬ (x = p ∧ y ∈ out) ∨ x = p ∧ y ∈ new := by
  obtain ⟨n, kind, row, -, listed, rows⟩ := change.listed linked
  by_cases same : x = p
  · subst same
    have after : b.nodes.get? x = some { n with kind } := by rw [rows, if_pos rfl]
    simp only [LeadsTo, row, after, Option.some.injEq, exists_eq_left', listed, true_and]
    tauto
  · simp [LeadsTo, rows, same]

theorem links (linked : a.Linked) (change : a.Relisted b p out new) (x y : NodeId)
    (link : b.LeadsTo x y) : a.LeadsTo x y ∨ x = p ∧ y ∈ new := by
  rcases (change.leadsTo_iff linked).mp link with ⟨old, -⟩ | added
  · exact .inl old
  · exact .inr added

theorem parents_iff (linked : a.Linked) (change : a.Relisted b p out new) :
    b.parent? y = some x ↔ b.LeadsTo x y := by
  obtain ⟨n, kind, row, -, taken, -⟩ := change.rows
  rw [change.leadsTo_iff linked, change.parents]
  by_cases added : y ∈ new
  · have unlisted := linked.unlisted (change.detached y added) x
    simp [added, unlisted, eq_comm]
  · by_cases gone : y ∈ out
    · have owner : a.LeadsTo x y → x = p :=
        fun link => linked.owner_unique link ⟨n, row, taken y gone⟩
      simp only [added, gone, if_true, if_false, and_true, and_false, or_false]
      constructor
      · intro recorded
        cases recorded
      · exact fun link => absurd (owner link.1) link.2
    · simp [added, gone, linked.parents]

theorem linked (linked : a.Linked) (change : a.Relisted b p out new) : b.Linked where
  inRange x y link := by
    rw [change.size]
    rcases change.links linked x y link with old | ⟨-, added⟩
    · exact linked.inRange x y old
    · exact change.inside y added
  acyclic := linked.acyclic_of_links (change.links linked) change.apart
  once x m found := by
    obtain ⟨n, kind, -, once, -, rows⟩ := change.listed linked
    rw [rows] at found
    by_cases same : x = p
    · rw [if_pos same, Option.some.injEq] at found
      exact found ▸ once
    · rw [if_neg same] at found
      exact linked.once x m found
  parents x y := change.parents_iff linked

end Relisted

section Push

variable {kind : Kind NodeId} {note : Annotation}

theorem leadsTo_push : (a.push kind note).2.LeadsTo x y ↔
    a.LeadsTo x y ∨ x = ⟨a.size⟩ ∧ y ∈ kind.children := by
  by_cases fresh : x = ⟨a.size⟩
  · subst fresh
    rw [or_iff_right (not_leadsTo_fresh y)]
    simp [LeadsTo, get?_push]
  · simp [LeadsTo, get?_push, fresh]

variable (linked : a.Linked) (inside : ∀ c ∈ kind.children, c.index < a.size)
include linked inside

theorem fresh_apart (c : NodeId) (child : c ∈ kind.children) :
    ¬ ReflTransGen a.LeadsTo c ⟨a.size⟩ := by
  intro path
  have old := inside c child
  rw [linked.not_reaches_fresh path] at old
  exact Nat.lt_irrefl _ old

theorem path_push (path : TransGen (a.push kind note).2.LeadsTo x y) :
    TransGen a.LeadsTo x y ∨
      x = ⟨a.size⟩ ∧ ∃ c ∈ kind.children, ReflTransGen a.LeadsTo c y := by
  rcases path_cases (fun _ _ => leadsTo_push.mp) (fresh_apart linked inside) path with
    old | ⟨c, child, above, below⟩
  · exact .inl old
  · exact .inr ⟨linked.not_reaches_fresh above, c, child, below⟩

theorem Linked.push (once : kind.children.Nodup)
    (detached : ∀ c ∈ kind.children, a.parent? c = none) : (a.push kind note).2.Linked where
  inRange x y link := by
    rw [size_push]
    rcases leadsTo_push.mp link with old | ⟨-, child⟩
    · exact Nat.lt_succ_of_lt (linked.inRange x y old)
    · exact Nat.lt_succ_of_lt (inside y child)
  acyclic := linked.acyclic_of_links (fun _ _ => leadsTo_push.mp) (fresh_apart linked inside)
  once x n found := by
    rw [get?_push] at found
    split at found
    · exact Option.some.inj found ▸ once
    · exact linked.once x n found
  parents x y := by
    rw [leadsTo_push, parent?_push]
    by_cases child : y ∈ kind.children
    · have unlisted := linked.unlisted (detached y child) x
      simp [child, unlisted, eq_comm]
    · simp [child, linked.parents]

end Push

/-- A node that may be put beside another, or in its place: it has no parent and is not above the
other. -/
structure Spare (a : Arena) (child anchor : NodeId) : Prop where
  inside : child.index < a.size
  detached : a.parent? child = none
  notAbove : ¬ TransGen a.LeadsTo child anchor

theorem spare_push {kind : Kind NodeId} {note : Annotation} {anchor : NodeId} (linked : a.Linked)
    (inside : ∀ c ∈ kind.children, c.index < a.size)
    (apart : ∀ c ∈ kind.children, ¬ ReflTransGen a.LeadsTo c anchor) :
    (a.push kind note).2.Spare ⟨a.size⟩ anchor where
  inside := by simp
  detached := by
    have unlisted : ⟨a.size⟩ ∉ kind.children := fun child => Nat.lt_irrefl _ (inside _ child)
    rw [parent?_push, if_neg unlisted]
    exact linked.clean _ (Nat.le_refl _)
  notAbove path := by
    rcases path_push linked inside path with old | ⟨-, c, child, below⟩
    · obtain ⟨y, link, -⟩ := TransGen.head'_iff.mp old
      exact not_leadsTo_fresh y link
    · exact apart c child below

section Rows

variable {n : Node} (kind : Kind NodeId) (out : List NodeId)

theorem get?_relisted (row : a.nodes.get? p = some n) (x : NodeId) :
    (a.setKind p kind).nodes.get? x = if x = p then some { n with kind } else a.nodes.get? x := by
  rw [get?_setKind]
  split
  · rename_i same
    rw [same, row]
    rfl
  · rfl

theorem Spare.relisted {child anchor : NodeId} (spare : a.Spare child anchor)
    (row : a.nodes.get? p = some n) (member : anchor ∈ n.kind.children)
    (children : (out ++ kind.children).Perm (child :: n.kind.children))
    (taken : ∀ c ∈ out, c ∈ n.kind.children) (nodes : b.nodes = (a.setKind p kind).nodes)
    (parents : ∀ y, b.parent? y =
      if y = child then some p else if y ∈ out then none else a.parent? y) :
    a.Relisted b p out [child] where
  rows := ⟨n, kind, row, children, taken, fun x => nodes ▸ get?_relisted kind row x⟩
  size := by rw [size, nodes]; exact size_setKind a p kind
  parents y := by simp only [parents, List.mem_singleton]
  distinct := List.nodup_singleton child
  inside := by simpa using spare.inside
  detached := by simpa using spare.detached
  apart := by
    intro c only path
    rw [List.mem_singleton] at only
    subst only
    exact spare.notAbove (TransGen.tail' path ⟨n, row, member⟩)

theorem relisted_of_removal (row : a.nodes.get? p = some n)
    (children : (out ++ kind.children).Perm n.kind.children)
    (taken : ∀ c ∈ out, c ∈ n.kind.children) (nodes : b.nodes = (a.setKind p kind).nodes)
    (parents : ∀ y, b.parent? y = if y ∈ out then none else a.parent? y) :
    a.Relisted b p out [] where
  rows := ⟨n, kind, row, children, taken, fun x => nodes ▸ get?_relisted kind row x⟩
  size := by rw [size, nodes]; exact size_setKind a p kind
  parents y := by simp [parents]
  distinct := List.nodup_nil
  inside := by simp
  detached := by simp
  apart := by simp

end Rows

/-- One node has been taken out, and no way leads to an old node that did not before. -/
structure Trimmed (a b : Arena) (child : NodeId) : Prop where
  linked : b.Linked
  freed : b.parent? child = none
  grows : a.size ≤ b.size
  paths : ∀ x y, y.index < a.size → TransGen b.LeadsTo x y → TransGen a.LeadsTo x y

end Arena

namespace Editing

variable {α β : Type}

/-- What a computation comes to: an answer and an arena with a property, or an error and links in
order. -/
def Ensures (x : Editing α) (a : Arena) (post : α → Arena → Prop) : Prop :=
  match x a with
  | .ok v b => post v b
  | .error _ b => b.Linked

def Upholds (x : Editing α) : Prop := ∀ a : Arena, a.Linked → x.Ensures a fun _ b => b.Linked

section Rules

variable {a : Arena} {post : α → Arena → Prop}

theorem Ensures.bind {x : Editing α} {f : α → Editing β} {post : β → Arena → Prop}
    {mid : α → Arena → Prop} (first : x.Ensures a mid)
    (next : ∀ v b, mid v b → (f v).Ensures b post) : (x >>= f).Ensures a post := by
  unfold Ensures at first
  split at first
  · rename_i v b run
    have rest := next v b first
    rwa [Ensures, ← bind_ok run f] at rest
  · rename_i e b run
    rw [Ensures, bind_error run f]
    exact first

theorem Ensures.mono {post' : α → Arena → Prop} {x : Editing α} (holds : x.Ensures a post)
    (weaker : ∀ v b, post v b → post' v b) : x.Ensures a post' := by
  unfold Ensures at *
  split
  · rename_i run
    rw [run] at holds
    exact weaker _ _ holds
  · rename_i run
    rw [run] at holds
    exact holds

theorem ensures_pure {v : α} (holds : post v a) : (pure v : Editing α).Ensures a post := holds

theorem ensures_complain (linked : a.Linked) (fault : EditFault) :
    (complain fault : Editing α).Ensures a post := linked

section Continued

variable {f : β → Editing α}

theorem ensures_query (linked : a.Linked) {q : Arena → Except Error β}
    (next : ∀ v, q a = .ok v → (f v).Ensures a post) : (query q >>= f).Ensures a post := by
  cases answer : q a with
  | ok v =>
    rw [Ensures, bind_ok (query_ok answer)]
    exact next v answer
  | error e =>
    rw [Ensures, bind_error (query_error answer)]
    exact linked

theorem ensures_get {f : Arena → Editing α} (next : (f a).Ensures a post) :
    (get >>= f).Ensures a post := next

theorem ensures_add {kind : Kind NodeId} {note : Annotation} {f : NodeId → Editing α}
    (next : (f ⟨a.size⟩).Ensures (a.push kind note).2 post) :
    (add kind note >>= f).Ensures a post := next

theorem ensures_parentOf (linked : a.Linked) {child : NodeId} {fault : EditFault}
    {f : NodeId × Kind NodeId → Editing α}
    (next : ∀ p n, a.nodes.get? p = some n → child ∈ n.kind.children →
      (f (p, n.kind)).Ensures a post) : (parentOf child fault >>= f).Ensures a post := by
  cases recorded : a.parent? child with
  | none =>
    rw [Ensures, bind_error (parentOf_detached fault recorded)]
    exact linked
  | some p =>
    obtain ⟨n, row, member⟩ := (linked.parents p child).mp recorded
    rw [Ensures, bind_ok (parentOf_ok fault recorded (Arena.kind_of_row row))]
    exact next p n row member

end Continued

theorem upholds_forM {xs : List α} {f : α → Editing Unit} (each : ∀ x ∈ xs, (f x).Upholds) :
    (xs.forM f).Upholds := by
  induction xs with
  | nil => exact fun a linked => ensures_pure linked
  | cons x xs ih =>
    intro a linked
    exact (each x (by simp) a linked).bind fun _ b => ih (fun y later => each y (by simp [later])) b

theorem upholds_foldlM {xs : List α} {f : β → α → Editing β} (each : ∀ v, ∀ x ∈ xs, (f v x).Upholds)
    (v : β) : (xs.foldlM f v).Upholds := by
  induction xs generalizing v with
  | nil => exact fun a linked => ensures_pure linked
  | cons x xs ih =>
    intro a linked
    rw [List.foldlM_cons]
    exact (each v x (by simp) a linked).bind fun w b =>
      ih (fun v y later => each v y (by simp [later])) w b

theorem upholds_mapM {xs : List α} {f : α → Editing β} (each : ∀ x ∈ xs, (f x).Upholds) :
    (xs.mapM f).Upholds := by
  induction xs with
  | nil => exact fun a linked => ensures_pure linked
  | cons x xs ih =>
    intro a linked
    rw [List.mapM_cons]
    refine (each x (by simp) a linked).bind fun v b between => ?_
    refine (ih (fun y later => each y (by simp [later])) b between).bind fun vs c after => ?_
    exact ensures_pure after

end Rules

section Steps

variable {a : Arena} {child anchor : NodeId}

theorem insertBefore_ensures (linked : a.Linked) (spare : a.Spare child anchor) :
    (insertBefore anchor child).Ensures a fun _ b => b.Linked := by
  unfold insertBefore
  refine ensures_parentOf linked fun p n row member => ?_
  cases edited : n.kind.editFirst (.insertion anchor child) with
  | none =>
    simp only [edited]
    exact ensures_complain linked _
  | some changed =>
    simp only [edited]
    have change : a.Relisted ((a.setKind p changed).link child p) p [] [child] := by
      refine spare.relisted changed [] row member (Kind.children_insertion edited) (by simp) rfl ?_
      intro y
      simp [Arena.parent?_link, eq_comm]
    exact change.linked linked

theorem replace_ensures {old new : NodeId} (linked : a.Linked) (spare : a.Spare new old) :
    (replace old new).Ensures a fun _ b => b.Linked := by
  unfold replace
  refine ensures_parentOf linked fun p n row member => ?_
  cases edited : n.kind.editFirst (.replacement old new) with
  | none =>
    simp only [edited]
    exact ensures_complain linked _
  | some changed =>
    simp only [edited]
    have change : a.Relisted (((a.setKind p changed).unlink old).link new p) p [old] [new] := by
      refine spare.relisted changed [old] row member (Kind.children_replacement edited)
        (by simpa using member) rfl ?_
      intro y
      simp [Arena.parent?_link, Arena.parent?_unlink, eq_comm]
    exact change.linked linked

section Removal

variable {p : NodeId} {n : Node} (linked : a.Linked) (row : a.nodes.get? p = some n)
  (member : child ∈ n.kind.children)
include linked row member

theorem trimmed_of_shrunk {slot : Slot NodeId} (listed : slot ∈ n.kind.slots)
    (holds : child ∈ slot.children) (free : ∀ z, slot ≠ .one z) :
    a.Trimmed ((a.setKind p ((n.kind.editFirst (.removal child)).getD n.kind)).unlink child)
      child := by
  obtain ⟨changed, edited⟩ := Kind.exists_editFirst listed (SlotEdit.removal_hit holds free)
  rw [edited, Option.getD_some]
  have change : a.Relisted ((a.setKind p changed).unlink child) p [child] [] := by
    refine Arena.relisted_of_removal changed [child] row (Kind.children_removal edited)
      (by simpa using member) rfl ?_
    intro y
    simp [Arena.parent?_unlink, eq_comm]
  exact {
    linked := change.linked linked
    freed := by simp [change.parents]
    grows := Nat.le_of_eq change.size.symm
    paths := by
      intro x y _ path
      refine TransGen.mono (fun x y link => ?_) x y path
      simpa using change.links linked x y link }

/- The filler is there before the row changes. Nothing is below it, so no way leads through it. -/
theorem trimmed_of_filled :
    a.Trimmed ((((a.push .empty).2.setKind p
      ((n.kind.editFirst (.replacement child ⟨a.size⟩)).getD n.kind)).link ⟨a.size⟩ p).unlink
        child) child := by
  have inside : child.index < a.size := linked.inRange p child ⟨n, row, member⟩
  have apart : child ≠ ⟨a.size⟩ := by
    rintro rfl
    exact Nat.lt_irrefl _ inside
  have childless : (Kind.empty : Kind NodeId).children = [] := rfl
  have filled : (a.push .empty).2.Linked := linked.push (by simp [childless])
    (by simp [childless]) (by simp [childless])
  have spare : (a.push .empty).2.Spare ⟨a.size⟩ child :=
    Arena.spare_push linked (by simp [childless]) (by simp [childless])
  have kept : (a.push .empty).2.nodes.get? p = some n := by
    rw [Arena.get?_push, if_neg, row]
    rintro rfl
    exact Nat.lt_irrefl _ (a.index_lt_of_get? _ row)
  obtain ⟨slot, listed, holds⟩ := List.mem_flatMap.mp member
  obtain ⟨changed, edited⟩ := Kind.exists_editFirst listed
    (SlotEdit.replacement_hit (y := ⟨a.size⟩) holds)
  rw [edited, Option.getD_some]
  have change : (a.push .empty).2.Relisted
      ((((a.push .empty).2.setKind p changed).link ⟨a.size⟩ p).unlink child) p
      [child] [⟨a.size⟩] := by
    refine spare.relisted changed [child] kept member (Kind.children_replacement edited)
      (by simpa using member) rfl ?_
    intro y
    by_cases same : y = child
    · simp [Arena.parent?_unlink, same, apart]
    · simp [Arena.parent?_link, Arena.parent?_unlink, same, Ne.symm same, eq_comm]
  have before : (a.push .empty).2.LeadsTo = a.LeadsTo := by
    ext x y
    simp [Arena.leadsTo_push, childless]
  exact {
    linked := change.linked filled
    freed := by simp [change.parents, apart]
    grows := by
      rw [change.size, Arena.size_push]
      exact Nat.le_succ _
    paths := by
      intro x y old path
      rcases Arena.path_cases (change.links filled) change.apart path with
        found | ⟨c, only, -, below⟩
      · rwa [before] at found
      · rw [List.mem_singleton.mp only, before] at below
        rcases below.cases_head with rfl | ⟨z, link, -⟩
        · exact absurd old (Nat.lt_irrefl _)
        · exact absurd link (Arena.not_leadsTo_fresh z) }

end Removal

theorem remove_ensures (linked : a.Linked) (child : NodeId) :
    (remove child).Ensures a fun _ b => a.Trimmed b child := by
  unfold remove
  refine ensures_parentOf linked fun p n row member => ?_
  obtain ⟨slot, held⟩ := Kind.holder?_isSome member
  obtain ⟨listed, holds⟩ := Kind.mem_of_holder? held
  simp only [held]
  cases slot with
  | one z => exact trimmed_of_filled linked row member
  | optional z => exact trimmed_of_shrunk linked row member listed holds (by simp)
  | many zs => exact trimmed_of_shrunk linked row member listed holds (by simp)

end Steps

end Editing

end LocalScope
