import LocalScope.Proofs.Lowering
import LocalScope.Proofs.Snippets

namespace LocalScope

namespace Arena

def LeadsTo (a : Arena) (x y : NodeId) : Prop :=
  ∃ n, a.nodes.get? x = some n ∧ y ∈ n.kind.children

/-- Links lead to rows, and never round in a circle. Two nodes may list the same child, and
parents are not looked at. -/
structure WellLinked (a : Arena) : Prop where
  inRange : ∀ x y, a.LeadsTo x y → y.index < a.size
  acyclic : ∀ x, ¬ Relation.TransGen a.LeadsTo x x

theorem LeadsTo.index_lt {a : Arena} {x y : NodeId} (link : a.LeadsTo x y) : x.index < a.size := by
  obtain ⟨n, found, -⟩ := link
  exact a.index_lt_of_get? x found

theorem WellLinked.of_descending {a : Arena} (down : ∀ x y, a.LeadsTo x y → y.index < x.index) :
    a.WellLinked where
  inRange x y link := Nat.lt_trans (down x y link) link.index_lt
  acyclic x cycle := by
    have lower (y : NodeId) (path : Relation.TransGen a.LeadsTo x y) : y.index < x.index := by
      induction path with
      | single link => exact down _ _ link
      | tail _ link before => exact Nat.lt_trans (down _ _ link) before
    exact Nat.lt_irrefl _ (lower x cycle)

/-- A place in an unfolded tree: a node, and the nodes on the way to it. -/
structure Reached (a : Arena) (above : List NodeId) (x : NodeId) : Prop where
  inside : x.index < a.size
  known : ∀ y ∈ above, y.index < a.size
  leads : ∀ y ∈ above, Relation.TransGen a.LeadsTo y x
  distinct : above.Nodup

namespace Reached

variable {a : Arena} {above : List NodeId} {x y : NodeId}

theorem root (inside : x.index < a.size) : a.Reached [] x :=
  ⟨inside, by simp, by simp, List.nodup_nil⟩

theorem new (linked : a.WellLinked) (reached : a.Reached above x) : x ∉ above :=
  fun again => linked.acyclic x (reached.leads x again)

theorem child (linked : a.WellLinked) (reached : a.Reached above x) (link : a.LeadsTo x y) :
    a.Reached (x :: above) y where
  inside := linked.inRange x y link
  known := List.forall_mem_cons.mpr ⟨reached.inside, reached.known⟩
  leads := List.forall_mem_cons.mpr
    ⟨.single link, fun z earlier => (reached.leads z earlier).tail link⟩
  distinct := List.nodup_cons.mpr ⟨reached.new linked, reached.distinct⟩

theorem length_le (reached : a.Reached above x) : above.length ≤ a.size :=
  NodeId.length_le reached.distinct reached.known

theorem expandBelow_succ (linked : a.WellLinked) (reached : a.Reached above x) {b : Arena}
    {n : Node} (found : b.nodes.get? x = some n) (levels : Nat) :
    b.expandBelow 0 (levels + 1) above x =
      .node ⟨x, n.note, .shown⟩ (n.kind.map (b.expandBelow 0 levels (x :: above))) := by
  have once : ¬ 0 < above.count x := by
    rw [List.count_eq_zero_of_not_mem (reached.new linked)]
    exact Nat.lt_irrefl 0
  simp only [expandBelow, found, if_neg once]

theorem exists_row (reached : a.Reached above x) : ∃ n, a.nodes.get? x = some n :=
  ⟨_, Array.getElem?_eq_getElem reached.inside⟩

/- With so many levels left the last one is never used up. -/
theorem expandBelow_shown (linked : a.WellLinked) (levels : Nat) (reached : a.Reached above x)
    (enough : a.size < levels + above.length) :
    ∀ s ∈ (a.expandBelow 0 levels above x).subterms, s.label.reach = .shown := by
  induction levels generalizing above x with
  | zero =>
    have bound := reached.length_le
    omega
  | succ levels ih =>
    obtain ⟨n, found⟩ := reached.exists_row
    rw [expandBelow_succ linked reached found levels]
    intro s member
    rcases Term.mem_subterms_node.mp member with rfl | ⟨c, child, below⟩
    · rfl
    · rw [Kind.children_map, List.mem_map] at child
      obtain ⟨y, listed, rfl⟩ := child
      apply ih (reached.child linked ⟨n, found, listed⟩) _ s below
      rw [List.length_cons]
      omega

theorem expandBelow_extends {b : Arena} (linked : a.WellLinked) (older : Extends a b)
    (levels more : Nat) (reached : a.Reached above x) (enough : a.size < levels + above.length)
    (still : a.size < more + above.length) :
    b.expandBelow 0 more above x = a.expandBelow 0 levels above x := by
  have bound := reached.length_le
  induction levels generalizing above x more with
  | zero => omega
  | succ levels ih =>
    cases more with
    | zero => omega
    | succ more =>
      obtain ⟨n, found⟩ := reached.exists_row
      have kept : b.nodes.get? x = some n := by rw [older.rows x reached.inside, found]
      rw [expandBelow_succ linked reached found levels, expandBelow_succ linked reached kept more]
      apply congrArg
      apply Kind.map_congr
      intro y listed
      have next := reached.child linked ⟨n, found, listed⟩
      apply ih more next
      · rw [List.length_cons]
        omega
      · rw [List.length_cons]
        omega
      · exact next.length_le

end Reached

variable {a b : Arena} {x : NodeId}

theorem view_extends (linked : a.WellLinked) (older : Extends a b) (inside : x.index < a.size) :
    b.view x = a.view x := by
  have grows := older.grows
  apply (Reached.root inside).expandBelow_extends linked older
  · simp
  · simp
    omega

theorem WellLinked.no_gap (linked : a.WellLinked) (inside : x.index < a.size) :
    (a.view x).gap? = none := by
  have shown := (Reached.root inside).expandBelow_shown linked ((0 + 1) * a.size + 1) (by simp)
  rw [Tree.gap?, List.findSome?_eq_none_iff]
  intro s member
  simp [Label.gap?, shown s member]

theorem WellLinked.body_eq (linked : a.WellLinked) (inside : x.index < a.size) :
    a.body x = .ok (a.view x).body := by
  rw [body, whole_eq_view a x (linked.no_gap inside)]
  rfl

theorem body_extends (linked : a.WellLinked) (older : Extends a b) (inside : x.index < a.size) :
    b.body x = a.body x := by
  have same := view_extends linked older inside
  have noGap : (b.view x).gap? = none := by rw [same, linked.no_gap inside]
  rw [body, whole_eq_view b x noGap, same, linked.body_eq inside]
  rfl

theorem Extends.kind_eq (older : Extends a b) (inside : x.index < a.size) :
    b.kind x = a.kind x := by
  simp only [kind, node, older.rows x inside]

theorem Extends.note_eq (older : Extends a b) (inside : x.index < a.size) :
    b.note x = a.note x := by
  simp only [note, node, older.rows x inside]

end Arena

namespace Body

theorem Added.id_eq {b : Body} {a : Arena} {t : Tree} (added : Added b a t) :
    t.id = ⟨a.size + b.size - 1⟩ := by
  have last : (t.postorder.map Tree.id).getLast? = some t.id := by
    cases t with
    | node l k => simp [Term.postorder_node]
  have positive : b.size ≠ 0 := by
    cases b with
    | node note k =>
      rw [Term.size_node]
      omega
  rw [added.numbered, numbersFrom, List.getLast?_map, List.getLast?_range', if_neg positive] at last
  exact (Option.some.inj last).symm

/-- What was added is read back as it was, under the numbers that come next, children before their
parent; and every node that was there before is as it was, and so is what is below it. -/
theorem body_of_addTo (b : Body) {a after : Arena} {id : NodeId} (linked : a.WellLinked)
    (added : b.addTo.run a = (id, after)) :
    after.body id = .ok b ∧
    after.size = a.size + b.size ∧
    (after.view id).postorder.map Tree.id = (List.range' a.size b.size).map NodeId.mk ∧
    id = ⟨a.size + b.size - 1⟩ ∧
    ∀ x : NodeId, x.index < a.size →
      after.kind x = a.kind x ∧ after.note x = a.note x ∧ after.parent? x = a.parent? x ∧
      ∃ old, a.body x = .ok old ∧ after.body x = .ok old := by
  obtain ⟨t, spec⟩ := addTo_spec b a
  have root := spec.root
  have held := spec.held
  have grown := spec.grown
  have older := spec.older
  rw [added] at root held grown older
  change id = t.id at root
  subst root
  refine ⟨?_, grown, ?_, spec.id_eq, ?_⟩
  · rw [Arena.body, held.whole_eq]
    exact congrArg Except.ok spec.body
  · rw [held.view_eq]
    exact spec.numbered
  · intro x inside
    have before := linked.body_eq inside
    exact ⟨older.kind_eq inside, older.note_eq inside, older.parents x inside, _, before,
      (Arena.body_extends linked older inside).trans before⟩

end Body

/-- A node that lists the same child twice. -/
def Arena.doubled : Arena := { nodes := .ofList [⟨.this, {}⟩, ⟨.index ⟨0⟩ ⟨0⟩, {}⟩] }

theorem Arena.doubled_wellLinked : doubled.WellLinked := by
  apply WellLinked.of_descending
  rintro ⟨i⟩ y ⟨n, found, listed⟩
  match i with
  | 0 =>
    cases found
    cases listed
  | 1 =>
    cases found
    have same : y ∈ ([⟨0⟩, ⟨0⟩] : List NodeId) := listed
    simp at same
    simp [same]
  | i + 2 => cases found

theorem Body.body_of_addTo_doubled :
    Arena.doubled.WellLinked ∧
    ((read "v").addTo.run Arena.doubled).2.body ⟨2⟩ = .ok (read "v") ∧
    ((read "v").addTo.run Arena.doubled).2.body ⟨1⟩ = Arena.doubled.body ⟨1⟩ := by
  have linked := Arena.doubled_wellLinked
  have spec := body_of_addTo (read "v") linked rfl
  obtain ⟨old, before, later⟩ := (spec.2.2.2.2 ⟨1⟩ (by decide)).2.2.2
  exact ⟨linked, spec.1, later.trans before.symm⟩

end LocalScope
