import LocalScope.Proofs.Steps

namespace LocalScope

namespace Tree

/-- The tree with other contents at one node. -/
def graft (x : NodeId) (new : Kind Tree) : Tree → Tree :=
  Term.fold fun l k => .node l (if l.id = x then new else k)

variable {x : NodeId} {new : Kind Tree}

theorem graft_node (l : Label) (k : Kind Tree) :
    graft x new (.node l k) = .node l (if l.id = x then new else k.map (graft x new)) := by
  rw [graft, Term.fold_node]

@[simp] theorem id_graft (t : Tree) : (graft x new t).id = t.id := by
  cases t with
  | node l k =>
    rw [graft_node]
    rfl

theorem graft_of_not_mem {t : Tree} (absent : x ∉ t.ids) : graft x new t = t := by
  induction t using Term.inductChildren with
  | step l k ih =>
    rw [ids_node, List.mem_cons, not_or] at absent
    rw [graft_node, if_neg fun same => absent.1 same.symm]
    congr 1
    apply Kind.map_eq_self
    exact fun c child =>
      ih c child fun inside => absent.2 (List.mem_flatMap.mpr ⟨c, child, inside⟩)

theorem graft_self (l : Label) (k : Kind Tree) : graft l.id new (.node l k) = .node l new := by
  rw [graft_node, if_pos rfl]

theorem mem_ids_graft {t : Tree} {y : NodeId} (inside : y ∈ (graft x new t).ids) :
    y ∈ t.ids ∨ x ∈ t.ids ∧ y ∈ new.children.flatMap ids := by
  induction t using Term.inductChildren with
  | step l k ih =>
    rw [graft_node, ids_node] at inside
    rw [ids_node]
    by_cases here : l.id = x
    · rw [if_pos here] at inside
      rcases List.mem_cons.mp inside with rfl | below
      · exact .inl (by simp)
      · exact .inr ⟨by simp [here], below⟩
    · rw [if_neg here, Kind.children_map, List.flatMap_map] at inside
      rcases List.mem_cons.mp inside with rfl | below
      · exact .inl (by simp)
      · obtain ⟨c, child, within⟩ := List.mem_flatMap.mp below
        rcases ih c child within with old | ⟨at', new⟩
        · exact .inl (List.mem_cons_of_mem _ (List.mem_flatMap.mpr ⟨c, child, old⟩))
        · exact .inr ⟨List.mem_cons_of_mem _ (List.mem_flatMap.mpr ⟨c, child, at'⟩), new⟩

theorem child_of_common {l : Label} {k : Kind Tree} (distinct : (ids (.node l k)).Nodup)
    {c d n : Tree} (first : c ∈ k.children) (inside : n ∈ c.subterms) (second : d ∈ k.children)
    {y : NodeId} (member : y ∈ n.ids) (common : y ∈ d.ids) : d = c := by
  rw [ids_node, List.nodup_cons] at distinct
  exact eq_of_common distinct.2 second first common (ids_subset inside member)

theorem nested_of_common {t n m : Tree} (distinct : t.ids.Nodup) (first : n ∈ t.subterms)
    (second : m ∈ t.subterms) {y : NodeId} (inFirst : y ∈ n.ids) (inSecond : y ∈ m.ids) :
    n ∈ m.subterms ∨ m ∈ n.subterms := by
  induction t using Term.inductChildren with
  | step l k ih =>
    rcases Term.mem_subterms_node.mp first with rfl | ⟨c, child, below⟩
    · exact .inr second
    · rcases Term.mem_subterms_node.mp second with rfl | ⟨d, other, under⟩
      · exact .inl first
      · obtain rfl : d = c := child_of_common distinct child below other inFirst (ids_subset under inSecond)
        have inTree : d ∈ (Term.node l k).subterms := Term.child_mem_subterms child
        exact ih d child (distinct.sublist (ids_sublist inTree)) below under

theorem parent_unique {t n m c : Tree} (distinct : t.ids.Nodup) (first : n ∈ t.subterms)
    (second : m ∈ t.subterms) (ofFirst : c ∈ n.children) (ofSecond : c ∈ m.children) : n = m := by
  -- If one were strictly inside the other, the child would be inside itself.
  have strict {n m : Tree} (outer : m.ids.Nodup) (inside : n ∈ m.subterms) (ofFirst : c ∈ n.children)
      (ofSecond : c ∈ m.children) : n = m := by
    obtain ⟨l, k⟩ := m
    rcases Term.mem_subterms_node.mp inside with rfl | ⟨d, child, below⟩
    · rfl
    · have within := Term.mem_subterms_of_child ofFirst (Term.self_mem_subterms c)
      obtain rfl : c = d :=
        child_of_common outer child (Term.subterms_trans within below) ofSecond (id_mem_ids c)
          (id_mem_ids c)
      have less := Term.size_lt_of_mem_children ofFirst
      have bound := Term.size_le_of_mem_subterms below
      omega
  rcases nested_of_common distinct first second (ids_child_subset ofFirst (id_mem_ids c))
    (ids_child_subset ofSecond (id_mem_ids c)) with inside | inside
  · exact strict (distinct.sublist (ids_sublist second)) inside ofFirst ofSecond
  · exact (strict (distinct.sublist (ids_sublist first)) inside ofSecond ofFirst).symm

theorem mem_ids_graft_iff {t n : Tree} (distinct : t.ids.Nodup) (member : n ∈ t.subterms)
    {y : NodeId} :
    y ∈ (graft n.id new t).ids ↔
      y ∈ t.ids ∧ y ∉ n.ids ∨ y = n.id ∨ y ∈ new.children.flatMap ids := by
  induction t using Term.inductChildren with
  | step l k ih =>
    rcases Term.mem_subterms_node.mp member with rfl | ⟨c, child, below⟩
    · rw [id, Term.label, graft_self, ids_node, List.mem_cons]
      constructor
      · exact .inr
      · rintro (⟨inside, outside⟩ | other)
        · exact absurd inside outside
        · exact other
    · have inTree : c ∈ (Term.node l k).subterms := Term.child_mem_subterms child
      have deeper := ih c child (distinct.sublist (ids_sublist inTree)) below
      have only {d : Tree} (second : d ∈ k.children) {z : NodeId} (inner : z ∈ n.ids)
          (common : z ∈ d.ids) : d = c :=
        child_of_common distinct child below second inner common
      have outside {z : NodeId} (inner : z ∈ n.ids) : ¬ l.id = z := by
        rintro rfl
        rw [ids_node, List.nodup_cons] at distinct
        exact distinct.1 (List.mem_flatMap.mpr ⟨c, child, ids_subset below inner⟩)
      rw [graft_node, if_neg (outside (id_mem_ids n)), ids_node, ids_node, Kind.children_map,
        List.flatMap_map, List.mem_cons, List.mem_cons, List.mem_flatMap]
      constructor
      · rintro (rfl | ⟨d, second, inside⟩)
        · exact .inl ⟨.inl rfl, fun inner => outside inner rfl⟩
        · by_cases same : d = c
          · subst same
            rcases deeper.mp inside with ⟨old, kept⟩ | other
            · exact .inl ⟨.inr (List.mem_flatMap.mpr ⟨d, second, old⟩), kept⟩
            · exact .inr other
          · rw [graft_of_not_mem fun inner => same (only second (id_mem_ids n) inner)] at inside
            exact .inl ⟨.inr (List.mem_flatMap.mpr ⟨d, second, inside⟩),
              fun inner => same (only second inner inside)⟩
      · rintro (⟨rfl | old, kept⟩ | other)
        · exact .inl rfl
        · obtain ⟨d, second, inside⟩ := List.mem_flatMap.mp old
          by_cases same : d = c
          · subst same
            exact .inr ⟨d, second, deeper.mpr (.inl ⟨inside, kept⟩)⟩
          · refine .inr ⟨d, second, ?_⟩
            rw [graft_of_not_mem fun inner => same (only second (id_mem_ids n) inner)]
            exact inside
        · exact .inr ⟨c, child, deeper.mpr (.inr other)⟩

theorem nodup_graft {t n : Tree} (distinct : t.ids.Nodup) (member : n ∈ t.subterms)
    (apart : (ids (.node n.label new)).Nodup)
    (fresh : ∀ y ∈ new.children.flatMap ids, y ∈ n.ids ∨ y ∉ t.ids) :
    (graft n.id new t).ids.Nodup := by
  induction t using Term.inductChildren with
  | step l k ih =>
    rcases Term.mem_subterms_node.mp member with rfl | ⟨c, child, below⟩
    · rw [id, Term.label, graft_self]
      exact apart
    · have outside : ¬ l.id = n.id := by
        intro same
        rw [ids_node, List.nodup_cons] at distinct
        exact distinct.1 (same ▸ List.mem_flatMap.mpr ⟨c, child, ids_subset below (id_mem_ids n)⟩)
      have others (d : Tree) (second : d ∈ k.children) (differs : d ≠ c) :
          graft n.id new d = d := by
        apply graft_of_not_mem
        exact fun common => differs (child_of_common distinct child below second (id_mem_ids n) common)
      have whole := distinct
      rw [ids_node, List.nodup_cons, List.nodup_flatMap] at distinct
      rw [graft_node, if_neg outside, ids_node, Kind.children_map, List.flatMap_map,
        List.nodup_cons, List.nodup_flatMap]
      refine ⟨?_, ?_, ?_⟩
      · intro inside
        obtain ⟨d, second, within⟩ := List.mem_flatMap.mp inside
        rcases mem_ids_graft within with old | ⟨-, added⟩
        · exact distinct.1 (List.mem_flatMap.mpr ⟨d, second, old⟩)
        · rcases fresh _ added with old | unknown
          · exact distinct.1 (List.mem_flatMap.mpr ⟨c, child, ids_subset below old⟩)
          · exact unknown (by simp [ids_node])
      · intro d second
        by_cases same : d = c
        · subst same
          apply ih d child (distinct.2.1 d child) below
          intro y added
          exact (fresh y added).imp_right fun unknown inside =>
            unknown (ids_child_subset (t := .node l k) child inside)
        · rw [others d second same]
          exact distinct.2.1 d second
      · have known {d e : Tree} (second : d ∈ k.children) (third : e ∈ k.children) {y : NodeId}
            (at' : n.id ∈ e.ids) (added : y ∈ new.children.flatMap ids) (old : y ∈ d.ids) :
            y ∈ e.ids := by
          have same := child_of_common whole child below third (id_mem_ids n) at'
          rcases fresh y added with inside | unknown
          · exact same ▸ ids_subset below inside
          · exact absurd (ids_child_subset (t := .node l k) second old) unknown
        apply distinct.2.2.imp_of_mem
        intro d e second third disjoint y first other
        rcases mem_ids_graft first with old | ⟨at', added⟩
        · rcases mem_ids_graft other with old' | ⟨at', added⟩
          · exact disjoint old old'
          · exact disjoint old (known second third at' added old)
        · rcases mem_ids_graft other with old | ⟨at'', -⟩
          · exact disjoint (known third second at' added old) old
          · exact disjoint at' at''

theorem graft_mem_subterms {t r : Tree} (distinct : t.ids.Nodup) (member : r ∈ t.subterms)
    (inside : x ∈ r.ids) : graft x new r ∈ (graft x new t).subterms := by
  induction t using Term.inductChildren with
  | step l k ih =>
    rcases Term.mem_subterms_node.mp member with rfl | ⟨c, child, below⟩
    · exact Term.self_mem_subterms _
    · have inTree : c ∈ (Term.node l k).subterms := Term.child_mem_subterms child
      have other : ¬ l.id = x := by
        rintro rfl
        have whole := distinct
        rw [ids_node, List.nodup_cons] at whole
        exact whole.1 (List.mem_flatMap.mpr ⟨c, child, ids_subset below inside⟩)
      have deep := ih c child (distinct.sublist (ids_sublist inTree)) below
      rw [graft_node, if_neg other]
      apply Term.mem_subterms_of_child (c := graft x new c) _ deep
      rw [Term.children, Term.kind, Kind.children_map]
      exact List.mem_map_of_mem child

/-- A change is lost when a node above it is changed too. -/
theorem graft_graft {t n r : Tree} {first second : Kind Tree} (distinct : t.ids.Nodup)
    (member : n ∈ t.subterms) (inside : r ∈ n.subterms) (below : r.id ≠ n.id) :
    graft n.id second (graft r.id first t) = graft n.id second t := by
  induction t using Term.inductChildren with
  | step l k ih =>
    rcases Term.mem_subterms_node.mp member with rfl | ⟨c, child, within⟩
    · have other : ¬ l.id = r.id := fun same => below same.symm
      rw [graft_node, if_neg other]
      simp only [id, Term.label, graft_self]
    · have inTree : c ∈ (Term.node l k).subterms := Term.child_mem_subterms child
      have outside (y : NodeId) (member : y ∈ n.ids) : ¬ l.id = y := by
        rintro rfl
        have whole := distinct
        rw [ids_node, List.nodup_cons] at whole
        exact whole.1 (List.mem_flatMap.mpr ⟨c, child, ids_subset within member⟩)
      have deep : r.id ∈ n.ids := mem_ids.mpr ⟨r, inside, rfl⟩
      rw [graft_node, if_neg (outside _ deep), graft_node, if_neg (outside _ (id_mem_ids n)),
        graft_node, if_neg (outside _ (id_mem_ids n)), Kind.map_map]
      congr 1
      apply Kind.map_congr
      intro d second
      by_cases same : d = c
      · subst same
        exact ih d child (distinct.sublist (ids_sublist inTree)) within
      · rw [graft_of_not_mem (x := r.id)]
        exact fun common => same (child_of_common distinct child within second deep common)

def withNote (note : Annotation) (t : Tree) : Tree := .node { t.label with note } t.kind

@[simp] theorem id_withNote (note : Annotation) (t : Tree) : (t.withNote note).id = t.id := rfl

theorem ids_withNote (note : Annotation) (t : Tree) : (t.withNote note).ids = t.ids := by
  cases t with
  | node l k =>
    rw [withNote, Term.label, Term.kind, ids_node, ids_node]

theorem graft_withNote (note : Annotation) (t : Tree) :
    graft x new (t.withNote note) = (graft x new t).withNote note := by
  cases t with
  | node l k =>
    simp only [withNote, Term.label, Term.kind, graft_node]

end Tree

namespace Arena.Holds

variable {a b : Arena} {t n : Tree} {new : Kind Tree} {ids : List NodeId}

/-- A change inside one node. In the rest of the tree, and in what the node hangs from, the arena is
as before. -/
theorem graft (held : a.Holds t) (member : n ∈ t.subterms) (changed : b.Holds (.node n.label new))
    (confined : Confined ids a b) (within : ∀ y ∈ t.ids, y ∈ ids → y ∈ n.ids)
    (root : b.parent? n.id = a.parent? n.id)
    (fresh : ∀ y ∈ new.children.flatMap Tree.ids, y ∈ t.ids → y ∈ n.ids) :
    b.Holds (Tree.graft n.id new t) := by
  induction t using Term.inductChildren with
  | step l k ih =>
    obtain ⟨shown, row, children, distinct⟩ := holds_node.mp held
    rcases Term.mem_subterms_node.mp member with rfl | ⟨c, child, below⟩
    · rw [Tree.id, Term.label, Tree.graft_self]
      exact changed
    · have nodup := Tree.nodup_graft distinct member changed.distinct
        fun y added => Classical.or_iff_not_imp_right.mpr
          fun inside => fresh y added (Classical.not_not.mp inside)
      have apart : l.id ∉ n.ids := by
        intro same
        rw [Tree.ids_node, List.nodup_cons] at distinct
        exact distinct.1 (List.mem_flatMap.mpr ⟨c, child, Tree.ids_subset below same⟩)
      have outside : ¬ l.id = n.id := fun same => apart (same ▸ Tree.id_mem_ids n)
      rw [Tree.graft_node, if_neg outside] at nodup ⊢
      refine holds_node.mpr ⟨shown, ?_, ?_, nodup⟩
      · have untouched : l.id ∉ ids := fun inside => apart (within _ (Tree.id_mem_ids _) inside)
        rw [confined.rows _ untouched (held.index_lt (Tree.id_mem_ids _)), row, Kind.map_map]
        simp only [Tree.id_graft]
      · rw [Kind.children_map]
        intro d' member'
        obtain ⟨d, second, rfl⟩ := List.mem_map.mp member'
        have part : d.ids ⊆ Tree.ids (.node l k) := Tree.ids_child_subset (t := .node l k) second
        rw [Tree.id_graft, ← (children d second).1]
        by_cases same : d = c
        · subst same
          refine ⟨?_, ih d child (children d child).2 below (fun y inside => within y (part inside))
            (fun y added inside => fresh y added (part inside))⟩
          by_cases top : d.id ∈ n.ids
          · have itself : d = n := by
              obtain ⟨r, inside, named⟩ := Tree.mem_ids.mp top
              have equal := (children d child).2.eq_of_id (Term.subterms_trans inside below)
                (Term.self_mem_subterms d) named
              exact Term.subterms_antisymm (equal ▸ inside) below
            rw [itself, root]
          · have untouched : d.id ∉ ids :=
              fun inside => top (within _ (part (Tree.id_mem_ids d)) inside)
            exact confined.parents _ untouched ((children d child).2.index_lt (Tree.id_mem_ids d))
        · have elsewhere (y : NodeId) (inside : y ∈ d.ids) : y ∉ ids :=
            fun common => same (Tree.child_of_common distinct child below second
              (within y (part inside) common) inside)
          have absent : n.id ∉ d.ids := fun inside =>
            same (Tree.child_of_common distinct child below second (Tree.id_mem_ids n) inside)
          rw [Tree.graft_of_not_mem absent]
          refine ⟨?_, (children d second).2.frame_confined confined elsewhere⟩
          exact confined.parents _ (elsewhere _ (Tree.id_mem_ids d))
            ((children d second).2.index_lt (Tree.id_mem_ids d))

end Arena.Holds

end LocalScope
