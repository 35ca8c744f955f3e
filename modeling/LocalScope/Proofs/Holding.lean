import LocalScope.Arena.View
import LocalScope.Proofs.Subterms

/-! When an arena holds a tree: the rows below a number are those of the tree, the parent table
agrees with them, and no number occurs twice. Whatever is asked of such an arena is answered from
the tree. -/
namespace LocalScope

theorem NodeId.length_le {xs : List NodeId} {bound : Nat} (distinct : xs.Nodup)
    (below : ∀ x ∈ xs, x.index < bound) : xs.length ≤ bound := by
  have inRange : xs.map NodeId.index ⊆ List.range bound := by
    intro i member
    obtain ⟨x, inside, rfl⟩ := List.mem_map.mp member
    exact List.mem_range.mpr (below x inside)
  have different : (xs.map NodeId.index).Nodup :=
    distinct.map fun x y same => Key.index_injective x y same
  simpa using (different.subperm inRange).length_le

namespace Tree

def row (t : Tree) : Node := ⟨t.kind.map id, t.label.note⟩

theorem ids_node (l : Label) (k : Kind Tree) :
    ids (.node l k) = l.id :: k.children.flatMap ids := by
  simp only [ids, Term.subterms_node, List.map_cons, List.map_flatMap]
  rfl

theorem mem_ids {x : NodeId} {t : Tree} : x ∈ t.ids ↔ ∃ s ∈ t.subterms, id s = x := by
  simp [ids]

@[simp] theorem id_mem_ids (t : Tree) : t.id ∈ t.ids :=
  mem_ids.mpr ⟨t, Term.self_mem_subterms t, rfl⟩

theorem ids_subset {s t : Tree} (below : s ∈ t.subterms) : s.ids ⊆ t.ids := by
  intro x inside
  obtain ⟨r, member, named⟩ := mem_ids.mp inside
  exact mem_ids.mpr ⟨r, Term.subterms_trans member below, named⟩

theorem ids_child_subset {c t : Tree} (child : c ∈ t.children) : c.ids ⊆ t.ids :=
  ids_subset (Term.child_mem_subterms child)

theorem ids_sublist {s t : Tree} (below : s ∈ t.subterms) : s.ids.Sublist t.ids := by
  induction t using Term.inductChildren with
  | step l k ih =>
    rcases Term.mem_subterms_node.mp below with rfl | ⟨c, child, inside⟩
    · exact List.Sublist.refl _
    · rw [ids_node]
      have inList : (ids c).Sublist (k.children.flatMap ids) :=
        List.sublist_flatten_of_mem (List.mem_map_of_mem child)
      exact ((ih c child inside).trans inList).trans (List.sublist_cons_self _ _)

theorem id_not_mem_child {c t : Tree} (distinct : t.ids.Nodup) (child : c ∈ t.children) :
    t.id ∉ c.ids := by
  cases t with
  | node l k =>
    rw [ids_node, List.nodup_cons] at distinct
    exact fun inside => distinct.1 (List.mem_flatMap.mpr ⟨c, child, inside⟩)

theorem length_ids (t : Tree) : t.ids.length = t.size := by
  induction t using Term.inductChildren with
  | step l k ih =>
    rw [ids_node, Term.size_node, List.length_cons, List.length_flatMap]
    have same : k.children.map (fun c => (ids c).length) = k.children.map Term.size :=
      List.map_congr_left ih
    rw [same]

theorem ids_block (l : Label) (ss : List Tree) :
    ids (.node l (.block ss)) = l.id :: ss.flatMap ids := by
  rw [ids_node, Kind.children_block]

theorem map_id_sublist (ts : List Tree) : (ts.map id).Sublist (ts.flatMap ids) := by
  rw [List.map_eq_flatMap]
  exact List.Sublist.flatMap_right ts fun t _ => List.singleton_sublist.mpr (id_mem_ids t)

theorem eq_of_common {ts : List Tree} (apart : (ts.flatMap ids).Nodup) {s t : Tree}
    (first : s ∈ ts) (second : t ∈ ts) {x : NodeId} (inFirst : x ∈ s.ids) (inSecond : x ∈ t.ids) :
    s = t := by
  by_contra differ
  have pairs := (List.nodup_flatMap.mp apart).2
  have symmetric : Std.Symm (Function.onFun List.Disjoint ids) := ⟨fun _ _ h => h.symm⟩
  exact pairs.forall first second differ inFirst inSecond

end Tree

namespace Arena

/-- The rows below a number are those of the tree, and no number occurs twice. Nothing is said about
parents. -/
structure Unfolds (a : Arena) (t : Tree) : Prop where
  shown : ∀ s ∈ t.subterms, s.label.reach = .shown
  rows : ∀ s ∈ t.subterms, a.nodes.get? (Tree.id s) = some (Tree.row s)
  distinct : t.ids.Nodup

namespace Unfolds

variable {a : Arena} {s t : Tree}

theorem node {l : Label} {k : Kind Tree} (shown : l.reach = .shown)
    (row : a.nodes.get? l.id = some ⟨k.map Tree.id, l.note⟩)
    (children : ∀ c ∈ k.children, a.Unfolds c) (distinct : (Tree.ids (.node l k)).Nodup) :
    a.Unfolds (.node l k) where
  shown s member := by
    rcases Term.mem_subterms_node.mp member with rfl | ⟨c, child, inside⟩
    · exact shown
    · exact (children c child).shown s inside
  rows s member := by
    rcases Term.mem_subterms_node.mp member with rfl | ⟨c, child, inside⟩
    · exact row
    · exact (children c child).rows s inside
  distinct := distinct

theorem below (unfolds : a.Unfolds t) (member : s ∈ t.subterms) : a.Unfolds s where
  shown r inside := unfolds.shown r (Term.subterms_trans inside member)
  rows r inside := unfolds.rows r (Term.subterms_trans inside member)
  distinct := unfolds.distinct.sublist (Tree.ids_sublist member)

theorem row (unfolds : a.Unfolds t) : a.nodes.get? t.id = some t.row :=
  unfolds.rows t (Term.self_mem_subterms t)

theorem index_lt (unfolds : a.Unfolds t) {x : NodeId} (member : x ∈ t.ids) : x.index < a.size := by
  obtain ⟨s, inside, rfl⟩ := Tree.mem_ids.mp member
  have found := unfolds.rows s inside
  simp only [Table.get?, Key.index] at found
  exact (Array.getElem?_eq_some_iff.mp found).1

theorem size_le (unfolds : a.Unfolds t) : t.size ≤ a.size := by
  rw [← Tree.length_ids]
  exact NodeId.length_le unfolds.distinct fun _ inside => unfolds.index_lt inside

/- So many levels are enough because every level uses up a number. -/
theorem expandBelow_eq (unfolds : a.Unfolds t) (levels : Nat) (above : List NodeId)
    (enough : t.size ≤ levels) (apart : ∀ x ∈ above, x ∉ t.ids) :
    a.expandBelow 0 levels above t.id = t := by
  induction t using Term.inductChildren generalizing levels above with
  | step l k ih =>
    have shown : l.reach = .shown := unfolds.shown _ (Term.self_mem_subterms _)
    have row : a.nodes.get? l.id = some ⟨k.map Tree.id, l.note⟩ := unfolds.row
    have distinct := unfolds.distinct
    rw [Term.size_node] at enough
    rw [Tree.ids_node, List.nodup_cons] at distinct
    cases levels with
    | zero => omega
    | succ levels =>
      have fresh : above.count l.id = 0 := by
        apply List.count_eq_zero_of_not_mem
        intro member
        exact apart _ member (Tree.id_mem_ids _)
      have parts : (k.map Tree.id).map (a.expandBelow 0 levels (l.id :: above)) = k := by
        rw [Kind.map_map]
        apply Kind.map_eq_self
        intro c child
        have below : c ∈ (Term.node l k).subterms := Term.child_mem_subterms child
        apply ih c child (unfolds.below below)
        · have listed : c.size ∈ k.children.map Term.size := List.mem_map_of_mem child
          have bound := List.le_sum_of_mem listed
          omega
        · intro x member inside
          rcases List.mem_cons.mp member with rfl | member
          · exact distinct.1 (List.mem_flatMap.mpr ⟨c, child, inside⟩)
          · exact apart x member (Tree.ids_child_subset child inside)
      have label : (⟨l.id, l.note, .shown⟩ : Label) = l := by rw [← shown]
      have top : Tree.id (.node l k) = l.id := rfl
      simp only [expandBelow, top, row, fresh, Nat.lt_irrefl, if_false, parts, label]

theorem view_eq (unfolds : a.Unfolds t) : a.view t.id = t := by
  have bound := unfolds.size_le
  apply unfolds.expandBelow_eq
  · omega
  · simp

theorem no_gap (unfolds : a.Unfolds t) : t.gap? = none := by
  rw [Tree.gap?, List.findSome?_eq_none_iff]
  intro s member
  simp [Label.gap?, unfolds.shown s member]

theorem whole_eq (unfolds : a.Unfolds t) : a.whole t.id = .ok t := by
  have noGap : (a.view t.id).gap? = none := by rw [unfolds.view_eq, unfolds.no_gap]
  rw [whole_eq_view a t.id noGap, unfolds.view_eq]

end Unfolds

structure Holds (a : Arena) (t : Tree) : Prop where
  shown : ∀ s ∈ t.subterms, s.label.reach = .shown
  rows : ∀ s ∈ t.subterms, a.nodes.get? (Tree.id s) = some (Tree.row s)
  links : ∀ s ∈ t.subterms, ∀ c ∈ s.children, a.parent? (Tree.id c) = some (Tree.id s)
  distinct : t.ids.Nodup

theorem Holds.unfolds {a : Arena} {t : Tree} (held : a.Holds t) : a.Unfolds t :=
  ⟨held.shown, held.rows, held.distinct⟩

theorem holds_node {a : Arena} {l : Label} {k : Kind Tree} :
    a.Holds (.node l k) ↔
      l.reach = .shown ∧ a.nodes.get? l.id = some ⟨k.map Tree.id, l.note⟩ ∧
      (∀ c ∈ k.children, a.parent? (Tree.id c) = some l.id ∧ a.Holds c) ∧
      (Tree.ids (.node l k)).Nodup := by
  constructor
  · intro held
    have top := Term.self_mem_subterms (Term.node l k)
    refine ⟨held.shown _ top, held.rows _ top, ?_, held.distinct⟩
    intro c child
    have below : c ∈ (Term.node l k).subterms := Term.child_mem_subterms child
    refine ⟨held.links _ top c child, ?_⟩
    exact {
      shown := fun s inside => held.shown s (Term.subterms_trans inside below)
      rows := fun s inside => held.rows s (Term.subterms_trans inside below)
      links := fun s inside => held.links s (Term.subterms_trans inside below)
      distinct := held.distinct.sublist (Tree.ids_sublist below) }
  · rintro ⟨shown, row, children, distinct⟩
    have unfolds := Unfolds.node shown row (fun c child => (children c child).2.unfolds) distinct
    refine ⟨unfolds.shown, unfolds.rows, ?_, distinct⟩
    intro s member
    rcases Term.mem_subterms_node.mp member with rfl | ⟨c, child, inside⟩
    · exact fun c child => (children c child).1
    · exact (children c child).2.links s inside

theorem holds_block {a : Arena} {l : Label} {ss : List Tree} :
    a.Holds (.node l (.block ss)) ↔
      l.reach = .shown ∧ a.nodes.get? l.id = some ⟨.block (ss.map Tree.id), l.note⟩ ∧
      (∀ s ∈ ss, a.parent? s.id = some l.id ∧ a.Holds s) ∧
      l.id ∉ ss.flatMap Tree.ids ∧ (ss.flatMap Tree.ids).Nodup := by
  rw [holds_node, Kind.children_block, Tree.ids_block, List.nodup_cons]
  rfl

namespace Holds

variable {a a' : Arena} {s t : Tree}

theorem below (held : a.Holds t) (member : s ∈ t.subterms) : a.Holds s where
  shown r inside := held.shown r (Term.subterms_trans inside member)
  rows r inside := held.rows r (Term.subterms_trans inside member)
  links r inside := held.links r (Term.subterms_trans inside member)
  distinct := held.distinct.sublist (Tree.ids_sublist member)

theorem row (held : a.Holds t) : a.nodes.get? t.id = some t.row := held.unfolds.row

theorem kind (held : a.Holds t) : a.kind t.id = .ok (t.kind.map Tree.id) := by
  simp [Arena.kind, node, held.row, Tree.row]

theorem note (held : a.Holds t) : a.note t.id = .ok t.label.note := by
  simp [Arena.note, node, held.row, Tree.row]

theorem index_lt (held : a.Holds t) {x : NodeId} (member : x ∈ t.ids) : x.index < a.size :=
  held.unfolds.index_lt member

theorem eq_of_id (held : a.Holds t) {r s : Tree} (first : r ∈ t.subterms)
    (second : s ∈ t.subterms) (same : r.id = s.id) : r = s :=
  List.inj_on_of_nodup_map held.distinct first second same

theorem size_le (held : a.Holds t) : t.size ≤ a.size := held.unfolds.size_le

/-- A change elsewhere does not matter. Nor does it matter what the root hangs from. -/
theorem frame (held : a.Holds t) (rows : ∀ x ∈ t.ids, a'.nodes.get? x = a.nodes.get? x)
    (parents : ∀ x ∈ t.ids, x ≠ t.id → a'.parent? x = a.parent? x) : a'.Holds t where
  shown := held.shown
  rows s member := by
    rw [rows _ (Tree.mem_ids.mpr ⟨s, member, rfl⟩)]
    exact held.rows s member
  links s member c child := by
    have inside : c ∈ t.subterms := Term.subterms_trans (Term.child_mem_subterms child) member
    have apart : Tree.id c ≠ t.id := by
      intro same
      have root : c = t := held.eq_of_id inside (Term.self_mem_subterms t) same
      subst root
      have smaller := Term.size_lt_of_mem_children child
      have larger := Term.size_le_of_mem_subterms member
      omega
    rw [parents _ (Tree.mem_ids.mpr ⟨c, inside, rfl⟩) apart]
    exact held.links s member c child
  distinct := held.distinct

theorem view_eq (held : a.Holds t) : a.view t.id = t := held.unfolds.view_eq

theorem whole_eq (held : a.Holds t) : a.whole t.id = .ok t := held.unfolds.whole_eq

theorem look_eq (held : a.Holds t) (met : Tree → Option Label) : a.look met t.id = .ok t := by
  have noGap : (a.view t.id).gap? = none := by rw [held.view_eq, held.unfolds.no_gap]
  rw [look_eq_view a met t.id noGap, held.view_eq]

end Holds

end Arena

end LocalScope
