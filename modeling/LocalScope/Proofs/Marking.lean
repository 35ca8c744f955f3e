import LocalScope.Proofs.Accounting
import LocalScope.Proofs.Capture
import LocalScope.Proofs.Finality

/-! When a declaration is marked final. The writes are counted while the edits are carried out, but
no edit changes what is counted for a later one: outer blocks are planned before inner ones, and a
folding in the scope of a later one would be at the same assignment. -/
namespace LocalScope

namespace LocalVariable

variable {o : Options} {v v' : LocalVariable} {t b m m' s s' h h' : Tree} {e e' : Edit}

/-- In a block a variable is declared in the place of an assignment: at its first use, or in the
header of a `for`. Beside the block stand its statement with the assignment and the node that is to
hold the declaration. -/
inductive FoldsAt (o : Options) (v : LocalVariable) (m : Tree) : Tree → Tree → Edit → Prop
  | point {s : Tree} {e : Edit} (declares : v.declaresAt? o m = some s)
      (folds : v.pointFold? o s = some e) : FoldsAt o v m s m e
  | header {s : Tree} {e : Edit} (passes : v.passesOn o m = true) (listed : s ∈ m.statements)
      (folds : v.headerFold? o s = some e) : FoldsAt o v m s s e

theorem folding_of_spread (planned : e ∈ v.spread o b) (folding : e.isInsertion = false) :
    ∃ m s h, v.HandedTo o b m ∧ v.FoldsAt o m s h e := by
  rcases mem_spread.mp planned with ⟨m, point, handed, declares, rfl⟩ |
    ⟨m, s, handed, passes, listed, folds⟩
  · cases folds : v.pointFold? o point with
    | none =>
      rw [declareAt, folds] at folding
      cases folding
    | some e =>
      rw [declareAt, folds]
      exact ⟨m, point, m, handed, .point declares folds⟩
  · exact ⟨m, s, s, handed, .header passes listed folds⟩

theorem HandedTo.head (handed : v.HandedTo o b m) :
    m = b ∨ v.passesOn o b = true ∧ ∃ s ∈ b.statements, v.headerFold? o s = none ∧
      ∃ r ∈ s.receivers, v.HandedTo o r m := by
  induction handed with
  | start => exact .inl rfl
  | onward handed passes listed unfolded received ih =>
    rcases ih with rfl | ⟨passes', s, listed', unfolded', r, received', rest⟩
    · exact .inr ⟨passes, _, listed, unfolded, _, received, .start⟩
    · exact .inr ⟨passes', s, listed', unfolded', r, received',
        .onward rest passes listed unfolded received⟩

section names

variable (named : v.name = v'.name)

include named

theorem declaresAt?_congr (m : Tree) : v.declaresAt? o m = v'.declaresAt? o m := by
  rw [declaresAt?, declaresAt?, moves, moves, mayMove, mayMove, named]

theorem passesOn_congr (m : Tree) : v.passesOn o m = v'.passesOn o m := by
  rw [passesOn, passesOn, moves, moves, mayMove, mayMove, named]

theorem headerFold?_congr (s : Tree) :
    (v.headerFold? o s).map Edit.site = (v'.headerFold? o s).map Edit.site := by
  simp only [headerFold?, named]
  split <;> simp [Function.comp_def, foldInto]

theorem pointFold?_congr (s : Tree) :
    (v.pointFold? o s).map Edit.site = (v'.pointFold? o s).map Edit.site := by
  simp only [pointFold?, named]
  split <;> simp [Function.comp_def, foldInto]

end names

namespace FoldsAt

theorem listed (folds : v.FoldsAt o m s h e) : s ∈ m.statements := by
  cases folds with
  | point declares => exact point_mem declares
  | header passes listed => exact listed

theorem isBlock (folds : v.FoldsAt o m s h e) : m.isBlock = true := by
  have shape : m.kind = .block m.statements := Term.kind_of_statement folds.listed
  rw [Term.isBlock, shape]
  rfl

theorem holder (folds : v.FoldsAt o m s h e) : h = m ∨ h = s := by
  cases folds with
  | point => exact .inl rfl
  | header => exact .inr rfl

theorem holder_mem (folds : v.FoldsAt o m s h e) : h ∈ m.subterms := by
  rcases folds.holder with rfl | rfl
  · exact Term.self_mem_subterms h
  · exact Term.child_mem_subterms (Term.statement_mem_children folds.listed)

theorem at' (folds : v.FoldsAt o m s h e) : e.At h := by
  cases folds with
  | point declares folds =>
    have at' := (declareAt_at (o := o) (v := v) (point_mem declares)).1
    rwa [declareAt, folds, Option.getD_some] at at'
  | header passes listed folds => exact (headerFold?_at folds).1

theorem absorbs (folds : v.FoldsAt o m s h e) :
    ∃ entry r x, entry.absorbable? v.name = some (r, x) ∧ e = v.foldInto r x ∧
      (h = m ∧ entry = s ∨ h = s ∧ s.onlyInit? = some entry) := by
  cases folds with
  | point declares folds =>
    rw [pointFold?] at folds
    split at folds
    · obtain ⟨⟨r, x⟩, absorbs, rfl⟩ := Option.map_eq_some_iff.mp folds
      exact ⟨s, r, x, absorbs, rfl, .inl ⟨rfl, rfl⟩⟩
    · cases folds
  | header passes listed folds =>
    rw [headerFold?] at folds
    split at folds
    · obtain ⟨⟨r, x⟩, absorbs, rfl⟩ := Option.map_eq_some_iff.mp folds
      obtain ⟨init, only, absorbs⟩ := Term.absorbableHeader?_eq_some.mp absorbs
      exact ⟨init, r, x, absorbs, rfl, .inr ⟨rfl, only⟩⟩
    · cases folds

theorem assigned (folds : v.FoldsAt o m s h e) :
    ∃ r ∈ s.subterms, e.site.node = Tree.id r ∧ r.isBlock = false := by
  obtain ⟨entry, r, x, absorbs, rfl, place⟩ := folds.absorbs
  obtain ⟨value, found, shape, -⟩ := Term.absorbable?_eq_some.mp absorbs
  have inside : entry ∈ s.subterms := by
    rcases place with ⟨-, rfl⟩ | ⟨-, only⟩
    · exact Term.self_mem_subterms _
    · exact Term.child_mem_subterms (Term.onlyInit?_mem_children only)
  refine ⟨r, Term.subterms_trans (Term.assignment?_mem_subterms found) inside, rfl, ?_⟩
  rw [Term.isBlock, shape]
  rfl

theorem site_mem (folds : v.FoldsAt o m s h e) : e.site.node ∈ s.ids := by
  obtain ⟨r, inside, same, -⟩ := folds.assigned
  exact same ▸ Tree.ids_subset inside (Tree.id_mem_ids r)

theorem not_leaves (folds : v.FoldsAt o m s h e) :
    s.uses v.name = true ∧ s.leavesToBlocks v.name = false := by
  obtain ⟨entry, r, x, absorbs, -, place⟩ := folds.absorbs
  obtain ⟨value, found, shape, named, -⟩ := Term.absorbable?_eq_some.mp absorbs
  have assigned : r.uses v.name = true :=
    Term.uses_of_writes (by simp only [Term.writes, shape, named])
  have used : entry.uses v.name = true := by
    obtain ⟨-, rfl | around⟩ := Term.assignment?_cases found
    · exact assigned
    · obtain ⟨l, k⟩ := entry
      obtain rfl : k = _ := around
      exact Term.uses_of_child rfl (by simp [Kind.children, Kind.slots, Slot.children]) assigned
  obtain ⟨used, block, bare⟩ :
      s.uses v.name = true ∧ s.isBlock = false ∧ s.kind.holdsBlocks = false := by
    rcases place with ⟨-, rfl⟩ | ⟨-, only⟩
    · obtain ⟨l, k⟩ := entry
      cases k <;> first | exact ⟨used, rfl, rfl⟩ | cases found
    · have child := Term.onlyInit?_mem_children only
      obtain ⟨cond, update, body, shape⟩ := Term.onlyInit?_eq_some.mp only
      obtain ⟨l, k⟩ := s
      obtain rfl : k = _ := shape
      exact ⟨Term.uses_of_child rfl child used, rfl, rfl⟩
  exact ⟨used, by simp [Term.leavesToBlocks, used, block, bare]⟩

end FoldsAt

theorem receiver_between {r : Tree} (distinct : s.ids.Nodup) (received : r ∈ s.receivers)
    (inside : m ∈ s.subterms) (below : r ∈ m.subterms) :
    m = s ∨ m = r ∨ m.isBlock = false ∧ m.kind.holdsBlocks = true := by
  have inOwn (n : Tree) (below : r ∈ n.subterms) : r.id ∈ n.ids :=
    Tree.ids_subset below (Tree.id_mem_ids r)
  have direct {n : Tree} (distinct : n.ids.Nodup) (child : r ∈ n.children)
      (inside : m ∈ n.subterms) :
      m = n ∨ m = r := by
    obtain ⟨l, k⟩ := n
    rcases Term.mem_subterms_node.mp inside with rfl | ⟨c, other, within⟩
    · exact .inl rfl
    · obtain rfl : r = c :=
        Tree.child_of_common distinct other within child (inOwn m below) (Tree.id_mem_ids r)
      exact .inr (Term.subterms_antisymm within below)
  obtain ⟨-, child | ⟨part, member, clause, holds, child⟩⟩ := Term.receiver_cases received
  · exact (direct distinct child inside).imp_right .inl
  · obtain ⟨l, k⟩ := s
    rcases Term.mem_subterms_node.mp inside with rfl | ⟨c, other, within⟩
    · exact .inl rfl
    · obtain rfl : part = c := Tree.child_of_common distinct other within member (inOwn m below)
        (inOwn part (Term.child_mem_subterms child))
      have own := distinct.sublist
        (Tree.ids_sublist (Term.child_mem_subterms (t := .node l k) member))
      rcases direct own child within with rfl | same
      · exact .inr (.inr ⟨clause, holds⟩)
      · exact .inr (.inl same)

/- A block around a block that the variable is handed on to is on the way there, unless it is a bare
statement of a block on the way. -/
theorem HandedTo.passes_through (handed : v.HandedTo o b m) (distinct : b.ids.Nodup)
    (inside : h ∈ b.subterms) (block : h.isBlock = true) (below : m ∈ h.subterms) :
    v.HandedTo o h m ∨
      ∃ c, v.passesOn o c = true ∧ h ∈ c.statements ∧ v.headerFold? o h = none := by
  by_cases outside : b ∈ h.subterms
  · obtain rfl := Term.subterms_antisymm outside inside
    exact .inl handed
  · obtain ⟨c, handed', passes, s, listed, unfolded, around, r, received, within, rest⟩ :=
      handed.enters distinct (Term.self_mem_subterms b) inside outside below
    have own := distinct.sublist (Tree.ids_sublist (Term.subterms_trans
      (Term.child_mem_subterms (Term.statement_mem_children listed)) handed'.mem_subterms))
    rcases receiver_between own received around within with rfl | rfl | ⟨clause, -⟩
    · exact .inr ⟨c, passes, listed, unfolded⟩
    · exact .inl rest
    · rw [block] at clause
      cases clause

theorem FoldsAt.block_mem (distinct : b.ids.Nodup) (inside : m ∈ b.subterms)
    (folds : v.FoldsAt o m s h e) (inside' : m' ∈ b.subterms) (folds' : v'.FoldsAt o m' s' h' e')
    (common : e'.site.node ∈ h.ids) : m' ∈ m.subterms := by
  have block := folds.isBlock
  have listed := Term.statement_mem_children folds'.listed
  obtain ⟨r, below, node, other⟩ := folds'.assigned
  have deep := Term.mem_subterms_of_child listed below
  have inBlock : r ∈ m.subterms := by
    obtain ⟨r', within, same⟩ := List.mem_map.mp (Tree.ids_subset folds.holder_mem common)
    obtain rfl : r' = r := List.inj_on_of_nodup_map distinct (Term.subterms_trans within inside)
      (Term.subterms_trans deep inside') (same.trans node)
    exact within
  obtain ⟨l, k⟩ := m
  rcases Term.mem_subterms_node.mp inBlock with rfl | ⟨c, child, within⟩
  · rw [block] at other
    cases other
  · have unassigned : (Term.node l k).assignment? = none := by
      cases k <;> first | rfl | cases block
    have found := folds'.at'.below distinct (Term.subterms_trans folds'.holder_mem inside') inside
      unassigned child (node ▸ Tree.ids_subset within (Tree.id_mem_ids r))
    rcases folds'.holder with rfl | rfl
    · exact found
    · refine Tree.parent_mem distinct inside' inside listed found ?_
      rintro rfl
      have leaves := folds'.not_leaves.2
      rw [Term.leavesToBlocks, block] at leaves
      cases leaves

/-- Where the assignment of a folding is in the holder of another one for the same name, the two are
at one assignment, provided that the block of the latter is in the block that the former starts
from. -/
theorem FoldsAt.site_eq (distinct : b.ids.Nodup) (named : v.name = v'.name)
    (inside : m ∈ b.subterms) (folds : v.FoldsAt o m s h e) (handed : v'.HandedTo o b m')
    (folds' : v'.FoldsAt o m' s' h' e') (common : e'.site.node ∈ h.ids) : e'.site = e.site := by
  have below := folds.block_mem distinct inside handed.mem_subterms folds' common
  obtain ⟨used, bare⟩ := folds.not_leaves
  have child := Term.statement_mem_children folds.listed
  rcases handed.passes_through distinct inside folds.isBlock below with
    onWay | ⟨c, passes, listed, unfolded⟩
  · cases folds with
    | point declares folds =>
      -- The block declares the variable, so it hands nothing on.
      rw [declaresAt?_congr named] at declares
      have stays := stays_of_declaresAt declares
      rcases onWay.head with rfl | ⟨passes, -⟩
      · cases folds' with
        | point declares' folds' =>
          obtain rfl : s = s' := Option.some.inj (declares.symm.trans declares')
          have same := pointFold?_congr (o := o) named s
          rw [folds, folds'] at same
          exact (Option.some.inj same).symm
        | header passes => simp [passesOn, stays] at passes
      · simp [passesOn, stays] at passes
    | header passes listed folds =>
      -- Whatever else the block hands on goes to its other statements.
      have own := distinct.sublist (Tree.ids_sublist inside)
      have alone {s₁ : Tree} (listed₁ : s₁ ∈ m.statements) (within : e'.site.node ∈ Tree.ids s₁) :
          s₁ = s :=
        Tree.eq_of_common (Tree.nodup_ids_statements own) listed₁ listed within common
      have same := headerFold?_congr (o := o) named s
      rw [folds] at same
      rw [passesOn_congr named] at passes
      rcases onWay.head with rfl | ⟨-, s₁, listed₁, unfolded, r, received, rest⟩
      · cases folds' with
        | point declares =>
          simp [passesOn, stays_of_declaresAt declares] at passes
        | header passes' listed' folds' =>
          obtain rfl := alone listed' (FoldsAt.header passes' listed' folds').site_mem
          rw [folds'] at same
          exact (Option.some.inj same).symm
      · have deep : e'.site.node ∈ Tree.ids s₁ :=
          Tree.ids_subset (Term.subterms_trans (Term.subterms_trans (Term.child_mem_subterms
            (Term.statement_mem_children folds'.listed)) rest.mem_subterms)
              (Term.receiver_mem_subterms received)) folds'.site_mem
        obtain rfl := alone listed₁ deep
        rw [unfolded] at same
        cases same
  · -- A bare block that is passed by uses the variable in its blocks only.
    have block := folds.isBlock
    have inBlock : m.uses v'.name = true := by
      rw [← named]
      obtain ⟨l, k⟩ := m
      cases k with
      | block ss => exact Term.uses_of_child rfl child used
      | _ => cases block
    have leaves := List.all_eq_true.mp (leaves_of_passed passes listed inBlock unfolded) s child
    rw [← named, bare] at leaves
    cases leaves

end LocalVariable

theorem Edit.At.holder_unique {u n n' : Tree} {e : Edit} (distinct : u.ids.Nodup)
    (inside : n ∈ u.subterms) (at' : e.At n) (inside' : n' ∈ u.subterms) (other : e.At n') :
    n = n' := by
  have inTree {n s : Tree} (inside : n ∈ u.subterms) (child : s ∈ n.children) : s ∈ u.subterms :=
    Term.subterms_trans (Term.child_mem_subterms child) inside
  rcases at' with ⟨s, listed, site⟩ | ⟨s, entry, r, found, site, -⟩
  · rcases other with ⟨s', listed', site'⟩ | ⟨s', -, r', -, site', -⟩
    · have child := Term.statement_mem_children listed
      have child' := Term.statement_mem_children listed'
      obtain rfl : s = s' := List.inj_on_of_nodup_map distinct (inTree inside child)
        (inTree inside' child') (Site.before.inj (site.symm.trans site'))
      exact Tree.parent_unique distinct inside inside' child child'
    · rw [site] at site'
      cases site'
  · rcases other with ⟨s', -, site'⟩ | ⟨s', entry', r', found', site', -⟩
    · rw [site] at site'
      cases site'
    · have child := Term.entry_mem_children entry
      have child' := Term.entry_mem_children entry'
      obtain rfl : r = r' := List.inj_on_of_nodup_map distinct
        (Term.subterms_trans (Term.assignment?_mem_subterms found) (inTree inside child))
        (Term.subterms_trans (Term.assignment?_mem_subterms found') (inTree inside' child'))
        (Site.inPlaceOf.inj (site.symm.trans site'))
      obtain rfl : s = s' := Tree.eq_of_assignment? distinct inside inside' child
        (Term.assignment?_of_entry entry) child' (Term.assignment?_of_entry entry') found found'
      exact Tree.parent_unique distinct inside inside' child child'

/-- A folding leaves the holder of another one for the same name alone. -/
def Edit.Spares (u : Tree) (e e' : Edit) : Prop :=
  e.isInsertion = false → e'.isInsertion = false → e.name = e'.name →
    ∀ n ∈ u.subterms, e'.At n → e.site.node ∈ Tree.ids n → e.site = e'.site

namespace Tree

variable {o : Options} {t n n' : Tree} {v v' : LocalVariable} {e e' : Edit}

theorem subterms_pairwise (distinct : t.ids.Nodup) :
    t.subterms.Pairwise fun n n' => n' ∈ n.subterms ∨ List.Disjoint (ids n) (ids n') := by
  induction t using Term.inductChildren with
  | step l k ih =>
    rw [Term.subterms_node, List.pairwise_cons]
    refine ⟨fun n inside => .inl ?_, List.pairwise_flatMap.mpr ⟨fun c child => ?_, ?_⟩⟩
    · rw [Term.subterms_node]
      exact List.mem_cons_of_mem _ inside
    · exact ih c child
        (distinct.sublist (ids_sublist (Term.child_mem_subterms (t := .node l k) child)))
    · rw [ids_node, List.nodup_cons] at distinct
      refine (List.nodup_flatMap.mp distinct.2).2.imp fun {c c'} apart n inside n' inside' => .inr ?_
      exact fun x mine other => apart (ids_subset inside mine) (ids_subset inside' other)

theorem spares_of_around (distinct : t.ids.Nodup) (sound : t.Sound) (outer : n ∈ t.subterms)
    (inner : n' ∈ n.subterms) (block : n'.isBlock = true) (planned : e ∈ v.spread o (Term.strip n))
    (planned' : e' ∈ v'.spread o (Term.strip n')) : e.Spares (Term.strip t) e' := by
  intro folding folding' named h inTree at' common
  obtain ⟨m, s, h₁, handed, folds⟩ := LocalVariable.folding_of_spread planned folding
  obtain ⟨m', s', h', handed', folds'⟩ := LocalVariable.folding_of_spread planned' folding'
  have around := strip_mem_subterms (sound.below outer) inner (isDeclarative_of_block block)
  have inside' : h' ∈ (Term.strip t).subterms := Term.subterms_trans folds'.holder_mem
    (Term.subterms_trans handed'.mem_subterms (strip_mem_subterms sound
      (Term.subterms_trans inner outer) (isDeclarative_of_block block)))
  obtain rfl : h = h' :=
    at'.holder_unique (distinct.sublist (ids_strip t)) inTree inside' folds'.at'
  have own : (ids (Term.strip n)).Nodup :=
    (distinct.sublist (ids_sublist outer)).sublist (ids_strip n)
  refine folds'.site_eq own ?_ (Term.subterms_trans handed'.mem_subterms around) handed folds common
  rw [← (LocalVariable.spread_fits planned).2.2, ← (LocalVariable.spread_fits planned').2.2, named]

theorem spares_of_disjoint (distinct : t.ids.Nodup) (sound : t.Sound) (inside' : n' ∈ t.subterms)
    (block : n'.isBlock = true) (apart : List.Disjoint n.ids n'.ids)
    (planned : e ∈ v.spread o (Term.strip n)) (planned' : e' ∈ v'.spread o (Term.strip n')) :
    e.Spares (Term.strip t) e' := by
  intro folding folding' named h inTree at' common
  obtain ⟨h', below, fits⟩ := (LocalVariable.spread_fits planned').1
  obtain rfl : h = h' := at'.holder_unique (distinct.sublist (ids_strip t)) inTree
    (Term.subterms_trans below (strip_mem_subterms sound inside' (isDeclarative_of_block block))) fits
  exact absurd ((ids_strip n').subset (ids_subset below common))
    (apart ((ids_strip n).subset (LocalVariable.spread_fits planned).1.node_mem_ids))

/-- In a plan no folding disturbs the holder of a later one. -/
theorem plan_spares (o : Options) (distinct : t.ids.Nodup) (sound : t.Sound) :
    (t.plan o).Pairwise (Edit.Spares (Term.strip t)) := by
  have block {n : Tree} {v : LocalVariable} (known : v ∈ locals (statements n)) :
      n.isBlock = true := by
    obtain ⟨d, listed, -⟩ := List.mem_filterMap.mp known
    have shape : n.kind = .block (statements n) := Term.kind_of_statement listed
    rw [Term.isBlock, shape]
    rfl
  rw [plan_eq_flatMap]
  refine List.pairwise_flatMap.mpr ⟨fun n inside => ?_, ?_⟩
  · refine List.pairwise_of_forall_mem_list fun e planned e' planned' => ?_
    obtain ⟨v, known, planned⟩ := List.mem_flatMap.mp planned
    obtain ⟨v', -, planned'⟩ := List.mem_flatMap.mp planned'
    exact spares_of_around distinct sound inside (Term.self_mem_subterms n) (block known) planned
      planned'
  · refine (subterms_pairwise distinct).imp_of_mem
      fun {n n'} inside inside' order e planned e' planned' => ?_
    obtain ⟨v, -, planned⟩ := List.mem_flatMap.mp planned
    obtain ⟨v', known', planned'⟩ := List.mem_flatMap.mp planned'
    rcases order with around | apart
    · exact spares_of_around distinct sound inside around (block known') planned planned'
    · exact spares_of_disjoint distinct sound inside' (block known') apart planned planned'

end Tree

namespace Editing.Placed

variable {o : Options} {t : Tree} {a b : Arena} {ps : List Patch} {stats : Stats}

theorem spares (placed : Placed o t a ps stats b) (distinct : t.ids.Nodup) (sound : t.Sound)
    {p q : Patch} {qs rest : List Patch} (split : ps = qs ++ p :: rest) (earlier : q ∈ qs) :
    q.edit.Spares (Term.strip t) p.edit := by
  have all : (ps.map Patch.edit).Pairwise (Edit.Spares (Term.strip t)) := by
    have inserted {e e' : Edit} (among : e ∈ (t.plan o).filter Edit.isInsertion) :
        e.Spares (Term.strip t) e' := by
      intro folding
      rw [(List.mem_filter.mp among).2] at folding
      cases folding
    rw [placed.edits, Edit.carriedOut, List.pairwise_append]
    exact ⟨List.pairwise_of_forall_mem_list fun e among _ _ => inserted among,
      (Tree.plan_spares o distinct sound).sublist (Edit.effective_sublist.trans List.filter_sublist),
      fun e among _ _ => inserted among⟩
  rw [split, List.map_append, List.pairwise_append] at all
  exact all.2.2 _ (List.mem_map_of_mem earlier) _ (by simp)

theorem unfolded_writes (placed : Placed o t a ps stats b) (distinct : t.ids.Nodup) (sound : t.Sound)
    {p : Patch} {qs rest : List Patch} (split : ps = qs ++ p :: rest) {n w : Tree} {x : NodeId}
    (member : n ∈ (Term.strip t).subterms) (at' : p.edit.At n) (site : p.edit.site = .inPlaceOf x)
    (unfolded : Tree.folding? qs x = none) (inside : w ∈ n.subterms)
    (writes : w.writes p.edit.name = true) : Tree.foldedBy? qs w = none := by
  obtain ⟨size, -, applied⟩ := placed.applied
  by_contra gone
  obtain ⟨q, gone⟩ := Option.ne_none_iff_exists'.mp gone
  obtain ⟨r, found, folded⟩ := Option.bind_eq_some_iff.mp gone
  have later : Tree.folding? ps (Tree.id r) = some q := by
    rw [split, Tree.folding?, List.find?_append, ← Tree.folding?, folded]
    rfl
  obtain ⟨y, value, shape, target⟩ :=
    applied.folded_at (Term.subterms_trans inside member) found later
  obtain rfl : w = r := by
    obtain ⟨-, same | around⟩ := Term.assignment?_cases found
    · exact same
    · simp only [Term.writes, around] at writes
      cases writes
  have named : q.edit.name = p.edit.name := by
    simp only [Term.writes, shape] at writes
    rw [Term.isIdentifier_iff] at writes target
    exact Kind.identifier.inj (target.symm.trans writes)
  obtain ⟨earlier, site'⟩ := Tree.folding?_mem folded
  have same : q.edit.site = p.edit.site :=
    placed.spares distinct sound split earlier (by simp [Edit.isInsertion, site'])
      (by simp [Edit.isInsertion, site]) named n member at'
      (by rw [site']; exact Tree.ids_subset inside (Tree.id_mem_ids w))
  rw [site', site, Site.inPlaceOf.injEq] at same
  rw [same, unfolded] at folded
  cases folded

theorem folding_mark_value (placed : Placed o t a ps stats b) (distinct : t.ids.Nodup) (sound : t.Sound)
    {p : Patch} {n s r x v : Tree} (member : n ∈ (Term.strip t).subterms) (entry : s ∈ n.entries)
    (found : s.assignment? = some r) (chosen : Tree.folding? ps (Tree.id r) = some p)
    (shape : r.kind = .assignment .plain x v) :
    p.isFinal = (o.markFinal && n.writeCount p.edit.name == v.writeCount p.edit.name + 1) := by
  obtain ⟨size, -, applied⟩ := placed.applied
  obtain ⟨qs, rest, split, unfolded, mark⟩ :=
    applied.mark_of_folding placed.marked member entry found chosen shape
  have child := Term.entry_mem_children entry
  have inTree := Term.subterms_trans (Term.child_mem_subterms child) member
  have site := (Tree.folding?_mem chosen).2
  obtain ⟨x', v', shape', target⟩ := applied.folded_at inTree found chosen
  have at' : p.edit.At n := .inr ⟨s, entry, r, found, site, x', v', shape', target⟩
  have folds : Tree.FoldsVariables qs (Term.strip t) := (split ▸ applied.foldsVariables).early
  have kept {c : Tree} (inside : c ∈ n.subterms) :
      (c.rebuild qs).writeCount p.edit.name = c.writeCount p.edit.name := by
    rw [Tree.writeCount_rebuild _ (folds.below (Term.subterms_trans inside member)), Term.writeCount]
    refine List.countP_congr fun w below => ?_
    rw [Bool.and_eq_true, and_iff_left_iff_imp]
    intro writes
    rw [placed.unfolded_writes distinct sound split member at' site unfolded
      (Term.subterms_trans below inside) writes]
    rfl
  have inHolder := Term.mem_subterms_of_child child (Tree.value_mem_subterms found shape)
  rw [mark, kept (Term.self_mem_subterms n), kept inHolder]

theorem folding_mark (placed : Placed o t a ps stats b) (distinct : t.ids.Nodup) (sound : t.Sound)
    {p : Patch} {n s r x v : Tree} (member : n ∈ (Term.strip t).subterms) (entry : s ∈ n.entries)
    (found : s.assignment? = some r) (chosen : Tree.folding? ps (Tree.id r) = some p)
    (shape : r.kind = .assignment .plain x v)
    (visible : ∀ m ∈ v.subterms, Term.hides p.edit.name m.kind = false) :
    p.isFinal = (o.markFinal && n.writeCount p.edit.name == 1) := by
  have inTree := Term.subterms_trans (Term.child_mem_subterms (Term.entry_mem_children entry)) member
  have unused := placed.value_unused sound
    (Term.subterms_trans (Term.assignment?_mem_subterms found) inTree) chosen shape
  rw [placed.folding_mark_value distinct sound member entry found chosen shape,
    Term.writeCount_unused visible unused]

theorem made_of_mem (placed : Placed o t a ps stats b) {p : Patch} (known : p ∈ ps) :
    Tree.Made ps p := by
  cases site : p.edit.site with
  | before x => exact .inl ⟨known, by simp [Edit.isInsertion, site]⟩
  | inPlaceOf x => exact .inr ⟨x, placed.folding?_of_mem known site⟩

theorem declared_by (placed : Placed o t a ps stats b) {n d : Tree}
    (member : n ∈ (Tree.rebuild ps (Term.strip t)).subterms) (child : d ∈ n.children)
    (new : d.id ∉ t.ids) (declaration : d.isDeclaration = true) :
    d ∈ n.kind.listing ∧ ∃ p, Tree.Made ps p ∧ ∃ h ∈ (Term.strip t).subterms,
      p.edit.At h ∧ Tree.id h = n.id ∧ ∃ note inner init, d = p.declares note inner init := by
  obtain ⟨size, -, applied⟩ := placed.applied
  have inside := Term.subterms_trans (Term.child_mem_subterms child) member
  rcases Tree.mem_subterms_rebuild inside with ⟨q, within, kept, note, rfl⟩ |
    ⟨-, p, known, -, declares⟩
  · have same : ((Tree.rebuild ps q).withNote note).id = Tree.id q :=
      (Tree.id_withNote note _).trans (congrArg Label.id (Tree.label_rebuild ps kept))
    exact absurd (same ▸ (Tree.ids_strip t).subset (Tree.ids_subset within (Tree.id_mem_ids q))) new
  · have made := placed.made_of_mem known
    obtain ⟨h, holder, at'⟩ := applied.fits p known
    obtain ⟨s, entry⟩ := at'.entry
    have kept := Tree.foldedBy?_of_entry ps entry
    obtain ⟨note, left⟩ := Tree.rebuild_mem_of_entry applied.foldsVariables holder entry
    obtain ⟨outer, inner, init, listed⟩ := made.listed at'
    have listed' : p.declares outer inner init ∈
        ((Tree.rebuild ps h).withNote note).kind.listing := listed
    have child' := Kind.mem_children_of_listing (List.mem_append_left _ listed')
    obtain ⟨outer', inner', init', rfl⟩ := declares declaration
    have same := applied.holds.eq_of_id inside
      (Term.subterms_trans (Term.child_mem_subterms child') left) rfl
    rw [same] at child
    obtain rfl := Tree.parent_unique applied.holds.distinct member left child child'
    refine ⟨same ▸ listed', p, made, h, holder, at', ?_, outer', inner', init', rfl⟩
    exact ((Tree.id_withNote note _).trans (congrArg Label.id (Tree.label_rebuild ps kept))).symm

end Editing.Placed

/-- Whether a node binds a name for what it holds. -/
def Kind.isClause {α : Type} : Kind α → Bool
  | .forEach .. | .catchClause .. => true
  | _ => false

/-- Whether no value of an assignment has a for-each or a catch clause in it. -/
def Term.plainValues {ℓ : Type} (t : Term ℓ) : Bool :=
  t.subterms.all fun r =>
    match r.kind with
    | .assignment _ _ value => value.subterms.all fun m => !m.kind.isClause
    | _ => true

theorem Tree.visible_of_plainValues {t r x v m : Tree} {op : AssignOp} {name : String}
    (plain : t.plainValues = true) (member : r ∈ (Term.strip t).subterms)
    (shape : r.kind = .assignment op x v) (below : m ∈ v.subterms) :
    Term.hides name m.kind = false := by
  obtain ⟨⟨l, k⟩, inside, rfl⟩ := mem_subterms_strip member
  rw [Term.strip_withoutDeclarations, Term.kind] at shape
  cases k with
  | assignment op' x' v' =>
    obtain ⟨-, -, rfl⟩ := Kind.assignment.inj shape
    obtain ⟨⟨l', k'⟩, within, rfl⟩ := mem_subterms_strip below
    have open' : (!k'.isClause) = true :=
      List.all_eq_true.mp (List.all_eq_true.mp plain _ inside) _ within
    rw [Term.strip_withoutDeclarations]
    cases k' <;> first | rfl | cases open'
  | _ => cases shape

/-- A declaration that a run makes is final exactly if declarations are to be marked and the
variable is written once in the node that holds it: the block, or the `for` with the declaration in
its header. The writes are those of the tree without declarations, before any edit is carried out.
-/
theorem Pass.final_iff_written_once {p : Pass} {body : Body} {root : NodeId} {before after : Arena}
    (lowered : Arena.ofBody body = (root, before)) (run : (p.run root before).2 = .ok () after)
    (plain : (before.view root).plainValues = true) :
    ∃ edits stripped, Editing.plan p.options root before = .ok edits stripped ∧
      stripped.view root = Term.strip (before.view root) ∧
      ∀ n ∈ (after.view root).subterms, ∀ d ∈ n.children, Tree.id d ∉ (before.view root).ids →
        ∀ ty bindings isFinal, d.kind = .declaration ty bindings isFinal →
          d ∈ n.kind.listing ∧ ∃ b name init, bindings = [b] ∧ b.kind = .binding name init ∧
            (isFinal = true ↔
              p.options.markFinal = true ∧ stripped.writeCount (Tree.id n) name = .ok 1) := by
  obtain ⟨stripped, planned, shown, left⟩ := Pass.stripped_of_body lowered run
  obtain ⟨t, ps, stats, rfl, held, sound, placed, output⟩ := Pass.placed_of_body lowered run
  obtain ⟨size, -, applied⟩ := placed.applied
  refine ⟨_, stripped, planned, shown, fun n member d child new ty bindings isFinal shape => ?_⟩
  rw [output] at member
  obtain ⟨listed, q, made, h, holder, at', same, outer, inner, init, rfl⟩ :=
    placed.declared_by member child new (by rw [Term.isDeclaration, shape])
  obtain ⟨-, rfl, rfl⟩ := Kind.declaration.inj shape
  refine ⟨listed, _, q.edit.name, init, rfl, rfl, ?_⟩
  have counted : stripped.writeCount (Tree.id n) q.edit.name = .ok (h.writeCount q.edit.name) := by
    rw [← same, Arena.writeCount, (left.below holder).whole_eq]
    rfl
  have mark : q.isFinal = (p.options.markFinal && h.writeCount q.edit.name == 1) := by
    rcases at' with ⟨s, inBlock, site⟩ | ⟨s, entry, r, found, site, x, value, assigns, -⟩
    · exact applied.mark_of_insertion placed.marked made.mem holder inBlock site
    · have chosen : Tree.folding? ps (Tree.id r) = some q := by
        rcases made with ⟨-, insertion⟩ | ⟨y, chosen⟩
        · simp [Edit.isInsertion, site] at insertion
        · have known := (Tree.folding?_mem chosen).2
          rw [site, Site.inPlaceOf.injEq] at known
          exact known ▸ chosen
      have inTree := Term.subterms_trans (Term.mem_subterms_of_child (Term.entry_mem_children entry)
        (Term.assignment?_mem_subterms found)) holder
      exact placed.folding_mark held.distinct sound holder entry found chosen assigns
        fun m => Tree.visible_of_plainValues plain inTree assigns
  rw [mark, Bool.and_eq_true, beq_iff_eq, counted, Except.ok.injEq]

/-- `int v; v = 1; { int v; v = 1; }` -/
def Body.shadowed : Body :=
  .braces [.declareInt "v", .setOne "v", .braces [.declareInt "v", .setOne "v"]]

def Tree.finalOfShadowed : Tree :=
  shown 19 (.declaration (.primitive .int)
    [shown 18 (.binding "v" (some (shown 9 (.literal (.int 1)))))] true)

def Tree.innerOfShadowed : Tree := shown 12 (.block [finalOfShadowed])

def Tree.openOfShadowed : Tree :=
  shown 16 (.declaration (.primitive .int)
    [shown 15 (.binding "v" (some (shown 3 (.literal (.int 1)))))] false)

def Tree.ofShadowed : Tree := shown 13 (.block [openOfShadowed, innerOfShadowed])

theorem Pass.output_shadowed :
    (Pass.outcome {} (Arena.ofBody .shadowed).1 (Arena.ofBody .shadowed).2).view
      (Arena.ofBody .shadowed).1 = Tree.ofShadowed := by cbv

/- The inner declaration is final and the outer one is not: when it is marked, the inner assignment
is still there. -/
theorem Pass.final_iff_written_once_shadowed :
    ∃ edits stripped,
      Editing.plan {} (Arena.ofBody .shadowed).1 (Arena.ofBody .shadowed).2 = .ok edits stripped ∧
      stripped.writeCount ⟨12⟩ "v" = .ok 1 ∧ stripped.writeCount ⟨13⟩ "v" ≠ .ok 1 := by
  have ran : (Pass.run {} (Arena.ofBody .shadowed).1 (Arena.ofBody .shadowed).2).2 = .ok () _ :=
    Pass.run_outcome (by decide +kernel)
  have numbers : ((Arena.ofBody .shadowed).2.view (Arena.ofBody .shadowed).1).ids.all
      (fun x => decide (x.index < 14)) = true := by decide +kernel
  have new (x : NodeId) (large : 14 ≤ x.index) :
      x ∉ ((Arena.ofBody .shadowed).2.view (Arena.ofBody .shadowed).1).ids := fun old => by
    have small := List.all_eq_true.mp numbers x old
    simp only [decide_eq_true_eq] at small
    omega
  have output := Pass.output_shadowed
  obtain ⟨edits, stripped, planned, -, marks⟩ :=
    Pass.final_iff_written_once Prod.mk.eta.symm ran (by decide +kernel)
  rw [output] at marks
  have inner : Tree.innerOfShadowed ∈ Tree.ofShadowed.subterms := Term.child_mem_subterms (by
    simp [Tree.ofShadowed, Tree.shown, Term.children, Term.kind])
  obtain ⟨-, b, name, init, bound, shape, mark⟩ := marks _ inner Tree.finalOfShadowed
    (by simp [Tree.innerOfShadowed, Tree.shown, Term.children, Term.kind]) (new _ (by decide))
    _ _ _ rfl
  obtain ⟨-, b', name', init', bound', shape', mark'⟩ := marks _ (Term.self_mem_subterms _)
    Tree.openOfShadowed (by simp [Tree.ofShadowed, Tree.shown, Term.children, Term.kind])
    (new _ (by decide)) _ _ _ rfl
  obtain rfl := (List.cons.inj bound).1
  obtain rfl := (List.cons.inj bound').1
  obtain rfl := (Kind.binding.inj shape).1
  obtain rfl := (Kind.binding.inj shape').1
  exact ⟨edits, stripped, planned, (mark.mp rfl).2, fun once => by cases mark'.mpr ⟨rfl, once⟩⟩

end LocalScope
