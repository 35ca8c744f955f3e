import LocalScope.Proofs.Marking
import LocalScope.Proofs.Snippets

namespace LocalScope

/-- Every number that the first annotation has is in the second one. -/
def Annotation.KeptIn (old new : Annotation) : Prop :=
  (∀ v, old.variableId = some v → new.variableId = some v) ∧
    ∀ m, old.memberId = some m → new.memberId = some m

namespace Tree

/-- A value whose assignment becomes a declaration, with the annotation that it gets: the variable of
the target and the member of the assignment. -/
def TakenOver (o : Options) (t n : Tree) (note : Annotation) : Prop :=
  ∃ e ∈ t.plan o, ∃ r ∈ t.subterms, e.site = .inPlaceOf (id r) ∧ ∃ op x,
    r.kind = .assignment op x n ∧ note = ⟨x.label.note.variableId, r.label.note.memberId⟩

def RenotedBy (ps : List Patch) (t n : Tree) (note : Annotation) : Prop :=
  ∃ r ∈ t.subterms, ∃ op x p, r.kind = .assignment op x n ∧ folding? ps (id r) = some p ∧
    note = ⟨p.edit.variableId, r.label.note.memberId⟩

theorem RenotedBy.above {ps : List Patch} {t c n : Tree} {note : Annotation}
    (renoted : RenotedBy ps c n note) (below : c ∈ t.subterms) : RenotedBy ps t n note := by
  obtain ⟨r, inside, rest⟩ := renoted
  exact ⟨r, Term.subterms_trans inside below, rest⟩

theorem mem_subterms_patch {p : Patch} {note inner : Annotation} {init : Option Tree} {m : Tree}
    (inside : m ∈ (p.declares note inner init).subterms) :
    m.id = p.declaration ∨ m.id = p.binding ∨ ∃ v ∈ init, m ∈ v.subterms := by
  simp only [Patch.declares, Term.subterms_node, Kind.children, Kind.slots, Slot.children,
    List.flatMap_cons, List.flatMap_nil, List.append_nil, List.mem_cons, List.mem_flatMap,
    Option.mem_toList] at inside
  rcases inside with rfl | rfl | rest
  · exact .inl rfl
  · exact .inr (.inl rfl)
  · exact .inr (.inr rest)

end Tree

namespace Applied

variable {u t m : Tree} {size : Nat} {ps : List Patch} {a : Arena}

theorem note_cases (applied : Applied u size ps a) (member : t ∈ u.subterms)
    (inside : m ∈ (t.rebuild ps).subterms) (old : m.id ∉ Tree.added ps) :
    ∃ n ∈ t.subterms, Tree.id n = m.id ∧
      (m.label.note = n.label.note ∨ Tree.RenotedBy ps t n m.label.note) := by
  induction t using Term.inductSmaller generalizing m with
  | step t smaller =>
    have deeper {c : Tree} (below : c ∈ t.subterms) (less : c.size < t.size)
        (inside : m ∈ (Tree.rebuild ps c).subterms) :
        ∃ n ∈ t.subterms, Tree.id n = m.id ∧
          (m.label.note = n.label.note ∨ Tree.RenotedBy ps t n m.label.note) := by
      obtain ⟨n, within, same, noted⟩ := smaller c less (Term.subterms_trans below member) inside old
      exact ⟨n, Term.subterms_trans within below, same, noted.imp_right fun renoted => renoted.above below⟩
    have child {c : Tree} (child : c ∈ t.children) :=
      deeper (Term.child_mem_subterms child) (Term.size_lt_of_mem_children child)
    have here (kept : Tree.foldedBy? ps t = none) (whole : m = Tree.rebuild ps t) :
        ∃ n ∈ t.subterms, Tree.id n = m.id ∧
          (m.label.note = n.label.note ∨ Tree.RenotedBy ps t n m.label.note) := by
      have same := Tree.label_rebuild ps kept
      refine ⟨t, Term.self_mem_subterms t, ?_, .inl ?_⟩
      · rw [whole, Tree.id, Tree.id, same]
      · rw [whole, same]
    obtain ⟨l, k⟩ := t
    rcases Tree.rebuild_cases ps l k with ⟨ss, rfl, made⟩ | ⟨-, kept, made⟩ |
      ⟨p, r, op, x, v, found, shape, folded, made⟩
    · by_cases whole : m = Tree.rebuild ps (.node l (.block ss))
      · exact here rfl whole
      · rw [made] at inside whole
        obtain ⟨c, listed, below⟩ := (Term.mem_subterms_node.mp inside).resolve_left whole
        rw [Kind.children_block] at listed
        obtain ⟨s, mine, inserted | rfl⟩ := Tree.mem_rebuildAll.mp listed
        · exact absurd (Tree.mem_ids_insertions (List.mem_flatMap.mpr
            ⟨c, inserted, Tree.ids_subset below (Tree.id_mem_ids m)⟩)) old
        · exact child (Term.statement_mem_children mine) below
    · by_cases whole : m = Tree.rebuild ps (.node l k)
      · exact here kept whole
      · rw [made] at inside whole
        obtain ⟨c, listed, below⟩ := (Term.mem_subterms_node.mp inside).resolve_left whole
        rw [Kind.children_map, List.mem_map] at listed
        obtain ⟨s, mine, rfl⟩ := listed
        exact child mine below
    · have known := Tree.added_of_mem (Tree.folding?_mem folded).1
      rw [made] at inside
      rcases Tree.mem_subterms_patch inside with new | new | ⟨w, is, below⟩
      · exact absurd (new ▸ known.1) old
      · exact absurd (new ▸ known.2) old
      · obtain rfl : _ = w := by simpa using is
        have inValue := Tree.value_mem_subterms found shape
        rcases Tree.mem_subterms_withNote below with rfl | below
        · have assigned := Term.assignment?_mem_subterms found
          have kept := applied.value_unfolded (Term.subterms_trans assigned member) shape
          refine ⟨v, inValue, ?_, .inr ⟨r, assigned, op, x, p, shape, folded, rfl⟩⟩
          rw [Tree.id_withNote, Tree.id, Tree.id, Tree.label_rebuild ps kept]
        · exact deeper inValue (Tree.size_value_lt found shape) below

theorem renoted_mem (applied : Applied u size ps a) {r x v : Tree} {op : AssignOp} {p : Patch}
    (member : r ∈ u.subterms) (shape : r.kind = .assignment op x v)
    (folded : Tree.folding? ps r.id = some p) :
    ∃ m ∈ (u.rebuild ps).subterms, Tree.id m = v.id ∧
      m.label.note = ⟨p.edit.variableId, r.label.note.memberId⟩ := by
  obtain ⟨h, holder, s, entry, r', found, same, -⟩ := applied.folded_entry folded
  have inside := Term.mem_subterms_of_child (Term.entry_mem_children entry)
    (Term.assignment?_mem_subterms found)
  obtain rfl : r' = r :=
    List.inj_on_of_nodup_map applied.distinct (Term.subterms_trans inside holder) member same
  obtain ⟨note, left⟩ := Tree.rebuild_mem_of_entry applied.foldsVariables holder entry
  have built : Tree.rebuild ps s ∈ (Tree.rebuild ps h).kind.listing :=
    Tree.rebuild_entry_listed entry
  have listed := Kind.mem_children_of_listing (List.mem_append_left _ built)
  rw [Tree.rebuild_folded ps found shape folded] at listed
  refine ⟨(Tree.rebuild ps v).withNote ⟨p.edit.variableId, r'.label.note.memberId⟩, ?_, ?_, rfl⟩
  · exact Term.subterms_trans (Term.mem_subterms_of_child
      (t := (Tree.rebuild ps h).withNote note) listed
      (Tree.mem_subterms_folded (Term.self_mem_subterms _))) left
  · rw [Tree.id_withNote, Tree.id, Tree.label_rebuild ps (applied.value_unfolded member shape), Tree.id]

end Applied

theorem Tree.assignment_strip {t x' n' : Tree} {op : AssignOp} :
    (Term.strip t).kind = .assignment op x' n' ↔
      ∃ x n, t.kind = .assignment op x n ∧ Term.strip x = x' ∧ Term.strip n = n' := by
  obtain ⟨l, k⟩ := t
  rw [Term.strip_node]
  cases k <;> simp [Term.kind, Kind.map, Term.withoutDeclarations]

namespace Editing.Placed

variable {o : Options} {t : Tree} {a c : Arena} {ps : List Patch} {stats : Stats}

theorem folding_variable (placed : Placed o t a ps stats c) (sound : t.Sound) {r x v : Tree}
    {op : AssignOp} {p : Patch} (member : r ∈ (Term.strip t).subterms)
    (shape : r.kind = .assignment op x v) (folded : Tree.folding? ps r.id = some p) :
    p.edit.variableId = x.label.note.variableId := by
  obtain ⟨size, -, applied⟩ := placed.applied
  obtain ⟨among, site⟩ := Tree.folding?_mem folded
  obtain ⟨b, inTree, w, mine, planned⟩ := Tree.mem_plan.mp (placed.edit_mem_plan among)
  obtain ⟨d, declared, -⟩ := List.mem_filterMap.mp mine
  have block : b.kind = .block (Tree.statements b) := Term.kind_of_statement declared
  have left := Tree.strip_mem_subterms sound inTree (by rw [Tree.isDeclarative, block])
  obtain ⟨m, s, h, handed, folds⟩ :=
    LocalVariable.folding_of_spread planned (by rw [Edit.isInsertion, site])
  obtain ⟨entry, r', x', absorbs, edit, place⟩ := folds.absorbs
  obtain ⟨value, found, shape', -⟩ := Term.absorbable?_eq_some.mp absorbs
  have inside : entry ∈ m.subterms := by
    have listed := Term.statement_mem_children folds.listed
    rcases place with ⟨-, rfl⟩ | ⟨-, only⟩
    · exact Term.child_mem_subterms listed
    · exact Term.mem_subterms_of_child listed
        (Term.child_mem_subterms (Term.onlyInit?_mem_children only))
  rw [edit, LocalVariable.foldInto, Site.inPlaceOf.injEq] at site
  obtain rfl : r' = r := List.inj_on_of_nodup_map applied.distinct
    (Term.subterms_trans (Term.assignment?_mem_subterms found) (Term.subterms_trans inside
      (Term.subterms_trans handed.mem_subterms left))) member site
  obtain ⟨-, rfl, -⟩ := Kind.assignment.inj (shape'.symm.trans shape)
  rw [edit]
  rfl

theorem takenOver (placed : Placed o t a ps stats c) (distinct : t.ids.Nodup) (sound : t.Sound)
    {n : Tree} {note : Annotation} (member : n ∈ t.subterms)
    (renoted : Tree.RenotedBy ps (Term.strip t) (Term.strip n) note) : t.TakenOver o n note := by
  obtain ⟨r', inside, op, x', p, shape', folded, rfl⟩ := renoted
  have variableId := placed.folding_variable sound inside shape' folded
  obtain ⟨r, inTree, rfl⟩ := Tree.mem_subterms_strip inside
  obtain ⟨x, v, shape, rfl, same⟩ := Tree.assignment_strip.mp shape'
  have value : v ∈ r.children := by
    simp [Term.children, shape, Kind.children, Kind.slots, Slot.children]
  obtain rfl : v = n := List.inj_on_of_nodup_map distinct
    (Term.subterms_trans (Term.child_mem_subterms value) inTree) member
    (by rw [← Tree.id_strip v, same, Tree.id_strip])
  obtain ⟨among, site⟩ := Tree.folding?_mem folded
  rw [Tree.id_strip] at site
  refine ⟨p.edit, placed.edit_mem_plan among, r, inTree, site, op, x, shape, ?_⟩
  rw [variableId, Term.label_strip, Term.label_strip]

theorem noted_of_takenOver (placed : Placed o t a ps stats c) (sound : t.Sound) {n : Tree}
    {note : Annotation} (taken : t.TakenOver o n note) :
    ∃ m ∈ (Tree.rebuild ps (Term.strip t)).subterms, Tree.id m = n.id ∧ m.label.note = note := by
  obtain ⟨size, -, applied⟩ := placed.applied
  obtain ⟨e, planned, r, inTree, site, op, x, shape, rfl⟩ := taken
  obtain ⟨p, made, same, -⟩ := placed.made_named sound planned
  have folded := made.chosen (same.trans site)
  have inside := Tree.strip_mem_subterms sound inTree (by rw [Tree.isDeclarative, shape])
  have shape' := Tree.assignment_strip.mpr ⟨x, n, shape, rfl, rfl⟩
  rw [← Tree.id_strip r] at folded
  obtain ⟨m, left, number, note⟩ := applied.renoted_mem inside shape' folded
  refine ⟨m, left, number.trans (Tree.id_strip n), ?_⟩
  rw [note, placed.folding_variable sound inside shape' folded, Term.label_strip, Term.label_strip]

/-- Every node that is left has its annotation, or else was taken over. -/
theorem note_or_takenOver (placed : Placed o t a ps stats c) (held : a.Holds t) (sound : t.Sound)
    {n n' : Tree} (member : n ∈ t.subterms)
    (left : n' ∈ (Tree.rebuild ps (Term.strip t)).subterms) (same : n'.id = n.id) :
    n'.label.note = n.label.note ∨ t.TakenOver o n n'.label.note := by
  obtain ⟨size, grown, applied⟩ := placed.applied
  have old : n'.id ∉ Tree.added ps := by
    intro new
    have small := held.index_lt (Tree.ids_subset member (Tree.id_mem_ids n))
    have large := applied.fresh _ new
    rw [same] at large
    omega
  obtain ⟨m, inside, number, noted⟩ := applied.note_cases (Term.self_mem_subterms _) left old
  obtain ⟨m, inTree, rfl⟩ := Tree.mem_subterms_strip inside
  obtain rfl : m = n := List.inj_on_of_nodup_map held.distinct inTree member
    (by rw [← Tree.id_strip m, number, same])
  rw [Term.label_strip] at noted
  exact noted.imp_right (placed.takenOver held.distinct sound member)

end Editing.Placed

/-- A node that a run leaves has the annotation it had, apart from the values that become initializers:
such a value is annotated with the variable of the target and the member of the assignment. So no number
is lost exactly if each of these values has none of its own, or the same. -/
theorem Pass.notes_kept_iff {p : Pass} {body : Body} {root : NodeId} {before after : Arena}
    (lowered : Arena.ofBody body = (root, before)) (run : (p.run root before).2 = .ok () after) :
    (∀ n ∈ (before.view root).subterms, ∀ n' ∈ (after.view root).subterms, Tree.id n' = Tree.id n →
      n'.label.note = n.label.note ∨
        (before.view root).TakenOver p.options n n'.label.note) ∧
    ((∀ n ∈ (before.view root).subterms, ∀ n' ∈ (after.view root).subterms, Tree.id n' = Tree.id n →
        n.label.note.KeptIn n'.label.note) ↔
      ∀ n ∈ (before.view root).subterms, ∀ note, (before.view root).TakenOver p.options n note →
        n.label.note.KeptIn note) := by
  obtain ⟨t, ps, stats, rfl, held, sound, placed, output⟩ := Pass.placed_of_body lowered run
  rw [output]
  have each := @Editing.Placed.note_or_takenOver _ _ _ _ _ _ placed held sound
  refine ⟨fun n member n' left same => each member left same, fun kept n member note taken => ?_,
    fun kept n member n' left same => ?_⟩
  · obtain ⟨n', left, same, rfl⟩ := placed.noted_of_takenOver sound taken
    exact kept n member n' left same
  · rcases each member left same with untouched | taken
    · rw [untouched]
      exact ⟨fun _ => id, fun _ => id⟩
    · exact kept n member _ taken

/-- `int v; v = w; use(v);`, where it is known which variables `v` and `w` are. -/
def Body.copied : Body :=
  .braces [.declareInt "v",
    .plain (.expressionStatement (.plain (.assignment .plain
      (.node { variableId := some ⟨3⟩ } (.identifier "v"))
      (.node { variableId := some ⟨5⟩ } (.identifier "w"))))),
    .use "v"]

def Tree.targetOfCopied : Tree := .node ⟨⟨2⟩, { variableId := some ⟨3⟩ }, .shown⟩ (.identifier "v")

def Tree.valueOfCopied : Tree := .node ⟨⟨3⟩, { variableId := some ⟨5⟩ }, .shown⟩ (.identifier "w")

def Tree.assignmentOfCopied : Tree := shown 4 (.assignment .plain targetOfCopied valueOfCopied)

def Tree.ofCopied : Tree :=
  shown 9 (.block [shown 1 (.declaration (.primitive .int) [shown 0 (.binding "v" none)] false),
    shown 5 (.expressionStatement assignmentOfCopied),
    shown 8 (.expressionStatement (shown 7 (.invocation none "use" [shown 6 (.identifier "v")])))])

theorem Arena.view_copied :
    (Arena.ofBody .copied).2.view (Arena.ofBody .copied).1 = Tree.ofCopied := by cbv

/- In the output `w` carries the number of `v`. -/
theorem Pass.notes_lost_copied :
    ¬ ∀ n ∈ ((Arena.ofBody .copied).2.view (Arena.ofBody .copied).1).subterms,
      ∀ n' ∈ ((Pass.outcome {} (Arena.ofBody .copied).1 (Arena.ofBody .copied).2).view
        (Arena.ofBody .copied).1).subterms,
      Tree.id n' = Tree.id n → n.label.note.KeptIn n'.label.note := by
  have ran : (Pass.run {} (Arena.ofBody .copied).1 (Arena.ofBody .copied).2).2 = .ok () _ :=
    Pass.run_outcome (by decide +kernel)
  have lossless := (Pass.notes_kept_iff Prod.mk.eta.symm ran).2
  intro kept
  rw [lossless, Arena.view_copied] at kept
  have assigned : Tree.assignmentOfCopied ∈ Tree.ofCopied.subterms := by
    simp [Tree.ofCopied, Tree.shown, Term.subterms_node, Kind.children, Kind.slots, Slot.children]
  have value : Tree.valueOfCopied ∈ Tree.assignmentOfCopied.children := by
    simp [Tree.assignmentOfCopied, Tree.shown, Term.children, Term.kind, Kind.children, Kind.slots,
      Slot.children]
  have taken : Tree.ofCopied.TakenOver {} Tree.valueOfCopied { variableId := some ⟨3⟩ } :=
    ⟨⟨.primitive .int, "v", some ⟨3⟩, .inPlaceOf ⟨4⟩⟩, by decide +kernel, Tree.assignmentOfCopied,
      assigned, rfl, .plain, Tree.targetOfCopied, rfl, rfl⟩
  have same := (kept _ (Term.subterms_trans (Term.child_mem_subterms value) assigned) _ taken).1 ⟨5⟩ rfl
  cases same

end LocalScope
