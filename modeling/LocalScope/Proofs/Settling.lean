import LocalScope.Proofs.Accounting
import LocalScope.Proofs.Finality
import LocalScope.Proofs.Relabeling

/-! Running again. A declaration that has been inserted stands where it would be inserted again: in
front of the first use in its block. Code whose declarations all stand like this comes out of a run as
it went in. -/
namespace LocalScope

namespace Edit

/-- The declaration that an edit inserts into a block, as it is in the body. -/
def declaration (o : Options) (block : Tree) (e : Edit) : Body :=
  .declaring {} { variableId := e.variableId } e.ty e.name none
    (o.markFinal && block.writeCount e.name == 1)

theorem filter_carriedOut_before (es : List Edit) (x : NodeId) :
    ((carriedOut es).filter fun e => e.site = .before x) = es.filter fun e => e.site = .before x := by
  have among (es : List Edit) : (es.filter fun e => e.site = .before x) =
      (es.filter isInsertion).filter fun e => e.site = .before x := by
    rw [List.filter_filter]
    refine List.filter_congr fun e _ => ?_
    by_cases here : e.site = .before x <;> simp [here, isInsertion]
  rw [among, filter_carriedOut, ← among]

end Edit

namespace Tree

variable {o : Options} {t t' : Tree}

/-- A declaration in a block, between what is before it and what is after it, stands where it would be
inserted: the next statement is the first use, and does not take the declaration over. -/
structure Stands (o : Options) (block : Tree) (before : List Tree) (d : Tree) (after : List Tree)
    (v : LocalVariable) (point : Tree) : Prop where
  known : d.local? = some v
  next : after.find? (fun s => !s.isDeclaration) = some point
  stays : v.moves o (Term.strip block) = false
  early : ∀ s ∈ before, s.isDeclaration = false → (Term.strip s).uses v.name = false
  used : (Term.strip point).uses v.name = true
  unfolded : v.pointFold? o (Term.strip point) = none
  shape : d.body = (v.insertBefore point).declaration o (Term.strip block)

/-- All declarations of the blocks below stand where they would be inserted. -/
def Settled (o : Options) (t : Tree) : Prop :=
  ∀ b ∈ t.subterms, ∀ before d after, statements b = before ++ d :: after → d.isDeclaration = true →
    ∃ v point, Stands o b before d after v point

theorem map_body_find? (ss : List Tree) :
    (ss.find? fun s => !s.isDeclaration).map body = (ss.map body).find? fun s => !s.isDeclaration := by
  rw [List.find?_map]
  simp only [Function.comp_def, isDeclaration_body]

theorem Settled.of_body (settled : t.Settled o) (same : t.body = t'.body) : t'.Settled o := by
  intro b' inside' before' d' after' listed' declares
  have image : body b' ∈ t.subterms.map body := by
    rw [← subterms_body, same, subterms_body]
    exact List.mem_map_of_mem inside'
  obtain ⟨b, inside, block⟩ := List.mem_map.mp image
  have lists := statements_of_body block
  rw [listed', List.map_append, List.map_cons] at lists
  obtain ⟨before, tail, listed, first, rest⟩ := List.map_eq_append_iff.mp lists
  obtain ⟨d, after, rfl, one, last⟩ := List.map_eq_cons_iff.mp rest
  rw [← isDeclaration_of_body one] at declares
  obtain ⟨v, point, stands⟩ := settled b inside before d after listed declares
  have next : (after'.find? fun s => !s.isDeclaration).map body = some point.body := by
    rw [map_body_find?, ← last, ← map_body_find?, stands.next]
    rfl
  obtain ⟨point', next', samePoint⟩ := Option.map_eq_some_iff.mp next
  have left {c c' : Tree} (same : c.body = c'.body) : body (Term.strip c) = body (Term.strip c') := by
    rw [strip_body, strip_body, same]
  refine ⟨v, point', ?_, next', ?_, ?_, ?_, ?_, ?_⟩
  · rw [← local?_of_body one, stands.known]
  · rw [← v.moves_of_body o (left block), stands.stays]
  · intro s' listed other
    have image : s'.body ∈ before.map body := by
      rw [first]
      exact List.mem_map_of_mem listed
    obtain ⟨s, listed, one⟩ := List.mem_map.mp image
    rw [← isDeclaration_of_body one] at other
    rw [← uses_of_body (left one), stands.early s listed other]
  · rw [uses_of_body (left samePoint), stands.used]
  · have none := v.pointFold?_of_body o (left samePoint)
    rw [stands.unfolded, Option.isSome_none, ← Bool.not_eq_true, Option.not_isSome_iff_eq_none] at none
    exact none
  · rw [← one, stands.shape, Edit.declaration, Edit.declaration, writeCount_of_body (left block)]
    rfl

theorem blockStatements_body (t : Tree) :
    t.blockStatements.map body = t.body.subterms.flatMap fun b => b.kind.statements := by
  rw [subterms_body, List.flatMap_map, blockStatements, List.map_flatMap]
  exact List.flatMap_congr fun b _ => (statements_body b).symm

theorem split_unique {b s : Tree} {first first' rest rest' : List Tree} (distinct : b.ids.Nodup)
    (split : b.statements = first ++ s :: rest) (split' : b.statements = first' ++ s :: rest') :
    first = first' := by
  have once : b.statements.Nodup := .of_map id (nodup_statements distinct)
  rw [split, List.nodup_append, List.nodup_cons] at once
  have before : s ∉ first := fun early => once.2.2 s early s List.mem_cons_self rfl
  exact ((List.append_cons_inj_of_notMem before once.2.1.1).mp (split.symm.trans split')).1

theorem statements_strip (b : Tree) :
    statements (Term.strip b) = (b.statements.filter fun s => !s.isDeclaration).map Term.strip := by
  obtain ⟨l, k⟩ := b
  cases k with
  | block ss => rw [Term.strip_block]; rfl
  | _ => rw [Term.strip_other _ _ rfl]; rfl

namespace Stands

variable {block d point : Tree} {before after : List Tree} {v : LocalVariable}

theorem isDeclaration (stands : Stands o block before d after v point) : d.isDeclaration = true := by
  obtain ⟨l, l', isFinal, rfl, -⟩ := eq_of_local stands.known
  rfl

theorem declaresAt (stands : Stands o block before d after v point)
    (listed : block.statements = before ++ d :: after) :
    v.declaresAt? o (Term.strip block) = some (Term.strip point) := by
  obtain ⟨other, ds, rest, rfl, between⟩ := List.find?_eq_some_iff_append.mp stands.next
  have none : (ds.filter fun s => !s.isDeclaration) = [] :=
    List.filter_eq_nil_iff.mpr fun s inside => by simpa using between s inside
  have left : statements (Term.strip block) =
      (before.filter fun s => !s.isDeclaration).map Term.strip ++
        Term.strip point :: (rest.filter fun s => !s.isDeclaration).map Term.strip := by
    rw [statements_strip, listed, List.filter_append,
      List.filter_cons_of_neg (by simp [stands.isDeclaration]), List.filter_append, none,
      List.nil_append, List.filter_cons_of_pos (by simpa using other), List.map_append, List.map_cons]
  rw [LocalVariable.declaresAt?, stands.stays, if_neg Bool.false_ne_true,
    List.find?_eq_some_iff_append]
  refine ⟨stands.used, _, _, left, fun r inside => ?_⟩
  obtain ⟨s, kept, rfl⟩ := List.mem_map.mp inside
  obtain ⟨earlier, other⟩ := List.mem_filter.mp kept
  simp [stands.early s earlier (by simpa using other)]

theorem spread_eq (stands : Stands o block before d after v point)
    (listed : block.statements = before ++ d :: after) :
    v.spread o (Term.strip block) = [v.insertBefore point] := by
  rw [LocalVariable.spread_declared (stands.declaresAt listed), LocalVariable.declareAt, stands.unfolded,
    Option.getD_none, LocalVariable.insertBefore, id_strip]
  rfl

end Stands

theorem split_lead (first : List Tree) :
    first = first.rdropWhile Term.isDeclaration ++ first.rtakeWhile Term.isDeclaration :=
  List.rdropWhile_append_rtakeWhile.symm

theorem strippings_split {b : Tree} {first some last : List Tree} (inside : b ∈ t.subterms)
    (split : b.statements = first ++ (some ++ last)) :
    ∃ others others', t.strippings = others ++ (takenFrom b some ++ others') := by
  obtain ⟨outer, inner, place⟩ := List.append_of_mem inside
  refine ⟨outer.flatMap (fun b => takenFrom b (statements b)) ++ takenFrom b first,
    takenFrom b last ++ inner.flatMap (fun b => takenFrom b (statements b)), ?_⟩
  rw [strippings, place, List.flatMap_append, List.flatMap_cons, split, takenFrom, List.filterMap_append,
    List.filterMap_append]
  simp only [takenFrom, List.append_assoc]

namespace Settled

theorem sound (settled : t.Settled o) : t.Sound := by
  intro b inside d listed declares
  obtain ⟨before, after, split⟩ := List.append_of_mem listed
  obtain ⟨v, point, stands⟩ := settled b inside before d after split declares
  rw [stands.known]
  rfl

theorem uninitialized_eq (settled : t.Settled o) :
    t.blockStatements.filter isUninitialized = t.blockStatements.filter Term.isDeclaration := by
  apply List.filter_congr
  intro d listed
  obtain ⟨b, inside, listed⟩ := mem_blockStatements.mp listed
  cases declares : d.isDeclaration with
  | true =>
    obtain ⟨v, known⟩ := Option.isSome_iff_exists.mp (settled.sound b inside d listed declares)
    obtain ⟨l, l', isFinal, rfl, -⟩ := eq_of_local known
    rfl
  | false =>
    obtain ⟨l, k⟩ := d
    cases k <;> first | rfl | cases declares

theorem uninitialized_of_body (settled : t.Settled o) (same : t.body = t'.body) :
    (t.blockStatements.filter isUninitialized).length =
      (t'.blockStatements.filter isUninitialized).length := by
  have count (ss : List Tree) : (ss.filter Term.isDeclaration).length =
      ((ss.map body).filter Term.isDeclaration).length := by
    rw [List.filter_map, List.length_map]
    simp only [Function.comp_def, isDeclaration_body]
  rw [settled.uninitialized_eq, (settled.of_body same).uninitialized_eq, count, count,
    blockStatements_body, blockStatements_body, same]

theorem stands_of_local (settled : t.Settled o) {b d : Tree} {before after : List Tree}
    {v : LocalVariable} (inside : b ∈ t.subterms) (split : b.statements = before ++ d :: after)
    (known : d.local? = some v) : ∃ point, Stands o b before d after v point := by
  have declares : d.isDeclaration = true := by
    obtain ⟨l, l', isFinal, rfl, -⟩ := eq_of_local known
    rfl
  obtain ⟨w, point, stands⟩ := settled b inside before d after split declares
  obtain rfl : v = w := Option.some.inj (known.symm.trans stands.known)
  exact ⟨point, stands⟩

theorem isInsertion_of_plan (settled : t.Settled o) {e : Edit} (planned : e ∈ t.plan o) :
    e.isInsertion = true := by
  obtain ⟨b, inside, v, mine, planned⟩ := mem_plan.mp planned
  obtain ⟨d, listed, known⟩ := List.mem_filterMap.mp mine
  obtain ⟨before, after, split⟩ := List.append_of_mem listed
  obtain ⟨point, stands⟩ := settled.stands_of_local inside split known
  rw [stands.spread_eq split, List.mem_singleton] at planned
  rw [planned]
  rfl

theorem origin (settled : t.Settled o) (distinct : t.ids.Nodup) {b b' s d : Tree}
    {first rest : List Tree} {v : LocalVariable} {e : Edit} (inside : b ∈ t.subterms)
    (split : b.statements = first ++ s :: rest) (inside' : b' ∈ t.subterms)
    (listed : d ∈ b'.statements) (known : d.local? = some v)
    (planned : e ∈ v.spread o (Term.strip b')) (site : e.site = .before s.id) :
    b' = b ∧ d ∈ first.rtakeWhile Term.isDeclaration := by
  obtain ⟨before, after, split'⟩ := List.append_of_mem listed
  obtain ⟨point, stands⟩ := settled.stands_of_local inside' split' known
  rw [stands.spread_eq split', List.mem_singleton] at planned
  rw [planned, LocalVariable.insertBefore, Site.before.injEq] at site
  obtain ⟨other, ds, last, rfl, between⟩ := List.find?_eq_some_iff_append.mp stands.next
  have child {b s : Tree} {first rest : List Tree} (split : b.statements = first ++ s :: rest) :
      s ∈ b.children := Term.statement_mem_children (show s ∈ b.statements by simp [split])
  have regrouped : b'.statements = (before ++ d :: ds) ++ point :: last := by simp [split']
  obtain rfl : point = s := List.inj_on_of_nodup_map distinct
    (Term.subterms_trans (Term.child_mem_subterms (child regrouped)) inside')
    (Term.subterms_trans (Term.child_mem_subterms (child split)) inside) site
  obtain rfl := parent_unique distinct inside' inside (child regrouped) (child split)
  obtain rfl := split_unique (distinct.sublist (ids_sublist inside')) regrouped split
  have declarations : ∀ c ∈ (d :: ds).reverse, c.isDeclaration = true := by
    intro c listed
    rcases List.mem_cons.mp (List.mem_reverse.mp listed) with rfl | later
    · exact stands.isDeclaration
    · simpa using between c later
  rw [List.rtakeWhile, List.reverse_append, List.takeWhile_append_of_pos declarations]
  simp

theorem planned_before (settled : t.Settled o) {b s d : Tree} {first rest : List Tree}
    (inside : b ∈ t.subterms) (split : b.statements = first ++ s :: rest)
    (other : s.isDeclaration = false) (leads : d ∈ first.rtakeWhile Term.isDeclaration) :
    ∃ v, d.local? = some v ∧ v.spread o (Term.strip b) = [v.insertBefore s] ∧
      d.body = (v.insertBefore s).declaration o (Term.strip b) := by
  obtain ⟨early, late, lead⟩ := List.append_of_mem leads
  rw [split_lead first, lead, List.append_assoc, List.append_assoc, ← List.append_assoc] at split
  obtain ⟨v, point, stands⟩ := settled b inside _ d _ split (List.mem_rtakeWhile_imp leads)
  have next : (late ++ s :: rest).find? (fun s => !s.isDeclaration) = some s := by
    refine List.find?_eq_some_iff_append.mpr ⟨by simp [other], late, rest, rfl, fun c listed => ?_⟩
    have declares : c.isDeclaration = true :=
      List.mem_rtakeWhile_imp (show c ∈ first.rtakeWhile _ by simp [lead, listed])
    simp [declares]
  obtain rfl : s = point := Option.some.inj (next.symm.trans stands.next)
  exact ⟨v, stands.known, stands.spread_eq split, stands.shape⟩

/- The declarations right before a statement are all that is planned there: others, in this block or
elsewhere, are for other statements. -/
theorem plan_filter (settled : t.Settled o) (distinct : t.ids.Nodup) {b s : Tree}
    {first rest : List Tree} (inside : b ∈ t.subterms) (split : b.statements = first ++ s :: rest) :
    (t.plan o).filter (fun e => e.site = .before s.id) =
      ((locals (first.rtakeWhile Term.isDeclaration)).flatMap (·.spread o (Term.strip b))).filter
        fun e => e.site = .before s.id := by
  have regrouped := split
  rw [split_lead first, List.append_assoc] at regrouped
  obtain ⟨others, others', taken⟩ := strippings_split inside regrouped
  have once := strippings_nodup distinct
  rw [taken, List.nodup_append, List.nodup_append] at once
  have elsewhere (part : List (Tree × Tree × LocalVariable)) (among : part ⊆ t.strippings)
      (apart : ∀ x ∈ part, x ∉ takenFrom b (first.rtakeWhile Term.isDeclaration)) :
      (part.flatMap (editsFor o)).filter (fun e => e.site = .before s.id) = [] := by
    apply List.filter_eq_nil_iff.mpr
    intro e planned site
    obtain ⟨⟨c, d, v⟩, listed, planned⟩ := List.mem_flatMap.mp planned
    obtain ⟨inside', stripped, known⟩ := mem_strippings.mp (among listed)
    obtain ⟨rfl, leads⟩ := settled.origin distinct inside split inside' stripped known planned
      (by simpa using site)
    exact apart _ listed (List.mem_filterMap.mpr ⟨d, leads, by simp [known]⟩)
  have outer := elsewhere others (by simp [taken]) fun x listed also =>
    once.2.2 x listed x (List.mem_append_left _ also) rfl
  have later := elsewhere others' (by simp [taken]) fun x listed also =>
    once.2.1.2.2 x also x listed rfl
  rw [plan_eq_strippings, taken, List.flatMap_append, List.flatMap_append, List.filter_append,
    List.filter_append, outer, later, List.nil_append, List.append_nil,
    spread_takenFrom]

theorem declarations_before (settled : t.Settled o) {b s : Tree} {first rest : List Tree}
    (inside : b ∈ t.subterms) (split : b.statements = first ++ s :: rest)
    (other : s.isDeclaration = false) {ds : List Tree}
    (leads : ds ⊆ first.rtakeWhile Term.isDeclaration) :
    (((locals ds).flatMap (·.spread o (Term.strip b))).filter fun e => e.site = .before s.id).map
      (Edit.declaration o (Term.strip b)) = ds.map body := by
  induction ds with
  | nil => rfl
  | cons d ds ih =>
    obtain ⟨v, known, planned, shape⟩ :=
      settled.planned_before inside split other (leads List.mem_cons_self)
    have onward := ih (List.subset_of_cons_subset leads)
    have vars : locals (d :: ds) = v :: locals ds := by simp [locals, known]
    rw [vars, List.flatMap_cons, planned, List.singleton_append,
      List.filter_cons_of_pos (by simp [LocalVariable.insertBefore]), List.map_cons, onward, ← shape,
      List.map_cons]

theorem no_trailing (settled : t.Settled o) {b : Tree} (inside : b ∈ t.subterms) :
    b.statements.rtakeWhile Term.isDeclaration = [] := by
  refine List.rtakeWhile_eq_nil_iff.mpr fun some declares => ?_
  obtain ⟨v, point, stands⟩ := settled b inside _ _ [] (List.dropLast_append_getLast some).symm declares
  cases stands.next

end Settled

section unfolded

variable {ps : List Patch}

theorem rebuild_unfolded (unfolded : ∀ x, folding? ps x = none) (l : Label) (k : Kind Tree)
    (other : k.isBlock = false) : rebuild ps (.node l k) = .node l (k.map (rebuild ps)) :=
  rebuild_other ps l k other (foldedBy?_of_unfolded unfolded _)

theorem isDeclaration_rebuild (unfolded : ∀ x, folding? ps x = none) (t : Tree) :
    (rebuild ps t).isDeclaration = t.isDeclaration := by
  obtain ⟨l, k⟩ := t
  cases k with
  | block ss => rw [rebuild_block]; rfl
  | _ => rw [rebuild_unfolded unfolded _ _ rfl]; rfl

theorem isDeclaration_insertion {x : NodeId} {d : Tree} (inserted : d ∈ insertions ps x) :
    d.isDeclaration = true := by
  obtain ⟨p, -, rfl⟩ := List.mem_map.mp inserted
  rfl

theorem filter_rebuildAll (unfolded : ∀ x, folding? ps x = none) {ss : List Tree}
    (bare : ∀ s ∈ ss, s.isDeclaration = false) :
    (rebuildAll ps ss).filter (fun s => !s.isDeclaration) = ss.map (rebuild ps) := by
  induction ss with
  | nil => rfl
  | cons s rest ih =>
    have own : (insertions ps s.id).filter (fun s => !s.isDeclaration) = [] :=
      List.filter_eq_nil_iff.mpr fun d inserted => by simp [isDeclaration_insertion inserted]
    have kept : (rebuild ps s).isDeclaration = false := by
      rw [isDeclaration_rebuild unfolded, bare s List.mem_cons_self]
    rw [rebuildAll_cons, List.filter_append, own, List.nil_append,
      List.filter_cons_of_pos (by simp [kept]),
      ih fun r later => bare r (List.mem_cons_of_mem s later), List.map_cons]

theorem strip_rebuild (unfolded : ∀ x, folding? ps x = none)
    (bare : ∀ b ∈ t.subterms, ∀ s ∈ statements b, s.isDeclaration = false) :
    Term.strip (rebuild ps t) = t := by
  induction t using Term.inductChildren with
  | step l k ih =>
    have below {c : Tree} (child : c ∈ k.children) : Term.strip (rebuild ps c) = c :=
      ih c child fun b inside => bare b (Term.mem_subterms_of_child (t := .node l k) child inside)
    cases block : k.isBlock with
    | false =>
      rw [rebuild_unfolded unfolded l k block, Term.strip_other _ _ (by rw [Kind.isBlock_map, block]),
        Kind.map_map, Kind.map_eq_self k fun c child => below child]
    | true =>
      cases k with
      | block ss =>
        have own : ∀ s ∈ ss, s.isDeclaration = false := bare _ (Term.self_mem_subterms _)
        have each : ss.map (fun s => Term.strip (rebuild ps s)) = ss.map fun s => s :=
          List.map_congr_left fun s listed => below (by simpa using listed)
        rw [rebuild_block, Term.strip_block, filter_rebuildAll unfolded own, List.map_map]
        exact congrArg (fun ss => Term.node l (.block ss)) (each.trans (List.map_id' ss))
      | _ => cases block

theorem strip_rebuild_of_strip (unfolded : ∀ x, folding? ps x = none) {m : Tree}
    (member : m ∈ (Term.strip t).subterms) : Term.strip (rebuild ps m) = m :=
  strip_rebuild unfolded fun _ inside _ => isDeclaration_of_strip (Term.subterms_trans inside member)

theorem block_of_rebuild (unfolded : ∀ x, folding? ps x = none) {m : Tree}
    (inside : m ∈ (rebuild ps t).subterms) (block : m.isBlock = true) :
    ∃ n ∈ t.subterms, m = rebuild ps n := by
  induction t using Term.inductChildren with
  | step l k ih =>
    have below {c : Tree} (child : c ∈ k.children) (inside : m ∈ (rebuild ps c).subterms) :
        ∃ n ∈ (Term.node l k).subterms, m = rebuild ps n := by
      obtain ⟨n, deep, same⟩ := ih c child inside
      exact ⟨n, Term.mem_subterms_of_child (t := .node l k) child deep, same⟩
    have made := inside
    cases isBlock : k.isBlock with
    | false =>
      rw [rebuild_unfolded unfolded l k isBlock] at made
      rcases Term.mem_subterms_node.mp made with same | ⟨c, child, within⟩
      · exact ⟨_, Term.self_mem_subterms _, by rw [same, rebuild_unfolded unfolded l k isBlock]⟩
      · rw [Kind.children_map] at child
        obtain ⟨old, listed, rfl⟩ := List.mem_map.mp child
        exact below listed within
    | true =>
      cases k with
      | block ss =>
        rw [rebuild_block] at made
        rcases Term.mem_subterms_node.mp made with same | ⟨c, child, within⟩
        · exact ⟨_, Term.self_mem_subterms _, by rw [same, rebuild_block]⟩
        · rw [Kind.children_block] at child
          obtain ⟨s, listed, inserted | rfl⟩ := mem_rebuildAll.mp child
          · obtain ⟨p, -, rfl⟩ := List.mem_map.mp inserted
            rcases mem_subterms_declares within with ⟨declarative, -⟩ | ⟨v, known, -⟩
            · rw [isDeclarative_of_block block] at declarative
              cases declarative
            · cases known
          · exact below (by simpa using listed) within
      | _ => cases isBlock

end unfolded

end Tree

namespace Editing.Placed

variable {o : Options} {t : Tree} {a c : Arena} {ps : List Patch} {stats : Stats}

theorem unfolded (placed : Placed o t a ps stats c) (insertions : ∀ e ∈ t.plan o, e.isInsertion = true)
    (x : NodeId) : Tree.folding? ps x = none := by
  by_contra folds
  obtain ⟨p, folds⟩ := Option.ne_none_iff_exists'.mp folds
  obtain ⟨known, site⟩ := Tree.folding?_mem folds
  have insertion := insertions p.edit (placed.edit_mem_plan known)
  rw [Edit.isInsertion, site] at insertion
  cases insertion

theorem none_folded (placed : Placed o t a ps stats c)
    (insertions : ∀ e ∈ t.plan o, e.isInsertion = true) : stats.folded = 0 ∧ stats.skipped = 0 := by
  have none : ((t.plan o).filter fun e => !e.isInsertion) = [] :=
    List.filter_eq_nil_iff.mpr fun e planned => by simp [insertions e planned]
  have count := placed.skipped
  rw [none, List.length_nil] at count
  omega

theorem folded_eq_zero_iff (placed : Placed o t a ps stats c) :
    stats.folded = 0 ↔ ∀ e ∈ t.plan o, e.isInsertion = true := by
  constructor
  · intro zero e planned
    rw [placed.folded, List.length_eq_zero_iff] at zero
    by_contra folding
    rw [Bool.not_eq_true] at folding
    have covered : e.site ∈ [] ∨ ∃ e' ∈ Edit.effective [] (t.plan o), e'.site = e.site :=
      Edit.effective_covers planned folding
    simp [zero] at covered
  · exact fun insertions => (placed.none_folded insertions).1

theorem body_inserted (placed : Placed o t a ps stats c) {p : Patch} {n s : Tree} (among : p ∈ ps)
    (member : n ∈ (Term.strip t).subterms) (listed : s ∈ n.statements)
    (site : p.edit.site = .before s.id) : p.inserted.body = p.edit.declaration o n := by
  obtain ⟨size, -, applied⟩ := placed.applied
  have mark := applied.mark_of_insertion placed.marked among member listed site
  rw [Edit.declaration, ← mark]
  simp only [Patch.inserted, Patch.declares, Tree.body_node, Kind.map, List.map_cons, List.map_nil,
    Option.map_none]
  rfl

/- Where an insertion comes from: the variable of a declaration was handed on to a block that declares
it at its first use. -/
theorem declared_from (placed : Placed o t a ps stats c) (sound : t.Sound) {p : Patch} {n s : Tree}
    (among : p ∈ ps) (member : n ∈ (Term.strip t).subterms) (listed : s ∈ n.statements)
    (site : p.edit.site = .before s.id) :
    ∃ b ∈ t.subterms, ∃ d ∈ Tree.statements b, ∃ v, d.local? = some v ∧ v.HandedTo o (Term.strip b) n ∧
      p.edit = v.insertBefore s ∧ v.declaresAt? o n = some s ∧ v.pointFold? o s = none := by
  obtain ⟨size, -, applied⟩ := placed.applied
  obtain ⟨b, inside, v, mine, planned⟩ := Tree.mem_plan.mp (placed.edit_mem_plan among)
  obtain ⟨d, declared, known⟩ := List.mem_filterMap.mp mine
  have block : b.kind = .block (Tree.statements b) := Term.kind_of_statement declared
  have left := Tree.strip_mem_subterms sound inside (by rw [Tree.isDeclarative, block])
  have insertion : p.edit.isInsertion = true := by rw [Edit.isInsertion, site]
  obtain ⟨m, point, handed, declares, unfolded, edit⟩ :=
    LocalVariable.insertion_mem_spread.mp ⟨planned, insertion⟩
  have below := Term.subterms_trans handed.mem_subterms left
  have child := Term.statement_mem_children listed
  have child' := Term.statement_mem_children (LocalVariable.point_mem declares)
  rw [edit, LocalVariable.insertBefore, Site.before.injEq] at site
  obtain rfl : point = s := List.inj_on_of_nodup_map applied.distinct
    (Term.subterms_trans (Term.child_mem_subterms child') below)
    (Term.subterms_trans (Term.child_mem_subterms child) member) site
  obtain rfl := Tree.parent_unique applied.distinct below member child' child
  exact ⟨b, inside, d, declared, v, known, handed, edit, declares, unfolded⟩

theorem declared_at (placed : Placed o t a ps stats c) (sound : t.Sound) {p : Patch} {n s : Tree}
    (among : p ∈ ps) (member : n ∈ (Term.strip t).subterms) (listed : s ∈ n.statements)
    (site : p.edit.site = .before s.id) :
    ∃ v : LocalVariable, p.edit = v.insertBefore s ∧ v.declaresAt? o n = some s ∧
      v.pointFold? o s = none := by
  obtain ⟨-, -, -, -, v, -, -, found⟩ := placed.declared_from sound among member listed site
  exact ⟨v, found⟩

theorem stands_inserted (placed : Placed o t a ps stats c) (sound : t.Sound)
    (unfolded : ∀ x, Tree.folding? ps x = none) {l : Label} {s : Tree} {p : Patch}
    {first last own more : List Tree}
    (member : .node l (.block (first ++ s :: last)) ∈ (Term.strip t).subterms)
    (mine : Tree.insertions ps s.id = own ++ p.inserted :: more) (among : p ∈ ps)
    (site : p.edit.site = .before s.id) :
    ∃ v, Tree.Stands o (Tree.rebuild ps (.node l (.block (first ++ s :: last))))
      (Tree.rebuildAll ps first ++ own) p.inserted
      (more ++ Tree.rebuild ps s :: Tree.rebuildAll ps last) v (Tree.rebuild ps s) := by
  obtain ⟨size, -, applied⟩ := placed.applied
  have listed : s ∈ first ++ s :: last := by simp
  have whole := Tree.strip_rebuild_of_strip unfolded member
  have below (r : Tree) (listed : r ∈ first ++ s :: last) : Term.strip (Tree.rebuild ps r) = r := by
    have child : r ∈ (Term.node l (.block (first ++ s :: last))).children :=
      Term.statement_mem_children listed
    exact Tree.strip_rebuild_of_strip unfolded
      (Term.subterms_trans (Term.child_mem_subterms child) member)
  have declares (r : Tree) (also : r ∈ own ++ p.inserted :: more) : r.isDeclaration = true :=
    Tree.isDeclaration_insertion (mine ▸ also)
  obtain ⟨v, edit, declared, kept⟩ := placed.declared_at sound among member listed site
  obtain ⟨used, first', last', position, unused⟩ :=
    List.find?_eq_some_iff_append.mp (LocalVariable.find?_of_declaresAt declared)
  obtain rfl : first' = first := Tree.split_unique
    (applied.distinct.sublist (Tree.ids_sublist member)) position rfl
  refine ⟨v, ?_, ?_, ?_, ?_, ?_, ?_, ?_⟩
  · rw [Patch.inserted, Patch.declares, edit]
    rfl
  · refine List.find?_eq_some_iff_append.mpr ⟨?_, more, _, rfl, fun r later => ?_⟩
    · rw [Tree.isDeclaration_rebuild unfolded, Tree.isDeclaration_of_strip member listed]
      rfl
    · simp [declares r (by simp [later])]
  · rw [whole]
    exact LocalVariable.stays_of_declaresAt declared
  · intro r earlier other
    rcases List.mem_append.mp earlier with earlier | also
    · obtain ⟨r, listed, inserted | rfl⟩ := Tree.mem_rebuildAll.mp earlier
      · rw [Tree.isDeclaration_insertion inserted] at other
        cases other
      · rw [below r (List.mem_append_left _ listed)]
        simpa using unused r listed
    · rw [declares r (List.mem_append_left _ also)] at other
      cases other
  · rw [below s listed, used]
  · rw [below s listed, kept]
  · rw [whole, placed.body_inserted among member listed site, edit]
    rfl

theorem settled (placed : Placed o t a ps stats c) (sound : t.Sound)
    (unfolded : ∀ x, Tree.folding? ps x = none) : (Tree.rebuild ps (Term.strip t)).Settled o := by
  intro b inside before d after split declares
  have block : b.isBlock = true := by
    rw [Term.isBlock, Term.kind_of_statement (show d ∈ Tree.statements b by simp [split])]
    rfl
  obtain ⟨⟨l, k⟩, member, rfl⟩ := Tree.block_of_rebuild unfolded inside block
  rw [← Term.isBlock_strip, Tree.strip_rebuild_of_strip unfolded member] at block
  cases k with
  | block ss =>
    rw [Tree.rebuild_block] at split
    obtain ⟨first, s, last, rfl, ⟨own, more, mine, rfl, rfl⟩ | ⟨rfl, -⟩⟩ :=
      Tree.rebuildAll_eq_append split
    · have inserted : d ∈ Tree.insertions ps s.id := by simp [mine]
      obtain ⟨p, known, rfl⟩ := List.mem_map.mp inserted
      obtain ⟨among, site⟩ := List.mem_filter.mp known
      obtain ⟨v, stands⟩ :=
        placed.stands_inserted sound unfolded member mine among (by simpa using site)
      exact ⟨v, _, stands⟩
    · have listed : s ∈ Tree.statements (.node l (.block (first ++ s :: last))) :=
        List.mem_append_right first List.mem_cons_self
      rw [Tree.isDeclaration_rebuild unfolded, Tree.isDeclaration_of_strip member listed] at declares
      cases declares
  | _ => cases block

theorem body_planned (placed : Placed o t a ps stats c) {n s : Tree}
    (member : n ∈ (Term.strip t).subterms) (listed : s ∈ n.statements) :
    (Tree.insertions ps s.id).map Tree.body =
      ((t.plan o).filter fun e => e.site = .before s.id).map (Edit.declaration o n) := by
  calc (Tree.insertions ps s.id).map Tree.body
    _ = (ps.filter fun p => p.edit.site = .before s.id).map fun p => p.edit.declaration o n := by
      rw [Tree.insertions, List.map_map]
      refine List.map_congr_left fun p known => ?_
      obtain ⟨among, site⟩ := List.mem_filter.mp known
      exact placed.body_inserted among member listed (by simpa using site)
    _ = ((ps.map Patch.edit).filter fun e => e.site = .before s.id).map (Edit.declaration o n) := by
      rw [List.filter_map, List.map_map]
      rfl
    _ = ((t.plan o).filter fun e => e.site = .before s.id).map (Edit.declaration o n) := by
      rw [placed.edits, Edit.filter_carriedOut_before]

theorem body_insertions (placed : Placed o t a ps stats c) (distinct : t.ids.Nodup)
    (settled : t.Settled o) {b s : Tree} {first rest : List Tree} (inside : b ∈ t.subterms)
    (split : b.statements = first ++ s :: rest) (other : s.isDeclaration = false) :
    (Tree.insertions ps s.id).map Tree.body = (first.rtakeWhile Term.isDeclaration).map Tree.body := by
  have listed : s ∈ b.statements := by simp [split]
  have block : b.kind = .block b.statements := Term.kind_of_statement listed
  have member := Tree.strip_mem_subterms settled.sound inside (by rw [Tree.isDeclarative, block])
  have left : Term.strip s ∈ Tree.statements (Term.strip b) := by
    rw [Tree.statements_strip]
    exact List.mem_map_of_mem (List.mem_filter.mpr ⟨listed, by simp [other]⟩)
  have planned := placed.body_planned member left
  rw [Tree.id_strip] at planned
  rw [planned, settled.plan_filter distinct inside split,
    settled.declarations_before inside split other (List.Subset.refl _)]

/- Statement after statement: declarations wait for the next statement. -/
theorem body_rebuildAll (placed : Placed o t a ps stats c) (distinct : t.ids.Nodup)
    (settled : t.Settled o) {b : Tree} {first rest : List Tree} (inside : b ∈ t.subterms)
    (each : ∀ s ∈ b.statements, (Tree.rebuild ps (Term.strip s)).body = Tree.body s)
    (split : b.statements = first ++ rest) :
    (Tree.rebuildAll ps ((rest.filter fun s => !s.isDeclaration).map Term.strip)).map Tree.body =
      (first.rtakeWhile Term.isDeclaration).map Tree.body ++ rest.map Tree.body := by
  induction rest generalizing first with
  | nil =>
    have last := settled.no_trailing inside
    rw [split, List.append_nil] at last
    rw [last]
    rfl
  | cons s rest ih =>
    have onward := ih (show b.statements = (first ++ [s]) ++ rest by simp [split])
    cases declares : s.isDeclaration with
    | true =>
      rw [List.rtakeWhile_concat_pos _ _ _ declares] at onward
      rw [List.filter_cons_of_neg (by simp [declares]), onward]
      simp
    | false =>
      rw [List.rtakeWhile_concat_neg _ _ _ (by simp [declares]), List.map_nil, List.nil_append] at onward
      rw [List.filter_cons_of_pos (by simp [declares]), List.map_cons, Tree.rebuildAll_cons,
        List.map_append, List.map_cons, onward, Tree.id_strip, each s (by simp [split]),
        placed.body_insertions distinct settled inside split declares, List.map_cons]

theorem body_eq (placed : Placed o t a ps stats c) (distinct : t.ids.Nodup) (settled : t.Settled o) :
    (Tree.rebuild ps (Term.strip t)).body = t.body := by
  have unfolded := placed.unfolded fun e => settled.isInsertion_of_plan
  suffices every : ∀ m ∈ t.subterms, (Tree.rebuild ps (Term.strip m)).body = Tree.body m from
    every t (Term.self_mem_subterms t)
  intro m
  induction m using Term.inductChildren with
  | step l k ih =>
    intro member
    have below {s : Tree} (child : s ∈ k.children) : (Tree.rebuild ps (Term.strip s)).body = s.body :=
      ih s child (Term.subterms_trans (Term.child_mem_subterms (t := .node l k) child) member)
    cases block : k.isBlock with
    | false =>
      rw [Term.strip_other l k block, Tree.rebuild_unfolded unfolded _ _ (by rw [Kind.isBlock_map, block]),
        Tree.body_node, Tree.body_node, Kind.map_map, Kind.map_map, Kind.map_congr k fun s => below]
    | true =>
      cases k with
      | block ss =>
        have own : Tree.statements (.node l (.block ss)) = [] ++ ss := rfl
        have whole := placed.body_rebuildAll distinct settled member
          (fun s listed => below (Term.statement_mem_children listed)) own
        rw [Term.strip_block, Tree.rebuild_block, Tree.body_node, Tree.body_node]
        exact congrArg (fun ss => Term.node l.note (.block ss)) whole
      | _ => cases block

theorem raised (placed : Placed o t a ps stats c) :
    c.body t.id = .ok (Tree.rebuild ps (Term.strip t)).body := by
  obtain ⟨size, -, applied⟩ := placed.applied
  have root : (Tree.rebuild ps (Term.strip t)).id = t.id := by
    rw [Tree.id, Tree.label_rebuild ps applied.root, Term.label_strip, Tree.id]
  rw [Arena.body, ← root, applied.holds.whole_eq]
  rfl

theorem stats_eq {t' : Tree} {a' c' : Arena} {ps' : List Patch} {stats' : Stats}
    (placed : Placed o t a ps stats c) (placed' : Placed o t' a' ps' stats' c')
    (insertions : ∀ e ∈ t.plan o, e.isInsertion = true)
    (insertions' : ∀ e ∈ t'.plan o, e.isInsertion = true)
    (settled : (Tree.rebuild ps (Term.strip t)).Settled o)
    (same : (Tree.rebuild ps (Term.strip t)).body = (Tree.rebuild ps' (Term.strip t')).body) :
    stats = stats' := by
  obtain ⟨folded, skipped⟩ := placed.none_folded insertions
  obtain ⟨folded', skipped'⟩ := placed'.none_folded insertions'
  have inserted : stats.inserted = stats'.inserted := by
    rw [placed.inserted_eq, placed'.inserted_eq, settled.uninitialized_of_body same]
  cases stats
  cases stats'
  simp_all

end Editing.Placed

theorem Tree.isInsertion_of_unfolding {o : Options} {t : Tree} (off : o.foldInitializers = false)
    {e : Edit} (planned : e ∈ t.plan o) : e.isInsertion = true := by
  obtain ⟨b, -, v, -, planned⟩ := mem_plan.mp planned
  rcases LocalVariable.mem_spread.mp planned with ⟨m, point, -, -, rfl⟩ | ⟨m, s, -, -, -, folds⟩
  · have none : v.pointFold? o point = none := by simp [LocalVariable.pointFold?, off]
    rw [LocalVariable.declareAt, none]
    rfl
  · simp [LocalVariable.headerFold?, off] at folds

/-- A run that folds nothing, as all do if folding is off, leaves code that a second run with the same
options leaves alone, and both report the same. -/
theorem Pass.run_again {p p' : Pass} {body : Body} {root : NodeId} {before after : Arena}
    (lowered : Arena.ofBody body = (root, before)) (run : p.run root before = (p', .ok () after)) :
    (p.options.foldInitializers = false → p'.lastStats.folded = 0) ∧
    (p'.lastStats.folded = 0 → ∃ out, after.body root = .ok out ∧
      ∀ q : Pass, q.options = p.options → ∃ again,
        q.run (Arena.ofBody out).1 (Arena.ofBody out).2 =
          ({ q with lastStats := p'.lastStats }, .ok () again) ∧
        again.body (Arena.ofBody out).1 = .ok out) := by
  obtain ⟨-, name, -, -⟩ := Arena.ofBody_holds body
  rcases p.run_cases body with ⟨e, after', -, ran⟩ | ⟨ps, stats, after', fault, ran, placed, -⟩
  · rw [lowered, run] at ran
    cases ran
  · rw [lowered] at ran name placed
    rw [run, Prod.mk.injEq, EStateM.Result.ok.injEq] at ran
    obtain ⟨rfl, -, rfl⟩ := ran
    refine ⟨fun off => placed.folded_eq_zero_iff.mpr fun e => Tree.isInsertion_of_unfolding off,
      fun zero => ⟨_, name ▸ placed.raised, fun q same => ?_⟩⟩
    have insertions := placed.folded_eq_zero_iff.mp zero
    generalize made : (Tree.rebuild ps (Term.strip (Arena.treeOfBody body))).body = out
    obtain ⟨held, name', raised, -⟩ := Arena.ofBody_holds out
    have output := placed.settled (Tree.sound_iff.mpr fault) (placed.unfolded insertions)
    have settled : (Arena.treeOfBody out).Settled p.options := output.of_body (made.trans raised.symm)
    rcases q.run_cases out with ⟨e, again, fault', -⟩ | ⟨qs, stats', again, -, ran', placed', -⟩
    · rw [Tree.sound_iff.mp settled.sound] at fault'
      cases fault'
    · rw [same] at placed'
      have kept := placed'.body_eq held.distinct settled
      refine ⟨again, ?_, ?_⟩
      · rw [ran', placed.stats_eq placed' insertions (fun e => settled.isInsertion_of_plan) output
          (made.trans (raised.symm.trans kept.symm))]
      · rw [← name', placed'.raised, kept, raised]

/-- `int v; int w; if (c) { w = 1; v = 1; use(v); }` -/
def Body.crossed : Body :=
  .braces [.declareInt "v", .declareInt "w", .when "c" [.setOne "w", .setOne "v", .use "v"]]

def Body.declareFinal (name : String) : Body :=
  .plain (.declaration (.primitive .int) [.plain (.binding name none)] true)

/-- `if (c) { final int w; w = 1; final int v; v = 1; use(v); }` -/
def Body.uncrossed : Body :=
  .braces [.when "c" [.declareFinal "w", .setOne "w", .declareFinal "v", .setOne "v", .use "v"]]

def Pass.inserting : Pass := { options := { foldInitializers := false } }

theorem Pass.raised_crossed :
    (inserting.outcome (Arena.ofBody .crossed).1 (Arena.ofBody .crossed).2).body
      (Arena.ofBody .crossed).1 = .ok Body.uncrossed := by cbv

/- The first run moves both declarations, the second puts them where they are. -/
theorem Pass.run_again_crossed :
    inserting.run (Arena.ofBody .crossed).1 (Arena.ofBody .crossed).2 =
        ({ inserting with lastStats := ⟨2, 0, 0⟩ },
          .ok () (inserting.outcome (Arena.ofBody .crossed).1 (Arena.ofBody .crossed).2)) ∧
      ∃ again, inserting.run (Arena.ofBody .uncrossed).1 (Arena.ofBody .uncrossed).2 =
          ({ inserting with lastStats := ⟨2, 0, 0⟩ }, .ok () again) ∧
        again.body (Arena.ofBody .uncrossed).1 = .ok Body.uncrossed := by
  have ran : inserting.run (Arena.ofBody .crossed).1 (Arena.ofBody .crossed).2 =
      ({ inserting with lastStats := ⟨2, 0, 0⟩ }, .ok () _) :=
    Prod.ext (by decide +kernel) (Pass.run_outcome (by decide +kernel))
  obtain ⟨out, raised, rerun⟩ := (Pass.run_again Prod.mk.eta.symm ran).2 rfl
  obtain rfl : out = .uncrossed := Except.ok.inj (raised.symm.trans raised_crossed)
  exact ⟨ran, rerun inserting rfl⟩

end LocalScope
