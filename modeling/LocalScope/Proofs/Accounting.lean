import LocalScope.Proofs.Checking
import LocalScope.Proofs.Coverage
import LocalScope.Proofs.Reports

namespace LocalScope

namespace Edit

variable {seen : List Site} {es : List Edit}

theorem effective_nodup :
    ((effective seen es).map site).Nodup ∧ ∀ e ∈ effective seen es, e.site ∉ seen := by
  fun_induction effective seen es with
  | case1 => exact ⟨.nil, fun e member => by cases member⟩
  | case2 seen first rest chosen ih =>
    refine ⟨List.nodup_cons.mpr ⟨fun again => ?_, ih.1⟩, fun e member => ?_⟩
    · obtain ⟨e, later, same⟩ := List.mem_map.mp again
      exact ih.2 e later (List.mem_append_right _ (List.mem_singleton.mpr same))
    · rcases List.mem_cons.mp member with rfl | later
      · exact chosen.2
      · exact fun known => ih.2 e later (List.mem_append_left _ known)
  | case3 seen first rest passed ih => exact ih

theorem effective_eq_filter (once : ((es.filter fun e => !e.isInsertion).map site).Nodup)
    (new : ∀ e ∈ es, e.isInsertion = false → e.site ∉ seen) :
    effective seen es = es.filter fun e => !e.isInsertion := by
  fun_induction effective seen es with
  | case1 => rfl
  | case2 seen first rest chosen ih =>
    rw [List.filter_cons_of_pos (by simp [chosen.1])] at once ⊢
    rw [List.map_cons, List.nodup_cons] at once
    rw [ih once.2]
    intro e later folding known
    rcases List.mem_append.mp known with before | now
    · exact new e (List.mem_cons_of_mem first later) folding before
    · have listed : e ∈ rest.filter fun e => !e.isInsertion :=
        List.mem_filter.mpr ⟨later, by simp [folding]⟩
      exact once.1 (List.mem_singleton.mp now ▸ List.mem_map_of_mem listed)
  | case3 seen first rest passed ih =>
    have insertion : first.isInsertion = true := by
      by_contra folding
      have folding : first.isInsertion = false := by simpa using folding
      exact passed ⟨folding, new first List.mem_cons_self folding⟩
    rw [List.filter_cons_of_neg (by simp [insertion])] at once ⊢
    exact ih once fun e later => new e (List.mem_cons_of_mem first later)

theorem effective_eq_filter_iff :
    (effective [] es).length = (es.filter fun e => !e.isInsertion).length ↔
      ((es.filter fun e => !e.isInsertion).map site).Nodup := by
  constructor
  · intro all
    rw [← effective_sublist.eq_of_length all]
    exact effective_nodup.1
  · intro once
    rw [effective_eq_filter once fun e _ _ known => by cases known]

theorem Fits.node_mem_ids {t : Tree} {e : Edit} (fits : e.Fits t) : e.site.node ∈ t.ids := by
  obtain ⟨n, inside, at'⟩ := fits
  obtain ⟨s, child, r, below, named⟩ := at'.inside
  rw [← named]
  exact Tree.ids_subset (Term.subterms_trans (Term.mem_subterms_of_child child below) inside)
    (Tree.id_mem_ids r)

theorem nodes_flatMap {ts : List Tree} {f : Tree → List Edit} (apart : (ts.flatMap Tree.ids).Nodup)
    (each : ∀ t ∈ ts, ((f t).map fun e => e.site.node).Nodup)
    (within : ∀ t ∈ ts, ∀ e ∈ f t, e.Fits t) : ((ts.flatMap f).map fun e => e.site.node).Nodup := by
  rw [List.map_flatMap]
  obtain ⟨-, disjoint⟩ := List.nodup_flatMap.mp apart
  refine List.nodup_flatMap.mpr ⟨each, disjoint.imp_of_mem fun {t t'} first second apart x => ?_⟩
  intro mine other
  obtain ⟨e, planned, rfl⟩ := List.mem_map.mp mine
  obtain ⟨e', planned', same⟩ := List.mem_map.mp other
  exact apart (within t first e planned).node_mem_ids
    (same ▸ (within t' second e' planned').node_mem_ids)

end Edit

theorem LocalVariable.spread_nodes {v : LocalVariable} {o : Options} {block : Tree}
    (distinct : block.ids.Nodup) : ((v.spread o block).map fun e => e.site.node).Nodup := by
  induction block using Term.inductSmaller with
  | step block smaller =>
    rw [spread_eq]
    split
    · exact .nil
    · split
      · refine Edit.nodes_flatMap (Tree.nodup_ids_statements distinct) (fun s listed => ?_)
          fun s _ e => spreadOver_fits
        have child := Term.statement_mem_children listed
        have own := distinct.sublist (Tree.ids_sublist (Term.child_mem_subterms child))
        rw [spreadOver]
        split
        · exact List.nodup_singleton _
        · refine Edit.nodes_flatMap (own.sublist (Tree.ids_receivers s)) (fun r received => ?_)
            fun r _ e planned => (spread_fits planned).1
          have less := (Term.size_receiver_lt received).trans (Term.size_lt_of_mem_children child)
          exact smaller r less (own.sublist (Tree.ids_sublist (Term.receiver_mem_subterms received)))
      · exact List.nodup_singleton _

namespace Tree

def takenFrom (b : Tree) (ss : List Tree) : List (Tree × Tree × LocalVariable) :=
  ss.filterMap fun d => (local? d).map fun v => (b, d, v)

/-- The declarations that are taken out, each with its block and its variable, in the order in which
they are planned. -/
def strippings (t : Tree) : List (Tree × Tree × LocalVariable) :=
  t.subterms.flatMap fun b => takenFrom b (statements b)

theorem mem_strippings {t b d : Tree} {v : LocalVariable} :
    (b, d, v) ∈ t.strippings ↔ b ∈ t.subterms ∧ d ∈ statements b ∧ d.local? = some v := by
  simp only [strippings, takenFrom, List.mem_flatMap, List.mem_filterMap, Option.map_eq_some_iff, Prod.mk.injEq]
  constructor
  · rintro ⟨_, inside, _, listed, _, known, rfl, rfl, rfl⟩
    exact ⟨inside, listed, known⟩
  · rintro ⟨inside, listed, known⟩
    exact ⟨b, inside, d, listed, v, known, rfl, rfl, rfl⟩

theorem strippings_nodup {t : Tree} (distinct : t.ids.Nodup) : t.strippings.Nodup := by
  have each (b : Tree) (ss : List Tree) :
      (takenFrom b ss).map (fun s => s.2.1) = ss.filter fun d => (local? d).isSome := by
    induction ss with
    | nil => rfl
    | cons d rest ih =>
      rw [takenFrom] at ih ⊢
      cases known : local? d <;> simp [known, ih]
  have declarations : t.strippings.map (fun s => s.2.1) =
      t.blockStatements.filter fun d => (local? d).isSome := by
    simp only [strippings, blockStatements, List.map_flatMap, each, List.filter_flatMap]
  exact .of_map (fun s => s.2.1) (declarations ▸ (blockStatements_nodup distinct).filter _)

def editsFor (o : Options) (taken : Tree × Tree × LocalVariable) : List Edit :=
  taken.2.2.spread o (Term.strip taken.1)

theorem spread_takenFrom (o : Options) (b : Tree) (ss : List Tree) :
    (takenFrom b ss).flatMap (editsFor o) =
      (locals ss).flatMap fun v => v.spread o (Term.strip b) := by
  induction ss with
  | nil => rfl
  | cons d rest ih => cases known : local? d <;> simp_all [locals, takenFrom, editsFor]

theorem plan_eq_strippings (o : Options) (t : Tree) :
    t.plan o = t.strippings.flatMap (editsFor o) := by
  rw [plan_eq_flatMap, strippings, List.flatMap_assoc]
  exact List.flatMap_congr fun b _ => (spread_takenFrom o b _).symm

def foldSites (o : Options) (b : Tree) (v : LocalVariable) : List Site :=
  ((v.spread o (Term.strip b)).filter fun e => !e.isInsertion).map Edit.site

theorem mem_foldSites {o : Options} {b : Tree} {v : LocalVariable} {site : Site} :
    site ∈ foldSites o b v ↔
      ∃ x, site = .inPlaceOf x ∧ ∃ e ∈ v.spread o (Term.strip b), e.site = .inPlaceOf x := by
  simp only [foldSites, List.mem_map, List.mem_filter]
  constructor
  · rintro ⟨e, ⟨planned, folding⟩, rfl⟩
    cases at' : e.site with
    | before x => simp [Edit.isInsertion, at'] at folding
    | inPlaceOf x => exact ⟨x, rfl, e, planned, at'⟩
  · rintro ⟨x, rfl, e, planned, at'⟩
    exact ⟨e, ⟨planned, by simp [Edit.isInsertion, at']⟩, at'⟩

/- No variable chooses an assignment twice, so foldings at one site belong to two declarations. -/
theorem foldings_nodup_iff (o : Options) {t : Tree} (distinct : t.ids.Nodup) :
    (((t.plan o).filter fun e => !e.isInsertion).map Edit.site).Nodup ↔
      ∀ s ∈ t.strippings, ∀ s' ∈ t.strippings, s ≠ s' →
        List.Disjoint (foldSites o s.1 s.2.2) (foldSites o s'.1 s'.2.2) := by
  have own (s : Tree × Tree × LocalVariable) (taken : s ∈ t.strippings) :
      (foldSites o s.1 s.2.2).Nodup := by
    have inside := (mem_strippings.mp taken).1
    have single := (distinct.sublist (ids_sublist inside)).sublist (ids_strip s.1)
    have nodes : (((s.2.2.spread o (Term.strip s.1)).map Edit.site).map Site.node).Nodup := by
      rw [List.map_map]
      exact LocalVariable.spread_nodes single
    exact nodes.of_map.sublist (List.filter_sublist.map Edit.site)
  have sites : ((t.plan o).filter fun e => !e.isInsertion).map Edit.site =
      t.strippings.flatMap fun s => foldSites o s.1 s.2.2 := by
    rw [plan_eq_strippings, List.filter_flatMap, List.map_flatMap]
    rfl
  rw [sites]
  refine List.nodup_flatMap.trans ⟨fun ⟨_, pairs⟩ s taken s' taken' differ => ?_, fun apart => ?_⟩
  · have symmetric : Std.Symm (Function.onFun List.Disjoint fun s : Tree × Tree × LocalVariable =>
        foldSites o s.1 s.2.2) := ⟨fun _ _ h => h.symm⟩
    exact pairs.forall taken taken' differ
  · exact ⟨own, (strippings_nodup distinct).pairwise_of_forall_ne fun s taken s' taken' =>
      apart s taken s' taken'⟩

/-- A declaration that is taken out of its block and whose variable is then declared in the place of an
assignment. -/
def Chooses (o : Options) (t b d : Tree) (name : String) (x : NodeId) : Prop :=
  b ∈ t.subterms ∧ d ∈ b.statements ∧ ∃ v, d.local? = some v ∧ v.name = name ∧
    ∃ e ∈ v.spread o (Term.strip b), e.site = .inPlaceOf x

theorem chooses_of_common {o : Options} {t b d b' d' : Tree} {v v' : LocalVariable} {x : NodeId}
    (distinct : t.ids.Nodup) (sound : t.Sound) (taken : (b, d, v) ∈ t.strippings)
    (taken' : (b', d', v') ∈ t.strippings) (first : ∃ e ∈ v.spread o (Term.strip b), e.site = .inPlaceOf x)
    (second : ∃ e ∈ v'.spread o (Term.strip b'), e.site = .inPlaceOf x) :
    Chooses o t b d v.name x ∧ Chooses o t b' d' v.name x ∧
      (b' ∈ b.subterms ∨ b ∈ b'.subterms) := by
  obtain ⟨inside, listed, known⟩ := mem_strippings.mp taken
  obtain ⟨inside', listed', known'⟩ := mem_strippings.mp taken'
  have chosen := first
  have chosen' := second
  obtain ⟨e, planned, site⟩ := first
  obtain ⟨e', planned', site'⟩ := second
  have inPlan {b d : Tree} {v : LocalVariable} {e : Edit} (inside : b ∈ t.subterms)
      (listed : d ∈ statements b) (known : d.local? = some v)
      (planned : e ∈ v.spread o (Term.strip b)) : e.Fits (Term.strip t) :=
    plan_fits sound (mem_plan.mpr ⟨b, inside, v, List.mem_filterMap.mpr ⟨d, listed, known⟩, planned⟩)
  have named : v'.name = v.name := by
    rw [← (LocalVariable.spread_fits planned).2.2, ← (LocalVariable.spread_fits planned').2.2]
    exact Edit.Fits.name_eq (distinct.sublist (ids_strip t)) (inPlan inside listed known planned)
      (inPlan inside' listed' known' planned') (by simp [Edit.isInsertion, site])
      (site'.trans site.symm)
  have below {b : Tree} {v : LocalVariable} {e : Edit} (planned : e ∈ v.spread o (Term.strip b))
      (site : e.site = .inPlaceOf x) : x ∈ b.ids := by
    have node := (LocalVariable.spread_fits planned).1.node_mem_ids
    rw [site] at node
    exact (ids_strip b).subset node
  exact ⟨⟨inside, listed, v, known, rfl, chosen⟩, ⟨inside', listed', v', known', named, chosen'⟩,
    nested_of_common distinct inside' inside (below planned' site') (below planned site)⟩

end Tree

/-- Foldings are skipped exactly where two declarations of a name, of which the block of one is in
that of the other, have chosen one assignment. -/
theorem Editing.Placed.skipped_iff {o : Options} {t : Tree} {a c : Arena} {ps : List Patch}
    {stats : Stats} (placed : Placed o t a ps stats c) (distinct : t.ids.Nodup) (sound : t.Sound) :
    stats.skipped ≠ 0 ↔ ∃ b d b' d' name x, d ≠ d' ∧ b' ∈ b.subterms ∧
      Tree.Chooses o t b d name x ∧ Tree.Chooses o t b' d' name x := by
  have count : stats.skipped ≠ 0 ↔
      ¬ (((t.plan o).filter fun e => !e.isInsertion).map Edit.site).Nodup := by
    rw [← Edit.effective_eq_filter_iff, ← placed.folded, ← placed.skipped]
    omega
  rw [count, Tree.foldings_nodup_iff o distinct]
  constructor
  · intro clash
    push Not at clash
    obtain ⟨⟨b, d, v⟩, taken, ⟨b', d', v'⟩, taken', differ, common⟩ := clash
    obtain ⟨site, mine, other⟩ : ∃ site, site ∈ Tree.foldSites o b v ∧ site ∈ Tree.foldSites o b' v' := by
      simpa [List.Disjoint] using common
    obtain ⟨x, rfl, first⟩ := Tree.mem_foldSites.mp mine
    obtain ⟨y, same, second⟩ := Tree.mem_foldSites.mp other
    obtain rfl : x = y := by simpa using same
    have apart : d ≠ d' := by
      rintro rfl
      obtain ⟨inside, listed, known⟩ := Tree.mem_strippings.mp taken
      obtain ⟨inside', listed', known'⟩ := Tree.mem_strippings.mp taken'
      obtain rfl := Tree.parent_unique distinct inside inside' (Term.statement_mem_children listed)
        (Term.statement_mem_children listed')
      obtain rfl : v = v' := by simpa [known] using known'
      exact differ rfl
    obtain ⟨chooses, chooses', inner | outer⟩ :=
      Tree.chooses_of_common distinct sound taken taken' first second
    · exact ⟨b, d, b', d', v.name, x, apart, inner, chooses, chooses'⟩
    · exact ⟨b', d', b, d, v.name, x, apart.symm, outer, chooses', chooses⟩
  · rintro ⟨b, d, b', d', name, x, apart, -, ⟨inside, listed, v, known, -, first⟩,
      ⟨inside', listed', v', known', -, second⟩⟩ clear
    exact clear _ (Tree.mem_strippings.mpr ⟨inside, listed, known⟩) _
      (Tree.mem_strippings.mpr ⟨inside', listed', known'⟩) (fun same => apart (by simp_all))
      (Tree.mem_foldSites.mpr ⟨x, rfl, first⟩) (Tree.mem_foldSites.mpr ⟨x, rfl, second⟩)

namespace Tree

def isInitialized (d : Tree) : Bool :=
  match d.kind with
  | .declaration _ [b] _ =>
    match b.kind with
    | .binding _ (some _) => true
    | _ => false
  | _ => false

section listing

variable (ps : List Patch) (p : Patch)

theorem blockStatements_node (l : Label) (k : Kind Tree) :
    blockStatements (.node l k) = k.statements ++ k.children.flatMap blockStatements := by
  rw [blockStatements, Term.subterms_node, List.flatMap_cons, List.flatMap_assoc]
  rfl

theorem blockStatements_ids_nodup {t : Tree} (distinct : t.ids.Nodup) :
    (t.blockStatements.map id).Nodup := by
  refine (blockStatements_nodup distinct).map_on fun s listed s' listed' same => ?_
  have inTree {s : Tree} (listed : s ∈ t.blockStatements) : s ∈ t.subterms := by
    obtain ⟨b, inside, listed⟩ := mem_blockStatements.mp listed
    exact Term.subterms_trans (Term.child_mem_subterms (Term.statement_mem_children listed)) inside
  exact List.inj_on_of_nodup_map distinct (inTree listed) (inTree listed') same

theorem blockStatements_withNote (note : Annotation) (t : Tree) :
    (t.withNote note).blockStatements = t.blockStatements := by
  obtain ⟨l, k⟩ := t
  rw [withNote, blockStatements_node, blockStatements_node]
  rfl

theorem blockStatements_inserted : p.inserted.blockStatements = [] := by
  simp [Patch.inserted, Patch.declares, blockStatements_node, Kind.statements, Kind.children,
    Kind.slots, Slot.children]

theorem blockStatements_folded (note : Annotation) (memberId : Option MemberId) (value : Tree) :
    (p.folded note memberId value).blockStatements = value.blockStatements := by
  simp [Patch.folded, Patch.declares, blockStatements_node, Kind.statements, Kind.children,
    Kind.slots, Slot.children, blockStatements_withNote]

theorem blockStatements_assignment {t r x v : Tree} {op : AssignOp} {name : String}
    (found : t.assignment? = some r) (shape : r.kind = .assignment op x v)
    (target : x.kind = .identifier name) : t.blockStatements = v.blockStatements := by
  obtain ⟨lr, kr⟩ := r
  obtain ⟨lx, kx⟩ := x
  obtain rfl : kr = _ := shape
  obtain rfl : kx = _ := target
  obtain ⟨-, rfl | around⟩ := Term.assignment?_cases found
  · simp [blockStatements_node, Kind.statements, Kind.children, Kind.slots, Slot.children]
  · obtain ⟨lt, kt⟩ := t
    obtain rfl : kt = _ := around
    simp [blockStatements_node, Kind.statements, Kind.children, Kind.slots, Slot.children]

theorem filter_insertions (x : NodeId) : (insertions ps x).filter isUninitialized = insertions ps x := by
  refine List.filter_eq_self.mpr fun d listed => ?_
  obtain ⟨p, -, rfl⟩ := List.mem_map.mp listed
  rfl

theorem flatMap_insertions {β : Type} {f : Tree → List β} (x : NodeId)
    (nothing : ∀ p : Patch, f p.inserted = []) : (insertions ps x).flatMap f = [] := by
  refine List.flatMap_eq_nil_iff.mpr fun d listed => ?_
  obtain ⟨p, -, rfl⟩ := List.mem_map.mp listed
  exact nothing p

end listing

end Tree

namespace Applied

variable {u : Tree} {size : Nat} {ps : List Patch} {a : Arena}

/-- The declarations without a value in blocks of the output are those that were inserted. -/
theorem uninitialized_eq (applied : Applied u size ps a) {t : Tree} (member : t ∈ u.subterms)
    (bare : ∀ s ∈ t.blockStatements, s.isDeclaration = false) :
    (t.rebuild ps).blockStatements.filter Tree.isUninitialized =
      t.blockStatements.flatMap fun s => Tree.insertions ps s.id := by
  induction t using Term.inductSmaller with
  | step t smaller =>
    obtain ⟨l, k⟩ := t
    have below {c : Tree} (child : c ∈ k.children) :
        (c.rebuild ps).blockStatements.filter Tree.isUninitialized =
          c.blockStatements.flatMap fun s => Tree.insertions ps s.id := by
      refine smaller c (Term.size_lt_of_mem_children (t := .node l k) child)
        (Term.subterms_trans (Term.child_mem_subterms (t := .node l k) child) member) fun s listed => ?_
      refine bare s ?_
      rw [Tree.blockStatements_node]
      exact List.mem_append_right _ (List.mem_flatMap.mpr ⟨c, child, listed⟩)
    rcases Tree.rebuild_cases ps l k with ⟨ss, rfl, made⟩ | ⟨block, -, made⟩ |
      ⟨p, r, op, x, v, found, shape, folded, made⟩
    · have first (s : Tree) (listed : s ∈ ss) :
          (Tree.insertions ps s.id ++ [s.rebuild ps]).filter Tree.isUninitialized =
            Tree.insertions ps s.id := by
        have stays := bare s (by simp [Tree.blockStatements_node, Kind.statements, listed])
        rw [List.filter_append, Tree.filter_insertions, List.filter_cons_of_neg
          (by simp [Tree.isUninitialized_rebuild ps stays]), List.filter_nil, List.append_nil]
      have second (s : Tree) (listed : s ∈ ss) :
          (Tree.insertions ps s.id ++ [s.rebuild ps]).flatMap
              (fun c => c.blockStatements.filter Tree.isUninitialized) =
            s.blockStatements.flatMap fun s => Tree.insertions ps s.id := by
        rw [List.flatMap_append, Tree.flatMap_insertions ps s.id (by simp [Tree.blockStatements_inserted]),
          List.nil_append, List.flatMap_singleton, below (by simpa using listed)]
      rw [made, Tree.blockStatements_node, Tree.blockStatements_node, Kind.children_block,
        Kind.children_block, List.filter_append, List.filter_flatMap, List.flatMap_append,
        List.flatMap_assoc, ← List.flatMap_congr second, ← List.flatMap_assoc]
      congr 1
      exact (List.filter_flatMap ..).trans (List.flatMap_congr first)
    · have none : k.statements = [] := Kind.statements_other block
      rw [made, Tree.blockStatements_node, Tree.blockStatements_node, Kind.children_map,
        Kind.statements_map, none, List.map_nil, List.nil_append, List.nil_append, List.flatMap_map,
        List.filter_flatMap, List.flatMap_assoc]
      exact List.flatMap_congr fun c child => below child
    · obtain ⟨x', v', shape', named⟩ := applied.folded_at member found folded
      obtain ⟨rfl, rfl, rfl⟩ : op = .plain ∧ x = x' ∧ v = v' := by simpa [shape] using shape'
      have same := Tree.blockStatements_assignment found shape (Term.isIdentifier_iff.mp named)
      rw [made, Tree.blockStatements_folded, same]
      exact smaller v (Tree.size_value_lt found shape)
        (Term.subterms_trans (Tree.value_mem_subterms found shape) member) (same ▸ bare)

theorem assignment?_of_folding (applied : Applied u size ps a) {n : Tree} {p : Patch}
    (member : n ∈ u.subterms) (folds : Tree.folding? ps n.id = some p) : n.assignment? = some n := by
  obtain ⟨n', inside, s, entry, r, found, same, x, v, shape, -⟩ := applied.folded_entry folds
  have deep := Term.subterms_trans (Term.mem_subterms_of_child (Term.entry_mem_children entry)
    (Term.assignment?_mem_subterms found)) inside
  obtain rfl : r = n := List.inj_on_of_nodup_map applied.distinct deep member same
  simp only [Term.assignment?, shape]

theorem folding?_eq_none (applied : Applied u size ps a) {n : Tree} (member : n ∈ u.subterms)
    (unfolded : Tree.foldedBy? ps n = none) : Tree.folding? ps n.id = none := by
  by_contra folds
  obtain ⟨p, folds⟩ := Option.ne_none_iff_exists'.mp folds
  rw [Tree.foldedBy?, applied.assignment?_of_folding member folds, Option.bind_some, folds] at unfolded
  cases unfolded

end Applied

namespace Tree

def isNewIn (t d : Tree) : Bool := d.isInitialized && !t.ids.contains d.id

/-- The declarations of a variable with its value that are in one tree and not in another. -/
def newlyInitialized (t out : Tree) : List Tree := out.subterms.filter (isNewIn t)

section news

variable {t : Tree}

theorem newlyInitialized_node (l : Label) (k : Kind Tree) :
    newlyInitialized t (.node l k) =
      [.node l k].filter (isNewIn t) ++ k.children.flatMap (newlyInitialized t) := by
  rw [newlyInitialized, Term.subterms_node, ← List.singleton_append, List.filter_append,
    List.filter_flatMap]
  rfl

theorem newlyInitialized_withNote (note : Annotation) (v : Tree) :
    (newlyInitialized t (v.withNote note)).map id = (newlyInitialized t v).map id := by
  obtain ⟨l, k⟩ := v
  have same : isNewIn t (.node { l with note } k) = isNewIn t (.node l k) := rfl
  have node : withNote note (.node l k) = .node { l with note } k := rfl
  rw [node, newlyInitialized_node, newlyInitialized_node, List.map_append, List.map_append]
  cases new : isNewIn t (.node l k) <;> simp [new, same, id, Term.label]

theorem newlyInitialized_inserted (p : Patch) : newlyInitialized t p.inserted = [] := by
  rw [Patch.inserted, Patch.declares, newlyInitialized_node]
  simp [Kind.children, Kind.slots, Slot.children, newlyInitialized_node, isNewIn, isInitialized,
    Term.kind]

theorem newlyInitialized_folded {p : Patch} (new : p.declaration ∉ t.ids) (note : Annotation)
    (memberId : Option MemberId) (value : Tree) :
    (newlyInitialized t (p.folded note memberId value)).map id =
      p.declaration :: (newlyInitialized t value).map id := by
  rw [Patch.folded, Patch.declares, newlyInitialized_node]
  simp [Kind.children, Kind.slots, Slot.children, newlyInitialized_node, isNewIn, isInitialized,
    Term.kind, id, Term.label, new]
  exact newlyInitialized_withNote _ value

end news

end Tree

namespace Applied

variable {t u : Tree} {size : Nat} {ps : List Patch} {a : Arena}

theorem foldings_assignment (applied : Applied u size ps a) {n r x v : Tree} {op : AssignOp} {p : Patch}
    (member : n ∈ u.subterms) (found : n.assignment? = some r) (shape : r.kind = .assignment op x v)
    (folded : Tree.folding? ps r.id = some p) :
    n.ids.filterMap (Tree.folding? ps) = p :: v.ids.filterMap (Tree.folding? ps) := by
  obtain ⟨x', v', shape', named⟩ := applied.folded_at member found folded
  obtain ⟨rfl, rfl, rfl⟩ : op = .plain ∧ x = x' ∧ v = v' := by simpa [shape] using shape'
  have inTree := Term.subterms_trans (Term.assignment?_mem_subterms found) member
  obtain ⟨lr, kr⟩ := r
  obtain ⟨lx, kx⟩ := x
  obtain rfl : kr = _ := shape
  obtain rfl : kx = _ := Term.isIdentifier_iff.mp named
  have target : Tree.folding? ps lx.id = none :=
    applied.folding?_eq_none (n := .node lx (.identifier p.edit.name))
      (Term.subterms_trans (Term.child_mem_subterms (by
        simp [Term.children, Term.kind, Kind.children, Kind.slots, Slot.children])) inTree) rfl
  have own : Tree.folding? ps lr.id = some p := folded
  obtain ⟨-, rfl | around⟩ := Term.assignment?_cases found
  · simp [Tree.ids_node, Kind.children, Kind.slots, Slot.children, own, target]
  · obtain ⟨ln, kn⟩ := n
    obtain rfl : kn = _ := around
    have outer : Tree.folding? ps ln.id = none := by
      by_contra folds
      obtain ⟨q, folds⟩ := Option.ne_none_iff_exists'.mp folds
      have own := applied.assignment?_of_folding member folds
      simp [Term.assignment?, Term.kind] at own
    simp [Tree.ids_node, Kind.children, Kind.slots, Slot.children, own, target, outer]

/-- The declarations with a value that are new in the output are those that were folded. -/
theorem initialized_eq (applied : Applied u size ps a) (old : u.ids ⊆ t.ids)
    (new : ∀ y ∈ Tree.added ps, y ∉ t.ids) {n : Tree} (member : n ∈ u.subterms) :
    (Tree.newlyInitialized t (n.rebuild ps)).map Tree.id =
      (n.ids.filterMap (Tree.folding? ps)).map Patch.declaration := by
  induction n using Term.inductSmaller with
  | step n smaller =>
    obtain ⟨l, k⟩ := n
    have below (c : Tree) (child : c ∈ k.children) :
        (Tree.newlyInitialized t (c.rebuild ps)).map Tree.id =
          (c.ids.filterMap (Tree.folding? ps)).map Patch.declaration :=
      smaller c (Term.size_lt_of_mem_children (t := .node l k) child)
        (Term.subterms_trans (Term.child_mem_subterms (t := .node l k) child) member)
    have known : l.id ∈ t.ids := old (Tree.ids_subset member (Tree.id_mem_ids _))
    have stays (k' : Kind Tree) : [Term.node l k'].filter (Tree.isNewIn t) = [] := by
      simp [Tree.isNewIn, Tree.id, Term.label, known]
    have layer (unfolded : Tree.foldedBy? ps (.node l k) = none) :
        (Tree.ids (.node l k)).filterMap (Tree.folding? ps) =
          k.children.flatMap fun c => (Tree.ids c).filterMap (Tree.folding? ps) := by
      have none : Tree.folding? ps l.id = none := applied.folding?_eq_none member unfolded
      rw [Tree.ids_node, List.filterMap_cons_none none, List.filterMap_flatMap]
    rcases Tree.rebuild_cases ps l k with ⟨ss, rfl, made⟩ | ⟨-, unfolded, made⟩ |
      ⟨p, r, op, x, v, found, shape, folded, made⟩
    · have each (s : Tree) (listed : s ∈ ss) :
          ((Tree.insertions ps s.id ++ [s.rebuild ps]).flatMap (Tree.newlyInitialized t)).map Tree.id =
            (s.ids.filterMap (Tree.folding? ps)).map Patch.declaration := by
        rw [List.flatMap_append, Tree.flatMap_insertions ps s.id Tree.newlyInitialized_inserted,
          List.nil_append, List.flatMap_singleton, below s (by simpa using listed)]
      rw [made, Tree.newlyInitialized_node, stays, List.nil_append, layer rfl, Kind.children_block,
        Kind.children_block, List.map_flatMap, List.map_flatMap, ← List.flatMap_congr each,
        Tree.rebuildAll, List.flatMap_assoc]
      simp only [List.map_flatMap]
    · rw [made, Tree.newlyInitialized_node, stays, List.nil_append, layer unfolded, Kind.children_map,
        List.flatMap_map, List.map_flatMap, List.map_flatMap]
      exact List.flatMap_congr below
    · have fresh := new _ (Tree.added_of_mem (Tree.folding?_mem folded).1).1
      rw [made, Tree.newlyInitialized_folded fresh, applied.foldings_assignment member found shape folded,
        List.map_cons]
      congr 1
      exact smaller v (Tree.size_value_lt found shape)
        (Term.subterms_trans (Tree.value_mem_subterms found shape) member)

end Applied

namespace Edit

variable (es : List Edit)

theorem filter_carriedOut : (carriedOut es).filter isInsertion = es.filter isInsertion := by
  have none : (effective [] es).filter isInsertion = [] :=
    List.filter_eq_nil_iff.mpr fun e member => by simp [(mem_effective member).2]
  rw [carriedOut, List.filter_append, List.filter_filter, none, List.append_nil]
  simp only [Bool.and_self]

theorem filter_not_carriedOut : ((carriedOut es).filter fun e => !e.isInsertion) = effective [] es := by
  have all : ((effective [] es).filter fun e => !e.isInsertion) = effective [] es :=
    List.filter_eq_self.mpr fun e member => by simp [(mem_effective member).2]
  rw [carriedOut, List.filter_append, List.filter_filter, all]
  simp

end Edit

theorem Tree.perm_insertions {ps : List Patch} {xs : List NodeId} (once : xs.Nodup)
    (anchored : ∀ p ∈ ps, ∀ x, p.edit.site = .before x → x ∈ xs) :
    (xs.flatMap fun x => ps.filter fun p => p.edit.site = .before x).Perm
      (ps.filter fun p => p.edit.isInsertion) := by
  induction ps with
  | nil => simp
  | cons p ps ih =>
    have rest := ih fun q later => anchored q (List.mem_cons_of_mem p later)
    cases site : p.edit.site with
    | inPlaceOf y => simpa [List.filter_cons, site, Edit.isInsertion] using rest
    | before y =>
      obtain ⟨first, last, rfl⟩ := List.append_of_mem (anchored p List.mem_cons_self y site)
      have apart : y ∉ first ++ last := (List.nodup_cons.mp (List.perm_middle.nodup_iff.mp once)).1
      have others (zs : List NodeId) (among : zs ⊆ first ++ last) :
          (zs.flatMap fun x => (p :: ps).filter fun q => q.edit.site = .before x) =
            zs.flatMap fun x => ps.filter fun q => q.edit.site = .before x := by
        refine List.flatMap_congr fun x listed => List.filter_cons_of_neg ?_
        have differ : y ≠ x := fun same => apart (same ▸ among listed)
        simp [site, differ]
      rw [List.filter_cons_of_pos (by simp [Edit.isInsertion, site])]
      refine List.Perm.trans ?_ (rest.cons p)
      rw [List.flatMap_append, List.flatMap_cons, others first (List.subset_append_left _ _),
        others last (List.subset_append_right _ _), List.filter_cons_of_pos (by simp [site]),
        List.cons_append, List.flatMap_append, List.flatMap_cons]
      exact List.perm_middle

namespace Editing.Placed

variable {o : Options} {t : Tree} {a b : Arena} {ps : List Patch} {stats : Stats}

theorem inserted_eq (placed : Placed o t a ps stats b) :
    stats.inserted = ((Tree.rebuild ps (Term.strip t)).blockStatements.filter
      Tree.isUninitialized).length := by
  obtain ⟨size, -, applied⟩ := placed.applied
  have bare : ∀ s ∈ Tree.blockStatements (Term.strip t), s.isDeclaration = false := by
    intro s listed
    obtain ⟨q, inside, listed⟩ := Tree.mem_blockStatements.mp listed
    exact Tree.isDeclaration_of_strip inside listed
  have anchored : ∀ p ∈ ps, ∀ x, p.edit.site = .before x →
      x ∈ (Tree.blockStatements (Term.strip t)).map Tree.id := by
    intro p known x site
    obtain ⟨n, inside, ⟨s, listed, before⟩ | ⟨s, -, r, -, inPlace, -⟩⟩ := applied.fits p known
    · rw [site, Site.before.injEq] at before
      exact before ▸ List.mem_map_of_mem (Tree.mem_blockStatements.mpr ⟨n, inside, listed⟩)
    · rw [site] at inPlace
      cases inPlace
  have sorted := Tree.perm_insertions (Tree.blockStatements_ids_nodup applied.distinct) anchored
  have planned : (ps.filter fun p => p.edit.isInsertion).map Patch.edit =
      (t.plan o).filter Edit.isInsertion := by
    rw [← Edit.filter_carriedOut, ← placed.edits, List.filter_map]
    rfl
  rw [placed.inserted, ← planned, List.length_map, ← sorted.length_eq,
    applied.uninitialized_eq (Term.self_mem_subterms _) bare]
  simp [Tree.insertions, List.length_flatMap, List.map_map, Function.comp_def]

theorem foldings_eq (placed : Placed o t a ps stats b) :
    (ps.filter fun p => !p.edit.isInsertion).map Patch.edit = Edit.effective [] (t.plan o) := by
  rw [← Edit.filter_not_carriedOut, ← placed.edits, List.filter_map]
  rfl

theorem folding_sites_nodup (placed : Placed o t a ps stats b) :
    ((ps.filter fun p => !p.edit.isInsertion).map fun p => p.edit.site).Nodup := by
  have once := (@Edit.effective_nodup [] (t.plan o)).1
  rwa [← placed.foldings_eq, List.map_map] at once

/- Of the foldings at one site only the first is carried out. -/
theorem folding?_of_mem (placed : Placed o t a ps stats b) {p : Patch} {x : NodeId} (known : p ∈ ps)
    (site : p.edit.site = .inPlaceOf x) : Tree.folding? ps x = some p := by
  obtain ⟨q, chosen⟩ : ∃ q, Tree.folding? ps x = some q :=
    Option.isSome_iff_exists.mp (List.find?_isSome.mpr ⟨p, known, by simpa using site⟩)
  obtain ⟨among, site'⟩ := Tree.folding?_mem chosen
  obtain rfl : q = p := by
    refine List.inj_on_of_nodup_map placed.folding_sites_nodup ?_ ?_ (site'.trans site.symm)
    · exact List.mem_filter.mpr ⟨among, by simp [Edit.isInsertion, site']⟩
    · exact List.mem_filter.mpr ⟨known, by simp [Edit.isInsertion, site]⟩
  exact chosen

theorem folded_eq (placed : Placed o t a ps stats b) (held : a.Holds t) :
    stats.folded = (Tree.newlyInitialized t (Tree.rebuild ps (Term.strip t))).length := by
  obtain ⟨size, grown, applied⟩ := placed.applied
  have new : ∀ y ∈ Tree.added ps, y ∉ t.ids := by
    intro y added inside
    have first := applied.fresh y added
    have second := held.index_lt inside
    omega
  have perm : (Tree.ids (Term.strip t)).filterMap (Tree.folding? ps) |>.Perm
      (ps.filter fun p => !p.edit.isInsertion) := by
    have single : ((Tree.ids (Term.strip t)).filterMap (Tree.folding? ps)).Nodup := by
      refine applied.distinct.filterMap fun x y p first second => ?_
      have site := (Tree.folding?_mem first).2
      rw [(Tree.folding?_mem second).2, Site.inPlaceOf.injEq] at site
      exact site.symm
    -- Both lists are without repetition, so it is enough that they have the same members.
    refine (List.perm_ext_iff_of_nodup single placed.folding_sites_nodup.of_map).mpr fun p => ?_
    rw [List.mem_filterMap, List.mem_filter]
    constructor
    · rintro ⟨x, -, found⟩
      obtain ⟨known, site⟩ := Tree.folding?_mem found
      exact ⟨known, by simp [Edit.isInsertion, site]⟩
    · rintro ⟨known, folding⟩
      cases site : p.edit.site with
      | before x => simp [Edit.isInsertion, site] at folding
      | inPlaceOf x =>
        have inside := (applied.fits p known).node_mem_ids
        rw [site] at inside
        exact ⟨x, inside, placed.folding?_of_mem known site⟩
  have same := congrArg List.length
    (applied.initialized_eq (Tree.ids_strip t).subset new (Term.self_mem_subterms _))
  rw [List.length_map, List.length_map, perm.length_eq] at same
  rw [same, placed.folded, ← placed.foldings_eq, List.length_map]

end Editing.Placed

/-- A run ends well or with a malformed declaration, and what it then tells is right. -/
theorem Pass.run_accounts (p : Pass) (body : Body) :
    let root := (Arena.ofBody body).1
    let before := (Arena.ofBody body).2
    (∃ block fault after, p.run root before = (p, .error (.declaration block fault) after)) ∨
    ∃ stats after, p.run root before = ({ p with lastStats := stats }, .ok () after) ∧
      stats.inserted = ((after.view root).blockStatements.filter Tree.isUninitialized).length ∧
      stats.folded = (Tree.newlyInitialized (before.view root) (after.view root)).length ∧
      (stats.skipped ≠ 0 ↔ ∃ b d b' d' name x, d ≠ d' ∧ b' ∈ b.subterms ∧
        Tree.Chooses p.options (before.view root) b d name x ∧
        Tree.Chooses p.options (before.view root) b' d' name x) := by
  intro root before
  obtain ⟨held, -⟩ := Arena.ofBody_holds body
  rcases p.run_cases body with
    ⟨e, after, fault, ran⟩ | ⟨ps, stats, after, fault, ran, placed, output⟩
  · obtain ⟨b, -, reason, rfl⟩ := Tree.declaration_of_fault fault
    exact .inl ⟨Tree.id b, reason, after, ran⟩
  · refine .inr ⟨stats, after, ran, ?_, ?_, ?_⟩
    · rw [output, placed.inserted_eq]
    · rw [output, placed.folded_eq held]
      rfl
    · exact placed.skipped_iff held.distinct (Tree.sound_iff.mpr fault)

end LocalScope
