import LocalScope.Proofs.Coverage
import LocalScope.Proofs.Handing

/-! A clause that binds the name of a variable hides the variable: what occurs there is no use of it.
But a block that hands a variable on hands it to the blocks of all its statements, also to those of a
clause that hides it, and then a declaration is made between the clause and the uses of its own
variable. -/
namespace LocalScope

namespace Tree

variable {t n m s c : Tree}

theorem isDeclarative_of_hides {name : String} (hidden : Term.hides name c.kind = true) :
    c.isDeclarative = false := by
  obtain ⟨l, k⟩ := c
  cases k <;> first | rfl | cases hidden

theorem parent_mem (distinct : t.ids.Nodup) (parent : m ∈ t.subterms) (member : n ∈ t.subterms)
    (child : s ∈ m.children) (inside : s ∈ n.subterms) (other : s ≠ n) : m ∈ n.subterms := by
  have below : s ∈ m.subterms := Term.child_mem_subterms child
  rcases nested_of_common distinct parent member (ids_subset below (id_mem_ids s))
    (ids_subset inside (id_mem_ids s)) with within | around
  · exact within
  · obtain ⟨l, k⟩ := m
    rcases Term.mem_subterms_node.mp around with rfl | ⟨r, child', below'⟩
    · exact Term.self_mem_subterms _
    · have same : s = r := child_of_common (distinct.sublist (ids_sublist parent)) child' below' child
        (ids_subset inside (id_mem_ids s)) (id_mem_ids s)
      exact absurd (Term.subterms_antisymm inside (same ▸ below')) other

end Tree

namespace Term

variable {ℓ : Type} {name : String} {c : Term ℓ}

theorem entries_of_hides (hidden : hides name c.kind = true) : c.entries = [] := by
  obtain ⟨l, k⟩ := c
  cases k <;> first | rfl | cases hidden

theorem isBlock_of_hides (hidden : hides name c.kind = true) : c.isBlock = false := by
  obtain ⟨l, k⟩ := c
  cases k <;> first | rfl | cases hidden

theorem assignment?_of_hides (hidden : hides name c.kind = true) : c.assignment? = none := by
  obtain ⟨l, k⟩ := c
  cases k <;> first | rfl | cases hidden

theorem hides_strip (name : String) (c : Term ℓ) : hides name (strip c).kind = hides name c.kind := by
  obtain ⟨l, k⟩ := c
  rw [strip_node]
  cases k <;> rfl

end Term

theorem Edit.At.below {t n h c : Tree} {e : Edit} (distinct : t.ids.Nodup) (at' : e.At h)
    (holder : h ∈ t.subterms) (member : n ∈ t.subterms) (unassigned : n.assignment? = none)
    (child : c ∈ n.children) (inside : e.site.node ∈ Tree.ids c) : h ∈ n.subterms := by
  obtain ⟨r, deep, node⟩ := List.mem_map.mp inside
  have deep' : r ∈ n.subterms := Term.mem_subterms_of_child child deep
  have inTree := Term.subterms_trans deep' member
  have other (same : r = n) : False := by
    have less := Term.size_lt_of_mem_children child
    have more := Term.size_le_of_mem_subterms deep
    rw [same] at more
    omega
  have entry {s : Tree} (listed : s ∈ h.children) : s ∈ t.subterms :=
    Term.subterms_trans (Term.child_mem_subterms listed) holder
  rcases at' with ⟨s, listed, site⟩ | ⟨s, listed, a, found, site, -⟩
  · have listed := Term.statement_mem_children listed
    rw [site] at node
    obtain rfl : r = s := List.inj_on_of_nodup_map distinct inTree (entry listed) node
    exact Tree.parent_mem distinct holder member listed deep' other
  · have listed := Term.entry_mem_children listed
    have known := Term.subterms_trans (Term.assignment?_mem_subterms found) (entry listed)
    rw [site] at node
    obtain rfl : r = a := List.inj_on_of_nodup_map distinct inTree known node
    obtain ⟨-, rfl | around⟩ := Term.assignment?_cases found
    · exact Tree.parent_mem distinct holder member listed deep' other
    · have within : r ∈ s.children := by
        simp [Term.children, around, Kind.children, Kind.slots, Slot.children]
      have inside := Tree.parent_mem distinct (entry listed) member within deep' other
      refine Tree.parent_mem distinct holder member listed inside ?_
      rintro rfl
      rw [unassigned] at found
      cases found

theorem Edit.At.site_mem {h c : Tree} {e : Edit} {name : String} (at' : e.At h) (inside : h ∈ c.subterms)
    (hidden : Term.hides name c.kind = true) : ∃ n ∈ c.children, e.site.node ∈ Tree.ids n := by
  have inOwn : e.site.node ∈ Tree.ids h := by
    obtain ⟨s, child, r, below, node⟩ := at'.inside
    exact node ▸ Tree.ids_subset (Term.mem_subterms_of_child child below) (Tree.id_mem_ids r)
  obtain ⟨l, k⟩ := c
  rcases Term.mem_subterms_node.mp inside with rfl | ⟨n, child, below⟩
  · obtain ⟨s, entry⟩ := at'.entry
    rw [Term.entries_of_hides hidden] at entry
    cases entry
  · exact ⟨n, child, Tree.ids_subset below inOwn⟩

namespace LocalVariable

variable (o : Options) (v : LocalVariable)

/-- Whether a block makes a declaration of the variable itself: at its first use, or in the header of
a `for`. -/
def settlesIn (m : Tree) : Bool :=
  (v.declaresAt? o m).isSome || v.passesOn o m && m.statements.any fun s => (v.headerFold? o s).isSome

/-- A block hands the variable on to a statement that is the clause or has it, and the variable ends
up in a block of the clause. -/
def Invades (b c : Tree) : Prop :=
  ∃ m, v.HandedTo o b m ∧ v.passesOn o m = true ∧
    ∃ s ∈ m.statements, v.headerFold? o s = none ∧ c ∈ s.subterms ∧
      ∃ r ∈ s.receivers, r ∈ c.subterms ∧ ∃ q, v.HandedTo o r q ∧ v.settlesIn o q = true

variable {o v} {t b c q : Tree}

theorem HandedTo.enters (handed : v.HandedTo o b q) (distinct : t.ids.Nodup) (start : b ∈ t.subterms)
    (clause : c ∈ t.subterms) (outside : b ∉ c.subterms) (inside : q ∈ c.subterms) :
    ∃ m, v.HandedTo o b m ∧ v.passesOn o m = true ∧
      ∃ s ∈ m.statements, v.headerFold? o s = none ∧ c ∈ s.subterms ∧
        ∃ r ∈ s.receivers, r ∈ c.subterms ∧ v.HandedTo o r q := by
  induction handed with
  | start => exact absurd inside outside
  | @onward m s r handed passes listed unfolded received ih =>
    by_cases before : m ∈ c.subterms
    · obtain ⟨m', handed', passes', s', listed', unfolded', around, r', received', within, rest⟩ :=
        ih before
      exact ⟨m', handed', passes', s', listed', unfolded', around, r', received', within,
        .onward rest passes listed unfolded received⟩
    · refine ⟨m, handed, passes, s, listed, unfolded, ?_, r, received, inside, .start⟩
      have child := Term.statement_mem_children listed
      have holder := Term.subterms_trans handed.mem_subterms start
      have inTree := Term.subterms_trans (Term.child_mem_subterms child) holder
      have common := Term.receiver_mem_subterms received
      rcases Tree.nested_of_common distinct inTree clause (Tree.ids_subset common (Tree.id_mem_ids r))
        (Tree.ids_subset inside (Tree.id_mem_ids r)) with within | around
      · by_cases same : s = c
        · exact same ▸ Term.self_mem_subterms _
        · exact absurd (Tree.parent_mem distinct holder clause child within same) before
      · exact around

theorem Invades.settles (invades : v.Invades o b c) :
    ∃ q, v.HandedTo o b q ∧ q ∈ c.subterms ∧ v.settlesIn o q = true := by
  obtain ⟨m, handed, passes, s, listed, unfolded, -, r, received, within, q, rest, settles⟩ := invades
  exact ⟨q, HandedTo.trans (.onward handed passes listed unfolded received) rest,
    Term.subterms_trans rest.mem_subterms within, settles⟩

theorem HandedTo.invades (handed : v.HandedTo o b q) (distinct : t.ids.Nodup) (start : b ∈ t.subterms)
    (clause : c ∈ t.subterms) (outside : b ∉ c.subterms) (inside : q ∈ c.subterms)
    (settles : v.settlesIn o q = true) : v.Invades o b c := by
  obtain ⟨m, handed, passes, s, listed, unfolded, around, r, received, within, rest⟩ :=
    handed.enters distinct start clause outside inside
  exact ⟨m, handed, passes, s, listed, unfolded, around, r, received, within, q, rest, settles⟩

/- The edits that are made inside a clause are those of the blocks inside it. -/
theorem spread_below (distinct : t.ids.Nodup) (start : b ∈ t.subterms) (clause : c ∈ t.subterms)
    {name : String} (hidden : Term.hides name c.kind = true) :
    (∃ e ∈ v.spread o b, ∃ n ∈ c.children, e.site.node ∈ Tree.ids n) ↔
      ∃ q, v.HandedTo o b q ∧ q ∈ c.subterms ∧ v.settlesIn o q = true := by
  have unassigned := Term.assignment?_of_hides hidden
  constructor
  · rintro ⟨e, planned, n, child, site⟩
    rcases mem_spread.mp planned with ⟨m, point, handed, declares, rfl⟩ |
      ⟨m, s, handed, passes, listed, folds⟩
    · have inTree := Term.subterms_trans handed.mem_subterms start
      have at' := (declareAt_at (o := o) (v := v) (point_mem declares)).1
      exact ⟨m, handed, at'.below distinct inTree clause unassigned child site,
        by simp [settlesIn, declares]⟩
    · have inTree := Term.subterms_trans handed.mem_subterms start
      have known := Term.statement_mem_children listed
      have at' := (headerFold?_at folds).1
      have inside := at'.below distinct (Term.subterms_trans (Term.child_mem_subterms known) inTree)
        clause unassigned child site
      refine ⟨m, handed, Tree.parent_mem distinct inTree clause known inside ?_, ?_⟩
      · rintro rfl
        obtain ⟨init, entry⟩ := at'.entry
        rw [Term.entries_of_hides hidden] at entry
        cases entry
      · rw [settlesIn, passes, Bool.true_and, Bool.or_eq_true, List.any_eq_true]
        exact .inr ⟨s, listed, by rw [folds]; rfl⟩
  · rintro ⟨q, handed, inside, settles⟩
    rw [settlesIn, Bool.or_eq_true, Bool.and_eq_true, List.any_eq_true] at settles
    rcases settles with declares | ⟨passes, s, listed, folds⟩
    · obtain ⟨point, declares⟩ := Option.isSome_iff_exists.mp declares
      have at' := (declareAt_at (o := o) (v := v) (point_mem declares)).1
      exact ⟨_, mem_spread.mpr (.inl ⟨q, point, handed, declares, rfl⟩), at'.site_mem inside hidden⟩
    · obtain ⟨e, folds⟩ := Option.isSome_iff_exists.mp folds
      have within := Term.subterms_trans
        (Term.child_mem_subterms (Term.statement_mem_children listed)) inside
      exact ⟨e, mem_spread.mpr (.inr ⟨q, s, handed, passes, listed, folds⟩),
        (headerFold?_at folds).1.site_mem within hidden⟩

end LocalVariable

namespace Tree

variable {ps : List Patch} {p : Patch} {t b c d h s : Tree} {name : String}

theorem patch_of_new (other : c.isBlock = false) (unassigned : c.assignment? = none)
    (inside : d ∈ (rebuild ps c).subterms) (declaration : d.isDeclaration = true)
    (new : d.id ∉ c.ids) :
    ∃ p ∈ ps, (∃ n ∈ c.children, p.edit.site.node ∈ ids n) ∧
      ∃ note inner init, d = p.declares note inner init := by
  obtain ⟨l, k⟩ := c
  have unfolded : foldedBy? ps (.node l k) = none := by
    rw [foldedBy?, unassigned]
    rfl
  rw [rebuild_other ps l k other unfolded] at inside
  rcases Term.mem_subterms_node.mp inside with rfl | ⟨n', child, below⟩
  · exact absurd (id_mem_ids _) new
  · rw [Kind.children_map, List.mem_map] at child
    obtain ⟨n, child, rfl⟩ := child
    rcases mem_subterms_rebuild below with ⟨q, within, kept, note, rfl⟩ | ⟨-, p, known, site, shape⟩
    · have same : ((rebuild ps q).withNote note).id = id q :=
        (id_withNote note _).trans (congrArg Label.id (label_rebuild ps kept))
      have old : id q ∈ ids (.node l k) :=
        ids_child_subset (t := .node l k) child (ids_subset within (id_mem_ids q))
      exact absurd (same ▸ old) new
    · exact ⟨p, known, ⟨n, child, site⟩, shape declaration⟩

theorem rebuild_entry_listed (entry : s ∈ h.entries) :
    rebuild ps s ∈ (rebuild ps h).kind.listing := by
  obtain ⟨l, k⟩ := h
  rcases rebuild_cases ps l k with ⟨ss, rfl, made⟩ | ⟨other, -, made⟩ | ⟨p, r, op, x, v, found, -⟩
  · rw [made]
    have listed : s ∈ ss := by simpa [Term.entries, Term.kind, Kind.statements, Term.onlyInit?] using entry
    exact mem_rebuildAll.mpr ⟨s, listed, .inr rfl⟩
  · rw [made]
    rcases List.mem_append.mp entry with listed | only
    · have shape : k = .block k.statements := Term.kind_of_statement listed
      rw [shape] at other
      cases other
    · obtain ⟨cond, update, body, shape⟩ := Term.onlyInit?_eq_some.mp (Option.mem_toList.mp only)
      obtain rfl : k = _ := shape
      simp [Term.kind, Kind.map, Kind.listing]
  · rw [Term.assignment?_of_entry entry] at found
    cases found

theorem Made.listed (made : Made ps p) (at' : p.edit.At h) :
    ∃ note inner init, p.declares note inner init ∈ (rebuild ps h).kind.listing := by
  rcases at' with ⟨s, listed, site⟩ | ⟨s, entry, r, found, site, x, value, shape, -⟩
  · refine ⟨{}, { variableId := p.edit.variableId }, none, ?_⟩
    obtain ⟨l, k⟩ := h
    have shape : k = .block k.statements := Term.kind_of_statement listed
    rw [shape, rebuild_block]
    have mine : p.inserted ∈ insertions ps s.id :=
      List.mem_map_of_mem (List.mem_filter.mpr ⟨made.mem, by simpa using site⟩)
    exact mem_rebuildAll.mpr ⟨s, listed, .inl mine⟩
  · have folded : rebuild ps s ∈ (rebuild ps h).kind.listing := rebuild_entry_listed entry
    rw [rebuild_folded ps found shape (made.chosen site)] at folded
    exact ⟨_, _, _, folded⟩

theorem Made.mem_children (made : Made ps p) (at' : p.edit.At h) :
    ∃ note inner init, p.declares note inner init ∈ (rebuild ps h).children := by
  obtain ⟨note, inner, init, listed⟩ := made.listed at'
  exact ⟨note, inner, init, Kind.mem_children_of_listing (List.mem_append_left _ listed)⟩

end Tree

theorem LocalVariable.settles_inside_iff {o : Options} {v : LocalVariable} {t b c : Tree} {name : String}
    (distinct : t.ids.Nodup) (sound : t.Sound) (member : b ∈ t.subterms) (block : b.isBlock = true)
    (clause : c ∈ t.subterms) (hidden : Term.hides name c.kind = true) :
    (∃ q, v.HandedTo o (Term.strip b) q ∧ q ∈ (Term.strip c).subterms ∧ v.settlesIn o q = true) ↔
      (b ∈ c.subterms ∧ ∃ q, v.HandedTo o (Term.strip b) q ∧ v.settlesIn o q = true) ∨
      (c ∈ b.subterms ∧ v.Invades o (Term.strip b) (Term.strip c)) := by
  have left {n m : Tree} (inTree : n ∈ t.subterms) (inside : m ∈ n.subterms)
      (other : m.isDeclarative = false) : Term.strip m ∈ (Term.strip n).subterms :=
    Tree.strip_mem_subterms (sound.below inTree) inside other
  have blockOther := Tree.isDeclarative_of_block block
  have clauseOther := Tree.isDeclarative_of_hides hidden
  constructor
  · rintro ⟨q, handed, inside, settles⟩
    by_cases within : b ∈ c.subterms
    · exact .inl ⟨within, q, handed, settles⟩
    · have inBlock : Tree.id q ∈ b.ids := (Tree.ids_strip b).subset
        (Tree.ids_subset handed.mem_subterms (Tree.id_mem_ids q))
      have inClause : Tree.id q ∈ c.ids :=
        (Tree.ids_strip c).subset (Tree.ids_subset inside (Tree.id_mem_ids q))
      have around := (Tree.nested_of_common distinct member clause inBlock inClause).resolve_left within
      refine .inr ⟨around, handed.invades (distinct.sublist (Tree.ids_strip t))
        (left (Term.self_mem_subterms t) member blockOther)
        (left (Term.self_mem_subterms t) clause clauseOther) ?_ inside settles⟩
      intro outside
      obtain ⟨n, below, same⟩ := Tree.mem_subterms_strip outside
      have ids : b.id = Tree.id n := by rw [← Tree.id_strip b, same, Tree.id_strip]
      obtain rfl : b = n := List.inj_on_of_nodup_map distinct member
        (Term.subterms_trans below clause) ids
      exact within below
  · rintro (⟨within, q, handed, settles⟩ | ⟨-, invades⟩)
    · exact ⟨q, handed, Term.subterms_trans handed.mem_subterms (left clause within blockOther), settles⟩
    · exact invades.settles

namespace Editing.Placed

variable {o : Options} {t c : Tree} {a b : Arena} {ps : List Patch} {stats : Stats} {name : String}

theorem emits_iff_planned (placed : Placed o t a ps stats b) (held : a.Holds t) (sound : t.Sound)
    (clause : c ∈ t.subterms) (hidden : Term.hides name c.kind = true) :
    (∃ c' ∈ (Tree.rebuild ps (Term.strip t)).subterms, Tree.id c' = c.id ∧
        ∃ d ∈ c'.subterms, Tree.declares name d = true ∧ Tree.id d ∉ t.ids) ↔
      ∃ e ∈ t.plan o, e.name = name ∧ ∃ n ∈ (Term.strip c).children, e.site.node ∈ Tree.ids n := by
  obtain ⟨size, grown, applied⟩ := placed.applied
  have hidden' := (Term.hides_strip name c).trans hidden
  have unassigned := Term.assignment?_of_hides hidden'
  have kept : Tree.foldedBy? ps (Term.strip c) = none := by
    rw [Tree.foldedBy?, unassigned]
    rfl
  have inner (x : String) : (Term.strip c).kind ≠ .identifier x := by
    intro shape
    rw [shape] at hidden'
    cases hidden'
  have inTree := Tree.strip_mem_subterms sound clause (Tree.isDeclarative_of_hides hidden)
  -- The clause as the run leaves it.
  obtain ⟨note, image⟩ := Tree.rebuild_mem_subterms applied.foldsVariables inTree kept inner
  have number : ((Tree.rebuild ps (Term.strip c)).withNote note).id = c.id := by
    rw [Tree.id_withNote, ← Tree.id_strip c]
    exact congrArg Label.id (Tree.label_rebuild ps kept)
  have known : c.id ∈ t.ids := Tree.ids_subset clause (Tree.id_mem_ids c)
  constructor
  · rintro ⟨c', left, same, d, inside, declares, new⟩
    obtain rfl := applied.holds.eq_of_id left image (same.trans number.symm)
    rcases Tree.mem_subterms_withNote inside with rfl | inside
    · exact absurd (number ▸ known) new
    · have unknown : Tree.id d ∉ Tree.ids (Term.strip c) := fun old =>
        new (Tree.ids_subset clause ((Tree.ids_strip c).subset old))
      obtain ⟨p, made, site, note, inner, init, rfl⟩ := Tree.patch_of_new
        (Term.isBlock_of_hides hidden') unassigned inside
        (Tree.isDeclaration_of_declares declares) unknown
      refine ⟨p.edit, placed.edit_mem_plan made, ?_, site⟩
      simpa [Patch.declares, Tree.declares, Term.kind, Tree.binds] using declares
  · rintro ⟨e, planned, rfl, n, child, site⟩
    obtain ⟨p, made, same, named⟩ := placed.made_named sound planned
    obtain ⟨h, holder, at'⟩ := applied.fits p made.mem
    have inside := at'.below applied.distinct holder inTree unassigned child (same ▸ site)
    obtain ⟨s, entry⟩ := at'.entry
    obtain ⟨note', below⟩ :=
      Tree.rebuild_mem_of_entry (applied.foldsVariables.below inTree) inside entry
    obtain ⟨note'', below⟩ := Tree.withNote_mem_subterms note below
    obtain ⟨outer, inner, init, declared⟩ := made.mem_children at'
    have under : p.declares outer inner init ∈
        (((Tree.rebuild ps h).withNote note').withNote note'').children := declared
    refine ⟨_, image, number, p.declares outer inner init,
      Term.subterms_trans (Term.child_mem_subterms under) below, ?_, fun old => ?_⟩
    · simp [Patch.declares, Tree.declares, Term.kind, Tree.binds, named]
    · have fresh := applied.fresh _ (Tree.added_of_mem made.mem).1
      have bound : p.declaration.index < a.size := held.index_lt old
      omega

theorem emits_iff (placed : Placed o t a ps stats b) (held : a.Holds t) (sound : t.Sound)
    (clause : c ∈ t.subterms) (hidden : Term.hides name c.kind = true) :
    (∃ c' ∈ (Tree.rebuild ps (Term.strip t)).subterms, Tree.id c' = c.id ∧
        ∃ d ∈ c'.subterms, Tree.declares name d = true ∧ Tree.id d ∉ t.ids) ↔
      ∃ n ∈ t.subterms, ∃ d ∈ Tree.statements n, ∃ v, d.local? = some v ∧ v.name = name ∧
        ((n ∈ c.subterms ∧ ∃ q, v.HandedTo o (Term.strip n) q ∧ v.settlesIn o q = true) ∨
          (c ∈ n.subterms ∧ v.Invades o (Term.strip n) (Term.strip c))) := by
  rw [placed.emits_iff_planned held sound clause hidden]
  have hidden' := (Term.hides_strip name c).trans hidden
  have left {n : Tree} (member : n ∈ t.subterms) (other : n.isDeclarative = false) :
      Term.strip n ∈ (Term.strip t).subterms := Tree.strip_mem_subterms sound member other
  have clause' := left clause (Tree.isDeclarative_of_hides hidden)
  -- What one stripped declaration contributes.
  have each {n d : Tree} {v : LocalVariable} (member : n ∈ t.subterms) (listed : d ∈ n.statements) :
      (∃ e ∈ v.spread o (Term.strip n), ∃ r ∈ (Term.strip c).children, e.site.node ∈ Tree.ids r) ↔
        (n ∈ c.subterms ∧ ∃ q, v.HandedTo o (Term.strip n) q ∧ v.settlesIn o q = true) ∨
          (c ∈ n.subterms ∧ v.Invades o (Term.strip n) (Term.strip c)) := by
    have shape : n.kind = .block n.statements := Term.kind_of_statement listed
    rw [LocalVariable.spread_below (held.distinct.sublist (Tree.ids_strip t))
      (left member (by rw [Tree.isDeclarative, shape])) clause' hidden']
    exact LocalVariable.settles_inside_iff held.distinct sound member
      (by rw [Term.isBlock, shape]; rfl) clause hidden
  constructor
  · rintro ⟨e, planned, rfl, site⟩
    obtain ⟨n, member, v, mine, planned⟩ := Tree.mem_plan.mp planned
    obtain ⟨d, listed, isLocal⟩ := List.mem_filterMap.mp mine
    exact ⟨n, member, d, listed, v, isLocal, (LocalVariable.spread_fits planned).2.2.symm,
      (each member listed).mp ⟨e, planned, site⟩⟩
  · rintro ⟨n, member, d, listed, v, isLocal, rfl, reached⟩
    obtain ⟨e, planned, site⟩ := (each member listed).mpr reached
    exact ⟨e, Tree.mem_plan.mpr ⟨n, member, v, List.mem_filterMap.mpr ⟨d, listed, isLocal⟩, planned⟩,
      (LocalVariable.spread_fits planned).2.2, site⟩

end Editing.Placed

/-- Inside a clause that binds a name, a run makes a declaration of the name exactly if one of the
clause itself was stripped and is needed, or if a block around the clause hands its variable in. -/
theorem Pass.emits_in_clause_iff {p : Pass} {body : Body} {root : NodeId} {before after : Arena}
    (lowered : Arena.ofBody body = (root, before)) (run : (p.run root before).2 = .ok () after)
    {c : Tree} {name : String} (clause : c ∈ (before.view root).subterms)
    (hidden : Term.hides name c.kind = true) :
    (∃ c' ∈ (after.view root).subterms, Tree.id c' = c.id ∧
        ∃ d ∈ c'.subterms, Tree.declares name d = true ∧ Tree.id d ∉ (before.view root).ids) ↔
      ∃ b ∈ (before.view root).subterms, ∃ d ∈ Tree.statements b, ∃ v, d.local? = some v ∧
        v.name = name ∧
        ((b ∈ c.subterms ∧ ∃ q, v.HandedTo p.options (Term.strip b) q ∧
            v.settlesIn p.options q = true) ∨
          (c ∈ b.subterms ∧ v.Invades p.options (Term.strip b) (Term.strip c))) := by
  obtain ⟨t, ps, stats, rfl, held, sound, placed, output⟩ := Pass.placed_of_body lowered run
  rw [output]
  exact placed.emits_iff held sound clause hidden

/-- `int v; if (c) { v = 1; use(v); } for (int v : xs) { use(v); }` -/
def Body.rebound : Body :=
  .braces [.declareInt "v", .when "c" [.setOne "v", .use "v"], .forEachInt "v" "xs" [.use "v"]]

def Tree.bodyOfRebound : Tree :=
  shown 16 (.block [shown 15 (.expressionStatement (shown 14
    (.invocation none "use" [shown 13 (.identifier "v")])))])

def Tree.clauseOfRebound : Tree :=
  shown 17 (.forEach (.primitive .int) "v" (shown 12 (.identifier "xs")) bodyOfRebound)

def Tree.declarationOfRebound : Tree :=
  shown 1 (.declaration (.primitive .int) [shown 0 (.binding "v" none)] false)

def Tree.ofRebound : Tree :=
  shown 18 (.block [declarationOfRebound, branchOfTwice 2, clauseOfRebound])

theorem Arena.view_rebound :
    (Arena.ofBody .rebound).2.view (Arena.ofBody .rebound).1 = Tree.ofRebound := by cbv

/- The clause gets a declaration of the name that it binds itself. -/
theorem Pass.emits_in_clause_rebound :
    ∃ c' ∈ ((Pass.outcome {} (Arena.ofBody .rebound).1 (Arena.ofBody .rebound).2).view
        (Arena.ofBody .rebound).1).subterms, Tree.id c' = ⟨17⟩ ∧
      ∃ d ∈ c'.subterms, Tree.declares "v" d = true ∧
        Tree.id d ∉ ((Arena.ofBody .rebound).2.view (Arena.ofBody .rebound).1).ids := by
  have ran : (Pass.run {} (Arena.ofBody .rebound).1 (Arena.ofBody .rebound).2).2 = .ok () _ :=
    Pass.run_outcome (by decide +kernel)
  have view := Arena.view_rebound
  have listed : Tree.clauseOfRebound ∈ Tree.ofRebound.children := by
    simp [Tree.ofRebound, Tree.shown, Term.children, Term.kind]
  have member : Tree.clauseOfRebound ∈
      ((Arena.ofBody .rebound).2.view (Arena.ofBody .rebound).1).subterms :=
    view ▸ Term.child_mem_subterms listed
  refine (Pass.emits_in_clause_iff Prod.mk.eta.symm ran member rfl).mpr
    ⟨_, Term.self_mem_subterms _, Tree.declarationOfRebound, ?_, ⟨.primitive .int, "v", none⟩, rfl, rfl,
      .inr ⟨member, ?_⟩⟩
  · rw [view]
    exact List.mem_cons_self
  · rw [view]
    refine ⟨_, .start, by decide +kernel, Tree.clauseOfRebound, ?_, by decide +kernel,
      Term.self_mem_subterms _, Tree.bodyOfRebound, ?_, ?_, Tree.bodyOfRebound, .start, by decide +kernel⟩
    · have kept : Term.strip Tree.ofRebound =
          Tree.shown 18 (.block [Tree.branchOfTwice 2, Tree.clauseOfRebound]) := by rfl
      rw [kept]
      exact List.mem_cons_of_mem _ List.mem_cons_self
    · exact List.mem_singleton_self _
    · exact Term.child_mem_subterms (List.mem_cons_of_mem _ List.mem_cons_self)

end LocalScope
