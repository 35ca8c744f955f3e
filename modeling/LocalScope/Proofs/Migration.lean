import LocalScope.Proofs.Reports

/-! Does a value get lost when a variable is split into several? Between two statements of a block it
is not, because the rest of the block is looked at before the variable is handed on. But the blocks in
a bare block run one after the other, and what one of them assigns does not reach the next. -/
namespace LocalScope

namespace Tree

/-- The name has one declaration only, a statement of a block, and nothing else binds it. -/
structure DeclaredOnce (t b d : Tree) (name : String) : Prop where
  member : b ∈ t.subterms
  listed : d ∈ b.statements
  named : d.declares name = true
  only : ∀ n ∈ t.subterms, binds name n = true → n ∈ d.children
  visible : ∀ n ∈ t.subterms, Term.hides name n.kind = false

namespace DeclaredOnce

variable {t b d : Tree} {name : String} {v : LocalVariable}

theorem eq_of_declares (once : DeclaredOnce t b d name) (distinct : t.ids.Nodup) {n : Tree}
    (inside : n ∈ t.subterms) (declares : n.declares name = true) : n = d := by
  obtain ⟨l, k⟩ := n
  cases k with
  | declaration ty bindings isFinal =>
    obtain ⟨c, listed, binds⟩ := List.any_eq_true.mp declares
    have child : c ∈ (Term.node l (.declaration ty bindings isFinal)).children := by
      simpa [Term.children, Term.kind, Kind.children, Kind.slots, Slot.children] using listed
    have known := once.only c (Term.subterms_trans (Term.child_mem_subterms child) inside) binds
    have deep := Term.subterms_trans
      (Term.child_mem_subterms (Term.statement_mem_children once.listed)) once.member
    exact parent_unique distinct inside deep child known
  | _ => cases declares

theorem local?_eq (once : DeclaredOnce t b d name) (sound : t.Sound) :
    ∃ v, d.local? = some v ∧ v.name = name := by
  obtain ⟨v, known⟩ := Option.isSome_iff_exists.mp
    (sound b once.member d once.listed (isDeclaration_of_declares once.named))
  exact ⟨v, known, name_of_declares known once.named⟩

theorem of_all {c : Tree} (distinct : t.ids.Nodup) (member : b ∈ t.subterms) (listed : d ∈ b.statements)
    (named : d.declares name = true) (bound : c ∈ d.children)
    (only : (t.subterms.all fun n => !binds name n || id n == id c) = true)
    (visible : (t.subterms.all fun n => !Term.hides name n.kind) = true) : DeclaredOnce t b d name where
  member := member
  listed := listed
  named := named
  only n inside isBinding := by
    have same := List.all_eq_true.mp only n inside
    rw [isBinding, Bool.not_true, Bool.false_or, beq_iff_eq] at same
    have deep := Term.subterms_trans (Term.child_mem_subterms bound)
      (Term.subterms_trans (Term.child_mem_subterms (Term.statement_mem_children listed)) member)
    rwa [List.inj_on_of_nodup_map distinct inside deep same]
  visible n inside := by simpa using List.all_eq_true.mp visible n inside

theorem steady (once : DeclaredOnce t b d name) (known : d.local? = some v)
    (straight : ∀ n ∈ t.subterms, n.kind.isJump = false) : Flow.Steady name (Term.strip b) := by
  intro m inside
  obtain ⟨n, below, rfl⟩ := mem_subterms_strip inside
  have inTree := Term.subterms_trans below once.member
  have visible := once.visible n inTree
  have straight := straight n inTree
  have bound := once.only n inTree
  obtain ⟨l, k⟩ := n
  rw [Term.strip_node]
  cases k with
  | identifier x =>
    refine ⟨rfl, ?_⟩
    by_cases same : x = name
    · exact .inl (by rw [same]; rfl)
    · exact .inr (by simp [Term.kind, Kind.map, Term.withoutDeclarations, Flow.neutral, same])
  | binding x init =>
    refine ⟨rfl, .inr ?_⟩
    cases init with
    | none => rfl
    | some value =>
      refine bne_iff_ne.mpr fun same => ?_
      have child := bound (by simp [binds, Term.kind, same])
      obtain ⟨l', l'', isFinal, rfl, -⟩ := eq_of_local known
      simp [Term.children, Term.kind, Kind.children, Kind.slots, Slot.children] at child
  | _ => exact ⟨visible, .inr (by first | rfl | cases straight)⟩

end DeclaredOnce

end Tree

theorem Tree.id_rebuilt {n s : Tree} (ps : List Patch) (note : Annotation) (entry : s ∈ n.entries) :
    ((rebuild ps n).withNote note).id = n.id :=
  (id_withNote note _).trans (congrArg Label.id (label_rebuild ps (foldedBy?_of_entry ps entry)))

/-- Somewhere a bare block receives the variable, and a block in it reads what it has not assigned
itself. -/
def LocalVariable.Separates (o : Options) (v : LocalVariable) (b : Tree) : Prop :=
  ∃ m, v.HandedTo o b m ∧ v.passesOn o m = true ∧ ∃ s ∈ m.statements, s.isBlock = true ∧
    ∃ r ∈ Tree.statements s, r.isBlock = true ∧ Flow.opens v.name r = true

theorem LocalVariable.Separates.declares {o : Options} {v : LocalVariable} {b : Tree}
    (separates : v.Separates o b) (block : b.isBlock = true) (placed : b.wellPlaced .statement = true)
    (steady : Flow.Steady v.name b) :
    ∃ m point, v.HandedTo o b m ∧ v.declaresAt? o m = some point ∧ v.pointFold? o point = none ∧
      Flow.opens v.name m = true := by
  obtain ⟨m, handed, passes, s, listed, bare, r, mine, inBlock, opens⟩ := separates
  have received : r ∈ s.receivers := by
    rw [Term.receivers_block (Term.placed_of_statement (handed.placed block placed) listed) bare]
    exact List.mem_filter.mpr ⟨mine, inBlock⟩
  have unfolded : v.headerFold? o s = none := by
    obtain ⟨l, k⟩ := s
    cases k with
    | block ss =>
      rw [headerFold?]
      split <;> rfl
    | _ => cases bare
  exact (HandedTo.onward handed passes listed unfolded received).declares_of_opens block placed steady
    opens

namespace Editing.Placed

variable {o : Options} {t b d m point : Tree} {a c : Arena} {ps : List Patch} {stats : Stats}
  {v : LocalVariable} {p : Patch}

theorem quiet_iff (placed : Placed o t a ps stats c) (ordered : t.wellPlaced .statement = true)
    (inTree : Term.strip b ∈ (Term.strip t).subterms) (block : b.isBlock = true)
    (steady : Flow.Steady v.name (Term.strip b)) (handed : v.HandedTo o (Term.strip b) m)
    (declares : v.declaresAt? o m = some point) (known : p ∈ ps)
    (site : p.edit.site = .before point.id) {note : Annotation}
    (left : (m.rebuild ps).withNote note ∈ (Tree.rebuild ps (Term.strip t)).subterms) (root : NodeId) :
    Subject.exposed ⟨root, some ⟨p.inserted.id, m.id⟩⟩ c v.name = .ok [] ↔
      Flow.opens v.name m = false := by
  obtain ⟨size, -, applied⟩ := placed.applied
  have inside := Term.subterms_trans handed.mem_subterms inTree
  have isBlock : m.isBlock = true := handed.isBlock (by rw [Term.isBlock_strip, block])
  obtain ⟨place, inner⟩ := Term.wellPlaced_below (Term.wellPlaced_strip ordered) inside
  obtain ⟨first, last, split, opens⟩ := LocalVariable.opens_from_point
    (steady.below handed.mem_subterms) isBlock (LocalVariable.find?_of_declaresAt declares)
  have name := Tree.id_rebuilt ps note (List.mem_append_left _ (LocalVariable.point_mem declares))
  rw [Subject.exposed_nil (applied.holds.below left) ⟨root, some ⟨p.inserted.id, m.id⟩⟩ v.name name.symm]
  simp only [Subject.statements]
  rw [applied.walk_from_inserted inside isBlock (Term.wellPlaced_block inner isBlock) split known site
    left, opens]

theorem origin (placed : Placed o t a ps stats c) (held : a.Holds t)
    (once : Tree.DeclaredOnce t b d v.name) (isLocal : d.local? = some v) (known : p ∈ ps)
    (named : p.edit.name = v.name) : p.edit ∈ v.spread o (Term.strip b) := by
  obtain ⟨b', inside, v', declared, planned⟩ := Tree.mem_plan.mp (placed.edit_mem_plan known)
  obtain ⟨d', listed, isLocal'⟩ := List.mem_filterMap.mp declared
  have same : v'.name = v.name := by rw [← (LocalVariable.spread_fits planned).2.2, named]
  have deep := Term.subterms_trans (Term.child_mem_subterms (Term.statement_mem_children listed)) inside
  obtain rfl := once.eq_of_declares held.distinct deep (same ▸ Tree.declares_of_local isLocal')
  obtain rfl := Tree.parent_unique held.distinct inside once.member
    (Term.statement_mem_children listed) (Term.statement_mem_children once.listed)
  obtain rfl : v = v' := by simpa [isLocal] using isLocal'
  exact planned

theorem inserted_at (placed : Placed o t a ps stats c) (once : Tree.DeclaredOnce t b d v.name)
    (isLocal : d.local? = some v) (inTree : Term.strip b ∈ (Term.strip t).subterms)
    (block : (Term.strip b).isBlock = true) (handed : v.HandedTo o (Term.strip b) m)
    (declares : v.declaresAt? o m = some point) (unfolded : v.pointFold? o point = none) :
    ∃ p ∈ ps, p.edit.site = .before point.id ∧ p.inserted.declares v.name = true ∧
      ∃ note, (m.rebuild ps).withNote note ∈ (Tree.rebuild ps (Term.strip t)).subterms ∧
        p.inserted ∈ ((m.rebuild ps).withNote note).statements := by
  obtain ⟨size, -, applied⟩ := placed.applied
  obtain ⟨planned, insertion⟩ :=
    LocalVariable.insertion_mem_spread.mpr ⟨m, point, handed, declares, unfolded, rfl⟩
  obtain ⟨p, made, site, edit⟩ := placed.made (Tree.mem_plan.mpr
    ⟨b, once.member, v, List.mem_filterMap.mpr ⟨d, once.listed, isLocal⟩, planned⟩)
  refine ⟨p, made.mem, site, ?_, applied.inserted_mem (Term.subterms_trans handed.mem_subterms inTree)
    (handed.isBlock block) (LocalVariable.point_mem declares) made.mem site⟩
  rw [Patch.inserted, edit insertion]
  simp [Patch.declares, Tree.declares, Tree.binds, Term.kind, LocalVariable.insertBefore, edit insertion]

theorem point_of_uninitialized (placed : Placed o t a ps stats c) (held : a.Holds t)
    (once : Tree.DeclaredOnce t b d v.name) (isLocal : d.local? = some v)
    (inTree : Term.strip b ∈ (Term.strip t).subterms) {n d' : Tree}
    (inside : n ∈ (Tree.rebuild ps (Term.strip t)).subterms) (listed : d' ∈ n.statements)
    (valueless : d'.isUninitialized = true) (named : d'.declares v.name = true) :
    ∃ m point, v.HandedTo o (Term.strip b) m ∧ v.declaresAt? o m = some point ∧
      (∃ note, n = (m.rebuild ps).withNote note) ∧
      ∃ p ∈ ps, p.edit.site = .before point.id ∧ d' = p.inserted := by
  obtain ⟨size, -, applied⟩ := placed.applied
  obtain ⟨q, below, note, rfl, isBlock, s, mine, p, known, site, rfl⟩ :=
    Tree.inserted_of_uninitialized inside listed valueless
  have named : p.edit.name = v.name := by
    simpa [Patch.inserted, Patch.declares, Tree.declares, Tree.binds, Term.kind] using named
  have planned := placed.origin held once isLocal known named
  obtain ⟨m, point, handed, declares, unfolded, made⟩ :=
    LocalVariable.insertion_mem_spread.mp ⟨planned, by simp [Edit.isInsertion, site]⟩
  have first := LocalVariable.point_mem declares
  have inside' := Term.subterms_trans handed.mem_subterms inTree
  have anchor : point.id = s.id := by
    rw [made] at site
    exact Site.before.inj site
  obtain rfl : point = s := List.inj_on_of_nodup_map applied.distinct
    (Term.subterms_trans (Term.child_mem_subterms (Term.statement_mem_children first)) inside')
    (Term.subterms_trans (Term.child_mem_subterms (Term.statement_mem_children mine)) below) anchor
  obtain rfl := Tree.parent_unique applied.distinct inside' below
    (Term.statement_mem_children first) (Term.statement_mem_children mine)
  exact ⟨m, point, handed, declares, ⟨note, rfl⟩, p, known, site, rfl⟩

theorem quiet_iff_not_separates (placed : Placed o t a ps stats c) (held : a.Holds t) (sound : t.Sound)
    (ordered : t.wellPlaced .statement = true)
    (straight : ∀ n ∈ t.subterms, n.kind.isJump = false) (once : Tree.DeclaredOnce t b d v.name)
    (isLocal : d.local? = some v) (closed : Flow.opens v.name (Term.strip b) = false) (root : NodeId) :
    (∀ n ∈ (Tree.rebuild ps (Term.strip t)).subterms, ∀ d' ∈ Tree.statements n,
      d'.isUninitialized = true → d'.declares v.name = true →
        Subject.exposed ⟨root, some ⟨d'.id, Tree.id n⟩⟩ c v.name = .ok []) ↔
      ¬ v.Separates o (Term.strip b) := by
  have block : b.isBlock = true := by
    rw [Term.isBlock, Term.kind_of_statement once.listed]
    rfl
  have stripped : (Term.strip b).isBlock = true := by rw [Term.isBlock_strip, block]
  have steady := once.steady isLocal straight
  have inTree := Tree.strip_mem_subterms sound once.member (Tree.isDeclarative_of_block block)
  obtain ⟨place, inner⟩ := Term.wellPlaced_below (Term.wellPlaced_strip ordered) inTree
  have placedBlock := Term.wellPlaced_block inner stripped
  constructor
  · intro quiet separates
    obtain ⟨m, point, handed, declares, unfolded, opens⟩ := separates.declares stripped placedBlock steady
    obtain ⟨p, known, site, named, note, left, listed⟩ :=
      placed.inserted_at once isLocal inTree stripped handed declares unfolded
    have reported := quiet _ left p.inserted listed rfl named
    rw [Tree.id_rebuilt ps note (List.mem_append_left _ (LocalVariable.point_mem declares))] at reported
    rw [(placed.quiet_iff ordered inTree block steady handed declares known site left root).mp
      reported] at opens
    cases opens
  · intro together n inside d' listed valueless named
    obtain ⟨m, point, handed, declares, ⟨note, rfl⟩, p, known, site, rfl⟩ :=
      placed.point_of_uninitialized held once isLocal inTree inside listed valueless named
    rw [Tree.id_rebuilt ps note (List.mem_append_left _ (LocalVariable.point_mem declares))]
    refine (placed.quiet_iff ordered inTree block steady handed declares known site inside root).mpr ?_
    -- Only through a bare block can a closed block hand the variable on to an open one.
    refine handed.closed stripped placedBlock steady closed fun m' handed' passes r listed' bare q mine'
      inBlock => ?_
    by_contra opens
    exact together ⟨m', handed', passes, r, listed', bare, q, mine', inBlock, by simpa using opens⟩

end Editing.Placed

/-- In code that control goes straight through, a variable that is never read unassigned is split into
variables that are never read unassigned, exactly if no bare block separates a value from its use. -/
theorem Pass.quiet_unless_separated {p : Pass} {body : Body} {root : NodeId} {before after : Arena}
    (lowered : Arena.ofBody body = (root, before)) (run : (p.run root before).2 = .ok () after)
    {b d : Tree} {name : String} (ordered : (before.view root).wellPlaced .statement = true)
    (straight : ∀ n ∈ (before.view root).subterms, n.kind.isJump = false)
    (once : Tree.DeclaredOnce (before.view root) b d name)
    (closed : Flow.opens name (Term.strip b) = false) :
    ∃ v, d.local? = some v ∧
      ((∀ n ∈ (after.view root).subterms, ∀ d' ∈ Tree.statements n, d'.isUninitialized = true →
          d'.declares name = true →
            Subject.exposed ⟨root, some ⟨d'.id, Tree.id n⟩⟩ after name = .ok []) ↔
        ¬ v.Separates p.options (Term.strip b)) := by
  obtain ⟨t, ps, stats, rfl, held, sound, placed, output⟩ := Pass.placed_of_body lowered run
  obtain ⟨v, isLocal, rfl⟩ := once.local?_eq sound
  refine ⟨v, isLocal, ?_⟩
  rw [output]
  exact placed.quiet_iff_not_separates held sound ordered straight once isLocal closed root

/-- `int v; { { v = 1; } { use(v); } }` -/
def Body.apart : Body :=
  .braces [.declareInt "v", .braces [.braces [.setOne "v"], .braces [.use "v"]]]

def Tree.useOfApart : Tree :=
  shown 10 (.block [shown 9 (.expressionStatement (shown 8
    (.invocation none "use" [shown 7 (.identifier "v")])))])

def Tree.bareOfApart : Tree :=
  shown 11 (.block [shown 6 (.block [shown 5 (.expressionStatement (shown 4 (.assignment .plain
    (shown 2 (.identifier "v")) (shown 3 (.literal (.int 1))))))]), useOfApart])

def Tree.declarationOfApart : Tree :=
  shown 1 (.declaration (.primitive .int) [shown 0 (.binding "v" none)] false)

def Tree.ofApart : Tree := shown 12 (.block [declarationOfApart, bareOfApart])

theorem Arena.view_apart : (Arena.ofBody .apart).2.view (Arena.ofBody .apart).1 = Tree.ofApart := by cbv

/- The declaration of the second block is without the value that the first one assigns. -/
theorem Pass.separated_apart :
    ¬ ∀ n ∈ ((Pass.outcome {} (Arena.ofBody .apart).1 (Arena.ofBody .apart).2).view
        (Arena.ofBody .apart).1).subterms, ∀ d' ∈ Tree.statements n, d'.isUninitialized = true →
      d'.declares "v" = true →
        Subject.exposed ⟨(Arena.ofBody .apart).1, some ⟨d'.id, Tree.id n⟩⟩
          (Pass.outcome {} (Arena.ofBody .apart).1 (Arena.ofBody .apart).2) "v" = .ok [] := by
  have ran : (Pass.run {} (Arena.ofBody .apart).1 (Arena.ofBody .apart).2).2 = .ok () _ :=
    Pass.run_outcome (by decide +kernel)
  have straight : ∀ n ∈ Tree.ofApart.subterms, n.kind.isJump = false := by
    have none : (Tree.ofApart.subterms.all fun n => !n.kind.isJump) = true := by decide +kernel
    intro n inside
    simpa using List.all_eq_true.mp none n inside
  have once : Tree.DeclaredOnce Tree.ofApart Tree.ofApart Tree.declarationOfApart "v" :=
    .of_all (by decide +kernel) (Term.self_mem_subterms _) List.mem_cons_self (by decide)
      List.mem_cons_self (by decide +kernel) (by decide +kernel)
  have separates : LocalVariable.Separates {} ⟨.primitive .int, "v", none⟩ (Term.strip Tree.ofApart) :=
    ⟨_, .start, by decide +kernel, Tree.bareOfApart, List.mem_cons_self, rfl, Tree.useOfApart,
      List.mem_cons_of_mem _ List.mem_cons_self, rfl, by decide +kernel⟩
  have view := Arena.view_apart
  obtain ⟨v, isLocal, quiet⟩ := Pass.quiet_unless_separated Prod.mk.eta.symm ran
    (by rw [view]; decide +kernel) (by rwa [view]) (by rwa [view]) (by decide +kernel)
  obtain rfl : _ = v := Option.some.inj isLocal
  exact fun silent => quiet.mp silent separates

end LocalScope
