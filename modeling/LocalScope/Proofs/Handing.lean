import LocalScope.Proofs.Confinement
import LocalScope.Proofs.Covering

namespace LocalScope

namespace LocalVariable

variable (o : Options) (v : LocalVariable)

/-- Whether a block uses the variable and hands it on. -/
def passesOn (m : Tree) : Bool := m.statements.any (Term.uses v.name) && v.moves o m

/-- The first use in a block that declares the variable itself. -/
def declaresAt? (m : Tree) : Option Tree :=
  if v.moves o m then none else m.statements.find? (Term.uses v.name)

/-- The blocks that the variable is handed on to, the first one included. -/
inductive HandedTo (start : Tree) : Tree → Prop
  | start : HandedTo start start
  | onward {m s r : Tree} (handed : HandedTo start m) (passes : v.passesOn o m = true)
      (listed : s ∈ m.statements) (unfolded : v.headerFold? o s = none)
      (received : r ∈ s.receivers) : HandedTo start r

variable {o v} {b m r : Tree}

theorem HandedTo.trans (first : v.HandedTo o b m) (second : v.HandedTo o m r) :
    v.HandedTo o b r := by
  induction second with
  | start => exact first
  | onward handed passes listed unfolded received ih =>
    exact .onward ih passes listed unfolded received

theorem HandedTo.mem_subterms (handed : v.HandedTo o b m) : m ∈ b.subterms := by
  induction handed with
  | start => exact Term.self_mem_subterms b
  | onward handed passes listed unfolded received ih =>
    exact Term.subterms_trans (Term.mem_subterms_of_child (Term.statement_mem_children listed)
      (Term.receiver_mem_subterms received)) ih

theorem HandedTo.isBlock (handed : v.HandedTo o b m) (block : b.isBlock = true) :
    m.isBlock = true := by
  cases handed with
  | start => exact block
  | onward handed passes listed unfolded received => exact (Term.receiver_cases received).1

theorem find?_of_declaresAt {point : Tree} (declares : v.declaresAt? o m = some point) :
    m.statements.find? (Term.uses v.name) = some point := by
  rw [declaresAt?] at declares
  split at declares
  · cases declares
  · exact declares

theorem stays_of_declaresAt {point : Tree} (declares : v.declaresAt? o m = some point) :
    v.moves o m = false := by
  rw [declaresAt?] at declares
  split at declares
  · cases declares
  · rename_i stays
    exact Bool.eq_false_of_not_eq_true stays

theorem point_mem {point : Tree} (declares : v.declaresAt? o m = some point) : point ∈ m.statements :=
  List.mem_of_find?_eq_some (find?_of_declaresAt declares)

theorem spread_passed (passes : v.passesOn o m = true) :
    v.spread o m = m.statements.flatMap (v.spreadOver o) := by
  rw [passesOn, Bool.and_eq_true] at passes
  obtain ⟨point, found⟩ := Option.isSome_iff_exists.mp
    (List.find?_isSome.mpr (List.any_eq_true.mp passes.1))
  rw [spread_eq, found]
  exact if_pos passes.2

theorem spread_declared {point : Tree} (declares : v.declaresAt? o m = some point) :
    v.spread o m = [v.declareAt o point] := by
  rw [declaresAt?] at declares
  split at declares
  · cases declares
  · rename_i stays
    rw [spread_eq, declares]
    exact if_neg stays

theorem spread_unused (stays : v.passesOn o m = false) (none : v.declaresAt? o m = none) :
    v.spread o m = [] := by
  have unused : m.statements.find? (Term.uses v.name) = Option.none := by
    rw [declaresAt?] at none
    split at none
    · rename_i moves
      rw [passesOn, moves, Bool.and_true, List.any_eq_false] at stays
      exact List.find?_eq_none.mpr stays
    · exact none
  rw [spread_eq, unused]

/-- The edits of a variable are those of the blocks that it is handed on to: a declaration at the
first use, or one in the header of a `for`. -/
theorem mem_spread {e : Edit} :
    e ∈ v.spread o b ↔
      (∃ m point, v.HandedTo o b m ∧ v.declaresAt? o m = some point ∧ e = v.declareAt o point) ∨
      ∃ m s, v.HandedTo o b m ∧ v.passesOn o m = true ∧ s ∈ m.statements ∧
        v.headerFold? o s = some e := by
  constructor
  · intro planned
    induction b using Term.inductSmaller with
    | step b smaller =>
      cases passes : v.passesOn o b with
      | true =>
        rw [spread_passed passes] at planned
        obtain ⟨s, listed, planned⟩ := List.mem_flatMap.mp planned
        rw [spreadOver] at planned
        cases folds : v.headerFold? o s with
        | some e' =>
          rw [folds] at planned
          obtain rfl := List.mem_singleton.mp planned
          exact .inr ⟨b, s, .start, passes, listed, folds⟩
        | none =>
          rw [folds] at planned
          obtain ⟨r, received, planned⟩ := List.mem_flatMap.mp planned
          have less := (Term.size_receiver_lt received).trans
            (Term.size_lt_of_mem_children (Term.statement_mem_children listed))
          have first : v.HandedTo o b r := .onward .start passes listed folds received
          rcases smaller r less planned with ⟨m, point, handed, rest⟩ | ⟨m, s', handed, rest⟩
          · exact .inl ⟨m, point, first.trans handed, rest⟩
          · exact .inr ⟨m, s', first.trans handed, rest⟩
      | false =>
        cases declares : v.declaresAt? o b with
        | some point =>
          rw [spread_declared declares, List.mem_singleton] at planned
          exact .inl ⟨b, point, .start, declares, planned⟩
        | none =>
          rw [spread_unused passes declares] at planned
          cases planned
  · have carried {m : Tree} (handed : v.HandedTo o b m) : v.spread o m ⊆ v.spread o b := by
      induction handed with
      | start => exact fun _ => id
      | @onward m s r handed passes listed unfolded received ih =>
        intro e planned
        apply ih
        rw [spread_passed passes, List.mem_flatMap]
        refine ⟨s, listed, ?_⟩
        rw [spreadOver, unfolded]
        exact List.mem_flatMap.mpr ⟨r, received, planned⟩
    rintro (⟨m, point, handed, declares, rfl⟩ | ⟨m, s, handed, passes, listed, folds⟩)
    · exact carried handed (by simp [spread_declared declares])
    · apply carried handed
      rw [spread_passed passes, List.mem_flatMap]
      exact ⟨s, listed, by simp [spreadOver, folds]⟩

theorem not_insertion_of_pointFold {s : Tree} {e : Edit} (folds : v.pointFold? o s = some e) :
    e.isInsertion = false := by
  rw [pointFold?] at folds
  split at folds
  · obtain ⟨found, -, rfl⟩ := Option.map_eq_some_iff.mp folds
    rfl
  · cases folds

theorem not_insertion_of_headerFold {s : Tree} {e : Edit} (folds : v.headerFold? o s = some e) :
    e.isInsertion = false := by
  rw [headerFold?] at folds
  split at folds
  · obtain ⟨found, -, rfl⟩ := Option.map_eq_some_iff.mp folds
    rfl
  · cases folds

theorem insertion_mem_spread {e : Edit} :
    (e ∈ v.spread o b ∧ e.isInsertion = true) ↔
      ∃ m point, v.HandedTo o b m ∧ v.declaresAt? o m = some point ∧ v.pointFold? o point = none ∧
        e = v.insertBefore point := by
  rw [mem_spread]
  constructor
  · rintro ⟨⟨m, point, handed, declares, rfl⟩ | ⟨m, s, -, -, -, folds⟩, insertion⟩
    · cases folds : v.pointFold? o point with
      | none => exact ⟨m, point, handed, declares, folds, by rw [declareAt, folds]; rfl⟩
      | some e =>
        rw [declareAt, folds, Option.getD_some, not_insertion_of_pointFold folds] at insertion
        cases insertion
    · rw [not_insertion_of_headerFold folds] at insertion
      cases insertion
  · rintro ⟨m, point, handed, declares, unfolded, rfl⟩
    exact ⟨.inl ⟨m, point, handed, declares, by rw [declareAt, unfolded]; rfl⟩, rfl⟩

end LocalVariable

namespace Flow

variable {ℓ : Type} {name : String}

theorem opens_block {t : Term ℓ} (block : t.isBlock = true) :
    opens name t = (walkAll name .statement t.kind.statements false).exposed := by
  obtain ⟨l, k⟩ := t
  cases k with
  | block ss => rfl
  | _ => cases block

/- Once assigned the variable stays so: what reads it unassigned does so on its own. -/
theorem exists_opens {ss : List (Term ℓ)}
    (exposed : (walkAll name .statement ss false).exposed = true) :
    ∃ s ∈ ss, opens name s = true := by
  induction ss with
  | nil => cases exposed
  | cons s rest ih =>
    rw [walkAll, andThen, Bool.or_eq_true] at exposed
    rcases exposed with now | later
    · exact ⟨s, by simp, now⟩
    · cases state : (walk name .statement s false).assigned with
      | true =>
        rw [state, walkAll_assigned] at later
        cases later
      | false =>
        rw [state] at later
        obtain ⟨r, listed, opened⟩ := ih later
        exact ⟨r, List.mem_cons_of_mem s listed, opened⟩

theorem not_opens_of_handsOn {ss : List Tree} {intoLoops : Bool}
    (hands : Tree.handsOn name intoLoops ss = true) (steady : ∀ s ∈ ss, Steady name s)
    (closed : (walkAll name .statement ss false).exposed = false) :
    ∀ s ∈ ss, opens name s = false := by
  induction ss with
  | nil => exact fun s listed => by cases listed
  | cons s rest ih =>
    rw [Tree.handsOn, Bool.and_eq_true] at hands
    rw [walkAll, andThen, Bool.or_eq_false_iff] at closed
    have after : (walkAll name .statement rest false).exposed = false := by
      cases used : s.uses name with
      | true =>
        have first := hands.1
        rw [used, Bool.not_true, Bool.false_or, Bool.and_eq_true, Bool.not_eq_true'] at first
        exact first.2
      | false =>
        have passed := (steady s (by simp)).walk_unused used .statement false
        rw [passed] at closed
        exact closed.2
    intro r listed
    rcases List.mem_cons.mp listed with rfl | later
    · exact closed.1
    · exact ih hands.2 (fun s known => steady s (List.mem_cons_of_mem _ known)) after r later

theorem closed_of_absorbable {t : Term ℓ} {found : Term ℓ × Term ℓ} (steady : Steady name t)
    (absorbs : t.absorbable? name = some found) : walk name .statement t false = ⟨true, false⟩ := by
  obtain ⟨a, x⟩ := found
  obtain ⟨e, assigned, shape, named, unused⟩ := Term.absorbable?_eq_some.mp absorbs
  obtain ⟨l, k⟩ := a
  rw [Term.kind] at shape
  subst shape
  have inside : e ∈ (Term.node l (.assignment .plain x e)).children := by
    simp [Term.children, Term.kind, Kind.children, Kind.slots, Slot.children]
  have value : (walk name .expression e false).exposed = false := by
    rw [((steady.below (Term.assignment?_mem_subterms assigned)).below
      (Term.child_mem_subterms inside)).walk_unused unused]
    rfl
  have here (p : Position) : walk name p (.node l (.assignment .plain x e)) false = ⟨true, false⟩ := by
    cases p <;> simp [walk, named, value]
  obtain ⟨-, rfl | around⟩ := Term.assignment?_cases assigned
  · exact here .statement
  · obtain ⟨lt, kt⟩ := t
    rw [Term.kind] at around
    subst around
    exact here .expression

end Flow

namespace LocalVariable

variable {o : Options} {v : LocalVariable} {b m r s : Tree}

theorem HandedTo.placed (handed : v.HandedTo o b m) (block : b.isBlock = true)
    (placed : b.wellPlaced .statement = true) : m.wellPlaced .statement = true := by
  obtain ⟨place, inner⟩ := Term.wellPlaced_below placed handed.mem_subterms
  exact Term.wellPlaced_block inner (handed.isBlock block)

theorem leaves_of_passed (passes : v.passesOn o m = true) (listed : s ∈ m.statements)
    (used : s.uses v.name = true) (unfolded : v.headerFold? o s = none) :
    s.children.all (Term.leavesToBlocks v.name) = true := by
  rw [passesOn, Bool.and_eq_true] at passes
  have moves := passes.2
  have noHeader := noHeader_of_moves moves listed used unfolded
  rw [LocalVariable.moves, Bool.and_eq_true] at moves
  have confined := Tree.confines_of_handsOn moves.1 listed used
  rw [Term.confines, noHeader] at confined
  split at confined
  · cases confined
  · exact confined

theorem opens_receiver (placed : s.wellPlaced .statement = true) (steady : Flow.Steady v.name s)
    (leaves : s.children.all (Term.leavesToBlocks v.name) = true)
    (opens : Flow.opens v.name s = true) : ∃ r ∈ s.receivers, Flow.opens v.name r = true := by
  cases block : s.isBlock with
  | false =>
    rw [Flow.opens_confined placed steady block leaves, List.any_eq_true] at opens
    exact opens
  | true =>
    rw [Flow.opens_block block] at opens
    obtain ⟨r, listed, opens⟩ := Flow.exists_opens opens
    have child := Term.statement_mem_children listed
    refine ⟨r, ?_, opens⟩
    have offered := Flow.exposed_part (Term.placed_of_statement placed listed)
      (steady.below (Term.child_mem_subterms child)) (List.all_eq_true.mp leaves r child)
    rw [Place.position, ← Flow.opens, opens, Term.offers_statement
      (Term.placed_of_statement placed listed)] at offered
    rw [Term.receivers_block placed block, List.mem_filter]
    refine ⟨listed, ?_⟩
    by_contra other
    simp [other] at offered

theorem closed_of_headerFold {e : Edit} (steady : Flow.Steady v.name s)
    (folds : v.headerFold? o s = some e) : Flow.opens v.name s = false := by
  rw [headerFold?] at folds
  split at folds
  · obtain ⟨found, absorbs, -⟩ := Option.map_eq_some_iff.mp folds
    obtain ⟨init, only, absorbs⟩ := Term.absorbableHeader?_eq_some.mp absorbs
    obtain ⟨cond, update, body, shape⟩ := Term.onlyInit?_eq_some.mp only
    have inner := steady.below (Term.child_mem_subterms (Term.onlyInit?_mem_children only))
    have first := Flow.closed_of_absorbable inner absorbs
    obtain ⟨l, k⟩ := s
    rw [Term.kind] at shape
    subst shape
    have condition : Flow.walkOption v.name .expression cond true = Flow.idle true :=
      Flow.walkOption_idle fun c _ => Flow.walk_assigned .expression c
    simp [Flow.opens, Flow.walk, Flow.walkAll, first, Flow.andThen, condition, Flow.resume,
      Flow.walk_assigned, Flow.walkAll_assigned]
  · cases folds

theorem opens_from_point {point : Tree} (steady : Flow.Steady v.name m) (block : m.isBlock = true)
    (found : m.statements.find? (Term.uses v.name) = some point) :
    ∃ first last, m.statements = first ++ point :: last ∧
      Flow.opens v.name m = (Flow.walkAll v.name .statement (point :: last) false).exposed := by
  obtain ⟨-, first, last, split, unused⟩ := List.find?_eq_some_iff_append.mp found
  have passed : Flow.walkAll v.name .statement first false = Flow.idle false := by
    refine Flow.walkAll_idle fun s listed => ?_
    have child : s ∈ m.children :=
      Term.statement_mem_children (show s ∈ m.statements by rw [split]; simp [listed])
    exact (steady.below (Term.child_mem_subterms child)).walk_unused
      (by simpa using unused s listed) .statement false
  refine ⟨first, last, split, ?_⟩
  rw [Flow.opens_block block, ← Tree.statements, split, Flow.walkAll_append, passed,
    Flow.idle_andThen]

theorem closed_of_pointFold {point : Tree} {e : Edit} (steady : Flow.Steady v.name m)
    (block : m.isBlock = true) (found : m.statements.find? (Term.uses v.name) = some point)
    (folds : v.pointFold? o point = some e) : Flow.opens v.name m = false := by
  obtain ⟨first, last, split, opens⟩ := opens_from_point steady block found
  have child : point ∈ m.children :=
    Term.statement_mem_children (show point ∈ m.statements by rw [split]; simp)
  rw [pointFold?] at folds
  split at folds
  · obtain ⟨found, absorbs, -⟩ := Option.map_eq_some_iff.mp folds
    have first := Flow.closed_of_absorbable (steady.below (Term.child_mem_subterms child)) absorbs
    rw [opens, Flow.walkAll, first]
    simp [Flow.andThen, Flow.walkAll_assigned]
  · cases folds

theorem HandedTo.declares_of_opens (handed : v.HandedTo o b r) (block : b.isBlock = true)
    (placed : b.wellPlaced .statement = true) (steady : Flow.Steady v.name b)
    (opens : Flow.opens v.name r = true) :
    ∃ m point, v.HandedTo o b m ∧ v.declaresAt? o m = some point ∧ v.pointFold? o point = none ∧
      Flow.opens v.name m = true := by
  induction r using Term.inductSmaller with
  | step r smaller =>
    have inner := steady.below handed.mem_subterms
    have exposed := opens
    rw [Flow.opens_block (handed.isBlock block)] at exposed
    obtain ⟨s, listed, opened⟩ := Flow.exists_opens exposed
    have below := inner.below (Term.child_mem_subterms (Term.statement_mem_children listed))
    have used := below.uses_of_exposed opened
    cases passes : v.passesOn o r with
    | true =>
      cases folds : v.headerFold? o s with
      | some e =>
        rw [closed_of_headerFold below folds] at opened
        cases opened
      | none =>
        obtain ⟨q, received, opened⟩ := opens_receiver
          (Term.placed_of_statement (handed.placed block placed) listed) below
          (leaves_of_passed passes listed used folds) opened
        have less := (Term.size_receiver_lt received).trans
          (Term.size_lt_of_mem_children (Term.statement_mem_children listed))
        exact smaller q less (.onward handed passes listed folds received) opened
    | false =>
      have uses : (Tree.statements r).any (Term.uses v.name) = true :=
        List.any_eq_true.mpr ⟨s, listed, used⟩
      obtain ⟨point, found⟩ := Option.isSome_iff_exists.mp
        (List.find?_isSome.mpr (List.any_eq_true.mp uses))
      have declares : v.declaresAt? o r = some point := by
        rw [passesOn, uses, Bool.true_and] at passes
        rw [declaresAt?, passes, if_neg Bool.false_ne_true, found]
      refine ⟨r, point, handed, declares, ?_, opens⟩
      by_contra folds
      obtain ⟨e, folds⟩ := Option.ne_none_iff_exists'.mp folds
      rw [closed_of_pointFold inner (handed.isBlock block) found folds] at opens
      cases opens

/-- A block that reads nothing unassigned hands the variable on to such blocks only, apart from
blocks in bare blocks. -/
theorem HandedTo.closed (handed : v.HandedTo o b m) (block : b.isBlock = true)
    (placed : b.wellPlaced .statement = true) (steady : Flow.Steady v.name b)
    (closed : Flow.opens v.name b = false)
    (nested : ∀ m, v.HandedTo o b m → v.passesOn o m = true → ∀ s ∈ m.statements,
      s.isBlock = true → ∀ r ∈ Tree.statements s, r.isBlock = true → Flow.opens v.name r = false) :
    Flow.opens v.name m = false := by
  induction handed with
  | start => exact closed
  | @onward m s r handed passes listed unfolded received ih =>
    have inner := steady.below handed.mem_subterms
    have placed' := Term.placed_of_statement (handed.placed block placed) listed
    have below (s : Tree) (listed : s ∈ m.statements) : Flow.Steady v.name s :=
      inner.below (Term.child_mem_subterms (Term.statement_mem_children listed))
    cases bare : s.isBlock with
    | true =>
      rw [Term.receivers_block placed' bare, List.mem_filter] at received
      exact nested m handed passes s listed bare r received.1 received.2
    | false =>
      by_contra opened
      rw [Bool.not_eq_false] at opened
      have inside := Term.receiver_mem_subterms received
      have used := Term.uses_of_subterm (below s listed).visible inside
        (((below s listed).below inside).uses_of_exposed opened)
      have whole := Flow.opens_confined placed' (below s listed) bare
        (leaves_of_passed passes listed used unfolded)
      rw [List.any_eq_true.mpr ⟨r, received, opened⟩] at whole
      rw [Flow.opens_block (handed.isBlock block)] at ih
      rw [passesOn, moves, Bool.and_eq_true, Bool.and_eq_true] at passes
      rw [Flow.not_opens_of_handsOn passes.2.1 below ih s listed] at whole
      cases whole

end LocalVariable

end LocalScope
