import LocalScope.Proofs.Rewalking

/-! A statement that leaves a variable to the blocks in it starts each of them in the state that it
is started in itself. Only a bare block passes on from one of its blocks to the next what the first
one has assigned. -/
namespace LocalScope

namespace Term

variable {ℓ : Type} {name : String}

theorem uses_of_subterm {t n : Term ℓ} (visible : ∀ n ∈ t.subterms, hides name n.kind = false)
    (member : n ∈ t.subterms) (used : n.uses name = true) : t.uses name = true := by
  induction t using Term.inductChildren with
  | step l k ih =>
    rcases mem_subterms_node.mp member with rfl | ⟨c, child, below⟩
    · exact used
    · have inner := ih c child (fun m inside => visible m
        (mem_subterms_of_child (t := .node l k) child inside)) below
      exact uses_of_child (visible _ (self_mem_subterms _)) child inner

end Term

namespace Flow

variable {ℓ : Type} {name : String}

/-- Code that control goes straight through, without another variable of the name. -/
def Steady (name : String) (t : Term ℓ) : Prop :=
  ∀ n ∈ t.subterms, Term.hides name n.kind = false ∧
    (n.kind = .identifier name ∨ neutral name n.kind = true)

namespace Steady

variable {t n : Term ℓ}

theorem below (steady : Steady name t) (member : n ∈ t.subterms) : Steady name n :=
  fun m inside => steady m (Term.subterms_trans inside member)

theorem visible (steady : Steady name t) : ∀ n ∈ t.subterms, Term.hides name n.kind = false :=
  fun n member => (steady n member).1

theorem walk_unused (steady : Steady name t) (unused : t.uses name = false) (p : Position)
    (s : Bool) : walk name p t s = idle s := by
  apply walk_neutral
  intro n member
  refine (steady n member).2.resolve_left fun identifier => ?_
  have used : n.uses name = true := by
    obtain ⟨l, k⟩ := n
    obtain rfl : k = .identifier name := identifier
    simp [Term.uses_node, Kind.map, Term.usesAt]
  rw [Term.uses_of_subterm steady.visible member used] at unused
  cases unused

theorem uses_of_exposed (steady : Steady name t) {p : Position} {s : Bool}
    (exposed : (walk name p t s).exposed = true) : t.uses name = true := by
  by_contra unused
  rw [steady.walk_unused (by simpa using unused)] at exposed
  cases exposed

end Steady

/-- Whether a block reads the variable unassigned, when it is unassigned at the start. -/
def opens (name : String) (t : Term ℓ) : Bool := (walk name .statement t false).exposed

end Flow

namespace Term

variable {ℓ : Type} {name : String} {place : Place} {c : Term ℓ}

def offers (part : Term ℓ) : List (Term ℓ) :=
  if part.isBlock then [part]
  else if part.kind.holdsBlocks then part.children.filter isBlock
  else []

theorem receivers_eq (t : Term ℓ) : t.receivers = t.children.flatMap offers := rfl

theorem offers_statement (placed : c.wellPlaced .statement = true) : c.offers = [c].filter isBlock := by
  obtain ⟨l, k⟩ := c
  have admitted := (wellPlaced_iff.mp placed).1
  have bare : k.holdsBlocks = false := by cases k <;> first | rfl | cases admitted
  cases block : isBlock (.node l k) <;> simp [offers, block, kind, bare]

theorem placed_of_statement {t s : Term ℓ} (placed : t.wellPlaced place = true)
    (listed : s ∈ t.kind.statements) : s.wellPlaced .statement = true := by
  obtain ⟨l, k⟩ := t
  have shape : k = .block k.statements := kind_of_statement listed
  refine (wellPlaced_iff.mp placed).2 (.statement, s) ?_
  rw [shape]
  exact List.mem_map_of_mem listed

theorem receivers_block {t : Term ℓ} (placed : t.wellPlaced .statement = true)
    (block : t.isBlock = true) : t.receivers = t.kind.statements.filter isBlock := by
  have each (s : Term ℓ) (listed : s ∈ t.kind.statements) : s.offers = [s].filter isBlock :=
    offers_statement (placed_of_statement placed listed)
  obtain ⟨l, k⟩ := t
  cases k with
  | block ss =>
    have regrouped : ss.flatMap (fun s => [s].filter isBlock) = ss.filter isBlock := by
      rw [← List.filter_flatMap, List.flatMap_singleton']
    rw [receivers_eq, children, kind, Kind.children_block]
    exact (List.flatMap_congr each).trans regrouped
  | _ => cases block

theorem noBlock_of_admits {k : Kind (Term ℓ)} (admitted : place.admits k = true)
    (inner : place ≠ .statement ∧ place ≠ .catchClause ∧ place ≠ .switchSection) :
    k.isBlock = false ∧ k.holdsBlocks = false := by
  cases place <;> simp at inner <;> cases k <;> first | exact ⟨rfl, rfl⟩ | cases admitted

theorem unused_of_leaves (placed : c.wellPlaced place = true)
    (inner : place ≠ .statement ∧ place ≠ .catchClause ∧ place ≠ .switchSection)
    (leaves : c.leavesToBlocks name = true) : c.uses name = false := by
  obtain ⟨l, k⟩ := c
  obtain ⟨other, bare⟩ := noBlock_of_admits (wellPlaced_iff.mp placed).1 inner
  simpa [leavesToBlocks, isBlock, kind, other, bare] using leaves

theorem leaves_inside {l : ℓ} {k : Kind (Term ℓ)} (visible : hides name k = false)
    (holds : k.holdsBlocks = true) (leaves : leavesToBlocks name (.node l k) = true)
    (child : c ∈ k.children) : c.isBlock = true ∨ c.uses name = false := by
  have other : (node l k).isBlock = false := by cases k <;> first | rfl | cases holds
  by_cases used : (node l k).uses name = true
  · have bare : (node l k).kind.holdsBlocks = true := holds
    rw [leavesToBlocks, used, other, bare, Bool.not_true, Bool.false_or, Bool.true_and,
      Bool.false_or, List.all_eq_true] at leaves
    simpa using leaves c child
  · refine .inr ?_
    by_contra inner
    exact used (uses_of_child visible child (by simpa using inner))

end Term

namespace Flow

variable {ℓ : Type} {name : String} {place : Place} {c : Term ℓ}

theorem walkEach_exposed (p : Position) (ts : List (Term ℓ)) (s : Bool) (f : Flow) :
    ((walkEach name p ts s).foldl join f).exposed =
      (f.exposed || ts.any fun t => (walk name p t s).exposed) := by
  induction ts generalizing f with
  | nil => simp [walkEach]
  | cons t ts ih => simp [walkEach, ih, join, Bool.or_assoc]

theorem opens_body (steady : Steady name c) (leaves : c.isBlock = true ∨ c.uses name = false) :
    (walk name .statement c false).exposed = ([c].filter Term.isBlock).any (opens name) := by
  cases block : c.isBlock with
  | true => simp [block, opens]
  | false =>
    have unused : c.uses name = false := leaves.resolve_left (by simp [block])
    simp [block, steady.walk_unused unused]

theorem exposed_clause {l : ℓ} {ty : Ty} {x : String} {body : Term ℓ}
    (steady : Steady name (.node l (.catchClause ty x body)))
    (leaves : Term.leavesToBlocks name (.node l (.catchClause ty x body)) = true) :
    (walk name .statement (.node l (.catchClause ty x body)) false).exposed =
      (Term.offers (.node l (.catchClause ty x body))).any (opens name) := by
  have visible := (steady _ (Term.self_mem_subterms _)).1
  have other : (x == name) = false := visible
  have child : body ∈ (Kind.catchClause ty x body).children := by
    simp [Kind.children, Kind.slots, Slot.children]
  have inner := steady.below (Term.child_mem_subterms (t := .node l (.catchClause ty x body)) child)
  rw [walk, other, if_neg Bool.false_ne_true,
    opens_body inner (Term.leaves_inside visible rfl leaves child)]
  rfl

theorem exposed_section {l : ℓ} {labels : List (Term ℓ)} {body : Term ℓ}
    (placed : Term.wellPlaced (.node l (.switchSection labels body)) .switchSection = true)
    (steady : Steady name (.node l (.switchSection labels body)))
    (leaves : Term.leavesToBlocks name (.node l (.switchSection labels body)) = true) :
    (walk name .statement (.node l (.switchSection labels body)) false).exposed =
      (Term.offers (.node l (.switchSection labels body))).any (opens name) := by
  have child {c : Term ℓ} (listed : c = body ∨ c ∈ labels) :
      c ∈ (Kind.switchSection labels body).children := by
    simpa [Kind.children, Kind.slots, Slot.children, or_comm] using listed
  have inner {c : Term ℓ} (listed : c = body ∨ c ∈ labels) : Steady name c :=
    steady.below (Term.child_mem_subterms (t := .node l (.switchSection labels body)) (child listed))
  have label (c : Term ℓ) (listed : c ∈ labels) : c.isBlock = false ∧ c.uses name = false := by
    have placed := (Term.wellPlaced_iff.mp placed).2 (.expression, c) (by simp [Kind.places, listed])
    have other : c.isBlock = false := by
      obtain ⟨l, k⟩ := c
      exact (Term.noBlock_of_admits (Term.wellPlaced_iff.mp placed).1 (by simp)).1
    refine ⟨other, (Term.leaves_inside rfl rfl leaves (child (.inr listed))).resolve_left ?_⟩
    simp [other]
  -- The labels have nothing to do with the variable, so the body starts as the section does.
  have passed : ((walkEach name .expression labels false).foldl join (idle false)).resume false =
      idle false := by
    have unread : (labels.any fun c => (walk name .expression c false).exposed) = false := by
      rw [List.any_eq_false]
      intro c listed
      simp [(inner (.inr listed)).walk_unused (label c listed).2]
    rw [resume, walkEach_exposed, unread]
    rfl
  have own : Term.offers (.node l (.switchSection labels body)) = [body].filter Term.isBlock := by
    have none : labels.filter Term.isBlock = [] :=
      List.filter_eq_nil_iff.mpr fun c listed => by simp [(label c listed).1]
    simp [Term.offers, Term.isBlock, Term.kind, Kind.isBlock, Kind.holdsBlocks, Term.children,
      Kind.children, Kind.slots, Slot.children, none]
  rw [walk, passed, idle_andThen, opens_body (inner (.inl rfl))
    (Term.leaves_inside rfl rfl leaves (child (.inl rfl))), own]

theorem exposed_part (placed : c.wellPlaced place = true) (steady : Steady name c)
    (leaves : c.leavesToBlocks name = true) :
    (walk name place.position c false).exposed = c.offers.any (opens name) := by
  obtain ⟨l, k⟩ := c
  have admitted := (Term.wellPlaced_iff.mp placed).1
  have inert (plain : place ≠ .statement ∧ place ≠ .catchClause ∧ place ≠ .switchSection) :
      (walk name place.position (.node l k) false).exposed =
        (Term.offers (.node l k)).any (opens name) := by
    obtain ⟨other, bare⟩ := Term.noBlock_of_admits admitted plain
    rw [steady.walk_unused (Term.unused_of_leaves placed plain leaves)]
    simp [Term.offers, Term.isBlock, Term.kind, other, bare]
  cases place with
  | expression => exact inert (by simp)
  | header => exact inert (by simp)
  | binding => exact inert (by simp)
  | statement =>
    have bare : k.holdsBlocks = false := by cases k <;> first | rfl | cases admitted
    rw [Place.position, Term.offers_statement placed, opens_body steady]
    simpa [Term.leavesToBlocks, Term.kind, bare] using leaves
  | catchClause =>
    cases k with
    | catchClause ty x body => exact exposed_clause steady leaves
    | _ => cases admitted
  | switchSection =>
    cases k with
    | switchSection labels body => exact exposed_section placed steady leaves
    | _ => cases admitted

/- Where control comes out of each expression as it went in, the parts of a statement are started in
the same state, and what is read in it is read in one of them. -/
theorem exposed_parts {l : ℓ} {k : Kind (Term ℓ)} (admitted : Place.statement.admits k = true)
    (straight : k.isJump = false) (other : k.isBlock = false)
    (simple : ∀ ty bindings isFinal, k ≠ .declaration ty bindings isFinal)
    (visible : Term.hides name k = false)
    (passed : ∀ part ∈ k.places,
      part.1 ≠ .statement ∧ part.1 ≠ .catchClause ∧ part.1 ≠ .switchSection →
      ∀ s, walk name part.1.position part.2 s = idle s) :
    (walk name .statement (.node l k) false).exposed =
      k.places.any fun part => (walk name part.1.position part.2 false).exposed := by
  have expression (e : Term ℓ) (listed : (.expression, e) ∈ k.places) (s : Bool) :
      walk name .expression e s = idle s := passed (.expression, e) listed (by simp) s
  cases k with
  | declaration ty bindings isFinal => exact absurd rfl (simple ty bindings isFinal)
  | expressionStatement e =>
    simp [walk, Kind.places, Kind.children, Kind.slots, Slot.children, Place.position]
  | ifElse cond thenBranch elseBranch =>
    have first := expression cond (by simp [Kind.places]) false
    cases elseBranch <;>
      simp [walk, first, idle_andThen, join, walkOption, Kind.places, Place.position]
  | whileLoop cond body =>
    have first := expression cond (by simp [Kind.places]) false
    simp [walk, first, idle_andThen, resume, Kind.places, Place.position]
  | doWhile body cond =>
    have last := expression cond (by simp [Kind.places])
    cases leaves : body.breaksOut <;>
      simp [walk, leaves, last, andThen, resume, Kind.places, Place.position]
  | forLoop init cond update body =>
    have header (ts : List (Term ℓ)) (listed : ∀ t ∈ ts, t ∈ init ∨ t ∈ update) (s : Bool) :
        walkAll name .statement ts s = idle s := walkAll_idle fun t known =>
      passed (.header, t) (by simpa [Kind.places] using listed t known) (by simp) s
    have condition : walkOption name .expression cond false = idle false := walkOption_idle
      fun t known => expression t (by simp [Kind.places, Option.mem_def.mp known]) false
    have whole : (walk name .statement (.node l (.forLoop init cond update body)) false).exposed =
        (walk name .statement body false).exposed := by
      rw [walk, header init (fun t known => .inl known), idle_andThen, condition, idle_andThen]
      simp [resume, andThen, header update (fun t known => .inr known)]
    rw [whole, Bool.eq_iff_iff, List.any_eq_true]
    constructor
    · exact fun exposed => ⟨(.statement, body), by simp [Kind.places], exposed⟩
    · rintro ⟨⟨place, c⟩, listed, exposed⟩
      by_cases plain : place ≠ .statement ∧ place ≠ .catchClause ∧ place ≠ .switchSection
      · rw [passed _ listed plain] at exposed
        cases exposed
      · obtain ⟨rfl, rfl⟩ : place = .statement ∧ c = body := by
          simp only [Kind.places, List.mem_append, List.mem_map, List.mem_singleton,
            Prod.mk.injEq] at listed
          grind
        exact exposed
  | forEach ty x iterable body =>
    have first := expression iterable (by simp [Kind.places]) false
    have named : (x == name) = false := visible
    simp only [walk, first, idle_andThen, named, Kind.places, Place.position]
    simp [resume, first]
  | tryCatch body catches finallyBranch =>
    cases finallyBranch <;>
      simp [walk, walkEach_exposed, meet, Kind.places, Place.position, Function.comp_def,
        Bool.or_assoc]
  | switch value sections =>
    have first := expression value (by simp [Kind.places]) false
    simp [walk, first, idle_andThen, resume, walkEach_exposed, Kind.places, Place.position,
      Function.comp_def]
  | synchronized lock body =>
    have first := expression lock (by simp [Kind.places]) false
    simp [walk, first, idle_andThen, Kind.places, Place.position]
  | empty => rfl
  | block | ret | throw | brk | cont => simp_all [Kind.isBlock, Kind.isJump]
  | _ => cases admitted

/-- A statement other than a bare block that leaves the variable to the blocks in it reads it
unassigned exactly if one of the blocks does. -/
theorem opens_confined {s : Term ℓ} (placed : s.wellPlaced .statement = true)
    (steady : Steady name s) (other : s.isBlock = false)
    (leaves : s.children.all (Term.leavesToBlocks name) = true) :
    opens name s = s.receivers.any (opens name) := by
  cases used : s.uses name with
  | false =>
    have none (r : Term ℓ) (received : r ∈ s.receivers) : opens name r = false := by
      by_contra opened
      have inside := Term.receiver_mem_subterms received
      rw [Term.uses_of_subterm steady.visible inside
        ((steady.below inside).uses_of_exposed (by simpa [opens] using opened))] at used
      cases used
    rw [opens, steady.walk_unused used, List.any_eq_false.mpr fun r received => by
      simp [none r received]]
    rfl
  | true =>
    obtain ⟨l, k⟩ := s
    obtain ⟨admitted, parts⟩ := Term.wellPlaced_iff.mp placed
    obtain ⟨visible, straight⟩ := steady _ (Term.self_mem_subterms _)
    have inner {part : Place × Term ℓ} (listed : part ∈ k.places) : Steady name part.2 :=
      steady.below (Term.child_mem_subterms (t := .node l k) (Term.child_of_place listed))
    have leave {part : Place × Term ℓ} (listed : part ∈ k.places) :
        part.2.leavesToBlocks name = true :=
      List.all_eq_true.mp leaves _ (Term.child_of_place listed)
    have unused (part : Place × Term ℓ) (listed : part ∈ k.places)
        (plain : part.1 ≠ .statement ∧ part.1 ≠ .catchClause ∧ part.1 ≠ .switchSection) :
        part.2.uses name = false :=
      Term.unused_of_leaves (parts part listed) plain (leave listed)
    have whole : opens name (.node l k) =
        k.places.any fun part => (walk name part.1.position part.2 false).exposed := by
      refine exposed_parts admitted ?_ other ?_ visible fun part listed plain s =>
        (inner listed).walk_unused (unused part listed plain) part.1.position s
      · cases k <;> first | rfl | simp [Term.kind, neutral, Kind.isJump] at straight
      · rintro ty bindings isFinal rfl
        have none : (bindings.any fun b => b.uses name) = false := by
          rw [List.any_eq_false]
          intro b listed
          simp [unused (.binding, b) (List.mem_map_of_mem listed) (by simp)]
        simp [Term.uses_node, Kind.map, Term.usesAt, Kind.children, Kind.slots, Slot.children,
          none] at used
    rw [whole, Term.receivers_eq, List.any_flatMap, Term.children, Term.kind,
      ← Kind.places_children, List.any_map, Bool.eq_iff_iff, List.any_eq_true, List.any_eq_true]
    refine exists_congr fun part => and_congr_right fun listed => ?_
    rw [exposed_part (parts part listed) (inner listed) (leave listed)]
    rfl

end Flow

end LocalScope
