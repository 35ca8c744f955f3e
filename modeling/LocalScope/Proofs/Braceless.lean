import LocalScope.Proofs.Confinement
import LocalScope.Proofs.Reports
import LocalScope.Proofs.Snippets

/-! A statement that confines a variable to its blocks, and what the flow walk says of the statement
and of the blocks. Jumps may stand anywhere in them. Besides the blocks only what has no braces
around it counts, and there the walk meets the variable in one place: before a for-each that hides
it. -/
namespace LocalScope

namespace Flow

variable {ℓ : Type} {name : String}

/-- A walk that meets no early read, whatever state it starts from. -/
structure Quiet (name : String) (p : Position) (t : Term ℓ) : Prop where
  walk : ∀ s, (walk name p t s).exposed = false
  bound : ∀ s, (walkBindings name [t] s).exposed = false

section parts

variable {p : Position} {ts : List (Term ℓ)}

@[simp] theorem exposed_andThen (f : Flow) (g : Bool → Flow) :
    (f.andThen g).exposed = (f.exposed || (g f.assigned).exposed) := rfl

@[simp] theorem exposed_join (f g : Flow) : (f.join g).exposed = (f.exposed || g.exposed) := rfl

@[simp] theorem exposed_meet (f g : Flow) : (f.meet g).exposed = (f.exposed || g.exposed) := rfl

@[simp] theorem exposed_resume (f : Flow) (s : Bool) : (f.resume s).exposed = f.exposed := rfl

theorem walkAll_quiet (quiet : ∀ t ∈ ts, Quiet name p t) (s : Bool) :
    (walkAll name p ts s).exposed = false := by
  induction ts generalizing s with
  | nil => rfl
  | cons t ts ih =>
    rw [walkAll, exposed_andThen, (quiet t (by simp)).walk, Bool.false_or]
    exact ih (fun r later => quiet r (by simp [later])) _

theorem walkOption_quiet {t : Option (Term ℓ)} (quiet : ∀ r ∈ t, Quiet name p r) (s : Bool) :
    (walkOption name p t s).exposed = false := by
  cases t with
  | none => rfl
  | some r => exact (quiet r rfl).walk s

theorem walkEach_quiet (quiet : ∀ t ∈ ts, Quiet name p t) (s : Bool) (f : Flow) :
    ((walkEach name p ts s).foldl join f).exposed = f.exposed := by
  rw [walkEach_exposed, List.any_eq_false.mpr fun t listed => by simp [(quiet t listed).walk],
    Bool.or_false]

theorem walkBindings_quiet (quiet : ∀ t ∈ ts, Quiet name p t) (s : Bool) :
    (walkBindings name ts s).exposed = false := by
  induction ts generalizing s with
  | nil => rfl
  | cons t ts ih =>
    rw [walkBindings_cons, exposed_andThen, (quiet t (by simp)).bound, Bool.false_or]
    exact ih (fun r later => quiet r (by simp [later])) _

end parts

theorem Quiet.node {p : Position} (l : ℓ) (k : Kind (Term ℓ)) (own : k ≠ .identifier name)
    (quiet : ∀ part ∈ k.parts p, Quiet name part.1 part.2) : Quiet name p (.node l k) := by
  have target {t : Term ℓ} (quiet : Quiet name .expression t) : t.isIdentifier name = false := by
    obtain ⟨lt, kt⟩ := t
    by_contra named
    obtain rfl : kt = .identifier name :=
      Term.isIdentifier_iff.mp (Bool.eq_true_of_not_eq_false named)
    simpa [Flow.walk] using quiet.walk false
  refine ⟨fun s => ?_, fun s => ?_⟩
  · cases k
    case identifier x =>
      have other : x ≠ name := fun same => own (by rw [same])
      cases p <;> simp [Flow.walk, other]
    case tryCatch body catches finallyBranch =>
      cases p <;> cases finallyBranch <;>
        simp [Kind.parts, Kind.places, Place.position, Kind.children, Kind.slots, Slot.children,
          or_imp, forall_and] at quiet <;>
        simp +contextual [Flow.walk, quiet, Quiet.walk, walkAll_quiet, walkOption, walkEach_quiet]
    all_goals
      cases p <;>
        simp [Kind.parts, Kind.places, Place.position, Kind.children, Kind.slots, Slot.children,
          or_imp, forall_and] at quiet
    case declaration.statement => simpa [Flow.walk] using walkBindings_quiet quiet s
    all_goals
      simp +contextual [Flow.walk, apply_ite Flow.exposed, quiet, Quiet.walk, target, walkAll_quiet,
        walkOption_quiet, walkEach_quiet]
  · cases k with
    | binding x init =>
      cases init with
      | none => rfl
      | some value =>
        have inner : Quiet name .expression value := by
          cases p <;> simpa [Kind.parts, Kind.places, Place.position, Kind.children, Kind.slots,
            Slot.children] using quiet
        simp only [walkBindings]
        split <;> simp [inner.walk]
    | _ => rfl

end Flow

def Kind.substatements {α : Type} (k : Kind α) : List α :=
  (k.places.filter fun part => part.1 = .statement).map Prod.snd

namespace Term

variable {ℓ : Type} {name : String} {place : Place} {c r s : Term ℓ}

def heldAs (place : Place) (c : Term ℓ) : List (Term ℓ) :=
  if place = .statement then [c] else c.kind.substatements

/-- The statements that a statement holds without braces around them, those of its clauses and
sections included. -/
def unbraced (s : Term ℓ) : List (Term ℓ) :=
  (s.kind.places.flatMap fun part => heldAs part.1 part.2).filter fun c => !c.isBlock

theorem heldAs_plain (placed : c.wellPlaced place = true)
    (plain : place ≠ .statement ∧ place ≠ .catchClause ∧ place ≠ .switchSection) :
    heldAs place c = [] := by
  obtain ⟨l, k⟩ := c
  rw [heldAs, if_neg plain.1, Kind.substatements, List.map_eq_nil_iff, List.filter_eq_nil_iff]
  intro part listed
  rcases places_plain (wellPlaced_iff.mp placed).1 plain part listed with same | same <;> simp [same]

theorem offers_eq (placed : c.wellPlaced place = true) :
    c.offers = (heldAs place c).filter isBlock := by
  obtain ⟨l, k⟩ := c
  obtain ⟨admitted, parts⟩ := wellPlaced_iff.mp placed
  have inert (plain : place ≠ .statement ∧ place ≠ .catchClause ∧ place ≠ .switchSection) :
      (node l k).offers = (heldAs place (.node l k)).filter isBlock := by
    obtain ⟨other, bare⟩ := noBlock_of_admits admitted plain
    rw [heldAs_plain placed plain]
    simp [offers, isBlock, kind, other, bare]
  cases place with
  | statement => rw [offers_statement placed, heldAs, if_pos rfl]
  | catchClause =>
    cases k with
    | catchClause ty x body => rfl
    | _ => cases admitted
  | switchSection =>
    cases k with
    | switchSection labels body =>
      have none : labels.filter isBlock = [] := by
        refine List.filter_eq_nil_iff.mpr fun e listed => ?_
        have placed := parts (.expression, e) (by simp [Kind.places, listed])
        obtain ⟨l, k⟩ := e
        simp [isBlock, kind, (noBlock_of_admits (wellPlaced_iff.mp placed).1 (by simp)).1]
      simp [offers, heldAs, isBlock, kind, Kind.isBlock, Kind.holdsBlocks, children, Kind.children,
        Kind.slots, Slot.children, Kind.substatements, Kind.places, List.filter_map,
        Function.comp_def, none]
    | _ => cases admitted
  | _ => exact inert (by simp)

theorem unused_of_held (placed : c.wellPlaced place = true)
    (leaves : c.leavesToBlocks name = true)
    (visible : place = .catchClause → hides name c.kind = false)
    (held : r ∈ heldAs place c) (other : r.isBlock = false) :
    r.wellPlaced .statement = true ∧ r.uses name = false := by
  obtain ⟨l, k⟩ := c
  obtain ⟨admitted, parts⟩ := wellPlaced_iff.mp placed
  have inner (visible : hides name k = false) (holds : k.holdsBlocks = true)
      (listed : (.statement, r) ∈ k.places) :
      r.wellPlaced .statement = true ∧ r.uses name = false :=
    ⟨parts _ listed, (leaves_inside visible holds leaves (child_of_place listed)).resolve_left
      (by simp [other])⟩
  cases place with
  | statement =>
    obtain rfl : r = .node l k := by simpa [heldAs] using held
    have bare : k.holdsBlocks = false := by cases k <;> first | rfl | cases admitted
    exact ⟨placed, by simpa [leavesToBlocks, other, kind, bare] using leaves⟩
  | catchClause =>
    cases k with
    | catchClause ty x body => exact inner (visible rfl) rfl (by
        simpa [heldAs, kind, Kind.substatements, Kind.places] using held)
    | _ => cases admitted
  | switchSection =>
    cases k with
    | switchSection labels body => exact inner rfl rfl (by
        simpa [heldAs, kind, Kind.substatements, Kind.places, List.filter_map, Function.comp_def]
          using held)
    | _ => cases admitted
  | _ =>
    rw [heldAs_plain placed (by simp)] at held
    cases held

theorem mem_receivers_iff (placed : s.wellPlaced place = true) :
    r ∈ s.receivers ↔ r.isBlock = true ∧ ∃ part ∈ s.kind.places, r ∈ heldAs part.1 part.2 := by
  obtain ⟨l, k⟩ := s
  have each (part : Place × Term ℓ) (listed : part ∈ k.places) :
      r ∈ part.2.offers ↔ r ∈ heldAs part.1 part.2 ∧ r.isBlock = true := by
    rw [offers_eq ((wellPlaced_iff.mp placed).2 part listed), List.mem_filter]
  rw [receivers_eq, children, kind, ← Kind.places_children, List.flatMap_map, List.mem_flatMap]
  constructor
  · rintro ⟨part, listed, offered⟩
    obtain ⟨inside, block⟩ := (each part listed).mp offered
    exact ⟨block, part, listed, inside⟩
  · rintro ⟨block, part, listed, inside⟩
    exact ⟨part, listed, (each part listed).mpr ⟨inside, block⟩⟩

theorem mem_unbraced_iff :
    c ∈ s.unbraced ↔ c.isBlock = false ∧ ∃ part ∈ s.kind.places, c ∈ heldAs part.1 part.2 := by
  rw [unbraced, List.mem_filter, List.mem_flatMap, and_comm, Bool.not_eq_true']

end Term

namespace Flow

variable {ℓ : Type} {name : String} {place : Place} {c s : Term ℓ}

/-- Code that does not use the variable reads it nowhere, unless a for-each that hides it goes over
a collection that is computed from it. -/
theorem quiet_of_unused {t : Term ℓ} (placed : t.wellPlaced place = true)
    (unused : t.uses name = false)
    (apart : ∀ n ∈ t.subterms, ∀ ty iterable body, n.kind = .forEach ty name iterable body →
      iterable.uses name = false) : Quiet name place.position t := by
  induction t using Term.inductChildren generalizing place with
  | step l k ih =>
    obtain ⟨admitted, parts⟩ := Term.wellPlaced_iff.mp placed
    have below {inner : Place} {c : Term ℓ} (listed : (inner, c) ∈ k.places)
        (unused : c.uses name = false) : Quiet name inner.position c := by
      have child := Term.child_of_place listed
      exact ih c child (parts _ listed) unused fun n inside =>
        apart n (Term.mem_subterms_of_child (t := .node l k) child inside)
    cases hidden : Term.hides name k with
    | false =>
      refine .node l k ?_ fun part listed => ?_
      · rintro rfl
        simp [Term.uses_node, Kind.map, Term.usesAt] at unused
      · obtain ⟨inner, known, same⟩ :=
          Term.place_of_part (Term.walkedAsExpression_of_admits admitted) listed
        rw [← same]
        refine below known ?_
        by_contra used
        rw [Term.uses_of_child hidden (Term.child_of_place known) (by simpa using used)] at unused
        cases unused
    | true =>
      cases k with
      | forEach ty x iterable body =>
        obtain rfl : x = name := by simpa [Term.hides] using hidden
        have listed : (Place.expression, iterable) ∈ (Kind.forEach ty x iterable body).places := by
          simp [Kind.places]
        have quiet := below listed (apart _ (Term.self_mem_subterms _) ty iterable body rfl)
        refine ⟨fun s => ?_, fun s => rfl⟩
        cases place with
        | statement => simpa [Place.position, walk] using quiet.walk s
        | _ => cases admitted
      | catchClause ty x body =>
        obtain rfl : x = name := by simpa [Term.hides] using hidden
        refine ⟨fun s => ?_, fun s => rfl⟩
        cases place with
        | catchClause => simp [Place.position, walk]
        | _ => cases admitted
      | _ => cases hidden

theorem quiet_plain {t : Term ℓ} (placed : t.wellPlaced place = true)
    (plain : place ≠ .statement ∧ place ≠ .catchClause ∧ place ≠ .switchSection)
    (unused : t.uses name = false) : Quiet name place.position t := by
  refine quiet_of_unused placed unused fun n member ty iterable body shape => ?_
  have visible := (Term.visible_plain name placed plain member).1
  simp [shape, Term.hides] at visible

theorem exposed_held (placed : c.wellPlaced place = true)
    (leaves : c.leavesToBlocks name = true)
    (visible : place = .catchClause → Term.hides name c.kind = false) :
    (walk name place.position c false).exposed = (Term.heldAs place c).any (opens name) := by
  obtain ⟨l, k⟩ := c
  obtain ⟨admitted, parts⟩ := Term.wellPlaced_iff.mp placed
  have inert (plain : place ≠ .statement ∧ place ≠ .catchClause ∧ place ≠ .switchSection) :
      (walk name place.position (.node l k) false).exposed =
        (Term.heldAs place (.node l k)).any (opens name) := by
    rw [Term.heldAs_plain placed plain,
      (quiet_plain placed plain (Term.unused_of_leaves placed plain leaves)).walk]
    rfl
  cases place with
  | statement => simp [Term.heldAs, opens, Place.position]
  | catchClause =>
    cases k with
    | catchClause ty x body =>
      have other : (x == name) = false := visible rfl
      simp [Place.position, walk, other, Term.heldAs, Term.kind, Kind.substatements, Kind.places,
        opens]
    | _ => cases admitted
  | switchSection =>
    cases k with
    | switchSection labels body =>
      have quiet (e : Term ℓ) (listed : e ∈ labels) : Quiet name .expression e := by
        have placed := parts (.expression, e) (by simp [Kind.places, listed])
        refine quiet_plain placed (by simp) ?_
        refine (Term.leaves_inside rfl rfl leaves (c := e) ?_).resolve_left ?_
        · simp [Kind.children, Kind.slots, Slot.children, listed]
        · obtain ⟨l, k⟩ := e
          simp [Term.isBlock, Term.kind,
            (Term.noBlock_of_admits (Term.wellPlaced_iff.mp placed).1 (by simp)).1]
      simp [Place.position, walk, walkEach_quiet quiet, Term.heldAs, Term.kind, Kind.substatements,
        Kind.places, List.filter_map, Function.comp_def, opens, resume]
    | _ => cases admitted
  | _ => exact inert (by simp)

theorem walk_plain {t : Term ℓ} (placed : t.wellPlaced place = true)
    (plain : place ≠ .statement ∧ place ≠ .catchClause ∧ place ≠ .switchSection)
    (unused : t.uses name = false)
    (unbound : ∀ n ∈ t.subterms, ∀ init, n.kind ≠ .binding name init) (s : Bool) :
    walk name place.position t s = idle s := by
  refine Steady.walk_unused (fun n member => ?_) unused place.position s
  obtain ⟨visible, straight⟩ := Term.visible_plain name placed plain member
  refine ⟨visible, or_iff_not_imp_left.mpr fun other => ?_⟩
  have free := unbound n member
  obtain ⟨l, k⟩ := n
  rw [Term.kind] at straight other free ⊢
  cases k with
  | identifier x => simpa [neutral] using other
  | binding x init =>
    cases init with
    | none => rfl
    | some value => simpa [neutral] using fun same => free (some value) (by rw [same])
  | _ => simp [neutral, straight]

end Flow

namespace Tree

variable {name : String} {place : Place} {c s : Tree}

/-- Whether a statement binds the name itself: as the variable of a for-each, by a declaration in
the header of a `for`, or in a catch clause. -/
def bindsAtHead (name : String) (s : Tree) : Bool :=
  match s.kind with
  | .forEach _ x _ _ => x == name
  | .forLoop init _ update _ => (init ++ update).any (declares name)
  | .tryCatch _ catches _ => catches.any fun clause => Term.hides name clause.kind
  | _ => false

theorem isExpression_below {t n : Tree} (placed : t.wellPlaced .expression = true)
    (member : n ∈ t.subterms) : n.kind.isExpression = true := by
  induction t using Term.inductChildren with
  | step l k ih =>
    rcases Term.mem_subterms_node.mp member with rfl | ⟨c, child, below⟩
    · exact (Term.wellPlaced_iff.mp placed).1
    · exact ih c child (Term.wellPlaced_expression placed child) below

theorem unbound_expression {n : Tree} (placed : c.wellPlaced .expression = true)
    (member : n ∈ c.subterms) (init : Option Tree) : n.kind ≠ .binding name init := by
  intro shape
  have expression := isExpression_below placed member
  rw [shape] at expression
  cases expression

theorem unbound_header {n : Tree} (placed : c.wellPlaced .header = true)
    (undeclared : c.declares name = false) (member : n ∈ c.subterms) (init : Option Tree) :
    n.kind ≠ .binding name init := by
  obtain ⟨l, k⟩ := c
  obtain ⟨admitted, parts⟩ := Term.wellPlaced_iff.mp placed
  rcases Term.mem_subterms_node.mp member with rfl | ⟨b, child, below⟩
  · rintro rfl
    cases admitted
  · obtain ⟨inner, listed⟩ := Term.place_of_child child
    have placedBelow := parts _ listed
    rcases Term.places_plain admitted (by simp) _ listed with same | same
    · subst same
      exact unbound_expression placedBelow below init
    · subst same
      cases k with
      | declaration ty bindings isFinal =>
        have known : b ∈ bindings := by simpa [Kind.children, Kind.slots, Slot.children] using child
        have other := List.any_eq_false.mp undeclared b known
        obtain ⟨l', k'⟩ := b
        rcases Term.mem_subterms_node.mp below with rfl | ⟨e, inside, deeper⟩
        · rintro rfl
          simp [binds, Term.kind] at other
        · obtain ⟨inner, listed⟩ := Term.place_of_child inside
          have placedValue := (Term.wellPlaced_iff.mp placedBelow).2 _ listed
          cases k' with
          | binding x value =>
            obtain ⟨e, -, same⟩ := List.mem_map.mp listed
            cases same
            exact unbound_expression placedValue deeper init
          | _ => cases (Term.wellPlaced_iff.mp placedBelow).1
      | _ => simp [Kind.places] at listed

theorem visible_of_unbound (unbound : s.bindsAtHead name = false)
    (listed : (.catchClause, c) ∈ s.kind.places) : Term.hides name c.kind = false := by
  obtain ⟨l, k⟩ := s
  cases k with
  | tryCatch body catches finallyBranch =>
    have known : c ∈ catches := by simpa [Term.kind, Kind.places] using listed
    simpa using List.any_eq_false.mp unbound c known
  | _ => simp [Term.kind, Kind.places] at listed

theorem undeclared_of_unbound (unbound : s.bindsAtHead name = false)
    (listed : (.header, c) ∈ s.kind.places) : c.declares name = false := by
  obtain ⟨l, k⟩ := s
  cases k with
  | forLoop init cond update body =>
    have known : c ∈ init ++ update := by simpa [Term.kind, Kind.places] using listed
    simpa using List.any_eq_false.mp unbound c known
  | _ => simp [Term.kind, Kind.places] at listed

end Tree

namespace Flow

variable {name : String} {c s : Tree}

theorem opens_held (placed : s.wellPlaced .statement = true) (other : s.isBlock = false)
    (unbound : s.bindsAtHead name = false)
    (leaves : s.children.all (Term.leavesToBlocks name) = true) :
    opens name s = true ↔
      ∃ part ∈ s.kind.places, ∃ c ∈ Term.heldAs part.1 part.2, opens name c = true := by
  obtain ⟨l, k⟩ := s
  obtain ⟨admitted, parts⟩ := Term.wellPlaced_iff.mp placed
  have leave {part : Place × Tree} (listed : part ∈ k.places) :
      part.2.leavesToBlocks name = true :=
    List.all_eq_true.mp leaves _ (Term.child_of_place listed)
  by_cases simple : ∀ part ∈ k.places, part.1 = .expression ∨ part.1 = .binding
  · have plain (part : Place × Tree) (listed : part ∈ k.places) :
        part.1 ≠ .statement ∧ part.1 ≠ .catchClause ∧ part.1 ≠ .switchSection := by
      rcases simple part listed with same | same <;> simp [same]
    have quiet : Quiet name .statement (.node l k) := by
      refine .node l k (by rintro rfl; cases admitted) fun part listed => ?_
      obtain ⟨⟨place, c⟩, known, rfl⟩ := List.mem_map.mp listed
      exact quiet_plain (parts _ known) (plain _ known)
        (Term.unused_of_leaves (parts _ known) (plain _ known) (leave known))
    rw [opens, quiet.walk]
    refine ⟨fun impossible => absurd impossible Bool.false_ne_true, ?_⟩
    rintro ⟨part, listed, c, inside, -⟩
    rw [Term.heldAs_plain (parts part listed) (plain part listed)] at inside
    cases inside
  · have whole : opens name (.node l k) =
        k.places.any fun part => (walk name part.1.position part.2 false).exposed := by
      refine exposed_parts admitted ?_ other ?_ ?_ fun part listed plain s => ?_
      · cases k <;> first | rfl | exact absurd (by simp [Kind.places]) simple
      · rintro ty bindings isFinal rfl
        exact simple (by simp [Kind.places])
      · cases k <;> first | rfl | exact unbound | cases admitted
      · obtain ⟨place, c⟩ := part
        refine walk_plain (parts _ listed) plain
          (Term.unused_of_leaves (parts _ listed) plain (leave listed)) (fun n member init => ?_) s
        cases place with
        | expression => exact Tree.unbound_expression (parts _ listed) member init
        | header =>
          exact Tree.unbound_header (parts _ listed)
            (Tree.undeclared_of_unbound unbound listed) member init
        | binding =>
          refine absurd ?_ simple
          cases k <;> simp [Kind.places] at listed ⊢
        | _ => simp at plain
    rw [whole, List.any_eq_true]
    refine exists_congr fun part => and_congr_right fun listed => ?_
    rw [exposed_held (parts part listed) (leave listed) fun clause => ?_, List.any_eq_true]
    obtain ⟨place, c⟩ := part
    obtain rfl : place = .catchClause := clause
    exact Tree.visible_of_unbound unbound listed

theorem unused_of_unbraced {place : Place} (placed : s.wellPlaced place = true)
    (unbound : s.bindsAtHead name = false)
    (leaves : s.children.all (Term.leavesToBlocks name) = true) (listed : c ∈ s.unbraced) :
    c.wellPlaced .statement = true ∧ c.uses name = false := by
  obtain ⟨other, ⟨inner, m⟩, inside, held⟩ := Term.mem_unbraced_iff.mp listed
  obtain ⟨l, k⟩ := s
  refine Term.unused_of_held ((Term.wellPlaced_iff.mp placed).2 _ inside)
    (List.all_eq_true.mp leaves _ (Term.child_of_place inside)) (fun clause => ?_) held other
  obtain rfl : inner = .catchClause := clause
  exact Tree.visible_of_unbound unbound inside

end Flow

/-- The walk of a statement that confines a variable reports it exactly if the walk of one of the
receiving blocks does, or that of a statement without braces. The blocks alone decide if there is no
for-each in the latter that hides the variable and goes over something computed from it. -/
theorem Arena.opens_of_confines {body : Body} {root : NodeId} {a : Arena}
    (lowered : Arena.ofBody body = (root, a)) {place : Place}
    (ordered : (a.view root).wellPlaced place = true) {s : Tree}
    (member : s ∈ (a.view root).subterms) (statement : s.kind.isStatement = true)
    (other : s.isBlock = false) {name : String} (unbound : s.bindsAtHead name = false)
    (confined : a.confines s.id name true = .ok true) (plain : s.absorbableHeader? name = none) :
    (Flow.opens name s = true ↔
      (∃ r ∈ s.receivers, Flow.opens name r = true) ∨
        ∃ c ∈ s.unbraced, Flow.opens name c = true) ∧
    ((∀ c ∈ s.unbraced, ∀ n ∈ c.subterms, ∀ ty iterable inner,
        n.kind = .forEach ty name iterable inner → iterable.uses name = false) →
      (Flow.opens name s = true ↔ ∃ r ∈ s.receivers, Flow.opens name r = true)) := by
  have placed : s.wellPlaced .statement = true := by
    obtain ⟨inner, below⟩ := Term.wellPlaced_below ordered member
    obtain ⟨l, k⟩ := s
    exact Term.wellPlaced_iff.mpr ⟨statement, (Term.wellPlaced_iff.mp below).2⟩
  have confines : s.confines name true = true := by
    rw [Arena.confines, ((Arena.holds_view lowered).below member).look_eq] at confined
    exact Except.ok.inj confined
  have leaves : s.children.all (Term.leavesToBlocks name) = true := by
    have header : s.headerValue? name = none := by
      by_contra some
      obtain ⟨value, header⟩ := Option.ne_none_iff_exists'.mp some
      have absorbs := Tree.absorbableHeader?_of_confines confines header
      rw [plain] at absorbs
      cases absorbs
    simpa [Term.confines, header] using confines
  have exact' : Flow.opens name s = true ↔
      (∃ r ∈ s.receivers, Flow.opens name r = true) ∨
        ∃ c ∈ s.unbraced, Flow.opens name c = true := by
    rw [Flow.opens_held placed other unbound leaves]
    constructor
    · rintro ⟨part, listed, c, held, opened⟩
      cases block : c.isBlock with
      | true => exact .inl ⟨c, (Term.mem_receivers_iff placed).mpr ⟨block, part, listed, held⟩, opened⟩
      | false => exact .inr ⟨c, Term.mem_unbraced_iff.mpr ⟨block, part, listed, held⟩, opened⟩
    · rintro (⟨r, received, opened⟩ | ⟨c, bare, opened⟩)
      · obtain ⟨-, part, listed, held⟩ := (Term.mem_receivers_iff placed).mp received
        exact ⟨part, listed, r, held, opened⟩
      · obtain ⟨-, part, listed, held⟩ := Term.mem_unbraced_iff.mp bare
        exact ⟨part, listed, c, held, opened⟩
  refine ⟨exact', fun apart => exact'.trans (or_iff_left ?_)⟩
  rintro ⟨c, bare, opened⟩
  obtain ⟨placed, unused⟩ := Flow.unused_of_unbraced placed unbound leaves bare
  have quiet := (Flow.quiet_of_unused placed unused (apart c bare)).walk false
  rw [Flow.opens, ← Place.position, quiet] at opened
  cases opened

/-- `if (c) { return; } else { use(v); }` -/
def Body.parting : Body :=
  .braces [.plain (.ifElse (.read "c") (.braces [.plain (.ret none)]) (some (.braces [.use "v"])))]

def Tree.ifOfParting : Tree :=
  shown 7 (.ifElse (shown 0 (.identifier "c")) (shown 2 (.block [shown 1 (.ret none)]))
    (some (shown 6 (.block [shown 5 (.expressionStatement (shown 4
      (.invocation none "use" [shown 3 (.identifier "v")])))]))))

theorem Arena.view_parting :
    (Arena.ofBody .parting).2.view (Arena.ofBody .parting).1 =
      Tree.shown 8 (.block [Tree.ifOfParting]) := by cbv

/- The statement is reported, so one of its blocks is. -/
theorem Arena.opens_of_confines_parting :
    ∃ r ∈ Tree.ifOfParting.receivers, Flow.opens "v" r = true := by
  have view := Arena.view_parting
  have bare : Tree.ifOfParting.unbraced = [] := by decide +kernel
  have ordered : ((Arena.ofBody .parting).2.view (Arena.ofBody .parting).1).wellPlaced .statement =
      true := by decide +kernel
  have member : Tree.ifOfParting ∈
      ((Arena.ofBody .parting).2.view (Arena.ofBody .parting).1).subterms := by
    rw [view]
    exact Term.child_mem_subterms (by simp [Tree.shown, Term.children, Term.kind])
  refine ((Arena.opens_of_confines Prod.mk.eta.symm ordered member rfl rfl rfl (by decide +kernel)
    (by decide +kernel)).2 ?_).mp (by decide +kernel)
  rw [bare]
  rintro c ⟨⟩

/-- `if (c) for (int v : v) { }` -/
def Body.overItself : Body :=
  .braces [.plain (.ifElse (.read "c") (.forEachInt "v" "v" []) none)]

def Tree.ifOfOverItself : Tree :=
  shown 4 (.ifElse (shown 0 (.identifier "c")) (shown 3 (.forEach (.primitive .int) "v"
    (shown 1 (.identifier "v")) (shown 2 (.block [])))) none)

/- The variable counts as unused where the loop hides it, but the walk reads what the loop goes
over. -/
theorem Arena.opens_unreceived :
    ((Arena.ofBody .overItself).2.view (Arena.ofBody .overItself).1).wellPlaced .statement = true ∧
    Tree.ifOfOverItself ∈
      ((Arena.ofBody .overItself).2.view (Arena.ofBody .overItself).1).subterms ∧
    Tree.ifOfOverItself.kind.isStatement = true ∧ Tree.ifOfOverItself.isBlock = false ∧
    Tree.ifOfOverItself.bindsAtHead "v" = false ∧
    (Arena.ofBody .overItself).2.confines Tree.ifOfOverItself.id "v" true = .ok true ∧
    Tree.ifOfOverItself.absorbableHeader? "v" = none ∧
    Flow.opens "v" Tree.ifOfOverItself = true ∧
    ∀ r ∈ Tree.ifOfOverItself.receivers, Flow.opens "v" r = false := by
  have view : (Arena.ofBody .overItself).2.view (Arena.ofBody .overItself).1 =
      Tree.shown 5 (.block [Tree.ifOfOverItself]) := by cbv
  have none : Tree.ifOfOverItself.receivers = [] := by decide +kernel
  rw [view, none]
  refine ⟨by decide +kernel, ?_, rfl, rfl, rfl, by decide +kernel, by decide +kernel,
    by decide +kernel, by simp⟩
  exact Term.child_mem_subterms (by simp [Tree.shown, Term.children, Term.kind])

end LocalScope
