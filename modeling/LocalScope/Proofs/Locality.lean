import LocalScope.Proofs.Grammar
import LocalScope.Proofs.Snippets

namespace LocalScope

def Term.initializes {ℓ : Type} (name : String) (t : Term ℓ) : Bool :=
  match t.kind with
  | .binding x (some _) => x == name
  | _ => false

/-- Whether this declares a variable of the name and gives it a value. -/
def Term.declaresInitialized {ℓ : Type} (name : String) (t : Term ℓ) : Bool :=
  match t.kind with
  | .declaration _ bs _ => bs.any (initializes name)
  | _ => false

namespace Flow

variable {ℓ : Type} {name : String}

@[simp] theorem resume_idle (s r : Bool) : (idle s).resume r = idle r := rfl

@[simp] theorem join_idle (s : Bool) : (idle s).join (idle s) = idle s := by simp [join, idle]

@[simp] theorem meet_idle (s : Bool) : (idle s).meet (idle s) = idle s := by simp [meet, idle]

section parts

variable {p : Position} {ts : List (Term ℓ)} {s : Bool}

theorem walkAll_idle (kept : ∀ t ∈ ts, walk name p t s = idle s) : walkAll name p ts s = idle s := by
  induction ts with
  | nil => rfl
  | cons t ts ih =>
    rw [walkAll_cons, kept t (by simp), idle_andThen]
    exact ih fun r later => kept r (by simp [later])

theorem walkOption_idle {t : Option (Term ℓ)} (kept : ∀ r ∈ t, walk name p r s = idle s) :
    walkOption name p t s = idle s := by
  cases t with
  | none => rfl
  | some r => exact kept r rfl

theorem walkEach_idle (kept : ∀ t ∈ ts, walk name p t s = idle s) :
    (walkEach name p ts s).foldl join (idle s) = idle s := by
  induction ts with
  | nil => rfl
  | cons t ts ih =>
    rw [walkEach_cons, List.foldl_cons, kept t (by simp), join_idle]
    exact ih fun r later => kept r (by simp [later])

theorem walkBindings_idle (kept : ∀ t ∈ ts, walk name .expression t s = idle s)
    (own : s = true ∨ ∀ t ∈ ts, t.initializes name = false) : walkBindings name ts s = idle s := by
  have one (t : Term ℓ) (listed : t ∈ ts) : walkBindings name [t] s = idle s := by
    have inner := kept t listed
    have other : s = true ∨ t.initializes name = false := own.imp_right fun all => all t listed
    obtain ⟨l, k⟩ := t
    cases k with
    | binding x init =>
      cases init with
      | none => rfl
      | some value =>
        have inner : walk name .expression value s = idle s := inner
        rw [walkBindings_some, inner, walkBindings_nil, andThen_idle]
        cases s with
        | true => simp
        | false =>
          have apart : x ≠ name := by simpa [Term.initializes, Term.kind] using other
          simp [apart]
    | _ => rfl
  clear kept own
  induction ts with
  | nil => rfl
  | cons t ts ih =>
    rw [walkBindings_cons, one t (by simp), idle_andThen]
    exact ih fun r later => one r (by simp [later])

end parts

/-- Whether a node can be passed by without regard to the variable, apart from what is below it. -/
def passes (name : String) : Kind (Term ℓ) → Bool
  | .identifier x => x != name
  | .declaration _ bs _ => !bs.any (Term.initializes name)
  | k => !k.isJump

theorem walk_node_idle {s : Bool} {p : Position} (l : ℓ) (k : Kind (Term ℓ))
    (own : s = true ∨ passes name k = true)
    (kept : ∀ part ∈ k.parts p, walk name part.1 part.2 s = idle s) :
    walk name p (.node l k) s = idle s := by
  have target {t : Term ℓ} (kept : walk name .expression t s = idle s)
      (named : t.isIdentifier name = true) : s = true := by
    obtain ⟨lt, kt⟩ := t
    have shape : kt = .identifier name := by
      cases kt <;> simp_all [Term.isIdentifier, Term.kind]
    subst shape
    cases s with
    | true => rfl
    | false => simp [walk, idle] at kept
  cases k
  case identifier x =>
    cases s
    · have other : x ≠ name := by simpa [passes] using own
      cases p <;> simp [walk, idle, other]
    · cases p <;> simp [walk, idle]
  case assignment op left right =>
    have both : walk name .expression left s = idle s ∧ walk name .expression right s = idle s := by
      cases p <;> simpa [Kind.parts, Kind.places, Place.position, Kind.children, Kind.slots,
        Slot.children] using kept
    cases named : left.isIdentifier name with
    | true =>
      have assigned := target both.1 named
      subst assigned
      cases p <;> simp [walk, named, both.2, idle]
    | false => cases p <;> simp [walk, named, both.1, both.2, idle_andThen]
  case unary op operand =>
    have inner : walk name .expression operand s = idle s := by
      cases p <;> simpa [Kind.parts, Kind.places, Place.position, Kind.children, Kind.slots,
        Slot.children] using kept
    cases named : operand.isIdentifier name with
    | true =>
      have assigned := target inner named
      subst assigned
      cases p <;> simp [walk, named, inner, resume, idle]
    | false => cases p <;> simp [walk, named, inner]
  -- Whatever leaves the normal flow counts as assigned.
  case ret | throw | brk | cont =>
    obtain rfl : s = true := own.resolve_right (by simp [passes, Kind.isJump])
    cases p <;>
      simp [Kind.parts, Kind.places, Place.position, Kind.children, Kind.slots,
        Slot.children] at kept <;>
      simp +contextual [walk, kept, walkOption_idle]
  case tryCatch body catches finallyBranch =>
    cases p <;> cases finallyBranch <;>
      simp [Kind.parts, Kind.places, Place.position, Kind.children, Kind.slots, Slot.children,
        or_imp, forall_and] at kept <;>
      simp +contextual [walk, kept, walkAll_idle, walkOption, walkEach_idle, idle_andThen]
  all_goals
    cases p <;>
      simp [Kind.parts, Kind.places, Place.position, Kind.children, Kind.slots, Slot.children,
        or_imp, forall_and] at kept
  case declaration.statement => simpa [walk] using walkBindings_idle kept (by simpa [passes] using own)
  all_goals
    simp +contextual [walk, kept, walkAll_idle, walkOption_idle, walkEach_idle, idle_andThen]

theorem walk_assigned (p : Position) (t : Term ℓ) : walk name p t true = idle true := by
  induction t using Term.inductChildren generalizing p with
  | step l k ih =>
    refine walk_node_idle l k (.inl rfl) fun part listed => ih part.2 ?_ part.1
    rw [← parts_children k p]
    exact List.mem_map_of_mem listed

theorem walkAll_assigned (p : Position) (ts : List (Term ℓ)) :
    walkAll name p ts true = idle true := walkAll_idle fun t _ => walk_assigned p t

theorem walk_passed {t : Term ℓ} (p : Position)
    (passed : ∀ n ∈ t.subterms, passes name n.kind = true) (s : Bool) :
    walk name p t s = idle s := by
  induction t using Term.inductChildren generalizing p with
  | step l k ih =>
    refine walk_node_idle l k (.inr (passed _ (Term.self_mem_subterms _))) fun part listed => ?_
    have child : part.2 ∈ k.children := by
      rw [← parts_children k p]
      exact List.mem_map_of_mem listed
    exact ih part.2 child part.1 fun n below =>
      passed n (Term.mem_subterms_of_child (t := .node l k) child below)

def neutral {α : Type} (name : String) : Kind α → Bool
  | .identifier x => x != name
  | .binding x (some _) => x != name
  | k => !k.isJump

theorem walk_neutral {t : Term ℓ} (p : Position)
    (neutral' : ∀ n ∈ t.subterms, neutral name n.kind = true) (s : Bool) :
    walk name p t s = idle s := by
  refine walk_passed p (fun n member => ?_) s
  have own := neutral' n member
  have bound {b : Term ℓ} (child : b ∈ n.children) : b.initializes name = false := by
    have kept := neutral' b (Term.subterms_trans (Term.child_mem_subterms child) member)
    unfold Term.initializes
    split
    · rename_i shape
      simpa [shape, neutral] using kept
    · rfl
  obtain ⟨l, k⟩ := n
  cases k with
  | declaration ty bs isFinal =>
    have all : ∀ b ∈ bs, b.initializes name = false := fun b listed =>
      bound (by simpa [Term.children, Term.kind, Kind.children, Kind.slots, Slot.children] using listed)
    simpa [passes, Term.kind] using all
  | binding x init => rfl
  | _ => exact own

/-- Nothing makes the walk forget an assignment, and nothing but the variable itself, or what leaves
the normal flow, makes it see one. In code of any shape and in either position: once the variable is
assigned no read is met and it stays assigned; and where no identifier has the name, no declaration
gives a variable of the name a value and nothing leaves the normal flow, no read is met from either
state and the state stays what it was. -/
theorem walk_stays (name : String) (p : Position) (t : Term ℓ) :
    walk name p t true = idle true ∧
    ((∀ n ∈ t.subterms, n.isIdentifier name = false) →
      (∀ n ∈ t.subterms, n.declaresInitialized name = false) →
      (∀ n ∈ t.subterms, n.kind.isJump = false) →
      ∀ s, walk name p t s = idle s) := by
  refine ⟨walk_assigned p t, fun unnamed undeclared straight => walk_passed p fun n member => ?_⟩
  have named := unnamed n member
  have declared := undeclared n member
  have jump := straight n member
  obtain ⟨l, k⟩ := n
  cases k with
  | identifier x => simpa [passes, Term.isIdentifier, Term.kind] using named
  | declaration ty bs isFinal =>
    simpa [passes, Term.declaresInitialized, Term.kind] using declared
  | _ => simpa [passes, Term.kind] using jump

end Flow

/-- `do { try { w = 1; } catch (E v) { use(w); } finally { int v; } } while (w);` -/
def Body.retried : Body :=
  .plain (.doWhile
    (.braces [.plain (.tryCatch (.braces [.setOne "w"])
      [.plain (.catchClause (.named "E" []) "v" (.braces [.use "w"]))]
      (some (.braces [.declareInt "v"])))])
    (.read "w"))

theorem Flow.walk_stays_retried :
    (∀ n ∈ Body.retried.subterms, n.isIdentifier "v" = false) ∧
    (∀ n ∈ Body.retried.subterms, n.declaresInitialized "v" = false) ∧
    (∀ n ∈ Body.retried.subterms, n.kind.isJump = false) ∧
    walk "v" .statement Body.retried false = idle false := by
  have unnamed : ∀ n ∈ Body.retried.subterms, n.isIdentifier "v" = false := by decide
  have undeclared : ∀ n ∈ Body.retried.subterms, n.declaresInitialized "v" = false := by decide
  have straight : ∀ n ∈ Body.retried.subterms, n.kind.isJump = false := by decide
  exact ⟨unnamed, undeclared, straight,
    (walk_stays "v" .statement Body.retried).2 unnamed undeclared straight false⟩

end LocalScope
