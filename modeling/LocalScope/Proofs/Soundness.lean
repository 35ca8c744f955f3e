import LocalScope.Proofs.Jumping
import LocalScope.Proofs.Reports
import LocalScope.Proofs.Snippets

namespace LocalScope

open Traces

namespace Flow

variable {f g : Flow} {h : Bool → Flow}

/-- What is known of the variable after some code holds of it: if no early read was met the code is
quiet, and if the variable counts as assigned the code cannot have passed it by. -/
def Tells (f : Flow) (quiet idle : Prop) : Prop :=
  f.exposed = false → quiet ∧ (f.assigned = true → ¬ idle)

section tells

variable {quiet idle quiet' idle' : Prop}

theorem Tells.mono (tells : f.Tells quiet idle) (weaker : quiet → quiet') (stronger : idle' → idle) :
    f.Tells quiet' idle' := by
  intro silent
  obtain ⟨quiet, writes⟩ := tells silent
  exact ⟨weaker quiet, fun assigned passed => writes assigned (stronger passed)⟩

theorem Tells.andThen (first : f.Tells quiet idle) (second : (h false).Tells quiet' idle') :
    (f.andThen h).Tells (quiet ∧ (idle → quiet')) (idle ∧ idle') := by
  intro silent
  obtain ⟨silent, silent'⟩ := Bool.or_eq_false_iff.mp silent
  obtain ⟨quiet, writes⟩ := first silent
  rw [Flow.andThen]
  cases state : f.assigned with
  | true =>
    have busy := writes state
    exact ⟨⟨quiet, fun passed => absurd passed busy⟩, fun _ passed => busy passed.1⟩
  | false =>
    rw [state] at silent'
    obtain ⟨quiet', writes'⟩ := second silent'
    exact ⟨⟨quiet, fun _ => quiet'⟩, fun assigned passed => writes' assigned passed.2⟩

theorem Tells.join (first : f.Tells quiet idle) (second : g.Tells quiet' idle') :
    (f.join g).Tells (quiet ∧ quiet') (idle ∨ idle') := by
  intro silent
  obtain ⟨silent, silent'⟩ := Bool.or_eq_false_iff.mp silent
  obtain ⟨quiet, writes⟩ := first silent
  obtain ⟨quiet', writes'⟩ := second silent'
  refine ⟨⟨quiet, quiet'⟩, fun assigned => ?_⟩
  obtain ⟨one, two⟩ := Bool.and_eq_true_iff.mp assigned
  exact not_or.mpr ⟨writes one, writes' two⟩

theorem Tells.meet (first : f.Tells quiet idle) (second : g.Tells quiet' idle') :
    (f.meet g).Tells (quiet ∧ quiet') (idle ∧ idle') := by
  intro silent
  obtain ⟨silent, silent'⟩ := Bool.or_eq_false_iff.mp silent
  obtain ⟨quiet, writes⟩ := first silent
  obtain ⟨quiet', writes'⟩ := second silent'
  refine ⟨⟨quiet, quiet'⟩, fun assigned => ?_⟩
  rintro ⟨passed, passed'⟩
  exact (Bool.or_eq_true_iff.mp assigned).elim (writes · passed) (writes' · passed')

theorem Tells.resume {s : Bool} (tells : f.Tells quiet idle) (writes : s = true → ¬ idle') :
    (f.resume s).Tells quiet idle' :=
  fun silent => ⟨(tells silent).1, writes⟩

end tells

variable {e e' : Traces} {b c : Behaviour}

/-- Of an expression: none of its executions starts with a read, and if it assigns the variable none is
without an access. -/
def Accounts (f : Flow) (e : Traces) : Prop := f.Tells e.Quiet ([] ∈ e)

/-- Of a statement: only what goes on from its end is known to have assigned the variable. -/
def Describes (f : Flow) (b : Behaviour) : Prop := f.Tells b.Quiet ([] ∈ b .normal)

theorem Accounts.andThen (first : f.Accounts e) (second : (h false).Accounts e') :
    (f.andThen h).Accounts (e * e') :=
  Tells.mono (Tells.andThen first second) (fun both => both.1.mul both.2) nil_mem_mul.mp

theorem Accounts.join (first : f.Accounts e) (second : g.Accounts e') :
    (f.join g).Accounts (e + e') :=
  Tells.mono (Tells.join first second) (fun both => both.1.add both.2) id

theorem Accounts.ofTraces (accounts : f.Accounts e) : f.Describes (.ofTraces e) :=
  Tells.mono accounts Behaviour.quiet_ofTraces id

theorem Describes.seq (first : f.Describes b) (second : (h false).Describes c) :
    (f.andThen h).Describes (b.seq c) :=
  Tells.mono (Tells.andThen first second) (fun both => both.1.seq both.2) fun passed => by
    rwa [Behaviour.seq_normal, nil_mem_mul] at passed

theorem Describes.join (first : f.Describes b) (second : g.Describes c) :
    (f.join g).Describes (b + c) :=
  Tells.mono (Tells.join first second) (fun both => both.1.add both.2) id

theorem accounts_one : (idle false).Accounts 1 :=
  fun _ => ⟨quiet_one, fun assigned => by cases assigned⟩

theorem describes_skip : (idle false).Describes (.exit .normal) :=
  fun _ => ⟨Behaviour.quiet_exit .normal, fun assigned => by cases assigned⟩

section expressions

variable {ℓ : Type} {name : String}

theorem evalAll_accounts {ts : List (Term ℓ)}
    (each : ∀ t ∈ ts, (walk name .expression t false).Accounts (t.eval name)) :
    (walkAll name .expression ts false).Accounts (Term.evalAll name ts) := by
  induction ts with
  | nil => exact accounts_one
  | cons t ts ih =>
    rw [walkAll, Term.evalAll]
    exact (each t (by simp)).andThen (ih fun r later => each r (by simp [later]))

theorem evalOption_accounts {t : Option (Term ℓ)}
    (each : ∀ r ∈ t, (walk name .expression r false).Accounts (r.eval name)) :
    (walkOption name .expression t false).Accounts (Term.evalOption name t) := by
  cases t with
  | none => exact accounts_one
  | some r => exact each r rfl

theorem exposed_of_isIdentifier {t : Term ℓ} (named : t.isIdentifier name = true) :
    (walk name .expression t false).exposed = true := by
  obtain ⟨l, k⟩ := t
  cases k with
  | identifier x => simpa [walk, Term.isIdentifier, Term.kind] using named
  | _ => cases named

theorem eval_accounts {t : Term ℓ} (placed : t.wellPlaced .expression = true) :
    (walk name .expression t false).Accounts (t.eval name) := by
  induction t using Term.inductChildren with
  | step l k ih =>
    have inner {c : Term ℓ} (child : c ∈ k.children) :
        (walk name .expression c false).Accounts (c.eval name) :=
      ih c child (Term.wellPlaced_expression placed child)
    have admitted := (Term.wellPlaced_iff.mp placed).1
    cases k with
    | identifier x =>
      cases same : x == name with
      | true => exact fun silent => by simp [walk, same] at silent
      | false =>
        simp only [walk, Term.eval, same, Bool.false_and]
        exact accounts_one
    | assignment op left right =>
      cases target : left.isIdentifier name with
      | true =>
        intro silent
        simp only [walk, target, if_true, Bool.or_eq_false_iff, Bool.not_false, Bool.and_true,
          bne_eq_false_iff_eq] at silent
        obtain ⟨rfl, silent⟩ := silent
        have value := (inner (c := right) (by simp [Kind.children, Kind.slots, Slot.children]) silent).1
        simp only [Term.eval, target, if_true, beq_self_eq_true, one_mul]
        exact ⟨value.mul fun _ => quiet_write, fun _ passed => nil_not_mem_write (nil_mem_mul.mp passed).2⟩
      | false =>
        simp only [walk, target, Term.eval]
        exact (inner (by simp [Kind.children, Kind.slots, Slot.children])).andThen
          (inner (by simp [Kind.children, Kind.slots, Slot.children]))
    | unary op operand =>
      have value := inner (c := operand) (by simp [Kind.children, Kind.slots, Slot.children])
      cases target : op.isIncrement && operand.isIdentifier name with
      | true =>
        intro silent
        simp only [walk, target, if_true, resume] at silent
        rw [exposed_of_isIdentifier (Bool.and_eq_true_iff.mp target).2] at silent
        cases silent
      | false => simpa [walk, Term.eval, target] using value
    | binary op left right =>
      have second := inner (c := right) (by simp [Kind.children, Kind.slots, Slot.children])
      simp only [walk, Term.eval]
      refine (inner (by simp [Kind.children, Kind.slots, Slot.children])).andThen ?_
      split
      · exact Tells.mono (Tells.resume second fun impossible => by cases impossible)
          (fun quiet => quiet_one.add quiet) id
      · exact second
    | conditional cond thenValue elseValue =>
      simp only [walk, Term.eval]
      refine (inner (by simp [Kind.children, Kind.slots, Slot.children])).andThen ?_
      exact (inner (by simp [Kind.children, Kind.slots, Slot.children])).join
        (inner (by simp [Kind.children, Kind.slots, Slot.children]))
    | invocation target method args =>
      simp only [walk, Term.eval]
      refine (evalOption_accounts fun r known => inner ?_).andThen
        (evalAll_accounts fun r listed => inner ?_)
      · simp [Kind.children, Kind.slots, Slot.children, Option.mem_def.mp known]
      · simp [Kind.children, Kind.slots, Slot.children, listed]
    | memberReference target member =>
      simpa only [walk, Term.eval] using
        inner (by simp [Kind.children, Kind.slots, Slot.children])
    | index target position =>
      simp only [walk, Term.eval]
      exact (inner (by simp [Kind.children, Kind.slots, Slot.children])).andThen
        (inner (by simp [Kind.children, Kind.slots, Slot.children]))
    | cast ty expr =>
      simpa only [walk, Term.eval] using
        inner (by simp [Kind.children, Kind.slots, Slot.children])
    | creation ty args =>
      simp only [walk, Term.eval]
      refine evalAll_accounts fun r listed => inner ?_
      simp [Kind.children, Kind.slots, Slot.children, listed]
    | empty | literal value | this | super =>
      simpa only [walk, Term.eval] using accounts_one
    | _ => cases admitted

end expressions

section lists

variable {ℓ : Type} {name : String} {p : Position} {s : Bool}

theorem walkEach_tells {ts : List (Term ℓ)} {Q N : Term ℓ → Prop} {quiet idle : Prop}
    (first : f.Tells quiet idle) (each : ∀ t ∈ ts, (walk name p t s).Tells (Q t) (N t)) :
    ((walkEach name p ts s).foldl join f).Tells (quiet ∧ ∀ t ∈ ts, Q t) (idle ∨ ∃ t ∈ ts, N t) := by
  induction ts generalizing f quiet idle with
  | nil => exact first.mono (fun quiet => ⟨quiet, by simp⟩) (by simp)
  | cons t ts ih =>
    rw [walkEach, List.foldl_cons]
    refine (ih (first.join (each t (by simp))) fun r later => each r (by simp [later])).mono ?_ ?_
    · rintro ⟨⟨quiet, own⟩, rest⟩
      exact ⟨quiet, by simpa using ⟨own, rest⟩⟩
    · rintro (passed | ⟨r, listed, passed⟩)
      · exact .inl (.inl passed)
      · rcases List.mem_cons.mp listed with rfl | later
        · exact .inl (.inr passed)
        · exact .inr ⟨r, later, passed⟩

theorem runAll_describes {ts : List (Term ℓ)}
    (each : ∀ t ∈ ts, (walk name .statement t false).Describes (t.run name)) :
    (walkAll name .statement ts false).Describes (Term.runAll name ts) := by
  induction ts with
  | nil => exact describes_skip
  | cons t ts ih =>
    rw [walkAll, Term.runAll]
    exact (each t (by simp)).seq (ih fun r later => each r (by simp [later]))

theorem runOption_describes {t : Option (Term ℓ)}
    (each : ∀ r ∈ t, (walk name .statement r false).Describes (r.run name)) :
    (walkOption name .statement t false).Describes (Term.runOption name t) := by
  cases t with
  | none => exact describes_skip
  | some r => exact each r rfl

theorem attempt_describes {t : Option (Term ℓ)}
    (placed : ∀ r ∈ t, r.wellPlaced .expression = true) :
    (walkOption name .expression t false).Describes (Term.attempt name t) := by
  cases t with
  | none => exact describes_skip
  | some r => exact (eval_accounts (placed r rfl)).ofTraces

end lists

end Flow

namespace Kind

variable {α : Type}

/-- The body of a loop that has something to do between the body and the next round. -/
def tailed? : Kind α → Option α
  | .doWhile body _ => some body
  | .forLoop _ _ _ body => some body
  | _ => none

def rebinds (name : String) : Kind α → Bool
  | .binding x _ => x == name
  | k => Term.hides name k

end Kind

/-- Code that the variable is in scope in throughout, and in which no `continue` goes on with the
condition of a `do` loop or the updates of a `for`. -/
structure Term.Direct {ℓ : Type} (name : String) (t : Term ℓ) : Prop where
  fresh : ∀ n ∈ t.subterms, n.kind.rebinds name = false
  onward : ∀ n ∈ t.subterms, ∀ body ∈ n.kind.tailed?, body.leavesBy .cont = false

theorem Term.Direct.of_all {ℓ : Type} {name : String} {t : Term ℓ}
    (fresh : (t.subterms.all fun n => !n.kind.rebinds name) = true)
    (onward : (t.subterms.all fun n => n.kind.tailed?.all fun body => !body.leavesBy .cont) = true) :
    t.Direct name where
  fresh n inside := by simpa using List.all_eq_true.mp fresh n inside
  onward n inside body known := by
    have stays := List.all_eq_true.mp onward n inside
    rw [Option.mem_def.mp known] at stays
    simpa using stays

theorem Term.Direct.child {ℓ : Type} {name : String} {l : ℓ} {k : Kind (Term ℓ)} {c : Term ℓ}
    (direct : (Term.node l k).Direct name) (child : c ∈ k.children) : c.Direct name where
  fresh n inside := direct.fresh n (Term.mem_subterms_of_child (t := .node l k) child inside)
  onward n inside := direct.onward n (Term.mem_subterms_of_child (t := .node l k) child inside)

namespace Flow

open Behaviour

variable {f : Flow} {h : Bool → Flow} {b c leave : Behaviour}

theorem describes_exit {how : Exit} (jump : how ≠ .normal) (s : Bool) :
    (idle s).Describes (exit how) := by
  refine fun _ => ⟨quiet_exit how, fun _ passed => ?_⟩
  rw [exit_normal jump] at passed
  exact Language.notMem_zero _ passed

/- What leaves the normal flow counts as assigned: nothing goes on from its end. -/
theorem Describes.leaves (first : f.Describes b) {how : Exit} (jump : how ≠ .normal) :
    (f.resume true).Describes (b.seq (exit how)) := by
  refine Tells.mono (Tells.resume first fun _ => not_false) (fun quiet => quiet.seq fun _ => quiet_exit how)
    fun passed => ?_
  rw [seq_normal, exit_normal jump, mul_zero] at passed
  exact Language.notMem_zero _ passed

/- A loop with its condition first: every round starts with the condition, and so does the way out. -/
theorem Describes.loop (cond : f.Describes b) (unbroken : b .brk = 0) {quiet idle : Prop}
    (inner : (h false).Tells quiet idle) (body : quiet → c.Quiet)
    (leaveQuiet : b.Quiet → leave.Quiet) (leaveNormal : [] ∈ leave .normal → [] ∈ b .normal) :
    (f.andThen fun s => (h s).resume s).Describes (Behaviour.loop (b.seq c) leave) := by
  have second : ((h false).resume false).Tells quiet True :=
    Tells.resume inner fun impossible => by cases impossible
  refine Tells.mono (Tells.andThen (h := fun s => (h s).resume s) cond second) ?_ ?_
  · rintro ⟨quiet, rest⟩
    exact (quiet.seq fun passed => body (rest passed)).loop (leaveQuiet quiet)
  · intro passed
    refine ⟨?_, trivial⟩
    rcases (Language.mem_add _ _ []).mp (nil_mem_mul.mp passed).2 with left | broken
    · exact leaveNormal left
    · rw [Behaviour.seq, abrupt, unbroken, ite_self, zero_add] at broken
      exact (nil_mem_mul.mp broken).1

theorem Describes.doWhile (round : f.Describes b) {broken : Bool}
    (unbroken : broken = false → b .brk = 0) :
    (if broken then f.resume false else f).Describes (Behaviour.loop b b) := by
  split
  · exact Tells.mono (Tells.resume round fun impossible => by cases impossible)
      (fun quiet => quiet.loop quiet) id
  · rename_i stays
    refine Tells.mono round (fun quiet => quiet.loop quiet) fun passed => ?_
    have last := (nil_mem_mul.mp passed).2
    rwa [unbroken (by simpa using stays), add_zero] at last

section statements

variable {ℓ : Type} {name : String}

theorem Describes.rescue {cs : List (Term ℓ)} (first : f.Describes b)
    (each : ∀ c ∈ cs, (walk name .statement c false).Describes (c.run name)) :
    ((walkEach name .statement cs false).foldl Flow.join f).Describes
      (b.rescue (Term.runAny name cs)) := by
  refine (walkEach_tells first each).mono ?_ ?_
  · rintro ⟨quiet, clauses⟩
    exact quiet.rescue (Term.quiet_runAny clauses)
  · intro passed
    rcases (Language.mem_add _ _ []).mp passed with left | handled
    · exact .inl left
    · exact .inr (Term.mem_runAny.mp (nil_mem_mul.mp handled).2)

theorem Describes.ensure {g : Flow} (first : f.Describes b) (last : g.Describes c) :
    (f.meet g).Describes (b.ensure c) := by
  refine (Tells.meet first last).mono (fun both => both.1.ensure both.2) fun passed => ?_
  rw [Behaviour.ensure, if_neg (by simp), abrupt, if_pos rfl, mul_zero, add_zero] at passed
  exact nil_mem_mul.mp passed

theorem binding_describes {t : Term ℓ} (placed : t.wellPlaced .binding = true)
    (fresh : t.kind.rebinds name = false) :
    (walkBindings name [t] false).Describes (t.run name) := by
  obtain ⟨l, k⟩ := t
  obtain ⟨admitted, parts⟩ := Term.wellPlaced_iff.mp placed
  cases k with
  | binding x init =>
    have other : (x == name) = false := fresh
    have value : (walkOption name .expression init false).Describes (Term.attempt name init) :=
      attempt_describes fun r known => parts (.expression, r) (by simp [Kind.places, Kind.children,
        Kind.slots, Slot.children, Option.mem_def.mp known])
    rw [Term.run]
    cases init with
    | none => exact value
    | some r =>
      simp only [walkBindings, other, Bool.false_eq_true, if_false, andThen_idle]
      exact value
  | _ => cases admitted

theorem declaration_describes {bs : List (Term ℓ)}
    (each : ∀ t ∈ bs, (walkBindings name [t] false).Describes (t.run name)) :
    (walkBindings name bs false).Describes (Term.runAll name bs) := by
  induction bs with
  | nil => exact describes_skip
  | cons t bs ih =>
    rw [walkBindings_cons, Term.runAll]
    exact (each t (by simp)).seq (ih fun r later => each r (by simp [later]))

theorem labels_quiet {t : Term ℓ} (placed : t.wellPlaced .switchSection = true)
    (silent : (walk name .statement t false).exposed = false) : (t.labels name).Quiet := by
  obtain ⟨l, k⟩ := t
  obtain ⟨admitted, parts⟩ := Term.wellPlaced_iff.mp placed
  cases k with
  | switchSection labels body =>
    have each (r : Term ℓ) (listed : r ∈ labels) :
        (walk name .expression r false).Accounts (r.eval name) :=
      eval_accounts (parts (.expression, r) (by simp [Kind.places, listed]))
    simp only [walk] at silent
    have quiet := (walkEach_tells (f := idle false) (accounts_one) each
      (Bool.or_eq_false_iff.mp silent).1).1
    refine quiet_sum fun e member => ?_
    obtain ⟨r, listed, rfl⟩ := List.mem_map.mp member
    exact quiet.2 r listed
  | _ => cases admitted

theorem Describes.switch {ss : List (Term ℓ)} (value : f.Describes b)
    (placed : ∀ s ∈ ss, s.wellPlaced .switchSection = true)
    (each : ∀ s ∈ ss, (walk name .statement s false).Describes (s.run name)) :
    (f.andThen fun s => ((walkEach name .statement ss s).foldl Flow.join (idle s)).resume s).Describes
      (b.seq ((ofTraces (KStar.kstar (ss.map (Term.labels name)).sum)).seq
        (Term.runFrom name ss).breakable)) := by
  refine value.seq ?_
  have sections (s : Term ℓ) (listed : s ∈ ss) : (walk name .statement s false).Tells
      ((s.labels name).Quiet ∧ (s.run name).Quiet) ([] ∈ s.run name .normal) := fun silent =>
    ⟨⟨labels_quiet (placed s listed) silent, (each s listed silent).1⟩, (each s listed silent).2⟩
  refine Tells.mono (Tells.resume (walkEach_tells (f := idle false) accounts_one sections)
    fun impossible => by cases impossible) ?_ id
  rintro ⟨-, quiet⟩
  have labels : Traces.Quiet (ss.map (Term.labels name)).sum := by
    refine quiet_sum fun e member => ?_
    obtain ⟨s, listed, rfl⟩ := List.mem_map.mp member
    exact (quiet s listed).1
  exact (quiet_ofTraces labels.kstar).seq fun _ =>
    (Term.quiet_runFrom fun s listed => (quiet s listed).2).breakable

theorem walk_expression {k : Kind (Term ℓ)} (l : ℓ) (expression : k.isExpression = true) :
    walk name .statement (.node l k) = walk name .expression (.node l k) := by
  funext s
  cases k <;> first | cases expression; done | simp only [walk]

theorem header_describes {t : Term ℓ} (placed : t.wellPlaced .header = true)
    (fresh : ∀ n ∈ t.subterms, n.kind.rebinds name = false) :
    (walk name .statement t false).Describes (t.run name) := by
  obtain ⟨l, k⟩ := t
  obtain ⟨admitted, parts⟩ := Term.wellPlaced_iff.mp placed
  cases k with
  | declaration ty bindings isFinal =>
    rw [walk, Term.run]
    refine declaration_describes fun c listed => ?_
    refine binding_describes (parts (.binding, c) (List.mem_map_of_mem listed)) (fresh c ?_)
    exact Term.child_mem_subterms (t := .node l (.declaration ty bindings isFinal))
      (by simpa [Term.children, Term.kind, Kind.children, Kind.slots, Slot.children] using listed)
  | expressionStatement expr =>
    rw [walk, Term.run]
    exact (eval_accounts (parts (.expression, expr) List.mem_cons_self)).ofTraces
  | empty =>
    rw [walk, Term.run]
    exact describes_skip
  | _ =>
    first
      | rw [walk_expression l rfl, Term.run_expression l rfl (by simp)]
        exact (eval_accounts (Term.wellPlaced_iff.mpr ⟨rfl, parts⟩)).ofTraces
      | cases admitted

theorem run_describes {t : Term ℓ} {place : Place} (placed : t.wellPlaced place = true)
    (position : place.position = .statement) (direct : t.Direct name) :
    (walk name .statement t false).Describes (t.run name) := by
  induction t using Term.inductChildren generalizing place with
  | step l k ih =>
    obtain ⟨admitted, parts⟩ := Term.wellPlaced_iff.mp placed
    have inner {c : Term ℓ} {q : Place} (part : (q, c) ∈ k.places) (position : q.position = .statement) :
        (walk name .statement c false).Describes (c.run name) := by
      have child := Term.child_of_place part
      exact ih c child (parts _ part) position (direct.child child)
    have value {c : Term ℓ} (part : (.expression, c) ∈ k.places) :
        (walk name .expression c false).Describes (.ofTraces (c.eval name)) :=
      (eval_accounts (parts _ part)).ofTraces
    have fresh := direct.fresh _ (Term.self_mem_subterms _)
    have onward := direct.onward _ (Term.self_mem_subterms _)
    cases k with
    | block ss =>
      rw [walk, Term.run]
      exact runAll_describes fun s listed => inner (List.mem_map_of_mem listed) rfl
    | ifElse cond thenBranch elseBranch =>
      rw [walk, Term.run]
      refine (value (by simp [Kind.places])).seq (Describes.join (inner (q := .statement)
        (by simp [Kind.places]) rfl) (runOption_describes fun r known => ?_))
      exact inner (q := .statement) (by simp [Kind.places, Option.mem_def.mp known]) rfl
    | whileLoop cond body =>
      rw [walk, Term.run]
      exact (value (by simp [Kind.places])).loop rfl
        (inner (q := .statement) (by simp [Kind.places]) rfl) (fun quiet => quiet.again) id id
    | doWhile body cond =>
      have placed' := parts (.statement, body) (by simp [Kind.places])
      have unresumed : body.run name .cont = 0 := Term.run_jump rfl placed' (onward body rfl)
      simp only [walk, Term.run, again_eq unresumed]
      refine Describes.doWhile ((inner (q := .statement) (by simp [Kind.places]) rfl).seq
        (value (by simp [Kind.places]))) fun stays => ?_
      rw [Term.breaksOut_eq_leavesBy] at stays
      exact seq_jump rfl (Term.run_jump rfl placed' stays) (ofTraces_jump rfl _)
    | forLoop init cond update body =>
      have unresumed : body.run name .cont = 0 :=
        Term.run_jump rfl (parts (.statement, body) (by simp [Kind.places])) (onward body rfl)
      have header (c : Term ℓ) (listed : c ∈ init ++ update) :
          (walk name .statement c false).Describes (c.run name) := by
        refine inner (q := .header) ?_ rfl
        simp only [Kind.places, List.mem_append, List.mem_map, Prod.mk.injEq, true_and,
          exists_eq_right] at listed ⊢
        tauto
      have test : (walkOption name .expression cond false).Describes (Term.attempt name cond) :=
        attempt_describes fun r known => parts (.expression, r)
          (by simp [Kind.places, Option.mem_def.mp known])
      have updates : (walkAll name .statement update false).Describes (Term.runAll name update) :=
        runAll_describes fun c listed => header c (List.mem_append_right init listed)
      have round := (inner (c := body) (q := .statement) (by simp [Kind.places]) rfl).seq updates
      simp only [walk, Term.run, again_eq unresumed]
      refine (runAll_describes fun c listed => header c (List.mem_append_left update listed)).seq
        (test.loop (Term.attempt_jump rfl cond) round id ?_ ?_)
      · intro quiet
        split
        · exact quiet
        · exact fun _ => quiet_zero
      · split
        · exact id
        · exact fun passed => absurd passed (Language.notMem_zero _)
    | forEach ty x iterable body =>
      have other : (x == name) = false := fresh
      simp only [walk, Term.run, other]
      refine (value (by simp [Kind.places])).seq ?_
      exact Tells.mono (Tells.resume (inner (q := .statement) (by simp [Kind.places]) rfl)
        fun impossible => by cases impossible)
        (fun quiet => quiet.again.loop (quiet_ofTraces quiet_one)) id
    | tryCatch body catches finallyBranch =>
      have clauses (c : Term ℓ) (listed : c ∈ catches) :=
        inner (c := c) (q := .catchClause) (by simp [Kind.places, listed]) rfl
      have guarded := Describes.rescue (inner (c := body) (q := .statement) (by simp [Kind.places]) rfl)
        clauses
      cases finallyBranch with
      | none =>
        simp only [walk, Term.run]
        exact guarded
      | some last =>
        simp only [walk, Term.run]
        exact guarded.ensure (inner (q := .statement) (by simp [Kind.places]) rfl)
    | catchClause ty x body =>
      have other : (x == name) = false := fresh
      simp only [walk, Term.run, other]
      exact inner List.mem_cons_self rfl
    | switch subject sections =>
      have part (c : Term ℓ) (listed : c ∈ sections) :
          (Place.switchSection, c) ∈ (Kind.switch subject sections).places := by
        simp [Kind.places, listed]
      rw [walk, Term.run]
      exact (value (by simp [Kind.places])).switch (fun c listed => parts _ (part c listed))
        fun c listed => inner (part c listed) rfl
    | switchSection labels body =>
      rw [walk, Term.run]
      have first : (((walkEach name .expression labels false).foldl Flow.join (idle false)).resume
          false).Tells True True := fun _ => ⟨trivial, fun impossible => by cases impossible⟩
      exact (first.andThen (inner (q := .statement) (by simp [Kind.places]) rfl)).mono
        (fun both => both.2 trivial) fun passed => ⟨trivial, passed⟩
    | synchronized lock body =>
      rw [walk, Term.run]
      exact (value (by simp [Kind.places])).seq (inner (q := .statement) (by simp [Kind.places]) rfl)
    | ret result =>
      rw [walk, Term.run]
      refine (attempt_describes fun r known => ?_).leaves (by simp)
      exact parts (.expression, r) (by simp [Kind.places, Kind.children, Kind.slots, Slot.children,
        Option.mem_def.mp known])
    | throw expr =>
      rw [walk, Term.run]
      exact (value List.mem_cons_self).leaves (by simp)
    | brk | cont =>
      rw [walk, Term.run]
      exact describes_exit (by simp) true
    | binding x init => cases place <;> first | cases admitted; done | cases position
    | _ => exact header_describes (Term.wellPlaced_iff.mpr ⟨rfl, parts⟩) direct.fresh

end statements

end Flow

theorem Subject.statements_subset (subject : Subject) (b : Tree) :
    subject.statements b ⊆ b.statements := by
  rw [Subject.statements]
  split
  · exact fun _ => id
  · exact (List.dropWhile_suffix _).subset

theorem Subject.statement_placed {t b s : Tree} (ordered : Term.wellPlaced t .statement = true)
    (subject : Subject) (member : b ∈ t.subterms) (listed : s ∈ subject.statements b) :
    Term.wellPlaced s .statement = true := by
  obtain ⟨place, placed⟩ := Term.wellPlaced_below ordered member
  exact Term.placed_of_statement placed (subject.statements_subset b listed)

open Behaviour

/-- If nothing is reported of a part of a block, then no execution of it reads the variable before it
has written it. The code is placed as the grammar has it: in the header of a `for` stand only
declarations, expression statements and expressions. -/
theorem Subject.no_early_read {body : Body} {root : NodeId} {a : Arena}
    (lowered : Arena.ofBody body = (root, a)) (ordered : (a.view root).wellPlaced .statement = true)
    (subject : Subject) {b : Tree} {name : String} (member : b ∈ (a.view root).subterms)
    (block : subject.block = b.id) (direct : ∀ s ∈ subject.statements b, Term.Direct name s)
    (silent : subject.exposed a name = .ok []) :
    ∀ x, ∀ es ∈ Term.runAll name (subject.statements b) x, es.head? ≠ some .read := by
  have describes : (Flow.walkAll name .statement (subject.statements b) false).Describes
      (Term.runAll name (subject.statements b)) := Flow.runAll_describes fun s listed =>
    Flow.run_describes (subject.statement_placed ordered member listed) rfl (direct s listed)
  have held := (Arena.holds_view lowered).below member
  have unexposed := (subject.exposed_nil held name block).mp silent
  exact (describes unexposed).1

/-- `do { v = 1; } while (v); use(v);` -/
def Body.repeated : Body :=
  .braces [.plain (.doWhile (.braces [.setOne "v"]) (.read "v")), .use "v"]

def Tree.loopOfRepeated : Tree :=
  shown 6 (.doWhile (shown 4 (.block [shown 3 (.expressionStatement (shown 2 (.assignment .plain
    (shown 0 (.identifier "v")) (shown 1 (.literal (.int 1))))))])) (shown 5 (.identifier "v")))

def Tree.useOfRepeated : Tree :=
  shown 9 (.expressionStatement (shown 8 (.invocation none "use" [shown 7 (.identifier "v")])))

def Tree.ofRepeated : Tree := shown 10 (.block [loopOfRepeated, useOfRepeated])

theorem Arena.view_repeated :
    (Arena.ofBody .repeated).2.view (Arena.ofBody .repeated).1 = Tree.ofRepeated := by cbv

/- However often the loop goes round, the variable is written first. -/
theorem Subject.no_early_read_repeated :
    [.write, .read, .read] ∈ Term.runAll "v" [Tree.loopOfRepeated, Tree.useOfRepeated] .normal ∧
      ∀ x, ∀ es ∈ Term.runAll "v" [Tree.loopOfRepeated, Tree.useOfRepeated] x,
        es.head? ≠ some .read := by
  have round : [.write, .read] ∈ Term.run "v" Tree.loopOfRepeated .normal := by
    refine Language.mem_mul.mpr ⟨[], Language.nil_mem_kstar _, [.write, .read], .inl ?_, rfl⟩
    rw [seq_normal]
    refine Language.append_mem_mul (a := [Access.write]) (b := [Access.read]) (.inl ?_) ?_
    · simp only [Tree.shown, Term.run, Term.runAll, seq_normal, ofTraces, Term.eval, Term.isIdentifier,
        Term.kind, beq_self_eq_true, if_true, exit_self, one_mul, mul_one]
      rfl
    · simp only [Tree.shown, ofTraces, Term.eval, beq_self_eq_true, if_true]
      rfl
  refine ⟨?_, ?_⟩
  · rw [Term.runAll, seq_normal]
    refine Language.append_mem_mul (a := [Access.write, Access.read]) (b := [Access.read]) round ?_
    simp only [Tree.useOfRepeated, Tree.shown, Term.run, Term.runAll, seq_normal, ofTraces, Term.eval,
      Term.evalOption, Term.evalAll, beq_self_eq_true, if_true, exit_self, one_mul, mul_one]
    rfl
  · have view := Arena.view_repeated
    have direct (s : Tree) (listed : s ∈ Tree.ofRepeated.statementsFrom ⟨6⟩) : Term.Direct "v" s := by
      have which : s = Tree.loopOfRepeated ∨ s = Tree.useOfRepeated := by
        simpa [Tree.ofRepeated, Tree.shown, Tree.statements, Term.kind, Kind.statements]
          using (List.dropWhile_suffix _).subset listed
      rcases which with rfl | rfl <;> exact .of_all (by decide +kernel) (by decide +kernel)
    exact Subject.no_early_read (b := Tree.ofRepeated) Prod.mk.eta.symm
      (by rw [view]; decide +kernel) ⟨⟨10⟩, some ⟨⟨6⟩, ⟨10⟩⟩⟩
      (by rw [view]; exact Term.self_mem_subterms _) rfl direct (by decide +kernel)

end LocalScope
