import LocalScope.Proofs.Subterms
import Mathlib.Computability.Language

/-! What code does with one variable when it runs. Only the order of its reads and writes matters, so
an execution is the list of them, and code is the set of its executions. Nothing is known of any value:
a condition may turn out either way, a `switch` may choose any section, a loop may go round any number
of times and every expression may raise an exception. What binds the name again is not looked at: the
code is taken to hold no other variable of the name. -/
namespace LocalScope

inductive Access where
  | read
  | write
deriving DecidableEq, Repr

abbrev Traces := Language Access

/-- How control leaves a statement. What has been seen of an execution at some moment, whether or not it
ever leaves, is `running`. -/
inductive Exit where
  | normal
  | brk
  | cont
  | ret
  | thrown
  | running
deriving DecidableEq, Repr

/-- The executions of a statement, by the way they leave it. -/
abbrev Behaviour := Exit → Traces

def Traces.prefixes (e : Traces) : Traces := {es | ∃ rest, es ++ rest ∈ e}

namespace Behaviour

def exit (how : Exit) : Behaviour := fun x => if x = how ∨ x = .running then 1 else 0

/-- An expression is evaluated to its end, or is left on the way. -/
def ofTraces (e : Traces) : Behaviour
  | .normal => e
  | .thrown | .running => e.prefixes
  | .brk | .cont | .ret => 0

def abrupt (b : Behaviour) : Behaviour := fun x => if x = .normal then 0 else b x

def seq (b c : Behaviour) : Behaviour := fun x => b.abrupt x + b .normal * c x

/-- What is repeated goes on after a `continue` as after its end. -/
def again (b : Behaviour) : Behaviour
  | .normal => b .normal + b .cont
  | .cont => 0
  | x => b x

/-- Some rounds, and then the way out, or a round that is not finished. -/
def loop (round leave : Behaviour) : Behaviour
  | .normal => KStar.kstar (round .normal) * (leave .normal + round .brk)
  | .brk | .cont => 0
  | x => KStar.kstar (round .normal) * (leave x + round x)

def breakable (b : Behaviour) : Behaviour
  | .normal => b .normal + b .brk
  | .brk => 0
  | x => b x

/-- An exception may be caught, and then the handler follows. -/
def rescue (b handler : Behaviour) : Behaviour := fun x => b x + b .thrown * handler x

def ended (b : Behaviour) : Traces := b .normal + b .brk + b .cont + b .ret + b .thrown

/-- However the first part is left, the last one runs; the way is then that of the first part, unless
the last one is left in a way of its own. -/
def ensure (b last : Behaviour) : Behaviour := fun x =>
  (if x = .running then b .running else b x * last .normal) + b.ended * last.abrupt x

end Behaviour

namespace Term

variable {ℓ : Type} (name : String)

mutual

/-- The executions that evaluate an expression to its end. -/
def eval : Term ℓ → Traces
  | .node _ (.identifier x) => if x == name then {[.read]} else 1
  | .node _ (.assignment op left right) =>
    if left.isIdentifier name then
      (if op == .plain then 1 else {[.read]}) * eval right * {[.write]}
    else eval left * eval right
  | .node _ (.unary op operand) =>
    if op.isIncrement && operand.isIdentifier name then {[.read, .write]} else eval operand
  | .node _ (.binary op left right) =>
    eval left * (if op.isShortCircuit then 1 + eval right else eval right)
  | .node _ (.conditional cond thenValue elseValue) =>
    eval cond * (eval thenValue + eval elseValue)
  | .node _ (.invocation target _ args) => evalOption target * evalAll args
  | .node _ (.memberReference target _) => eval target
  | .node _ (.index target position) => eval target * eval position
  | .node _ (.cast _ expr) => eval expr
  | .node _ (.creation _ args) => evalAll args
  | .node _ .empty | .node _ (.literal _) | .node _ .this | .node _ .super => 1
  | _ => 0

def evalAll : List (Term ℓ) → Traces
  | [] => 1
  | t :: ts => eval t * evalAll ts

def evalOption : Option (Term ℓ) → Traces
  | none => 1
  | some t => eval t

end

def evalAny (ts : List (Term ℓ)) : Traces := (ts.map (eval name)).sum

def labels (s : Term ℓ) : Traces :=
  match s.kind with
  | .switchSection ls _ => evalAny name ls
  | _ => 0

open Behaviour

def attempt (t : Option (Term ℓ)) : Behaviour :=
  match t with
  | none => exit .normal
  | some t => ofTraces (eval name t)

mutual

/-- The executions of a statement, a clause or a section. -/
def run : Term ℓ → Behaviour
  | .node _ (.block ss) => runAll ss
  | .node _ (.declaration _ bs _) => runAll bs
  | .node _ (.binding _ init) => attempt name init
  | .node _ (.expressionStatement expr) => ofTraces (eval name expr)
  | .node _ (.ifElse cond thenBranch elseBranch) =>
    (ofTraces (eval name cond)).seq (run thenBranch + runOption elseBranch)
  | .node _ (.whileLoop cond body) =>
    loop ((ofTraces (eval name cond)).seq (run body).again) (ofTraces (eval name cond))
  | .node _ (.doWhile body cond) =>
    let round := (run body).again.seq (ofTraces (eval name cond))
    loop round round
  | .node _ (.forLoop init cond update body) =>
    (runAll init).seq (loop ((attempt name cond).seq ((run body).again.seq (runAll update)))
      (if cond.isSome then attempt name cond else 0))
  | .node _ (.forEach _ _ iterable body) =>
    (ofTraces (eval name iterable)).seq (loop (run body).again (ofTraces 1))
  | .node _ (.tryCatch body catches finallyBranch) =>
    let guarded := (run body).rescue (runAny catches)
    match finallyBranch with
    | none => guarded
    | some last => guarded.ensure (run last)
  | .node _ (.catchClause _ _ body) => run body
  | .node _ (.switch value sections) =>
    (ofTraces (eval name value)).seq
      ((ofTraces (KStar.kstar (sections.map (labels name)).sum)).seq (runFrom sections).breakable)
  | .node _ (.switchSection _ body) => run body
  | .node _ (.synchronized lock body) => (ofTraces (eval name lock)).seq (run body)
  | .node _ (.ret value) => (attempt name value).seq (exit .ret)
  | .node _ (.throw expr) => (ofTraces (eval name expr)).seq (exit .thrown)
  | .node _ .brk => exit .brk
  | .node _ .cont => exit .cont
  | .node _ .empty => exit .normal
  | t => ofTraces (eval name t)

def runAll : List (Term ℓ) → Behaviour
  | [] => exit .normal
  | t :: ts => (run t).seq (runAll ts)

def runOption : Option (Term ℓ) → Behaviour
  | none => exit .normal
  | some t => run t

def runAny : List (Term ℓ) → Behaviour
  | [] => 0
  | t :: ts => run t + runAny ts

/-- All sections from some section on, or none of them. -/
def runFrom : List (Term ℓ) → Behaviour
  | [] => exit .normal
  | t :: ts => (run t).seq (runAll ts) + runFrom ts

end

end Term

namespace Traces

def Quiet (e : Traces) : Prop := ∀ es ∈ e, es.head? ≠ some .read

variable {e f : Traces}

theorem quiet_zero : Quiet 0 := fun _ none => absurd none (Language.notMem_zero _)

theorem quiet_one : Quiet 1 := by
  intro es member
  obtain rfl := (Language.mem_one es).mp member
  simp

theorem quiet_write : Quiet {[.write]} := by
  intro es member
  obtain rfl : es = [.write] := member
  simp

theorem nil_not_mem_write : [] ∉ ({[.write]} : Traces) := by
  intro member
  cases (member : [] = [Access.write])

theorem Quiet.add (first : e.Quiet) (second : f.Quiet) : Quiet (e + f) := by
  intro es member
  exact ((Language.mem_add e f es).mp member).elim (first es) (second es)

theorem quiet_sum {es : List Traces} (each : ∀ e ∈ es, e.Quiet) : Quiet es.sum := by
  induction es with
  | nil => exact quiet_zero
  | cons e es ih =>
    rw [List.sum_cons]
    exact (each e (by simp)).add (ih fun f later => each f (by simp [later]))

theorem nil_mem_mul : [] ∈ e * f ↔ [] ∈ e ∧ [] ∈ f := by
  rw [Language.mem_mul]
  constructor
  · rintro ⟨a, first, b, second, both⟩
    obtain ⟨rfl, rfl⟩ := List.append_eq_nil_iff.mp both
    exact ⟨first, second⟩
  · rintro ⟨first, second⟩
    exact ⟨[], first, [], second, rfl⟩

/- What comes second matters only where the first part does nothing. -/
theorem Quiet.mul (first : e.Quiet) (second : [] ∈ e → f.Quiet) : Quiet (e * f) := by
  intro es member
  obtain ⟨a, inFirst, b, inSecond, rfl⟩ := Language.mem_mul.mp member
  cases a with
  | nil => exact second inFirst b inSecond
  | cons x xs => exact first (x :: xs) inFirst

theorem Quiet.kstar (quiet : e.Quiet) : Quiet (KStar.kstar e) := by
  intro es member
  obtain ⟨parts, rfl, each⟩ := Language.mem_kstar.mp member
  induction parts with
  | nil => simp
  | cons part parts ih =>
    have rest := ih (fun p later => each p (by simp [later]))
      (Language.join_mem_kstar fun p later => each p (by simp [later]))
    have first := quiet part (each part (by simp))
    cases part with
    | nil => exact rest
    | cons x xs => exact first

theorem Quiet.prefixes (quiet : e.Quiet) : e.prefixes.Quiet := by
  rintro es ⟨rest, member⟩
  cases es with
  | nil => simp
  | cons x xs => exact fun first => quiet _ member first

end Traces

open Traces

namespace Behaviour

def Quiet (b : Behaviour) : Prop := ∀ x, (b x).Quiet

variable {b c : Behaviour}

theorem quiet_exit (how : Exit) : (exit how).Quiet := by
  intro x
  rw [exit]
  split
  · exact quiet_one
  · exact quiet_zero

theorem quiet_ofTraces {e : Traces} (quiet : e.Quiet) : (ofTraces e).Quiet := by
  intro x
  cases x with
  | normal => exact quiet
  | thrown | running => exact quiet.prefixes
  | brk | cont | ret => exact quiet_zero

theorem Quiet.abrupt (quiet : b.Quiet) : b.abrupt.Quiet := by
  intro x
  rw [Behaviour.abrupt]
  split
  · exact quiet_zero
  · exact quiet x

theorem Quiet.add (first : b.Quiet) (second : c.Quiet) : (b + c).Quiet :=
  fun x => (first x).add (second x)

theorem Quiet.seq (first : b.Quiet) (second : [] ∈ b .normal → c.Quiet) : (b.seq c).Quiet :=
  fun x => (first.abrupt x).add ((first .normal).mul fun idle => second idle x)

theorem Quiet.again (quiet : b.Quiet) : b.again.Quiet := by
  intro x
  cases x with
  | normal => exact (quiet .normal).add (quiet .cont)
  | cont => exact quiet_zero
  | brk | ret | thrown | running => exact quiet _

theorem Quiet.breakable (quiet : b.Quiet) : b.breakable.Quiet := by
  intro x
  cases x with
  | normal => exact (quiet .normal).add (quiet .brk)
  | brk => exact quiet_zero
  | cont | ret | thrown | running => exact quiet _

theorem Quiet.loop (round : b.Quiet) (leave : c.Quiet) : (loop b c).Quiet := by
  intro x
  have rounds := (round .normal).kstar
  cases x with
  | normal => exact rounds.mul fun _ => (leave .normal).add (round .brk)
  | brk | cont => exact quiet_zero
  | ret | thrown | running => exact rounds.mul fun _ => (leave _).add (round _)

theorem Quiet.rescue (first : b.Quiet) (handler : c.Quiet) : (b.rescue c).Quiet :=
  fun x => (first x).add ((first .thrown).mul fun _ => handler x)

theorem Quiet.ensure (first : b.Quiet) (last : c.Quiet) : (b.ensure c).Quiet := by
  intro x
  have ended : b.ended.Quiet :=
    ((((first .normal).add (first .brk)).add (first .cont)).add (first .ret)).add (first .thrown)
  refine Traces.Quiet.add ?_ (ended.mul fun _ => last.abrupt x)
  split
  · exact first .running
  · exact (first x).mul fun _ => last .normal

/-- Whatever has left was running before. -/
def Observed (b : Behaviour) : Prop := ∀ x, ∀ es ∈ b x, es ∈ b .running

theorem observed_zero : Observed 0 := fun _ _ none => absurd none (Language.notMem_zero _)

theorem observed_exit (how : Exit) : (exit how).Observed := by
  intro x es member
  rw [exit] at member ⊢
  split at member
  · rwa [if_pos (.inr rfl)]
  · exact absurd member (Language.notMem_zero _)

theorem observed_ofTraces (e : Traces) : (ofTraces e).Observed := by
  intro x es member
  cases x with
  | normal => exact ⟨[], by rwa [List.append_nil]⟩
  | thrown | running => exact member
  | brk | cont | ret => exact absurd member (Language.notMem_zero _)

theorem Observed.add (first : b.Observed) (second : c.Observed) : (b + c).Observed :=
  fun x es member => ((Language.mem_add _ _ es).mp member).imp (first x es) (second x es)

theorem Observed.seq (first : b.Observed) (second : c.Observed) : (b.seq c).Observed := by
  rintro x es (left | through)
  · rw [abrupt] at left
    split at left
    · exact absurd left (Language.notMem_zero _)
    · exact .inl (first x es left)
  · obtain ⟨a, before, d, after, rfl⟩ := Language.mem_mul.mp through
    exact .inr (Language.append_mem_mul before (second x d after))

theorem Observed.again (observed : b.Observed) : b.again.Observed := by
  intro x es member
  cases x with
  | normal => exact ((Language.mem_add _ _ es).mp member).elim (observed .normal es) (observed .cont es)
  | cont => exact absurd member (Language.notMem_zero _)
  | brk | ret | thrown | running => exact observed _ es member

theorem Observed.breakable (observed : b.Observed) : b.breakable.Observed := by
  intro x es member
  cases x with
  | normal => exact ((Language.mem_add _ _ es).mp member).elim (observed .normal es) (observed .brk es)
  | brk => exact absurd member (Language.notMem_zero _)
  | cont | ret | thrown | running => exact observed _ es member

theorem Observed.loop (round : b.Observed) (leave : c.Observed) : (loop b c).Observed := by
  intro x es member
  have out {y z : Exit} (member : es ∈ KStar.kstar (b .normal) * (c y + b z)) :
      es ∈ Behaviour.loop b c .running := by
    obtain ⟨a, before, d, after, rfl⟩ := Language.mem_mul.mp member
    exact Language.append_mem_mul before
      (((Language.mem_add _ _ d).mp after).imp (leave y d) (round z d))
  cases x with
  | brk | cont => exact absurd member (Language.notMem_zero _)
  | normal | ret | thrown | running => exact out member

theorem Observed.rescue (first : b.Observed) (handler : c.Observed) : (b.rescue c).Observed := by
  rintro x es (left | caught)
  · exact .inl (first x es left)
  · obtain ⟨a, before, d, after, rfl⟩ := Language.mem_mul.mp caught
    exact .inr (Language.append_mem_mul before (handler x d after))

theorem mem_ended {x : Exit} {es : List Access} (left : x ≠ .running) (member : es ∈ b x) :
    es ∈ b.ended := by
  simp only [ended, Language.mem_add]
  cases x <;> simp_all

theorem Observed.ensure (b : Behaviour) (last : c.Observed) : (b.ensure c).Observed := by
  have after {x : Exit} {es : List Access} (member : es ∈ b.ended * c x) : es ∈ b.ensure c .running := by
    obtain ⟨a, before, d, later, rfl⟩ := Language.mem_mul.mp member
    exact .inr (Language.append_mem_mul before (last x d later))
  rintro x es (left | overruled)
  · split at left
    · exact .inl (by rwa [if_pos rfl])
    · rename_i ends
      obtain ⟨a, before, d, later, rfl⟩ := Language.mem_mul.mp left
      exact after (Language.append_mem_mul (mem_ended ends before) later)
  · rw [abrupt] at overruled
    split at overruled
    · rw [mul_zero] at overruled
      exact absurd overruled (Language.notMem_zero _)
    · exact after overruled

@[simp] theorem exit_self (how : Exit) : exit how how = 1 := if_pos (.inl rfl)

theorem exit_normal {how : Exit} (jump : how ≠ .normal) : exit how .normal = 0 :=
  if_neg (by simp [jump.symm])

theorem seq_normal : b.seq c .normal = b .normal * c .normal := by
  rw [seq, abrupt, if_pos rfl, zero_add]

end Behaviour

namespace Term

open Behaviour

variable {ℓ : Type} {name : String}

theorem mem_runAny {cs : List (Term ℓ)} {es : List Access} {x : Exit} :
    es ∈ runAny name cs x ↔ ∃ c ∈ cs, es ∈ run name c x := by
  induction cs with
  | nil => simp [runAny]
  | cons c cs ih => simp [runAny, Language.mem_add, ih]

theorem quiet_runAny {cs : List (Term ℓ)} (each : ∀ c ∈ cs, (run name c).Quiet) :
    (runAny name cs).Quiet := by
  intro x es member
  obtain ⟨c, listed, member⟩ := mem_runAny.mp member
  exact each c listed x es member

theorem quiet_runFrom {ss : List (Term ℓ)} (each : ∀ s ∈ ss, (run name s).Quiet) :
    (runFrom name ss).Quiet := by
  have all {ss : List (Term ℓ)} (each : ∀ s ∈ ss, (run name s).Quiet) : (runAll name ss).Quiet := by
    induction ss with
    | nil => exact quiet_exit .normal
    | cons s ss ih =>
      rw [runAll]
      exact (each s (by simp)).seq fun _ => ih fun r later => each r (by simp [later])
  induction ss with
  | nil => exact quiet_exit .normal
  | cons s ss ih =>
    have rest (r : Term ℓ) (later : r ∈ ss) := each r (List.mem_cons_of_mem s later)
    rw [runFrom]
    exact ((each s (by simp)).seq fun _ => all rest).add (ih rest)

theorem attempt_observed (t : Option (Term ℓ)) : (attempt name t).Observed := by
  cases t with
  | none => exact observed_exit .normal
  | some t => exact observed_ofTraces _

section lists

variable {ts : List (Term ℓ)}

theorem runAll_observed (each : ∀ t ∈ ts, (run name t).Observed) : (runAll name ts).Observed := by
  induction ts with
  | nil => exact observed_exit .normal
  | cons t ts ih =>
    rw [runAll]
    exact (each t (by simp)).seq (ih fun r later => each r (by simp [later]))

theorem runOption_observed {t : Option (Term ℓ)} (each : ∀ r ∈ t, (run name r).Observed) :
    (runOption name t).Observed := by
  cases t with
  | none => exact observed_exit .normal
  | some r => exact each r rfl

theorem runAny_observed (each : ∀ t ∈ ts, (run name t).Observed) : (runAny name ts).Observed := by
  intro x es member
  obtain ⟨c, listed, member⟩ := mem_runAny.mp member
  exact mem_runAny.mpr ⟨c, listed, each c listed x es member⟩

theorem runFrom_observed (each : ∀ t ∈ ts, (run name t).Observed) : (runFrom name ts).Observed := by
  induction ts with
  | nil => exact observed_exit .normal
  | cons t ts ih =>
    have rest (r : Term ℓ) (later : r ∈ ts) := each r (List.mem_cons_of_mem t later)
    rw [runFrom]
    exact ((each t (by simp)).seq (runAll_observed rest)).add (ih rest)

end lists

theorem run_observed (t : Term ℓ) : (run name t).Observed := by
  induction t using Term.inductChildren with
  | step l k ih =>
    have value (e : Traces) : (ofTraces e).Observed := observed_ofTraces e
    simp only [Kind.children] at ih
    cases k with
    | block ss | declaration ty ss isFinal =>
      rw [run]
      exact runAll_observed fun s listed => ih s (by simp [Kind.slots, Slot.children, listed])
    | binding x init =>
      rw [run]
      exact attempt_observed init
    | ifElse cond thenBranch elseBranch =>
      rw [run]
      refine (value _).seq ((ih thenBranch (by simp [Kind.slots, Slot.children])).add
        (runOption_observed fun r known => ih r ?_))
      simp [Kind.slots, Slot.children, Option.mem_def.mp known]
    | whileLoop cond body =>
      rw [run]
      exact ((value _).seq (ih body (by simp [Kind.slots, Slot.children])).again).loop (value _)
    | doWhile body cond =>
      have round := (ih body (by simp [Kind.slots, Slot.children])).again.seq (value (eval name cond))
      rw [run]
      exact round.loop round
    | forLoop init cond update body =>
      have test : (attempt name cond).Observed := attempt_observed cond
      have leave : (if cond.isSome then attempt name cond else 0).Observed := by
        split
        · exact test
        · exact observed_zero
      rw [run]
      refine (runAll_observed fun s listed => ih s ?_).seq
        ((test.seq ((ih body ?_).again.seq (runAll_observed fun s listed => ih s ?_))).loop leave)
      · simp [Kind.slots, Slot.children, listed]
      · simp [Kind.slots, Slot.children]
      · simp [Kind.slots, Slot.children, listed]
    | forEach ty x iterable body =>
      rw [run]
      exact (value _).seq ((ih body (by simp [Kind.slots, Slot.children])).again.loop (value _))
    | tryCatch body catches finallyBranch =>
      cases finallyBranch with
      | none =>
        rw [run]
        exact (ih body (by simp [Kind.slots, Slot.children])).rescue
          (runAny_observed fun c listed => ih c (by simp [Kind.slots, Slot.children, listed]))
      | some last =>
        rw [run]
        exact .ensure _ (ih last (by simp [Kind.slots, Slot.children]))
    | catchClause ty x body =>
      rw [run]
      exact ih body (by simp [Kind.slots, Slot.children])
    | switch subject sections =>
      rw [run]
      refine (value _).seq ((value _).seq (runFrom_observed fun s listed => ih s ?_).breakable)
      simp [Kind.slots, Slot.children, listed]
    | switchSection labels body =>
      rw [run]
      exact ih body (by simp [Kind.slots, Slot.children])
    | synchronized lock body =>
      rw [run]
      exact (value _).seq (ih body (by simp [Kind.slots, Slot.children]))
    | ret result =>
      rw [run]
      exact (attempt_observed result).seq (observed_exit .ret)
    | throw expr =>
      rw [run]
      exact (value _).seq (observed_exit .thrown)
    | brk | cont | empty =>
      rw [run]
      exact observed_exit _
    | _ =>
      simp only [run]
      exact value _

end Term

end LocalScope
