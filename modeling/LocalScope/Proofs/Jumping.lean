import LocalScope.Proofs.Execution
import LocalScope.Proofs.Grammar

namespace LocalScope

/-- What a `break` or a `continue` below leads to the end of. -/
def Exit.endsAt {α : Type} : Exit → Kind α → Bool
  | .brk, k => Term.catchesBreaks k
  | .cont, k => k.isLoop
  | _, _ => false

def Exit.isJump : Exit → Bool
  | .brk | .cont => true
  | _ => false

def Kind.jump? {α : Type} : Kind α → Option Exit
  | .brk => some .brk
  | .cont => some .cont
  | _ => none

namespace Term

variable {ℓ : Type} {name : String} {e : Exit}

/-- Whether a jump of this sort below goes out of the node. -/
def leavesBy (e : Exit) : Term ℓ → Bool :=
  fold fun _ k => k.jump? == some e || !e.endsAt k && k.children.any id

theorem leavesBy_node (e : Exit) (l : ℓ) (k : Kind (Term ℓ)) :
    (node l k).leavesBy e =
      (k.jump? == some e || !e.endsAt k && k.children.any (leavesBy e)) := by
  rw [leavesBy, fold_node, ← leavesBy, Kind.children_map, List.any_map]
  cases e <;> cases k <;> rfl

theorem breaksOut_eq_leavesBy : (breaksOut : Term ℓ → Bool) = leavesBy .brk := by
  have same : (fun (_ : ℓ) (k : Kind Bool) => breaksAt k) =
      fun _ k => k.jump? == some .brk || !Exit.endsAt .brk k && k.children.any id := by
    funext _ k
    cases k <;> rfl
  rw [breaksOut, leavesBy, same]

theorem leavesBy_child {l : ℓ} {k : Kind (Term ℓ)} {c : Term ℓ}
    (stays : (node l k).leavesBy e = false) (through : e.endsAt k = false) (child : c ∈ k.children) :
    c.leavesBy e = false := by
  rw [leavesBy_node, through, Bool.or_eq_false_iff, Bool.not_false, Bool.true_and,
    List.any_eq_false] at stays
  exact Bool.eq_false_iff.mpr (stays.2 c child)

end Term

namespace Behaviour

variable {b c : Behaviour} {e : Exit}

theorem ofTraces_jump (jump : e.isJump = true) (t : Traces) : ofTraces t e = 0 := by
  cases e <;> first | rfl | cases jump

theorem seq_jump (jump : e.isJump = true) (first : b e = 0) (second : c e = 0) : b.seq c e = 0 := by
  have other : e ≠ .normal := by
    rintro rfl
    cases jump
  rw [seq, abrupt, if_neg other, first, second, mul_zero, add_zero]

theorem loop_jump (jump : e.isJump = true) : loop b c e = 0 := by
  cases e <;> first | rfl | cases jump

theorem rescue_jump (first : b e = 0) (second : c e = 0) : b.rescue c e = 0 := by
  rw [rescue, first, second, mul_zero, add_zero]

theorem ensure_jump (jump : e.isJump = true) (first : b e = 0) (second : c e = 0) :
    b.ensure c e = 0 := by
  have other : e ≠ .running := by
    rintro rfl
    cases jump
  have none : c.abrupt e = 0 := by
    rw [abrupt, second, ite_self]
  rw [ensure, if_neg other, first, none, zero_mul, mul_zero, add_zero]

theorem again_eq (none : b .cont = 0) : b.again = b := by
  funext x
  cases x with
  | normal => rw [again, none, add_zero]
  | cont => rw [again, none]
  | brk | ret | thrown | running => rfl

end Behaviour

namespace Term

open Behaviour

variable {ℓ : Type} {name : String} {e : Exit}

theorem run_expression {k : Kind (Term ℓ)} (l : ℓ) (expression : k.isExpression = true)
    (present : k ≠ .empty) : run name (node l k) = ofTraces (eval name (node l k)) := by
  cases k with
  | empty => exact absurd rfl present
  | _ => first | cases expression; done | simp only [run]

theorem attempt_jump (jump : e.isJump = true) (t : Option (Term ℓ)) : attempt name t e = 0 := by
  cases t with
  | none => cases e <;> first | rfl | cases jump
  | some t => exact ofTraces_jump jump _

section lists

variable {ts : List (Term ℓ)} (jump : e.isJump = true)

include jump

theorem runAll_jump (each : ∀ t ∈ ts, run name t e = 0) : runAll name ts e = 0 := by
  induction ts with
  | nil => cases e <;> first | rfl | cases jump
  | cons t ts ih =>
    rw [runAll]
    exact seq_jump jump (each t (by simp)) (ih fun r later => each r (by simp [later]))

theorem runOption_jump {t : Option (Term ℓ)} (each : ∀ r ∈ t, run name r e = 0) :
    runOption name t e = 0 := by
  cases t with
  | none => cases e <;> first | rfl | cases jump
  | some r => exact each r rfl

omit jump in
theorem runAny_jump (each : ∀ t ∈ ts, run name t e = 0) : runAny name ts e = 0 := by
  induction ts with
  | nil => rfl
  | cons t ts ih =>
    rw [runAny, Pi.add_apply, each t (by simp), ih fun r later => each r (by simp [later]), add_zero]

theorem runFrom_jump (each : ∀ t ∈ ts, run name t e = 0) : runFrom name ts e = 0 := by
  induction ts with
  | nil => cases e <;> first | rfl | cases jump
  | cons t ts ih =>
    have rest (r : Term ℓ) (later : r ∈ ts) : run name r e = 0 := each r (by simp [later])
    rw [runFrom, Pi.add_apply, seq_jump jump (each t (by simp)) (runAll_jump jump rest), ih rest,
      add_zero]

theorem header_jump {t : Term ℓ} (placed : t.wellPlaced .header = true) : run name t e = 0 := by
  obtain ⟨l, k⟩ := t
  obtain ⟨admitted, parts⟩ := wellPlaced_iff.mp placed
  cases k with
  | declaration ty bindings isFinal =>
    rw [run]
    refine runAll_jump jump fun t listed => ?_
    have bound := parts (.binding, t) (List.mem_map_of_mem listed)
    obtain ⟨l', k'⟩ := t
    cases k' with
    | binding x init =>
      rw [run]
      exact attempt_jump jump init
    | _ => cases (wellPlaced_iff.mp bound).1
  | expressionStatement expr =>
    rw [run]
    exact ofTraces_jump jump _
  | empty =>
    rw [run]
    cases e <;> first | rfl | cases jump
  | _ =>
    first
      | rw [run_expression l rfl (by simp)]
        exact ofTraces_jump jump _
      | cases admitted

/-- Only code that has such a jump out of it ends with one. -/
theorem run_jump {t : Term ℓ} {place : Place} (placed : t.wellPlaced place = true)
    (stays : t.leavesBy e = false) : run name t e = 0 := by
  induction t using Term.inductChildren generalizing place with
  | step l k ih =>
    obtain ⟨admitted, parts⟩ := wellPlaced_iff.mp placed
    have inner {c : Term ℓ} {q : Place} (through : e.endsAt k = false) (part : (q, c) ∈ k.places) :
        run name c e = 0 := by
      have child := child_of_place part
      exact ih c child (parts _ part) (leavesBy_child stays through child)
    have passes (inert : catchesBreaks k = false) : e.endsAt k = false := by
      have other : k.isLoop = false := by
        cases k <;> first | rfl | cases inert
      cases e <;> first | exact other | exact inert | rfl
    cases k with
    | block ss =>
      rw [run]
      exact runAll_jump jump fun s listed => inner (passes rfl) (List.mem_map_of_mem listed)
    | declaration ty bindings isFinal =>
      rw [run]
      exact runAll_jump jump fun s listed => inner (passes rfl) (List.mem_map_of_mem listed)
    | binding x init =>
      rw [run]
      exact attempt_jump jump init
    | expressionStatement expr =>
      rw [run]
      exact ofTraces_jump jump _
    | ifElse cond thenBranch elseBranch =>
      have first := inner (c := thenBranch) (q := .statement) (passes rfl) (by simp [Kind.places])
      have second : runOption name elseBranch e = 0 := runOption_jump jump fun r known =>
        inner (q := .statement) (passes rfl) (by simp [Kind.places, Option.mem_def.mp known])
      rw [run]
      exact seq_jump jump (ofTraces_jump jump _) (by rw [Pi.add_apply, first, second, add_zero])
    | whileLoop cond body | doWhile body cond =>
      rw [run]
      exact loop_jump jump
    | forLoop init cond update body =>
      rw [run]
      refine seq_jump jump (runAll_jump jump fun t listed => ?_) (loop_jump jump)
      exact header_jump jump (parts (.header, t) (by simp [Kind.places, listed]))
    | forEach ty x iterable body =>
      rw [run]
      exact seq_jump jump (ofTraces_jump jump _) (loop_jump jump)
    | tryCatch body catches finallyBranch =>
      have first := inner (c := body) (q := .statement) (passes rfl) (by simp [Kind.places])
      have second : runAny name catches e = 0 := runAny_jump fun c listed =>
        inner (q := .catchClause) (passes rfl) (by simp [Kind.places, listed])
      have guarded := rescue_jump first second
      cases finallyBranch with
      | none =>
        rw [run]
        exact guarded
      | some last =>
        rw [run]
        exact ensure_jump jump guarded (inner (q := .statement) (passes rfl) (by simp [Kind.places]))
    | catchClause ty x body =>
      rw [run]
      exact inner (passes rfl) List.mem_cons_self
    | switch value sections =>
      have each (through : e.endsAt (Kind.switch value sections) = false) :
          runFrom name sections e = 0 := runFrom_jump jump fun s listed =>
        inner (q := .switchSection) through (by simp [Kind.places, listed])
      rw [run]
      refine seq_jump jump (ofTraces_jump jump _) (seq_jump jump (ofTraces_jump jump _) ?_)
      cases e with
      | brk => rfl
      | cont => exact each rfl
      | _ => cases jump
    | switchSection labels body =>
      rw [run]
      exact inner (q := .statement) (passes rfl) (by simp [Kind.places])
    | synchronized lock body =>
      rw [run]
      exact seq_jump jump (ofTraces_jump jump _)
        (inner (q := .statement) (passes rfl) (by simp [Kind.places]))
    | ret value =>
      rw [run]
      refine seq_jump jump (attempt_jump jump value) ?_
      cases e <;> first | rfl | cases jump
    | throw expr =>
      rw [run]
      refine seq_jump jump (ofTraces_jump jump _) ?_
      cases e <;> first | rfl | cases jump
    | brk | cont =>
      rw [run]
      rw [leavesBy_node] at stays
      cases e <;> first | rfl | cases jump; done | cases stays
    | empty =>
      rw [run]
      cases e <;> first | rfl | cases jump
    | _ =>
      rw [run_expression l rfl (by simp)]
      exact ofTraces_jump jump _

end lists

end Term

end LocalScope
