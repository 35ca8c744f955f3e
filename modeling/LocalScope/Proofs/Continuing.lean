import LocalScope.Proofs.Locality
import LocalScope.Proofs.Soundness

/-! What is reported after a `continue`. For the flow walk nothing follows it, but in a `do` loop the
condition does, and in a `for` the updates. A variable that is still unassigned there is noticed only if
the body can also reach its end without an assignment. -/
namespace LocalScope

open Behaviour

namespace Kind

variable {ℓ : Type} (name : String)

/-- The executions of a loop up to a `continue` in some round. -/
def continues : Kind (Term ℓ) → Traces
  | .doWhile body cond =>
    KStar.kstar ((body.run name).again.seq (ofTraces (cond.eval name)) .normal) * body.run name .cont
  | .forLoop init cond update body =>
    Term.runAll name init .normal *
      (KStar.kstar ((Term.attempt name cond).seq
          ((body.run name).again.seq (Term.runAll name update)) .normal) *
        (Term.attempt name cond .normal * body.run name .cont))
  | _ => 0

/-- What a `continue` goes on with. -/
def tail : Kind (Term ℓ) → Behaviour
  | .doWhile _ cond => ofTraces (cond.eval name)
  | .forLoop _ _ update _ => Term.runAll name update
  | _ => 0

end Kind

section executions

variable {b c : Behaviour} {es fs : List Access} {x : Exit}

theorem Behaviour.mem_seq (first : es ∈ b .normal) (second : fs ∈ c x) : es ++ fs ∈ b.seq c x :=
  .inr (Language.append_mem_mul first second)

theorem Behaviour.mem_seq_left (first : es ∈ b x) (left : x ≠ .normal) : es ∈ b.seq c x :=
  .inl (by rwa [abrupt, if_neg left])

theorem Behaviour.mem_again (continued : es ∈ b .cont) : es ∈ b.again .normal := .inr continued

theorem Behaviour.mem_loop_running (rounds : es ∈ KStar.kstar (b .normal)) (last : fs ∈ b .running) :
    es ++ fs ∈ loop b c .running :=
  Language.append_mem_mul rounds (.inr last)

theorem Behaviour.mem_loop_normal (rounds : es ∈ KStar.kstar (b .normal)) (leave : fs ∈ c .normal) :
    es ++ fs ∈ loop b c .normal :=
  Language.append_mem_mul rounds (.inl leave)

theorem Behaviour.Observed.exists_read (observed : b.Observed) (loud : ¬ b.Quiet) :
    ∃ es ∈ b .running, es.head? = some .read := by
  simp only [Quiet, Traces.Quiet, not_forall, not_not] at loud
  obtain ⟨x, es, member, read⟩ := loud
  exact ⟨es, observed x es member, read⟩

theorem Access.head?_append (unwritten : .write ∉ es) (read : fs.head? = some .read) :
    (es ++ fs).head? = some .read := by
  cases es with
  | nil => exact read
  | cons e es => cases e with
    | read => rfl
    | write => simp at unwritten

theorem Traces.Quiet.eq_nil {e : Traces} (quiet : e.Quiet) (member : es ∈ e)
    (unwritten : .write ∉ es) : es = [] := by
  cases es with
  | nil => rfl
  | cons e es => cases e with
    | read => exact absurd rfl (quiet _ member)
    | write => simp at unwritten

end executions

namespace Term

variable {ℓ : Type} {name : String} {l : ℓ} {k : Kind (Term ℓ)} {body cond : Term ℓ}
  {es fs : List Access}

theorem tail_observed (k : Kind (Term ℓ)) : (k.tail name).Observed := by
  cases k with
  | doWhile body cond => exact observed_ofTraces _
  | forLoop init cond update body => exact runAll_observed fun t _ => run_observed t
  | _ => exact observed_zero

theorem run_after_continue (continued : es ∈ k.continues name) (after : fs ∈ k.tail name .running) :
    es ++ fs ∈ (node l k).run name .running := by
  cases k with
  | doWhile body cond =>
    obtain ⟨rounds, before, last, stopped, rfl⟩ := Language.mem_mul.mp continued
    rw [run, List.append_assoc]
    exact mem_loop_running before (mem_seq (mem_again stopped) after)
  | forLoop init cond update body =>
    obtain ⟨start, started, _, looped, rfl⟩ := Language.mem_mul.mp continued
    obtain ⟨rounds, before, _, round, rfl⟩ := Language.mem_mul.mp looped
    obtain ⟨test, passed, last, stopped, rfl⟩ := Language.mem_mul.mp round
    simp only [run, List.append_assoc]
    exact mem_seq started (mem_loop_running before (mem_seq passed (mem_seq (mem_again stopped) after)))
  | _ => exact absurd continued (Language.notMem_zero _)

theorem run_left_after_continue (continued : es ∈ (Kind.doWhile body cond).continues name)
    (after : fs ∈ cond.eval name) : es ++ fs ∈ (node l (.doWhile body cond)).run name .normal := by
  obtain ⟨rounds, before, last, stopped, rfl⟩ := Language.mem_mul.mp continued
  rw [run, List.append_assoc]
  exact mem_loop_normal before (mem_seq (mem_again stopped) after)

theorem reads_after_continue {rest : List (Term ℓ)} (continued : es ∈ k.continues name)
    (unwritten : .write ∉ es) (reads : ¬ (k.tail name).Quiet) :
    ¬ (runAll name (node l k :: rest)).Quiet := by
  intro quiet
  obtain ⟨fs, after, read⟩ := (tail_observed k).exists_read reads
  refine quiet .running (es ++ fs) ?_ (Access.head?_append unwritten read)
  rw [runAll]
  exact mem_seq_left (run_after_continue continued after) (by simp)

theorem reads_after_loop {rest : List (Term ℓ)}
    (continued : es ∈ (Kind.doWhile body cond).continues name) (unwritten : .write ∉ es)
    (left : fs ∈ cond.eval name) (unwritten' : .write ∉ fs) (reads : ¬ (runAll name rest).Quiet) :
    ¬ (runAll name (node l (.doWhile body cond) :: rest)).Quiet := by
  have observed : (runAll name rest).Observed := runAll_observed fun t _ => run_observed t
  intro quiet
  obtain ⟨gs, after, read⟩ := observed.exists_read reads
  have head := Access.head?_append unwritten (Access.head?_append unwritten' read)
  rw [← List.append_assoc] at head
  refine quiet .running _ ?_ head
  rw [runAll]
  exact mem_seq (run_left_after_continue continued left) after

end Term

namespace Flow

variable {f : Flow} {h : Bool → Flow} {b : Behaviour}

theorem Describes.exposed (describes : f.Describes b) (loud : ¬ b.Quiet) : f.exposed = true := by
  by_contra silent
  exact loud (describes (Bool.eq_false_iff.mpr silent)).1

theorem Describes.unassigned {es : List Access} (describes : f.Describes b)
    (silent : f.exposed = false) (passed : es ∈ b .normal) (unwritten : .write ∉ es) :
    f.assigned = false := by
  obtain ⟨quiet, writes⟩ := describes silent
  obtain rfl := (quiet .normal).eq_nil passed unwritten
  by_contra assigned
  exact writes (Bool.eq_true_of_not_eq_false assigned) passed

theorem andThen_exposed_iff (calm : h true = idle true) :
    (f.andThen h).exposed = true ↔ f.exposed = true ∨ f.assigned = false ∧ (h false).exposed = true := by
  rw [andThen]
  cases f.assigned <;> simp [calm]

variable {ℓ : Type} {name : String} {l : ℓ} {k : Kind (Term ℓ)} {body cond : Term ℓ}
  {es fs : List Access}

/-- What is known of the variable where the body of a loop starts for the first time. -/
def approach (name : String) : Kind (Term ℓ) → Flow
  | .forLoop init cond _ _ =>
    (walkAll name .statement init false).andThen (walkOption name .expression cond)
  | _ => idle false

section forLoops

variable {init update : List (Term ℓ)} {test : Option (Term ℓ)}

theorem walk_forLoop :
    walk name .statement (.node l (.forLoop init test update body)) false =
      (approach name (.forLoop init test update body)).andThen fun s =>
        ((walk name .statement body s).andThen (walkAll name .statement update)).resume s := by
  simp only [walk, approach, andThen_assoc]

theorem forLoop_header_describes
    (placed : (Term.node l (.forLoop init test update body)).wellPlaced .statement = true)
    (fresh : ∀ n ∈ (Term.node l (.forLoop init test update body)).subterms, n.kind.rebinds name = false)
    {c : Term ℓ} (listed : c ∈ init ∨ c ∈ update) :
    (walk name .statement c false).Describes (c.run name) := by
  have part : (Place.header, c) ∈ (Kind.forLoop init test update body).places := by
    simp only [Kind.places, List.mem_append, List.mem_map, Prod.mk.injEq, true_and, exists_eq_right]
    tauto
  have child := Term.child_of_place part
  exact header_describes ((Term.wellPlaced_iff.mp placed).2 _ part) fun n inside =>
    fresh n (Term.mem_subterms_of_child (t := .node l (.forLoop init test update body)) child inside)

theorem approach_unassigned
    (placed : (Term.node l (.forLoop init test update body)).wellPlaced .statement = true)
    (fresh : ∀ n ∈ (Term.node l (.forLoop init test update body)).subterms, n.kind.rebinds name = false)
    (continued : es ∈ (Kind.forLoop init test update body).continues name) (unwritten : .write ∉ es)
    (silent : (approach name (.forLoop init test update body)).exposed = false) :
    (approach name (.forLoop init test update body)).assigned = false := by
  obtain ⟨start, started, _, looped, rfl⟩ := Language.mem_mul.mp continued
  obtain ⟨rounds, -, _, round, rfl⟩ := Language.mem_mul.mp looped
  obtain ⟨first, passed, last, -, rfl⟩ := Language.mem_mul.mp round
  have inits : (walkAll name .statement init false).Describes (Term.runAll name init) :=
    runAll_describes fun c listed => forLoop_header_describes placed fresh (.inl listed)
  have tested : (walkOption name .expression test false).Describes (Term.attempt name test) :=
    attempt_describes fun r known => (Term.wellPlaced_iff.mp placed).2 (.expression, r)
      (by simp [Kind.places, Option.mem_def.mp known])
  refine (inits.seq tested).unassigned silent (mem_seq started passed) ?_
  simp only [List.mem_append, not_or] at unwritten ⊢
  exact ⟨unwritten.1, unwritten.2.2.1⟩

end forLoops

theorem walk_doWhile_exposed :
    (walk name .statement (.node l (.doWhile body cond)) false).exposed =
      ((walk name .statement body false).andThen (walk name .expression cond)).exposed := by
  simp only [walk]
  split <;> rfl

/-- A read that a `continue` leads to is met only on the way from the end of the body. -/
theorem loop_exposed_iff (loop : k.tailed? = some body)
    (placed : (Term.node l k).wellPlaced .statement = true)
    (fresh : ∀ n ∈ (Term.node l k).subterms, n.kind.rebinds name = false)
    (continued : es ∈ k.continues name) (unwritten : .write ∉ es) (reads : ¬ (k.tail name).Quiet) :
    (walk name .statement (.node l k) false).exposed = true ↔
      (approach name k).exposed = true ∨ (walk name .statement body false).exposed = true ∨
        (walk name .statement body false).assigned = false := by
  cases k with
  | doWhile body' cond =>
    obtain rfl : body' = body := Option.some.inj loop
    have value : (walk name .expression cond false).Accounts (cond.eval name) :=
      eval_accounts ((Term.wellPlaced_iff.mp placed).2 (.expression, cond) (by simp [Kind.places]))
    have exposed := value.ofTraces.exposed reads
    rw [walk_doWhile_exposed, andThen_exposed_iff (walk_assigned _ cond)]
    simp [approach, exposed]
  | forLoop init test update body' =>
    obtain rfl : body' = body := Option.some.inj loop
    have exposed : (walkAll name .statement update false).exposed = true :=
      (runAll_describes fun c listed =>
        forLoop_header_describes placed fresh (.inr listed)).exposed reads
    have unassigned := approach_unassigned placed fresh continued unwritten
    rw [walk_forLoop, andThen_exposed_iff (by rw [walk_assigned, idle_andThen, walkAll_assigned]; rfl),
      resume, andThen_exposed_iff (walkAll_assigned _ update)]
    simp only [exposed, and_true]
    cases known : (approach name (.forLoop init test update body')).exposed <;> simp_all
  | _ => cases loop

theorem doWhile_unassigned_iff (placed : cond.wellPlaced .expression = true)
    (left : fs ∈ cond.eval name) (unwritten : .write ∉ fs)
    (silent : (walk name .statement (.node l (.doWhile body cond)) false).exposed = false) :
    (walk name .statement (.node l (.doWhile body cond)) false).assigned = false ↔
      body.breaksOut = true ∨ (walk name .statement body false).assigned = false := by
  rw [walk_doWhile_exposed] at silent
  simp only [walk]
  split
  · simp_all [resume]
  · rename_i stays
    cases known : (walk name .statement body false).assigned with
    | true => simp [andThen, known, walk_assigned, stays]
    | false =>
      have calm : (walk name .expression cond false).exposed = false := by
        simpa [andThen, known] using (Bool.or_eq_false_iff.mp silent).2
      have value : (walk name .expression cond false).Accounts (cond.eval name) := eval_accounts placed
      have passed := value.ofTraces.unassigned calm left unwritten
      simp [andThen, known, passed]

end Flow

/-- Where a `continue` can be reached before the variable is assigned, what is read after it is read
early. It is reported only if the body of the loop is seen to reach its end unassigned as well, or if
something else in the range is reported; a `do` loop that has a `break` also has what follows it looked
at. -/
theorem Subject.reported_after_continue_iff {body : Body} {root : NodeId} {a : Arena}
    (lowered : Arena.ofBody body = (root, a)) (ordered : (a.view root).wellPlaced .statement = true)
    (subject : Subject) {b : Tree} {name : String} (member : b ∈ (a.view root).subterms)
    (block : subject.block = b.id) {l : Label} {k : Kind Tree} {inner : Tree} {rest : List Tree}
    (range : subject.statements b = .node l k :: rest) (loop : k.tailed? = some inner)
    (fresh : ∀ n ∈ Term.subterms (.node l k), n.kind.rebinds name = false)
    (continued : ∃ es ∈ k.continues name, .write ∉ es) :
    (¬ (k.tail name).Quiet →
      ¬ (Term.runAll name (subject.statements b)).Quiet ∧
      (subject.exposed a name = .ok [name] ↔
        (Flow.approach name k).exposed = true ∨
        (Flow.walk name .statement inner false).exposed = true ∨
        (Flow.walk name .statement inner false).assigned = false ∨
        (Flow.walk name .statement (.node l k) false).assigned = false ∧
          (Flow.walkAll name .statement rest false).exposed = true)) ∧
    ∀ cond, k = .doWhile inner cond → (∃ es ∈ cond.eval name, .write ∉ es) →
      ¬ (Term.runAll name rest).Quiet →
      ¬ (Term.runAll name (subject.statements b)).Quiet ∧
      (subject.exposed a name = .ok [name] ↔
        (Flow.walk name .statement (.node l k) false).exposed = true ∨
        (inner.breaksOut = true ∨ (Flow.walk name .statement inner false).assigned = false) ∧
          (Flow.walkAll name .statement rest false).exposed = true) ∧
      ((∀ s ∈ rest, Term.Direct name s) →
        (Flow.walkAll name .statement rest false).exposed = true) := by
  have placed {s : Tree} (listed : s ∈ Term.node l k :: rest) : Term.wellPlaced s .statement = true :=
    subject.statement_placed ordered member (range ▸ listed)
  have held := (Arena.holds_view lowered).below member
  have reported : subject.exposed a name = .ok [name] ↔
      (Flow.walk name .statement (.node l k) false).exposed = true ∨
        (Flow.walk name .statement (.node l k) false).assigned = false ∧
          (Flow.walkAll name .statement rest false).exposed = true := by
    rw [subject.exposed_name held name block, range, Flow.walkAll,
      Flow.andThen_exposed_iff (Flow.walkAll_assigned _ rest)]
  obtain ⟨es, continued, unwritten⟩ := continued
  rw [range]
  refine ⟨fun reads => ⟨Term.reads_after_continue continued unwritten reads, ?_⟩, ?_⟩
  · rw [reported, Flow.loop_exposed_iff loop (placed (by simp)) fresh continued unwritten reads]
    simp only [or_assoc]
  · rintro cond rfl ⟨fs, left, unwritten'⟩ reads
    refine ⟨Term.reads_after_loop continued unwritten left unwritten' reads, ?_, fun direct => ?_⟩
    · have value := (Term.wellPlaced_iff.mp (placed List.mem_cons_self)).2 (.expression, cond)
        (by simp [Kind.places])
      rw [reported]
      cases known : (Flow.walk name .statement (.node l (.doWhile inner cond)) false).exposed with
      | true => simp
      | false => rw [Flow.doWhile_unassigned_iff value left unwritten' known]
    · exact (Flow.runAll_describes fun s inside => Flow.run_describes
        (placed (List.mem_cons_of_mem _ inside)) rfl (direct s inside)).exposed reads

/-- `do { if (c) { continue; } v = 1; } while (v); use(v);` -/
def Body.skipped : Body :=
  .braces [.plain (.doWhile (.braces [.when "c" [.plain .cont], .setOne "v"]) (.read "v")), .use "v"]

def Tree.branchOfSkipped : Tree :=
  shown 3 (.ifElse (shown 0 (.identifier "c")) (shown 2 (.block [shown 1 .cont])) none)

def Tree.innerOfSkipped : Tree :=
  shown 8 (.block [branchOfSkipped, shown 7 (.expressionStatement (shown 6 (.assignment .plain
    (shown 4 (.identifier "v")) (shown 5 (.literal (.int 1))))))])

def Tree.loopOfSkipped : Tree := shown 10 (.doWhile innerOfSkipped (shown 9 (.identifier "v")))

def Tree.useOfSkipped : Tree :=
  shown 13 (.expressionStatement (shown 12 (.invocation none "use" [shown 11 (.identifier "v")])))

def Tree.ofSkipped : Tree := shown 14 (.block [loopOfSkipped, useOfSkipped])

theorem Arena.view_skipped :
    (Arena.ofBody .skipped).2.view (Arena.ofBody .skipped).1 = Tree.ofSkipped := by cbv

/- The assignment may be passed by, and then both reads are early. -/
theorem Subject.unreported_skipped :
    ¬ (Term.runAll "v" [Tree.loopOfSkipped, Tree.useOfSkipped]).Quiet ∧
      Subject.exposed ⟨⟨14⟩, none⟩ (Arena.ofBody .skipped).2 "v" ≠ .ok ["v"] := by
  have view := Arena.view_skipped
  have read : [Access.read] ∈ Term.eval "v" (Tree.shown 9 (.identifier "v")) := by
    simp only [Tree.shown, Term.eval, beq_self_eq_true, if_true]
    rfl
  have branch : [] ∈ Term.run "v" Tree.branchOfSkipped .cont := by
    have test : [] ∈ ofTraces (Term.eval "v" (Tree.shown 0 (.identifier "c"))) .normal := by
      simp [Tree.shown, ofTraces, Term.eval]
    have jump : [] ∈ Term.run "v" (Tree.shown 2 (.block [Tree.shown 1 .cont])) .cont :=
      mem_seq_left (Language.nil_mem_one) (by simp)
    exact mem_seq test (.inl jump)
  have continued : [] ∈ Term.run "v" Tree.innerOfSkipped .cont := mem_seq_left branch (by simp)
  have either := Subject.reported_after_continue_iff (b := Tree.ofSkipped) Prod.mk.eta.symm
    (by rw [view]; decide +kernel) ⟨⟨14⟩, none⟩ (by rw [view]; exact Term.self_mem_subterms _) rfl
    (l := ⟨⟨10⟩, {}, .shown⟩) rfl rfl (by decide +kernel)
    ⟨[], Language.append_mem_mul (Language.nil_mem_kstar _) continued, by simp⟩
  obtain ⟨early, reported⟩ := either.1 fun quiet => quiet .normal _ read rfl
  exact ⟨early, mt reported.mp (by decide +kernel)⟩

end LocalScope
