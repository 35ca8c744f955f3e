import Mathlib
import LocalScope.Placement.Queue
import LocalScope.Proofs.Snippets
import LocalScope.Proofs.Steps

/-! What a pass keeps from one run to the next. Edits wait in its queue while a body is visited, and
they name nodes of that body by number, so an edit left over would be carried out on another body.
None ever is: every way out of a run empties the queue. -/
namespace LocalScope

namespace Visiting

variable {α : Type} {a b : Arena} {q : EditQueue}

theorem within_ok {x : Editing α} {y : α} (run : x a = .ok y b) :
    within x ⟨a, q⟩ = .ok y ⟨b, q⟩ := by
  simp only [within, run]

theorem within_error {x : Editing α} {e : Error} (run : x a = .error e b) :
    within x ⟨a, q⟩ = .error e ⟨b, q⟩ := by
  simp only [within, run]

theorem forM_ask (edits : List Edit) :
    edits.forM ask ⟨a, q⟩ = .ok () ⟨a, ⟨q.pending ++ edits⟩⟩ := by
  induction edits generalizing q with
  | nil => simp [pure, EStateM.pure]
  | cons e rest ih =>
    have first : ask e ⟨a, q⟩ = .ok () ⟨a, q.push e⟩ := rfl
    have rest_eq : (e :: rest).forM ask = ask e >>= fun _ => rest.forM ask := rfl
    rw [rest_eq, bind_ok first, ih]
    simp [EditQueue.push]

/-- A visit does to the body what a plan does, and the edits of the plan are added to those that
wait. Where the plan fails the visit does, too, whatever waits by then. -/
structure Enqueues (x : Visiting Unit) (y : Editing (List Edit)) : Prop where
  ok : ∀ {a b edits}, y a = .ok edits b → ∀ q, x ⟨a, q⟩ = .ok () ⟨b, ⟨q.pending ++ edits⟩⟩
  error : ∀ {a b e}, y a = .error e b → ∀ q, ∃ q', x ⟨a, q⟩ = .error e ⟨b, q'⟩

namespace Enqueues

theorem asked (y : Editing (List Edit)) : Enqueues (within y >>= fun edits => edits.forM ask) y where
  ok planned q := by rw [bind_ok (within_ok planned), forM_ask]
  error failed q := ⟨q, bind_error (within_error failed) _⟩

theorem query {β : Type} {f : Arena → Except Error β} {x : β → Visiting Unit}
    {y : β → Editing (List Edit)} (each : ∀ v, Enqueues (x v) (y v)) :
    Enqueues (within (Editing.query f) >>= x) (Editing.query f >>= y) where
  ok {a b edits} planned q := by
    cases answer : f a with
    | ok v =>
      have found := Editing.query_ok answer
      rw [bind_ok found] at planned
      rw [bind_ok (within_ok found)]
      exact (each v).ok planned q
    | error e =>
      rw [bind_error (Editing.query_error answer)] at planned
      cases planned
  error {a b e} failed q := by
    cases answer : f a with
    | ok v =>
      have found := Editing.query_ok answer
      rw [bind_ok found] at failed
      rw [bind_ok (within_ok found)]
      exact (each v).error failed q
    | error e' =>
      have missed := Editing.query_error answer
      rw [bind_error missed] at failed
      cases failed
      exact ⟨q, bind_error (within_error missed) x⟩

theorem append {x x' : Visiting Unit} {y y' : Editing (List Edit)} (first : Enqueues x y)
    (second : Enqueues x' y') :
    Enqueues (x >>= fun _ => x') (y >>= fun us => y' >>= fun vs => pure (us ++ vs)) where
  ok {a c edits} planned q := by
    cases here : y a with
    | error e b =>
      rw [bind_error here] at planned
      cases planned
    | ok us b =>
      rw [bind_ok here] at planned
      cases later : y' b with
      | error e c =>
        rw [bind_error later] at planned
        cases planned
      | ok vs c' =>
        rw [bind_ok later] at planned
        cases planned
        rw [bind_ok (first.ok here q), second.ok later, List.append_assoc]
  error {a c e} failed q := by
    cases here : y a with
    | error e' b =>
      rw [bind_error here] at failed
      cases failed
      obtain ⟨q', stopped⟩ := first.error here q
      exact ⟨q', bind_error stopped _⟩
    | ok us b =>
      rw [bind_ok here] at failed
      rw [bind_ok (first.ok here q)]
      cases later : y' b with
      | ok vs c' =>
        rw [bind_ok later] at failed
        cases failed
      | error e' c' =>
        rw [bind_error later] at failed
        cases failed
        exact second.error later _

theorem forM {β : Type} {x : β → Visiting Unit} {y : β → Editing (List Edit)} (cs : List β)
    (each : ∀ c, Enqueues (x c) (y c)) :
    Enqueues (cs.forM x) (cs.mapM y >>= fun below => pure below.flatten) := by
  induction cs with
  | nil =>
    constructor
    · intro a b edits planned q
      cases planned
      simp [pure, EStateM.pure]
    · intro a b e failed
      cases failed
  | cons c cs ih =>
    have both := (each c).append ih
    simpa [List.mapM_cons, bind_assoc] using both

end Enqueues

theorem planWithin_succ (o : Options) (levels : Nat) (id : NodeId) :
    Editing.planWithin o (levels + 1) id =
      Editing.planNode o id >>= fun here =>
      (Editing.query (·.kind id) >>= fun kind =>
        kind.children.mapM (Editing.planWithin o levels) >>= fun below => pure below.flatten) >>=
      fun below => pure (here ++ below) := by
  rw [Editing.planWithin, Editing.planNode, bind_assoc]
  congr 1
  funext kind
  split <;> simp

theorem visitWithin_enqueues (o : Options) (levels : Nat) (id : NodeId) :
    Enqueues (visitWithin o levels id) (Editing.planWithin o levels id) := by
  induction levels generalizing id with
  | zero =>
    constructor
    · intro a b edits planned
      cases planned
    · intro a b e failed q
      cases failed
      exact ⟨q, rfl⟩
  | succ levels ih =>
    have children : Enqueues
        (within (Editing.query (·.kind id)) >>= fun kind => kind.children.forM (visitWithin o levels))
        (Editing.query (·.kind id) >>= fun kind =>
          kind.children.mapM (Editing.planWithin o levels) >>= fun below => pure below.flatten) :=
      .query fun kind => .forM kind.children ih
    rw [planWithin_succ]
    simpa [visitWithin] using (Enqueues.asked (Editing.planNode o id)).append children

theorem visit_enqueues (o : Options) (root : NodeId) :
    Enqueues (visit o root) (Editing.plan o root) where
  ok planned := (visitWithin_enqueues o _ root).ok planned
  error failed := (visitWithin_enqueues o _ root).error failed

end Visiting

namespace QueuedPass

variable (p : QueuedPass) (root : NodeId) (a : Arena)

theorem queue_run : (p.run root a).1.queue = {} := by
  unfold run
  split
  · rfl
  · rename_i v _
    cases applied : Edit.applyAll p.options.markFinal v.queue.pending v.arena <;>
      simp only [EditQueue.apply, applied]

theorem run_eq (empty : p.queue = {}) :
    p.run root a = ({ p with toPass := (p.toPass.run root a).1 }, (p.toPass.run root a).2) := by
  have follows := Visiting.visit_enqueues p.options root
  rw [run, Pass.run, Editing.placeDeclarations, empty]
  cases planned : Editing.plan p.options root a with
  | error e b =>
    obtain ⟨q, stopped⟩ := follows.error planned {}
    rw [bind_error planned]
    simp only [stopped]
  | ok edits b =>
    rw [bind_ok planned]
    simp only [follows.ok planned {}, List.nil_append, EditQueue.apply]
    cases Edit.applyAll p.options.markFinal edits b <;> rfl

def statsOf? (o : Options) (job : NodeId × Arena) : Option Stats :=
  match run { options := o } job.1 job.2 with
  | (p, .ok _ _) => some p.lastStats
  | (_, .error _ _) => none

/- Apart from its queue a pass brings only its options to a run. -/
section

variable {p : QueuedPass} {o : Options} (empty : p.queue = {}) (options : p.options = o)
include empty options

theorem result_of_empty : (p.run root a).2 = (run { options := o } root a).2 := by
  subst options
  rw [run_eq p root a empty, run_eq _ root a rfl]
  simp only [Pass.run]
  cases Editing.placeDeclarations p.options root a <;> rfl

theorem stats_of_empty :
    (p.run root a).1.lastStats = (statsOf? o (root, a)).getD p.lastStats := by
  subst options
  rw [statsOf?, run_eq p root a empty, run_eq _ root a rfl]
  simp only [Pass.run]
  cases Editing.placeDeclarations p.options root a <;> rfl

theorem options_of_empty : (p.run root a).1.options = o := by
  subst options
  rw [run_eq p root a empty]
  simp only [Pass.run]
  cases Editing.placeDeclarations p.options root a <;> rfl

end

theorem runAll_spec (o : Options) (earlier : List (NodeId × Arena)) :
    let p := runAll { options := o } earlier
    p.queue = {} ∧ p.options = o ∧
      p.lastStats = ((earlier.filterMap (statsOf? o)).getLast?).getD {} := by
  induction earlier using List.reverseRecOn with
  | nil => exact ⟨rfl, rfl, rfl⟩
  | append_singleton earlier job ih =>
    obtain ⟨empty, options, stats⟩ := ih
    have last : runAll { options := o } (earlier ++ [job]) =
        ((runAll { options := o } earlier).run job.1 job.2).1 := by
      rw [runAll, List.foldl_append]
      rfl
    simp only [last]
    refine ⟨queue_run _ _ _, options_of_empty _ _ empty options, ?_⟩
    rw [stats_of_empty _ _ empty options, stats, List.filterMap_append, List.getLast?_append]
    cases told : statsOf? o job with
    | none => simp [told]
    | some new => simp [told]

end QueuedPass

/-- A pass carries nothing over. Whatever it has been run on before, and whether these runs succeeded
or failed, the next run ends as that of a new pass with the same options does and leaves the same
arena; and what the pass reports is what the last run to succeed has told. -/
theorem QueuedPass.carries_nothing_over (o : Options) (earlier : List (NodeId × Arena)) :
    let p := runAll { options := o } earlier
    (∀ root a, (p.run root a).2 = (run { options := o } root a).2) ∧
    p.lastStats = ((earlier.filterMap (statsOf? o)).getLast?).getD {} := by
  obtain ⟨empty, options, stats⟩ := runAll_spec o earlier
  exact ⟨fun root a => result_of_empty root a empty options, stats⟩

/- An edit that waits from before would be carried out on the next body, here on `{ use(v); }`. -/
example :
    let job := Arena.ofBody (.braces [.use "v"])
    let stale : Edit := ⟨.primitive .int, "w", none, .before ⟨2⟩⟩
    (QueuedPass.run { queue := ⟨[stale]⟩ } job.1 job.2).1.lastStats.inserted = 1 ∧
    (QueuedPass.run {} job.1 job.2).1.lastStats.inserted = 0 := by
  decide +kernel

end LocalScope
