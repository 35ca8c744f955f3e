import LocalScope.Proofs.Braceless
import LocalScope.Proofs.Marking
import LocalScope.Proofs.Tightness
import LocalScope.Proofs.Upkeep

/-! A variable that is not used gets no declaration. What counts as a use is decided by the occurrences
of the name, what counts as a read by the flow walk, and the two part where a clause binds the name:
for the one all of the clause belongs to the clause's own variable, but the walk goes into some of
it. -/
namespace LocalScope

namespace Flow

variable {ℓ : Type} {name : String} {p q : Position} {t : Term ℓ}

/-- What a walk comes across, and in which position, down to the clauses that hide the variable. -/
inductive Meets (name : String) : Position → Term ℓ → Position → Term ℓ → Prop
  | here (p : Position) (t : Term ℓ) : Meets name p t p t
  | inside {p : Position} {l : ℓ} {k : Kind (Term ℓ)} {part : Position × Term ℓ} {q : Position}
      {c : Term ℓ} (visible : Term.hides name k = false) (listed : part ∈ k.parts p)
      (deeper : Meets name part.1 part.2 q c) : Meets name p (.node l k) q c

/-- A clause hides the variable and reads it all the same. A for-each goes over something that is
walked before its own variable is there; and in an expression's place every clause is walked whole. -/
def ReadsHidden (name : String) (p : Position) (t : Term ℓ) : Prop :=
  (∃ c ty iterable body, Meets name p t .statement c ∧ c.kind = .forEach ty name iterable body ∧
    (walk name .expression iterable false).exposed = true) ∨
  ∃ c, Meets name p t .expression c ∧ Term.hides name c.kind = true ∧
    (walk name .expression c false).exposed = true

theorem quiet_of_clauses (unused : t.uses name = false)
    (clauses : ∀ q c, Meets name p t q c → Term.hides name c.kind = true → ∀ s,
      (walk name q c s).exposed = false) : Quiet name p t := by
  induction t using Term.inductChildren generalizing p with
  | step l k ih =>
    cases hidden : Term.hides name k with
    | true =>
      refine ⟨clauses p _ (.here p _) hidden, fun s => ?_⟩
      cases k <;> first | rfl | cases hidden
    | false =>
      refine Quiet.node l k ?_ fun part listed => ?_
      · rintro rfl
        simp [Term.uses_node, Kind.map, Term.usesAt] at unused
      · have child : part.2 ∈ k.children := by
          rw [← Flow.parts_children k p]
          exact List.mem_map_of_mem listed
        have below : part.2.uses name = false := by
          by_contra used
          rw [Term.uses_of_child hidden child (Bool.eq_true_of_not_eq_false used)] at unused
          cases unused
        exact ih part.2 child below fun q c met => clauses q c (.inside hidden listed met)

theorem readsHidden_of_exposed (unused : t.uses name = false) {s : Bool}
    (exposed : (walk name p t s).exposed = true) : ReadsHidden name p t := by
  obtain ⟨q, c, met, hidden, early⟩ : ∃ q c, Meets name p t q c ∧
      Term.hides name c.kind = true ∧ (walk name q c false).exposed = true := by
    by_contra none
    push Not at none
    have quiet : Quiet name p t := by
      refine quiet_of_clauses unused fun q c met hidden s => ?_
      cases s with
      | true => rw [walk_assigned, idle_exposed]
      | false => exact Bool.eq_false_of_not_eq_true (none q c met hidden)
    rw [quiet.walk] at exposed
    cases exposed
  cases q with
  | expression => exact .inr ⟨c, met, hidden, early⟩
  | statement =>
    obtain ⟨l, k⟩ := c
    cases k with
    | forEach ty x iterable body =>
      obtain rfl : x = name := by simpa [Term.hides, Term.kind] using hidden
      exact .inl ⟨_, ty, iterable, body, met, rfl, by simpa [walk] using early⟩
    | catchClause ty x body =>
      obtain rfl : x = name := by simpa [Term.hides, Term.kind] using hidden
      simp [walk] at early
    | _ => cases hidden

end Flow

theorem Term.child_of_uses {ℓ : Type} {name : String} {l : ℓ} {k : Kind (Term ℓ)}
    (used : (Term.node l k).uses name = true) (inner : k ≠ .identifier name) :
    Term.hides name k = false ∧ ∃ c ∈ k.children, c.uses name = true := by
  have step : Term.usesAt name (k.map (Term.uses name)) =
      (!Term.hides name k && (k.map (Term.uses name)).children.any id) := by
    cases k with
    | identifier x =>
      have other : x ≠ name := fun same => inner (same ▸ rfl)
      simp [Kind.map, Term.usesAt, other, Kind.children, Kind.slots]
    | _ => rfl
  rw [Term.uses_node, step, Bool.and_eq_true, Bool.not_eq_true', Kind.children_map, List.any_map] at used
  exact used.imp_right List.any_eq_true.mp

theorem Tree.exists_freeUse {name : String} {t : Tree} (used : t.uses name = true) :
    ∃ x, FreeUse name t x := by
  induction t using Term.inductChildren with
  | step l k ih =>
    by_cases own : k = .identifier name
    · subst own
      exact ⟨l.id, .here l⟩
    · obtain ⟨visible, c, child, used⟩ := Term.child_of_uses used own
      obtain ⟨x, free⟩ := ih c child used
      exact ⟨x, .under visible child free⟩

theorem LocalVariable.spread_ne_nil {o : Options} {v : LocalVariable} {b : Tree} (distinct : b.ids.Nodup)
    (bare : ∀ n ∈ b.subterms, ∀ s ∈ Tree.statements n, s.kind ≠ .identifier v.name)
    (block : b.isBlock = true) (used : b.uses v.name = true) : v.spread o b ≠ [] := by
  intro none
  obtain ⟨x, free⟩ := Tree.exists_freeUse used
  obtain ⟨e, planned, -⟩ := (v.spread_covers distinct bare (Term.self_mem_subterms b) block free
    (by rw [none]; simp)).exists_mem
  rw [none] at planned
  cases planned

namespace Editing.Placed

variable {o : Options} {t : Tree} {a c : Arena} {ps : List Patch} {stats : Stats}

theorem declared_of_plan (placed : Placed o t a ps stats c) (sound : t.Sound) {e : Edit}
    (planned : e ∈ t.plan o) :
    ∃ d ∈ (Tree.rebuild ps (Term.strip t)).subterms, Tree.declares e.name d = true := by
  obtain ⟨size, -, applied⟩ := placed.applied
  obtain ⟨p, made, -, named⟩ := placed.made_named sound planned
  obtain ⟨h, holder, at'⟩ := applied.fits p made.mem
  obtain ⟨s, entry⟩ := at'.entry
  obtain ⟨note, left⟩ := Tree.rebuild_mem_of_entry applied.foldsVariables holder entry
  obtain ⟨outer, inner, init, child⟩ := made.mem_children at'
  refine ⟨p.declares outer inner init,
    Term.subterms_trans (Term.child_mem_subterms (t := (Tree.rebuild ps h).withNote note) child) left, ?_⟩
  simp [Tree.declares, Patch.declares, Term.kind, Tree.binds, named]

theorem unused_of_dropped (placed : Placed o t a ps stats c) (distinct : t.ids.Nodup) (sound : t.Sound)
    {b d : Tree} {name : String} (member : b ∈ t.subterms) (listed : d ∈ b.statements)
    (declares : d.declares name = true)
    (bare : ∀ n ∈ b.subterms, ∀ s ∈ Tree.statements n, s.kind ≠ .identifier name)
    (dropped : ∀ d' ∈ (Tree.rebuild ps (Term.strip t)).subterms, Tree.declares name d' = false) :
    (Term.strip b).uses name = false := by
  have shape : b.kind = .block b.statements := Term.kind_of_statement listed
  have block : b.isBlock = true := by
    rw [Term.isBlock, shape]
    rfl
  obtain ⟨v, known⟩ := Option.isSome_iff_exists.mp
    (sound b member d listed (Tree.isDeclaration_of_declares declares))
  obtain rfl : v.name = name := Tree.name_of_declares known declares
  by_contra used
  rw [Bool.not_eq_false] at used
  have own := (distinct.sublist (Tree.ids_sublist member)).sublist (Tree.ids_strip b)
  obtain ⟨e, planned⟩ := List.exists_mem_of_ne_nil _ (v.spread_ne_nil own (Tree.bare_strip bare)
    (by rw [Term.isBlock_strip, block]) used)
  obtain ⟨d', inside, declares'⟩ := placed.declared_of_plan sound
    (Tree.mem_plan.mpr ⟨b, member, v, List.mem_filterMap.mpr ⟨d, listed, known⟩, planned⟩)
  rw [(LocalVariable.spread_fits planned).2.2, dropped d' inside] at declares'
  cases declares'

end Editing.Placed

/-- A variable of which the output has no declaration is not used in the block that it was stripped
from. Nor is it read there unassigned, except in clauses that bind its name themselves. -/
theorem Pass.unread_of_dropped {p : Pass} {body : Body} {root : NodeId} {before after : Arena}
    (lowered : Arena.ofBody body = (root, before)) (run : (p.run root before).2 = .ok () after)
    {b d : Tree} {name : String} (member : b ∈ (before.view root).subterms)
    (listed : d ∈ b.statements) (declares : d.declares name = true)
    (bare : ∀ n ∈ b.subterms, ∀ s ∈ Tree.statements n, s.kind ≠ .identifier name)
    (dropped : ∀ d' ∈ (after.view root).subterms, Tree.declares name d' = false) :
    ∃ edits stripped, Editing.plan p.options root before = .ok edits stripped ∧
      stripped.view b.id = Term.strip b ∧ stripped.uses b.id name = .ok false ∧
      (Subject.exposed ⟨b.id, none⟩ stripped name = .ok [] ∨
        Flow.ReadsHidden name .statement (Term.strip b)) := by
  obtain ⟨stripped, planned, -, left⟩ := Pass.stripped_of_body lowered run
  obtain ⟨t, ps, stats, rfl, held, sound, placed, output⟩ := Pass.placed_of_body lowered run
  rw [output] at dropped
  have shape : b.kind = .block b.statements := Term.kind_of_statement listed
  have inside := Tree.strip_mem_subterms sound member (by rw [Tree.isDeclarative, shape])
  have holds := left.below inside
  have unused := placed.unused_of_dropped held.distinct sound member listed declares bare dropped
  rw [← Tree.id_strip b]
  refine ⟨_, stripped, planned, holds.view_eq, ?_, ?_⟩
  · rw [left.uses_eq inside, unused]
  · rw [Subject.exposed_nil holds ⟨Tree.id (Term.strip b), none⟩ name rfl]
    refine (Bool.eq_false_or_eq_true _).symm.imp_right fun exposed => ?_
    have block : (Term.strip b).isBlock = true := by
      rw [Term.isBlock_strip, Term.isBlock, shape]
      rfl
    have walked : Flow.opens name (Term.strip b) = true := by
      rw [Flow.opens_block block]
      exact exposed
    exact Flow.readsHidden_of_exposed unused walked

/-- `int v; for (int v : xs) { use(v); }` -/
def Body.overOthers : Body := .braces [.declareInt "v", .forEachInt "v" "xs" [.use "v"]]

def Tree.declarationOfOverOthers : Tree :=
  shown 1 (.declaration (.primitive .int) [shown 0 (.binding "v" none)] false)

def Tree.loopOfOverOthers : Tree :=
  shown 7 (.forEach (.primitive .int) "v" (shown 2 (.identifier "xs")) (shown 6 (.block
    [shown 5 (.expressionStatement (shown 4 (.invocation none "use" [shown 3 (.identifier "v")])))])))

def Tree.ofOverOthers : Tree := shown 8 (.block [declarationOfOverOthers, loopOfOverOthers])

theorem Arena.view_overOthers :
    (Arena.ofBody .overOthers).2.view (Arena.ofBody .overOthers).1 = Tree.ofOverOthers := by cbv

theorem Flow.not_readsHidden_overOthers :
    ¬ ReadsHidden "v" .statement (Term.strip Tree.ofOverOthers) := by
  have left : Term.strip Tree.ofOverOthers = Tree.shown 8 (.block [Tree.loopOfOverOthers]) := by rfl
  have only {q : Position} {c : Tree} (hidden : Term.hides "v" c.kind = true)
      (met : Meets "v" .statement (Term.strip Tree.ofOverOthers) q c) :
      q = .statement ∧ c = Tree.loopOfOverOthers := by
    rw [left] at met
    cases met with
    | here => cases hidden
    | inside visible listed deeper =>
      obtain rfl := List.mem_singleton.mp listed
      cases deeper with
      | here => exact ⟨rfl, rfl⟩
      | inside visible => cases visible
  rintro (⟨c, ty, iterable, body, met, shape, early⟩ | ⟨c, met, hidden, -⟩)
  · obtain ⟨-, rfl⟩ := only (by simp [shape, Term.hides]) met
    cases shape
    cases early
  · cases (only hidden met).1

/- The declaration is dropped, and nothing is reported. -/
theorem Pass.unread_of_dropped_overOthers :
    ∃ edits stripped,
      Editing.plan {} (Arena.ofBody .overOthers).1 (Arena.ofBody .overOthers).2 = .ok edits stripped ∧
      stripped.uses ⟨8⟩ "v" = .ok false ∧ Subject.exposed ⟨⟨8⟩, none⟩ stripped "v" = .ok [] := by
  have ran : (Pass.run {} (Arena.ofBody .overOthers).1 (Arena.ofBody .overOthers).2).2 = .ok () _ :=
    Pass.run_outcome (by decide +kernel)
  have member : Tree.ofOverOthers ∈
      ((Arena.ofBody .overOthers).2.view (Arena.ofBody .overOthers).1).subterms :=
    Arena.view_overOthers ▸ Term.self_mem_subterms _
  have listed : Tree.declarationOfOverOthers ∈ Tree.ofOverOthers.statements := List.mem_cons_self
  have bare : ∀ n ∈ Tree.ofOverOthers.subterms, ∀ s ∈ Tree.statements n, s.kind ≠ .identifier "v" := by
    have all : (Tree.ofOverOthers.subterms.all fun n =>
      (Tree.statements n).all fun s => !s.isIdentifier "v") = true := by decide +kernel
    intro n inside s listed shape
    have other := List.all_eq_true.mp (List.all_eq_true.mp all n inside) s listed
    rw [Term.isIdentifier_iff.mpr shape] at other
    cases other
  obtain ⟨edits, stripped, planned, -, unused, unread | hidden⟩ :=
    Pass.unread_of_dropped Prod.mk.eta.symm ran member listed rfl bare (by decide +kernel)
  · exact ⟨edits, stripped, planned, unused, unread⟩
  · exact absurd hidden Flow.not_readsHidden_overOthers

/-- The one declaration of the name stands in the outermost block and is dropped, though the name is
reported once the block is stripped. -/
def Body.DropsRead (body : Body) (name : String) : Prop :=
  (Tree.statements ((Arena.ofBody body).2.view (Arena.ofBody body).1)).any (Tree.declares name) = true ∧
  ((Arena.ofBody body).2.view (Arena.ofBody body).1).subterms.countP (Tree.declares name) = 1 ∧
  Pass.succeeds {} (Arena.ofBody body).1 (Arena.ofBody body).2 = true ∧
  (∀ d ∈ ((Pass.outcome {} (Arena.ofBody body).1 (Arena.ofBody body).2).view
    (Arena.ofBody body).1).subterms, Tree.declares name d = false) ∧
  Subject.exposed ⟨(Arena.ofBody body).1, none⟩
    (Editing.after (Editing.plan {} (Arena.ofBody body).1) (Arena.ofBody body).2) name = .ok [name]

/-- `int v; for (int v : v) { }` -/
def Body.overOwnName : Body := .braces [.declareInt "v", .forEachInt "v" "v" []]

/-- The same kind of loop in an expression's place. -/
def Body.loopAsValue : Body :=
  .braces [.declareInt "v", .plain (.expressionStatement (.forEachInt "v" "xs" [.use "v"]))]

/-- `int v; v` -/
def Body.nameAlone : Body := .braces [.declareInt "v", .read "v"]

theorem Pass.read_though_dropped :
    Body.overOwnName.DropsRead "v" ∧ Body.loopAsValue.DropsRead "v" ∧ Body.nameAlone.DropsRead "v" := by
  unfold Body.DropsRead
  decide +kernel

end LocalScope
