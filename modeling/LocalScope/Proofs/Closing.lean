import LocalScope.Proofs.Marking
import LocalScope.Proofs.Snippets

/-! Loops that are closed to declarations. A loop that uses a variable keeps the block around it from
handing the variable on, and in a loop that does not use it there is nothing to declare. So no
declaration moves from outside a loop into its header or its body. -/
namespace LocalScope

namespace Tree

variable {ps : List Patch} {t : Tree} {name : String}

theorem other_of_isLoop (isLoop : t.kind.isLoop = true) :
    t.isBlock = false ∧ t.assignment? = none ∧ t.kind.holdsBlocks = false ∧
      t.isDeclarative = false ∧ t.isDeclaration = false := by
  obtain ⟨l, k⟩ := t
  cases k <;> first | exact ⟨rfl, rfl, rfl, rfl, rfl⟩ | cases isLoop

theorem isLoop_of_onlyInit {init : Tree} (only : t.onlyInit? = some init) :
    t.kind.isLoop = true := by
  obtain ⟨cond, update, body, shape⟩ := Term.onlyInit?_eq_some.mp only
  rw [shape]
  rfl

theorem isLoop_rebuild (kept : foldedBy? ps t = none) :
    (rebuild ps t).kind.isLoop = t.kind.isLoop := by
  obtain ⟨l, k⟩ := t
  rcases rebuild_cases ps l k with ⟨ss, rfl, made⟩ | ⟨-, -, made⟩ |
    ⟨p, r, op, x, v, found, -, folded, -⟩
  · rw [made]
    rfl
  · rw [made]
    cases k <;> rfl
  · rw [foldedBy?, found, Option.bind_some, folded] at kept
    cases kept

theorem confines_closed (isLoop : t.kind.isLoop = true) : t.confines name false = false := by
  rw [Term.confines, isLoop]
  rfl

end Tree

namespace LocalVariable

variable {o : Options} {v : LocalVariable} {u b m s loop : Tree} {e : Edit}

theorem unused_of_passed (closed : o.intoLoops = false) (passes : v.passesOn o m = true)
    (listed : s ∈ m.statements) (isLoop : s.kind.isLoop = true) : s.uses v.name = false := by
  by_contra used
  rw [passesOn, Bool.and_eq_true, moves, Bool.and_eq_true, closed] at passes
  have confined := Tree.confines_of_handsOn passes.2.1 listed (by simpa using used)
  rw [Tree.confines_closed isLoop] at confined
  cases confined

theorem no_headerFold (closed : o.intoLoops = false) (passes : v.passesOn o m = true)
    (listed : s ∈ m.statements) : v.headerFold? o s = none := by
  by_contra folds
  obtain ⟨e, folds⟩ := Option.ne_none_iff_exists'.mp folds
  have folding := FoldsAt.header passes listed folds
  obtain ⟨entry, r, x, -, -, ⟨same, -⟩ | ⟨-, only⟩⟩ := folding.absorbs
  · have less := Term.size_lt_of_mem_children (Term.statement_mem_children listed)
    rw [same] at less
    omega
  · have unused := unused_of_passed closed passes listed (Tree.isLoop_of_onlyInit only)
    rw [folding.not_leaves.1] at unused
    cases unused

/-- A block outside a loop hands nothing on to a block inside that uses the variable. -/
theorem HandedTo.unused_in_loop (handed : v.HandedTo o b m) (closed : o.intoLoops = false)
    (distinct : u.ids.Nodup) (start : b ∈ u.subterms) (member : loop ∈ u.subterms)
    (isLoop : loop.kind.isLoop = true) (outside : b ∉ loop.subterms) (inside : m ∈ loop.subterms) :
    loop.uses v.name = false := by
  obtain ⟨m', handed', passes, s, listed, -, around, r, received, within, -⟩ :=
    handed.enters distinct start member outside inside
  have inTree := Term.subterms_trans (Term.child_mem_subterms (Term.statement_mem_children listed))
    (Term.subterms_trans handed'.mem_subterms start)
  rcases receiver_between (distinct.sublist (Tree.ids_sublist inTree)) received around within with
    rfl | rfl | ⟨-, clause⟩
  · exact unused_of_passed closed passes listed isLoop
  · have block := (Term.receiver_cases received).1
    rw [(Tree.other_of_isLoop isLoop).1] at block
    cases block
  · rw [(Tree.other_of_isLoop isLoop).2.2.1] at clause
    cases clause

theorem spread_outside_loop (closed : o.intoLoops = false) (distinct : u.ids.Nodup)
    (start : b ∈ u.subterms) (member : loop ∈ u.subterms) (isLoop : loop.kind.isLoop = true)
    (visible : ∀ c ∈ loop.subterms, Term.hides v.name c.kind = false)
    (outside : b ∉ loop.subterms) (planned : e ∈ v.spread o b) :
    ∀ n ∈ loop.children, e.site.node ∉ Tree.ids n := by
  intro n child site
  rcases mem_spread.mp planned with ⟨m, point, handed, declares, rfl⟩ |
    ⟨m, s, -, passes, listed, folds⟩
  · have listed := point_mem declares
    have inside := (declareAt_at (o := o) (v := v) listed).1.below distinct
      (Term.subterms_trans handed.mem_subterms start) member (Tree.other_of_isLoop isLoop).2.1
      child site
    have unused := handed.unused_in_loop closed distinct start member isLoop outside inside
    have used : point.uses v.name = true :=
      List.find?_some (find?_of_declaresAt declares)
    rw [Term.uses_of_subterm visible (Term.subterms_trans
      (Term.child_mem_subterms (Term.statement_mem_children listed)) inside) used] at unused
    cases unused
  · rw [no_headerFold closed passes listed] at folds
    cases folds

end LocalVariable

namespace Tree

variable {t n b d loop : Tree} {name : String}

theorem statement_not_mem_loop (listed : d ∈ statements b) (declares : d.declares name = true)
    (distinct : b.ids.Nodup) (inside : loop ∈ b.subterms) (isLoop : loop.kind.isLoop = true) :
    d ∉ loop.subterms := by
  intro within
  have child := Term.statement_mem_children listed
  have around : b ∈ loop.subterms := by
    refine parent_mem distinct (Term.self_mem_subterms b) inside child within ?_
    rintro rfl
    have declaration := isDeclaration_of_declares declares
    rw [(other_of_isLoop isLoop).2.2.2.2] at declaration
    cases declaration
  obtain rfl := Term.subterms_antisymm around inside
  have shape : b.kind = .block (statements b) := Term.kind_of_statement listed
  rw [shape] at isLoop
  cases isLoop

end Tree

namespace Editing.Placed

variable {o : Options} {t n loop : Tree} {a b : Arena} {ps : List Patch} {stats : Stats}
  {name : String}

theorem loop_undeclared (placed : Placed o t a ps stats b) (held : a.Holds t) (sound : t.Sound)
    (closed : o.intoLoops = false) (member : loop ∈ t.subterms) (isLoop : loop.kind.isLoop = true)
    (undeclared : ∀ d ∈ loop.subterms, Tree.declares name d = false)
    (visible : ∀ c ∈ loop.subterms, Term.hides name c.kind = false) :
    ∀ d ∈ (Tree.rebuild ps (Term.strip loop)).subterms, Tree.declares name d = false := by
  intro d inside
  by_contra declares
  rw [Bool.not_eq_false] at declares
  obtain ⟨size, grown, applied⟩ := placed.applied
  have isLoop' : (Term.strip loop).kind.isLoop = true := by rw [Tree.isLoop_strip, isLoop]
  obtain ⟨other, unassigned, -⟩ := Tree.other_of_isLoop isLoop'
  have inTree := Tree.strip_mem_subterms sound member (Tree.other_of_isLoop isLoop).2.2.2.1
  have old {n : Tree} (below : n ∈ (Term.strip loop).subterms) : Tree.declares name n = false := by
    obtain ⟨n, within, rfl⟩ := Tree.mem_subterms_strip below
    rw [Tree.declares_strip, undeclared n within]
  have new : Tree.id d ∉ Tree.ids (Term.strip loop) := by
    rcases Tree.mem_subterms_rebuild inside with ⟨n, below, kept, note, rfl⟩ |
      ⟨-, p, known, -, shape⟩
    · have same : Tree.declares name ((Tree.rebuild ps n).withNote note) = Tree.declares name n :=
        Tree.declares_rebuild kept name
      rw [same, old below] at declares
      cases declares
    · obtain ⟨note, inner, init, rfl⟩ := shape (Tree.isDeclaration_of_declares declares)
      have fresh : size ≤ p.declaration.index := applied.fresh _ (Tree.added_of_mem known).1
      intro known
      have bound : p.declaration.index < a.size :=
        held.index_lt (Tree.ids_subset member ((Tree.ids_strip loop).subset known))
      omega
  obtain ⟨p, known, ⟨c, child, site⟩, note, inner, init, rfl⟩ := Tree.patch_of_new
    other unassigned inside (Tree.isDeclaration_of_declares declares) new
  obtain ⟨n, around, v, mine, planned⟩ := Tree.mem_plan.mp (placed.edit_mem_plan known)
  obtain ⟨d', listed, isLocal⟩ := List.mem_filterMap.mp mine
  have named : v.name = name := by
    rw [← (LocalVariable.spread_fits planned).2.2]
    simpa [Patch.declares, Tree.declares, Term.kind, Tree.binds] using declares
  subst named
  have shape : n.kind = .block (Tree.statements n) := Term.kind_of_statement listed
  have start := Tree.strip_mem_subterms sound around (by rw [Tree.isDeclarative, shape])
  have outside : Term.strip n ∉ (Term.strip loop).subterms := by
    intro within
    obtain ⟨n', below, same⟩ := Tree.mem_subterms_strip within
    have number : Tree.id n = Tree.id n' := by rw [← Tree.id_strip n, same, Tree.id_strip]
    obtain rfl : n = n' := held.eq_of_id around (Term.subterms_trans below member) number
    have deep := Term.subterms_trans
      (Term.child_mem_subterms (Term.statement_mem_children listed)) below
    have silent := undeclared d' deep
    rw [Tree.declares_of_local isLocal] at silent
    cases silent
  have visible' : ∀ c ∈ (Term.strip loop).subterms, Term.hides v.name c.kind = false := by
    intro c below
    obtain ⟨c, within, rfl⟩ := Tree.mem_subterms_strip below
    rw [Term.hides_strip, visible c within]
  exact LocalVariable.spread_outside_loop closed applied.distinct start inTree isLoop' visible' outside
    planned c child site

end Editing.Placed

/-- With loops closed, no loop in a block gets a declaration of a variable that was declared in the
block: neither in its header nor in its body. This holds where the block has no other declaration of
the name and no for-each or catch clause that binds it; what is declared around the block is no
matter. -/
theorem Pass.loops_undeclared {p : Pass} {body : Body} {root : NodeId} {before after : Arena}
    (lowered : Arena.ofBody body = (root, before)) (run : (p.run root before).2 = .ok () after)
    (closed : p.options.intoLoops = false) {b d : Tree} {name : String}
    (member : b ∈ (before.view root).subterms) (listed : d ∈ Tree.statements b)
    (declares : d.declares name = true)
    (sole : ∀ d' ∈ b.subterms, Tree.declares name d' = true → d' = d)
    (unbound : ∀ c ∈ b.subterms, Term.hides name c.kind = false) :
    ∀ loop ∈ (after.view root).subterms, loop.kind.isLoop = true → Tree.id loop ∈ b.ids →
      ∀ d' ∈ loop.subterms, Tree.declares name d' = false := by
  obtain ⟨t, ps, stats, rfl, held, sound, placed, output⟩ := Pass.placed_of_body lowered run
  rw [output]
  intro loop left isLoop known d' below
  -- The loop is what the run has made of a loop of the block.
  obtain ⟨n, within, isLoop', note, rfl⟩ : ∃ n ∈ b.subterms, n.kind.isLoop = true ∧
      ∃ note, loop = (Tree.rebuild ps (Term.strip n)).withNote note := by
    rcases Tree.mem_subterms_rebuild left with ⟨m, inStripped, kept, note, rfl⟩ | ⟨declarative, -⟩
    · obtain ⟨n, inTree, rfl⟩ := Tree.mem_subterms_strip inStripped
      have number : ((Tree.rebuild ps (Term.strip n)).withNote note).id = Tree.id n := by
        rw [Tree.id_withNote, ← Tree.id_strip n]
        exact congrArg Label.id (Tree.label_rebuild ps kept)
      have same : ((Tree.rebuild ps (Term.strip n)).withNote note).kind.isLoop = n.kind.isLoop :=
        (Tree.isLoop_rebuild kept).trans (Tree.isLoop_strip n)
      rw [number] at known
      obtain ⟨n', within, again⟩ := List.mem_map.mp known
      obtain rfl : n' = n := held.eq_of_id (Term.subterms_trans within member) inTree again
      exact ⟨n', within, same ▸ isLoop, note, rfl⟩
    · rw [(Tree.other_of_isLoop isLoop).2.2.2.1] at declarative
      cases declarative
  rcases Tree.mem_subterms_withNote below with rfl | below
  · by_contra declares'
    have declaration := Tree.isDeclaration_of_declares (by simpa using declares')
    rw [(Tree.other_of_isLoop isLoop).2.2.2.2] at declaration
    cases declaration
  · refine placed.loop_undeclared held sound closed (Term.subterms_trans within member) isLoop' ?_
      (fun c deep => unbound c (Term.subterms_trans deep within)) d' below
    intro d'' deep
    by_contra declares'
    have twice := sole d'' (Term.subterms_trans deep within) (by simpa using declares')
    exact Tree.statement_not_mem_loop listed declares
      (held.distinct.sublist (Tree.ids_sublist member)) within isLoop' (twice ▸ deep)

/-- `{ int v; if (c) { while (c) { v = 1; use(v); } } }` -/
def Body.looping : Body :=
  .braces [.declareInt "v",
    .when "c" [.plain (.whileLoop (.read "c") (.braces [.setOne "v", .use "v"]))]]

def Tree.declarationOfLooping : Tree :=
  shown 1 (.declaration (.primitive .int) [shown 0 (.binding "v" none)] false)

def Tree.ofLooping : Tree :=
  shown 15 (.block [declarationOfLooping, shown 14 (.ifElse (shown 2 (.identifier "c"))
    (shown 13 (.block [shown 12 (.whileLoop (shown 3 (.identifier "c")) (shown 11 (.block [
      shown 7 (.expressionStatement (shown 6 (.assignment .plain
        (shown 4 (.identifier "v")) (shown 5 (.literal (.int 1)))))),
      shown 10 (.expressionStatement (shown 9
        (.invocation none "use" [shown 8 (.identifier "v")])))])))])) none)])

theorem Arena.view_looping :
    (Arena.ofBody .looping).2.view (Arena.ofBody .looping).1 = Tree.ofLooping := by cbv

theorem Tree.unbound_looping : ∀ c ∈ ofLooping.subterms, Term.hides "v" c.kind = false := by
  have none : (ofLooping.subterms.all fun c => !Term.hides "v" c.kind) = true := by decide +kernel
  exact fun c member => by simpa using List.all_eq_true.mp none c member

/- The declaration goes into the branch, but not into the loop there. -/
theorem Pass.loops_undeclared_looping :
    let closed : Pass := { options := { intoLoops := false } }
    let out := (closed.outcome (Arena.ofBody .looping).1 (Arena.ofBody .looping).2).view
      (Arena.ofBody .looping).1
    (∃ d ∈ out.subterms, Tree.declares "v" d = true) ∧ (∃ loop ∈ out.subterms, Tree.id loop = ⟨12⟩) ∧
    ∀ loop ∈ out.subterms, loop.kind.isLoop = true → Tree.id loop ∈ Tree.ofLooping.ids →
      ∀ d ∈ loop.subterms, Tree.declares "v" d = false := by
  intro closed out
  have ran : (closed.run (Arena.ofBody .looping).1 (Arena.ofBody .looping).2).2 = .ok () _ :=
    Pass.run_outcome (by decide +kernel)
  have sole : ∀ d ∈ Tree.ofLooping.subterms, Tree.declares "v" d = true →
      d = Tree.declarationOfLooping := by
    have only : Tree.ofLooping.subterms.filter (Tree.declares "v") = [Tree.declarationOfLooping] := by
      rfl
    intro d member declares
    have found := List.mem_filter.mpr ⟨member, declares⟩
    rwa [only, List.mem_singleton] at found
  have unbound := Tree.unbound_looping
  refine ⟨?_, ?_, ?_⟩
  · exact List.any_eq_true.mp (by decide +kernel)
  · have found : (out.subterms.any fun loop => Tree.id loop == ⟨12⟩) = true := by decide +kernel
    simpa using found
  · rw [← Arena.view_looping] at sole unbound ⊢
    refine Pass.loops_undeclared rfl ran rfl (Term.self_mem_subterms _) ?_ ?_ sole unbound
    · rw [Arena.view_looping]
      exact List.mem_cons_self
    · rfl

end LocalScope
