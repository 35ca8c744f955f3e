import LocalScope.Proofs.Reports
import LocalScope.Proofs.Snippets

namespace LocalScope

namespace Tree

theorem walkedAsExpression_strip (t : Tree) :
    Term.walkedAsExpression (Term.strip t).kind = Term.walkedAsExpression t.kind := by
  obtain ⟨l, k⟩ := t
  rw [Term.strip_withoutDeclarations]
  cases k <;> rfl

theorem expressionsInPlace_strip {t : Tree} (ordered : t.expressionsInPlace = true) :
    (Term.strip t).expressionsInPlace = true := by
  refine Term.expressionsInPlace_iff.mpr fun m member part listed position => ?_
  obtain ⟨⟨l, k⟩, inside, rfl⟩ := mem_subterms_strip member
  rw [Term.strip_withoutDeclarations, Term.kind, Kind.places_map, List.mem_map] at listed
  obtain ⟨⟨inner, c⟩, listed, rfl⟩ := listed
  have known : (inner, c) ∈ k.places := by
    cases k with
    | block ss =>
      obtain ⟨s, -, same⟩ := List.mem_map.mp listed
      cases same
      cases position
    | _ => exact listed
  rw [walkedAsExpression_strip]
  exact Term.expressionsInPlace_iff.mp ordered _ inside _ known position

end Tree

theorem Applied.exposed_rebuild {u q : Tree} {size : Nat} {ps : List Patch} {a b : Arena}
    (applied : Applied u size ps a) (held : b.Holds u) (ordered : u.expressionsInPlace = true)
    (member : q ∈ u.subterms) (block : q.isBlock = true) (name : String) :
    Subject.exposed ⟨q.id, none⟩ a name = Subject.exposed ⟨q.id, none⟩ b name := by
  obtain ⟨l, k⟩ := q
  cases k with
  | block ss =>
    have unfolded : Tree.foldedBy? ps (.node l (.block ss)) = none := rfl
    obtain ⟨note, left⟩ := Tree.rebuild_mem_subterms applied.foldsVariables member unfolded
      fun _ same => by cases same
    have number : Tree.id (.node l (.block ss)) =
        ((Tree.rebuild ps (.node l (.block ss))).withNote note).id := by
      rw [Tree.id_withNote, Tree.id, Tree.id, Tree.label_rebuild ps unfolded]
    have alike (s : Tree) (listed : s ∈ ss) : Flow.Alike name .statement s (s.rebuild ps) := by
      have inside : s ∈ (Term.node l (.block ss)).subterms :=
        Term.child_mem_subterms (by simpa [Term.children, Term.kind] using listed)
      exact applied.alike_inPlace name (Term.subterms_trans inside member)
        (Term.expressionsInPlace_below ordered (Term.subterms_trans inside member))
        (fun impossible => by cases impossible) fun _ _ => rfl
    have asked (b : Arena) {n : Tree} (held : b.Holds n)
        (same : Tree.id (.node l (.block ss)) = n.id) :=
      Subject.exposed_eq held ⟨Tree.id (.node l (.block ss)), none⟩ name same
    have walked : Flow.walkAll name .statement
        ((Tree.rebuild ps (.node l (.block ss))).withNote note).statements =
          Flow.walkAll name .statement (Tree.statements (.node l (.block ss))) := by
      rw [Tree.statements_rebuild block]
      exact Flow.walkAll_rebuildAll alike
    rw [asked a (applied.holds.below left) number, asked b (held.below member) rfl]
    simp only [Subject.statements, walked]
    rfl
  | _ => cases block

/-- Whatever name is asked about, an analysis of a block gives the same answer before the edits are
carried out, with all declarations taken out, and after the run. -/
theorem Pass.reports_kept {p : Pass} {body : Body} {root : NodeId} {before after : Arena}
    (lowered : Arena.ofBody body = (root, before)) (run : (p.run root before).2 = .ok () after)
    (ordered : (before.view root).expressionsInPlace = true) :
    ∃ edits stripped, Editing.plan p.options root before = .ok edits stripped ∧
      stripped.view root = Term.strip (before.view root) ∧
      ∀ b ∈ (before.view root).subterms, b.isBlock = true → ∀ name, ∃ names,
        Subject.exposed ⟨Tree.id b, none⟩ stripped name = .ok names ∧
        Subject.exposed ⟨Tree.id b, none⟩ after name = .ok names := by
  obtain ⟨stripped, planned, shown, held⟩ := Pass.stripped_of_body lowered run
  obtain ⟨t, ps, stats, rfl, -, sound, placed, -⟩ := Pass.placed_of_body lowered run
  obtain ⟨size, -, applied⟩ := placed.applied
  refine ⟨_, stripped, planned, shown, fun b member block name => ?_⟩
  have inside := Tree.strip_mem_subterms sound member (Tree.isDeclarative_of_block block)
  have kept := applied.exposed_rebuild held (Tree.expressionsInPlace_strip ordered) inside
    (by rwa [Term.isBlock_strip]) name
  rw [Tree.id_strip] at kept
  have answered := Subject.exposed_eq (held.below inside) ⟨Tree.id b, none⟩ name
    (Tree.id_strip b).symm
  exact ⟨_, answered, kept.trans answered⟩

/-- `int v; int w; if (c) { v = 1; use(v); } use(w);` -/
def Body.guarded : Body :=
  .braces [.declareInt "v", .declareInt "w", .when "c" [.setOne "v", .use "v"], .use "w"]

/- One of the declarations goes into the block with a value, the other one stays without. -/
theorem Pass.reports_kept_guarded :
    ∃ edits stripped,
      Editing.plan {} (Arena.ofBody .guarded).1 (Arena.ofBody .guarded).2 = .ok edits stripped ∧
      Subject.exposed ⟨(Arena.ofBody .guarded).1, none⟩ stripped "w" = .ok ["w"] ∧
      Subject.exposed ⟨(Arena.ofBody .guarded).1, none⟩
        (Pass.outcome {} (Arena.ofBody .guarded).1 (Arena.ofBody .guarded).2) "w" = .ok ["w"] := by
  have ran : (Pass.run {} (Arena.ofBody .guarded).1 (Arena.ofBody .guarded).2).2 = .ok () _ :=
    Pass.run_outcome (by decide +kernel)
  have reported : Subject.exposed ⟨(Arena.ofBody .guarded).1, none⟩
      (Pass.outcome {} (Arena.ofBody .guarded).1 (Arena.ofBody .guarded).2) "w" = .ok ["w"] := by
    decide +kernel
  obtain ⟨edits, stripped, planned, -, kept⟩ :=
    Pass.reports_kept Prod.mk.eta.symm ran (by decide +kernel)
  obtain ⟨names, earlier, later⟩ := kept _ (Term.self_mem_subterms _) (by decide +kernel) "w"
  have root : ((Arena.ofBody .guarded).2.view (Arena.ofBody .guarded).1).id =
      (Arena.ofBody .guarded).1 := by decide +kernel
  rw [root] at earlier later
  obtain rfl : names = ["w"] := Except.ok.inj (later.symm.trans reported)
  exact ⟨edits, stripped, planned, earlier, reported⟩

end LocalScope
