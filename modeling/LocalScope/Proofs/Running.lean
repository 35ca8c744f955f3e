import LocalScope.Placement.Pass
import LocalScope.Proofs.Applying
import LocalScope.Proofs.Lowering
import LocalScope.Proofs.Planning

namespace LocalScope

theorem Edit.Fits.above {s t : Tree} {e : Edit} (fits : e.Fits s) (member : s ∈ t.subterms) :
    e.Fits t := by
  obtain ⟨n, inside, at'⟩ := fits
  exact ⟨n, Term.subterms_trans inside member, at'⟩

namespace LocalVariable

variable (o : Options) (v : LocalVariable)

def Declares (e : Edit) : Prop := e.ty = v.ty ∧ e.name = v.name

variable {o v}

theorem headerFold?_at {s : Tree} {e : Edit} (found : v.headerFold? o s = some e) :
    e.At s ∧ v.Declares e := by
  rw [headerFold?] at found
  split at found
  · obtain ⟨⟨a, x⟩, absorbs, rfl⟩ := Option.map_eq_some_iff.mp found
    obtain ⟨init, only, absorbs⟩ := Term.absorbableHeader?_eq_some.mp absorbs
    obtain ⟨value, assignment, shape, named, -⟩ := Term.absorbable?_eq_some.mp absorbs
    have entry : init ∈ s.entries := List.mem_append_right _ (by simp [only])
    exact ⟨.inr ⟨init, entry, a, assignment, rfl, x, value, shape, named⟩, rfl, rfl⟩
  · cases found

theorem declareAt_at {block point : Tree} (listed : point ∈ block.statements) :
    (v.declareAt o point).At block ∧ v.Declares (v.declareAt o point) := by
  have insertion : (v.insertBefore point).At block ∧ v.Declares (v.insertBefore point) :=
    ⟨.inl ⟨point, listed, rfl⟩, rfl, rfl⟩
  rw [declareAt]
  cases found : v.pointFold? o point with
  | none => exact insertion
  | some e =>
    rw [pointFold?] at found
    split at found
    · obtain ⟨⟨a, x⟩, absorbs, rfl⟩ := Option.map_eq_some_iff.mp found
      obtain ⟨value, assignment, shape, named, -⟩ := Term.absorbable?_eq_some.mp absorbs
      have entry : point ∈ block.entries := List.mem_append_left _ listed
      exact ⟨.inr ⟨point, entry, a, assignment, rfl, x, value, shape, named⟩, rfl, rfl⟩
    · cases found

theorem spread_fits {block : Tree} {e : Edit} (planned : e ∈ v.spread o block) :
    e.Fits block ∧ v.Declares e := by
  induction block using Term.inductSmaller with
  | step block smaller =>
    rw [spread_eq] at planned
    split at planned
    · cases planned
    · rename_i point found
      split at planned
      · obtain ⟨s, listed, planned⟩ := List.mem_flatMap.mp planned
        have child := Term.statement_mem_children listed
        have inside : s ∈ block.subterms := Term.child_mem_subterms child
        rw [spreadOver] at planned
        split at planned
        · rename_i fold
          rw [List.mem_singleton.mp planned]
          exact (headerFold?_at fold).imp_left fun at' => ⟨s, inside, at'⟩
        · obtain ⟨r, received, planned⟩ := List.mem_flatMap.mp planned
          have less := (Term.size_receiver_lt received).trans (Term.size_lt_of_mem_children child)
          have below := Term.subterms_trans (Term.receiver_mem_subterms received) inside
          exact (smaller r less planned).imp_left fun fits => fits.above below
      · rw [List.mem_singleton.mp planned]
        have listed := List.mem_of_find?_eq_some found
        exact (declareAt_at listed).imp_left fun at' => ⟨block, Term.self_mem_subterms _, at'⟩

end LocalVariable

namespace Tree

/-- Part of a declaration. -/
def isDeclarative (t : Tree) : Bool :=
  match t.kind with
  | .declaration .. | .binding .. => true
  | _ => false

theorem isDeclarative_of_block {m : Tree} (block : m.isBlock = true) : m.isDeclarative = false := by
  obtain ⟨l, k⟩ := m
  cases k <;> first | rfl | cases block

theorem strip_mem_or {t n : Tree} (member : n ∈ t.subterms) :
    Term.strip n ∈ (Term.strip t).subterms ∨
      ∃ b ∈ t.subterms, ∃ d ∈ statements b, d.isDeclaration = true ∧ n ∈ d.subterms := by
  induction t using Term.inductChildren with
  | step l k ih =>
    rcases Term.mem_subterms_node.mp member with rfl | ⟨c, child, below⟩
    · exact .inl (Term.self_mem_subterms _)
    · by_cases left : c ∈ (Term.withoutDeclarations k).children
      · rcases ih c child below with inner | ⟨b, inside, found⟩
        · left
          apply Term.mem_subterms_of_child _ inner
          rw [Term.strip_withoutDeclarations]
          simp only [Term.children, Term.kind, Kind.children_map]
          exact List.mem_map_of_mem left
        · exact .inr ⟨b, Term.mem_subterms_of_child (t := .node l k) child inside, found⟩
      · right
        cases k with
        | block ss =>
          rw [Kind.children_block] at child
          have declares : c.isDeclaration = true := by
            simpa [Term.withoutDeclarations, child] using left
          exact ⟨_, Term.self_mem_subterms _, c, child, declares, below⟩
        | _ => exact absurd child left

theorem mem_subterms_local {d n : Tree} {v : LocalVariable} (known : d.local? = some v)
    (below : n ∈ d.subterms) : n = d ∨ n.kind = .binding v.name none := by
  obtain ⟨l, l', isFinal, rfl, -⟩ := eq_of_local known
  simp only [Term.subterms_node, Kind.children, Kind.slots, Slot.children, List.flatMap_cons,
    List.flatMap_nil, List.append_nil, Option.toList_none, List.mem_cons, List.not_mem_nil,
    or_false] at below
  exact below.imp_right fun same => by rw [same]; rfl

theorem strip_mem_subterms {t n : Tree} (sound : t.Sound) (member : n ∈ t.subterms)
    (other : n.isDeclarative = false) : Term.strip n ∈ (Term.strip t).subterms := by
  rcases strip_mem_or member with left | ⟨b, inside, d, listed, declares, below⟩
  · exact left
  · obtain ⟨v, known⟩ := Option.isSome_iff_exists.mp (sound b inside d listed declares)
    rw [isDeclarative] at other
    rcases mem_subterms_local known below with rfl | shape
    · rw [Term.isDeclaration] at declares
      split at declares
      · rename_i shape
        rw [shape] at other
        cases other
      · cases declares
    · rw [shape] at other
      cases other

theorem mem_subterms_strip {t m : Tree} (member : m ∈ (Term.strip t).subterms) :
    ∃ n ∈ t.subterms, m = Term.strip n := by
  induction t using Term.inductChildren with
  | step l k ih =>
    rw [Term.strip_withoutDeclarations] at member
    rcases Term.mem_subterms_node.mp member with rfl | ⟨c, child, below⟩
    · exact ⟨_, Term.self_mem_subterms _, (Term.strip_withoutDeclarations l k).symm⟩
    · rw [Kind.children_map, List.mem_map] at child
      obtain ⟨c, child, rfl⟩ := child
      have child := (withoutDeclarations_sublist k).subset child
      obtain ⟨n, inside, same⟩ := ih c child below
      exact ⟨n, Term.mem_subterms_of_child (t := .node l k) child inside, same⟩

theorem mem_plan {o : Options} {t : Tree} {e : Edit} :
    e ∈ t.plan o ↔
      ∃ n ∈ t.subterms, ∃ v ∈ locals (statements n), e ∈ v.spread o (Term.strip n) := by
  induction t using Term.inductChildren with
  | step l k ih =>
    rw [plan_node, List.mem_append, List.mem_flatMap, List.mem_flatMap]
    constructor
    · rintro (⟨v, known, planned⟩ | ⟨c, child, planned⟩)
      · exact ⟨_, Term.self_mem_subterms _, v, known, planned⟩
      · obtain ⟨n, below, found⟩ := (ih c child).mp planned
        exact ⟨n, Term.mem_subterms_of_child (t := .node l k) child below, found⟩
    · rintro ⟨n, member, v, known, planned⟩
      rcases Term.mem_subterms_node.mp member with rfl | ⟨c, child, below⟩
      · exact .inl ⟨v, known, planned⟩
      · exact .inr ⟨c, child, (ih c child).mpr ⟨n, below, v, known, planned⟩⟩

theorem plan_fits {o : Options} {t : Tree} (sound : t.Sound) {e : Edit} (planned : e ∈ t.plan o) :
    e.Fits (Term.strip t) := by
  obtain ⟨n, member, v, known, planned⟩ := mem_plan.mp planned
  obtain ⟨d, listed, -⟩ := List.mem_filterMap.mp known
  have other : isDeclarative n = false := by
    have shape : n.kind = .block (statements n) := Term.kind_of_statement listed
    rw [isDeclarative, shape]
  exact (LocalVariable.spread_fits planned).1.above (strip_mem_subterms sound member other)

end Tree

namespace Editing

variable {o : Options} {t : Tree} {a : Arena}

/-- What a successful run leaves behind. -/
structure Placed (o : Options) (t : Tree) (a : Arena) (ps : List Patch) (stats : Stats)
    (b : Arena) : Prop where
  applied : ∃ size, a.size ≤ size ∧ Applied (Term.strip t) size ps b
  marked : Patch.AllMarked o.markFinal (Term.strip t) ps
  edits : ps.map Patch.edit = Edit.carriedOut (t.plan o)
  inserted : stats.inserted = ((t.plan o).filter Edit.isInsertion).length
  folded : stats.folded = (Edit.effective [] (t.plan o)).length
  skipped : stats.folded + stats.skipped = ((t.plan o).filter fun e => !e.isInsertion).length

theorem placeDeclarations_ok (held : a.Holds t) (sound : t.Sound) :
    ∃ ps stats b, placeDeclarations o t.id a = .ok stats b ∧ Placed o t a ps stats b := by
  obtain ⟨c, first, planned⟩ := plan_ok o held sound
  obtain ⟨ps, stats, b, second, applied, marked, edits, inserted, folded, skipped⟩ :=
    Edit.applyAll_ok o.markFinal (t.plan o) planned.holds fun e => Tree.plan_fits sound
  refine ⟨ps, stats, b, ?_, ⟨_, planned.confined.grows, applied⟩, marked, edits, inserted, folded,
    skipped⟩
  rw [placeDeclarations, bind_ok first]
  exact second

theorem placeDeclarations_error {e : Error} (held : a.Holds t) (fails : t.fault? = some e) :
    ∃ b, placeDeclarations o t.id a = .error e b := by
  obtain ⟨b, failed⟩ := plan_error o held fails
  exact ⟨b, by rw [placeDeclarations, bind_error failed]⟩

end Editing

theorem Pass.run_cases (p : Pass) (body : Body) :
    let t := Arena.treeOfBody body
    (∃ e after, t.fault? = some e ∧
      p.run (Arena.ofBody body).1 (Arena.ofBody body).2 = (p, .error e after)) ∨
    ∃ ps stats after, t.fault? = none ∧
      p.run (Arena.ofBody body).1 (Arena.ofBody body).2 =
        ({ p with lastStats := stats }, .ok () after) ∧
      Editing.Placed p.options t (Arena.ofBody body).2 ps stats after ∧
      after.view (Arena.ofBody body).1 = Tree.rebuild ps (Term.strip t) := by
  intro t
  obtain ⟨held, name, -, -⟩ := Arena.ofBody_holds body
  rw [← name]
  cases fault : t.fault? with
  | some e =>
    obtain ⟨after, failed⟩ := Editing.placeDeclarations_error (o := p.options) held fault
    exact .inl ⟨e, after, rfl, by rw [Pass.run, failed]⟩
  | none =>
    obtain ⟨ps, stats, after, done, placed⟩ :=
      Editing.placeDeclarations_ok (o := p.options) held (Tree.sound_iff.mpr fault)
    refine .inr ⟨ps, stats, after, rfl, by rw [Pass.run, done], placed, ?_⟩
    obtain ⟨size, -, applied⟩ := placed.applied
    have root : (Tree.rebuild ps (Term.strip t)).id = t.id := by
      rw [Tree.id, Tree.label_rebuild ps applied.root, Term.label_strip, Tree.id]
    rw [← root, applied.holds.view_eq]

theorem Pass.placed_of_body {p : Pass} {body : Body} {root : NodeId} {before after : Arena}
    (lowered : Arena.ofBody body = (root, before)) (run : (p.run root before).2 = .ok () after) :
    ∃ t ps stats, before.view root = t ∧ before.Holds t ∧ t.Sound ∧
      Editing.Placed p.options t before ps stats after ∧
      after.view root = Tree.rebuild ps (Term.strip t) := by
  obtain ⟨held, -⟩ := Arena.ofBody_holds body
  have viewed : before.view root = Arena.treeOfBody body := by rw [Arena.treeOfBody, lowered]
  have cases := p.run_cases body
  rw [lowered] at held cases
  rcases cases with ⟨e, after', -, failed⟩ | ⟨ps, stats, after', fault, done, placed, output⟩
  · rw [failed] at run
    cases run
  · rw [done, EStateM.Result.ok.injEq] at run
    obtain ⟨-, rfl⟩ := run
    exact ⟨_, ps, stats, viewed, held, Tree.sound_iff.mpr fault, placed, output⟩

/-- Before the edits of a run are carried out, the declarations are gone and all else is as it was. -/
theorem Pass.stripped_of_body {p : Pass} {body : Body} {root : NodeId} {before after : Arena}
    (lowered : Arena.ofBody body = (root, before)) (run : (p.run root before).2 = .ok () after) :
    ∃ stripped, Editing.plan p.options root before = .ok ((before.view root).plan p.options) stripped ∧
      stripped.view root = Term.strip (before.view root) ∧
      stripped.Holds (Term.strip (before.view root)) := by
  obtain ⟨t, ps, stats, rfl, held, sound, -⟩ := Pass.placed_of_body lowered run
  obtain ⟨-, name, -, -⟩ := Arena.ofBody_holds body
  have root' : (before.view root).id = root := by rwa [Arena.treeOfBody, lowered] at name
  obtain ⟨stripped, done, planned⟩ := Editing.plan_ok p.options held sound
  have shown := planned.holds.view_eq
  rw [root'] at done
  rw [Tree.id_strip, root'] at shown
  exact ⟨stripped, done, shown, planned.holds⟩

end LocalScope
