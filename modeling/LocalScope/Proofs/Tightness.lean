import LocalScope.Proofs.Marking
import LocalScope.Proofs.Reports
import LocalScope.Proofs.Settling
import LocalScope.Proofs.Snippets

/-! How tight the declarations stand that a run inserts. A folding takes an identifier away, so what
uses a variable in the output need not be what used it in the plan. Inside the block that an
insertion was made for, though, nothing is folded for the same variable. -/
namespace LocalScope

namespace Tree

variable {name : String}

theorem uses_withNote (note : Annotation) (t : Tree) : (t.withNote note).uses name = t.uses name := by
  obtain ⟨l, k⟩ := t
  rw [Term.uses_node]
  exact Term.uses_node name _ k

theorem uses_block (l : Label) (ss : List Tree) :
    Term.uses name (.node l (.block ss)) = ss.any (Term.uses name) := by
  simp [Term.uses_node, Kind.map, Term.usesAt, Term.hides, Kind.children, Kind.slots, Slot.children]

theorem uses_inserted (p : Patch) : p.inserted.uses name = false := by
  simp [Patch.inserted, Patch.declares, Term.uses_node, Kind.map, Term.usesAt, Term.hides,
    Kind.children, Kind.slots, Slot.children]

theorem of_mem_insertions {ps : List Patch} {x : NodeId} {t : Tree} (inserted : t ∈ insertions ps x) :
    t.isUninitialized = true ∧ t.uses name = false := by
  obtain ⟨p, -, rfl⟩ := List.mem_map.mp inserted
  exact ⟨rfl, uses_inserted p⟩

theorem uses_folded (p : Patch) (note : Annotation) (memberId : Option MemberId) (value : Tree) :
    (p.folded note memberId value).uses name = value.uses name := by
  rw [← uses_withNote ⟨p.edit.variableId, memberId⟩ value]
  simp [Patch.folded, Patch.declares, Term.uses_node, Kind.map, Term.usesAt, Term.hides,
    Kind.children, Kind.slots, Slot.children]

theorem uses_assigned {t r x v : Tree} {target : String} (found : t.assignment? = some r)
    (shape : r.kind = .assignment .plain x v) (named : x.isIdentifier target = true) :
    t.uses name = (target == name || v.uses name) := by
  obtain ⟨lr, kr⟩ := r
  obtain ⟨lx, kx⟩ := x
  rw [Term.kind] at shape
  obtain rfl : kx = .identifier target := Term.isIdentifier_iff.mp named
  subst shape
  have here : Term.uses name (.node lr (.assignment .plain (.node lx (.identifier target)) v)) =
      (target == name || v.uses name) := by
    simp [Term.uses_node, Kind.map, Term.usesAt, Term.hides, Kind.children, Kind.slots, Slot.children]
  obtain ⟨-, rfl | around⟩ := Term.assignment?_cases found
  · exact here
  · obtain ⟨lt, kt⟩ := t
    rw [Term.kind] at around
    subst around
    rw [← here, Term.uses_node name lt]
    simp [Kind.map, Term.usesAt, Term.hides, Kind.children, Kind.slots, Slot.children]

theorem uses_rebuildAll {ps : List Patch} {ss : List Tree}
    (each : ∀ s ∈ ss, (rebuild ps s).uses name = s.uses name) :
    (rebuildAll ps ss).any (Term.uses name) = ss.any (Term.uses name) := by
  induction ss with
  | nil => rfl
  | cons s rest ih =>
    have before : (insertions ps s.id).any (Term.uses name) = false := by
      simpa using fun t inserted => (of_mem_insertions (t := t) inserted).2
    rw [rebuildAll_cons, List.any_append, before, List.any_cons, List.any_cons, each s (by simp),
      ih fun r later => each r (by simp [later]), Bool.false_or]

end Tree

theorem Arena.Holds.uses_eq {a : Arena} {t s : Tree} (held : a.Holds t) (member : s ∈ t.subterms)
    (name : String) : a.uses s.id name = .ok (s.uses name) := by
  rw [Arena.uses, (held.below member).look_eq]
  rfl

theorem Applied.uses_rebuild {u t : Tree} {size : Nat} {ps : List Patch} {a : Arena} {name : String}
    (applied : Applied u size ps a) (member : t ∈ u.subterms)
    (others : ∀ x ∈ t.ids, ∀ p, Tree.folding? ps x = some p → p.edit.name ≠ name) :
    (t.rebuild ps).uses name = t.uses name := by
  induction t using Term.inductSmaller with
  | step t smaller =>
    have below {c : Tree} (less : c.size < t.size) (inside : c ∈ t.subterms) :
        (Tree.rebuild ps c).uses name = c.uses name :=
      smaller c less (Term.subterms_trans inside member)
        fun x known => others x (Tree.ids_subset inside known)
    have child {c : Tree} (child : c ∈ t.children) : (Tree.rebuild ps c).uses name = c.uses name :=
      below (Term.size_lt_of_mem_children child) (Term.child_mem_subterms child)
    obtain ⟨l, k⟩ := t
    rcases Tree.rebuild_cases ps l k with ⟨ss, rfl, made⟩ | ⟨-, -, made⟩ |
      ⟨p, r, op, x, v, found, shape, folded, made⟩
    · rw [made, Tree.uses_block, Tree.uses_block, Tree.uses_rebuildAll]
      exact fun s listed => child (Term.statement_mem_children listed)
    · rw [made, Term.uses_node, Term.uses_node, Kind.map_map, Kind.map_congr k fun c inside => child inside]
    · obtain ⟨x', v', shape', named⟩ := applied.folded_at member found folded
      rw [shape', Kind.assignment.injEq] at shape
      obtain ⟨rfl, rfl, rfl⟩ := shape
      have inside := Tree.ids_subset (Term.assignment?_mem_subterms found) (Tree.id_mem_ids r)
      have other := others (Tree.id r) inside p folded
      rw [made, Tree.uses_folded, Tree.uses_assigned found shape' named,
        below (Tree.size_value_lt found shape') (Tree.value_mem_subterms found shape')]
      simp [other]

namespace LocalVariable

variable {o : Options} {v : LocalVariable} {b m m' s s' h : Tree} {e : Edit}

/- Of two blocks that a variable is handed on to, the outer one is on the way to the inner one. -/
theorem HandedTo.within (handed : v.HandedTo o b m) (handed' : v.HandedTo o b m')
    (distinct : b.ids.Nodup) (below : m' ∈ m.subterms) : v.HandedTo o m m' := by
  induction b using Term.inductSmaller with
  | step b smaller =>
    rcases handed.head with rfl | ⟨-, s, listed, -, r, received, rest⟩
    · exact handed'
    · have less := (Term.size_receiver_lt received).trans
        (Term.size_lt_of_mem_children (Term.statement_mem_children listed))
      rcases handed'.head with rfl | ⟨-, s', listed', -, r', received', rest'⟩
      · have around := Term.size_le_of_mem_subterms (Term.subterms_trans below rest.mem_subterms)
        omega
      · -- The inner block is in the statement, and in the block of it, that the outer one is in.
        have inner : Tree.id m' ∈ Tree.ids r :=
          Tree.ids_subset (Term.subterms_trans below rest.mem_subterms) (Tree.id_mem_ids m')
        have inner' : Tree.id m' ∈ Tree.ids r' := Tree.ids_subset rest'.mem_subterms (Tree.id_mem_ids m')
        obtain rfl : s = s' := Tree.eq_of_common (Tree.nodup_ids_statements distinct) listed listed'
          (Tree.ids_subset (Term.receiver_mem_subterms received) inner)
          (Tree.ids_subset (Term.receiver_mem_subterms received') inner')
        have own := distinct.sublist
          (Tree.ids_sublist (Term.child_mem_subterms (Term.statement_mem_children listed)))
        obtain rfl : r = r' :=
          Tree.eq_of_common (own.sublist (Tree.ids_receivers s)) received received' inner inner'
        exact smaller r less rest rest' (own.sublist
          (Tree.ids_sublist (Term.receiver_mem_subterms received)))

theorem HandedTo.eq_of_declares (handed : v.HandedTo o m m') (declares : v.declaresAt? o m = some s) :
    m' = m := by
  rcases handed.head with same | ⟨passes, -⟩
  · exact same
  · simp [passesOn, stays_of_declaresAt declares] at passes

/-- In a block that declares the variable, all that is folded for it is the first use. -/
theorem FoldsAt.at_point (folds : v.FoldsAt o m' s' h e) (distinct : b.ids.Nodup)
    (handed : v.HandedTo o b m) (declares : v.declaresAt? o m = some s) (handed' : v.HandedTo o b m')
    (inside : e.site.node ∈ m.ids) : v.pointFold? o s = some e := by
  have stays : v.passesOn o m = false := by simp [passesOn, stays_of_declaresAt declares]
  have listed := Term.statement_mem_children folds.listed
  have own := Tree.ids_subset (Term.child_mem_subterms listed) folds.site_mem
  have same : m' = m := by
    rcases Tree.nested_of_common distinct handed'.mem_subterms handed.mem_subterms own inside with
      within | around
    · exact (handed.within handed' distinct within).eq_of_declares declares
    · have onward := handed'.within handed distinct around
      cases folds with
      | point declares' => exact (onward.eq_of_declares declares').symm
      | header passes listed' folded =>
        rcases onward.head with same | ⟨-, s₁, listed₁, unfolded, r, received, rest⟩
        · exact same.symm
        · -- The header is in another statement than the one that the variable is handed to.
          have deep := Tree.ids_subset (Term.subterms_trans rest.mem_subterms
            (Term.receiver_mem_subterms received)) inside
          obtain rfl : s₁ = s' := Tree.eq_of_common (Tree.nodup_ids_statements
            (distinct.sublist (Tree.ids_sublist handed'.mem_subterms))) listed₁ listed' deep
            (FoldsAt.header passes listed' folded).site_mem
          rw [unfolded] at folded
          cases folded
  subst same
  cases folds with
  | point declares' folded =>
    obtain rfl : s = s' := Option.some.inj (declares.symm.trans declares')
    exact folded
  | header passes =>
    rw [stays] at passes
    cases passes

end LocalVariable

namespace Tree

/-- Along a chain of nested blocks the name is declared at most once. -/
def DeclaredApart (name : String) (t : Tree) : Prop :=
  ∀ b ∈ t.subterms, ∀ b' ∈ b.subterms, ∀ d ∈ statements b, ∀ d' ∈ statements b',
    d.declares name = true → d'.declares name = true → d.id = d'.id

instance (name : String) (t : Tree) : Decidable (t.DeclaredApart name) :=
  inferInstanceAs (Decidable (∀ b ∈ t.subterms, ∀ b' ∈ b.subterms, ∀ d ∈ statements b,
    ∀ d' ∈ statements b', d.declares name = true → d'.declares name = true → d.id = d'.id))

end Tree

namespace Editing.Placed

variable {o : Options} {t : Tree} {a c : Arena} {ps : List Patch} {stats : Stats} {name : String}

theorem other_folding (placed : Placed o t a ps stats c) (distinct : t.ids.Nodup) (sound : t.Sound)
    (apart : t.DeclaredApart name) {p q : Patch} {n s : Tree} {x : NodeId} (among : p ∈ ps)
    (member : n ∈ (Term.strip t).subterms) (listed : s ∈ n.statements)
    (site : p.edit.site = .before s.id) (named : p.edit.name = name) (inside : x ∈ n.ids)
    (folded : Tree.folding? ps x = some q) : q.edit.name ≠ name := by
  intro named'
  obtain ⟨b, inTree, d, declared, v, known, handed, edit, declares, unfolded⟩ :=
    placed.declared_from sound among member listed site
  obtain ⟨among', site'⟩ := Tree.folding?_mem folded
  obtain ⟨b', inTree', v', mine, planned⟩ := Tree.mem_plan.mp (placed.edit_mem_plan among')
  obtain ⟨d', declared', known'⟩ := List.mem_filterMap.mp mine
  have fits := LocalVariable.spread_fits planned
  have first : d.declares name = true := by
    rw [← named, edit]
    exact Tree.declares_of_local known
  have second : d'.declares name = true := by
    rw [← named', fits.2.2]
    exact Tree.declares_of_local known'
  have common : x ∈ Tree.ids b := (Tree.ids_strip b).subset (Tree.ids_subset handed.mem_subterms inside)
  have common' : x ∈ Tree.ids b' := by
    have node := fits.1.node_mem_ids
    rw [site'] at node
    exact (Tree.ids_strip b').subset node
  -- Both come from the same declaration.
  have number : Tree.id d = Tree.id d' := by
    rcases Tree.nested_of_common distinct inTree' inTree common' common with within | around
    · exact apart b inTree b' within d declared d' declared' first second
    · exact (apart b' inTree' b around d' declared' d declared second first).symm
  have child := Term.statement_mem_children declared
  have child' := Term.statement_mem_children declared'
  obtain rfl : d = d' := List.inj_on_of_nodup_map distinct
    (Term.subterms_trans (Term.child_mem_subterms child) inTree)
    (Term.subterms_trans (Term.child_mem_subterms child') inTree') number
  obtain rfl := Tree.parent_unique distinct inTree inTree' child child'
  obtain rfl : v = v' := Option.some.inj (known.symm.trans known')
  obtain ⟨m, s', h, handed', folds⟩ := LocalVariable.folding_of_spread planned
    (by rw [Edit.isInsertion, site'])
  have own := (distinct.sublist (Tree.ids_sublist inTree)).sublist (Tree.ids_strip b)
  have absorbed := folds.at_point own handed declares handed' (by rw [site']; exact inside)
  rw [unfolded] at absorbed
  cases absorbed

theorem tight (placed : Placed o t a ps stats c) (distinct : t.ids.Nodup) (sound : t.Sound)
    (apart : t.DeclaredApart name) {n d : Tree} {earlier later : List Tree}
    (left : n ∈ (Tree.rebuild ps (Term.strip t)).subterms)
    (split : n.statements = earlier ++ d :: later) (valueless : d.isUninitialized = true)
    (declares : d.declares name = true) :
    ∃ more s rest, later = more ++ s :: rest ∧ (∀ r ∈ more, Tree.isUninitialized r = true) ∧
      Term.uses name s = true ∧ ∀ r ∈ earlier ++ d :: more, Term.uses name r = false := by
  obtain ⟨size, -, applied⟩ := placed.applied
  obtain ⟨q, member, note, rfl, block, -⟩ :=
    Tree.inserted_of_uninitialized left (by rw [split]; simp) valueless
  rw [Tree.statements_rebuild block] at split
  obtain ⟨first, s, last, position, ⟨own, more, mine, rfl, rfl⟩ | ⟨rfl, -⟩⟩ :=
    Tree.rebuildAll_eq_append split
  · have listed : s ∈ Tree.statements q := by simp [position]
    have inserted : d ∈ Tree.insertions ps s.id := by simp [mine]
    obtain ⟨p, known, rfl⟩ := List.mem_map.mp inserted
    obtain ⟨among, site⟩ := List.mem_filter.mp known
    have site : p.edit.site = .before s.id := by simpa using site
    have named : p.edit.name = name := by
      simpa [Patch.inserted, Patch.declares, Tree.declares, Tree.binds, Term.kind] using declares
    obtain ⟨v, edit, declared, -⟩ := placed.declared_at sound among member listed site
    obtain rfl : v.name = name := by rw [← named, edit]; rfl
    obtain ⟨used, first', last', position', unused⟩ :=
      List.find?_eq_some_iff_append.mp (LocalVariable.find?_of_declaresAt declared)
    obtain rfl : first' = first := Tree.split_unique
      (applied.distinct.sublist (Tree.ids_sublist member)) position' position
    have same (r : Tree) (listed' : r ∈ Tree.statements q) :
        (Tree.rebuild ps r).uses v.name = r.uses v.name := by
      have inside : r ∈ q.subterms := Term.child_mem_subterms (Term.statement_mem_children listed')
      exact applied.uses_rebuild (Term.subterms_trans inside member) fun x within p' folded =>
        placed.other_folding distinct sound apart among member listed site named
          (Tree.ids_subset inside within) folded
    have bare (r : Tree) (also : r ∈ own ++ p.inserted :: more) :
        r.isUninitialized = true ∧ r.uses v.name = false := by
      rw [← mine] at also
      exact Tree.of_mem_insertions also
    refine ⟨more, Tree.rebuild ps s, _, rfl, fun r between => (bare r (by simp [between])).1, ?_, ?_⟩
    · rw [same s listed, used]
    · intro r before
      rw [List.append_assoc] at before
      rcases List.mem_append.mp before with early | also
      · obtain ⟨r, listed', inserted | rfl⟩ := Tree.mem_rebuildAll.mp early
        · exact (Tree.of_mem_insertions inserted).2
        · rw [same r (by simp [position, listed'])]
          simpa using unused r listed'
      · exact (bare r also).2
  · have listed : s ∈ Tree.statements q := by simp [position]
    rw [Tree.isUninitialized_rebuild ps (Tree.isDeclaration_of_strip member listed)] at valueless
    cases valueless

end Editing.Placed

/-- In the output of a run, a declaration without a value is followed, after further ones, by the first
statement of its block that uses the variable, provided that the body declares the name at most once
along a chain of nested blocks. -/
theorem Pass.declared_before_first_use {p : Pass} {body : Body} {root : NodeId} {before after : Arena}
    (lowered : Arena.ofBody body = (root, before)) (run : (p.run root before).2 = .ok () after)
    {name : String} (apart : (before.view root).DeclaredApart name) {n d : Tree}
    {earlier later : List Tree} (inside : n ∈ (after.view root).subterms)
    (split : n.statements = earlier ++ d :: later) (valueless : d.isUninitialized = true)
    (declares : d.declares name = true) :
    ∃ more s rest, later = more ++ s :: rest ∧ (∀ r ∈ more, Tree.isUninitialized r = true) ∧
      after.uses (Tree.id s) name = .ok true ∧
      ∀ r ∈ earlier ++ d :: more, after.uses (Tree.id r) name = .ok false := by
  obtain ⟨t, ps, stats, rfl, held, sound, placed, output⟩ := Pass.placed_of_body lowered run
  obtain ⟨size, -, applied⟩ := placed.applied
  rw [output] at inside
  obtain ⟨more, s, rest, rfl, valueless', used, unused⟩ :=
    placed.tight held.distinct sound apart inside split valueless declares
  have asked (r : Tree) (listed : r ∈ earlier ++ d :: (more ++ s :: rest)) :
      after.uses r.id name = .ok (r.uses name) := by
    rw [← split] at listed
    exact applied.holds.uses_eq (Term.subterms_trans
      (Term.child_mem_subterms (Term.statement_mem_children listed)) inside) name
  refine ⟨more, s, rest, rfl, valueless', ?_, fun r among => ?_⟩
  · rw [asked s (by simp), used]
  · rw [asked r (by simp only [List.mem_append, List.mem_cons] at among ⊢; tauto), unused r among]

def Body.setSum (result first second : String) : Body :=
  .plain (.expressionStatement (.plain (.assignment .plain (.read result)
    (.plain (.invocation none "sum" [.read first, .read second])))))

/-- `int v; int w; int x; v = sum(w, x); use(v);` -/
def Body.summed : Body :=
  .braces [.declareInt "v", .declareInt "w", .declareInt "x", .setSum "v" "w" "x", .use "v"]

def Tree.restOfSummed : List Tree :=
  [shown 19 (.declaration (.primitive .int) [shown 18 (.binding "x" none)] false),
    shown 22 (.declaration (.primitive .int) [shown 21 (.binding "v" (some (shown 9
      (.invocation none "sum" [shown 7 (.identifier "w"), shown 8 (.identifier "x")]))))] true),
    shown 14 (.expressionStatement (shown 13 (.invocation none "use" [shown 12 (.identifier "v")])))]

def Tree.declarationOfSummed : Tree :=
  shown 17 (.declaration (.primitive .int) [shown 16 (.binding "w" none)] false)

theorem Arena.view_summed :
    (Pass.outcome {} (Arena.ofBody .summed).1 (Arena.ofBody .summed).2).view (Arena.ofBody .summed).1 =
      Tree.shown 15 (.block (Tree.declarationOfSummed :: Tree.restOfSummed)) := by cbv

/- The statement that both declarations were inserted for has become a declaration itself. -/
theorem Pass.declared_before_first_use_summed :
    ∃ more s rest, Tree.restOfSummed = more ++ s :: rest ∧
      (∀ r ∈ more, Tree.isUninitialized r = true) ∧
      (Pass.outcome {} (Arena.ofBody .summed).1 (Arena.ofBody .summed).2).uses (Tree.id s) "w" =
        .ok true ∧
      ∀ r ∈ Tree.declarationOfSummed :: more,
        (Pass.outcome {} (Arena.ofBody .summed).1 (Arena.ofBody .summed).2).uses (Tree.id r) "w" =
          .ok false := by
  have ran : (Pass.run {} (Arena.ofBody .summed).1 (Arena.ofBody .summed).2).2 = .ok () _ :=
    Pass.run_outcome (by decide +kernel)
  have split : Tree.statements ((Pass.outcome {} (Arena.ofBody .summed).1
      (Arena.ofBody .summed).2).view (Arena.ofBody .summed).1) =
      [] ++ Tree.declarationOfSummed :: Tree.restOfSummed := by
    rw [Arena.view_summed]
    rfl
  exact Pass.declared_before_first_use Prod.mk.eta.symm ran (by decide +kernel)
    (Term.self_mem_subterms _) split rfl rfl

end LocalScope
