import LocalScope.Placement.Plan
import LocalScope.Proofs.Refusing

/-! The plan of a whole body is a function of its tree. While it is made, declarations disappear
from the arena; each subtree is handled on its own, and nothing outside it changes. -/
namespace LocalScope

theorem flatMap_filter {α β : Type} {xs : List α} {keep : α → Bool} {g : α → List β}
    (nothing : ∀ x ∈ xs, keep x = false → g x = []) : (xs.filter keep).flatMap g = xs.flatMap g := by
  induction xs with
  | nil => rfl
  | cons x xs ih =>
    have later := ih fun y listed => nothing y (List.mem_cons_of_mem x listed)
    cases kept : keep x with
    | true => rw [List.filter_cons_of_pos kept, List.flatMap_cons, List.flatMap_cons, later]
    | false =>
      rw [List.filter_cons_of_neg (by simp [kept]), List.flatMap_cons, nothing x (by simp) kept, later,
        List.nil_append]

namespace Tree

/-- The edits for all declarations in the blocks of a tree, outer blocks first. Each variable is
placed in the stripped code. -/
def plan (o : Options) : Tree → List Edit :=
  Term.compute fun l k =>
    (locals (k.map Prod.fst).statements).flatMap
        (fun v => v.spread o (Term.strip (.node l (k.map Prod.fst)))) ++
      k.children.flatMap Prod.snd

theorem plan_node (o : Options) (l : Label) (k : Kind Tree) :
    plan o (.node l k) =
      (locals k.statements).flatMap (fun v => v.spread o (Term.strip (.node l k))) ++
        k.children.flatMap (plan o) := by
  have itself : (k.map fun t => (t, plan o t)).map Prod.fst = k := by
    rw [Kind.map_map]
    exact Kind.map_eq_self k fun _ _ => rfl
  rw [plan, Term.compute_node, ← plan, itself, Kind.children_map, List.flatMap_map]

theorem plan_eq_flatMap (o : Options) (t : Tree) :
    t.plan o = t.subterms.flatMap fun n =>
      (locals (statements n)).flatMap fun v => v.spread o (Term.strip n) := by
  induction t using Term.inductChildren with
  | step l k ih =>
    rw [plan_node, Term.subterms_node, List.flatMap_cons, List.flatMap_assoc, List.flatMap_congr ih]
    rfl

theorem plan_local (o : Options) {d : Tree} {v : LocalVariable} (known : d.local? = some v) :
    d.plan o = [] := by
  obtain ⟨l, l', isFinal, rfl, -⟩ := eq_of_local known
  simp [plan_node, Kind.statements, locals, Kind.children, Kind.slots, Slot.children]

theorem withoutDeclarations_sublist (k : Kind Tree) :
    (Term.withoutDeclarations k).children.Sublist k.children := by
  cases k with
  | block ss =>
    simp only [Term.withoutDeclarations, Kind.children_block]
    exact List.filter_sublist
  | _ => exact List.Sublist.refl _

theorem flatMap_left {β : Type} {f : Tree → List β} {l : Label} {k : Kind Tree}
    (nothing : ∀ (d : Tree) (v : LocalVariable), d.local? = some v → f d = [])
    (sound : Sound (.node l k)) :
    (Term.withoutDeclarations k).children.flatMap f = k.children.flatMap f := by
  cases k with
  | block ss =>
    have strippable : ∀ s ∈ ss, Strippable s := sound _ (Term.self_mem_subterms _)
    simp only [Term.withoutDeclarations, Kind.children_block]
    refine flatMap_filter fun s listed declares => ?_
    obtain ⟨v, known⟩ := Option.isSome_iff_exists.mp (strippable s listed (by simpa using declares))
    exact nothing s v known
  | _ => rfl

theorem plan_eq (o : Options) {l : Label} {k : Kind Tree} (sound : Sound (.node l k)) :
    plan o (.node l k) =
      (locals k.statements).flatMap
          (fun v => v.spread o (.node l (Term.withoutDeclarations k))) ++
        (Term.withoutDeclarations k).children.flatMap (plan o) := by
  rw [plan_node, flatMap_left (fun _ _ => plan_local o) sound]
  cases k with
  | block ss =>
    congr 2
    funext v
    exact (v.spread_filter o sound).symm
  | _ => simp [Kind.statements, locals]

end Tree

namespace Editing

variable {a : Arena} (o : Options)

/- A block that has just been stripped. The sibling function comes from the arena as it is then. -/
theorem replan_ok {l : Label} {ss : List Tree} (held : a.Holds (.node l (.block ss)))
    (strippable : ∀ s ∈ ss, Tree.Strippable s) :
    let left : Tree := .node l (.block (ss.filter fun s => !s.isDeclaration))
    ∃ b, replan o l.id a = .ok ((Tree.locals ss).flatMap fun v => v.spread o left) b ∧
      b.Holds left ∧ Arena.Confined (l.id :: ss.flatMap Tree.ids) a b ∧
      b.parent? l.id = a.parent? l.id := by
  intro left
  obtain ⟨b, stripped, held', confined, root⟩ := strip_ok held strippable
  refine ⟨b, ?_, held', confined, root⟩
  rw [replan, bind_ok stripped]
  split
  · rename_i none
    rw [List.isEmpty_iff] at none
    simp [none, pure, EStateM.pure]
  · have known : (get : Editing Arena) b = .ok b b := rfl
    have looked (met : Tree → Option Label) : b.look met l.id = .ok left := held'.look_eq met
    have same (v : LocalVariable) : v.place b.next? o left .receiver = v.spread o left :=
      v.place_eq_spread o _ held'.follows held'.distinct
    rw [bind_ok known, bind_ok (query_ok (looked _))]
    simp only [same]
    rfl

/-- What planning does to a part of the arena that holds a tree. -/
structure Planned (t : Tree) (a b : Arena) : Prop where
  holds : b.Holds t.strip
  confined : Arena.Confined t.ids a b
  root : b.parent? t.id = a.parent? t.id

inductive InTurn (step : Tree → Arena → Arena → Prop) : List Tree → Arena → Arena → Prop
  | nil {a : Arena} : InTurn step [] a a
  | cons {t : Tree} {ts : List Tree} {a b c : Arena} (first : step t a b)
      (rest : InTurn step ts b c) : InTurn step (t :: ts) a c

theorem siblings_ok {step : Tree → Arena → Arena → Prop} (ts : List Tree)
    (each : ∀ t ∈ ts, ∀ a : Arena, a.Holds t → ∃ b, step t a b ∧ Planned t a b)
    (held : ∀ t ∈ ts, a.Holds t) (apart : (ts.flatMap Tree.ids).Nodup) :
    ∃ b, InTurn step ts a b ∧
      (∀ t ∈ ts, b.Holds t.strip ∧ b.parent? t.id = a.parent? t.id) ∧
      Arena.Confined (ts.flatMap Tree.ids) a b := by
  induction ts generalizing a with
  | nil => exact ⟨a, .nil, by simp, .refl⟩
  | cons t rest ih =>
    rw [List.flatMap_cons, List.nodup_append] at apart
    obtain ⟨b, first, planned⟩ := each t (by simp) a (held t (by simp))
    have outside (r : Tree) (later : r ∈ rest) (x : NodeId) (inside : x ∈ r.ids) : x ∉ t.ids :=
      fun own => apart.2.2 x own x (List.mem_flatMap.mpr ⟨r, later, inside⟩) rfl
    have heldRest (r : Tree) (later : r ∈ rest) : b.Holds r :=
      (held r (by simp [later])).frame_confined planned.confined (outside r later)
    obtain ⟨c, others, result, confined⟩ :=
      ih (fun r later => each r (by simp [later])) heldRest apart.2.1
    have untouched (x : NodeId) (inside : x ∈ t.ids) : x ∉ rest.flatMap Tree.ids :=
      fun other => apart.2.2 x inside x other rfl
    have wider : Arena.Confined ((t :: rest).flatMap Tree.ids) a c := by
      rw [List.flatMap_cons]
      exact (planned.confined.mono (List.subset_append_left _ _)).trans
        (confined.mono (List.subset_append_right _ _))
    refine ⟨c, .cons first others, ?_, wider⟩
    intro r member
    rcases List.mem_cons.mp member with rfl | later
    · refine ⟨planned.holds.frame_confined confined fun x inside => ?_, ?_⟩
      · exact untouched x ((Tree.ids_strip r).subset inside)
      · have known := (held r (by simp)).index_lt (Tree.id_mem_ids r)
        rw [confined.parents _ (untouched _ (Tree.id_mem_ids r))
          (Nat.lt_of_lt_of_le known planned.confined.grows), planned.root]
    · refine ⟨(result r later).1, ?_⟩
      have known := (held r member).index_lt (Tree.id_mem_ids r)
      rw [(result r later).2, planned.confined.parents _
        (outside r later _ (Tree.id_mem_ids r)) known]

theorem planAll_ok {b : Arena} {levels : Nat} {ts : List Tree}
    (steps : InTurn (fun t a b => planWithin o levels t.id a = .ok (t.plan o) b) ts a b) :
    (ts.map Tree.id).mapM (planWithin o levels) a = .ok (ts.map (Tree.plan o)) b := by
  induction steps with
  | nil => rfl
  | cons first rest ih =>
    rw [List.map_cons, List.mapM_cons, bind_ok first, bind_ok ih]
    rfl

theorem Planned.of_children {l : Label} {k : Kind Tree} {b c : Arena} (held : a.Holds (.node l k))
    (left : b.Holds (.node l (Term.withoutDeclarations k)))
    (confined : Arena.Confined (Tree.ids (.node l k)) a b)
    (root : b.parent? l.id = a.parent? l.id)
    (result : ∀ t : Tree, t ∈ (Term.withoutDeclarations k).children →
      c.Holds t.strip ∧ c.parent? t.id = b.parent? t.id)
    (confined' : Arena.Confined ((Term.withoutDeclarations k).children.flatMap Tree.ids) b c) :
    Planned (.node l k) a c := by
  obtain ⟨shown, row, children, distinct⟩ := Arena.holds_node.mp left
  rw [Tree.ids_node, List.nodup_cons] at distinct
  have own : l.id ∉ (Term.withoutDeclarations k).children.flatMap Tree.ids := distinct.1
  have known : l.id.index < b.size := Arena.index_lt_of_get? b l.id row
  refine ⟨?_, ?_, ?_⟩
  · rw [Term.strip_withoutDeclarations]
    refine Arena.holds_node.mpr ⟨shown, ?_, ?_, ?_⟩
    · rw [confined'.rows _ own known, row, Kind.map_map]
      simp only [Tree.id_strip]
    · rw [Kind.children_map]
      intro s member
      obtain ⟨c, child, rfl⟩ := List.mem_map.mp member
      refine ⟨?_, (result c child).1⟩
      rw [Tree.id_strip, (result c child).2, (children c child).1]
    · rw [← Term.strip_withoutDeclarations]
      exact held.distinct.sublist (Tree.ids_strip _)
  · rw [Tree.ids_node] at confined ⊢
    apply confined.trans (confined'.mono _)
    exact List.Subset.trans ((Tree.withoutDeclarations_sublist k).flatMap Tree.ids).subset
      (List.subset_cons_self _ _)
  · exact (confined'.parents _ own known).trans root

theorem planWithin_succ (levels : Nat) (id : NodeId) :
    planWithin o (levels + 1) id =
      (query (·.kind id) >>= fun kind => (if kind.isBlock then replan o id else pure []) >>=
        fun here => query (·.kind id) >>= fun kind =>
          kind.children.mapM (planWithin o levels) >>= fun below =>
            pure (here ++ below.flatten)) := by
  rw [planWithin]
  congr 1
  funext kind
  split <;> rfl

theorem here_ok {l : Label} {k : Kind Tree} (held : a.Holds (.node l k))
    (strippable : ∀ s ∈ k.statements, Tree.Strippable s) :
    let left : Tree := .node l (Term.withoutDeclarations k)
    ∃ b, (if (k.map Tree.id).isBlock then replan o l.id else pure []) a =
        .ok ((Tree.locals k.statements).flatMap fun v => v.spread o left) b ∧
      b.Holds left ∧ Arena.Confined (Tree.ids (.node l k)) a b ∧
      b.parent? l.id = a.parent? l.id := by
  intro left
  by_cases block : k.isBlock = true
  · cases k with
    | block ss =>
      obtain ⟨b, done, held', confined, root⟩ := replan_ok o held strippable
      rw [← Tree.ids_block] at confined
      exact ⟨b, done, held', confined, root⟩
    | _ => cases block
  · have other : k.isBlock = false := by simpa using block
    refine ⟨a, ?_, ?_, .refl, rfl⟩
    · simp [block, Kind.statements_other other, Tree.locals, pure, EStateM.pure]
    · rwa [← Term.withoutDeclarations_other other] at held

theorem planWithin_ok (t : Tree) {levels : Nat} (held : a.Holds t) (sound : t.Sound)
    (enough : t.size ≤ levels) :
    ∃ b, planWithin o levels t.id a = .ok (t.plan o) b ∧ Planned t a b := by
  induction t using Term.inductChildren generalizing a levels with
  | step l k ih =>
    cases levels with
    | zero => simp [Term.size_node] at enough
    | succ levels =>
      obtain ⟨b, here, held', confined, root⟩ :=
        here_ok o held (sound _ (Term.self_mem_subterms _))
      obtain ⟨-, -, children, distinct⟩ := Arena.holds_node.mp held'
      rw [Tree.ids_node, List.nodup_cons] at distinct
      have each (c : Tree) (child : c ∈ (Term.withoutDeclarations k).children) (a : Arena)
          (heldChild : a.Holds c) :
          ∃ b, planWithin o levels c.id a = .ok (c.plan o) b ∧ Planned c a b := by
        have inside := (Tree.withoutDeclarations_sublist k).subset child
        have less : c.size < (Term.node l k).size := Term.size_lt_of_mem_children inside
        exact ih c inside heldChild (sound.child inside) (by omega)
      obtain ⟨c, steps, result, confined'⟩ :=
        siblings_ok _ each (fun c child => (children c child).2) distinct.2
      refine ⟨c, ?_, .of_children held held' confined root result confined'⟩
      have first : a.kind l.id = .ok (k.map Tree.id) := held.kind
      have second : b.kind l.id = .ok ((Term.withoutDeclarations k).map Tree.id) := held'.kind
      have top : Tree.id (.node l k) = l.id := rfl
      rw [top, planWithin_succ, bind_ok (query_ok first), bind_ok here,
        bind_ok (query_ok second), Kind.children_map, bind_ok (planAll_ok o steps),
        Tree.plan_eq o sound]
      rfl

theorem planAll_error {levels : Nat} {e : Error} (ts : List Tree)
    (each : ∀ t ∈ ts, ∀ a : Arena, a.Holds t →
      (t.Sound → ∃ b, planWithin o levels t.id a = .ok (t.plan o) b ∧ Planned t a b) ∧
      ∀ e, t.fault? = some e → ∃ b, planWithin o levels t.id a = .error e b)
    (held : ∀ t ∈ ts, a.Holds t) (apart : (ts.flatMap Tree.ids).Nodup)
    (fails : ts.findSome? Tree.fault? = some e) :
    ∃ b, (ts.map Tree.id).mapM (planWithin o levels) a = .error e b := by
  induction ts generalizing a with
  | nil => cases fails
  | cons t rest ih =>
    rw [List.map_cons, List.mapM_cons]
    rw [List.findSome?_cons] at fails
    cases fault : t.fault? with
    | none =>
      rw [fault] at fails
      obtain ⟨b, first, planned⟩ :=
        (each t List.mem_cons_self a (held t List.mem_cons_self)).1 (Tree.sound_iff.mpr fault)
      rw [List.flatMap_cons, List.nodup_append] at apart
      have heldRest (r : Tree) (later : r ∈ rest) : b.Holds r := by
        apply (held r (List.mem_cons_of_mem t later)).frame_confined planned.confined
        exact fun x inside own =>
          apart.2.2 x own x (List.mem_flatMap.mpr ⟨r, later, inside⟩) rfl
      obtain ⟨c, failed⟩ :=
        ih (fun r later => each r (List.mem_cons_of_mem t later)) heldRest apart.2.1 fails
      exact ⟨c, by rw [bind_ok first, bind_error failed]⟩
    | some e' =>
      rw [fault] at fails
      obtain rfl : e' = e := Option.some.inj fails
      obtain ⟨b, failed⟩ := (each t List.mem_cons_self a (held t List.mem_cons_self)).2 e' fault
      exact ⟨b, bind_error failed _⟩

theorem planWithin_error (t : Tree) {levels : Nat} {e : Error} (held : a.Holds t)
    (fails : t.fault? = some e) (enough : t.size ≤ levels) :
    ∃ b, planWithin o levels t.id a = .error e b := by
  induction t using Term.inductChildren generalizing a levels e with
  | step l k ih =>
    cases levels with
    | zero => simp [Term.size_node] at enough
    | succ levels =>
      have first : a.kind l.id = .ok (k.map Tree.id) := held.kind
      have top : Tree.id (.node l k) = l.id := rfl
      rw [top, planWithin_succ, bind_ok (query_ok first)]
      rw [Tree.fault?_node] at fails
      cases refused : Tree.refusal? (.node l k) with
      | none =>
        rw [refused, Option.none_or, ← Tree.fault?_children refused] at fails
        obtain ⟨b, here, held', -, -⟩ := here_ok o held (Tree.refusal?_eq_none.mp refused)
        obtain ⟨-, -, children, distinct⟩ := Arena.holds_node.mp held'
        rw [Tree.ids_node, List.nodup_cons] at distinct
        have kept := Tree.withoutDeclarations_sublist k
        have each (c : Tree) (child : c ∈ (Term.withoutDeclarations k).children) (a : Arena)
            (heldChild : a.Holds c) :
            (c.Sound → ∃ b, planWithin o levels c.id a = .ok (c.plan o) b ∧ Planned c a b) ∧
            ∀ e, c.fault? = some e → ∃ b, planWithin o levels c.id a = .error e b := by
          have inside := kept.subset child
          have less : c.size < (Term.node l k).size := Term.size_lt_of_mem_children inside
          exact ⟨fun sound => planWithin_ok o c heldChild sound (by omega),
            fun e fails => ih c inside heldChild fails (by omega)⟩
        obtain ⟨c, failed⟩ :=
          planAll_error o _ each (fun c child => (children c child).2) distinct.2 fails
        have second : b.kind l.id = .ok ((Term.withoutDeclarations k).map Tree.id) := held'.kind
        exact ⟨c, by rw [bind_ok here, bind_ok (query_ok second), Kind.children_map,
          bind_error failed]⟩
      | some e' =>
        rw [refused, Option.some_or, Option.some.injEq] at fails
        subst fails
        cases k with
        | block ss =>
          have failed := strip_error held (Tree.refusal?_eq_some.mp refused)
          have block : ((Kind.block ss).map Tree.id).isBlock = true := rfl
          refine ⟨a, ?_⟩
          rw [block, if_pos rfl, replan]
          exact bind_error (bind_error failed _) _
        | _ => cases refused

theorem plan_ok {t : Tree} (held : a.Holds t) (sound : t.Sound) :
    ∃ b, plan o t.id a = .ok (t.plan o) b ∧ Planned t a b := by
  have levels : t.size ≤ (a.size + 1) * (a.linkCount + 1) := by
    have bound := held.size_le
    nlinarith
  obtain ⟨b, done, planned⟩ := planWithin_ok o t held sound levels
  have known : (get : Editing Arena) a = .ok a a := rfl
  exact ⟨b, by rw [plan, bind_ok known, done], planned⟩

theorem plan_error {t : Tree} {e : Error} (held : a.Holds t) (fails : t.fault? = some e) :
    ∃ b, plan o t.id a = .error e b := by
  have levels : t.size ≤ (a.size + 1) * (a.linkCount + 1) := by
    have bound := held.size_le
    nlinarith
  obtain ⟨b, failed⟩ := planWithin_error o t held fails levels
  have known : (get : Editing Arena) a = .ok a a := rfl
  exact ⟨b, by rw [plan, bind_ok known, failed]⟩

end Editing

end LocalScope
