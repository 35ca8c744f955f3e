import LocalScope.Proofs.Shuffling
import LocalScope.Proofs.Snippets

namespace LocalScope

/-- Code, and the same code with the declarations of a block in another order and at other places among
the statements of the block, anywhere inside. They have distinct names. -/
inductive Rearranged : Body → Body → Prop
  | refl (b : Body) : Rearranged b b
  | block {note : Annotation} {ss ss' : List Body}
      (others : (ss.filter fun s => !s.isDeclaration) = ss'.filter fun s => !s.isDeclaration)
      (declarations : (ss.filter Term.isDeclaration).Perm (ss'.filter Term.isDeclaration))
      (distinct : ((ss.filterMap Body.local?).map LocalVariable.name).Nodup) :
      Rearranged (.node note (.block ss)) (.node note (.block ss'))
  | within {note : Annotation} (k : Kind (Body × Body))
      (parts : ∀ part ∈ k.children, Rearranged part.1 part.2) :
      Rearranged (.node note (k.map Prod.fst)) (.node note (k.map Prod.snd))

namespace Body

def homes (b : Body) : List (List LocalVariable) :=
  b.blocks.map fun n => n.kind.statements.filterMap local?

def Sound (b : Body) : Prop :=
  ∀ n ∈ b.subterms, ∀ s ∈ n.kind.statements, s.isDeclaration = true → (local? s).isSome = true

theorem Sound.child {note : Annotation} {k : Kind Body} {c : Body} (sound : Sound (.node note k))
    (child : c ∈ k.children) : Sound c :=
  fun n inside => sound n (Term.mem_subterms_of_child (t := .node note k) child inside)

theorem homes_node (note : Annotation) (k : Kind Body) :
    homes (.node note k) =
      (if k.isBlock then [k.statements.filterMap local?] else []) ++ k.children.flatMap homes := by
  rw [homes, Term.blocks_node, List.map_append, List.map_flatMap]
  split <;> rfl

theorem local?_of_other {s : Body} (other : s.isDeclaration = false) : local? s = none := by
  obtain ⟨note, k⟩ := s
  cases k <;> first | rfl | cases other

theorem homes_local {s : Body} {v : LocalVariable} (known : local? s = some v) : homes s = [] := by
  obtain ⟨note, note', isFinal, rfl, -⟩ := Term.eq_of_local known
  simp [homes_node, Kind.isBlock, Kind.children, Kind.slots, Slot.children]

theorem homes_block {note : Annotation} {ss : List Body} (sound : Sound (.node note (.block ss))) :
    homes (.node note (.block ss)) =
      (ss.filter Term.isDeclaration).filterMap local? ::
        (ss.filter fun s => !s.isDeclaration).flatMap homes := by
  have strippable : ∀ s ∈ ss, s.isDeclaration = true → (local? s).isSome = true :=
    sound _ (Term.self_mem_subterms _)
  have own : (ss.filter Term.isDeclaration).filterMap local? = ss.filterMap local? := by
    rw [List.filterMap_filter]
    refine List.filterMap_congr fun s _ => ?_
    cases declares : s.isDeclaration with
    | true => rfl
    | false => exact (local?_of_other declares).symm
  rw [homes_node, Kind.children_block, own, flatMap_filter]
  · rfl
  · intro s listed declares
    obtain ⟨v, known⟩ := Option.isSome_iff_exists.mp (strippable s listed (by simpa using declares))
    exact homes_local known

end Body

namespace Rearranged

variable {b b' : Body}

theorem strip_eq (same : Rearranged b b') : b.strip = b'.strip := by
  induction same with
  | refl b => rfl
  | block others declarations distinct => rw [Term.strip_block, Term.strip_block, others]
  | within k parts ih =>
    rw [Term.strip_node, Term.strip_node, Kind.map_map, Kind.map_map, Kind.map_congr k ih]

theorem local?_eq (same : Rearranged b b') : Body.local? b = Body.local? b' := by
  cases same with
  | refl => rfl
  | block => rfl
  | within k parts =>
    cases k with
    | declaration ty bindings isFinal =>
      match bindings with
      | [] | _ :: _ :: _ => rfl
      | [(x, y)] =>
        have inner : Rearranged x y := parts (x, y) (by simp [Kind.children, Kind.slots, Slot.children])
        cases inner with
        | refl => rfl
        | block => rfl
        | within k' => cases k' with
          | binding name init => cases init <;> rfl
          | _ => rfl
    | _ => rfl

theorem homes_shuffled (same : Rearranged b b') (sound : Body.Sound b) (sound' : Body.Sound b') :
    List.Forall₂ (Shuffled LocalVariable.name) (Body.homes b) (Body.homes b') := by
  induction same with
  | refl b => exact List.forall₂_same.mpr fun vs _ => .refl vs
  | @block note ss ss' others declarations distinct =>
    rw [Body.homes_block sound, Body.homes_block sound', others]
    refine .cons (.of_nodup (declarations.filterMap _) ?_) (List.forall₂_same.mpr fun vs _ => .refl vs)
    exact distinct.sublist ((List.filter_sublist.filterMap _).map _)
  | @within note k parts ih =>
    have inside (part : Body × Body) (listed : part ∈ k.statements) : part ∈ k.children := by
      cases k with
      | block ss => rwa [Kind.children_block]
      | _ => cases listed
    have own : k.statements.filterMap (fun part => Body.local? part.1) =
        k.statements.filterMap fun part => Body.local? part.2 :=
      List.filterMap_congr fun part listed => (parts part (inside part listed)).local?_eq
    have children (part : Body × Body) (child : part ∈ k.children) :
        part.1 ∈ (k.map Prod.fst).children ∧ part.2 ∈ (k.map Prod.snd).children := by
      rw [Kind.children_map, Kind.children_map]
      exact ⟨List.mem_map_of_mem child, List.mem_map_of_mem child⟩
    have below : List.Forall₂ (Shuffled LocalVariable.name)
        (k.children.flatMap fun part => Body.homes part.1)
        (k.children.flatMap fun part => Body.homes part.2) := by
      refine List.rel_flatMap (R := fun x y => x = y ∧ x ∈ k.children)
        (List.forall₂_same.mpr fun part child => ⟨rfl, child⟩) ?_
      rintro part _ ⟨rfl, child⟩
      exact ih part child (sound.child (children part child).1) (sound'.child (children part child).2)
    rw [Body.homes_node, Body.homes_node, Kind.isBlock_map, Kind.isBlock_map, Kind.statements_map,
      Kind.statements_map, Kind.children_map, Kind.children_map, List.filterMap_map, List.filterMap_map,
      List.flatMap_map, List.flatMap_map]
    simp only [Function.comp_def, own]
    exact List.rel_append (List.forall₂_same.mpr fun vs _ => .refl vs) below

end Rearranged

namespace Tree

variable {t : Tree} (o : Options) (f : NodeId → NodeId)

theorem sound_body (sound : t.Sound) : Body.Sound t.body := by
  intro n inside s listed declares
  rw [subterms_body] at inside
  obtain ⟨m, member, rfl⟩ := List.mem_map.mp inside
  rw [statements_body] at listed
  obtain ⟨r, listed', rfl⟩ := List.mem_map.mp listed
  rw [isDeclaration_body] at declares
  rw [local?_body]
  exact sound m member r listed' declares

theorem homes_body (t : Tree) :
    Body.homes t.body = (Term.blocks t).map fun n => locals (statements n) := by
  rw [Body.homes, Term.blocks, subterms_body, List.filter_map, List.map_map, Term.blocks]
  have blocks : (Term.isBlock ∘ body) = Term.isBlock := funext (Term.isBlock_relabel Label.note)
  rw [blocks]
  refine List.map_congr_left fun n _ => ?_
  rw [Function.comp_apply, statements_body, List.filterMap_map, locals]
  exact List.filterMap_congr fun s _ => local?_body s

theorem blocks_strip (sound : t.Sound) :
    (Term.strip t).blocks = (Term.blocks t).map Term.strip := by
  induction t using Term.inductChildren with
  | step l k ih =>
    have nothing (d : Tree) (v : LocalVariable) (known : d.local? = some v) :
        (Term.blocks d).map Term.strip = [] := by
      obtain ⟨l, l', isFinal, rfl, -⟩ := eq_of_local known
      simp [Term.blocks_node, Kind.isBlock, Kind.children, Kind.slots, Slot.children]
    have same : (Term.withoutDeclarations k).isBlock = k.isBlock := by cases k <;> rfl
    have below (c : Tree) (child : c ∈ (Term.withoutDeclarations k).children) :
        (Term.strip c).blocks = (Term.blocks c).map Term.strip :=
      ih c ((withoutDeclarations_sublist k).subset child)
        (sound.child ((withoutDeclarations_sublist k).subset child))
    rw [Term.blocks_node, List.map_append, List.map_flatMap, ← flatMap_left nothing sound,
      ← List.flatMap_congr below, Term.strip_withoutDeclarations, Term.blocks_node, Kind.isBlock_map,
      same, Kind.children_map, List.flatMap_map]
    cases k.isBlock with
    | true => simp [Term.strip_withoutDeclarations]
    | false => rfl

theorem blocks_renumber (t : Tree) :
    (t.renumber f).blocks = (Term.blocks t).map (renumber f) := by
  have blocks : (Term.isBlock ∘ Term.relabel (Label.renumber f)) = Term.isBlock :=
    funext (Term.isBlock_relabel (Label.renumber f))
  rw [Term.blocks, renumber, Term.subterms_relabel, List.filter_map, blocks]
  rfl

def planOver (blocks : List Tree) (homes : List (List LocalVariable)) : List Edit :=
  (blocks.zip homes).flatMap fun home => home.2.flatMap fun v => v.spread o home.1

theorem plan_eq_planOver (sound : t.Sound) :
    t.plan o = planOver o (Term.strip t).blocks (Body.homes t.body) := by
  rw [planOver, blocks_strip sound, homes_body, List.zip_map', List.flatMap_map, plan_eq_flatMap,
    Term.blocks, flatMap_filter]
  intro n _ other
  have none : statements n = [] := Kind.statements_other other
  rw [none]
  rfl

theorem planOver_renumber (blocks : List Tree) (homes : List (List LocalVariable)) :
    planOver o (blocks.map (renumber f)) homes = (planOver o blocks homes).map (Edit.renumber f) := by
  rw [planOver, planOver, List.zip_map_left, List.flatMap_map, List.map_flatMap]
  refine List.flatMap_congr fun home _ => ?_
  rw [List.map_flatMap]
  exact List.flatMap_congr fun v _ => v.spread_renumber o f home.1

theorem planOver_shuffled {blocks : List Tree} {homes homes' : List (List LocalVariable)}
    (same : List.Forall₂ (Shuffled LocalVariable.name) homes homes') :
    Shuffled Edit.name (planOver o blocks homes) (planOver o blocks homes') := by
  induction same generalizing blocks with
  | nil => exact .refl _
  | cons first rest ih =>
    cases blocks with
    | nil => exact .refl _
    | cons b blocks =>
      exact (first.flatMap fun v _ e planned => (LocalVariable.spread_fits planned).2.2).append ih

end Tree

theorem Arena.view_lowered {body : Body} {root : NodeId} {before : Arena}
    (lowered : Arena.ofBody body = (root, before)) :
    (before.view root).id = root ∧ (before.view root).body = body := by
  obtain ⟨-, name, raised, -⟩ := Arena.ofBody_holds body
  have viewed : before.view root = Arena.treeOfBody body := by rw [Arena.treeOfBody, lowered]
  rw [lowered] at name
  rw [viewed]
  exact ⟨name, raised⟩

/- The numbers of the nodes differ, since each body is numbered on its own. -/
theorem Rearranged.matched (o : Options) {a a' : Arena} {t t' : Tree} (same : Rearranged t.body t'.body)
    (held : a.Holds t) (held' : a'.Holds t') (sound : t.Sound) (sound' : t'.Sound) :
    ∃ f, Editing.Matched o f t t' := by
  have shown {a : Arena} {t : Tree} (held : a.Holds t) :
      ∀ n ∈ (Term.strip t).subterms, n.label.reach = .shown := by
    intro n inside
    obtain ⟨m, member, rfl⟩ := Tree.mem_subterms_strip inside
    rw [Term.label_strip]
    exact held.shown m member
  have stripped : Tree.body (Term.strip t) = Tree.body (Term.strip t') := by
    rw [Tree.strip_body, Tree.strip_body, same.strip_eq]
  obtain ⟨f, left⟩ := Tree.exists_renumber (held.distinct.sublist (Tree.ids_strip t)) stripped
    (shown held) (shown held')
  refine ⟨f, sound, sound', held.distinct, held'.distinct, left, ?_⟩
  rw [Tree.plan_eq_planOver o sound, Tree.plan_eq_planOver o sound', left, Tree.blocks_renumber,
    ← Tree.planOver_renumber]
  exact Tree.planOver_shuffled o
    (same.homes_shuffled (Tree.sound_body sound) (Tree.sound_body sound'))

/-- Where the declarations of a block stand among its statements does not matter, nor in which order:
runs over both bodies succeed and report the same, and the outputs differ at most in the order of
declarations without a value that stand one right after the other. -/
theorem Pass.run_rearranged (p : Pass) {body body' : Body} {root root' : NodeId}
    {before before' : Arena} {count count' : Nat} (lowered : Arena.ofBody body = (root, before))
    (lowered' : Arena.ofBody body' = (root', before'))
    (accepted : before.countDeclarations root = .ok count)
    (accepted' : before'.countDeclarations root' = .ok count') (rearranged : Rearranged body body') :
    ∃ stats after after' out out',
      p.run root before = ({ p with lastStats := stats }, .ok () after) ∧
      p.run root' before' = ({ p with lastStats := stats }, .ok () after') ∧
      after.body root = .ok out ∧ after'.body root' = .ok out' ∧ Reordered out out' := by
  obtain ⟨held, sound, ps, stats, after, ran, placed, -⟩ := p.placed_of_count lowered accepted
  obtain ⟨held', sound', ps', stats', after', ran', placed', -⟩ := p.placed_of_count lowered' accepted'
  obtain ⟨name, viewed⟩ := Arena.view_lowered lowered
  obtain ⟨name', viewed'⟩ := Arena.view_lowered lowered'
  rw [← viewed, ← viewed'] at rearranged
  obtain ⟨f, matched⟩ := rearranged.matched p.options held held' sound sound'
  have raised := placed.raised
  have raised' := placed'.raised
  rw [name] at raised
  rw [name'] at raised'
  refine ⟨stats, after, after', _, _, ran, ?_, raised, raised', ?_⟩
  · rw [← matched.stats_eq placed placed', ran']
  · rw [matched.left]
    exact matched.reordered placed placed' (Term.self_mem_subterms _)

/-- `if (c) { int u; int v; int w; u = 1; if (v) { use(w); } use(w); }` -/
def Body.gathered : Body :=
  .braces [.when "c" [.declareInt "u", .declareInt "v", .declareInt "w", .setOne "u",
    .when "v" [.use "w"], .use "w"]]

/-- `if (c) { u = 1; int w; if (v) { use(w); } int v; use(w); int u; }` -/
def Body.scattered : Body :=
  .braces [.when "c" [.setOne "u", .declareInt "w", .when "v" [.use "w"], .declareInt "v", .use "w",
    .declareInt "u"]]

theorem Rearranged.gathered_scattered : Rearranged .gathered .scattered := by
  refine .within (.block [(_, _)]) fun part listed => ?_
  obtain rfl := List.mem_singleton.mp listed
  refine .within (.ifElse (_, _) (_, _) none) fun part listed => ?_
  rcases List.mem_pair.mp listed with rfl | rfl
  · exact .refl _
  · exact .block rfl (List.reverse_perm _).symm (by decide)

/- Of the first body `int v;` comes out before `int w;`, and of the second one after it. -/
theorem Pass.run_rearranged_gathered :
    let root := (Arena.ofBody .gathered).1
    let before := (Arena.ofBody .gathered).2
    let root' := (Arena.ofBody .scattered).1
    let before' := (Arena.ofBody .scattered).2
    before.countDeclarations root = .ok 3 ∧ before'.countDeclarations root' = .ok 3 ∧
    Rearranged .gathered .scattered ∧
    ∃ stats after after' out out',
      Pass.run {} root before = ({ lastStats := stats }, .ok () after) ∧
      Pass.run {} root' before' = ({ lastStats := stats }, .ok () after') ∧
      after.body root = .ok out ∧ after'.body root' = .ok out' ∧ Reordered out out' := by
  intro root before root' before'
  have accepted : before.countDeclarations root = .ok 3 := by decide +kernel
  have accepted' : before'.countDeclarations root' = .ok 3 := by decide +kernel
  exact ⟨accepted, accepted', .gathered_scattered, Pass.run_rearranged {} Prod.mk.eta.symm
    Prod.mk.eta.symm accepted accepted' .gathered_scattered⟩

end LocalScope
