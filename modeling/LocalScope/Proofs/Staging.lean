import LocalScope.Proofs.Checking
import LocalScope.Proofs.Marking
import LocalScope.Proofs.Snippets

namespace LocalScope

namespace Editing

variable {α β : Type}

def collect (find : α → Editing (List β)) : List α → Editing (List β)
  | [] => return []
  | x :: rest => do
    let found ← find x
    return found ++ (← collect find rest)

/-- Takes the declarations out of a block and tells with each variable where it was. -/
def stripHere (block : NodeId) : Editing (List (NodeId × LocalVariable)) := do
  return (← strip block).map (Prod.mk block)

/-- Takes the declarations out of all blocks below a node, outer blocks first. -/
def stripAll (root : NodeId) : Editing (List (NodeId × LocalVariable)) := do
  let tree ← query (·.whole root)
  collect stripHere (tree.blocks.map Tree.id)

/-- Where a variable of a block goes in the block as it is now. -/
def placeHere (o : Options) (declared : NodeId × LocalVariable) : Editing (List Edit) := do
  let next? := (← get).next?
  let tree ← query (·.look (declared.2.placeGap? next? o · .receiver) declared.1)
  return declared.2.place next? o tree .receiver

end Editing

namespace Tree

def declared (t : Tree) : List (NodeId × LocalVariable) :=
  t.subterms.flatMap fun n => (locals (statements n)).map (Prod.mk (id n))

theorem declared_node (l : Label) (k : Kind Tree) :
    declared (.node l k) =
      (locals k.statements).map (Prod.mk l.id) ++ k.children.flatMap declared := by
  rw [declared, Term.subterms_node, List.flatMap_cons, List.flatMap_assoc]
  rfl

theorem blocks_local {d : Tree} {v : LocalVariable} (known : d.local? = some v) : d.blocks = [] := by
  obtain ⟨l, l', isFinal, rfl, -⟩ := eq_of_local known
  simp [Term.blocks_node, Kind.isBlock, Kind.children, Kind.slots, Slot.children]

theorem declared_local {d : Tree} {v : LocalVariable} (known : d.local? = some v) :
    declared d = [] := by
  obtain ⟨l, l', isFinal, rfl, -⟩ := eq_of_local known
  simp [declared_node, Kind.statements, locals, Kind.children, Kind.slots, Slot.children]

end Tree

namespace Editing

variable {a b c : Arena}

variable {find : α → Editing (List β)}

theorem collect_append {xs ys : List α} {us vs : List β}
    (first : collect find xs a = .ok us b) (second : collect find ys b = .ok vs c) :
    collect find (xs ++ ys) a = .ok (us ++ vs) c := by
  induction xs generalizing a us with
  | nil =>
    cases first
    exact second
  | cons x rest ih =>
    cases found : find x a with
    | error e a' =>
      rw [collect, bind_error found] at first
      cases first
    | ok us' a' =>
      rw [collect, bind_ok found] at first
      cases others : collect find rest a' with
      | error e b' =>
        rw [bind_error others] at first
        cases first
      | ok us'' b' =>
        rw [bind_ok others] at first
        cases first
        rw [List.cons_append, collect, bind_ok found, bind_ok (ih others), ← List.append_assoc]
        rfl

theorem collect_ok {xs : List α} {answer : α → List β}
    (each : ∀ x ∈ xs, find x a = .ok (answer x) a) :
    collect find xs a = .ok (xs.flatMap answer) a := by
  induction xs with
  | nil => rfl
  | cons x rest ih =>
    rw [collect, bind_ok (each x List.mem_cons_self),
      bind_ok (ih fun y later => each y (List.mem_cons_of_mem x later))]
    rfl

theorem stripAll_siblings {ts : List Tree}
    (steps : InTurn (fun t a b => collect stripHere (t.blocks.map Tree.id) a = .ok t.declared b) ts a b) :
    collect stripHere ((ts.flatMap Term.blocks).map Tree.id) a = .ok (ts.flatMap Tree.declared) b := by
  induction steps with
  | nil => rfl
  | cons first rest ih =>
    rw [List.flatMap_cons, List.flatMap_cons, List.map_append]
    exact collect_append first ih

theorem stripHere_ok {l : Label} {k : Kind Tree} (held : a.Holds (.node l k))
    (strippable : ∀ s ∈ k.statements, Tree.Strippable s) :
    ∃ b, collect stripHere (if k.isBlock then [l.id] else []) a =
        .ok ((Tree.locals k.statements).map (Prod.mk l.id)) b ∧
      b.Holds (.node l (Term.withoutDeclarations k)) ∧
      Arena.Confined (Tree.ids (.node l k)) a b ∧ b.parent? l.id = a.parent? l.id := by
  by_cases block : k.isBlock = true
  · cases k with
    | block ss =>
      obtain ⟨b, stripped, held', confined, root⟩ := strip_ok held strippable
      rw [← Tree.ids_block] at confined
      refine ⟨b, ?_, held', confined, root⟩
      have here : stripHere l.id a = .ok ((Tree.locals ss).map (Prod.mk l.id)) b := by
        rw [stripHere, bind_ok stripped]
        rfl
      rw [if_pos block, collect, bind_ok here]
      simp [collect, pure, EStateM.pure, bind, EStateM.bind, Kind.statements]
    | _ => cases block
  · have other : k.isBlock = false := by simpa using block
    refine ⟨a, ?_, by rwa [Term.withoutDeclarations_other other], .refl, rfl⟩
    rw [if_neg block, Kind.statements_other other]
    rfl

theorem stripBlocks_ok (t : Tree) (held : a.Holds t) (sound : t.Sound) :
    ∃ b, collect stripHere (t.blocks.map Tree.id) a = .ok t.declared b ∧ Planned t a b := by
  induction t using Term.inductChildren generalizing a with
  | step l k ih =>
    obtain ⟨b, own, held', confined, root⟩ :=
      stripHere_ok held (sound _ (Term.self_mem_subterms _))
    obtain ⟨-, -, children, distinct⟩ := Arena.holds_node.mp held'
    rw [Tree.ids_node, List.nodup_cons] at distinct
    have each (c : Tree) (child : c ∈ (Term.withoutDeclarations k).children) (a : Arena)
        (heldChild : a.Holds c) :
        ∃ b, collect stripHere (c.blocks.map Tree.id) a = .ok c.declared b ∧ Planned c a b :=
      have inside := (Tree.withoutDeclarations_sublist k).subset child
      ih c inside heldChild (sound.child inside)
    obtain ⟨c, steps, result, confined'⟩ :=
      siblings_ok _ each (fun c child => (children c child).2) distinct.2
    refine ⟨c, ?_, .of_children held held' confined root result confined'⟩
    have below := stripAll_siblings steps
    rw [Tree.flatMap_left (fun _ _ => Tree.blocks_local) sound,
      Tree.flatMap_left (fun _ _ => Tree.declared_local) sound] at below
    have here : (if k.isBlock then [Term.node l k] else []).map Tree.id =
        if k.isBlock then [l.id] else [] := by split <;> rfl
    rw [Term.blocks_node, Tree.declared_node, List.map_append, here]
    exact collect_append own below

theorem stripAll_ok {t : Tree} (held : a.Holds t) (sound : t.Sound) :
    ∃ b, stripAll t.id a = .ok t.declared b ∧ Planned t a b := by
  obtain ⟨b, done, planned⟩ := stripBlocks_ok t held sound
  exact ⟨b, by rw [stripAll, bind_ok (query_ok held.whole_eq)]; exact done, planned⟩

variable (o : Options)

theorem placeHere_ok {block : Tree} (held : a.Holds block) (v : LocalVariable) :
    placeHere o (block.id, v) a = .ok (v.spread o block) a := by
  have known : (get : Editing Arena) a = .ok a a := rfl
  rw [placeHere, bind_ok known, bind_ok (query_ok (held.look_eq _)),
    v.place_eq_spread o _ held.follows held.distinct]
  rfl

theorem placeAll_ok {t : Tree} (held : a.Holds t.strip) (sound : t.Sound) :
    collect (placeHere o) t.declared a = .ok (t.plan o) a := by
  have left {n : Tree} {v : LocalVariable} (member : n ∈ t.subterms)
      (known : v ∈ Tree.locals n.statements) : a.Holds n.strip := by
    obtain ⟨d, listed, -⟩ := List.mem_filterMap.mp known
    have shape : n.kind = .block n.statements := Term.kind_of_statement listed
    refine held.below (Tree.strip_mem_subterms sound member ?_)
    rw [Tree.isDeclarative, shape]
  have each : ∀ x ∈ t.declared, placeHere o x a = .ok (x.2.spread o (a.view x.1)) a := by
    intro x found
    obtain ⟨n, member, found⟩ := List.mem_flatMap.mp found
    obtain ⟨v, known, rfl⟩ := List.mem_map.mp found
    have held' := left member known
    have placed := placeHere_ok o held' v
    rw [Tree.id_strip] at placed
    rw [placed, ← Tree.id_strip, held'.view_eq]
  rw [collect_ok each, Tree.declared, Tree.plan_eq_flatMap, List.flatMap_assoc]
  congr 1
  refine List.flatMap_congr fun n member => ?_
  rw [List.flatMap_map]
  refine List.flatMap_congr fun v known => ?_
  rw [← Tree.id_strip, (left member known).view_eq]

end Editing

/-- To take out the declarations of a block just before its variables are placed changes nothing: the
plan of a body is what comes out when all blocks are stripped first, and then the variables of each
block are placed in the stripped code, outer blocks first and in the order of the declarations. -/
theorem Editing.plan_in_stages {body : Body} {root : NodeId} {before : Arena} {count : Nat}
    (lowered : Arena.ofBody body = (root, before))
    (accepted : before.countDeclarations root = .ok count) (o : Options) :
    ∃ edits planned declared stripped,
      plan o root before = .ok edits planned ∧
      stripAll root before = .ok declared stripped ∧
      stripped.view root = (before.view root).strip ∧
      collect (placeHere o) declared stripped = .ok edits stripped := by
  obtain ⟨held, name, -, -⟩ := Arena.ofBody_holds body
  rw [lowered] at held name
  generalize Arena.treeOfBody body = t at held name
  subst name
  have sound := held.sound_of_count accepted
  obtain ⟨planned, made, -⟩ := plan_ok o held sound
  obtain ⟨stripped, taken, left⟩ := stripAll_ok held sound
  refine ⟨_, planned, _, stripped, made, taken, ?_, placeAll_ok o left.holds sound⟩
  rw [held.view_eq, ← Tree.id_strip, left.holds.view_eq]

/-- `{ int v; if (c) { int w; v = 1; use(v); w = 1; } }`: the outer variable is placed in the inner
block, which still has a declaration then. -/
def Body.nested : Body :=
  .braces [.declareInt "v",
    .when "c" [.declareInt "w", .setOne "v", .use "v", .setOne "w"]]

theorem Editing.plan_in_stages_nested :
    let root := (Arena.ofBody Body.nested).1
    let before := (Arena.ofBody Body.nested).2
    before.countDeclarations root = .ok 2 ∧
    ∃ edits planned declared stripped,
      plan {} root before = .ok edits planned ∧
      stripAll root before = .ok declared stripped ∧
      stripped.view root = (before.view root).strip ∧
      collect (placeHere {}) declared stripped = .ok edits stripped := by
  intro root before
  have accepted : before.countDeclarations root = .ok 2 := by decide +kernel
  exact ⟨accepted, plan_in_stages rfl accepted {}⟩

end LocalScope
