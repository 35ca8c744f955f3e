import LocalScope.Placement.Place
import LocalScope.Proofs.Holding

/-! Where the declaration of one variable goes, told from the tree alone. The search asks an arena
for the statement after another; any answer that fits the tree gives the same edits. -/
namespace LocalScope

namespace Arena

theorem after?_append {x : NodeId} (before after : List NodeId) (first : x ∉ before) :
    after? x (before ++ x :: after) = after.head? := by
  induction before with
  | nil => simp [after?]
  | cons y rest ih =>
    rw [List.mem_cons, not_or] at first
    have differs : ¬ y = x := fun same => first.1 same.symm
    simp only [List.cons_append, after?, differs, if_false]
    exact ih first.2

end Arena

namespace Term

variable {ℓ : Type}

theorem kind_of_statement {k : Kind (Term ℓ)} {s : Term ℓ} (member : s ∈ k.statements) :
    k = .block k.statements := by
  cases k <;> first | rfl | cases member

theorem statement_mem_children {t s : Term ℓ} (member : s ∈ t.kind.statements) :
    s ∈ t.children := by
  rw [children, kind_of_statement member, Kind.children_block]
  exact member

theorem isIdentifier_iff {name : String} {t : Term ℓ} :
    t.isIdentifier name = true ↔ t.kind = .identifier name := by
  rw [isIdentifier]
  split
  · rename_i n shape
    simp [shape]
  · rename_i other
    simpa using other name

theorem assignment?_cases {t a : Term ℓ} (found : t.assignment? = some a) :
    (∃ op left right, a.kind = .assignment op left right) ∧
      (t = a ∨ t.kind = .expressionStatement a) := by
  cases t with
  | node l k =>
    cases k with
    | expressionStatement expr =>
      cases expr with
      | node l' k' =>
        cases k' with
        | assignment op left right =>
          simp only [assignment?, kind, Option.some.injEq] at found
          exact ⟨⟨op, left, right, by rw [← found]; rfl⟩, .inr (by rw [← found]; rfl)⟩
        | _ => simp [assignment?, kind] at found
    | assignment op left right =>
      simp only [assignment?, kind, Option.some.injEq] at found
      exact ⟨⟨op, left, right, by rw [← found]; rfl⟩, .inl found⟩
    | _ => simp [assignment?, kind] at found

theorem plainAssignment?_eq_some {name : String} {a x e : Term ℓ} :
    a.plainAssignment? name = some (x, e) ↔
      a.kind = .assignment .plain x e ∧ x.isIdentifier name = true := by
  cases a with
  | node l k =>
    cases k with
    | assignment op left right =>
      cases op <;> simp [plainAssignment?, kind]
      grind
    | _ => simp [plainAssignment?, kind]

theorem onlyInit?_eq_some {t s : Term ℓ} :
    t.onlyInit? = some s ↔ ∃ cond update body, t.kind = .forLoop [s] cond update body := by
  cases t with
  | node l k =>
    cases k with
    | forLoop init cond update body =>
      match init with
      | [] | [_] | _ :: _ :: _ => simp [onlyInit?, kind]
    | _ => simp [onlyInit?, kind]

theorem absorbable?_eq_some {name : String} {t a x : Term ℓ} :
    t.absorbable? name = some (a, x) ↔
      ∃ e, t.assignment? = some a ∧ a.kind = .assignment .plain x e ∧
        x.isIdentifier name = true ∧ e.uses name = false := by
  simp only [absorbable?, Option.bind_eq_bind, Option.bind_eq_some_iff, Prod.exists,
    plainAssignment?_eq_some, Option.ite_none_left_eq_some, Option.some.injEq, Prod.mk.injEq]
  grind

theorem absorbableHeader?_eq_some {name : String} {t a x : Term ℓ} :
    t.absorbableHeader? name = some (a, x) ↔
      ∃ s, t.onlyInit? = some s ∧ s.absorbable? name = some (a, x) := by
  simp only [absorbableHeader?, Option.bind_eq_bind, Option.bind_eq_some_iff]

theorem assignment?_mem_subterms {t a : Term ℓ} (found : t.assignment? = some a) :
    a ∈ t.subterms := by
  obtain ⟨-, rfl | around⟩ := assignment?_cases found
  · exact self_mem_subterms t
  · apply child_mem_subterms
    simp [children, around, Kind.children, Kind.slots, Slot.children]

theorem onlyInit?_mem_children {t s : Term ℓ} (found : t.onlyInit? = some s) :
    s ∈ t.children := by
  obtain ⟨cond, update, body, header⟩ := onlyInit?_eq_some.mp found
  simp [children, header, Kind.children, Kind.slots, Slot.children]

theorem headerValue?_eq_some {name : String} {t e : Term ℓ} :
    t.headerValue? name = some e ↔
      ∃ s a x, t.onlyInit? = some s ∧ s.assignment? = some a ∧ a.kind = .assignment .plain x e ∧
        x.isIdentifier name = true := by
  simp only [headerValue?, Option.bind_eq_bind, Option.bind_eq_some_iff, Prod.exists,
    plainAssignment?_eq_some, Option.pure_def, Option.some.injEq]
  grind

theorem headerValue?_mem_subterms {name : String} {t e : Term ℓ}
    (found : t.headerValue? name = some e) : e ∈ t.subterms := by
  obtain ⟨s, a, x, only, assigns, shape, -⟩ := headerValue?_eq_some.mp found
  have value : e ∈ a.children := by
    simp [children, shape, Kind.children, Kind.slots, Slot.children]
  exact mem_subterms_of_child (onlyInit?_mem_children only)
    (subterms_trans (child_mem_subterms value) (assignment?_mem_subterms assigns))

theorem receiver_cases {t r : Term ℓ} (received : r ∈ t.receivers) :
    r.isBlock = true ∧ (r ∈ t.children ∨ ∃ part ∈ t.children, part.isBlock = false ∧
      part.kind.holdsBlocks = true ∧ r ∈ part.children) := by
  simp only [receivers, List.mem_flatMap] at received
  obtain ⟨part, child, inside⟩ := received
  split at inside
  · rename_i block
    rw [List.mem_singleton] at inside
    subst inside
    exact ⟨block, .inl child⟩
  · rename_i other
    split at inside
    · rename_i holds
      rw [List.mem_filter] at inside
      exact ⟨inside.2, .inr ⟨part, child, by simpa using other, holds, inside.1⟩⟩
    · cases inside

theorem receiver_mem_subterms {t r : Term ℓ} (received : r ∈ t.receivers) : r ∈ t.subterms := by
  obtain ⟨-, child | ⟨part, child, -, -, inner⟩⟩ := receiver_cases received
  · exact child_mem_subterms child
  · exact mem_subterms_of_child child (child_mem_subterms inner)

theorem size_receiver_lt {t r : Term ℓ} (received : r ∈ t.receivers) : r.size < t.size := by
  obtain ⟨-, child | ⟨part, child, -, -, inner⟩⟩ := receiver_cases received
  · exact size_lt_of_mem_children child
  · exact (size_lt_of_mem_children inner).trans (size_lt_of_mem_children child)

end Term

namespace Tree

/-- A function that tells of every statement below a node which one comes after it. -/
def Follows (next? : NodeId → Option NodeId) (t : Tree) : Prop :=
  ∀ b ∈ t.subterms, ∀ before s after, Tree.statements b = before ++ s :: after →
    next? s.id = after.head?.map id

theorem Follows.below {next? : NodeId → Option NodeId} {s t : Tree} (follows : Follows next? t)
    (member : s ∈ t.subterms) : Follows next? s :=
  fun b inside => follows b (Term.subterms_trans inside member)

theorem statementsFrom_append {block s : Tree} {before after : List Tree}
    (listed : block.statements = before ++ s :: after) (once : (block.statements.map id).Nodup) :
    block.statementsFrom s.id = s :: after := by
  have first : ∀ r ∈ before, id r ≠ s.id := by
    rw [listed, List.map_append, List.map_cons, List.nodup_append] at once
    exact fun r member => once.2.2 _ (List.mem_map_of_mem member) _ (by simp)
  rw [statementsFrom, listed, List.dropWhile_append_of_pos]
  · simp
  · intro r member
    simpa using first r member

theorem nodup_ids_statements {t : Tree} (distinct : t.ids.Nodup) :
    (t.statements.flatMap ids).Nodup := by
  cases t with
  | node l k =>
    rw [ids_node] at distinct
    cases k with
    | block ss =>
      rw [Kind.children_block] at distinct
      exact distinct.of_cons
    | _ => exact List.nodup_nil

theorem nodup_statements {t : Tree} (distinct : t.ids.Nodup) : (t.statements.map id).Nodup :=
  (nodup_ids_statements distinct).sublist (map_id_sublist t.statements)

/-- Whether a variable can be handed on to the blocks of these statements, the last of a block:
each that uses it confines it, and what comes after would not read it unassigned. -/
def handsOn (name : String) (intoLoops : Bool) : List Tree → Bool
  | [] => true
  | s :: rest =>
    (!s.uses name ||
      s.confines name intoLoops && !(Flow.walkAll name .statement rest false).exposed) &&
    handsOn name intoLoops rest

end Tree

theorem Arena.Holds.follows {a : Arena} {t : Tree} (held : a.Holds t) :
    Tree.Follows a.next? t := by
  intro b member before s after listed
  have inList : s ∈ Tree.statements b := by simp [listed]
  have inKind := Term.kind_of_statement inList
  have child : s ∈ b.children := Term.statement_mem_children inList
  have once := Tree.nodup_statements (held.below member).distinct
  have row := held.rows b member
  rw [Tree.row, inKind] at row
  have ids : (Tree.statements b).map Tree.id =
      before.map Tree.id ++ s.id :: after.map Tree.id := by simp [listed]
  have found : s.id ∈ (Tree.statements b).map Tree.id := List.mem_map_of_mem inList
  have first : s.id ∉ before.map Tree.id := by
    rw [ids, List.nodup_append] at once
    exact fun inside => once.2.2 _ inside _ (by simp) rfl
  have row' : a.nodes.get? (Tree.id b) =
      some ⟨.block ((Tree.statements b).map Tree.id), b.label.note⟩ := row
  simp only [next?, held.links b member s child, Option.bind_eq_bind, Option.bind_some, row',
    Kind.slots, List.filterMap_cons, List.filterMap_nil, List.find?_cons,
    List.contains_iff_mem.mpr found]
  rw [ids, after?_append _ _ first, List.head?_map]

namespace Search

variable {next? : NodeId → Option NodeId} (name : String) (intoLoops : Bool)

theorem through_eq {block : Tree} (follows : Tree.Follows next? block)
    (once : (block.statements.map Tree.id).Nodup) (before rest : List Tree)
    (listed : block.statements = before ++ rest) (point : Option Tree) :
    let found := through next? (block.exposedFrom name) name intoLoops block.id point rest
    found.point = point.or (rest.find? (Term.uses name)) ∧
      found.canMove = Tree.handsOn name intoLoops rest := by
  induction rest generalizing before point with
  | nil => simp [through, Tree.handsOn]
  | cons s rest ih =>
    have next : next? s.id = rest.head?.map Tree.id :=
      follows block (Term.self_mem_subterms block) before s rest listed
    have onward := ih (before ++ [s]) (by simp [listed])
    by_cases used : s.uses name = true
    · by_cases confined : s.confines name intoLoops = true
      · cases rest with
        | nil =>
          simp only [List.head?_nil, Option.map_none] at next
          simp [through, Tree.handsOn, used, confined, next, Flow.walkAll, Flow.idle]
        | cons r rest =>
          simp only [List.head?_cons, Option.map_some] at next
          have regrouped : block.statements = (before ++ [s]) ++ r :: rest := by simp [listed]
          have onRest : block.statementsFrom r.id = r :: rest :=
            Tree.statementsFrom_append regrouped once
          obtain ⟨same, moves⟩ := onward (point.or (some s))
          rw [through]
          simp only [used, confined, next, if_true, Tree.exposedFrom, onRest]
          rw [Tree.handsOn]
          cases exposed : (Flow.walkAll name .statement (r :: rest) false).exposed with
          | true => simp [used]
          | false =>
            refine ⟨?_, by simpa [used, confined] using moves⟩
            have earliest : (point.or (some s)).or ((r :: rest).find? (Term.uses name)) =
                point.or ((s :: r :: rest).find? (Term.uses name)) := by
              cases point <;> simp [used]
            exact same.trans earliest
      · simp [through, Tree.handsOn, used, confined]
    · simpa [through, Tree.handsOn, used] using onward point

end Search

namespace LocalVariable

variable (o : Options) (v : LocalVariable)

theorem search_eq {next? : NodeId → Option NodeId} {block : Tree}
    (follows : Tree.Follows next? block) (distinct : block.ids.Nodup) :
    (v.search next? o block).point = block.statements.find? (Term.uses v.name) ∧
      (v.search next? o block).canMove = Tree.handsOn v.name o.intoLoops block.statements := by
  have found := Search.through_eq v.name o.intoLoops follows (Tree.nodup_statements distinct) []
    block.statements rfl none
  simpa [search, Search.inBlock] using found

/-- Whether a block hands the variable on to the blocks of its statements. -/
def moves (block : Tree) : Bool :=
  Tree.handsOn v.name o.intoLoops block.statements && v.mayMove o block

def declareAt (point : Tree) : Edit := (v.pointFold? o point).getD (v.insertBefore point)

/-- The edits that place a variable, from the block that it is declared in down. -/
def spread (block : Tree) : List Edit :=
  match block.statements.find? (Term.uses v.name) with
  | none => []
  | some point =>
    if v.moves o block then
      block.statements.attach.flatMap fun ⟨s, _⟩ =>
        match v.headerFold? o s with
        | some e => [e]
        | none => s.receivers.attach.flatMap fun ⟨r, _⟩ => spread r
    else [v.declareAt o point]
termination_by block.size
decreasing_by
  have listed : s ∈ block.statements := by assumption
  have received : r ∈ s.receivers := by assumption
  exact (Term.size_receiver_lt received).trans
    (Term.size_lt_of_mem_children (Term.statement_mem_children listed))

def spreadOver (s : Tree) : List Edit :=
  match v.headerFold? o s with
  | some e => [e]
  | none => s.receivers.flatMap (v.spread o)

theorem spread_eq (block : Tree) :
    v.spread o block =
      match block.statements.find? (Term.uses v.name) with
      | none => []
      | some point =>
        if v.moves o block then block.statements.flatMap (v.spreadOver o)
        else [v.declareAt o point] := by
  rw [spread]
  simp only [List.flatMap_subtype, List.unattach_attach]
  rfl

theorem spread_nil {block : Tree} (unused : ∀ s ∈ block.statements, s.uses v.name = false) :
    v.spread o block = [] := by
  have none : block.statements.find? (Term.uses v.name) = none :=
    List.find?_eq_none.mpr fun s member => by simp [unused s member]
  rw [spread_eq, none]

section

variable (next? : NodeId → Option NodeId) (l : Label) (k : Kind Tree)

theorem place_receiver :
    v.place next? o (.node l k) .receiver =
      match (v.search next? o (.node l k)).point with
      | none => []
      | some point =>
        if (v.search next? o (.node l k)).canMove && v.mayMove o (.node l k) then
          k.statements.flatMap fun s =>
            match v.headerFold? o s with
            | some e => [e]
            | none => v.place next? o s .statement
        else [v.declareAt o point] := by
  have itself (f : Tree → Role → List Edit) : (k.map fun t => (t, f t)).map Prod.fst = k := by
    rw [Kind.map_map]
    exact Kind.map_eq_self k fun _ _ => rfl
  rw [place, Term.compute_node, ← place]
  simp only [itself, Kind.statements_map, List.flatMap_map]
  rfl

theorem place_clause :
    v.place next? o (.node l k) .clause =
      (k.children.filter Term.isBlock).flatMap fun r => v.place next? o r .receiver := by
  rw [place, Term.compute_node, ← place]
  simp only [Kind.children_map, List.flatMap_map]
  induction k.children with
  | nil => rfl
  | cons part rest ih => cases block : part.isBlock <;> simp [block, ih]

theorem place_statement (s : Tree) :
    v.place next? o s .statement =
      s.receivers.flatMap fun r => v.place next? o r .receiver := by
  cases s with
  | node l k =>
    rw [place, Term.compute_node, ← place]
    simp only [Kind.children_map, List.flatMap_map, Term.receivers, List.flatMap_assoc]
    apply List.flatMap_congr
    rintro ⟨l', k'⟩ child
    split
    · simp
    · split
      · rw [place_clause]
        rfl
      · rfl

end

theorem place_eq_spread {next? : NodeId → Option NodeId} (block : Tree)
    (follows : Tree.Follows next? block) (distinct : block.ids.Nodup) :
    v.place next? o block .receiver = v.spread o block := by
  induction block using Term.inductSmaller with
  | step block smaller =>
    obtain ⟨point, canMove⟩ := v.search_eq o follows distinct
    have inner (s : Tree) (member : s ∈ Tree.statements block) :
        v.place next? o s .statement = s.receivers.flatMap (v.spread o) := by
      rw [place_statement]
      apply List.flatMap_congr
      intro r received
      have child := Term.statement_mem_children member
      have below := Term.mem_subterms_of_child child (Term.receiver_mem_subterms received)
      have less := (Term.size_receiver_lt received).trans (Term.size_lt_of_mem_children child)
      exact smaller r less (follows.below below) (distinct.sublist (Tree.ids_sublist below))
    cases block with
    | node l k =>
      have handed : (k.statements.flatMap fun s =>
            match v.headerFold? o s with
            | some e => [e]
            | none => v.place next? o s .statement) = k.statements.flatMap (v.spreadOver o) := by
        apply List.flatMap_congr
        intro s member
        rw [spreadOver, inner s member]
      rw [spread_eq, place_receiver, point, canMove, handed]
      rfl

end LocalVariable

end LocalScope
