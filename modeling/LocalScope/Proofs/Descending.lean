import LocalScope.Arena.Descent
import LocalScope.Placement.Query
import LocalScope.Proofs.Running
import LocalScope.Proofs.Upkeep
import LocalScope.Proofs.Writes

namespace LocalScope

open Relation

theorem Tree.ids_eq (t : Tree) : t.ids = id t :: (t.children.map ids).flatten := by
  cases t with
  | node l k => exact ids_node l k

theorem Tree.forall₂_children {β : Type} {R : NodeId → β → Prop} {f : Tree → β} (t : Tree)
    (each : ∀ c ∈ t.children, R (id c) (f c)) :
    List.Forall₂ R (t.kind.map id).children (t.children.map f) := by
  rw [Kind.children_map, List.forall₂_map_left_iff, List.forall₂_map_right_iff]
  exact List.forall₂_same.mpr each

namespace Arena

/-- What is below a node is a tree: links lead to rows and never round in a circle, and no node is
listed twice, neither by one node nor by two. Nothing is said about the rest of the arena, about
parents, or about the order of the numbers. -/
structure Treelike (a : Arena) (root : NodeId) : Prop where
  present : ∀ x, ReflTransGen a.LeadsTo root x → x.index < a.size
  acyclic : ∀ x, ReflTransGen a.LeadsTo root x → ¬ TransGen a.LeadsTo x x
  once : ∀ x n, ReflTransGen a.LeadsTo root x → a.nodes.get? x = some n → n.kind.children.Nodup
  owner : ∀ x y z, ReflTransGen a.LeadsTo root x → ReflTransGen a.LeadsTo root y →
    a.LeadsTo x z → a.LeadsTo y z → x = y

theorem Linked.treelike {a : Arena} {x : NodeId} (linked : a.Linked) (inside : x.index < a.size) :
    a.Treelike x where
  present y path := by
    rcases path.cases_tail with rfl | ⟨z, -, link⟩
    · exact inside
    · exact linked.inRange z y link
  acyclic y _ := linked.acyclic y
  once y n _ := linked.once y n
  owner y y' z _ _ := linked.owner_unique

namespace Treelike

variable {a : Arena} {root x y c d : NodeId}

theorem below (tree : a.Treelike root) (path : ReflTransGen a.LeadsTo root x) : a.Treelike x where
  present y further := tree.present y (path.trans further)
  acyclic y further := tree.acyclic y (path.trans further)
  once y n further := tree.once y n (path.trans further)
  owner y y' z first second := tree.owner y y' z (path.trans first) (path.trans second)

theorem exists_row (tree : a.Treelike root) : ∃ n, a.nodes.get? root = some n :=
  ⟨_, Array.getElem?_eq_getElem (tree.present root .refl)⟩

abbrev Below (a : Arena) (root : NodeId) : Type := { x : NodeId // ReflTransGen a.LeadsTo root x }

/- There are finitely many rows, so every way down comes to an end. -/
theorem wellFounded (tree : a.Treelike root) :
    WellFounded fun y x : Below a root => TransGen a.LeadsTo x.1 y.1 := by
  have finite : Finite (Below a root) := by
    refine Finite.of_injective (β := Fin a.size) (fun x => ⟨x.1.index, tree.present x.1 x.2⟩) ?_
    intro x y same
    exact Subtype.ext (Key.index_injective _ _ (Fin.mk.inj same))
  have transitive : IsTrans (Below a root) fun y x => TransGen a.LeadsTo x.1 y.1 :=
    ⟨fun _ _ _ first second => second.trans first⟩
  have irreflexive : Std.Irrefl fun y x : Below a root => TransGen a.LeadsTo x.1 y.1 :=
    ⟨fun x => tree.acyclic x.1 x.2⟩
  exact Finite.wellFounded_of_trans_of_irrefl _

theorem inductLinks {motive : ∀ x, a.Treelike x → Prop}
    (step : ∀ x (tree : a.Treelike x),
      (∀ y (link : a.LeadsTo x y), motive y (tree.below (.single link))) → motive x tree)
    {root : NodeId} (tree : a.Treelike root) : motive root tree := by
  have all (x : Below a root) : motive x.1 (tree.below x.2) := by
    induction x using tree.wellFounded.induction with
    | _ x ih =>
      exact step x.1 (tree.below x.2) fun y link => ih ⟨y, x.2.tail link⟩ (.single link)
  exact all ⟨root, .refl⟩

theorem comparable (tree : a.Treelike root) (first : ReflTransGen a.LeadsTo root c)
    (second : ReflTransGen a.LeadsTo root d) (path : ReflTransGen a.LeadsTo c y)
    (other : ReflTransGen a.LeadsTo d y) :
    ReflTransGen a.LeadsTo c d ∨ ReflTransGen a.LeadsTo d c := by
  induction path with
  | refl => exact .inr other
  | tail before link ih =>
    rcases other.cases_tail with rfl | ⟨z, earlier, last⟩
    · exact .inl (before.tail link)
    · obtain rfl := tree.owner _ _ _ (first.trans before) (second.trans earlier) link last
      exact ih earlier

/- A way between two children would lead through their owner, and so round in a circle. -/
theorem not_below_sibling (tree : a.Treelike root) (left : a.LeadsTo root c)
    (right : a.LeadsTo root d) (path : ReflTransGen a.LeadsTo c d) : c = d := by
  rcases path.cases_tail with same | ⟨z, before, link⟩
  · exact same.symm
  · obtain rfl := tree.owner _ _ _ (.head left before) .refl link right
    exact absurd (TransGen.head' left before) (tree.acyclic _ .refl)

theorem siblings_apart (tree : a.Treelike root) (left : a.LeadsTo root c)
    (right : a.LeadsTo root d) (path : ReflTransGen a.LeadsTo c y)
    (other : ReflTransGen a.LeadsTo d y) : c = d := by
  rcases tree.comparable (.single left) (.single right) path other with down | down
  · exact tree.not_below_sibling left right down
  · exact (tree.not_below_sibling right left down).symm

end Treelike

theorem id_view (a : Arena) (x : NodeId) : (a.view x).id = x := by
  unfold view expand expandBelow
  split
  · rfl
  · split <;> rfl

theorem leadsTo_of_row {a : Arena} {x y : NodeId} {n : Node} (row : a.nodes.get? x = some n) :
    a.LeadsTo x y ↔ y ∈ n.kind.children := by
  simp [LeadsTo, row]

namespace Treelike

variable {a : Arena} {root : NodeId} {n : Node}

theorem mem_below_iff (row : a.nodes.get? root = some n)
    (inside : ∀ c ∈ n.kind.children, ∀ y, y ∈ (a.view c).ids ↔ ReflTransGen a.LeadsTo c y)
    (y : NodeId) :
    (y ∈ root :: n.kind.children.flatMap fun c => (a.view c).ids) ↔
      ReflTransGen a.LeadsTo root y := by
  rw [List.mem_cons, List.mem_flatMap, ReflTransGen.cases_head_iff]
  refine or_congr eq_comm (exists_congr fun c => ?_)
  rw [leadsTo_of_row row]
  exact and_congr_right fun listed => inside c listed y

theorem nodup_below (tree : a.Treelike root) (row : a.nodes.get? root = some n)
    (inside : ∀ c ∈ n.kind.children, ∀ y, y ∈ (a.view c).ids ↔ ReflTransGen a.LeadsTo c y)
    (distinct : ∀ c ∈ n.kind.children, (a.view c).ids.Nodup) :
    (root :: n.kind.children.flatMap fun c => (a.view c).ids).Nodup := by
  have link {c : NodeId} (listed : c ∈ n.kind.children) : a.LeadsTo root c :=
    (leadsTo_of_row row).mpr listed
  refine List.nodup_cons.mpr ⟨?_, List.nodup_flatMap.mpr ⟨distinct, ?_⟩⟩
  · intro again
    obtain ⟨c, listed, below⟩ := List.mem_flatMap.mp again
    exact tree.acyclic root .refl (.head' (link listed) ((inside c listed root).mp below))
  · refine (tree.once root n .refl row).imp_of_mem fun left right apart y first second => apart ?_
    exact tree.siblings_apart (link left) (link right) ((inside _ left y).mp first)
      ((inside _ right y).mp second)

theorem unfolded (tree : a.Treelike root) :
    a.Unfolds (a.view root) ∧ ∀ y, y ∈ (a.view root).ids ↔ ReflTransGen a.LeadsTo root y := by
  induction tree using inductLinks with
  | step x tree ih =>
    obtain ⟨n, row⟩ := tree.exists_row
    have each (c : NodeId) (listed : c ∈ n.kind.children) := ih c ((leadsTo_of_row row).mpr listed)
    have inside := fun c listed => (each c listed).2
    have same : (n.kind.map a.view).map Tree.id = n.kind := by
      rw [Kind.map_map]
      exact Kind.map_eq_self _ fun c _ => id_view a c
    have ids : Tree.ids (.node ⟨x, n.note, .shown⟩ (n.kind.map a.view)) =
        x :: n.kind.children.flatMap fun c => (a.view c).ids := by
      rw [Tree.ids_node, Kind.children_map, List.flatMap_map]
    have unfolds : a.Unfolds (.node ⟨x, n.note, .shown⟩ (n.kind.map a.view)) := by
      refine .node rfl (by rw [same, row]) ?_ ?_
      · intro t child
        rw [Kind.children_map] at child
        obtain ⟨c, listed, rfl⟩ := List.mem_map.mp child
        exact (each c listed).1
      · rw [ids]
        exact tree.nodup_below row inside fun c listed => (each c listed).1.distinct
    have shown : a.view x = .node ⟨x, n.note, .shown⟩ (n.kind.map a.view) := unfolds.view_eq
    rw [shown, ids]
    exact ⟨unfolds, mem_below_iff row inside⟩

end Treelike

/-- A descent that comes to an end after finitely many turns, and with what. -/
inductive Ends (a : Arena) : Descent → Except Error (List NodeId) → Prop
  | done {d : Descent} {listed : List NodeId} (last : a.turn d = .ok (.inr listed)) :
    Ends a d (.ok listed)
  | failed {d : Descent} {e : Error} (last : a.turn d = .error e) : Ends a d (.error e)
  | turned {d d' : Descent} {r : Except Error (List NodeId)} (turn : a.turn d = .ok (.inl d'))
    (rest : Ends a d' r) : Ends a d r

theorem Ends.repeatM_eq {a : Arena} {d : Descent} {r : Except Error (List NodeId)}
    (ends : a.Ends d r) : repeatM a.turn d = r := by
  induction ends with
  | done last =>
    rw [repeatM_eq_of_monadTail, repeatM.body, last]
    rfl
  | failed last =>
    rw [repeatM_eq_of_monadTail, repeatM.body, last]
    rfl
  | turned turn _ ih =>
    rw [repeatM_eq_of_monadTail, repeatM.body, turn]
    exact ih

theorem ends_trees {a : Arena} (ts : List Tree)
    (rows : ∀ t ∈ ts, ∀ s ∈ t.subterms, a.nodes.get? (Tree.id s) = some (Tree.row s))
    (listed : List NodeId) :
    a.Ends ⟨listed, ts.map Tree.id⟩ (.ok (listed.reverse ++ ts.flatMap Tree.ids)) := by
  -- Each turn takes one node off, so the number of nodes below the stack goes down.
  induction size : (ts.map Term.size).sum using Nat.strongRecOn generalizing ts listed with
  | ind total smaller =>
    cases ts with
    | nil =>
      rw [List.flatMap_nil, List.append_nil]
      exact .done rfl
    | cons t rest =>
      obtain ⟨l, k⟩ := t
      have kind : a.kind l.id = .ok (k.map Tree.id) :=
        kind_of_row (rows _ List.mem_cons_self _ (Term.self_mem_subterms _))
      have turn : a.turn ⟨listed, l.id :: rest.map Tree.id⟩ =
          .ok (.inl ⟨l.id :: listed, (k.children ++ rest).map Tree.id⟩) := by
        simp only [Arena.turn, kind, List.map_append, ← Kind.children_map]
        rfl
      have fewer : ((k.children ++ rest).map Term.size).sum < total := by
        rw [← size, List.map_cons, List.sum_cons, Term.size_node, List.map_append, List.sum_append]
        omega
      have further : ∀ t ∈ k.children ++ rest, ∀ s ∈ t.subterms,
          a.nodes.get? (Tree.id s) = some (Tree.row s) := by
        intro t member s inside
        rcases List.mem_append.mp member with child | later
        · have deeper := Term.mem_subterms_of_child (t := .node l k) child inside
          exact rows _ List.mem_cons_self s deeper
        · exact rows t (List.mem_cons_of_mem _ later) s inside
      have onward := smaller _ fewer _ further (l.id :: listed) rfl
      rw [List.reverse_cons, List.append_assoc, List.flatMap_append, ← List.append_assoc [l.id]]
        at onward
      rw [List.flatMap_cons, Tree.ids_node]
      exact .turned turn onward

def writesHere (a : Arena) (id : NodeId) (name : String) : Except Error Bool := do
  match ← a.kind id with
  | .assignment _ left _ => a.isIdentifier left name
  | .unary op operand => if op.isIncrement then a.isIdentifier operand name else return false
  | _ => return false

namespace Unfolds

variable {a : Arena} {t : Tree} {name : String}

theorem child {c : Tree} (unfolds : a.Unfolds t) (listed : c ∈ t.children) : a.Unfolds c :=
  unfolds.below (Term.child_mem_subterms listed)

theorem kind_eq (unfolds : a.Unfolds t) : a.kind t.id = .ok (t.kind.map Tree.id) :=
  kind_of_row unfolds.row

theorem ends (unfolds : a.Unfolds t) : a.Ends (.start t.id) (.ok t.ids) := by
  have run := ends_trees [t] (by simpa using unfolds.rows) []
  rwa [List.flatMap_singleton] at run

theorem descendants_eq (unfolds : a.Unfolds t) : a.descendants t.id = .ok t.ids :=
  unfolds.ends.repeatM_eq

theorem isIdentifier_eq (unfolds : a.Unfolds t) :
    a.isIdentifier t.id name = .ok (t.isIdentifier name) := by
  rw [isIdentifier, unfolds.kind_eq, Term.isIdentifier]
  cases t.kind <;> rfl

theorem writesHere_eq (unfolds : a.Unfolds t) : a.writesHere t.id name = .ok (t.writes name) := by
  obtain ⟨l, k⟩ := t
  rw [writesHere, unfolds.kind_eq, Term.writes]
  cases k with
  | assignment op left right =>
    exact (unfolds.child (c := left) List.mem_cons_self).isIdentifier_eq
  | unary op operand =>
    have asked : a.isIdentifier (Tree.id operand) name = .ok (operand.isIdentifier name) :=
      (unfolds.child (c := operand) List.mem_cons_self).isIdentifier_eq
    show (if op.isIncrement then a.isIdentifier (Tree.id operand) name else pure false) = _
    rw [asked]
    cases increment : op.isIncrement with
    | false => simp [Term.kind, increment, pure, Except.pure]
    | true => simp [Term.kind, increment]
  | _ => rfl

theorem writeCount_eq (unfolds : a.Unfolds t) :
    a.writeCount t.id name = .ok (t.writeCount name) := by
  rw [writeCount, unfolds.whole_eq]
  rfl

theorem descendants_of_children (unfolds : a.Unfolds t) :
    List.Forall₂ (fun child part => a.descendants child = .ok part)
      (t.kind.map Tree.id).children (t.children.map Tree.ids) :=
  t.forall₂_children fun _ listed => (unfolds.child listed).descendants_eq

theorem writes_counted (unfolds : a.Unfolds t) (name : String) :
    ∃ writes, List.Forall₂ (fun x w => a.writesHere x name = .ok w) t.ids writes ∧
      a.writeCount t.id name = .ok (writes.count true) := by
  refine ⟨t.subterms.map (Term.writes name), ?_, ?_⟩
  · rw [Tree.ids, List.forall₂_map_left_iff, List.forall₂_map_right_iff, List.forall₂_same]
    exact fun s inside => (unfolds.below inside).writesHere_eq
  · rw [unfolds.writeCount_eq, List.count, List.countP_map, Term.writeCount]
    congr 2
    funext s
    simp

theorem writes_summed (unfolds : a.Unfolds t) (name : String) :
    ∃ own counts, a.writesHere t.id name = .ok own ∧
      List.Forall₂ (fun child n => a.writeCount child name = .ok n)
        (t.kind.map Tree.id).children counts ∧
      a.writeCount t.id name = .ok (own.toNat + counts.sum) := by
  refine ⟨t.writes name, t.children.map (Term.writeCount name), unfolds.writesHere_eq,
    t.forall₂_children fun _ listed => (unfolds.child listed).writeCount_eq, ?_⟩
  obtain ⟨l, k⟩ := t
  rw [unfolds.writeCount_eq, Term.writeCount_node, Nat.add_comm]
  cases Term.writes name (.node l k) <;> rfl

end Unfolds

theorem linked_ofBody {body : Body} {root : NodeId} {a : Arena}
    (lowered : ofBody body = (root, a)) : a.Linked := by
  have linked : (ofBody body).2.Linked := body.addTo_linked {} linked_empty
  rwa [lowered] at linked

theorem linked_of_run {p : Pass} {root : NodeId} {before after : Arena} (linked : before.Linked)
    (run : (p.run root before).2 = .ok () after) : after.Linked := by
  have placed := Operation.perform_ensures linked (o := .place p root) trivial
  simpa [Editing.Ensures, Operation.perform, run] using placed

/-- Where links form a tree, the stack runs empty after finitely many turns. What has been listed by
then is the node and, child after child, what is listed from each of these, so all that can be
reached and nothing twice. Writes can be counted along that list or child by child. In a body that
was lowered, and in what a run makes of one, links form a tree below any node. -/
theorem descendants_in_order :
    (∀ (a : Arena) (id : NodeId), a.Treelike id →
      ∃ kind below, a.kind id = .ok kind ∧
        List.Forall₂ (fun child part => a.descendants child = .ok part) kind.children below ∧
        a.Ends (.start id) (.ok (id :: below.flatten)) ∧
        a.descendants id = .ok (id :: below.flatten) ∧
        (id :: below.flatten).Nodup ∧
        (∀ x, x ∈ id :: below.flatten ↔ ReflTransGen a.LeadsTo id x) ∧
        ∀ name,
          (∃ writes,
            List.Forall₂ (fun x w => a.writesHere x name = .ok w) (id :: below.flatten) writes ∧
            a.writeCount id name = .ok (writes.count true)) ∧
          ∃ own counts, a.writesHere id name = .ok own ∧
            List.Forall₂ (fun child n => a.writeCount child name = .ok n) kind.children counts ∧
            a.writeCount id name = .ok (own.toNat + counts.sum)) ∧
    ∀ (body : Body) (root : NodeId) (before : Arena), ofBody body = (root, before) →
      (∀ x : NodeId, x.index < before.size → before.Treelike x) ∧
      ∀ (p : Pass) (after : Arena), (p.run root before).2 = .ok () after →
        ∀ x : NodeId, x.index < after.size → after.Treelike x := by
  refine ⟨?_, ?_⟩
  · intro a id tree
    obtain ⟨t, rfl, unfolds, reached⟩ : ∃ t : Tree, t.id = id ∧ a.Unfolds t ∧
        ∀ y, y ∈ t.ids ↔ ReflTransGen a.LeadsTo id y := ⟨a.view id, id_view a id, tree.unfolded⟩
    refine ⟨t.kind.map Tree.id, t.children.map Tree.ids, unfolds.kind_eq,
      unfolds.descendants_of_children, ?_⟩
    rw [← t.ids_eq]
    exact ⟨unfolds.ends, unfolds.descendants_eq, unfolds.distinct, reached,
      fun name => ⟨unfolds.writes_counted name, unfolds.writes_summed name⟩⟩
  · intro body root before lowered
    have linked := linked_ofBody lowered
    refine ⟨fun x => linked.treelike, ?_⟩
    intro p after run x
    exact (linked_of_run linked run).treelike

def respun : Arena := (Operation.place {} ⟨8⟩).perform.after (ofBody .spinning).2

/- The declaration is new, so a block has a child with a greater number. -/
theorem descendants_in_order_respun :
    (({} : Pass).run ⟨8⟩ (ofBody .spinning).2).2 = .ok () respun ∧ respun.Treelike ⟨8⟩ ∧
      respun.kind ⟨8⟩ = .ok (.block [⟨10⟩, ⟨7⟩]) ∧ respun.writeCount ⟨8⟩ "v" = .ok 1 ∧
      ∃ first second, respun.descendants ⟨10⟩ = .ok first ∧ respun.descendants ⟨7⟩ = .ok second ∧
        respun.descendants ⟨8⟩ = .ok (⟨8⟩ :: (first ++ second)) := by
  have run : (({} : Pass).run ⟨8⟩ (ofBody .spinning).2).2 = .ok () respun := by cbv
  have root : respun.kind ⟨8⟩ = .ok (.block [⟨10⟩, ⟨7⟩]) := by decide +kernel
  have tree := (descendants_in_order.2 .spinning ⟨8⟩ _ rfl).2 {} respun run ⟨8⟩ (by decide +kernel)
  obtain ⟨kind, below, found, parts, -, listed, -⟩ := descendants_in_order.1 respun ⟨8⟩ tree
  obtain rfl := Except.ok.inj (root.symm.trans found)
  obtain ⟨first, _, one, more, rfl⟩ := List.forall₂_cons_left_iff.mp parts
  obtain ⟨second, _, two, nomore, rfl⟩ := List.forall₂_cons_left_iff.mp more
  obtain rfl := List.forall₂_nil_left_iff.mp nomore
  exact ⟨run, tree, root, by decide +kernel, first, second, one, two, by simpa using listed⟩

end Arena

end LocalScope
