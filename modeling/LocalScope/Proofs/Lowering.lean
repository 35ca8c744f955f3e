import LocalScope.Arena.Body
import LocalScope.Proofs.Holding
import LocalScope.Proofs.Rows
import LocalScope.Proofs.Traversal

namespace LocalScope

namespace Term

variable {ℓ : Type}

/-- A term and everything below it, children in source order before their parent. -/
def postorder : Term ℓ → List (Term ℓ) :=
  compute fun l k => k.children.flatMap Prod.snd ++ [node l (k.map Prod.fst)]

theorem postorder_node (l : ℓ) (k : Kind (Term ℓ)) :
    (node l k).postorder = k.children.flatMap postorder ++ [node l k] := by
  have itself : (k.map fun t => (t, compute (fun l k =>
      k.children.flatMap Prod.snd ++ [node l (k.map Prod.fst)]) t)).map Prod.fst = k := by
    rw [Kind.map_map]
    exact Kind.map_eq_self k fun _ _ => rfl
  rw [postorder, compute_node, itself, Kind.children_map, List.flatMap_map]

end Term

theorem Arena.holds_push {a : Arena} {k : Kind Tree} (note : Annotation)
    (parts : ∀ c ∈ k.children, a.Holds c) (apart : (k.children.flatMap Tree.ids).Nodup) :
    (a.push (k.map Tree.id) note).2.Holds (.node ⟨⟨a.size⟩, note, .shown⟩ k) := by
  refine Arena.holds_node.mpr ⟨rfl, by simp [Arena.get?_push], fun c child => ⟨?_, ?_⟩, ?_⟩
  · have listed : Tree.id c ∈ (k.map Tree.id).children := by
      rw [Kind.children_map]
      exact List.mem_map_of_mem child
    rw [Arena.parent?_push, if_pos listed]
  · apply (parts c child).frame
    · exact fun x inside => Arena.get?_push_old ((parts c child).index_lt inside) _ _
    · intro x inside notRoot
      rw [Arena.parent?_push, if_neg]
      intro member
      rw [Kind.children_map] at member
      obtain ⟨other, sibling, rfl⟩ := List.mem_map.mp member
      have same := Tree.eq_of_common apart child sibling inside (Tree.id_mem_ids other)
      exact notRoot (by rw [same])
  · rw [Tree.ids_node, List.nodup_cons]
    refine ⟨fun member => ?_, apart⟩
    obtain ⟨c, child, inside⟩ := List.mem_flatMap.mp member
    exact Nat.lt_irrefl _ ((parts c child).index_lt inside)

namespace Body

open Traversal

theorem addTo_node (note : Annotation) (k : Kind Body) :
    addTo (.node note k) =
      k.traverse addTo >>= fun kind => modifyGet fun a => a.push kind note := by
  have option (x : Option Body) :
      Option.mapM (m := StateM Arena) id (x.map addTo) = x.mapM addTo := by
    cases x <;> rfl
  have apart : (k.map addTo).traverse (m := StateM Arena) id = k.traverse addTo := by
    cases k <;> simp [Kind.traverse, Kind.traverseSlots, Kind.map, option]
  rw [addTo, Term.fold_node]
  exact congrArg (· >>= fun kind => modifyGet fun a => a.push kind note) apart

theorem addTo_run (note : Annotation) (k : Kind Body) (a : Arena) :
    (addTo (.node note k)).run a =
      (after addTo a k.children).push ((turnKind addTo a k).map (outcome addTo)) note := by
  rw [addTo_node, StateT.run_bind, traverse_run]
  rfl

def numbersFrom (first count : Nat) : List NodeId := (List.range' first count).map NodeId.mk

/-- A tree is what has been made of a body that was added to an arena. -/
structure Added (b : Body) (a : Arena) (t : Tree) : Prop where
  root : (b.addTo.run a).1 = t.id
  held : (b.addTo.run a).2.Holds t
  body : t.body = b
  fresh : ∀ x ∈ t.ids, a.size ≤ x.index
  numbered : t.postorder.map Tree.id = numbersFrom a.size b.size
  grown : (b.addTo.run a).2.size = a.size + b.size
  older : Arena.Extends a (b.addTo.run a).2
  clean : a.Clean → (b.addTo.run a).2.Clean
  free : a.Clean → (b.addTo.run a).2.parent? t.id = none

def treeOf (turn : Body × Arena) : Tree :=
  (turn.1.addTo.run turn.2).2.view (outcome addTo turn)

theorem Added.treeOf_eq {b : Body} {a : Arena} {t : Tree} (added : Added b a t) :
    treeOf (b, a) = t := by
  have same : outcome addTo (b, a) = t.id := added.root
  rw [treeOf, same]
  exact added.held.view_eq

structure AddedAll (bs : List Body) (a : Arena) : Prop where
  older : Arena.Extends a (after addTo a bs)
  clean : a.Clean → (after addTo a bs).Clean
  grown : (after addTo a bs).size = a.size + (bs.map Term.size).sum
  numbered : ((turns addTo a bs).flatMap fun turn => (treeOf turn).postorder.map Tree.id) =
    numbersFrom a.size (bs.map Term.size).sum
  each : ∀ turn ∈ turns addTo a bs,
    outcome addTo turn = (treeOf turn).id ∧ (treeOf turn).body = turn.1 ∧
    (after addTo a bs).Holds (treeOf turn) ∧ (∀ x ∈ (treeOf turn).ids, a.size ≤ x.index)
  apart : ((turns addTo a bs).flatMap fun turn => (treeOf turn).ids).Nodup

/- The trees stay apart because each takes numbers that no earlier one has. -/
theorem addAll_spec (bs : List Body) (each : ∀ b ∈ bs, ∀ a, ∃ t, Added b a t) (a : Arena) :
    AddedAll bs a := by
  induction bs generalizing a with
  | nil =>
    exact {
      older := Arena.Extends.refl a
      clean := id
      grown := rfl
      numbered := rfl
      each := by simp [turns]
      apart := by simp [turns] }
  | cons b bs ih =>
    obtain ⟨t, added⟩ := each b (by simp) a
    have later := ih (fun c member => each c (List.mem_cons_of_mem b member)) (b.addTo.run a).2
    have first : treeOf (b, a) = t := added.treeOf_eq
    constructor
    · exact added.older.trans later.older
    · exact fun clean => later.clean (added.clean clean)
    · rw [after, later.grown, added.grown, List.map_cons, List.sum_cons, Nat.add_assoc]
    · rw [turns, List.flatMap_cons, first, added.numbered, later.numbered, added.grown]
      simp only [numbersFrom, List.map_cons, List.sum_cons, ← List.map_append,
        List.range'_append_1]
    · intro turn member
      rcases List.mem_cons.mp member with rfl | member
      · rw [first]
        refine ⟨added.root, added.body, ?_, added.fresh⟩
        apply added.held.frame
        · exact fun x inside => later.older.rows x (added.held.index_lt inside)
        · exact fun x inside _ => later.older.parents x (added.held.index_lt inside)
      · obtain ⟨root, body, held, fresh⟩ := later.each turn member
        refine ⟨root, body, held, ?_⟩
        exact fun x inside => Nat.le_trans added.older.grows (fresh x inside)
    · rw [turns, List.flatMap_cons, List.nodup_append']
      refine ⟨first ▸ added.held.distinct, later.apart, ?_⟩
      intro x inside outside
      obtain ⟨turn, member, elsewhere⟩ := List.mem_flatMap.mp outside
      have young := (later.each turn member).2.2.2 x elsewhere
      rw [first] at inside
      have old := added.held.index_lt inside
      omega

theorem pushed_spec (note : Annotation) (kt : Kind Tree) (k : Kind Body) (a a₁ : Arena)
    (run : (addTo (.node note k)).run a = a₁.push (kt.map Tree.id) note)
    (older : Arena.Extends a a₁) (clean : a.Clean → a₁.Clean)
    (grown : a₁.size = a.size + (k.children.map Term.size).sum)
    (numbered : (kt.children.flatMap fun c => c.postorder.map Tree.id) =
      numbersFrom a.size (k.children.map Term.size).sum)
    (parts : ∀ c ∈ kt.children, a₁.Holds c ∧ ∀ x ∈ Tree.ids c, a.size ≤ x.index)
    (apart : (kt.children.flatMap Tree.ids).Nodup) (bodies : kt.map Tree.body = k) :
    Added (.node note k) a (.node ⟨⟨a₁.size⟩, note, .shown⟩ kt) := by
  have numbers : ∀ x ∈ (kt.map Tree.id).children, x.index < a₁.size ∧ a.size ≤ x.index := by
    intro x member
    rw [Kind.children_map] at member
    obtain ⟨c, child, rfl⟩ := List.mem_map.mp member
    have facts := parts c child
    exact ⟨facts.1.index_lt (Tree.id_mem_ids c), facts.2 _ (Tree.id_mem_ids c)⟩
  have unlisted : ∀ x : NodeId, a₁.size ≤ x.index ∨ x.index < a.size →
      x ∉ (kt.map Tree.id).children := by
    intro x outside member
    have bounds := numbers x member
    omega
  constructor
  · rw [run]
    rfl
  · rw [run]
    exact Arena.holds_push note (fun c child => (parts c child).1) apart
  · rw [Tree.body, Term.relabel_node]
    exact congrArg (Term.node note) bodies
  · intro x member
    rw [Tree.ids_node] at member
    rcases List.mem_cons.mp member with rfl | member
    · exact older.grows
    · obtain ⟨c, child, inside⟩ := List.mem_flatMap.mp member
      exact (parts c child).2 x inside
  · rw [Term.postorder_node, List.map_append, List.map_flatMap, numbered, Term.size_node]
    simp only [numbersFrom, List.range'_1_concat, List.map_append, grown]
    rfl
  · rw [run, Arena.size_push, grown, Term.size_node]
    omega
  · rw [run]
    exact older.push note fun x old => unlisted x (.inr old)
  · intro before x young
    rw [run, Arena.size_push] at young
    rw [run, Arena.parent?_push, if_neg (unlisted x (.inl (by omega))),
      clean before x (by omega)]
  · intro before
    rw [run]
    have top : a₁.size ≤ (⟨a₁.size⟩ : NodeId).index := Nat.le_refl _
    exact (Arena.parent?_push _ _ _ _).trans
      ((if_neg (unlisted _ (.inl top))).trans (clean before _ top))

theorem addTo_spec (b : Body) : ∀ a, ∃ t, Added b a t := by
  induction b using Term.inductChildren with
  | step note k ih =>
    intro a
    obtain ⟨older, clean, grown, inRow, parts, apart⟩ := addAll_spec k.children ih a
    have inOrder := (turnKind_spec addTo a k).1
    have numbered : (turnKind addTo a k).map (outcome addTo) =
        ((turnKind addTo a k).map treeOf).map Tree.id := by
      rw [Kind.map_map]
      apply Kind.map_congr
      intro turn member
      exact (parts turn (inOrder ▸ member)).1
    have children : ((turnKind addTo a k).map treeOf).children =
        (turns addTo a k.children).map treeOf := by
      rw [Kind.children_map, inOrder]
    have ids : ((turnKind addTo a k).map treeOf).children.flatMap Tree.ids =
        (turns addTo a k.children).flatMap fun turn => (treeOf turn).ids := by
      rw [children, List.flatMap_map]
    have inPlace : (((turnKind addTo a k).map treeOf).children.flatMap
        fun c => c.postorder.map Tree.id) = numbersFrom a.size (k.children.map Term.size).sum := by
      rw [children, List.flatMap_map, inRow]
    have bodies : ((turnKind addTo a k).map treeOf).map Tree.body = k := by
      rw [Kind.map_map]
      refine Eq.trans (Kind.map_congr _ ?_) (map_fst_turnKind addTo a k)
      intro turn member
      exact (parts turn (inOrder ▸ member)).2.1
    have run := addTo_run note k a
    rw [numbered] at run
    have held : ∀ c ∈ ((turnKind addTo a k).map treeOf).children,
        (after addTo a k.children).Holds c ∧ ∀ x ∈ c.ids, a.size ≤ x.index := by
      intro c member
      rw [children] at member
      obtain ⟨turn, inside, rfl⟩ := List.mem_map.mp member
      exact (parts turn inside).2.2
    rw [← ids] at apart
    exact ⟨_, pushed_spec note _ k a _ run older clean grown inPlace held apart bodies⟩

end Body

namespace Arena

def treeOfBody (b : Body) : Tree := (ofBody b).2.view (ofBody b).1

theorem ofBody_holds (b : Body) :
    (ofBody b).2.Holds (treeOfBody b) ∧ (treeOfBody b).id = (ofBody b).1 ∧
      (treeOfBody b).body = b ∧ (ofBody b).2.parent? (ofBody b).1 = none := by
  have clean : ({} : Arena).Clean := fun x _ => by simp [parent?, SideTable.get?]
  obtain ⟨t, added⟩ := Body.addTo_spec b {}
  have root : (ofBody b).1 = t.id := added.root
  have view : treeOfBody b = t := by
    rw [treeOfBody, root]
    exact added.held.view_eq
  rw [view, root]
  exact ⟨added.held, rfl, added.body, added.free clean⟩

end Arena

end LocalScope
