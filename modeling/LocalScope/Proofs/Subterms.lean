import Mathlib
import LocalScope.Code.Usage

namespace LocalScope

namespace Kind

variable {α β : Type}

theorem map_congr {f g : α → β} (k : Kind α) (same : ∀ c ∈ k.children, f c = g c) :
    k.map f = k.map g := by
  have list (l : List α) (h : ∀ c ∈ l, f c = g c) : l.map f = l.map g := List.map_congr_left h
  have option (o : Option α) (h : ∀ c ∈ o.toList, f c = g c) : o.map f = o.map g :=
    Option.map_congr fun c held => h c (Option.mem_toList.mpr held)
  simp only [children, List.mem_flatMap, forall_exists_index, and_imp] at same
  cases k <;>
    simp only [slots, List.mem_cons, List.not_mem_nil, or_false, forall_eq_or_imp, forall_eq,
      Slot.children, map] at same ⊢ <;>
    grind

theorem map_eq_self {f : α → α} (k : Kind α) (same : ∀ c ∈ k.children, f c = c) :
    k.map f = k := by
  have byId : k.map f = k.map id := map_congr k same
  rw [byId]
  cases k <;> simp [map]

@[simp] theorem children_block (ss : List α) : (Kind.block ss).children = ss := by
  simp [children, slots, Slot.children]

theorem statements_map (f : α → β) (k : Kind α) : (k.map f).statements = k.statements.map f := by
  cases k <;> simp [statements, map]

theorem statements_other {k : Kind α} (other : k.isBlock = false) : k.statements = [] := by
  cases k <;> first | rfl | cases other

@[simp] theorem isBlock_map (f : α → β) (k : Kind α) : (k.map f).isBlock = k.isBlock := by
  cases k <;> rfl

end Kind

namespace Term

variable {ℓ : Type}

theorem size_node (l : ℓ) (k : Kind (Term ℓ)) :
    (node l k).size = (k.children.map size).sum + 1 := by
  rw [size, fold_node, Kind.children_map]
  rfl

theorem size_lt_of_mem_children {t c : Term ℓ} (child : c ∈ t.children) : c.size < t.size := by
  cases t with
  | node l k =>
    rw [size_node]
    have listed : c.size ∈ k.children.map size := List.mem_map_of_mem child
    have bound := List.le_sum_of_mem listed
    omega

theorem inductSmaller {motive : Term ℓ → Prop}
    (step : ∀ t, (∀ s, s.size < t.size → motive s) → motive t) (t : Term ℓ) : motive t := by
  induction h : t.size using Nat.strongRecOn generalizing t with
  | ind n smaller => exact step t fun s less => smaller s.size (h ▸ less) s rfl

theorem inductChildren {motive : Term ℓ → Prop}
    (step : ∀ l k, (∀ c ∈ k.children, motive c) → motive (node l k)) (t : Term ℓ) : motive t := by
  induction t using inductSmaller with
  | step t smaller =>
    cases t with
    | node l k =>
      apply step
      intro c child
      have less : c.size < (node l k).size := size_lt_of_mem_children child
      exact smaller c less

/- What is below a node, by recursion over the children and with no count of steps. -/
def preorder : Term ℓ → List (Term ℓ) :=
  compute fun l k => node l (k.map Prod.fst) :: k.children.flatMap Prod.snd

theorem preorder_node (l : ℓ) (k : Kind (Term ℓ)) :
    (node l k).preorder = node l k :: k.children.flatMap preorder := by
  have itself : (k.map fun t => (t, compute (fun l k =>
      node l (k.map Prod.fst) :: k.children.flatMap Prod.snd) t)).map Prod.fst = k := by
    rw [Kind.map_map]
    exact Kind.map_eq_self k fun _ _ => rfl
  rw [preorder, compute_node, itself, Kind.children_map, List.flatMap_map]

theorem visit_eq_preorder (steps : Nat) (pending : List (Term ℓ))
    (enough : (pending.map size).sum ≤ steps) :
    visit steps pending = pending.flatMap preorder := by
  induction steps generalizing pending with
  | zero =>
    cases pending with
    | nil => rfl
    | cons t rest =>
      cases t with
      | node l k =>
        simp only [List.map_cons, List.sum_cons, size_node] at enough
        omega
  | succ steps ih =>
    cases pending with
    | nil => rfl
    | cons t rest =>
      cases t with
      | node l k =>
        have fewer : ((k.children ++ rest).map size).sum ≤ steps := by
          simp only [List.map_cons, List.sum_cons, size_node] at enough
          simp only [List.map_append, List.sum_append]
          omega
        have rest_eq : visit steps (k.children ++ rest) = (k.children ++ rest).flatMap preorder :=
          ih _ fewer
        simp only [visit, children, kind, rest_eq, List.flatMap_cons, preorder_node,
          List.flatMap_append, List.cons_append]

theorem subterms_eq_preorder (t : Term ℓ) : t.subterms = t.preorder := by
  have h := visit_eq_preorder t.size [t] (by simp)
  simpa [subterms] using h

theorem subterms_node (l : ℓ) (k : Kind (Term ℓ)) :
    (node l k).subterms = node l k :: k.children.flatMap subterms := by
  simp only [subterms_eq_preorder, preorder_node, funext subterms_eq_preorder]

/-- The blocks of a term, outer blocks first. -/
def blocks (t : Term ℓ) : List (Term ℓ) := t.subterms.filter isBlock

theorem blocks_node (l : ℓ) (k : Kind (Term ℓ)) :
    (node l k).blocks = (if k.isBlock then [node l k] else []) ++ k.children.flatMap blocks := by
  have own : isBlock (node l k) = k.isBlock := rfl
  rw [blocks, subterms_node, List.filter_cons, own, List.filter_flatMap]
  split <;> rfl

theorem mem_subterms_node {s : Term ℓ} {l : ℓ} {k : Kind (Term ℓ)} :
    s ∈ (node l k).subterms ↔ s = node l k ∨ ∃ c ∈ k.children, s ∈ c.subterms := by
  simp [subterms_node]

@[simp] theorem self_mem_subterms (t : Term ℓ) : t ∈ t.subterms := by
  cases t with
  | node l k => simp [subterms_node]

theorem mem_subterms_of_child {s c t : Term ℓ} (child : c ∈ t.children) (below : s ∈ c.subterms) :
    s ∈ t.subterms := by
  cases t with
  | node l k => exact mem_subterms_node.mpr (.inr ⟨c, child, below⟩)

theorem child_mem_subterms {c t : Term ℓ} (child : c ∈ t.children) : c ∈ t.subterms :=
  mem_subterms_of_child child (self_mem_subterms c)

theorem subterms_trans {r s t : Term ℓ} (first : r ∈ s.subterms) (second : s ∈ t.subterms) :
    r ∈ t.subterms := by
  induction t using inductChildren with
  | step l k ih =>
    rcases mem_subterms_node.mp second with rfl | ⟨c, child, below⟩
    · exact first
    · exact mem_subterms_of_child child (ih c child below)

theorem size_le_of_mem_subterms {s t : Term ℓ} (below : s ∈ t.subterms) : s.size ≤ t.size := by
  induction t using inductChildren with
  | step l k ih =>
    rcases mem_subterms_node.mp below with rfl | ⟨c, child, inside⟩
    · exact Nat.le_refl _
    · have smaller : c.size < (node l k).size := size_lt_of_mem_children child
      exact Nat.le_trans (ih c child inside) (Nat.le_of_lt smaller)

theorem subterms_antisymm {s t : Term ℓ} (first : s ∈ t.subterms) (second : t ∈ s.subterms) :
    s = t := by
  cases t with
  | node l k =>
    rcases mem_subterms_node.mp first with rfl | ⟨c, child, inside⟩
    · rfl
    · have smaller : c.size < (node l k).size := size_lt_of_mem_children child
      have below := size_le_of_mem_subterms inside
      have above := size_le_of_mem_subterms second
      omega

theorem uses_node (name : String) (l : ℓ) (k : Kind (Term ℓ)) :
    (node l k).uses name = usesAt name (k.map (uses name)) := by
  rw [uses, fold_node]

theorem uses_of_child {name : String} {l : ℓ} {k : Kind (Term ℓ)} {c : Term ℓ}
    (visible : hides name k = false) (child : c ∈ k.children) (used : c.uses name = true) :
    (node l k).uses name = true := by
  have some : (k.map (uses name)).children.any id = true := by
    rw [Kind.children_map, List.any_map]
    exact List.any_eq_true.mpr ⟨c, child, used⟩
  rw [uses_node]
  cases k <;> first
    | exact some
    | exact Bool.and_eq_true_iff.mpr ⟨congrArg not visible, some⟩
    | cases some

theorem breaksOut_node (l : ℓ) (k : Kind (Term ℓ)) :
    (node l k).breaksOut = breaksAt (k.map breaksOut) := by
  rw [breaksOut, fold_node]

end Term

end LocalScope
