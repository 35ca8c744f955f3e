import LocalScope.Proofs.Stripping
import LocalScope.Proofs.Walking

namespace LocalScope

namespace Kind

variable {α β : Type}

def isStatement : Kind α → Bool
  | .block .. | .declaration .. | .expressionStatement .. | .ifElse .. | .whileLoop ..
  | .doWhile .. | .forLoop .. | .forEach .. | .tryCatch .. | .switch .. | .synchronized ..
  | .ret .. | .throw .. | .brk | .cont | .empty => true
  | _ => false

/- Nothing at all can stand in either position. -/
def isExpression : Kind α → Bool
  | .empty | .identifier .. | .literal .. | .assignment .. | .binary .. | .unary ..
  | .invocation .. | .memberReference .. | .index .. | .conditional .. | .cast .. | .creation ..
  | .this | .super => true
  | _ => false

def isJump : Kind α → Bool
  | .ret .. | .throw .. | .brk | .cont => true
  | _ => false

end Kind

namespace Place

variable {α β : Type}

/-- What may stand in a place. The entries of a `for` header are expressions, with or without a
statement around them, or declarations. -/
def admits : Place → Kind α → Bool
  | statement, k => k.isStatement
  | expression, k => k.isExpression
  | header, .declaration .. | header, .expressionStatement .. => true
  | header, k => k.isExpression
  | binding, .binding .. => true
  | catchClause, .catchClause .. => true
  | switchSection, .switchSection .. => true
  | _, _ => false

@[simp] theorem admits_map (place : Place) (f : α → β) (k : Kind α) :
    place.admits (k.map f) = place.admits k := by
  cases place <;> cases k <;> rfl

end Place

namespace Term

variable {ℓ : Type}

/-- Whether all below stands in a place that it may stand in. -/
def wellPlaced : Term ℓ → Place → Bool :=
  fold fun _ k place => place.admits k && k.places.all fun (inner, ok) => ok inner

theorem wellPlaced_node (l : ℓ) (k : Kind (Term ℓ)) (place : Place) :
    (node l k).wellPlaced place =
      (place.admits k && k.places.all fun (inner, c) => c.wellPlaced inner) := by
  rw [wellPlaced, fold_node, ← wellPlaced, Place.admits_map, Kind.places_map, List.all_map]
  rfl

theorem wellPlaced_iff {l : ℓ} {k : Kind (Term ℓ)} {place : Place} :
    (node l k).wellPlaced place = true ↔
      place.admits k = true ∧ ∀ part ∈ k.places, part.2.wellPlaced part.1 = true := by
  rw [wellPlaced_node, Bool.and_eq_true, List.all_eq_true]

theorem place_of_child {k : Kind (Term ℓ)} {c : Term ℓ} (child : c ∈ k.children) :
    ∃ place, (place, c) ∈ k.places := by
  rw [← Kind.places_children k, List.mem_map] at child
  obtain ⟨⟨place, c'⟩, listed, rfl⟩ := child
  exact ⟨place, listed⟩

theorem child_of_place {k : Kind (Term ℓ)} {place : Place} {c : Term ℓ}
    (listed : (place, c) ∈ k.places) : c ∈ k.children := by
  rw [← Kind.places_children]
  exact List.mem_map_of_mem listed

theorem wellPlaced_below {t n : Term ℓ} {place : Place} (placed : t.wellPlaced place = true)
    (member : n ∈ t.subterms) : ∃ inner, n.wellPlaced inner = true := by
  induction t using Term.inductChildren generalizing place with
  | step l k ih =>
    rcases mem_subterms_node.mp member with rfl | ⟨c, child, below⟩
    · exact ⟨place, placed⟩
    · obtain ⟨inner, part⟩ := place_of_child child
      exact ih c child ((wellPlaced_iff.mp placed).2 _ part) below

theorem wellPlaced_expression {l : ℓ} {k : Kind (Term ℓ)} {c : Term ℓ}
    (placed : (node l k).wellPlaced .expression = true) (child : c ∈ k.children) :
    c.wellPlaced .expression = true := by
  obtain ⟨admitted, parts⟩ := wellPlaced_iff.mp placed
  have places : k.places = k.children.map (.expression, ·) := by
    cases k <;> first | rfl | cases admitted
  rw [places] at parts
  exact parts (.expression, c) (List.mem_map_of_mem child)

theorem places_plain {k : Kind (Term ℓ)} {place : Place} (admitted : place.admits k = true)
    (plain : place ≠ .statement ∧ place ≠ .catchClause ∧ place ≠ .switchSection) :
    ∀ part ∈ k.places, part.1 = .expression ∨ part.1 = .binding := by
  cases place <;> simp at plain <;> cases k <;> first
    | cases admitted; done
    | simp [Kind.places]

theorem visible_plain (name : String) {t n : Term ℓ} {place : Place}
    (placed : t.wellPlaced place = true)
    (plain : place ≠ .statement ∧ place ≠ .catchClause ∧ place ≠ .switchSection)
    (member : n ∈ t.subterms) : hides name n.kind = false ∧ n.kind.isJump = false := by
  induction t using Term.inductChildren generalizing place with
  | step l k ih =>
    obtain ⟨admitted, parts⟩ := wellPlaced_iff.mp placed
    rcases mem_subterms_node.mp member with rfl | ⟨c, child, below⟩
    · cases place <;> simp at plain <;> cases k <;> first
        | exact ⟨rfl, rfl⟩
        | cases admitted
    · obtain ⟨inner, listed⟩ := place_of_child child
      refine ih c child (parts _ listed) ?_ below
      rcases places_plain admitted plain _ listed with rfl | rfl <;> simp

theorem wellPlaced_block {t : Term ℓ} {place : Place} (placed : t.wellPlaced place = true)
    (block : t.isBlock = true) : t.wellPlaced .statement = true := by
  obtain ⟨l, k⟩ := t
  cases k with
  | block ss =>
    cases place with
    | statement => exact placed
    | _ => cases (wellPlaced_iff.mp placed).1
  | _ => cases block

theorem wellPlaced_strip {t : Term ℓ} {place : Place} (placed : t.wellPlaced place = true) :
    t.strip.wellPlaced place = true := by
  induction t using Term.inductChildren generalizing place with
  | step l k ih =>
    obtain ⟨admitted, parts⟩ := wellPlaced_iff.mp placed
    have each (part : Place × Term ℓ) (listed : part ∈ k.places) :
        part.2.strip.wellPlaced part.1 = true :=
      ih _ (child_of_place listed) (parts part listed)
    rw [strip_withoutDeclarations]
    apply wellPlaced_iff.mpr
    cases k with
    | block ss =>
      refine ⟨by cases place <;> exact admitted, ?_⟩
      rintro ⟨inner, c⟩ listed
      simp only [withoutDeclarations, Kind.map, Kind.places, List.map_map, List.mem_map,
        List.mem_filter, Function.comp_apply, Prod.mk.injEq] at listed
      obtain ⟨s, ⟨kept, -⟩, rfl, rfl⟩ := listed
      exact each (.statement, s) (List.mem_map_of_mem kept)
    | _ =>
      refine ⟨by simpa [withoutDeclarations] using admitted, ?_⟩
      simp only [withoutDeclarations, Kind.places_map]
      intro part listed
      obtain ⟨⟨inner, c⟩, known, rfl⟩ := List.mem_map.mp listed
      exact each (inner, c) known

end Term

end LocalScope
