import LocalScope.Flow
import LocalScope.Proofs.Subterms

/-! The flow walk as a function of what it meets: which part of a node is walked in which position,
and that the walk of a node depends on the walks of its parts only. -/
namespace LocalScope

/-- What stands in a place of a node, where code is as the grammar has it. -/
inductive Place where
  | statement
  | expression
  | header
  | binding
  | catchClause
  | switchSection
deriving DecidableEq, Repr

namespace Place

def position : Place → Position
  | expression | binding => .expression
  | statement | header | catchClause | switchSection => .statement

end Place

namespace Kind

variable {α β : Type}

def places : Kind α → List (Place × α)
  | .block ss => ss.map (.statement, ·)
  | .declaration _ bs _ => bs.map (.binding, ·)
  | .ifElse cond thenBranch elseBranch =>
    (.expression, cond) :: (.statement, thenBranch) :: elseBranch.toList.map (.statement, ·)
  | .whileLoop cond body => [(.expression, cond), (.statement, body)]
  | .doWhile body cond => [(.statement, body), (.expression, cond)]
  | .forLoop init cond update body =>
    init.map (.header, ·) ++ cond.toList.map (.expression, ·) ++ update.map (.header, ·) ++
      [(.statement, body)]
  | .forEach _ _ iterable body => [(.expression, iterable), (.statement, body)]
  | .tryCatch body catches finallyBranch =>
    (.statement, body) :: catches.map (.catchClause, ·) ++ finallyBranch.toList.map (.statement, ·)
  | .catchClause _ _ body => [(.statement, body)]
  | .switch value sections => (.expression, value) :: sections.map (.switchSection, ·)
  | .switchSection labels body => labels.map (.expression, ·) ++ [(.statement, body)]
  | .synchronized lock body => [(.expression, lock), (.statement, body)]
  | k => k.children.map (.expression, ·)

theorem places_children (k : Kind α) : k.places.map Prod.snd = k.children := by
  cases k <;> simp [places, children, slots, Slot.children, Function.comp_def]

theorem places_map (f : α → β) (k : Kind α) :
    (k.map f).places = k.places.map fun (p, c) => (p, f c) := by
  cases k <;>
    simp [places, map, children, slots, Slot.children, Function.comp_def, Option.toList_map]

/-- The children with the positions that a walk visits them in. -/
def parts (k : Kind α) : Position → List (Position × α)
  | .statement => k.places.map fun (p, c) => (p.position, c)
  | .expression => k.children.map (.expression, ·)

end Kind

namespace Flow

variable {ℓ ℓ' : Type} {name : String}

section laws

variable (f : Flow) (s : Bool)

@[simp] theorem idle_assigned : (idle s).assigned = s := rfl

@[simp] theorem idle_exposed : (idle s).exposed = false := rfl

theorem idle_andThen (g : Bool → Flow) : (idle s).andThen g = g s := by
  simp [andThen, idle]

theorem andThen_idle : f.andThen idle = f := by
  simp [andThen, idle]

theorem andThen_assoc (g h : Bool → Flow) :
    (f.andThen g).andThen h = f.andThen fun s => (g s).andThen h := by
  simp [andThen, Bool.or_assoc]

end laws

/- What the walks of lists do with the first element. The equations of the definitions themselves
hold the whole walk and are opened only where a node is looked at kind by kind. -/
section lists

variable (p : Position) (l : ℓ) (t : Term ℓ) (ts : List (Term ℓ)) (s : Bool)

theorem walkAll_cons :
    walkAll name p (t :: ts) s = (walk name p t s).andThen (walkAll name p ts) := rfl

theorem walkEach_cons :
    walkEach name p (t :: ts) s = walk name p t s :: walkEach name p ts s := rfl

theorem walkBindings_nil : walkBindings name ([] : List (Term ℓ)) = idle := rfl

theorem walkBindings_some (x : String) :
    walkBindings name (.node l (.binding x (some t)) :: ts) s =
      (if x == name then (walk name .expression t s).resume true
        else walk name .expression t s).andThen (walkBindings name ts) := rfl

end lists

theorem walkAll_append (p : Position) (ts us : List (Term ℓ)) (s : Bool) :
    walkAll name p (ts ++ us) s = (walkAll name p ts s).andThen (walkAll name p us) := by
  induction ts generalizing s with
  | nil => exact (idle_andThen s _).symm
  | cons t ts ih => simp only [List.cons_append, walkAll_cons, andThen_assoc, funext ih]

theorem walkBindings_cons (b : Term ℓ) (bs : List (Term ℓ)) (s : Bool) :
    walkBindings name (b :: bs) s = (walkBindings name [b] s).andThen (walkBindings name bs) := by
  cases b with
  | node l k =>
    cases k with
    | binding x init =>
      cases init with
      | none => exact (idle_andThen s _).symm
      | some value => rw [walkBindings_some, walkBindings_some, walkBindings_nil, andThen_idle]
    | _ => exact (idle_andThen s _).symm

/-- Terms that a walk of the nodes around them cannot tell apart, in a position. -/
structure Alike (name : String) (p : Position) (t : Term ℓ) (t' : Term ℓ') : Prop where
  walk : ∀ s, walk name p t' s = walk name p t s
  target : t'.isIdentifier name = t.isIdentifier name
  breaks : t'.breaksOut = t.breaksOut
  bound : ∀ s, walkBindings name [t'] s = walkBindings name [t] s

section congruence

variable {f : Term ℓ → Term ℓ'} {p : Position} {ts : List (Term ℓ)}

theorem walkAll_map (alike : ∀ t ∈ ts, Alike name p t (f t)) :
    walkAll name p (ts.map f) = walkAll name p ts := by
  induction ts with
  | nil => rfl
  | cons t ts ih =>
    funext s
    have rest := ih fun r later => alike r (by simp [later])
    rw [List.map_cons, walkAll_cons, walkAll_cons, (alike t (by simp)).walk, rest]

theorem walkEach_map (alike : ∀ t ∈ ts, Alike name p t (f t)) :
    walkEach name p (ts.map f) = walkEach name p ts := by
  induction ts with
  | nil => rfl
  | cons t ts ih =>
    funext s
    have rest := ih fun r later => alike r (by simp [later])
    rw [List.map_cons, walkEach_cons, walkEach_cons, (alike t (by simp)).walk, rest]

theorem walkOption_map {t : Option (Term ℓ)} (alike : ∀ r ∈ t, Alike name p r (f r)) :
    walkOption name p (t.map f) = walkOption name p t := by
  cases t with
  | none => rfl
  | some t =>
    funext s
    exact (alike t (by simp)).walk s

theorem walkBindings_map (alike : ∀ t ∈ ts, Alike name p t (f t)) :
    walkBindings name (ts.map f) = walkBindings name ts := by
  induction ts with
  | nil => rfl
  | cons t ts ih =>
    funext s
    have rest := ih fun r later => alike r (by simp [later])
    rw [List.map_cons, walkBindings_cons, walkBindings_cons t, (alike t (by simp)).bound, rest]

theorem walk_map (l : ℓ) (l' : ℓ') (k : Kind (Term ℓ))
    (alike : ∀ part ∈ k.parts p, Alike name part.1 part.2 (f part.2)) :
    walk name p (.node l' (k.map f)) = walk name p (.node l k) := by
  have one {q : Position} {t : Term ℓ} (h : Alike name q t (f t)) :
      walk name q (f t) = walk name q t := funext h.walk
  funext s
  cases k
  -- The kinds where more is looked at than the walks of the parts.
  case tryCatch body catches finallyBranch =>
    cases p <;> cases finallyBranch <;>
      simp [Kind.parts, Kind.places, Place.position, Kind.children, Kind.slots, Slot.children,
        or_imp, forall_and] at alike <;>
      simp +contextual [walk, Kind.map, walkAll_map, walkEach_map, walkOption, one, alike]
  case assignment op left right =>
    have target : (f left).isIdentifier name = left.isIdentifier name := by
      cases p <;> exact (alike (.expression, left) (by simp [Kind.parts, Kind.places,
        Place.position, Kind.children, Kind.slots, Slot.children])).target
    cases p <;>
      simp [Kind.parts, Kind.places, Place.position, Kind.children, Kind.slots, Slot.children]
        at alike <;>
      simp [walk, Kind.map, one, alike, target]
  case unary op operand =>
    have target : (f operand).isIdentifier name = operand.isIdentifier name := by
      cases p <;> exact (alike (.expression, operand) (by simp [Kind.parts, Kind.places,
        Place.position, Kind.children, Kind.slots, Slot.children])).target
    cases p <;>
      simp [Kind.parts, Kind.places, Place.position, Kind.children, Kind.slots, Slot.children]
        at alike <;>
      simp [walk, Kind.map, one, alike, target]
  all_goals
    cases p <;>
      simp [Kind.parts, Kind.places, Place.position, Kind.children, Kind.slots, Slot.children,
        or_imp, forall_and] at alike
  case declaration.statement => simpa [walk, Kind.map] using congrFun (walkBindings_map alike) s
  case doWhile.statement => simp [walk, Kind.map, one, alike, alike.1.breaks]
  all_goals
    simp +contextual [walk, Kind.map, walkAll_map, walkEach_map, walkOption_map, one, alike]

theorem parts_children (k : Kind (Term ℓ)) (q : Position) :
    (k.parts q).map Prod.snd = k.children := by
  cases q
  · rw [Kind.parts, List.map_map, ← Kind.places_children]
    rfl
  · simp [Kind.parts, Function.comp_def]

theorem Alike.node (l : ℓ) (l' : ℓ') (k : Kind (Term ℓ))
    (alike : ∀ part ∈ k.parts p, Alike name part.1 part.2 (f part.2)) :
    Alike name p (.node l k) (.node l' (k.map f)) where
  walk s := congrFun (walk_map l l' k alike) s
  target := by cases k <;> rfl
  breaks := by
    rw [Term.breaksOut_node, Term.breaksOut_node, Kind.map_map]
    congr 1
    apply Kind.map_congr
    intro c child
    rw [← parts_children k p, List.mem_map] at child
    obtain ⟨part, member, rfl⟩ := child
    exact (alike part member).breaks
  bound s := by
    cases k with
    | binding x init =>
      cases init with
      | none => rfl
      | some value =>
        have inside : (Position.expression, value) ∈ (Kind.binding x (some value)).parts p := by
          cases p <;> simp [Kind.parts, Kind.places, Place.position, Kind.children, Kind.slots,
            Slot.children]
        rw [Kind.map, Option.map_some, walkBindings_some, walkBindings_some, (alike _ inside).walk]
        rfl
    | _ => rfl

end congruence

end Flow

end LocalScope
