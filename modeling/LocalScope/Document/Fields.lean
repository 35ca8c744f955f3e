import LocalScope.Document.Mismatch

namespace LocalScope

/- Reading the members of an object. Of several faults the one that stands first in the text is
reported; a missing field comes after all of them, and of two missing fields the one that was asked
for first. So a failed reading carries the position of its fault. -/

abbrev Reading (α : Type) := Except Mismatch α

structure Located where
  position : Nat
  fault : Mismatch

/-- A computation on members whose values are of type `ρ`. -/
def Fields (ρ α : Type) := List (String × ρ) → Except Located α

namespace Fields

variable {ρ α β : Type}

def earlier (a b : Located) : Located := if b.position < a.position then b else a

def done (x : α) : Fields ρ α := fun _ => .ok x

/-- Both parts are read, whatever becomes of the first. -/
def both (f : Fields ρ (α → β)) (x : Fields ρ α) : Fields ρ β := fun members =>
  match f members, x members with
  | .ok f, .ok x => .ok (f x)
  | .ok _, .error b => .error b
  | .error a, .ok _ => .error a
  | .error a, .error b => .error (earlier a b)

instance : Applicative (Fields ρ) where
  pure := done
  seq f x := both f (x ())

def positions (name : String) (members : List (String × ρ)) : List (Nat × ρ) :=
  members.zipIdx.filterMap fun ((n, v), i) => if n = name then some (i, v) else none

def field (name : String) (read : ρ → Reading α) (absent : Nat → Except Located α) :
    Fields ρ α := fun members =>
  match positions name members with
  | [] => absent members.length
  | (i, v) :: others =>
    match read v, others with
    | .error e, _ => .error ⟨i, e⟩
    | .ok x, [] => .ok x
    | .ok _, (j, _) :: _ => .error ⟨j, .duplicateField name⟩

def required (name : String) (read : ρ → Reading α) : Fields ρ α :=
  field name read fun position => .error ⟨position, .missingField name⟩

def withDefault (name : String) (default : α) (read : ρ → Reading α) : Fields ρ α :=
  field name read fun _ => .ok default

def run (f : Fields ρ α) (members : List (String × ρ)) : Reading α :=
  match f members with
  | .ok x => .ok x
  | .error e => .error e.fault

end Fields

end LocalScope
