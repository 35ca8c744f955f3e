import LocalScope.Arena.View
import LocalScope.Flow

namespace LocalScope

/-- A statement of a block and all that follow it there. -/
structure Range where
  start : NodeId
  block : NodeId
deriving DecidableEq, Repr

namespace Tree

/-- The statements of a block from one of them on; none when it is not there. -/
def statementsFrom (block : Tree) (start : NodeId) : List Tree :=
  block.statements.dropWhile fun s => s.id != start

/-- Whether the rest of a block may read a variable that is unassigned where the rest starts. -/
def exposedFrom (name : String) (block : Tree) (r : Range) : Bool :=
  (Flow.walkAll name .statement (block.statementsFrom r.start) false).exposed

end Tree

namespace Term

variable {ℓ : Type}

/-- The only entry of a `for` header's initializers. -/
def onlyInit? (t : Term ℓ) : Option (Term ℓ) :=
  match t.kind with
  | .forLoop [only] _ _ _ => some only
  | _ => none

/-- The value a `for` header starts the variable with. -/
def headerValue? (name : String) (t : Term ℓ) : Option (Term ℓ) := do
  let (_, value) ← (← (← t.onlyInit?).assignment?).plainAssignment? name
  return value

/-- An assignment that a declaration can absorb, with its target: a plain one whose value does not
use the variable. -/
def absorbable? (name : String) (t : Term ℓ) : Option (Term ℓ × Term ℓ) := do
  let assignment ← t.assignment?
  let (target, value) ← assignment.plainAssignment? name
  if value.uses name then none else some (assignment, target)

def absorbableHeader? (name : String) (t : Term ℓ) : Option (Term ℓ × Term ℓ) := do
  (← t.onlyInit?).absorbable? name

/-- Whether a part of a statement leaves the variable to the blocks in it. -/
def leavesToBlocks (name : String) (part : Term ℓ) : Bool :=
  part.isBlock || !part.uses name ||
    (part.kind.holdsBlocks && part.children.all fun inner => inner.isBlock || !inner.uses name)

/-- Whether every use of the variable in a statement is inside a block of it, or in a `for` that can
declare the variable itself. -/
def confines (name : String) (intoLoops : Bool) (t : Term ℓ) : Bool :=
  if !intoLoops && t.kind.isLoop then false
  else match t.headerValue? name with
    | some value => !value.uses name
    | none => t.children.all (leavesToBlocks name)

/-- The blocks of a statement that a declaration can move into. -/
def receivers (t : Term ℓ) : List (Term ℓ) :=
  t.children.flatMap fun part =>
    if part.isBlock then [part]
    else if part.kind.holdsBlocks then part.children.filter isBlock
    else []

end Term

/-- The first statement that uses a variable, whether the declaration can move on into blocks, and
the ranges that were looked at to tell. -/
structure Search where
  point : Option Tree
  canMove : Bool
  consulted : List Range

namespace Search

/- Each statement that uses the variable has to confine it, and what comes after the statement must
not read the variable unassigned: a value would be lost on the way from one block to another. -/
def through (next? : NodeId → Option NodeId) (exposed : Range → Bool) (name : String)
    (intoLoops : Bool) (block : NodeId) (point : Option Tree) : List Tree → Search
  | [] => ⟨point, true, []⟩
  | s :: rest =>
    if s.uses name then
      let point := point.or (some s)
      if s.confines name intoLoops then
        match next? s.id with
        | none => through next? exposed name intoLoops block point rest
        | some start =>
          let range : Range := ⟨start, block⟩
          if exposed range then ⟨point, false, [range]⟩
          else
            let found := through next? exposed name intoLoops block point rest
            { found with consulted := range :: found.consulted }
      else ⟨point, false, []⟩
    else through next? exposed name intoLoops block point rest

/-- Where a block has to declare a variable. -/
def inBlock (next? : NodeId → Option NodeId) (exposed : Range → Bool) (name : String)
    (intoLoops : Bool) (block : Tree) : Search :=
  through next? exposed name intoLoops block.id none block.statements

end Search

end LocalScope
