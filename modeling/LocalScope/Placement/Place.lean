import LocalScope.Placement.Edits
import LocalScope.Placement.Options
import LocalScope.Placement.Search
import LocalScope.Placement.Strip

namespace LocalScope

/-- What a node is asked for while a variable is placed: to take the declaration as a block, to
hand it on to its own blocks as a statement, or as a clause or section of one. -/
inductive Role where
  | receiver
  | statement
  | clause
deriving DecidableEq, Repr

namespace LocalVariable

def foldInto (v : LocalVariable) (assignment target : Tree) : Edit :=
  ⟨v.ty, v.name, target.label.note.variableId, .inPlaceOf assignment.id⟩

def insertBefore (v : LocalVariable) (point : Tree) : Edit :=
  ⟨v.ty, v.name, v.variableId, .before point.id⟩

variable (next? : NodeId → Option NodeId) (o : Options) (v : LocalVariable)

def headerFold? (s : Tree) : Option Edit :=
  if o.foldInitializers then (s.absorbableHeader? v.name).map fun (a, t) => v.foldInto a t
  else none

def pointFold? (s : Tree) : Option Edit :=
  if o.foldInitializers then (s.absorbable? v.name).map fun (a, t) => v.foldInto a t
  else none

def search (block : Tree) : Search :=
  Search.inBlock next? (block.exposedFrom v.name) v.name o.intoLoops block

/-- Where folding is off, a `for` header that writes the variable would be left without a
declaration if the declaration moved on. -/
def mayMove (block : Tree) : Bool :=
  o.foldInitializers || !block.statements.any fun s => (s.absorbableHeader? v.name).isSome

/- In each block a variable is either declared before its first use, perhaps by folding, or it is
handed on to every inner block separately. A block without uses needs no declaration. -/
def place : Tree → Role → List Edit :=
  Term.compute fun l k role =>
    match role with
    | .receiver =>
      let block : Tree := .node l (k.map Prod.fst)
      let found := v.search next? o block
      match found.point with
      | none => []
      | some point =>
        if found.canMove && v.mayMove o block then
          k.statements.flatMap fun (s, edits) =>
            match v.headerFold? o s with
            | some e => [e]
            | none => edits .statement
        else [(v.pointFold? o point).getD (v.insertBefore point)]
    | .statement =>
      k.children.flatMap fun (part, edits) =>
        if part.isBlock then edits .receiver
        else if part.kind.holdsBlocks then edits .clause
        else []
    | .clause =>
      k.children.flatMap fun (part, edits) => if part.isBlock then edits .receiver else []

end LocalVariable

end LocalScope
