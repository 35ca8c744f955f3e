import LocalScope.Placement.Place

namespace LocalScope

/- Beside each question about a tree stands here the first gap that the question meets, if it meets
one. Questions look at nodes in order and no further than they must, so these follow them step by
step. A tree without gaps needs none of this. -/

/-- The elements up to the first that passes a test, that one included. -/
def throughFirst {α : Type} (test : α → Bool) : List α → List α
  | [] => []
  | x :: xs => if test x then [x] else x :: throughFirst test xs

namespace Tree

/-- The gap that stands in a node's place. -/
def here? (t : Tree) : Option Label := t.label.gap?

/-- Whether the variable is used, and the gap met on the way: children are asked in order until one
uses it. -/
def usesOrGap (name : String) : Tree → Bool × Option Label :=
  Term.fold fun l k =>
    (Term.usesAt name (k.map Prod.fst),
     l.gap? <|> if Term.hides name k then none
      else (throughFirst Prod.fst k.children).findSome? Prod.snd)

def usesGap? (name : String) (t : Tree) : Option Label := (t.usesOrGap name).2

/-- The same for a `break` that leaves a body; here the last child is asked first. -/
def breaksOrGap : Tree → Bool × Option Label :=
  Term.fold fun l k =>
    (Term.breaksAt (k.map Prod.fst),
     l.gap? <|> if Term.catchesBreaks k then none
      else (throughFirst Prod.fst k.children.reverse).findSome? Prod.snd)

def breaksGap? (t : Tree) : Option Label := t.breaksOrGap.2

/-- What a walk meets at a node in a statement's place, and what it meets in an expression's place,
where it goes everywhere. -/
structure WalkGaps where
  asStatement : Option Label
  asExpression : Option Label

def walkGaps (name : String) : Tree → WalkGaps :=
  Term.compute fun l k =>
    let ex (part : Tree × WalkGaps) : Option Label := part.2.asExpression
    let st (part : Tree × WalkGaps) : Option Label := part.2.asStatement
    let everywhere := l.gap? <|> k.children.findSome? ex
    { asExpression := everywhere
      asStatement := l.gap? <|>
        match k with
        | .block ss => ss.findSome? st
        | .declaration _ bindings _ =>
          bindings.findSome? fun (b, gaps) =>
            match b.kind with
            | .binding .. => gaps.asExpression
            | _ => here? b
        | .expressionStatement expr => ex expr
        | .ifElse cond thenBranch elseBranch =>
          ex cond <|> st thenBranch <|> elseBranch.bind st
        | .whileLoop cond body => ex cond <|> st body
        | .doWhile body cond => st body <|> ex cond <|> breaksGap? body.1
        | .forLoop init cond update body =>
          init.findSome? st <|> cond.bind ex <|> st body <|> update.findSome? st
        | .forEach _ n iterable body => ex iterable <|> if n == name then none else st body
        | .tryCatch body catches finallyBranch =>
          st body <|> catches.findSome? st <|> finallyBranch.bind st
        | .catchClause _ n body => if n == name then none else st body
        | .switch value sections => ex value <|> sections.findSome? st
        | .switchSection labels body => labels.findSome? ex <|> st body
        | .synchronized lock body => ex lock <|> st body
        | _ => everywhere }

def walkGap? (name : String) (t : Tree) : Option Label := (t.walkGaps name).asStatement

def rangeGap? (name : String) (block : Tree) (r : Range) : Option Label :=
  (block.statementsFrom r.start).findSome? (walkGap? name)

def assignmentGap? (t : Tree) : Option Label :=
  t.here? <|>
    match t.kind with
    | .expressionStatement expr => here? expr
    | _ => none

def plainAssignmentGap? (t : Tree) : Option Label :=
  t.here? <|>
    match t.kind with
    | .assignment .plain left _ => here? left
    | _ => none

def absorbableGap? (name : String) (t : Tree) : Option Label :=
  t.assignmentGap? <|> do
    let assignment ← t.assignment?
    plainAssignmentGap? assignment <|> do
      let (_, value) ← assignment.plainAssignment? name
      usesGap? name value

def absorbableHeaderGap? (name : String) (t : Tree) : Option Label :=
  t.here? <|> do absorbableGap? name (← t.onlyInit?)

def headerValueGap? (t : Tree) : Option Label := do
  let init ← t.onlyInit?
  assignmentGap? init <|> do plainAssignmentGap? (← init.assignment?)

/-- A part that is a block is not looked into. -/
def unlessBlockGap? (name : String) (part : Tree) : Option Label :=
  part.here? <|> if part.isBlock then none else part.usesGap? name

def leavesToBlocksGap? (name : String) (part : Tree) : Option Label :=
  part.unlessBlockGap? name <|>
    if !part.isBlock && part.uses name && part.kind.holdsBlocks then
      (throughFirst (fun inner => !inner.isBlock && inner.uses name) part.children).findSome?
        (unlessBlockGap? name)
    else none

def confinesGap? (name : String) (intoLoops : Bool) (t : Tree) : Option Label :=
  t.here? <|>
    if !intoLoops && t.kind.isLoop then none
    else
      t.headerValueGap? <|>
        match t.headerValue? name with
        | some value => usesGap? name value
        | none =>
          (throughFirst (fun part => !part.leavesToBlocks name) t.children).findSome?
            (leavesToBlocksGap? name)

end Tree

/-- What a search in a block meets, given what it meets in the ranges it asks about. -/
def Search.gap? (next? : NodeId → Option NodeId) (exposed : Range → Bool)
    (rangeGap? : Range → Option Label) (name : String) (intoLoops : Bool) (block : Tree) :
    Option Label :=
  let after? (s : Tree) : Option Range := (next? s.id).map fun start => ⟨start, block.id⟩
  let ends (s : Tree) : Bool :=
    s.uses name && !(s.confines name intoLoops && !(after? s).any exposed)
  block.here? <|>
    (throughFirst ends block.statements).findSome? fun s =>
      s.usesGap? name <|>
        if s.uses name then
          s.confinesGap? name intoLoops <|>
            if s.confines name intoLoops then (after? s).bind rangeGap? else none
        else none

namespace LocalVariable

variable (next? : NodeId → Option NodeId) (o : Options) (v : LocalVariable)

def searchGap? (block : Tree) : Option Label :=
  Search.gap? next? (block.exposedFrom v.name) (block.rangeGap? v.name) v.name o.intoLoops block

/-- Headers are looked through only if a header could forbid the move. -/
def mayMoveGap? (block : Tree) : Option Label :=
  if o.foldInitializers then none
  else
    (throughFirst (fun s => (s.absorbableHeader? v.name).isSome) block.statements).findSome?
      (Tree.absorbableHeaderGap? v.name)

def headerFoldGap? (s : Tree) : Option Label :=
  if o.foldInitializers then s.absorbableHeaderGap? v.name else none

def pointFoldGap? (s : Tree) : Option Label :=
  if o.foldInitializers then s.absorbableGap? v.name else none

def placeGap? : Tree → Role → Option Label :=
  Term.compute fun l k role =>
    match role with
    | .receiver =>
      let block : Tree := .node l (k.map Prod.fst)
      let found := v.search next? o block
      v.searchGap? next? o block <|>
        match found.point with
        | none => none
        | some point =>
          if found.canMove then
            v.mayMoveGap? o block <|>
              if v.mayMove o block then
                k.statements.findSome? fun (s, below) =>
                  v.headerFoldGap? o s <|>
                    if (v.headerFold? o s).isSome then none else below .statement
              else v.pointFoldGap? o point
          else v.pointFoldGap? o point
    | .statement =>
      l.gap? <|> k.children.findSome? fun (part, below) =>
        part.label.gap? <|>
          if part.isBlock then below .receiver
          else if part.kind.holdsBlocks then below .clause
          else none
    | .clause =>
      k.children.findSome? fun (part, below) =>
        part.label.gap? <|> if part.isBlock then below .receiver else none

end LocalVariable

end LocalScope
