import LocalScope.Placement.Gap

namespace LocalScope

/- The questions of the placement pass, asked of a node by its number. -/
namespace Arena

def uses (a : Arena) (id : NodeId) (name : String) : Except Error Bool :=
  return (← a.look (Tree.usesGap? name) id).uses name

def writeCount (a : Arena) (id : NodeId) (name : String) : Except Error Nat :=
  return (← a.whole id).writeCount name

def isIdentifier (a : Arena) (id : NodeId) (name : String) : Except Error Bool := do
  match ← a.kind id with
  | .identifier n => return n == name
  | _ => return false

def assignment? (a : Arena) (id : NodeId) : Except Error (Option NodeId) := do
  match ← a.kind id with
  | .expressionStatement expr =>
    match ← a.kind expr with
    | .assignment .. => return some expr
    | _ => return none
  | .assignment .. => return some id
  | _ => return none

def plainAssignment? (a : Arena) (id : NodeId) (name : String) :
    Except Error (Option (NodeId × NodeId)) := do
  match ← a.kind id with
  | .assignment .plain left right =>
    if ← a.isIdentifier left name then return some (left, right) else return none
  | _ => return none

def confines (a : Arena) (id : NodeId) (name : String) (intoLoops : Bool) : Except Error Bool :=
  return (← a.look (Tree.confinesGap? name intoLoops) id).confines name intoLoops

/-- Searches a block, asking `exposed` about what follows each use; without it the flow of the
block itself is walked. -/
def search (a : Arena) (exposed : Option (Range → Bool)) (name : String) (intoLoops : Bool)
    (block : NodeId) : Except Error Search := do
  let asked (t : Tree) : Range → Bool := exposed.getD (t.exposedFrom name)
  let met (t : Tree) : Range → Option Label :=
    if exposed.isSome then fun _ => none else t.rangeGap? name
  let tree ← a.look (fun t => Search.gap? a.next? (asked t) (met t) name intoLoops t) block
  return Search.inBlock a.next? (asked tree) name intoLoops tree

/-- The name that a declaration binds first. -/
def firstName? (a : Arena) (declaration : NodeId) : Except Error (Option String) := do
  match ← a.kind declaration with
  | .declaration _ (binding :: _) _ =>
    match ← a.kind binding with
    | .binding name _ => return some name
    | _ => return none
  | _ => return none

/-- Searches a block for the variable of a declaration, loops included. -/
def searchFor (a : Arena) (exposed : Option (Range → Bool)) (declaration block : NodeId) :
    Except Error (Option Search) := do
  match ← a.firstName? declaration with
  | some name => return some (← a.search exposed name true block)
  | none => return none

end Arena

/-- What is being asked about: a whole block, or a part of one. -/
structure Subject where
  root : NodeId
  range : Option Range := none
deriving DecidableEq, Repr

namespace Subject

def block (s : Subject) : NodeId :=
  match s.range with
  | none => s.root
  | some r => r.block

/-- The statements in question, given what the block unfolds to. -/
def statements (s : Subject) (block : Tree) : List Tree :=
  match s.range with
  | none => block.statements
  | some r => block.statementsFrom r.start

/-- The names among these that may be read before they are assigned. -/
def exposed (s : Subject) (a : Arena) (name : String) : Except Error (List String) := do
  let met (t : Tree) : Option Label := t.here? <|> (s.statements t).findSome? (Tree.walkGap? name)
  let flow := Flow.walkAll name .statement (s.statements (← a.look met s.block)) false
  return if flow.exposed then [name] else []

end Subject

end LocalScope
