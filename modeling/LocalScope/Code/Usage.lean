import LocalScope.Code.Term

namespace LocalScope.Term

/- How code uses a local variable, by name. -/

variable {ℓ : Type}

def isBlock (t : Term ℓ) : Bool := t.kind.isBlock

def isIdentifier (name : String) (t : Term ℓ) : Bool :=
  match t.kind with
  | .identifier n => n == name
  | _ => false

/-- A for-each or catch clause that binds the name hides all it holds: what occurs there is another
variable. -/
def hides {α : Type} (name : String) : Kind α → Bool
  | .forEach _ n _ _ => n == name
  | .catchClause _ n _ => n == name
  | _ => false

/-- Whether a node uses the variable, when it is known which of its children do. -/
def usesAt (name : String) : Kind Bool → Bool
  | .identifier n => n == name
  | k => !hides name k && k.children.any id

/-- Whether an identifier of this name occurs, unless it is hidden. -/
def uses (name : String) : Term ℓ → Bool := fold fun _ k => usesAt name k

/-- Whether this node itself writes the variable: an assignment of any sort, or an increment. -/
def writes (name : String) (t : Term ℓ) : Bool :=
  match t.kind with
  | .assignment _ left _ => left.isIdentifier name
  | .unary op operand => op.isIncrement && operand.isIdentifier name
  | _ => false

def writeCount (name : String) (t : Term ℓ) : Nat := t.subterms.countP (writes name)

/-- The assignment in a statement's place, bare or as an expression statement. -/
def assignment? (t : Term ℓ) : Option (Term ℓ) :=
  match t.kind with
  | .expressionStatement expr =>
    match expr.kind with
    | .assignment .. => some expr
    | _ => none
  | .assignment .. => some t
  | _ => none

/-- Target and value of a plain assignment to this variable. -/
def plainAssignment? (name : String) (t : Term ℓ) : Option (Term ℓ × Term ℓ) :=
  match t.kind with
  | .assignment .plain left right => if left.isIdentifier name then some (left, right) else none
  | _ => none

/-- A `break` below such a node leaves that node only. -/
def catchesBreaks {α : Type} (k : Kind α) : Bool :=
  match k with
  | .switch .. => true
  | k => k.isLoop

/-- Whether a `break` leaves a node, when it is known which of its children one leaves. -/
def breaksAt : Kind Bool → Bool
  | .brk => true
  | k => !catchesBreaks k && k.children.any id

/-- Whether a `break` below leaves the loop that this is the body of. -/
def breaksOut : Term ℓ → Bool := fold fun _ k => breaksAt k

end LocalScope.Term
