import LocalScope.Arena.Basic

namespace LocalScope.Editing

/- Statements that take more than one node, built from the inside out. -/

def int (n : Int64) : Editing NodeId := add (.literal (.int n))

def identifier (name : String) (variableId : Option VariableId := none) : Editing NodeId :=
  add (.identifier name) { variableId }

def assign (target value : NodeId) : Editing NodeId := add (.assignment .plain target value)

def call (method : String) (args : List NodeId) : Editing NodeId :=
  add (.invocation none method args)

/-- `name = value;` -/
def assignStatement (name : String) (value : NodeId) : Editing NodeId := do
  let target ← identifier name
  let assignment ← assign target value
  add (.expressionStatement assignment)

/-- `method(args);` -/
def callStatement (method : String) (args : List NodeId) : Editing NodeId := do
  let invocation ← call method args
  add (.expressionStatement invocation)

/-- `ty name = init;` with one binding. -/
def declaration (ty : Ty) (name : String) (init : Option NodeId) (isFinal : Bool) :
    Editing NodeId := do
  let binding ← add (.binding name init)
  add (.declaration ty [binding] isFinal)

end LocalScope.Editing
