import LocalScope.Placement.Plan

namespace LocalScope

/-- The placement pass, with the outcome of its last successful run. -/
structure Pass where
  options : Options := {}
  lastStats : Stats := {}
deriving DecidableEq, Repr

namespace Pass

def name : String := "declare-variables"

/-- Runs over an arena. A failed run leaves the statistics as they were. -/
def run (p : Pass) (root : NodeId) (a : Arena) : Pass × EStateM.Result Error Arena Unit :=
  match Editing.placeDeclarations p.options root a with
  | .ok stats a => ({ p with lastStats := stats }, .ok () a)
  | .error e a => (p, .error e a)

end Pass

/-- A named change of method bodies. -/
structure Transform where
  name : String
  run : NodeId → Editing Unit

def Transform.declareVariables (o : Options) : Transform where
  name := Pass.name
  run root := do
    let _ ← Editing.placeDeclarations o root

/-- Transforms in order; the first failure ends the run. -/
def Transform.runAll (transforms : List Transform) (root : NodeId) : Editing Unit :=
  transforms.forM fun t => t.run root

def Config.pipeline (c : Config) : List Transform :=
  if c.declareVariables then [.declareVariables c.options] else []

end LocalScope
