namespace LocalScope

/-- What the placement of declarations may do. -/
structure Options where
  intoLoops : Bool := true
  markFinal : Bool := true
  foldInitializers : Bool := true
deriving DecidableEq, Repr

/-- Which passes run over a body, and how. Everything is on unless it is skipped by name. -/
structure Config where
  declareVariables : Bool := true
  options : Options := {}
deriving DecidableEq, Repr

namespace Config

/-- Names that stand for nothing are passed over. -/
def skip (c : Config) (name : String) : Config :=
  if name = "declare-variables" then { c with declareVariables := false }
  else if name = "pass-into-loops" then { c with options.intoLoops := false }
  else if name = "final-modifiers" then { c with options.markFinal := false }
  else if name = "fold-initializers" then { c with options.foldInitializers := false }
  else c

def ofSkipped (names : List String) : Config := names.foldl skip {}

end Config

end LocalScope
