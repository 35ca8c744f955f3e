import LocalScope.Code.Id

namespace LocalScope

/-- Why a structural edit was refused. -/
inductive EditFault where
  | detachedAnchor (anchor : NodeId)
  | anchorNotListed (anchor parent : NodeId)
  | detachedRemoval (node : NodeId)
  | detachedReplacement (node : NodeId)
  | notAChild (node parent : NodeId)
  | notAnAssignment (node : NodeId)
  | refused (reason : String)
deriving DecidableEq, Repr

def EditFault.message : EditFault → String
  | detachedAnchor anchor => "insertion anchor " ++ anchor.text ++ " is detached"
  | anchorNotListed anchor parent =>
    "cannot insert before " ++ anchor.text ++ ": it is not held in a list of " ++ parent.text
  | detachedRemoval node => "cannot remove detached node " ++ node.text
  | detachedReplacement node => "cannot replace detached node " ++ node.text
  | notAChild node parent => node.text ++ " is not a child of " ++ parent.text
  | notAnAssignment node => node.text ++ " is not an assignment"
  | refused reason => reason

/-- Why a declaration statement cannot be taken out of its block. -/
inductive DeclarationFault where
  | bindingCount (statement : NodeId) (count : Nat)
  | notABinding (statement binding : NodeId)
  | initialized (name : String) (statement : NodeId)
deriving DecidableEq, Repr

def DeclarationFault.message : DeclarationFault → String
  | bindingCount statement count =>
    "declaration " ++ statement.text ++ " has " ++ toString count ++ " bindings"
  | notABinding statement binding =>
    "declaration " ++ statement.text ++ " binds a non-variable " ++ binding.text
  | initialized name statement =>
    "`" ++ name ++ "` in " ++ statement.text ++ " already has an initializer"

/- `missing` and `cyclic` are about the arena itself: a number without a row was looked at, or links
that lead back to a node above were followed without end. The other two are about the code in it. -/
inductive Error where
  | missing (node : NodeId)
  | cyclic (node : NodeId)
  | declaration (block : NodeId) (fault : DeclarationFault)
  | edit (fault : EditFault)
deriving DecidableEq, Repr

def Error.message : Error → String
  | missing node => node.text ++ " is not in the arena"
  | cyclic node => node.text ++ " is below itself"
  | declaration block fault =>
    "invariant violation in " ++ block.text ++ ": " ++ fault.message
  | edit fault => "malformed tree: " ++ fault.message

end LocalScope
