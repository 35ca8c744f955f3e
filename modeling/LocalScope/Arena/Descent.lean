import LocalScope.Arena.Basic

namespace LocalScope

/-- What has been listed from below a node, last one first, and what is still to be visited. -/
structure Descent where
  listed : List NodeId
  stack : List NodeId
deriving DecidableEq, Repr

def Descent.start (id : NodeId) : Descent := ⟨[], [id]⟩

namespace Arena

/- Listing what is below a node takes a stack and no recursion. The node on top is listed, and its
children are put where it was, the first of them on top. With links that go round in a circle this
goes on forever; a number without a row ends it. -/
def turn (a : Arena) (d : Descent) : Except Error (Descent ⊕ List NodeId) :=
  match d.stack with
  | [] => return .inr d.listed.reverse
  | id :: rest => do
    let kind ← a.kind id
    return .inl ⟨id :: d.listed, kind.children ++ rest⟩

/-- A node and everything below it, parents first. -/
def descendants (a : Arena) (id : NodeId) : Except Error (List NodeId) :=
  repeatM a.turn (.start id)

end Arena

end LocalScope
