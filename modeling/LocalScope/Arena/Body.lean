import LocalScope.Arena.View

namespace LocalScope

namespace Body

/-- Adds a body to an arena, children in source order before their parent, and answers with the
number of its root. -/
def addTo : Body → StateM Arena NodeId :=
  Term.fold fun note kind => do
    let kind ← kind.traverse id
    modifyGet fun a => a.push kind note

end Body

namespace Arena

def ofBody (b : Body) : NodeId × Arena := Id.run ((b.addTo).run {})

/-- The body below a node, without numbers. -/
def body (a : Arena) (id : NodeId) : Except Error Body := return (← a.whole id).body

end Arena

end LocalScope
