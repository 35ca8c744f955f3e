import LocalScope.Placement.Pass

namespace LocalScope

/- Going through a body, the pass asks for edits, and only when it has seen all of it are they
carried out. Until then they wait in a queue. A pass has one queue, for all its runs. -/

/-- Edits that wait to be carried out, first one first. -/
structure EditQueue where
  pending : List Edit := []
deriving DecidableEq

namespace EditQueue

def isEmpty (q : EditQueue) : Bool := q.pending.isEmpty

def push (q : EditQueue) (e : Edit) : EditQueue := ⟨q.pending ++ [e]⟩

/-- Carries out what waits. Nothing waits afterwards, even where one of the edits fails. -/
def apply (q : EditQueue) (markFinal : Bool) (a : Arena) :
    EditQueue × EStateM.Result Error Arena Stats :=
  ({}, Edit.applyAll markFinal q.pending a)

end EditQueue

/-- The edits that a single node needs: none, unless it is a block. -/
def Editing.planNode (o : Options) (id : NodeId) : Editing (List Edit) := do
  if (← query (·.kind id)).isBlock then replan o id else return []

/-- A body on which the pass is at work, and what waits to be done to it. -/
structure Visit where
  arena : Arena
  queue : EditQueue

/-- Computations that may also ask for edits. What was asked for before an error still waits. -/
abbrev Visiting := EStateM Error Visit

namespace Visiting

/-- Works on the body and leaves the queue alone. -/
def within {α : Type} (x : Editing α) : Visiting α := fun v =>
  match x v.arena with
  | .ok y a => .ok y { v with arena := a }
  | .error e a => .error e { v with arena := a }

def ask (e : Edit) : Visiting Unit := modify fun v => { v with queue := v.queue.push e }

/- Outer blocks come before inner ones. The children are those left after the block has been
stripped. -/
def visitWithin (o : Options) : Nat → NodeId → Visiting Unit
  | 0, id => throw (.cyclic id)
  | levels + 1, id => do
    let edits ← within (Editing.planNode o id)
    edits.forM ask
    let kind ← within (Editing.query (·.kind id))
    kind.children.forM (visitWithin o levels)

/-- Takes out the declarations of a body and asks for all that it needs in their place. -/
def visit (o : Options) (root : NodeId) : Visiting Unit := do
  let a := (← get).arena
  visitWithin o ((a.size + 1) * (a.linkCount + 1)) root

end Visiting

/-- The placement pass with its queue. -/
structure QueuedPass extends Pass where
  queue : EditQueue := {}

namespace QueuedPass

/-- Runs over an arena. Where a declaration is refused the edits asked for so far are dropped. -/
def run (p : QueuedPass) (root : NodeId) (a : Arena) :
    QueuedPass × EStateM.Result Error Arena Unit :=
  match Visiting.visit p.options root ⟨a, p.queue⟩ with
  | .error e v => ({ p with queue := {} }, .error e v.arena)
  | .ok _ v =>
    match v.queue.apply p.options.markFinal v.arena with
    | (queue, .ok stats a) => ({ p with queue, lastStats := stats }, .ok () a)
    | (queue, .error e a) => ({ p with queue }, .error e a)

/-- The pass after runs over several arenas, one after another. -/
def runAll (p : QueuedPass) (jobs : List (NodeId × Arena)) : QueuedPass :=
  jobs.foldl (fun p job => (p.run job.1 job.2).1) p

end QueuedPass

end LocalScope
