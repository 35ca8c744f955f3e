import LocalScope.Arena.Basic

namespace LocalScope

/-- Whether a place in a tree shows a node, or only that the arena has no such node, or that the
node has been passed too often on the way there. -/
inductive Reach where
  | shown
  | missing
  | repeated
deriving DecidableEq, Repr

/-- Which node a place in a tree stands for, and what that node carries. -/
structure Label where
  id : NodeId
  note : Annotation
  reach : Reach
deriving DecidableEq, Repr

namespace Label

/-- The place itself, if it is a gap: one that shows no node. -/
def gap? (l : Label) : Option Label := if l.reach = .shown then none else some l

def fault (l : Label) : Error :=
  match l.reach with
  | .missing => .missing l.id
  | _ => .cyclic l.id

end Label

/-- What hangs below a node of an arena, unfolded. A node with two owners appears twice. -/
abbrev Tree := Term Label

namespace Tree

def id (t : Tree) : NodeId := t.label.id

def body (t : Tree) : Body := t.relabel Label.note

def statements (t : Tree) : List Tree := t.kind.statements

/-- The numbers of a node and of everything below it, parents first. -/
def ids (t : Tree) : List NodeId := t.subterms.map id

/-- The first gap in a tree. -/
def gap? (t : Tree) : Option Label := t.subterms.findSome? fun s => s.label.gap?

end Tree

namespace Arena

/- Links may lead to numbers without a row, and back to a node above. A gap stands there in the
tree, with nothing below it. -/
def expandBelow (a : Arena) (repeats : Nat) : Nat → List NodeId → NodeId → Tree
  | 0, _, id => .node ⟨id, {}, .repeated⟩ .empty
  | levels + 1, above, id =>
    match a.nodes.get? id with
    | none => .node ⟨id, {}, .missing⟩ .empty
    | some n =>
      if repeats < above.count id then .node ⟨id, n.note, .repeated⟩ .empty
      else .node ⟨id, n.note, .shown⟩ (n.kind.map (expandBelow a repeats levels (id :: above)))

/-- Unfolds what is below a node, passing no node more often than it may be repeated. So many
levels are enough: a longer path would repeat some node more often. -/
def expand (a : Arena) (repeats : Nat) (id : NodeId) : Tree :=
  a.expandBelow repeats ((repeats + 1) * a.size + 1) [] id

/-- What is below a node. Where links lead nowhere but down it has no gaps. -/
def view (a : Arena) (id : NodeId) : Tree := a.expand 0 id

/-- What is below a node, for a question that looks at all of it. -/
def whole (a : Arena) (id : NodeId) : Except Error Tree :=
  let t := a.view id
  match t.gap? with
  | none => .ok t
  | some gap => .error gap.fault

def lookAgain (a : Arena) (met : Tree → Option Label) (id : NodeId) :
    List Nat → Except Error Tree
  | [] => .error (.cyclic id)
  | repeats :: more =>
    let t := a.expand repeats id
    if t.gap?.isNone then .ok t
    else
      match met t with
      | none => .ok t
      | some gap => if gap.reach = .missing then .error gap.fault else a.lookAgain met id more

/- What is below a node, for a question that meets the given gap first. Gaps that it does not meet
do not matter to it. At a repeated node it has to be followed further down; but to meet one node
again in the same part (as a receiving block, a statement, a clause, within an expression, ...) is
to go round forever, so few repetitions show whether it comes to an end. -/
def look (a : Arena) (met : Tree → Option Label) (id : NodeId) : Except Error Tree :=
  a.lookAgain met id (List.range 9)

theorem whole_eq_view (a : Arena) (id : NodeId) (noGap : (a.view id).gap? = none) :
    a.whole id = .ok (a.view id) := by
  simp [whole, noGap]

/- Where there are no gaps every question is answered from the view. -/
theorem look_eq_view (a : Arena) (met : Tree → Option Label) (id : NodeId)
    (noGap : (a.view id).gap? = none) : a.look met id = .ok (a.view id) := by
  have first : List.range 9 = 0 :: (List.range 8).map Nat.succ := List.range_succ_eq_map
  rw [view] at noGap
  simp [look, first, lookAgain, view, noGap]

end Arena

end LocalScope
