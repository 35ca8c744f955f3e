import LocalScope.Arena.Body
import LocalScope.Placement.Pass

namespace LocalScope

namespace Body

def plain (k : Kind Body) : Body := .node {} k

def read (name : String) : Body := plain (.identifier name)

def braces (ss : List Body) : Body := plain (.block ss)

def declareInt (name : String) : Body :=
  plain (.declaration (.primitive .int) [plain (.binding name none)] false)

/-- `name = 1;` -/
def setOne (name : String) : Body :=
  plain (.expressionStatement
    (plain (.assignment .plain (read name) (plain (.literal (.int 1))))))

/-- `use(name);` -/
def use (name : String) : Body :=
  plain (.expressionStatement (plain (.invocation none "use" [read name])))

def when (cond : String) (ss : List Body) : Body :=
  plain (.ifElse (read cond) (braces ss) none)

def forEachInt (name source : String) (ss : List Body) : Body :=
  plain (.forEach (.primitive .int) name (read source) (braces ss))

end Body

/-- A node that is there, with its number and without annotations. -/
def Tree.shown (n : Nat) (k : Kind Tree) : Tree := .node ⟨⟨n⟩, {}, .shown⟩ k

namespace Pass

def outcome (p : Pass) (root : NodeId) (a : Arena) : Arena :=
  match (p.run root a).2 with
  | .ok _ b => b
  | .error _ b => b

def succeeds (p : Pass) (root : NodeId) (a : Arena) : Bool :=
  match (p.run root a).2 with
  | .ok _ _ => true
  | .error _ _ => false

theorem run_outcome {p : Pass} {root : NodeId} {a : Arena} (succeeds : p.succeeds root a = true) :
    (p.run root a).2 = .ok () (p.outcome root a) := by
  rw [Pass.succeeds] at succeeds
  rw [outcome]
  split at succeeds
  · rename_i ran
    rw [ran]
  · cases succeeds

end Pass

end LocalScope
