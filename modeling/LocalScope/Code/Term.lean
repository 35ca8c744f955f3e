import LocalScope.Code.Id
import LocalScope.Code.Kind

namespace LocalScope

/- Code as a tree, with a label at every node. -/
inductive Term (ℓ : Type) where
  | node (label : ℓ) (kind : Kind (Term ℓ))

/-- A method body, or any part of one, as documents hold it. -/
abbrev Body := Term Annotation

namespace Term

variable {ℓ ℓ' β : Type}

def label : Term ℓ → ℓ
  | node l _ => l

def kind : Term ℓ → Kind (Term ℓ)
  | node _ k => k

def children (t : Term ℓ) : List (Term ℓ) := t.kind.children

/- A node's answer is computed from its label and from its kind, in which every child stands
beside its own answer. -/
mutual

def compute (step : ℓ → Kind (Term ℓ × β) → β) : Term ℓ → β
  | node l k => step l (computeKind step k)

def computeKind (step : ℓ → Kind (Term ℓ × β) → β) : Kind (Term ℓ) → Kind (Term ℓ × β)
  | .block ss => .block (computeList step ss)
  | .declaration ty bs final => .declaration ty (computeList step bs) final
  | .binding name init => .binding name (computeOption step init)
  | .expressionStatement expr => .expressionStatement (expr, compute step expr)
  | .ifElse cond thenBranch elseBranch =>
    .ifElse (cond, compute step cond)
      (thenBranch, compute step thenBranch) (computeOption step elseBranch)
  | .whileLoop cond body => .whileLoop (cond, compute step cond) (body, compute step body)
  | .doWhile body cond => .doWhile (body, compute step body) (cond, compute step cond)
  | .forLoop init cond update body =>
    .forLoop (computeList step init) (computeOption step cond)
      (computeList step update) (body, compute step body)
  | .forEach ty name iterable body =>
    .forEach ty name (iterable, compute step iterable) (body, compute step body)
  | .tryCatch body catches finallyBranch =>
    .tryCatch (body, compute step body) (computeList step catches)
      (computeOption step finallyBranch)
  | .catchClause ty name body => .catchClause ty name (body, compute step body)
  | .switch value sections => .switch (value, compute step value) (computeList step sections)
  | .switchSection labels body => .switchSection (computeList step labels) (body, compute step body)
  | .synchronized lock body => .synchronized (lock, compute step lock) (body, compute step body)
  | .ret value => .ret (computeOption step value)
  | .throw expr => .throw (expr, compute step expr)
  | .brk => .brk
  | .cont => .cont
  | .empty => .empty
  | .identifier name => .identifier name
  | .literal value => .literal value
  | .assignment op left right =>
    .assignment op (left, compute step left) (right, compute step right)
  | .binary op left right => .binary op (left, compute step left) (right, compute step right)
  | .unary op operand => .unary op (operand, compute step operand)
  | .invocation target method args =>
    .invocation (computeOption step target) method (computeList step args)
  | .memberReference target member => .memberReference (target, compute step target) member
  | .index target position => .index (target, compute step target) (position, compute step position)
  | .conditional cond thenValue elseValue =>
    .conditional (cond, compute step cond)
      (thenValue, compute step thenValue) (elseValue, compute step elseValue)
  | .cast ty expr => .cast ty (expr, compute step expr)
  | .creation ty args => .creation ty (computeList step args)
  | .this => .this
  | .super => .super

def computeList (step : ℓ → Kind (Term ℓ × β) → β) : List (Term ℓ) → List (Term ℓ × β)
  | [] => []
  | t :: ts => (t, compute step t) :: computeList step ts

def computeOption (step : ℓ → Kind (Term ℓ × β) → β) : Option (Term ℓ) → Option (Term ℓ × β)
  | none => none
  | some t => some (t, compute step t)

end

section

variable (step : ℓ → Kind (Term ℓ × β) → β)

theorem computeList_eq (ts : List (Term ℓ)) :
    computeList step ts = ts.map fun t => (t, compute step t) := by
  induction ts with
  | nil => rfl
  | cons t ts ih => simp [computeList, ih]

theorem computeOption_eq (t : Option (Term ℓ)) :
    computeOption step t = t.map fun t => (t, compute step t) := by
  cases t <;> rfl

theorem computeKind_eq (k : Kind (Term ℓ)) :
    computeKind step k = k.map fun t => (t, compute step t) := by
  cases k <;> simp [computeKind, Kind.map, computeList_eq, computeOption_eq]

theorem compute_node (l : ℓ) (k : Kind (Term ℓ)) :
    compute step (node l k) = step l (k.map fun t => (t, compute step t)) := by
  rw [compute, computeKind_eq]

end

/-- Where the children's answers are all that matters. -/
def fold (step : ℓ → Kind β → β) : Term ℓ → β :=
  compute fun l k => step l (k.map Prod.snd)

theorem fold_node (step : ℓ → Kind β → β) (l : ℓ) (k : Kind (Term ℓ)) :
    fold step (node l k) = step l (k.map (fold step)) := by
  rw [fold, compute_node, Kind.map_map]

def relabel (f : ℓ → ℓ') : Term ℓ → Term ℓ' := fold fun l k => node (f l) k

theorem relabel_node (f : ℓ → ℓ') (l : ℓ) (k : Kind (Term ℓ)) :
    (node l k).relabel f = node (f l) (k.map (relabel f)) := by
  rw [relabel, fold_node]

/-- The nodes in source order, parents first, each with its shape but not its children. -/
def flatten : Term ℓ → List (ℓ × Kind Unit) :=
  fold fun l k => (l, k.map fun _ => ()) :: k.children.flatten

theorem flatten_node (l : ℓ) (k : Kind (Term ℓ)) :
    (node l k).flatten = (l, k.map fun _ => ()) :: k.children.flatMap flatten := by
  rw [flatten, fold_node, Kind.map_map, Kind.children_map, List.flatMap]

/- Shapes tell how many children follow, so equal listings come from equal terms only. -/
instance [BEq ℓ] : BEq (Term ℓ) := ⟨fun s t => s.flatten == t.flatten⟩

def size : Term ℓ → Nat := fold fun _ k => k.children.foldr (· + ·) 0 + 1

/- Visits at most so many nodes, parents before children and siblings in source order. The list
holds what is still to be visited. -/
def visit : Nat → List (Term ℓ) → List (Term ℓ)
  | 0, _ => []
  | _ + 1, [] => []
  | steps + 1, t :: pending => t :: visit steps (t.children ++ pending)

/-- A term and everything below it. -/
def subterms (t : Term ℓ) : List (Term ℓ) := visit t.size [t]

end Term

end LocalScope
