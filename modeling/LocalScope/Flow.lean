import LocalScope.Code.Usage

namespace LocalScope

/- Definite assignment of one variable, by a single walk along the control flow. -/

/-- What is known of the variable after some code: whether every path that goes on has assigned
it, and whether some read may have come before any assignment. -/
structure Flow where
  assigned : Bool
  exposed : Bool
deriving DecidableEq, Repr

namespace Flow

def idle (assigned : Bool) : Flow := ⟨assigned, false⟩

def andThen (f : Flow) (g : Bool → Flow) : Flow :=
  let after := g f.assigned
  ⟨after.assigned, f.exposed || after.exposed⟩

/-- Either of two paths was taken. -/
def join (f g : Flow) : Flow := ⟨f.assigned && g.assigned, f.exposed || g.exposed⟩

/-- Both ran, in an unknown order. -/
def meet (f g : Flow) : Flow := ⟨f.assigned || g.assigned, f.exposed || g.exposed⟩

/-- Only the reads of `f` matter; what follows starts from another state. -/
def resume (f : Flow) (assigned : Bool) : Flow := ⟨assigned, f.exposed⟩

end Flow

inductive Position where
  | statement
  | expression
deriving DecidableEq, Repr

namespace Flow

variable {ℓ : Type}

/- A loop body is walked once: at its head only the state before the loop is certain. Whatever
leaves the normal flow counts as assigned, because nothing follows it. A statement inside an
expression is walked like one, child by child. -/
mutual

def walk (name : String) : Position → Term ℓ → Bool → Flow
  | .statement, .node _ (.block ss), s => walkAll name .statement ss s
  | .statement, .node _ (.declaration _ bs _), s => walkBindings name bs s
  | .statement, .node _ (.expressionStatement expr), s => walk name .expression expr s
  | .statement, .node _ (.ifElse cond thenBranch elseBranch), s =>
    (walk name .expression cond s).andThen fun s =>
      (walk name .statement thenBranch s).join (walkOption name .statement elseBranch s)
  | .statement, .node _ (.whileLoop cond body), s =>
    (walk name .expression cond s).andThen fun s =>
      (walk name .statement body s).resume s
  | .statement, .node _ (.doWhile body cond), s =>
    let after := (walk name .statement body s).andThen (walk name .expression cond)
    if body.breaksOut then after.resume s else after
  | .statement, .node _ (.forLoop init cond update body), s =>
    (walkAll name .statement init s).andThen fun s =>
      (walkOption name .expression cond s).andThen fun s =>
        ((walk name .statement body s).andThen (walkAll name .statement update)).resume s
  | .statement, .node _ (.forEach _ x iterable body), s =>
    (walk name .expression iterable s).andThen fun s =>
      if x == name then idle s else (walk name .statement body s).resume s
  | .statement, .node _ (.tryCatch body catches finallyBranch), s =>
    let merged := (walkEach name .statement catches s).foldl join (walk name .statement body s)
    match finallyBranch with
    | none => merged
    | some block => merged.meet (walk name .statement block s)
  | .statement, .node _ (.catchClause _ x body), s =>
    if x == name then idle s else walk name .statement body s
  | .statement, .node _ (.switch value sections), s =>
    (walk name .expression value s).andThen fun s =>
      ((walkEach name .statement sections s).foldl join (idle s)).resume s
  | .statement, .node _ (.switchSection labels body), s =>
    (((walkEach name .expression labels s).foldl join (idle s)).resume s).andThen
      (walk name .statement body)
  | .statement, .node _ (.synchronized lock body), s =>
    (walk name .expression lock s).andThen (walk name .statement body)
  | .statement, .node _ (.ret value), s => (walkOption name .expression value s).resume true
  | .statement, .node _ (.throw expr), s => (walk name .expression expr s).resume true
  | .statement, .node _ .brk, _ => idle true
  | .statement, .node _ .cont, _ => idle true
  | _, .node _ (.identifier x), s => ⟨s, x == name && !s⟩
  | _, .node _ (.assignment op left right), s =>
    if left.isIdentifier name then
      let value := walk name .expression right s
      ⟨true, (op != .plain && !s) || value.exposed⟩
    else (walk name .expression left s).andThen (walk name .expression right)
  | _, .node _ (.unary op operand), s =>
    let after := walk name .expression operand s
    if op.isIncrement && operand.isIdentifier name then after.resume true else after
  | _, .node _ (.binary op left right), s =>
    (walk name .expression left s).andThen fun s =>
      let after := walk name .expression right s
      if op.isShortCircuit then after.resume s else after
  | _, .node _ (.conditional cond thenValue elseValue), s =>
    (walk name .expression cond s).andThen fun s =>
      (walk name .expression thenValue s).join (walk name .expression elseValue s)
  | _, .node _ (.invocation target _ args), s =>
    (walkOption name .expression target s).andThen (walkAll name .expression args)
  | _, .node _ (.memberReference target _), s => walk name .expression target s
  | _, .node _ (.index target position), s =>
    (walk name .expression target s).andThen (walk name .expression position)
  | _, .node _ (.cast _ expr), s => walk name .expression expr s
  | _, .node _ (.creation _ args), s => walkAll name .expression args s
  | _, .node _ (.binding _ init), s => walkOption name .expression init s
  | .expression, .node _ (.block ss), s => walkAll name .expression ss s
  | .expression, .node _ (.declaration _ bs _), s => walkAll name .expression bs s
  | .expression, .node _ (.expressionStatement expr), s => walk name .expression expr s
  | .expression, .node _ (.ifElse cond thenBranch elseBranch), s =>
    ((walk name .expression cond s).andThen (walk name .expression thenBranch)).andThen
      (walkOption name .expression elseBranch)
  | .expression, .node _ (.whileLoop cond body), s =>
    (walk name .expression cond s).andThen (walk name .expression body)
  | .expression, .node _ (.doWhile body cond), s =>
    (walk name .expression body s).andThen (walk name .expression cond)
  | .expression, .node _ (.forLoop init cond update body), s =>
    (((walkAll name .expression init s).andThen (walkOption name .expression cond)).andThen
      (walkAll name .expression update)).andThen (walk name .expression body)
  | .expression, .node _ (.forEach _ _ iterable body), s =>
    (walk name .expression iterable s).andThen (walk name .expression body)
  | .expression, .node _ (.tryCatch body catches finallyBranch), s =>
    ((walk name .expression body s).andThen (walkAll name .expression catches)).andThen
      (walkOption name .expression finallyBranch)
  | .expression, .node _ (.catchClause _ _ body), s => walk name .expression body s
  | .expression, .node _ (.switch value sections), s =>
    (walk name .expression value s).andThen (walkAll name .expression sections)
  | .expression, .node _ (.switchSection labels body), s =>
    (walkAll name .expression labels s).andThen (walk name .expression body)
  | .expression, .node _ (.synchronized lock body), s =>
    (walk name .expression lock s).andThen (walk name .expression body)
  | .expression, .node _ (.ret value), s => walkOption name .expression value s
  | .expression, .node _ (.throw expr), s => walk name .expression expr s
  | .expression, .node _ .brk, s => idle s
  | .expression, .node _ .cont, s => idle s
  | _, .node _ .empty, s => idle s
  | _, .node _ (.literal _), s => idle s
  | _, .node _ .this, s => idle s
  | _, .node _ .super, s => idle s

/-- One after the other. -/
def walkAll (name : String) (p : Position) : List (Term ℓ) → Bool → Flow
  | [], s => idle s
  | t :: ts, s => (walk name p t s).andThen (walkAll name p ts)

def walkOption (name : String) (p : Position) : Option (Term ℓ) → Bool → Flow
  | none, s => idle s
  | some t, s => walk name p t s

/-- Each from the same state. -/
def walkEach (name : String) (p : Position) : List (Term ℓ) → Bool → List Flow
  | [], _ => []
  | t :: ts, s => walk name p t s :: walkEach name p ts s

/-- An initialized binding of the same name is another variable, which is assigned from there
on. Without an initializer a binding changes nothing. -/
def walkBindings (name : String) : List (Term ℓ) → Bool → Flow
  | [], s => idle s
  | .node _ (.binding x (some init)) :: bs, s =>
    let after := walk name .expression init s
    (if x == name then after.resume true else after).andThen (walkBindings name bs)
  | _ :: bs, s => walkBindings name bs s

end

end Flow

end LocalScope
