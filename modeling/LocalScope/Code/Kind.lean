import LocalScope.Code.Constant
import LocalScope.Code.Operator
import LocalScope.Code.Ty

namespace LocalScope

/- The shapes of method-body code. `Kind α` is one layer of it: a kind says what stands where and
leaves open what a child is. With node numbers as children it is a row of an arena, with terms as
children it is the top of a tree. Statements come first, then expressions; nothing here stops an
expression from standing where a statement should. -/
inductive Kind (α : Type) where
  | block (statements : List α)
  | declaration (ty : Ty) (bindings : List α) (isFinal : Bool)
  | binding (name : String) (init : Option α)
  | expressionStatement (expr : α)
  | ifElse (cond thenBranch : α) (elseBranch : Option α)
  | whileLoop (cond body : α)
  | doWhile (body cond : α)
  | forLoop (init : List α) (cond : Option α) (update : List α) (body : α)
  | forEach (ty : Ty) (name : String) (iterable body : α)
  | tryCatch (body : α) (catches : List α) (finallyBranch : Option α)
  | catchClause (ty : Ty) (name : String) (body : α)
  | switch (value : α) (sections : List α)
  | switchSection (labels : List α) (body : α)
  | synchronized (lock body : α)
  | ret (value : Option α)
  | throw (expr : α)
  | brk
  | cont
  | empty
  | identifier (name : String)
  | literal (value : Constant)
  | assignment (op : AssignOp) (left right : α)
  | binary (op : BinaryOp) (left right : α)
  | unary (op : UnaryOp) (operand : α)
  | invocation (target : Option α) (method : String) (args : List α)
  | memberReference (target : α) (member : String)
  | index (target position : α)
  | conditional (cond thenValue elseValue : α)
  | cast (ty : Ty) (expr : α)
  | creation (ty : Ty) (args : List α)
  | this
  | super
deriving DecidableEq

/-- The kinds without their contents. -/
inductive Tag where
  | block | declaration | binding | expressionStatement | ifElse | whileLoop | doWhile | forLoop
  | forEach | tryCatch | catchClause | switch | switchSection | synchronized | ret | throw | brk
  | cont | empty | identifier | literal | assignment | binary | unary | invocation
  | memberReference | index | conditional | cast | creation | this | super
deriving DecidableEq, Repr

instance : Vocabulary Tag where
  words := [
    .block, .declaration, .binding, .expressionStatement, .ifElse, .whileLoop, .doWhile,
    .forLoop, .forEach, .tryCatch, .catchClause, .switch, .switchSection, .synchronized, .ret,
    .throw, .brk, .cont, .empty, .identifier, .literal, .assignment, .binary, .unary,
    .invocation, .memberReference, .index, .conditional, .cast, .creation, .this, .super]
  spelling
    | .block => "block"
    | .declaration => "variable_declaration"
    | .binding => "variable_initializer"
    | .expressionStatement => "expression_statement"
    | .ifElse => "if"
    | .whileLoop => "while"
    | .doWhile => "do_while"
    | .forLoop => "for"
    | .forEach => "for_each"
    | .tryCatch => "try"
    | .catchClause => "catch_clause"
    | .switch => "switch"
    | .switchSection => "switch_section"
    | .synchronized => "synchronized"
    | .ret => "return"
    | .throw => "throw"
    | .brk => "break"
    | .cont => "continue"
    | .empty => "empty"
    | .identifier => "identifier"
    | .literal => "literal"
    | .assignment => "assignment"
    | .binary => "binary"
    | .unary => "unary"
    | .invocation => "invocation"
    | .memberReference => "member_reference"
    | .index => "index"
    | .conditional => "conditional"
    | .cast => "cast"
    | .creation => "object_creation"
    | .this => "this"
    | .super => "super"

/-- One place for children: exactly one, at most one, or any number in order. -/
inductive Slot (α : Type) where
  | one (child : α)
  | optional (child : Option α)
  | many (children : List α)
deriving DecidableEq

def Slot.children {α : Type} : Slot α → List α
  | one child => [child]
  | optional child => child.toList
  | many children => children

/- What to do at each sort of slot; the sort of a slot never changes. -/
structure SlotMap (m : Type → Type) (α β : Type) where
  one : α → m β
  optional : Option α → m (Option β)
  many : List α → m (List β)

namespace Kind

variable {α β : Type}

def tag : Kind α → Tag
  | .block .. => .block
  | .declaration .. => .declaration
  | .binding .. => .binding
  | .expressionStatement .. => .expressionStatement
  | .ifElse .. => .ifElse
  | .whileLoop .. => .whileLoop
  | .doWhile .. => .doWhile
  | .forLoop .. => .forLoop
  | .forEach .. => .forEach
  | .tryCatch .. => .tryCatch
  | .catchClause .. => .catchClause
  | .switch .. => .switch
  | .switchSection .. => .switchSection
  | .synchronized .. => .synchronized
  | .ret .. => .ret
  | .throw .. => .throw
  | .brk => .brk
  | .cont => .cont
  | .empty => .empty
  | .identifier .. => .identifier
  | .literal .. => .literal
  | .assignment .. => .assignment
  | .binary .. => .binary
  | .unary .. => .unary
  | .invocation .. => .invocation
  | .memberReference .. => .memberReference
  | .index .. => .index
  | .conditional .. => .conditional
  | .cast .. => .cast
  | .creation .. => .creation
  | .this => .this
  | .super => .super

/-- Child places in source order. -/
def slots : Kind α → List (Slot α)
  | .block ss => [.many ss]
  | .declaration _ bs _ => [.many bs]
  | .binding _ init => [.optional init]
  | .expressionStatement expr => [.one expr]
  | .ifElse cond thenBranch elseBranch => [.one cond, .one thenBranch, .optional elseBranch]
  | .whileLoop cond body => [.one cond, .one body]
  | .doWhile body cond => [.one body, .one cond]
  | .forLoop init cond update body => [.many init, .optional cond, .many update, .one body]
  | .forEach _ _ iterable body => [.one iterable, .one body]
  | .tryCatch body catches finallyBranch => [.one body, .many catches, .optional finallyBranch]
  | .catchClause _ _ body => [.one body]
  | .switch value sections => [.one value, .many sections]
  | .switchSection labels body => [.many labels, .one body]
  | .synchronized lock body => [.one lock, .one body]
  | .ret value => [.optional value]
  | .throw expr => [.one expr]
  | .assignment _ left right => [.one left, .one right]
  | .binary _ left right => [.one left, .one right]
  | .unary _ operand => [.one operand]
  | .invocation target _ args => [.optional target, .many args]
  | .memberReference target _ => [.one target]
  | .index target position => [.one target, .one position]
  | .conditional cond thenValue elseValue => [.one cond, .one thenValue, .one elseValue]
  | .cast _ expr => [.one expr]
  | .creation _ args => [.many args]
  | .brk | .cont | .empty | .identifier _ | .literal _ | .this | .super => []

/-- Direct children in source order. -/
def children (k : Kind α) : List α := k.slots.flatMap Slot.children

def map (f : α → β) : Kind α → Kind β
  | .block ss => .block (ss.map f)
  | .declaration ty bs final => .declaration ty (bs.map f) final
  | .binding name init => .binding name (init.map f)
  | .expressionStatement expr => .expressionStatement (f expr)
  | .ifElse cond thenBranch elseBranch => .ifElse (f cond) (f thenBranch) (elseBranch.map f)
  | .whileLoop cond body => .whileLoop (f cond) (f body)
  | .doWhile body cond => .doWhile (f body) (f cond)
  | .forLoop init cond update body => .forLoop (init.map f) (cond.map f) (update.map f) (f body)
  | .forEach ty name iterable body => .forEach ty name (f iterable) (f body)
  | .tryCatch body catches finallyBranch => .tryCatch (f body) (catches.map f) (finallyBranch.map f)
  | .catchClause ty name body => .catchClause ty name (f body)
  | .switch value sections => .switch (f value) (sections.map f)
  | .switchSection labels body => .switchSection (labels.map f) (f body)
  | .synchronized lock body => .synchronized (f lock) (f body)
  | .ret value => .ret (value.map f)
  | .throw expr => .throw (f expr)
  | .brk => .brk
  | .cont => .cont
  | .empty => .empty
  | .identifier name => .identifier name
  | .literal value => .literal value
  | .assignment op left right => .assignment op (f left) (f right)
  | .binary op left right => .binary op (f left) (f right)
  | .unary op operand => .unary op (f operand)
  | .invocation target method args => .invocation (target.map f) method (args.map f)
  | .memberReference target member => .memberReference (f target) member
  | .index target position => .index (f target) (f position)
  | .conditional cond thenValue elseValue => .conditional (f cond) (f thenValue) (f elseValue)
  | .cast ty expr => .cast ty (f expr)
  | .creation ty args => .creation ty (args.map f)
  | .this => .this
  | .super => .super

/-- Visits the slots in source order and rebuilds the same kind from what is found there. -/
def traverseSlots {m : Type → Type} [Monad m] (h : SlotMap m α β) : Kind α → m (Kind β)
  | .block ss => return .block (← h.many ss)
  | .declaration ty bs final => return .declaration ty (← h.many bs) final
  | .binding name init => return .binding name (← h.optional init)
  | .expressionStatement expr => return .expressionStatement (← h.one expr)
  | .ifElse cond thenBranch elseBranch =>
    return .ifElse (← h.one cond) (← h.one thenBranch) (← h.optional elseBranch)
  | .whileLoop cond body => return .whileLoop (← h.one cond) (← h.one body)
  | .doWhile body cond => return .doWhile (← h.one body) (← h.one cond)
  | .forLoop init cond update body =>
    return .forLoop (← h.many init) (← h.optional cond) (← h.many update) (← h.one body)
  | .forEach ty name iterable body => return .forEach ty name (← h.one iterable) (← h.one body)
  | .tryCatch body catches finallyBranch =>
    return .tryCatch (← h.one body) (← h.many catches) (← h.optional finallyBranch)
  | .catchClause ty name body => return .catchClause ty name (← h.one body)
  | .switch value sections => return .switch (← h.one value) (← h.many sections)
  | .switchSection labels body => return .switchSection (← h.many labels) (← h.one body)
  | .synchronized lock body => return .synchronized (← h.one lock) (← h.one body)
  | .ret value => return .ret (← h.optional value)
  | .throw expr => return .throw (← h.one expr)
  | .brk => return .brk
  | .cont => return .cont
  | .empty => return .empty
  | .identifier name => return .identifier name
  | .literal value => return .literal value
  | .assignment op left right => return .assignment op (← h.one left) (← h.one right)
  | .binary op left right => return .binary op (← h.one left) (← h.one right)
  | .unary op operand => return .unary op (← h.one operand)
  | .invocation target method args =>
    return .invocation (← h.optional target) method (← h.many args)
  | .memberReference target member => return .memberReference (← h.one target) member
  | .index target position => return .index (← h.one target) (← h.one position)
  | .conditional cond thenValue elseValue =>
    return .conditional (← h.one cond) (← h.one thenValue) (← h.one elseValue)
  | .cast ty expr => return .cast ty (← h.one expr)
  | .creation ty args => return .creation ty (← h.many args)
  | .this => return .this
  | .super => return .super

def traverse {m : Type → Type} [Monad m] (f : α → m β) : Kind α → m (Kind β) :=
  traverseSlots ⟨f, fun o => o.mapM f, fun l => l.mapM f⟩

theorem map_map {γ : Type} (f : α → β) (g : β → γ) (k : Kind α) :
    (k.map f).map g = k.map fun x => g (f x) := by
  cases k <;> simp [map, Function.comp_def]

theorem children_map (f : α → β) (k : Kind α) :
    (k.map f).children = k.children.map f := by
  cases k <;> simp [children, slots, map, Slot.children, Option.toList_map]

def isBlock : Kind α → Bool
  | .block _ => true
  | _ => false

/-- The statements of a block; no other kind has any. -/
def statements : Kind α → List α
  | .block ss => ss
  | _ => []

def isLoop : Kind α → Bool
  | .forLoop .. | .forEach .. | .whileLoop .. | .doWhile .. => true
  | _ => false

/-- The kinds whose block stands one level down, behind a child that is no block: the clauses of
a `try` and the sections of a `switch`. -/
def holdsBlocks : Kind α → Bool
  | .catchClause .. | .switchSection .. => true
  | _ => false

end Kind

end LocalScope
