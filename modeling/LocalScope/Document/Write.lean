import LocalScope.Code.Term
import LocalScope.Document.Leaf
import LocalScope.Json.Print

namespace LocalScope

open Json (Value)

namespace Write

def optional (name : String) : Option Value → List (String × Value)
  | none => []
  | some v => [(name, v)]

def flag (name : String) (b : Bool) : List (String × Value) :=
  if b then [(name, .bool true)] else []

/-- The fields of a kind whose children have been written. What has its default is left out,
except operators and lists. -/
def fields : Kind Value → List (String × Value)
  | .block ss => [("statements", .array ss)]
  | .declaration t bs final =>
    [("type", ty t), ("variables", .array bs)] ++ flag "is_final" final
  | .binding name init => ("name", .string name) :: optional "init" init
  | .expressionStatement expr => [("expr", expr)]
  | .ifElse cond thenBranch elseBranch =>
    [("cond", cond), ("then_block", thenBranch)] ++ optional "else_block" elseBranch
  | .whileLoop cond body => [("cond", cond), ("body", body)]
  | .doWhile body cond => [("body", body), ("cond", cond)]
  | .forLoop init cond update body =>
    ("init", .array init) :: optional "cond" cond ++ [("update", .array update), ("body", body)]
  | .forEach t name iterable body =>
    [("type", ty t), ("variable", .string name), ("iterable", iterable), ("body", body)]
  | .tryCatch body catches finallyBranch =>
    [("body", body), ("catches", .array catches)] ++ optional "finally" finallyBranch
  | .catchClause t name body => [("type", ty t), ("variable", .string name), ("body", body)]
  | .switch value sections => [("value", value), ("sections", .array sections)]
  | .switchSection labels body => [("labels", .array labels), ("body", body)]
  | .synchronized lock body => [("lock", lock), ("body", body)]
  | .ret value => optional "value" value
  | .throw expr => [("expr", expr)]
  | .identifier name => [("name", .string name)]
  | .literal value => [("value", constant value)]
  | .assignment op left right => [("op", word op), ("left", left), ("right", right)]
  | .binary op left right => [("op", word op), ("left", left), ("right", right)]
  | .unary op operand => [("op", word op), ("operand", operand)]
  | .invocation target method args =>
    optional "target" target ++ [("method", .string method), ("args", .array args)]
  | .memberReference target member => [("target", target), ("member", .string member)]
  | .index target position => [("target", target), ("index", position)]
  | .conditional cond thenValue elseValue =>
    [("cond", cond), ("then_value", thenValue), ("else_value", elseValue)]
  | .cast t expr => [("type", ty t), ("expr", expr)]
  | .creation t args => [("type", ty t), ("args", .array args)]
  | .brk | .cont | .empty | .this | .super => []

def ids (note : Annotation) : List (String × Value) :=
  optional "variable" (note.variableId.map fun v => .nat v.index.toNat) ++
  optional "member_reference" (note.memberId.map fun m => .nat m.index.toNat)

def body : Body → Value :=
  Term.fold fun note kind =>
    .object (("kind", word kind.tag) :: fields kind ++ ids note)

end Write

namespace Body

def compactText (b : Body) : String := (Write.body b).compact

def prettyText (b : Body) : String := (Write.body b).pretty

end Body

end LocalScope
