import LocalScope.Code.Term
import LocalScope.Document.Leaf
import LocalScope.Json.Parse

namespace LocalScope

open Json (Value Token)

namespace Read

/- A node is an object. Two of its names belong to the node whatever its kind is, and are taken
out before anything else is looked at; `kind` is looked up among the rest, and what then remains
are the fields of that kind. Since `variable` is one of the first two, the kinds that have a field
of that name can be written but never read. -/

/-- A member of a node, read in each way that some kind may ask for. -/
structure Part where
  value : Value
  node : Reading Body
  nodes : Reading (List Body)

inductive NodeName where
  | variableId
  | memberId
deriving DecidableEq

def NodeName.spelling : NodeName → String
  | variableId => "variable"
  | memberId => "member_reference"

def NodeName.ofName? (name : String) : Option NodeName :=
  if name = "variable" then some variableId
  else if name = "member_reference" then some memberId
  else none

/-- What the names of the node itself have given so far, and the other members, last one first. -/
structure Header where
  variableId : Option (Option UInt32) := none
  memberId : Option (Option UInt32) := none
  others : List (String × Part) := []

namespace Header

def given (h : Header) : NodeName → Bool
  | .variableId => h.variableId.isSome
  | .memberId => h.memberId.isSome

def refuseAgain (h : Header) (name : NodeName) : Reading Unit :=
  if h.given name then .error (.duplicateField name.spelling) else .ok ()

def setId (h : Header) (name : NodeName) (id : Option UInt32) : Header :=
  match name with
  | .variableId => { h with variableId := some id }
  | .memberId => { h with memberId := some id }

def keep (h : Header) (name : String) (part : Part) : Header :=
  { h with others := (name, part) :: h.others }

def take (h : Header) (member : String × Part) : Reading Header :=
  match NodeName.ofName? member.1 with
  | some name => do
    h.refuseAgain name
    return h.setId name (← id? (.of member.2.value))
  | none => .ok (h.keep member.1 member.2)

def note (h : Header) : Annotation :=
  { variableId := (h.variableId.getD none).map VariableId.mk
    memberId := (h.memberId.getD none).map MemberId.mk }

end Header

/-- A kind is named by its word or by its number. -/
def tag : Value → Reading Tag
  | .string w =>
    match Vocabulary.ofSpelling? w with
    | some t => .ok t
    | none => .error (.unknownWord w (Vocabulary.spellings Tag))
  | .number (.int n) =>
    if n < 0 then .error (.wrongType (.int n) "variant identifier")
    else match (Vocabulary.words : List Tag)[n.toNat]? with
      | some t => .ok t
      | none => .error (.wrongValue (.int n) "variant index 0 <= i < 32")
  | v => .error (.wrongType (.of v) "variant identifier")

/-- Splits off the kind; the other members keep their order. -/
def takeKind : Option Tag → List (String × Part) → Reading (Tag × List (String × Part))
  | none, [] => .error (.missingField "kind")
  | some t, [] => .ok (t, [])
  | found, (name, part) :: rest =>
    if name = "kind" then
      match found with
      | some _ => .error (.duplicateField "kind")
      | none => do takeKind (some (← tag part.value)) rest
    else do
      let (t, others) ← takeKind found rest
      return (t, (name, part) :: others)

def node (name : String) : Fields Part Body := .required name Part.node

def node? (name : String) : Fields Part (Option Body) :=
  .withDefault name none fun part =>
    match part.value with
    | .null => .ok none
    | _ => some <$> part.node

def nodes (name : String) : Fields Part (List Body) := .required name Part.nodes

def nodesOrNone (name : String) : Fields Part (List Body) := .withDefault name [] Part.nodes

def text (name : String) : Fields Part String := .required name fun part => string part.value

def tyField : Fields Part Ty := .required "type" fun part => ty .inBody part.value

def wordField (α : Type) [Vocabulary α] : Fields Part α :=
  .required "op" fun part => plainWord α .inBody part.value

def kind : Tag → Fields Part (Kind Body)
  | .block => .block <$> nodes "statements"
  | .declaration =>
    .declaration <$> tyField <*> nodes "variables"
      <*> .withDefault "is_final" false (fun part => bool part.value)
  | .binding => .binding <$> text "name" <*> node? "init"
  | .expressionStatement => .expressionStatement <$> node "expr"
  | .ifElse => .ifElse <$> node "cond" <*> node "then_block" <*> node? "else_block"
  | .whileLoop => .whileLoop <$> node "cond" <*> node "body"
  | .doWhile => .doWhile <$> node "body" <*> node "cond"
  | .forLoop =>
    .forLoop <$> nodesOrNone "init" <*> node? "cond" <*> nodesOrNone "update" <*> node "body"
  | .forEach => .forEach <$> tyField <*> text "variable" <*> node "iterable" <*> node "body"
  | .tryCatch => .tryCatch <$> node "body" <*> nodesOrNone "catches" <*> node? "finally"
  | .catchClause => .catchClause <$> tyField <*> text "variable" <*> node "body"
  | .switch => .switch <$> node "value" <*> nodes "sections"
  | .switchSection => .switchSection <$> nodesOrNone "labels" <*> node "body"
  | .synchronized => .synchronized <$> node "lock" <*> node "body"
  | .ret => .ret <$> node? "value"
  | .throw => .throw <$> node "expr"
  | .brk => pure .brk
  | .cont => pure .cont
  | .empty => pure .empty
  | .identifier => .identifier <$> text "name"
  | .literal => .literal <$> .required "value" (fun part => constant .inBody part.value)
  | .assignment =>
    .assignment
      <$> .withDefault "op" .plain (fun part => plainWord AssignOp .inBody part.value)
      <*> node "left" <*> node "right"
  | .binary => .binary <$> wordField BinaryOp <*> node "left" <*> node "right"
  | .unary => .unary <$> wordField UnaryOp <*> node "operand"
  | .invocation => .invocation <$> node? "target" <*> text "method" <*> nodesOrNone "args"
  | .memberReference => .memberReference <$> node "target" <*> text "member"
  | .index => .index <$> node "target" <*> node "index"
  | .conditional => .conditional <$> node "cond" <*> node "then_value" <*> node "else_value"
  | .cast => .cast <$> tyField <*> node "expr"
  | .creation => .creation <$> tyField <*> nodesOrNone "args"
  | .this => pure .this
  | .super => pure .super

/-- The node whose members have all been taken. -/
def Header.body (h : Header) : Reading Body := do
  let (t, fields) ← takeKind none h.others.reverse
  return .node h.note (← (kind t).run fields)

def notANode (found : Found) : Mismatch := .wrongType found "struct JsonNode"

mutual

def body : Value → Reading Body
  | .object members => do
    let h ← (parts members).foldlM Header.take {}
    h.body
  | v => .error (notANode (.of v))

def parts : List (String × Value) → List (String × Part)
  | [] => []
  | (name, v) :: rest => (name, ⟨v, body v, bodyList v⟩) :: parts rest

def bodyList : Value → Reading (List Body)
  | .array elements => bodies elements
  | v => .error (.wrongType (.of v) "a sequence")

def bodies : List Value → Reading (List Body)
  | [] => .ok []
  | v :: vs => return (← body v) :: (← bodies vs)

end

def part (v : Value) : Part := ⟨v, body v, bodyList v⟩

end Read

end LocalScope
