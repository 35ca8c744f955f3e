import LocalScope.Json.Token

namespace LocalScope.Json

/-- A list or object whose end has not come yet; elements and members are held last one first. -/
inductive Frame where
  | array (elements : List Value)
  | object (members : List (String × Value)) (name : String)

namespace Parse

/- The parser takes one token at a time and keeps what is still open in a stack of frames, so a
value ends where the stack runs out. A list or object may end where its first entry could start,
but not after a comma; a frame shows which, since entries before a comma are in it. Nothing is
returned for ill-formed text, and having more than `room` brackets open at once is ill-formed. -/
mutual

def value (room : Nat) (stack : List Frame) : List Token → Option (Value × List Token)
  | .null :: rest => finished room stack .null rest
  | .bool b :: rest => finished room stack (.bool b) rest
  | .number n :: rest => finished room stack (.number n) rest
  | .string s :: rest => finished room stack (.string s) rest
  | .openBracket :: rest =>
    if stack.length < room then value room (.array [] :: stack) rest else none
  | .closeBracket :: rest =>
    match stack with
    | .array [] :: stack => finished room stack (.array []) rest
    | _ => none
  | .openBrace :: rest =>
    if stack.length < room then member room stack [] rest else none
  | _ => none

def member (room : Nat) (stack : List Frame) (members : List (String × Value)) :
    List Token → Option (Value × List Token)
  | .string name :: .colon :: rest => value room (.object members name :: stack) rest
  | .closeBrace :: rest =>
    if members.isEmpty then finished room stack (.object []) rest else none
  | _ => none

/-- Hands a complete value to the innermost frame. -/
def finished (room : Nat) (stack : List Frame) (v : Value) (rest : List Token) :
    Option (Value × List Token) :=
  match stack, rest with
  | [], rest => some (v, rest)
  | .array elements :: stack, .comma :: rest =>
    value room (.array (v :: elements) :: stack) rest
  | .array elements :: stack, .closeBracket :: rest =>
    finished room stack (.array (v :: elements).reverse) rest
  | .object members name :: stack, .comma :: rest =>
    member room stack ((name, v) :: members) rest
  | .object members name :: stack, .closeBrace :: rest =>
    finished room stack (.object ((name, v) :: members).reverse) rest
  | _ :: _, _ => none

end

end Parse

/-- How many brackets may be open at once. -/
def maxDepth : Nat := 127

/-- The value at the start of a list of tokens, and the tokens after it. -/
def Value.parse? (room : Nat) (tokens : List Token) : Option (Value × List Token) :=
  Parse.value room [] tokens

/-- The one value that a text holds. -/
def Value.ofText? (text : String) : Option Value :=
  match parse? maxDepth (Token.ofText text) with
  | some (v, []) => some v
  | _ => none

end LocalScope.Json
