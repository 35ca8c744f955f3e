import LocalScope.Document.Read
import LocalScope.Json.Print

namespace LocalScope

open Json (Value Token maxDepth)

/- Reading from text goes from left to right and stops at the first fault, so a text may be
refused for what it says before the place where it stops being JSON. The outermost object is taken
member by member; what stands deeper is first taken as JSON only. -/
namespace Read

/-- What the first token announces. -/
def announced : List Token → Except ReadError Found
  | .null :: _ => .ok .null
  | .bool b :: _ => .ok (.bool b)
  | .number (.int n) :: _ => .ok (.int n)
  | .number (.float x) :: _ => .ok (.float x)
  | .string s :: _ => .ok (.string s)
  | .openBracket :: _ => .ok .sequence
  | .openBrace :: _ => .ok .map
  | _ => .error .illFormed

def settled {α : Type} : Reading α → Except ReadError α
  | .ok x => .ok x
  | .error m => .error (.mismatch m)

/-- What stands after the colon. -/
def afterColon : List Token → Except ReadError (List Token)
  | .colon :: rest => .ok rest
  | _ => .error .illFormed

/-- One member, from its name on. A name given again is refused before its value is looked at. -/
def member (h : Header) : List Token → Except ReadError (Header × List Token)
  | .string name :: rest =>
    match NodeName.ofName? name with
    | some key => do
      settled (h.refuseAgain key)
      let rest ← afterColon rest
      let id ← settled (id? (← announced rest))
      return (h.setId key id, rest.tail)
    | none => do
      match Value.parse? (maxDepth - 1) (← afterColon rest) with
      | some (v, rest) => return (h.keep name (part v), rest)
      | none => .error .illFormed
  | _ => .error .illFormed

/- A member takes more than one token, so the number of tokens bounds that of members. -/
def members : Nat → Header → List Token → Except ReadError (Header × List Token)
  | 0, _, _ => .error .illFormed
  | bound + 1, h, tokens => do
    match ← member h tokens with
    | (h, .comma :: rest) => members bound h rest
    | (h, .closeBrace :: rest) => return (h, rest)
    | _ => .error .illFormed

def outermost : List Token → Except ReadError (Header × List Token)
  | .openBrace :: .closeBrace :: rest => .ok ({}, rest)
  | .openBrace :: rest => members rest.length {} rest
  | tokens => do .error (.mismatch (notANode (← announced tokens)))

/-- Nothing may follow the value that was read. -/
def ended {α : Type} (x : α) : List Token → Except ReadError α
  | [] => .ok x
  | _ => .error .illFormed

/-- Strings of a list, up to its end. -/
def strings : List Token → Except ReadError (List String × List Token)
  | .string s :: .comma :: rest => do
    let (ss, rest) ← strings rest
    return (s :: ss, rest)
  | .string s :: .closeBracket :: rest => .ok ([s], rest)
  | .string _ :: _ => .error .illFormed
  | tokens => do .error (.mismatch (.wrongType (← announced tokens) "a string"))

end Read

open Read in
def Body.ofText (text : String) : Except ReadError Body := do
  let (h, rest) ← outermost (Token.ofText text)
  let b ← settled h.body
  ended b rest

open Read in
/-- A constant that stands alone. Of a repeated name in it the last counts. -/
def Constant.ofText (text : String) : Except ReadError Constant :=
  match Value.ofText? text with
  | none => .error .illFormed
  | some v => settled (constant .alone v.dictionary)

open Read in
/-- A type that stands alone. Of a repeated name in it the last counts. -/
def Ty.ofText (text : String) : Except ReadError Ty :=
  match Value.ofText? text with
  | none => .error .illFormed
  | some v => settled (ty .alone v.dictionary)

open Read in
/-- A list of strings. -/
def stringsOfText (text : String) : Except ReadError (List String) :=
  match Token.ofText text with
  | .openBracket :: .closeBracket :: rest => ended [] rest
  | .openBracket :: rest => do
    let (ss, rest) ← strings rest
    ended ss rest
  | tokens => do .error (.mismatch (.wrongType (← announced tokens) "a sequence"))

def textOfStrings (ss : List String) : String := (Value.array (ss.map .string)).compact

end LocalScope
