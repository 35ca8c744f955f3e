import LocalScope.Json.Value
import LocalScope.Text.Quoted

namespace LocalScope.Json

/- Writing adds to the end of the text written so far. Only what must be escaped is. -/

def hex4 (n : Nat) : String :=
  let digits := Nat.toDigits 16 n
  String.ofList (List.replicate (4 - digits.length) '0' ++ digits)

def putChar (out : String) (c : Char) : String :=
  if c == '"' then out ++ "\\\""
  else if c == '\\' then out ++ "\\\\"
  else if c.toNat ≥ 0x20 then out.push c
  else if c.toNat = 0x08 then out ++ "\\b"
  else if c == '\t' then out ++ "\\t"
  else if c == '\n' then out ++ "\\n"
  else if c.toNat = 0x0c then out ++ "\\f"
  else if c == '\r' then out ++ "\\r"
  else out ++ "\\u" ++ hex4 c.toNat

def putString (out : String) (s : String) : String :=
  (s.toList.foldl putChar (out.push '"')).push '"'

def putScalar (out : String) : Value → String
  | .null => out ++ "null"
  | .bool true => out ++ "true"
  | .bool false => out ++ "false"
  | .number n => out ++ n.text
  | .string s => putString out s
  | .array _ => out
  | .object _ => out

mutual

def putCompact (out : String) : Value → String
  | .array elements => (putElements (out.push '[') true elements).push ']'
  | .object members => (putMembers (out.push '\x7b') true members).push '\x7d'
  | v => putScalar out v

def putElements (out : String) (first : Bool) : List Value → String
  | [] => out
  | v :: vs => putElements (putCompact (if first then out else out.push ',') v) false vs

def putMembers (out : String) (first : Bool) : List (String × Value) → String
  | [] => out
  | (name, v) :: rest =>
    let out := putString (if first then out else out.push ',') name
    putMembers (putCompact (out.push ':') v) false rest

end

/-- No blanks at all. -/
def Value.compact (v : Value) : String := putCompact "" v

/-- Starts a line at a depth of nesting. -/
def newLine (out : String) (depth : Nat) : String :=
  (out.push '\n').append (String.ofList (List.replicate (2 * depth) ' '))

mutual

def putPretty (out : String) (depth : Nat) : Value → String
  | .array [] => out ++ "[]"
  | .array (v :: vs) =>
    let out := putPretty (newLine (out.push '[') (depth + 1)) (depth + 1) v
    (newLine (putPrettyElements out (depth + 1) vs) depth).push ']'
  | .object [] => out ++ "\x7b\x7d"
  | .object ((name, v) :: rest) =>
    let out := putString (newLine (out.push '\x7b') (depth + 1)) name ++ ": "
    let out := putPretty out (depth + 1) v
    (newLine (putPrettyMembers out (depth + 1) rest) depth).push '\x7d'
  | v => putScalar out v

def putPrettyElements (out : String) (depth : Nat) : List Value → String
  | [] => out
  | v :: vs => putPrettyElements (putPretty (newLine (out.push ',') depth) depth v) depth vs

def putPrettyMembers (out : String) (depth : Nat) : List (String × Value) → String
  | [] => out
  | (name, v) :: rest =>
    let out := putString (newLine (out.push ',') depth) name ++ ": "
    putPrettyMembers (putPretty out depth v) depth rest

end

/-- One member or element a line, two spaces to a level. -/
def Value.pretty (v : Value) : String := putPretty "" 0 v

end LocalScope.Json
