import LocalScope.Json.Value

namespace LocalScope.Json

/- `bad` stands for text that is no token; nothing follows it. -/
inductive Token where
  | openBrace | closeBrace
  | openBracket | closeBracket
  | colon | comma
  | null
  | bool (value : Bool)
  | number (value : Number)
  | string (value : String)
  | bad
deriving DecidableEq, Repr

namespace Token

def isBlank (c : Char) : Bool := c == ' ' || c == '\n' || c == '\t' || c == '\r'

def digit? (c : Char) : Option Nat :=
  if c.isDigit then some (c.toNat - 48) else none

def hexDigit? (c : Char) : Option Nat :=
  if c.isDigit then some (c.toNat - 48)
  else if 'a' ≤ c ∧ c ≤ 'f' then some (c.toNat - 87)
  else if 'A' ≤ c ∧ c ≤ 'F' then some (c.toNat - 55)
  else none

def hex4? (a b c d : Char) : Option Nat := do
  return (((← hexDigit? a) * 16 + (← hexDigit? b)) * 16 + (← hexDigit? c)) * 16 + (← hexDigit? d)

def escape? (c : Char) : Option Char :=
  if c == '"' || c == '\\' || c == '/' then some c
  else if c == 'b' then some '\x08'
  else if c == 'f' then some '\x0c'
  else if c == 'n' then some '\n'
  else if c == 'r' then some '\r'
  else if c == 't' then some '\t'
  else none

/-- The character of a code unit pair beyond the first plane. -/
def pairChar (high low : Nat) : Char :=
  Char.ofNat (0x10000 + (high - 0xd800) * 0x400 + (low - 0xdc00))

/-- The characters up to the closing quote, last one first, and what follows it. Code units that
make up no character are refused. -/
def stringBody (read : List Char) : List Char → Option (List Char × List Char)
  | [] => none
  | '"' :: rest => some (read, rest)
  | '\\' :: 'u' :: a :: b :: c :: d :: rest =>
    match hex4? a b c d with
    | none => none
    | some unit =>
      if 0xd800 ≤ unit ∧ unit < 0xdc00 then
        match rest with
        | '\\' :: 'u' :: a :: b :: c :: d :: rest =>
          match hex4? a b c d with
          | none => none
          | some low =>
            if 0xdc00 ≤ low ∧ low < 0xe000 then stringBody (pairChar unit low :: read) rest
            else none
        | _ => none
      else if 0xdc00 ≤ unit ∧ unit < 0xe000 then none
      else stringBody (Char.ofNat unit :: read) rest
  | '\\' :: c :: rest =>
    match escape? c with
    | some e => stringBody (e :: read) rest
    | none => none
  | c :: rest => if c.toNat < 0x20 then none else stringBody (c :: read) rest

/-- The greatest significand that is gathered; digits that would exceed it are left. -/
def significandLimit : Nat := UInt64.size - 1

def gather (significand : Nat) : List Nat → Nat × List Nat
  | [] => (significand, [])
  | d :: ds =>
    if significandLimit < significand * 10 + d then (significand, d :: ds)
    else gather (significand * 10 + d) ds

/-- A written number taken apart; without point and exponent it may be whole. -/
structure Numeral where
  negative : Bool
  whole : List Nat
  fraction : Option (List Nat)
  exponent : Option Int

namespace Numeral

def scaled? (n : Numeral) : Option Binary64 :=
  let (significand, dropped) := gather 0 n.whole
  let digits := n.fraction.getD []
  let (significand, unread) := gather significand digits
  let exponent := (dropped.length : Int) - (digits.length - unread.length : Nat)
  Binary64.ofDecimal? n.negative significand (exponent + n.exponent.getD 0)

def number? (n : Numeral) : Option Number :=
  match n.fraction, n.exponent, gather 0 n.whole with
  | none, none, (value, []) =>
    if !n.negative then some (.int value)
    else if 0 < value ∧ value ≤ Nat.pow 2 63 then some (.int (-(value : Int)))
    else some (.float (.ofMagnitudeBits true (Binary64.nearestBits value 1)))
  | _, _, _ => n.scaled?.map .float

end Numeral

def digits (cs : List Char) : List Nat × List Char :=
  ((cs.takeWhile Char.isDigit).filterMap digit?, cs.dropWhile Char.isDigit)

def decimalValue (ds : List Nat) : Nat := ds.foldl (fun n d => n * 10 + d) 0

/-- No leading zero before another digit, and at least one digit. -/
def wholePart? (cs : List Char) : Option (List Nat × List Char) :=
  match digits cs with
  | ([], _) => none
  | (0 :: _ :: _, _) => none
  | (ds, rest) => some (ds, rest)

def fractionPart? : List Char → Option (Option (List Nat) × List Char)
  | '.' :: rest =>
    match digits rest with
    | ([], _) => none
    | (ds, rest) => some (some ds, rest)
  | cs => some (none, cs)

def exponentDigits? (sign : Int) (cs : List Char) : Option (Option Int × List Char) :=
  match digits cs with
  | ([], _) => none
  | (ds, rest) => some (some (sign * decimalValue ds), rest)

def exponentPart? : List Char → Option (Option Int × List Char)
  | c :: rest =>
    if c == 'e' || c == 'E' then
      match rest with
      | '+' :: rest => exponentDigits? 1 rest
      | '-' :: rest => exponentDigits? (-1) rest
      | rest => exponentDigits? 1 rest
    else some (none, c :: rest)
  | [] => some (none, [])

def number? (negative : Bool) (cs : List Char) : Option (Number × List Char) := do
  let (whole, cs) ← wholePart? cs
  let (fraction, cs) ← fractionPart? cs
  let (exponent, cs) ← exponentPart? cs
  let n ← Numeral.number? ⟨negative, whole, fraction, exponent⟩
  return (n, cs)

/-- The first token of a text that does not start with a blank. -/
def first? : List Char → Option (Token × List Char)
  | '\x7b' :: rest => some (openBrace, rest)
  | '\x7d' :: rest => some (closeBrace, rest)
  | '[' :: rest => some (openBracket, rest)
  | ']' :: rest => some (closeBracket, rest)
  | ':' :: rest => some (colon, rest)
  | ',' :: rest => some (comma, rest)
  | 'n' :: 'u' :: 'l' :: 'l' :: rest => some (null, rest)
  | 't' :: 'r' :: 'u' :: 'e' :: rest => some (bool true, rest)
  | 'f' :: 'a' :: 'l' :: 's' :: 'e' :: rest => some (bool false, rest)
  | '"' :: rest =>
    (stringBody [] rest).map fun (read, rest) => (string (.ofList read.reverse), rest)
  | '-' :: rest => (number? true rest).map fun (n, rest) => (number n, rest)
  | cs => (number? false cs).map fun (n, rest) => (number n, rest)

/- Every token takes at least one character, so the length of the text bounds their number. -/
def upTo : Nat → List Char → List Token
  | 0, _ => []
  | bound + 1, cs =>
    match cs.dropWhile isBlank with
    | [] => []
    | cs =>
      match first? cs with
      | none => [bad]
      | some (token, rest) => token :: upTo bound rest

def ofText (text : String) : List Token :=
  let cs := text.toList
  upTo (cs.length + 1) cs

end Token

end LocalScope.Json
