import LocalScope.Text.CharClass

namespace LocalScope.Text

/- Quoted text as it appears in messages and in displayed constants: only the quote that is in
use is escaped, and what a reader could not see is written by its code point. -/

def hexDigits (n : Nat) : String := String.ofList (Nat.toDigits 16 n)

def codePoint (c : Char) : String := "\\u\x7b" ++ hexDigits c.toNat ++ "\x7d"

def escaped (quote c : Char) : String :=
  if c == '\x00' then "\\0"
  else if c == '\t' then "\\t"
  else if c == '\r' then "\\r"
  else if c == '\n' then "\\n"
  else if c == '\\' || c == quote then String.ofList ['\\', c]
  else if isMark c || isInvisible c then codePoint c
  else c.toString

def quoted (quote : Char) (cs : List Char) : String :=
  cs.foldl (fun out c => out ++ escaped quote c) quote.toString ++ quote.toString

def quotedString (s : String) : String := quoted '"' s.toList

def quotedChar (c : Char) : String := quoted '\'' [c]

end LocalScope.Text
