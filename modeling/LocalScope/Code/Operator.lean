namespace LocalScope

/- A vocabulary is a finite list of words, each with one spelling. Documents name operators,
primitive types and node kinds by such words, and complaints about an unknown word list them all
in this order. -/
class Vocabulary (α : Type) where
  words : List α
  spelling : α → String

namespace Vocabulary

variable {α : Type} [Vocabulary α]

def spellings (α : Type) [Vocabulary α] : List String := (words : List α).map spelling

def ofSpelling? (s : String) : Option α := words.find? fun w => spelling w == s

end Vocabulary

/-- Operators on two values that both a binary expression and a compound assignment can use. -/
inductive Arithmetic where
  | add | sub | mul | div | rem
  | bitAnd | bitOr | bitXor
  | shl | shr | ushr
deriving DecidableEq, Repr

namespace Arithmetic

def words : List Arithmetic :=
  [add, sub, mul, div, rem, bitAnd, bitOr, bitXor, shl, shr, ushr]

def spelling : Arithmetic → String
  | add => "add"
  | sub => "sub"
  | mul => "mul"
  | div => "div"
  | rem => "rem"
  | bitAnd => "bit_and"
  | bitOr => "bit_or"
  | bitXor => "bit_xor"
  | shl => "shl"
  | shr => "shr"
  | ushr => "u_shr"

end Arithmetic

/-- `x = e`, or `x op= e`, which reads its target before writing it. -/
inductive AssignOp where
  | plain
  | compound (op : Arithmetic)
deriving DecidableEq, Repr

instance : Vocabulary AssignOp where
  words := .plain :: Arithmetic.words.map .compound
  spelling
    | .plain => "assign"
    | .compound op => op.spelling

inductive Comparison where
  | eq | ne | lt | le | gt | ge
deriving DecidableEq, Repr

inductive BinaryOp where
  | arithmetic (op : Arithmetic)
  | comparison (op : Comparison)
  | and
  | or
deriving DecidableEq, Repr

instance : Vocabulary BinaryOp where
  words :=
    Arithmetic.words.map .arithmetic ++
    [.eq, .ne, .lt, .le, .gt, .ge].map .comparison ++
    [.and, .or]
  spelling
    | .arithmetic op => op.spelling
    | .comparison .eq => "eq"
    | .comparison .ne => "ne"
    | .comparison .lt => "lt"
    | .comparison .le => "le"
    | .comparison .gt => "gt"
    | .comparison .ge => "ge"
    | .and => "and"
    | .or => "or"

/-- The right operand may be left out of an evaluation. -/
def BinaryOp.isShortCircuit : BinaryOp → Bool
  | .and | .or => true
  | _ => false

inductive UnaryOp where
  | neg | not | bitNot
  | preIncrement | preDecrement
  | postIncrement | postDecrement
deriving DecidableEq, Repr

instance : Vocabulary UnaryOp where
  words :=
    [.neg, .not, .bitNot, .preIncrement, .preDecrement, .postIncrement, .postDecrement]
  spelling
    | .neg => "neg"
    | .not => "not"
    | .bitNot => "bit_not"
    | .preIncrement => "pre_increment"
    | .preDecrement => "pre_decrement"
    | .postIncrement => "post_increment"
    | .postDecrement => "post_decrement"

/-- The operators that read and write their operand. -/
def UnaryOp.isIncrement : UnaryOp → Bool
  | .preIncrement | .preDecrement | .postIncrement | .postDecrement => true
  | .neg | .not | .bitNot => false

end LocalScope
