import LocalScope.Code.Constant
import LocalScope.Code.Ty
import LocalScope.Document.Fields

namespace LocalScope

open Json (Value)

/- What nodes hold besides children: numbers, texts, operators, types and constants. A word of a
vocabulary is a string, or an object with the word as its one name. Inside a body two more
spellings are taken: an empty object stands for the missing content of a word, and a named type
may list its parts without their names. -/
inductive Setting where
  | inBody
  | alone
deriving DecidableEq, Repr

namespace Read

def string : Value → Reading String
  | .string s => .ok s
  | v => .error (.wrongType (.of v) "a string")

def bool : Value → Reading Bool
  | .bool b => .ok b
  | v => .error (.wrongType (.of v) "a boolean")

def char : Value → Reading Char
  | .string s =>
    match s.toList with
    | [c] => .ok c
    | _ => .error (.wrongValue (.string s) "a character")
  | v => .error (.wrongType (.of v) "a character")

def int64 : Value → Reading Int64
  | .number (.int n) =>
    if Int64.minValue.toInt ≤ n ∧ n ≤ Int64.maxValue.toInt then .ok (Int64.ofInt n)
    else .error (.wrongValue (.int n) "i64")
  | v => .error (.wrongType (.of v) "i64")

def binary64 : Value → Reading Binary64
  | .number (.int n) => .ok (.ofInt n)
  | .number (.float x) => .ok x
  | v => .error (.wrongType (.of v) "f64")

/-- An identifier, which may also be given as absent. -/
def id? : Found → Reading (Option UInt32)
  | .null => .ok none
  | .int n =>
    if 0 ≤ n ∧ n < UInt32.size then .ok (some (UInt32.ofNat n.toNat))
    else .error (.wrongValue (.int n) "u32")
  | found => .error (.wrongType found "u32")

/-- A word and, where it was written as a name, what stands after the name. -/
def word : Value → Reading (String × Option Value)
  | .string w => .ok (w, none)
  | .object [(w, content)] => .ok (w, some content)
  | .object _ => .error (.wrongValue .map "map with a single key")
  | v => .error (.wrongType (.of v) "string or map")

/-- A word that stands for itself has no content. -/
def noContent (setting : Setting) : Option Value → Reading Unit
  | none => .ok ()
  | some .null => .ok ()
  | some (.object []) =>
    if setting = .inBody then .ok () else .error (.wrongType .map "unit")
  | some v => .error (.wrongType (.of v) "unit")

def content (read : Value → Reading α) : Option Value → Reading α
  | none => .error (.wrongType .bareWord "newtype variant")
  | some v => read v

def plainWord (α : Type) [Vocabulary α] (setting : Setting) (v : Value) : Reading α := do
  let (w, content) ← word v
  match Vocabulary.ofSpelling? w with
  | none => .error (.unknownWord w (Vocabulary.spellings α))
  | some x =>
    noContent setting content
    return x

def constantWords : List String := ["null", "bool", "int", "float", "char", "string"]

def constant (setting : Setting) (v : Value) : Reading Constant := do
  let (w, held) ← word v
  if w = "null" then
    noContent setting held
    return .null
  else if w = "bool" then .bool <$> content bool held
  else if w = "int" then .int <$> content int64 held
  else if w = "float" then .float <$> content binary64 held
  else if w = "char" then .char <$> content char held
  else if w = "string" then .string <$> content string held
  else .error (.unknownWord w constantWords)

def tyWords : List String := ["primitive", "named", "array"]

/-- A member of a named type, read both as any value and as a list of types. -/
structure TyPart where
  value : Value
  tys : Reading (List Ty)

def namedFields : Fields TyPart Ty :=
  Ty.named
    <$> .required "name" (fun part => string part.value)
    <*> .withDefault "args" [] (fun part => part.tys)

mutual

def ty (setting : Setting) : Value → Reading Ty
  | .string w =>
    if w = "named" then .error (.wrongType .bareWord "struct variant")
    else if w ∈ tyWords then .error (.wrongType .bareWord "newtype variant")
    else .error (.unknownWord w tyWords)
  | .object [(w, held)] =>
    if w = "primitive" then .primitive <$> plainWord Primitive setting held
    else if w = "named" then named setting held
    else if w = "array" then .array <$> ty setting held
    else .error (.unknownWord w tyWords)
  | .object _ => .error (.wrongValue .map "map with a single key")
  | v => .error (.wrongType (.of v) "string or map")

def named (setting : Setting) : Value → Reading Ty
  | .object members => namedFields.run (tyParts setting members)
  | .array elements =>
    if setting = .inBody then
      match elements with
      | [] => .error (.wrongLength 0 "struct variant AstType::Named with 2 elements")
      | [name] => return .named (← string name) []
      | name :: args :: rest => do
        let name ← string name
        let args ← tyList setting args
        if rest.isEmpty then return .named name args
        else .error (.wrongLength (rest.length + 2) "2 elements in sequence")
    else .error (.wrongType .sequence "struct variant")
  | v => .error (.wrongType (.of v) "struct variant")

def tyParts (setting : Setting) : List (String × Value) → List (String × TyPart)
  | [] => []
  | (name, v) :: rest => (name, ⟨v, tyList setting v⟩) :: tyParts setting rest

def tyList (setting : Setting) : Value → Reading (List Ty)
  | .array elements => tys setting elements
  | v => .error (.wrongType (.of v) "a sequence")

def tys (setting : Setting) : List Value → Reading (List Ty)
  | [] => .ok []
  | v :: vs => return (← ty setting v) :: (← tys setting vs)

end

end Read

namespace Write

mutual

def ty : Ty → Value
  | .primitive p => .object [("primitive", .string (Vocabulary.spelling p))]
  | .named name [] => .object [("named", .object [("name", .string name)])]
  | .named name (a :: as) =>
    .object [("named", .object [("name", .string name), ("args", .array (ty a :: tys as))])]
  | .array element => .object [("array", ty element)]

def tys : List Ty → List Value
  | [] => []
  | t :: ts => ty t :: tys ts

end

/-- JSON has no word for a number that is not finite. -/
def binary64 (x : Binary64) : Value := if x.isFinite then .number (.float x) else .null

def constant : Constant → Value
  | .null => .string "null"
  | .bool b => .object [("bool", .bool b)]
  | .int n => .object [("int", .int n.toInt)]
  | .float x => .object [("float", binary64 x)]
  | .char c => .object [("char", .string c.toString)]
  | .string s => .object [("string", .string s)]

def word {α : Type} [Vocabulary α] (w : α) : Value := .string (Vocabulary.spelling w)

end Write

end LocalScope
