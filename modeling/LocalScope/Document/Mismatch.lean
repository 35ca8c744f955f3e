import LocalScope.Json.Value
import LocalScope.Text.Quoted

namespace LocalScope

/-- What was found where something else was expected. -/
inductive Found where
  | null
  | bool (value : Bool)
  | int (value : Int)
  | float (value : Binary64)
  | string (value : String)
  | sequence
  | map
  | bareWord
deriving DecidableEq

namespace Found

def of : Json.Value → Found
  | .null => null
  | .bool b => bool b
  | .number (.int n) => int n
  | .number (.float x) => float x
  | .string s => string s
  | .array _ => sequence
  | .object _ => map

def text : Found → String
  | null => "null"
  | bool true => "boolean `true`"
  | bool false => "boolean `false`"
  | int n => "integer `" ++ toString n ++ "`"
  | float x => "floating point `" ++ Json.floatLayout.render x ++ "`"
  | string s => "string " ++ Text.quotedString s
  | sequence => "sequence"
  | map => "map"
  | bareWord => "unit variant"

end Found

/-- How a value fails to be what a document should hold. -/
inductive Mismatch where
  | wrongType (found : Found) (expected : String)
  | wrongValue (found : Found) (expected : String)
  | wrongLength (length : Nat) (expected : String)
  | missingField (name : String)
  | duplicateField (name : String)
  | unknownWord (word : String) (known : List String)
deriving DecidableEq

def Mismatch.message : Mismatch → String
  | wrongType found expected => "invalid type: " ++ found.text ++ ", expected " ++ expected
  | wrongValue found expected => "invalid value: " ++ found.text ++ ", expected " ++ expected
  | wrongLength length expected =>
    "invalid length " ++ toString length ++ ", expected " ++ expected
  | missingField name => "missing field `" ++ name ++ "`"
  | duplicateField name => "duplicate field `" ++ name ++ "`"
  | unknownWord word known =>
    "unknown variant `" ++ word ++ "`, expected one of " ++
      ", ".intercalate (known.map fun w => "`" ++ w ++ "`")

/-- Why a text cannot be read: it is no JSON, or its JSON is not what it should be. -/
inductive ReadError where
  | illFormed
  | mismatch (m : Mismatch)
deriving DecidableEq

end LocalScope
