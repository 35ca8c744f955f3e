import LocalScope.Number.Layout
import LocalScope.Text.Quoted

namespace LocalScope

inductive Constant where
  | null
  | bool (value : Bool)
  | int (value : Int64)
  | float (value : Binary64)
  | char (value : Char)
  | string (value : String)
deriving DecidableEq

namespace Constant

/-- Positional from `0.0001` up to sixteen places, no sign on a positive exponent. -/
def floatLayout : Layout := ⟨-4, 15, false, .up⟩

/-- The constant as a reader sees it in listings. -/
def text : Constant → String
  | null => "null"
  | bool true => "true"
  | bool false => "false"
  | int n => toString n.toInt
  | float x => floatLayout.render x
  | char c => Text.quotedChar c
  | string s => Text.quotedString s

end Constant

end LocalScope
