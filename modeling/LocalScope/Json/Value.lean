import LocalScope.Number.Layout

namespace LocalScope.Json

/-- A number is whole when it is written without point and exponent and 64 bits can hold it. -/
inductive Number where
  | int (value : Int)
  | float (value : Binary64)
deriving DecidableEq, Repr

/- Objects keep their members in the order of the text, repeated names included: what a repeated
name means is for the reader of the value to say. -/
inductive Value where
  | null
  | bool (value : Bool)
  | number (value : Number)
  | string (value : String)
  | array (elements : List Value)
  | object (members : List (String × Value))

namespace Value

def int (n : Int) : Value := number (.int n)

def nat (n : Nat) : Value := number (.int n)

/- A dictionary has each name once, in order of the names; of a repeated name the last counts. -/
def put (name : String) (v : Value) : List (String × Value) → List (String × Value)
  | [] => [(name, v)]
  | (n, w) :: rest =>
    if name = n then (name, v) :: rest
    else if name < n then (name, v) :: (n, w) :: rest
    else (n, w) :: put name v rest

mutual

/-- The same value with every object made a dictionary. -/
def dictionary : Value → Value
  | array elements => array (dictionaries elements)
  | object members => object (merged [] members)
  | null => null
  | bool b => bool b
  | number n => number n
  | string s => string s

def dictionaries : List Value → List Value
  | [] => []
  | v :: vs => dictionary v :: dictionaries vs

def merged (done : List (String × Value)) : List (String × Value) → List (String × Value)
  | [] => done
  | (name, v) :: rest => merged (put name (dictionary v) done) rest

end

end Value

/-- Positional from `0.00001` up to sixteen places, a sign on every exponent. -/
def floatLayout : Layout := ⟨-5, 15, true, .even⟩

def Number.text : Number → String
  | int n => toString n
  | float x => floatLayout.render x

end LocalScope.Json
