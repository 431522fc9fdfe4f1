namespace Interception

inductive Tag
  | null | bool | int | float
  deriving DecidableEq, Inhabited, Repr

def Tag.name : Tag → String
  | .null => "null"
  | .bool => "bool"
  | .int => "int"
  | .float => "float"

/-- Integers are 64-bit words, floats are binary64 numbers with a single NaN. -/
inductive Value
  | null
  | bool (b : Bool)
  | int (n : Int64)
  | float (x : Float)
  deriving DecidableEq, Inhabited

namespace Value

def tag : Value → Tag
  | null => .null
  | bool _ => .bool
  | int _ => .int
  | float _ => .float

def truthy : Value → Bool
  | null => false
  | bool b => b
  | _ => true

end Value

end Interception
