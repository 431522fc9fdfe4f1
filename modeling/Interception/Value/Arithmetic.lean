import Interception.Value

namespace Interception.Value

inductive Operator
  | add | sub | mul
  deriving DecidableEq, Repr

namespace Operator

def onInts : Operator → Int64 → Int64 → Int64
  | add => (· + ·)
  | sub => (· - ·)
  | mul => (· * ·)

def onFloats : Operator → Float → Float → Float
  | add => (· + ·)
  | sub => (· - ·)
  | mul => (· * ·)

end Operator

def floatOfInt (n : Int64) : Float := Float.ofInt n.toInt

inductive Numbers
  | ints (x y : Int64)
  | floats (x y : Float)

def numbers? : Value → Value → Option Numbers
  | int x, int y => some (.ints x y)
  | int x, float y => some (.floats (floatOfInt x) y)
  | float x, int y => some (.floats x (floatOfInt y))
  | float x, float y => some (.floats x y)
  | _, _ => none

def arithmetic? (op : Operator) (a b : Value) : Option Value :=
  (numbers? a b).map fun
    | .ints x y => int (op.onInts x y)
    | .floats x y => float (op.onFloats x y)

def less? (a b : Value) : Option Bool :=
  (numbers? a b).map fun
    | .ints x y => decide (x < y)
    | .floats x y => decide (x < y)

def equal : Value → Value → Bool
  | null, null => true
  | bool a, bool b => a == b
  | int x, int y => x == y
  | int x, float y => floatOfInt x == y
  | float x, int y => floatOfInt y == x
  | float x, float y => x == y
  | _, _ => false

end Interception.Value
