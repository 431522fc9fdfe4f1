import Interception.Decimal.Shortest
import Interception.Value

namespace Interception

namespace Decimal

/-- The numbers nearest to the binary64 number `mantissa · 2 ^ (exponent - 1075)`, whose lower neighbour
is half as far away if the mantissa is the least of its binade. Ties read back as an even mantissa. -/
def binary64Interval (mantissa exponent : Nat) : Interval :=
  let gapBelow := if mantissa = Nat.pow 2 52 ∧ 1 < exponent then 1 else 2
  let scale := Nat.pow 2 (exponent - 1077)
  { low := (4 * mantissa - gapBelow) * scale
    value := 4 * mantissa * scale
    high := (4 * mantissa + 2) * scale
    denominator := Nat.pow 2 (1077 - exponent)
    closed := mantissa % 2 = 0 }

def binary64Text (mantissa exponent : Nat) : String :=
  let i := binary64Interval mantissa exponent
  match i.search i.ceilingExponent 18 with
  | some s => s.text
  | none => ""

end Decimal

namespace Value

def floatText (x : Float) : String :=
  let bits := x.toBits.toNat
  let sign := if bits / Nat.pow 2 63 = 1 then "-" else ""
  let exponent := bits / Nat.pow 2 52 % Nat.pow 2 11
  let fraction := bits % Nat.pow 2 52
  if exponent = 2047 then
    if fraction = 0 then sign ++ "inf" else "NaN"
  else if exponent = 0 then
    if fraction = 0 then sign ++ "0" else sign ++ Decimal.binary64Text fraction 1
  else sign ++ Decimal.binary64Text (Nat.pow 2 52 + fraction) exponent

def text : Value → String
  | null => "null"
  | bool b => if b then "true" else "false"
  | int n => toString n.toInt
  | float x => floatText x

end Value

end Interception
