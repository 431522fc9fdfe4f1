/-!
Shortest decimals. A fraction is given with the interval of numbers that stand for it; the shortest decimal
is the point of the coarsest power-of-ten grid in that interval, and of two such points the nearer one.
-/

namespace Interception.Decimal

structure Scaled where
  digits : Nat
  exponent : Int
  deriving DecidableEq, Repr

/-- Numerators over a common denominator. The bounds themselves belong to the interval if it is closed. -/
structure Interval where
  low : Nat
  value : Nat
  high : Nat
  denominator : Nat
  closed : Bool
  deriving DecidableEq, Repr

namespace Interval

def contains (i : Interval) (k : Int) (d : Nat) : Bool :=
  let point := d * (i.denominator * Nat.pow 10 k.toNat)
  let low := i.low * Nat.pow 10 (-k).toNat
  let high := i.high * Nat.pow 10 (-k).toNat
  if i.closed then low ≤ point ∧ point ≤ high else low < point ∧ point < high

def onGrid? (i : Interval) (k : Int) : Option Nat :=
  let unit := i.denominator * Nat.pow 10 k.toNat
  let value := i.value * Nat.pow 10 (-k).toNat
  let below := value / unit
  match i.contains k below, i.contains k (below + 1) with
  | true, true => some (if 2 * (value % unit) < unit then below else below + 1)
  | true, false => some below
  | false, true => some (below + 1)
  | false, false => none

def digitCount (n : Nat) : Nat := (Nat.toDigits 10 n).length

def ceilingExponent (i : Interval) : Int :=
  if i.denominator ≤ i.value then digitCount (i.value / i.denominator)
  else 1 - (digitCount ((i.denominator - 1) / i.value) : Int)

def search (i : Interval) (k : Int) : Nat → Option Scaled
  | 0 => none
  | count + 1 =>
    match i.onGrid? k with
    | some d => some ⟨d, k⟩
    | none => search i (k - 1) count

end Interval

def Scaled.text (s : Scaled) : String :=
  let digits := Nat.toDigits 10 s.digits
  let places := (-s.exponent).toNat
  if places < digits.length then
    let whole := digits.take (digits.length - places)
    let fraction := digits.drop (digits.length - places)
    String.ofList (whole ++ List.replicate s.exponent.toNat '0' ++
      (if fraction.isEmpty then [] else '.' :: fraction))
  else String.ofList ('0' :: '.' :: (List.replicate (places - digits.length) '0' ++ digits))

end Interception.Decimal
