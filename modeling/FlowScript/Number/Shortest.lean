import FlowScript.Number.Binary64
/-!
# The shortest decimal of a double

The reals that round to the double `m · 2 ^ q` form an interval around it.  Its shortest decimal is
the one with the fewest digits in that interval, and of two such the nearer one.  If a decimal of a
given digit count lies in the interval then so does one of the two decimals of that count next to
the double itself, so only these two are tried for each count.
-/

namespace FlowScript

/-- The powers of ten. -/
def powerOfTen (exponent : Nat) : Nat := Nat.pow 10 exponent

/-- The number `digits · 10 ^ exponent`. -/
structure Decimal where
  digits : Nat
  exponent : Int
  deriving DecidableEq, Repr, Inhabited

namespace Decimal

/-- A positive double in quarters of its last place: `center`, and the ends of the interval that
rounds to it, all times `2 ^ exponent`. The ends belong to it exactly if `closed`. -/
structure Rounding where
  low : Nat
  center : Nat
  high : Nat
  exponent : Int
  closed : Bool
  deriving Repr

/-- The interval that rounds to `mantissa · 2 ^ exponent`. Below a power of two the spacing is half
of that above, except at the smallest exponent. -/
def Rounding.of (mantissa : Nat) (exponent : Int) : Rounding :=
  let below := if mantissa = powerOfTwo 52 ∧ exponent ≠ -1074 then 1 else 2
  { low := 4 * mantissa - below
    center := 4 * mantissa
    high := 4 * mantissa + 2
    exponent := exponent - 2
    closed := mantissa % 2 = 0 }

/-- The number of digits before the point of a positive number `value · 2 ^ exponent`; for a number
below one, minus the number of zeros right after the point. -/
def magnitude (value : Nat) (exponent : Int) : Int :=
  let num := value * powerOfTwo exponent.toNat
  let den := powerOfTwo (-exponent).toNat
  if den ≤ num then (Nat.toDigits 10 (num / den)).length
  else
    match (List.range 400).find? fun zeros => den ≤ num * powerOfTen (zeros + 1) with
    | some zeros => -zeros
    | none => -400

/-- The decimal with `count` digits in the interval that is nearest to the center, if there is one;
of two equally near the one with an even last digit. -/
def candidate? (r : Rounding) (point : Int) (count : Nat) : Option Decimal :=
  let place := point - count
  let decimal (d : Nat) : Nat := d * powerOfTen place.toNat * powerOfTwo (-r.exponent).toNat
  let binary (b : Nat) : Nat := b * powerOfTwo r.exponent.toNat * powerOfTen (-place).toNat
  let inside (d : Nat) : Bool :=
    if r.closed then binary r.low ≤ decimal d && decimal d ≤ binary r.high
    else binary r.low < decimal d && decimal d < binary r.high
  let lower := binary r.center / decimal 1
  let upper := lower + 1
  let toLower := binary r.center - decimal lower
  let toUpper := decimal upper - binary r.center
  let preferLower := toLower < toUpper || (toLower = toUpper && lower % 2 = 0)
  if inside lower && (preferLower || !inside upper) then some ⟨lower, place⟩
  else if inside upper then some ⟨upper, place⟩
  else none

/-- The shortest decimal that rounds to the positive double `mantissa · 2 ^ exponent`; seventeen
digits always suffice. -/
def shortest (mantissa : Nat) (exponent : Int) : Decimal :=
  let r := Rounding.of mantissa exponent
  let point := magnitude r.center r.exponent
  ((List.range 17).findSome? fun count => candidate? r point (count + 1)).getD ⟨0, 0⟩

example : shortest (powerOfTwo 52) (-52) = ⟨1, 0⟩ := by decide +kernel

example : shortest 7205759403792794 (-56) = ⟨1, -1⟩ := by decide +kernel

example : shortest 1 (-1074) = ⟨5, -324⟩ := by decide +kernel

end Decimal

end FlowScript
