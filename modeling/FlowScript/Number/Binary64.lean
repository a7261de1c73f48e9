/-!
# Exact arithmetic on doubles

A finite double is a whole number times a power of two.  This module takes it apart
(`Binary64.decode`), puts it together again (`Binary64.encode`), and gives the three operations
that the language defines on the exact values: comparing a whole number with a double, widening a
whole number to a double, and the remainder of a division rounded toward zero.
-/

namespace FlowScript

/-- The powers of two. -/
def powerOfTwo (exponent : Nat) : Nat := Nat.pow 2 exponent

/-- What a double stands for: no number, an infinity, or `mantissa · 2 ^ exponent` with a sign. -/
inductive Binary64 where
  /-- Not a number. -/
  | nan
  /-- One of the two infinities. -/
  | infinite (negative : Bool)
  /-- A finite number, zero included. -/
  | finite (negative : Bool) (mantissa : Nat) (exponent : Int)
  deriving DecidableEq, Repr

namespace Binary64

/-- The parts of a double. A normal double has a mantissa of 53 bits, and the least exponent,
shared with the subnormal ones, is `-1074`. -/
def decode (x : Float) : Binary64 :=
  let bits := x.toBits.toNat
  let negative := decide (powerOfTwo 63 ≤ bits)
  let field : Nat := bits / powerOfTwo 52 % powerOfTwo 11
  let fraction : Nat := bits % powerOfTwo 52
  if field = 2047 then
    if fraction = 0 then .infinite negative else .nan
  else if field = 0 then .finite negative fraction (-1074)
  else .finite negative (powerOfTwo 52 + fraction) (field - 1075)

/-- The double `mantissa · 2 ^ exponent`, for a mantissa below `2 ^ 53` and an exponent of at least
`-1074` whose product is within range. -/
def encode (negative : Bool) (mantissa : Nat) (exponent : Int) : Float :=
  let shift := min (52 - mantissa.log2) (exponent + 1074).toNat
  let scaled := mantissa * powerOfTwo shift
  let field := if scaled < powerOfTwo 52 then 0 else (exponent - shift + 1075).toNat
  let sign := if negative then powerOfTwo 63 else 0
  Float.ofBits (sign + field * powerOfTwo 52 + scaled % powerOfTwo 52).toUInt64

/-- Whether a double is one of the two zeros. -/
def isZero (x : Float) : Bool :=
  match decode x with
  | .finite _ mantissa _ => mantissa = 0
  | _ => false

/-- Compares the exact values of a whole number and a double; no number compares with `nan`. -/
def compareInt (n : Int) (x : Float) : Option Ordering :=
  match decode x with
  | .nan => none
  | .infinite negative => some (if negative then .gt else .lt)
  | .finite negative mantissa exponent =>
    let signed : Int := if negative then -mantissa else mantissa
    let left := n * powerOfTwo (-exponent).toNat
    let right := signed * powerOfTwo exponent.toNat
    some (compare left right)

/-- The least magnitude that rounds to no finite double. -/
def overflow : Nat := powerOfTwo 1024 - powerOfTwo 970

/-- The double nearest to a whole number, the even one of two; `none` beyond the range. -/
def ofInt? (n : Int) : Option Float :=
  if overflow ≤ n.natAbs then none else some (Float.ofInt n)

/-- The remainder of `x` by `y` for the quotient rounded toward zero, which is always exact. It has
the sign of `x`; an infinite `x`, or a zero `y`, has none. -/
def remainder? (x y : Float) : Option Float :=
  match decode x, decode y with
  | .nan, _ => some x
  | _, .nan => some y
  | .infinite _, _ => none
  | .finite .., .infinite _ => some x
  | .finite negative m p, .finite _ n q =>
    if n = 0 then none
    else
      let least := min p q
      let left := m * powerOfTwo (p - least).toNat
      let right := n * powerOfTwo (q - least).toNat
      some (encode negative (left % right) least)

/-- If the divisor is no zero, only an infinite double has no remainder. -/
theorem infinite_of_remainder?_eq_none {x y : Float} (none : remainder? x y = none)
    (notZero : isZero y = false) : ∃ negative, decode x = .infinite negative := by
  unfold remainder? at none
  unfold isZero at notZero
  split at none
  case h_3 found _ => exact ⟨_, found⟩
  case h_5 found =>
    rw [found] at notZero
    split at none
    · rename_i zero
      simp [zero] at notZero
    · cases none
  all_goals cases none

end Binary64

end FlowScript
