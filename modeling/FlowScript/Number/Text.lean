import FlowScript.Number.Shortest
/-!
# Numbers as text

Whole numbers are written in decimal, up to a limit on the number of digits.  Doubles are written
with the fewest digits that read back, in positional notation for moderate exponents and with an
exponent otherwise.
-/

namespace FlowScript

/-- The greatest number of decimal digits that a whole number may have when it is read or written. -/
def digitLimit : Nat := 4300

/-- The least magnitude that has more digits than the limit. -/
@[irreducible] def digitOverflow : Nat := powerOfTen digitLimit

/-- A whole number in decimal; `none` if it has more digits than the limit. -/
def intText? (n : Int) : Option String :=
  if digitOverflow ≤ n.natAbs then none else some (toString n)

/-- How a decimal is laid out. -/
structure DecimalLayout where
  /-- The least exponent that is written positionally. -/
  positionalFrom : Int
  /-- The least exponent above it that is not. -/
  positionalBelow : Int
  /-- The least number of digits of a written exponent. -/
  exponentWidth : Nat

/-- Doubles are positional from `0.0001` up to below `10 ^ 16`; a written exponent has a sign and at
least two digits. -/
def doubleLayout : DecimalLayout := ⟨-4, 16, 2⟩

namespace DecimalLayout

/-- An exponent with its sign and at least the layout's number of digits. -/
def exponentText (layout : DecimalLayout) (e : Int) : String :=
  let digits := Nat.toDigits 10 e.natAbs
  let padding := List.replicate (layout.exponentWidth - digits.length) '0'
  String.ofList ('e' :: (if e < 0 then '-' else '+') :: (padding ++ digits))

/-- The text of a positive decimal. -/
def text (layout : DecimalLayout) (d : Decimal) : String :=
  let all := Nat.toDigits 10 d.digits
  let exponent : Int := d.exponent + all.length - 1
  let digits := (all.reverse.dropWhile (· == '0')).reverse
  if layout.positionalFrom ≤ exponent ∧ exponent < layout.positionalBelow then
    if exponent < 0 then
      String.ofList (['0', '.'] ++ List.replicate ((-exponent).toNat - 1) '0' ++ digits)
    else
      let whole := exponent.toNat + 1
      let front := digits.take whole ++ List.replicate (whole - digits.length) '0'
      let back := if digits.length ≤ whole then ['0'] else digits.drop whole
      String.ofList (front ++ '.' :: back)
  else
    let back := if digits.length ≤ 1 then [] else '.' :: digits.drop 1
    String.ofList (digits.take 1 ++ back) ++ layout.exponentText exponent

end DecimalLayout

/-- The text of a double. -/
def floatText (x : Float) : String :=
  match Binary64.decode x with
  | .nan => "nan"
  | .infinite negative => if negative then "-inf" else "inf"
  | .finite negative mantissa exponent =>
    let sign := if negative then "-" else ""
    if mantissa = 0 then sign ++ "0.0"
    else sign ++ doubleLayout.text (Decimal.shortest mantissa exponent)

end FlowScript
