import FlowScript.Number.Text
import FlowScript.Text.Digit
import FlowScript.Token.Lexeme
/-!
# The values of literals

How the text of a number or string literal gives its value.  Numerals may use the decimal digits of
any script; a string literal knows six escapes, and any other escaped character stands for itself
and is reported.
-/

namespace FlowScript

/-- A whole number literal with more digits than the limit. -/
structure DigitOverflow where
  count : Nat
  deriving DecidableEq, Repr

/-- The text of the failure. -/
def DigitOverflow.message (overflow : DigitOverflow) : String :=
  "Exceeds the limit (" ++ toString digitLimit ++
    " digits) for integer string conversion: value has " ++ toString overflow.count ++
    " digits; use sys.set_int_max_str_digits() to increase the limit"

namespace Literal

/-- The value of a numeral: a whole number within the digit limit, or a double when it has a
fraction. -/
def ofNumeral (numeral : List Char) : Except DigitOverflow Literal :=
  let whole := numeral.takeWhile (· ≠ '.')
  let fraction := numeral.drop (whole.length + 1)
  if whole.length = numeral.length then
    if digitLimit < whole.length then .error ⟨whole.length⟩
    else .ok (.int (Digit.number whole))
  else .ok (.float (Float.ofScientific (Digit.number (whole ++ fraction)) true fraction.length))

/-- The character that an escape stands for. -/
def escape? : Char → Option Char
  | 'n' => some '\n'
  | 't' => some '\t'
  | 'r' => some '\r'
  | '\\' => some '\\'
  | '"' => some '"'
  | '0' => some '\x00'
  | _ => none

/-- The characters that the inside of a string literal stands for. -/
def unescape : List Char → List Char
  | '\\' :: c :: rest => (escape? c).getD c :: unescape rest
  | c :: rest => c :: unescape rest
  | [] => []

/-- The escapes of the inside of a string literal that stand for no character, each with the offset
of its backslash from `offset`. -/
def unknownEscapes (offset : Nat) : List Char → List (Nat × Char)
  | '\\' :: c :: rest =>
    let later := unknownEscapes (offset + 2) rest
    if (escape? c).isSome then later else (offset, c) :: later
  | _ :: rest => unknownEscapes (offset + 1) rest
  | [] => []

end Literal

end FlowScript
