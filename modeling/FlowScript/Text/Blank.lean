/-!
# Blank characters

Two sets of characters that may surround a setting's text: those around a flag, and those around a
number, which leave out the four separator controls `1C` to `1F`.
-/

namespace FlowScript.Blank

/-- Blanks outside the ASCII range, with the line and paragraph separators. -/
def isWideBlank (c : Char) : Bool :=
  let n := c.toNat
  n = 0x85 || n = 0xa0 || n = 0x1680 || (0x2000 ≤ n && n ≤ 0x200a) || n = 0x2028 || n = 0x2029 ||
    n = 0x202f || n = 0x205f || n = 0x3000

/-- Blanks that may surround a number. -/
def aroundNumber (c : Char) : Bool :=
  (0x09 ≤ c.toNat && c.toNat ≤ 0x0d) || c = ' ' || isWideBlank c

/-- Blanks that may surround a flag. -/
def aroundFlag (c : Char) : Bool :=
  aroundNumber c || (0x1c ≤ c.toNat && c.toNat ≤ 0x1f)

/-- The characters between the leading and the trailing ones that satisfy `blank`. -/
def trim (blank : Char → Bool) (chars : List Char) : List Char :=
  ((chars.dropWhile blank).reverse.dropWhile blank).reverse

example : trim aroundNumber [' ', '5', '\t'] = ['5'] := by decide

end FlowScript.Blank
