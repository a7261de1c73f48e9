import FlowScript.Number.Text
import FlowScript.Text.Blank
import FlowScript.Text.Digit
/-!
# Configuration

The limits and switches of a run.  Settings come as given values or as texts from an environment;
`Settings.resolve` fills in the defaults and refuses limits that are not positive.
-/

namespace FlowScript

/-- The limits and switches of a run. -/
structure Config where
  /-- The file name in diagnostics. -/
  filename : String := "<input>"
  /-- How deep calls of functions may nest. -/
  maxCallDepth : Nat := 64
  /-- How deep expressions, blocks and types may nest. -/
  maxNestingDepth : Nat := 64
  /-- Whether warnings are reported. -/
  warnings : Bool := true
  /-- Whether warnings stop a run like errors. -/
  warningsAsErrors : Bool := false
  deriving DecidableEq, Repr, Inhabited

/-- Why settings are refused. -/
inductive ConfigError where
  /-- The variable `key` is no whole number. -/
  | notInteger (key : String) (raw : String)
  /-- The variable `key` is no flag. -/
  | notFlag (key : String) (raw : String)
  /-- The limit `name` is not positive. -/
  | notPositive (name : String) (value : Int)
  deriving DecidableEq, Repr

/-- The text of a configuration error. -/
def ConfigError.message : ConfigError → String
  | .notInteger key raw => key ++ " must be an integer, got '" ++ raw ++ "'"
  | .notFlag key raw => key ++ " must be a boolean flag, got '" ++ raw ++ "'"
  | .notPositive name value => name ++ " must be positive, got " ++ toString value

namespace Numeral

/-- The digits of a numeral whose digits may be parted by single underscores. `afterDigit` tells
whether the last character was a digit. -/
def digits? (afterDigit : Bool) : List Char → Option (List Char)
  | [] => if afterDigit then some [] else none
  | c :: rest =>
    if Digit.isDigit c then (digits? true rest).map (c :: ·)
    else if c = '_' ∧ afterDigit then digits? false rest
    else none

/-- The value of an unsigned numeral within the digit limit. -/
def natural? (chars : List Char) : Option Nat :=
  match digits? false chars with
  | some digits => if digitLimit < digits.length then none else some (Digit.number digits)
  | none => none

/-- The value of a numeral with an optional sign and blanks around it. -/
def read? (text : String) : Option Int :=
  match Blank.trim Blank.aroundNumber text.toList with
  | '-' :: rest => (natural? rest).map fun n => -(n : Int)
  | '+' :: rest => (natural? rest).map fun n => (n : Int)
  | chars => (natural? chars).map fun n => (n : Int)

example : read? " +1_000 " = some 1000 ∧ read? "1__0" = none ∧ read? "-" = none := by decide

end Numeral

namespace Flag

/-- The value of a flag: one of eight words in any case, with blanks around it. -/
def read? (text : String) : Option Bool :=
  let word := String.ofList ((Blank.trim Blank.aroundFlag text.toList).map Char.toLower)
  if word = "1" ∨ word = "true" ∨ word = "yes" ∨ word = "on" then some true
  else if word = "0" ∨ word = "false" ∨ word = "no" ∨ word = "off" then some false
  else none

end Flag

/-- Settings as they are given, each of them optional. -/
structure Settings where
  filename : Option String := none
  maxCallDepth : Option Int := none
  maxNestingDepth : Option Int := none
  warnings : Option Bool := none
  warningsAsErrors : Option Bool := none
  deriving DecidableEq, Repr, Inhabited

namespace Settings

/-- A limit that has to be positive. -/
def positive (name : String) (value : Int) : Except ConfigError Nat :=
  if value < 1 then .error (.notPositive name value) else .ok value.toNat

/-- The configuration with defaults for what is not set. -/
def resolve (settings : Settings) : Except ConfigError Config := do
  let defaults : Config := {}
  let maxCallDepth ←
    positive "max_call_depth" (settings.maxCallDepth.getD defaults.maxCallDepth)
  let maxNestingDepth ←
    positive "max_nesting_depth" (settings.maxNestingDepth.getD defaults.maxNestingDepth)
  return {
    filename := settings.filename.getD defaults.filename
    maxCallDepth
    maxNestingDepth
    warnings := settings.warnings.getD defaults.warnings
    warningsAsErrors := settings.warningsAsErrors.getD defaults.warningsAsErrors }

/-- A whole number from the environment, if its variable is set. -/
def integerVariable (lookup : String → Option String) (key : String) :
    Except ConfigError (Option Int) :=
  match lookup key with
  | none => .ok none
  | some raw =>
    match Numeral.read? raw with
    | some n => .ok (some n)
    | none => .error (.notInteger key raw)

/-- A flag from the environment, if its variable is set. -/
def flagVariable (lookup : String → Option String) (key : String) :
    Except ConfigError (Option Bool) :=
  match lookup key with
  | none => .ok none
  | some raw =>
    match Flag.read? raw with
    | some flag => .ok (some flag)
    | none => .error (.notFlag key raw)

/-- The settings of an environment, which `overrides` take precedence over. -/
def ofEnvironment (lookup : String → Option String) (overrides : Settings) :
    Except ConfigError Settings := do
  let maxCallDepth ← integerVariable lookup "REVLANG_MAX_CALL_DEPTH"
  let maxNestingDepth ← integerVariable lookup "REVLANG_MAX_NESTING_DEPTH"
  let warnings ← flagVariable lookup "REVLANG_WARNINGS"
  let warningsAsErrors ← flagVariable lookup "REVLANG_WARNINGS_AS_ERRORS"
  return {
    filename := overrides.filename
    maxCallDepth := overrides.maxCallDepth <|> maxCallDepth
    maxNestingDepth := overrides.maxNestingDepth <|> maxNestingDepth
    warnings := overrides.warnings <|> warnings
    warningsAsErrors := overrides.warningsAsErrors <|> warningsAsErrors }

end Settings

end FlowScript
