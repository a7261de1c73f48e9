import FlowScript.Table
import FlowScript.Ty
/-!
# Flow facts

What is known at a point of a program because of the way that led there: narrower types of
variables, established by tests, and the variables that may still be unassigned.

Where ways meet, a narrowing stays only if every way has it, and a variable may be unassigned if it
is so on some way.
-/

namespace FlowScript

/-- A declared name, told apart from others of the same name by its number. -/
structure SymbolRef where
  id : Nat
  name : String
  deriving DecidableEq, Repr, Inhabited

/-- Narrower types of variables. -/
abbrev Facts := Table SymbolRef Ty

namespace Facts

/-- The facts without those on variables with one of the names. -/
def forget (names : List String) (facts : Facts) : Facts :=
  facts.filter fun symbol _ => !names.contains symbol.name

/-- The facts that also `other` has. -/
def common (facts other : Facts) : Facts :=
  facts.filter fun symbol ty => other.find? symbol = some ty

/-- The single fact that a variable has a type. -/
def single (symbol : SymbolRef) (ty : Ty) : Facts := Table.empty.insert symbol ty

end Facts

/-- What is known at a point of a program. -/
structure Flow where
  facts : Facts := Table.empty
  /-- The variables that may be unassigned. -/
  unassigned : List SymbolRef := []
  deriving Repr, Inhabited

namespace Flow

/-- What is known once more facts hold. -/
def apply (flow : Flow) (facts : Facts) : Flow := { flow with facts := flow.facts.overlay facts }

/-- What is known after a variable is assigned. -/
def assigned (flow : Flow) (symbol : SymbolRef) : Flow :=
  { facts := flow.facts.erase symbol
    unassigned := flow.unassigned.filter fun other => !decide (other = symbol) }

/-- What is known after a variable is declared without a value. -/
def declaredUnassigned (flow : Flow) (symbol : SymbolRef) : Flow :=
  { flow with unassigned := symbol :: flow.unassigned }

/-- What is known without the facts on variables with one of the names. -/
def forget (flow : Flow) (names : List String) : Flow :=
  { flow with facts := flow.facts.forget names }

/-- What is known where two ways meet. -/
def join (left right : Flow) : Flow :=
  { facts := left.facts.common right.facts
    unassigned := left.unassigned ++
      right.unassigned.filter fun symbol => !left.unassigned.contains symbol }

end Flow

/-- The facts that hold when a condition is true and when it is false. -/
structure Branches where
  whenTrue : Facts := Table.empty
  whenFalse : Facts := Table.empty
  deriving Repr, Inhabited

end FlowScript
