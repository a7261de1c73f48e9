import FlowScript.Value.Display
/-!
# Host functions

Functions that the surroundings of a program supply.  A host function has a type, against which
calls are checked, and a behaviour: from the heap, the memory of the host included, and the arguments
it gives the text it writes, its result, and what it does to the heap.
-/

namespace FlowScript

/-- Why a host function has no result. -/
inductive HostError where
  /-- A fault with a code of its own. -/
  | fault (code message : String)
  /-- Any other failure. -/
  | failure (text : String)
  deriving DecidableEq, Repr

/-- What a call of a host function gives. -/
structure HostReply where
  written : String := ""
  result : Except HostError Value
  /-- What the call does to the cells and to what the host keeps. -/
  change : Heap → Heap := id

/-- The heap after a call that gives a reply. Every call counts. -/
def HostReply.applied (reply : HostReply) (heap : Heap) : Heap :=
  { reply.change heap with memory.calls := heap.memory.calls + 1 }

/-- A function of the host. -/
structure HostFunction where
  name : String
  params : List Ty
  result : Ty
  behavior : Heap → List Value → HostReply

namespace HostFunction

/-- The type of a host function. -/
def signature (function : HostFunction) : Ty := .function function.params function.result

end HostFunction

/-- The host functions of a program. -/
abbrev Host := List HostFunction

namespace Host

/-- The host function of a name. -/
def function? (host : Host) (name : String) : Option HostFunction :=
  host.find? fun function => function.name = name

/-- The names and types of the host functions. -/
def signatures (host : Host) : List (String × Ty) :=
  host.map fun function => (function.name, function.signature)

/-- Writes a value and a line end. -/
def print : HostFunction where
  name := "print"
  params := [.any]
  result := .nil
  behavior heap args :=
    match (args.headD .nil).display heap with
    | .ok text => { written := text ++ "\n", result := .ok .nil }
    | .error failure => { result := .error (.failure failure.message) }

/-- The time in seconds: `start`, and what `elapsed` tells for the number of calls before. -/
def clock (start : Float) (elapsed : Nat → Float := fun _ => 0.0) : HostFunction where
  name := "clock"
  params := []
  result := .float
  behavior heap _ := { result := .ok (.float (start + elapsed heap.memory.calls)) }

/-- The host functions that every program has unless it is given others. -/
def standard (start : Float) (elapsed : Nat → Float := fun _ => 0.0) : Host := [print, clock start elapsed]

end Host

end FlowScript
