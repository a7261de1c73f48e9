import FlowScript.Config
import FlowScript.Diagnostic
import FlowScript.Host
/-!
# The machine that programs run on

The state of a running program, and what can stop it.  A program stops by a `return` outside of a
function, by a fault (the program did something that it must not), or by a failure (an operation
met values it does not apply to, as only programs that were not checked can bring about, or a limit
of the machine).
-/

namespace FlowScript

/-! ## Faults -/

/-- What a program did that it must not do. -/
inductive FaultCause where
  | undefined (name : String)
  | unassigned (name : String)
  | undefinedTarget (name : String)
  | noMember (struct member : String)
  | unwrappedNil
  | nilMember (member : String)
  | nilCall
  /-- The value shown as `text` is no struct. -/
  | notStruct (text member : String)
  /-- The value shown as `text` is no function. -/
  | notCallable (text : String)
  | divisionByZero
  | moduloByZero
  | arity (name : String) (expected got : Nat)
  | constructorArity (name : String) (expected got : Nat)
  | callDepth (limit : Nat) (name : String)
  /-- The host function `name` failed. -/
  | hostFailure (name text : String)
  /-- A host function raised a fault of its own. -/
  | hostFault (code message : String)
  deriving DecidableEq, Repr

namespace FaultCause

/-- The code of a fault. -/
def code : FaultCause → String
  | .undefined _ | .unassigned _ | .undefinedTarget _ | .noMember .. => "R_UNDEFINED"
  | .unwrappedNil | .nilMember _ | .nilCall => "R_NIL_DEREFERENCE"
  | .notStruct .. | .notCallable _ => "R_INTERNAL"
  | .divisionByZero | .moduloByZero => "R_DIVISION_BY_ZERO"
  | .arity .. | .constructorArity .. => "R_ARITY"
  | .callDepth .. => "R_STACK_OVERFLOW"
  | .hostFailure .. => "R_HOST_ERROR"
  | .hostFault code _ => code

/-- The text of a fault. -/
def message : FaultCause → String
  | .undefined name => s!"'{name}' is not defined at this point"
  | .unassigned name => s!"'{name}' is used before it is assigned"
  | .undefinedTarget name => s!"assignment to undefined variable '{name}'"
  | .noMember struct member => s!"struct '{struct}' has no member '{member}'"
  | .unwrappedNil => "unwrapped a nil value"
  | .nilMember member => s!"cannot access '{member}' on nil"
  | .nilCall => "called a nil value"
  | .notStruct text member => s!"value {text} has no member '{member}'"
  | .notCallable text => s!"value {text} is not callable"
  | .divisionByZero => "division by zero"
  | .moduloByZero => "modulo by zero"
  | .arity name expected got => s!"'{name}' expects {expected} argument(s), got {got}"
  | .constructorArity name expected got =>
    s!"struct '{name}' expects {expected} argument(s), got {got}"
  | .callDepth limit name => s!"call depth exceeded {limit} in '{name}'"
  | .hostFailure name text => s!"host function '{name}' failed: {text}"
  | .hostFault _ message => message

end FaultCause

/-- Why evaluation stops before its end. -/
inductive Stop where
  /-- A `return` with its value. -/
  | returned (value : Value)
  /-- A fault, with its place if it has one. -/
  | fault (cause : FaultCause) (position : Option Position)
  | failure (failure : Failure)
  /-- A loop used up the machine's patience. -/
  | diverged

namespace Stop

/-- How a value is written that a `return` outside of a function carries, if it can be. An instance or
a function has no text in the language, and `describe` tells the one it gets. -/
def returnedText? (describe : Value → Except Failure String) : Value → Except Failure String
  | .nil => .ok "None"
  | .bool value => .ok (if value then "True" else "False")
  | .int value => (Value.int value).display {}
  | .float value => (Value.float value).display {}
  | .string value => .ok value
  | value => describe value

/-- How a value is written that a `return` outside of a function carries, without its cells. -/
def returnedText (value : Value) : String :=
  match returnedText? (fun value => value.display {}) value with
  | .ok text => text
  | .error reason => reason.message

/-- The text of a stop. -/
def message : Stop → String
  | .returned value => returnedText value
  | .fault cause _ => cause.message
  | .failure reason => reason.message
  | .diverged => "too many loop iterations"

/-- The diagnostic of an error of the machine itself. -/
def internalError (file text : String) : Diagnostic :=
  { message := "internal evaluator error: " ++ text, code := some "R_INTERNAL"
    phase := some .runtime, span := Span.of (some file) none }

/-- The diagnostic of a stop that ends a program in a file. -/
def diagnostic (file : String) (stop : Stop) : Diagnostic :=
  match stop with
  | .fault cause position =>
    { message := cause.message, code := some cause.code, phase := some .runtime
      span := Span.of (some file) position }
  | .failure .nesting =>
    { message := Failure.nesting.message, code := some "R_STACK_OVERFLOW", phase := some .runtime
      span := Span.of (some file) none }
  | stop => internalError file stop.message

end Stop

/-! ## Machines -/

/-- What stays the same while programs run. -/
structure Setup where
  /-- The file name in diagnostics. -/
  file : String
  /-- How deep calls may nest. -/
  maxCallDepth : Nat
  host : Host
  /-- How many levels of expressions, statements and calls may be open at once. -/
  levels : Nat := 3000
  /-- How many iterations a conditional loop may take. -/
  patience : Nat := powerOfTwo 60
  /-- How an instance or a function is described that the language has no text for. -/
  describe : Heap → Value → Except Failure String := fun heap value => value.display heap

/-- The setup of a configuration. -/
def Setup.of (config : Config) (host : Host) : Setup where
  file := config.filename
  maxCallDepth := config.maxCallDepth
  host := host

/-- The state of a running program. -/
structure Machine where
  heap : Heap
  /-- How many calls are open. -/
  depth : Nat := 0
  /-- The text that host functions wrote. -/
  output : String := ""
  /-- The stamp of the next function value. -/
  nextStamp : Nat := 0

/-- The machine before its first program: host functions are defined and nothing else. -/
def Machine.initial (host : Host) : Machine where
  heap.frames := #[Table.ofList (host.map fun function =>
    (function.name, some (.host function.name))), Table.empty]

/-- The global variables with their values. -/
def Machine.globals (machine : Machine) : List (String × Option Value) :=
  (machine.heap.frame Heap.globalFrame).entries

/-- The machine after a call of a host function that gives a reply. -/
def Machine.answered (machine : Machine) (reply : HostReply) : Machine :=
  { machine with heap := reply.applied machine.heap, output := machine.output ++ reply.written }

/-- The machine with no text written. -/
def Machine.clearOutput (machine : Machine) : Machine := { machine with output := "" }

/-- A computation on the machine. -/
abbrev Eval := ExceptT Stop (StateM Machine)

namespace Eval

/-- Stops with a fault. -/
def fault {α : Type} (cause : FaultCause) (position : Option Position) : Eval α :=
  throw (.fault cause position)

/-- The result of an operation on values. -/
def operation {α : Type} (result : Except Failure α) : Eval α :=
  match result with
  | .ok value => pure value
  | .error failure => throw (.failure failure)

/-- The text of a value. -/
def display (value : Value) : Eval String := do
  let machine ← get
  operation (value.display machine.heap)

/-- A stamp that no function value has. -/
def freshStamp : Eval Nat :=
  modifyGet fun machine => (machine.nextStamp, { machine with nextStamp := machine.nextStamp + 1 })

/-- Changes the heap. -/
def modifyHeap (change : Heap → Heap) : Eval Unit :=
  modify fun machine => { machine with heap := change machine.heap }

/-- The environment with a new frame in front. -/
def pushFrame (bindings : Bindings) (environment : Environment) : Eval Environment :=
  modifyGet fun machine =>
    (machine.heap.frames.size :: environment,
      { machine with heap := machine.heap.pushFrame bindings })

/-- A new instance. -/
def pushInstance (value : Instance) : Eval Nat :=
  modifyGet fun machine =>
    (machine.heap.instances.size, { machine with heap := machine.heap.pushInstance value })

/-- Defines a variable in the innermost frame. -/
def define (environment : Environment) (name : String) (value : Option Value) : Eval Unit :=
  match environment with
  | [] => pure ()
  | id :: _ => modifyHeap fun heap => heap.bind id name value

/-- Reads a variable; a fault gets the position. -/
def read (environment : Environment) (name : String) (position : Option Position) :
    Eval Value := do
  let machine ← get
  match machine.heap.lookup? name environment with
  | some (some value) => pure value
  | some none => fault (.unassigned name) position
  | none => fault (.undefined name) position

/-- Assigns to the innermost variable of a name. -/
def assign (environment : Environment) (name : String) (value : Value)
    (position : Option Position) : Eval Unit := do
  let machine ← get
  match machine.heap.owner? name environment with
  | some id => modifyHeap fun heap => heap.bind id name (some value)
  | none => fault (.undefinedTarget name) position

/-- Runs a computation as the inside of a call, which is one deeper. -/
def deeper {α : Type} (action : Eval α) : Eval α := fun machine =>
  let (outcome, after) := action { machine with depth := machine.depth + 1 }
  (outcome, { after with depth := after.depth - 1 })

/-- What a body returns; `nil` if it ends without a `return`. -/
def returned (body : Eval Unit) : Eval Value := fun machine =>
  match body machine with
  | (.ok (), after) => (.ok .nil, after)
  | (.error (.returned value), after) => (.ok value, after)
  | (.error stop, after) => (.error stop, after)

end Eval

end FlowScript
