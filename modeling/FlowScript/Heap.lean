import FlowScript.Syntax
import FlowScript.Table
/-!
# Values and the heap

The values of a running program.  Variables live in frames and fields in struct instances; both are
cells of a heap, and closures, methods and instances refer to cells by their numbers.  An
environment is the list of the frames that are in scope, innermost first.
-/

namespace FlowScript

/-- The frames in scope, innermost first. -/
abbrev Environment := List Nat

/-- A function with the environment it was made in. Functions made at different times differ, which
`stamp` tells apart. -/
structure Closure where
  stamp : Nat
  name : String
  params : List String
  body : List Stmt
  environment : Environment

/-- A value. -/
inductive Value where
  | nil
  | bool (value : Bool)
  | int (value : Int)
  | float (value : Float)
  | string (value : String)
  /-- A struct instance, by its number. -/
  | instance (id : Nat)
  | closure (closure : Closure)
  /-- A method bound to its receiver. -/
  | method (stamp : Nat) (receiver : Nat) (closure : Closure)
  /-- A struct as a function that constructs instances. -/
  | constructor (stamp : Nat) (decl : StructDecl Stmt) (methods : Table String Closure)
  /-- A function of the host, by its name. -/
  | host (name : String)

instance : Inhabited Value := ⟨.nil⟩

namespace Value

/-- The value of a literal. -/
def ofLiteral : Literal → Value
  | .nil => .nil
  | .bool value => .bool value
  | .int value => .int value
  | .float value => .float value
  | .string value => .string value

end Value

/-- A struct instance. -/
structure Instance where
  decl : StructDecl Stmt
  fields : Table String Value
  methods : Table String Closure

instance : Inhabited Instance := ⟨⟨default, Table.empty, Table.empty⟩⟩

/-- The variables of a frame. A variable without a value is declared but not assigned. -/
abbrev Bindings := Table String (Option Value)

/-- What the host keeps from one call of its functions to the next. -/
structure HostMemory where
  /-- How many calls there were. -/
  calls : Nat := 0
  kept : List Value := []

/-- The cells of a running program, and the memory of its host. -/
structure Heap where
  frames : Array Bindings := #[]
  instances : Array Instance := #[]
  memory : HostMemory := {}

namespace Heap

/-- The number of the frame of host functions. -/
def hostFrame : Nat := 0

/-- The number of the frame of global variables. -/
def globalFrame : Nat := 1

/-- The environment of the statements of a program. -/
def globalEnvironment : Environment := [globalFrame, hostFrame]

/-- The variables of a frame. -/
def frame (heap : Heap) (id : Nat) : Bindings := heap.frames.getD id Table.empty

/-- The instance with a number. -/
def instanceAt (heap : Heap) (id : Nat) : Instance := heap.instances.getD id default

/-- The innermost frame that has a variable. -/
def owner? (heap : Heap) (name : String) (environment : Environment) : Option Nat :=
  environment.find? fun id => (heap.frame id).contains name

/-- What the innermost variable of a name holds; `none` if there is no such variable. -/
def lookup? (heap : Heap) (name : String) (environment : Environment) : Option (Option Value) :=
  environment.findSome? fun id => (heap.frame id).find? name

/-- Binds a variable in a frame. -/
def bind (heap : Heap) (id : Nat) (name : String) (value : Option Value) : Heap :=
  { heap with frames := heap.frames.modify id fun bindings => bindings.insert name value }

/-- Adds a frame; its number is the number of frames before. -/
def pushFrame (heap : Heap) (bindings : Bindings) : Heap :=
  { heap with frames := heap.frames.push bindings }

/-- Adds an instance; its number is the number of instances before. -/
def pushInstance (heap : Heap) (value : Instance) : Heap :=
  { heap with instances := heap.instances.push value }

/-- Sets a field of an instance. -/
def setField (heap : Heap) (id : Nat) (field : String) (value : Value) : Heap :=
  { heap with
    instances := heap.instances.modify id fun target =>
      { target with fields := target.fields.insert field value } }

/-! ## What a change leaves -/

@[simp] theorem instanceAt_bind (heap : Heap) (id : Nat) (name : String) (value : Option Value)
    (other : Nat) : (heap.bind id name value).instanceAt other = heap.instanceAt other := rfl

@[simp] theorem size_frames_bind (heap : Heap) (id : Nat) (name : String)
    (value : Option Value) : (heap.bind id name value).frames.size = heap.frames.size := by
  simp [bind]

/-- Binding a variable changes its own frame only. -/
theorem frame_bind (heap : Heap) {id : Nat} (name : String) (value : Option Value) (other : Nat)
    (inBounds : id < heap.frames.size) :
    (heap.bind id name value).frame other =
      if other = id then (heap.frame id).insert name value else heap.frame other := by
  by_cases same : other = id
  · subst same
    simp [bind, frame, inBounds, Array.getElem_modify]
  · simp [bind, frame, Array.getElem?_modify, Ne.symm same, same]

@[simp] theorem frame_setField (heap : Heap) (id : Nat) (field : String) (value : Value)
    (other : Nat) : (heap.setField id field value).frame other = heap.frame other := rfl

@[simp] theorem size_instances_setField (heap : Heap) (id : Nat) (field : String)
    (value : Value) : (heap.setField id field value).instances.size = heap.instances.size := by
  simp [setField]

/-- Setting a field changes its own instance only. -/
theorem instanceAt_setField (heap : Heap) (id : Nat) (field : String) (value : Value)
    (other : Nat) :
    (heap.setField id field value).instanceAt other =
      if other = id ∧ id < heap.instances.size then
        { heap.instanceAt id with fields := (heap.instanceAt id).fields.insert field value }
      else heap.instanceAt other := by
  by_cases same : other = id
  · subst same
    by_cases inBounds : other < heap.instances.size <;>
      simp [setField, instanceAt, inBounds, Array.getElem_modify]
  · simp [setField, instanceAt, Array.getElem?_modify, Ne.symm same, same]

theorem instanceAt_setField_of_lt (heap : Heap) {id : Nat} (field : String) (value : Value)
    (other : Nat) (inBounds : id < heap.instances.size) :
    (heap.setField id field value).instanceAt other =
      if other = id then
        { heap.instanceAt id with fields := (heap.instanceAt id).fields.insert field value }
      else heap.instanceAt other := by
  simp [instanceAt_setField, inBounds]

/-- A new frame leaves the frames that exist. -/
theorem frame_pushFrame (heap : Heap) (bindings : Bindings) {id : Nat}
    (inBounds : id < heap.frames.size) : (heap.pushFrame bindings).frame id = heap.frame id := by
  simp [pushFrame, frame, Array.getElem?_push, Nat.ne_of_lt inBounds]

@[simp] theorem frame_pushFrame_self (heap : Heap) (bindings : Bindings) :
    (heap.pushFrame bindings).frame heap.frames.size = bindings := by
  simp [pushFrame, frame]

/-- A new instance leaves the instances that exist. -/
theorem instanceAt_pushInstance (heap : Heap) (value : Instance) {id : Nat}
    (inBounds : id < heap.instances.size) :
    (heap.pushInstance value).instanceAt id = heap.instanceAt id := by
  simp [pushInstance, instanceAt, Array.getElem?_push, Nat.ne_of_lt inBounds]

@[simp] theorem instanceAt_pushInstance_self (heap : Heap) (value : Instance) :
    (heap.pushInstance value).instanceAt heap.instances.size = value := by
  simp [pushInstance, instanceAt]

end Heap

end FlowScript
