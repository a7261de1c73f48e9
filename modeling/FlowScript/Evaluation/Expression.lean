import FlowScript.Evaluation.Machine
/-!
# Evaluating expressions

The rules of evaluation for single expressions.  They evaluate parts of an expression, and bodies
of functions, through an `Evaluator`, which holds evaluation one level further down.
-/

namespace FlowScript

/-- Evaluation one level down. -/
structure Evaluator where
  expr : Environment → Expr → Eval Value
  statement : Environment → Stmt → Eval Unit
  /-- Calls a function, with the receiver if it is a method. -/
  call : Closure → (receiver : Option Nat) → List Value → Option Position → Eval Value

namespace Eval

/-! ## Operators -/

/-- The value of a binary operation. -/
def binary (op : BinaryOp) (left right : Value) (position : Position) : Eval Value :=
  match op with
  | .add => operation (left.add right)
  | .sub => operation (left.sub right)
  | .mul => operation (left.mul right)
  | .div =>
    if right.isZero then fault .divisionByZero (some position) else operation (left.div right)
  | .mod =>
    if right.isZero then fault .moduloByZero (some position) else operation (left.mod right)
  | .eq => pure (.bool (left.equal right))
  | .ne => pure (.bool (!left.equal right))
  | .lt | .le | .gt | .ge => operation (left.ordered op right)

/-- The value of a unary operation. -/
def unary (op : UnaryOp) (value : Value) : Eval Value :=
  match op with
  | .neg => operation value.neg
  | .not => pure (.bool (!value.isTrue))

/-! ## Members -/

/-- The instance that a value is, for access to a member. -/
def receiver (value : Value) (member : String) (position : Position) : Eval Nat :=
  match value with
  | .instance id => pure id
  | .nil => fault (.nilMember member) (some position)
  | value => do fault (.notStruct (← display value) member) (some position)

/-- A member of an instance: a field, or else a method bound to the instance. -/
def member (id : Nat) (name : String) (position : Position) : Eval Value := do
  let machine ← get
  let target := machine.heap.instanceAt id
  match target.fields.find? name, target.methods.find? name with
  | some value, _ => pure value
  | none, some method => return .method (← freshStamp) id method
  | none, none => fault (.noMember target.decl.name name) (some position)

/-! ## Calls -/

/-- Calls a function of the host. -/
def callHost (host : Host) (name : String) (args : List Value) (position : Option Position) :
    Eval Value :=
  match host.function? name with
  | none => fault (.undefined name) position
  | some function => do
    if args.length ≠ function.params.length then
      fault (.arity name function.params.length args.length) position
    let machine ← get
    let reply := function.behavior machine.heap args
    modify fun machine => machine.answered reply
    match reply.result with
    | .ok value => pure value
    | .error (.fault code message) => fault (.hostFault code message) none
    | .error (.failure text) => fault (.hostFailure name text) position

end Eval

namespace Evaluator

/-- Makes an instance of a struct. Without an `init` method the arguments are the fields; otherwise
all fields are `nil` at first, and `init` is called with the arguments. -/
def construct (inner : Evaluator) (decl : StructDecl Stmt) (methods : Table String Closure)
    (args : List Value) (position : Option Position) : Eval Value := do
  let names := decl.fields.map FieldDecl.name
  match methods.find? "init" with
  | none =>
    if args.length ≠ names.length then
      Eval.fault (.constructorArity decl.name names.length args.length) position
    let id ← Eval.pushInstance { decl, fields := Table.ofList (names.zip args), methods }
    return .instance id
  | some init =>
    if args.length ≠ init.params.length then
      Eval.fault (.constructorArity decl.name init.params.length args.length) position
    let fields := Table.ofList (names.map fun name => (name, Value.nil))
    let id ← Eval.pushInstance { decl, fields, methods }
    let _ ← inner.call init (some id) args position
    return .instance id

/-- Calls a value. -/
def invoke (inner : Evaluator) (host : Host) (function : Value) (args : List Value)
    (position : Option Position) : Eval Value :=
  match function with
  | .closure target => inner.call target none args position
  | .method _ receiver target => inner.call target (some receiver) args position
  | .constructor _ decl methods => inner.construct decl methods args position
  | .host name => Eval.callHost host name args position
  | .nil => Eval.fault .nilCall position
  | value => do Eval.fault (.notCallable (← Eval.display value)) position

/-- Calls a method of an instance, or else a field of it. -/
def invokeMember (inner : Evaluator) (host : Host) (id : Nat) (name : String) (args : List Value)
    (position : Position) : Eval Value := do
  let machine ← get
  match (machine.heap.instanceAt id).methods.find? name with
  | some method => inner.call method (some id) args (some position)
  | none => inner.invoke host (← Eval.member id name position) args (some position)

/-! ## Expressions -/

/-- The value of an expression before it is widened. -/
def evaluate (inner : Evaluator) (host : Host) (environment : Environment) : Expr → Eval Value
  | .literal _ value => pure (.ofLiteral value)
  | .name note ident => Eval.read environment ident (some note.position)
  | .self _ => Eval.read environment "self" none
  | .binary note op left right => do
    let left ← inner.expr environment left
    let right ← inner.expr environment right
    Eval.binary op left right note.position
  | .logical _ op left right => do
    let left ← inner.expr environment left
    match op, left.isTrue with
    | .and, false => return .bool false
    | .or, true => return .bool true
    | .and, true | .or, false => inner.expr environment right
  | .unary _ op operand => do
    Eval.unary op (← inner.expr environment operand)
  | .is _ value _ target => do
    let value ← inner.expr environment value
    let machine ← get
    return .bool (target.any fun ty => value.hasType machine.heap ty)
  | .unwrap note value => do
    match ← inner.expr environment value with
    | .nil => Eval.fault .unwrappedNil (some note.position)
    | value => pure value
  | .assign _ target ident value => do
    let value ← inner.expr environment value
    Eval.assign environment ident value (some target.position)
    return value
  | .assignField _ target object member value => do
    let value ← inner.expr environment value
    let id ← Eval.receiver (← inner.expr environment object) member target.position
    Eval.modifyHeap fun heap => heap.setField id member value
    return value
  | .call note function args => do
    let function ← inner.expr environment function
    let args ← args.mapM (inner.expr environment)
    inner.invoke host function args (some note.position)
  | .field note object member => do
    let id ← Eval.receiver (← inner.expr environment object) member note.position
    Eval.member id member note.position
  | .methodCall note receiver method args => do
    let id ← Eval.receiver (← inner.expr environment receiver) method note.position
    let args ← args.mapM (inner.expr environment)
    inner.invokeMember host id method args note.position
  | .closure _ params _ body _ => do
    return .closure
      { stamp := ← Eval.freshStamp
        name := "<anonymous>"
        params := params.map Param.name
        body := body.statements
        environment }

/-- The value of an expression. -/
def evalExpr (inner : Evaluator) (host : Host) (environment : Environment) (expr : Expr) :
    Eval Value := do
  let value ← inner.evaluate host environment expr
  if expr.note.widen then Eval.operation value.widen else pure value

end Evaluator

end FlowScript
