import FlowScript.Evaluation.Expression
/-!
# Running statements

The rules for statements and for calls.  Every block runs in a new frame, in which its functions and
structs are defined before its first statement runs.
-/

namespace FlowScript

namespace Eval

/-- The function value of a declaration. -/
def closureOf (environment : Environment) (stamp : Nat) (decl : FunctionDecl Stmt) : Closure where
  stamp
  name := decl.name
  params := decl.params.map Param.name
  body := decl.body.statements
  environment

/-- Defines the function or struct that a statement declares. -/
def hoist (environment : Environment) : Stmt → Eval Unit
  | .function decl => do
    let stamp ← freshStamp
    define environment decl.name (some (.closure (closureOf environment stamp decl)))
  | .struct decl => do
    let stamp ← freshStamp
    let methods := Table.ofList (decl.methods.map fun method =>
      (method.name, closureOf environment stamp method))
    define environment decl.name (some (.constructor stamp decl methods))
  | _ => pure ()

/-- Repeats a body while a condition holds; `patience` bounds how often. -/
def whileLoop (condition : Eval Value) (body : Eval Unit) : (patience : Nat) → Eval Unit
  | 0 => throw .diverged
  | patience + 1 => do
    let value ← condition
    if value.isTrue then
      body
      whileLoop condition body patience
    else pure ()

/-- Runs a body for `count` numbers from `index` on. -/
def forLoop (body : Int → Eval Unit) : (count : Nat) → (index : Int) → Eval Unit
  | 0, _ => pure ()
  | count + 1, index => do
    body index
    forLoop body count (index + 1)

end Eval

namespace Evaluator

/-- Runs the statements of a block in its environment. -/
def runBlock (inner : Evaluator) (environment : Environment) (statements : List Stmt) :
    Eval Unit := do
  statements.forM (Eval.hoist environment)
  statements.forM (inner.statement environment)

/-- Runs the statements of a block in a new frame with some variables. -/
def runNested (inner : Evaluator) (bindings : Bindings) (environment : Environment)
    (block : Block Stmt) : Eval Unit := do
  let environment ← Eval.pushFrame bindings environment
  inner.runBlock environment block.statements

/-- Runs a statement. -/
def runStatement (inner : Evaluator) (patience : Nat) (environment : Environment) :
    Stmt → Eval Unit
  | .block body => inner.runNested Table.empty environment body
  | .varDecl _ name _ value resolved =>
    match value with
    | some value => do
      let value ← inner.expr environment value
      Eval.define environment name (some value)
    | none =>
      Eval.define environment name (if resolved.any Ty.isNilable then some .nil else none)
  | .expr _ value => do
    let _ ← inner.expr environment value
  | .ifElse _ condition body alternative => do
    let value ← inner.expr environment condition
    if value.isTrue then inner.runNested Table.empty environment body
    else
      match alternative with
      | some statement => inner.statement environment statement
      | none => pure ()
  | .whileLoop _ condition body =>
    Eval.whileLoop (inner.expr environment condition)
      (inner.runNested Table.empty environment body) patience
  | .forRange _ name start stop body => do
    let start ← inner.expr environment start
    let stop ← inner.expr environment stop
    let first ← Eval.operation start.index
    let last ← Eval.operation stop.index
    let bindings (index : Int) : Bindings := Table.empty.insert name (some (.int index))
    Eval.forLoop (fun index => inner.runNested (bindings index) environment body)
      (last - first).toNat first
  | .ret _ value =>
    match value with
    | some value => do throw (.returned (← inner.expr environment value))
    | none => throw (.returned .nil)
  | .function _ | .struct _ | .trait _ => pure ()

/-- The variables that a call starts with. -/
def callBindings (target : Closure) (receiver : Option Nat) (args : List Value) : Bindings :=
  let params := (target.params.zip args).map fun (name, value) => (name, some value)
  match receiver with
  | some id => Table.ofList (("self", some (.instance id)) :: params)
  | none => Table.ofList params

/-- Calls a function. -/
def runCall (inner : Evaluator) (maxCallDepth : Nat) (target : Closure) (receiver : Option Nat)
    (args : List Value) (position : Option Position) : Eval Value := do
  if args.length ≠ target.params.length then
    Eval.fault (.arity target.name target.params.length args.length) position
  let machine ← get
  if maxCallDepth ≤ machine.depth then
    Eval.fault (.callDepth maxCallDepth target.name) position
  let environment ← Eval.pushFrame (callBindings target receiver args) target.environment
  Eval.deeper (Eval.returned (inner.runBlock environment target.body))

end Evaluator

end FlowScript
