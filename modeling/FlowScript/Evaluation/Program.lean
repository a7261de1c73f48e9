import FlowScript.Evaluation.Statement
/-!
# Running programs

The rules tied together by recursion on the levels that are left, and programs run on a machine.
What programs define globally stays on the machine for later programs and calls.
-/

namespace FlowScript

mutual

/-- Evaluates an expression with `levels` levels left. -/
def evalAt (setup : Setup) : (levels : Nat) → Environment → Expr → Eval Value
  | 0, _, _ => throw (.failure .nesting)
  | levels + 1, environment, expr =>
    Evaluator.evalExpr ⟨evalAt setup levels, runAt setup levels, callAt setup levels⟩ setup.host
      environment expr

/-- Runs a statement with `levels` levels left. -/
def runAt (setup : Setup) : (levels : Nat) → Environment → Stmt → Eval Unit
  | 0, _, _ => throw (.failure .nesting)
  | levels + 1, environment, statement =>
    Evaluator.runStatement ⟨evalAt setup levels, runAt setup levels, callAt setup levels⟩
      setup.patience environment statement

/-- Calls a function with `levels` levels left. -/
def callAt (setup : Setup) :
    (levels : Nat) → Closure → Option Nat → List Value → Option Position → Eval Value
  | 0, _, _, _, _ => throw (.failure .nesting)
  | levels + 1, target, receiver, args, position =>
    Evaluator.runCall ⟨evalAt setup levels, runAt setup levels, callAt setup levels⟩
      setup.maxCallDepth target receiver args position

end

namespace Evaluator

/-- Runs a statement of a program; the value is that of an expression, else `nil`. -/
def step (evaluator : Evaluator) (statement : Stmt) : Eval Value :=
  match statement with
  | .expr _ value => evaluator.expr Heap.globalEnvironment value
  | statement => do
    evaluator.statement Heap.globalEnvironment statement
    return .nil

/-- Runs a program. The value is that of its last statement, if that is an expression. -/
def execute (evaluator : Evaluator) (program : Program) : Eval Value := do
  modify fun machine => { machine with depth := 0 }
  program.forM (Eval.hoist Heap.globalEnvironment)
  program.foldlM (fun _ statement => evaluator.step statement) .nil

end Evaluator

namespace Setup

/-- The evaluator that starts with all levels. -/
def evaluator (setup : Setup) : Evaluator :=
  ⟨evalAt setup setup.levels, runAt setup setup.levels, callAt setup setup.levels⟩

/-- Runs a program. -/
def execute (setup : Setup) (program : Program) : Eval Value := setup.evaluator.execute program

/-- Calls the function of a global name. -/
def call (setup : Setup) (name : String) (args : List Value) : Eval Value := do
  let function ← Eval.read Heap.globalEnvironment name none
  setup.evaluator.invoke setup.host function args none

end Setup

/-- What running a program gives. -/
structure RunResult where
  value : Value := .nil
  diagnostics : List Diagnostic := []
  warnings : List Diagnostic := []
  /-- Why there is no diagnostic of a run that failed: the text of one could not be written. -/
  raised : Option Failure := none

/-- Whether a run had no error. -/
def RunResult.ok (result : RunResult) : Bool :=
  result.raised.isNone && noErrors result.diagnostics

namespace Setup

/-- What a run gives that ends in an outcome, with a heap. Whatever stops it becomes a diagnostic. -/
def result (setup : Setup) (heap : Heap) : Except Stop Value → RunResult
  | .ok value => { value }
  | .error (.returned value) =>
    match Stop.returnedText? (setup.describe heap) value with
    | .ok text => { diagnostics := [Stop.internalError setup.file text] }
    | .error reason => { raised := some reason }
  | .error stop => { diagnostics := [stop.diagnostic setup.file] }

/-- Runs a program. -/
def run (setup : Setup) (program : Program) (machine : Machine) : RunResult × Machine :=
  let (outcome, after) := (setup.execute program).run machine
  (setup.result after.heap outcome, { after with depth := 0 })

end Setup

end FlowScript
