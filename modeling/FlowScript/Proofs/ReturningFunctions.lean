import FlowScript.Proofs.AcceptedPrograms
import FlowScript.Proofs.BodyEnds
/-!
# Functions that give a result return it

A function whose result type lacks `nil` never ends by falling off the end of its body: in an accepted
program every call of it that gives a value gives the value of a `return` statement of its own.

The check decides this while it walks over the body, and evaluation by running it.  Both agree with what
the statements say by themselves: the verdict of the check is `anyTerminates` for every list and from every
state (`Checks.weighing`), and a list of which this holds never comes to its end (`runAt_ends`).

Main statement: `Session.accepted_functions_return`.
-/

namespace FlowScript

/-- Whether a node is a function whose noted result type lacks `nil`. -/
def Node.givesResult (node : Node) : Bool :=
  match node.function? with
  | some (some (.function _ result), _) => !result.isNilable
  | _ => false

/-- Whether every call of a function with a body, whichever closure has the body and on whichever machine
the call starts, gives a value only by a `return`: the run of the body in the call did not come to its end,
but to the value of a `return` statement that stands in the body, outside of nested functions. -/
def Block.CallsReturn (body : Block Stmt) : Prop :=
  ∀ (setup : Setup) (levels : Nat) (target : Closure) (recv : Option Nat) (args : List Value)
    (pos : Option Position) (before after : Machine) (value : Value),
    target.body = body.statements →
    callAt setup levels target recv args pos before = (.ok value, after) →
    ∃ inner left, levels = inner + 1 ∧ after = left.leave ∧
      Evaluator.runBlock ⟨evalAt setup inner, runAt setup inner, callAt setup inner⟩
        (before.heap.frames.size :: target.environment) body.statements
        (before.enter target recv args) = (.error (.returned value), left) ∧
      setup.Returns (Stmt.partsOfList body.statements) value left

/-- The calls of a checked function whose result type lacks `nil` return. -/
theorem Node.Checked.callsReturn {node : Node} (checked : node.Checked) {ty : Option Ty}
    {body : Block Stmt} (fn : node.function? = some (ty, body)) :
    ∃ params result, ty = some (.function params result) ∧
      (result.isNilable = false → body.CallsReturn) := by
  have returns := checked.returns
  unfold Node.Returns at returns
  rw [fn] at returns
  obtain ⟨params, result, noted, answers⟩ := returns
  refine ⟨params, result, noted, ?_⟩
  intro lacks setup levels target recv args pos before after value same call
  have terminates : anyTerminates body.statements = true := by
    rcases answers with nilable | terminates
    · rw [lacks] at nilable
      cases nilable
    · exact terminates
  cases levels with
  | zero => cases call
  | succ inner =>
    rw [← same] at terminates
    obtain ⟨left, leaves, run, returned⟩ := callAt_returns setup inner terminates call
    rw [same] at run returned
    exact ⟨inner, left, rfl, leaves, run, returned⟩

namespace Session

/-- In every session with a host of canonical types, and after any inputs, the check gives back the program
of a text on which it reports no error with nothing but notes added. Each function, method or anonymous
function of it has the type of a function; and if `nil` does not belong to its result, every call of it that
gives a value gives that of a `return` statement of its own.

This rests on two facts on all lists of statements: whatever a check of them starts from and whatever it
reports, it says that control never falls off their end exactly if `anyTerminates` does, before and after;
and statements of which this holds never come to their end, in whatever environment they run. -/
theorem accepted_functions_return (config : Config) (host : Host)
    (canonical : ∀ function ∈ host, function.signature.Canonical) (inputs : List String)
    (source : String) (parsed : ParsedText)
    (read : parseText config.filename config.maxNestingDepth source = .ok parsed) :
    let session := (start config host).after inputs
    let analysis := (session.analyzer.analyze config parsed.program).1
    (analysis.ok = true → Stmt.bareList analysis.program = parsed.program ∧
      ∀ node ∈ Stmt.nodesOfList analysis.program, ∀ ty body, node.function? = some (ty, body) →
        ∃ params result, ty = some (.function params result) ∧
          (result.isNilable = false → body.CallsReturn)) ∧
    (∀ (levels : Nat) (statements checked : List Stmt) (verdict : Bool) (analyzer : Analyzer),
      (checkStatementsAt levels statements analyzer).result.1 = .ok (checked, verdict) →
      verdict = anyTerminates statements ∧ anyTerminates checked = anyTerminates statements) ∧
    ∀ (setup : Setup) (levels : Nat) (environment : Environment) (statements : List Stmt)
      (before : Machine), anyTerminates statements = true →
      ∃ stop after, Evaluator.runBlock ⟨evalAt setup levels, runAt setup levels, callAt setup levels⟩
        environment statements before = (.error stop, after) := by
  intro session analysis
  refine ⟨?_, ?_, ?_⟩
  · intro ok
    have consistent := (start_consistent config canonical).after inputs
    obtain ⟨complete, -⟩ := Analyzer.Consistent.analyze_complete config (consistent.begin parsed.program)
      (parseText_plain read) ok
    refine ⟨complete.bare, fun node mem ty body function => ?_⟩
    exact (complete.checked node mem).callsReturn function
  · intro levels statements checked verdict analyzer run
    exact (Checks.weighing levels).statements statements analyzer (checked, verdict) run
  · intro setup levels environment statements before terminates
    exact runBlock_stops setup levels environment terminates before

/-- An anonymous function without a written result that returns from within a loop without end. -/
theorem accepted_functions_return_loop :
    let source := "var f = fn(n: int) \x7b while true \x7b if n > x \x7b return n \x7d \x7d \x7d"
    let session := (start {} [Host.print]).after ["var x = 3"]
    ∃ parsed, parseText "<input>" 64 source = .ok parsed ∧ parsed.ok = true ∧
      let analysis := (session.analyzer.analyze {} parsed.program).1
      analysis.ok = true ∧ (Stmt.nodesOfList analysis.program).countP Node.givesResult = 1 ∧
      Stmt.bareList analysis.program = parsed.program ∧
      ∀ node ∈ Stmt.nodesOfList analysis.program, ∀ ty body, node.function? = some (ty, body) →
        ∃ params result, ty = some (.function params result) ∧
          (result.isNilable = false → body.CallsReturn) := by
  intro source session
  have accepted : ((parseText "<input>" 64 source).toOption.map fun parsed =>
      parsed.ok && (session.analyzer.analyze {} parsed.program).1.ok &&
        (Stmt.nodesOfList (session.analyzer.analyze {} parsed.program).1.program).countP
          Node.givesResult == 1) = some true := by
    decide +kernel
  obtain ⟨parsed, read, accepted⟩ := exists_ok_of_shown accepted
  obtain ⟨both, found⟩ := Bool.and_eq_true_iff.mp accepted
  obtain ⟨clean, ok⟩ := Bool.and_eq_true_iff.mp both
  refine ⟨parsed, read, clean, ok, eq_of_beq found, ?_⟩
  exact (accepted_functions_return {} [Host.print] (by simp; decide) ["var x = 3"] source parsed read).1 ok

end Session

end FlowScript
