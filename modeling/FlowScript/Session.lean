import FlowScript.Checkpoint
import FlowScript.Script
/-!
# Sessions

A session runs one input after another; what an input declares stays for the next.  An input that
fails leaves no trace: its declarations are forgotten, the types of earlier names are as before, and
so are the contents of all cells that can be reached from the global variables.
-/

namespace FlowScript

/-- The state between the inputs of a session. -/
structure Session where
  config : Config
  host : Host
  analyzer : Analyzer
  machine : Machine

namespace Session

/-- A session before its first input. -/
def start (config : Config) (host : Host) : Session where
  config
  host
  analyzer := Analyzer.initial host.signatures
  machine := Machine.initial host

/-- Runs a checked program; if it fails, the machine is rolled back. -/
def runProgram (session : Session) (program : Program) : RunResult × Machine :=
  let saved := session.machine.heap.checkpoint
  let (result, machine) := (Setup.of session.config session.host).run program session.machine
  if result.ok then (result, machine)
  else (result, { machine with heap := machine.heap.rollback saved })

/-- Checks and runs a program; if either fails, the session is as before. -/
def runParsed (session : Session) (program : Program) : RunResult × Session :=
  let saved := session.analyzer.snapshot
  let (analysis, analyzer) := session.analyzer.analyze session.config program
  let analysis := analysis.applyWarningPolicy session.config
  if analysis.ok then
    let (result, machine) := session.runProgram analysis.program
    let analyzer := if result.ok then analyzer else analyzer.restore saved
    ({ result with warnings := analysis.warnings }, { session with analyzer, machine })
  else
    ({ diagnostics := analysis.diagnostics, warnings := analysis.warnings },
      { session with analyzer := analyzer.restore saved })

/-- Runs an input. -/
def run (session : Session) (source : String) : Except DigitOverflow (RunResult × Session) := do
  let parsed ← parseText session.config.filename session.config.maxNestingDepth source
  return if noErrors parsed.diagnostics then session.runParsed parsed.program
    else ({ diagnostics := parsed.diagnostics }, session)

/-- The global names, in alphabetical order. -/
def names (session : Session) : List String := session.analyzer.names

end Session

end FlowScript
