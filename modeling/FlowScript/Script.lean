import FlowScript.Evaluation.Program
import FlowScript.Grammar.Program
import FlowScript.Typing.Analysis
/-!
# From text to result

A text is parsed, checked and run; each step is taken only if the one before found no error.
-/

namespace FlowScript

namespace Script

/-- Parses and checks a text. -/
def analyze (host : Host) (config : Config) (source : String) :
    Except DigitOverflow Analysis := do
  let parsed ← parseText config.filename config.maxNestingDepth source
  if noErrors parsed.diagnostics then
    let (analysis, _) := (Analyzer.initial host.signatures).analyze config parsed.program
    return analysis.applyWarningPolicy config
  else return { program := parsed.program, diagnostics := parsed.diagnostics }

/-- Parses, checks and runs a text. -/
def run (host : Host) (config : Config) (source : String) :
    Except DigitOverflow (RunResult × Machine) := do
  let analysis ← analyze host config source
  let machine := Machine.initial host
  if analysis.ok then
    let (result, machine) := (Setup.of config host).run analysis.program machine
    return ({ result with warnings := analysis.warnings }, machine)
  else
    return ({ diagnostics := analysis.diagnostics, warnings := analysis.warnings }, machine)

end Script

end FlowScript
