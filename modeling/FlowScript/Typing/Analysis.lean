import FlowScript.Config
import FlowScript.Typing.Statement
/-!
# Checking programs

The rules tied together by recursion on the levels that are left, and the check of a whole program.
An analyzer can check one program after another; a `Snapshot` holds what a program can change for
the next one, and `Analyzer.restore` puts it back.
-/

namespace FlowScript

mutual

/-- Checks an expression with `levels` levels left. -/
def checkExprAt : (levels : Nat) → Expr → Check Expr
  | 0, _ => throw .tooDeep
  | levels + 1, expr =>
    Checks.checkExpr
      ⟨checkExprAt levels, checkConditionAt levels, checkStatementAt levels,
        checkStatementsAt levels, finishAt levels⟩ expr

/-- Checks a condition with `levels` levels left. -/
def checkConditionAt : (levels : Nat) → Expr → Check (Expr × Branches)
  | 0, _ => throw .tooDeep
  | levels + 1, expr =>
    Checks.checkCondition
      ⟨checkExprAt levels, checkConditionAt levels, checkStatementAt levels,
        checkStatementsAt levels, finishAt levels⟩ expr

/-- Checks a statement by itself with `levels` levels left. -/
def checkStatementAt : (levels : Nat) → Stmt → Check (Stmt × Bool)
  | 0, _ => throw .tooDeep
  | levels + 1, statement => do
    let (statement, _, terminates) ← Checks.checkStatement
      ⟨checkExprAt levels, checkConditionAt levels, checkStatementAt levels,
        checkStatementsAt levels, finishAt levels⟩ statement .nothing
    return (statement, terminates)

/-- Checks a list of statements with `levels` levels left. -/
def checkStatementsAt : (levels : Nat) → List Stmt → Check (List Stmt × Bool)
  | 0, _ => throw .tooDeep
  | levels + 1, statements =>
    Checks.checkStatements
      ⟨checkExprAt levels, checkConditionAt levels, checkStatementAt levels,
        checkStatementsAt levels, finishAt levels⟩ statements

/-- Checks the body of a function with `levels` levels left. -/
def finishAt : (levels : Nat) → FunctionKey → Check Unit
  | 0, _ => throw .tooDeep
  | levels + 1, key =>
    Checks.finishFunction
      ⟨checkExprAt levels, checkConditionAt levels, checkStatementAt levels,
        checkStatementsAt levels, finishAt levels⟩ key

end

/-- How many levels of expressions, statements and bodies a program may have. -/
def checkLevels : Nat := 2000

/-- What checking a program gives: the program with types, its errors, and its warnings. -/
structure Analysis where
  program : Program
  diagnostics : List Diagnostic
  warnings : List Diagnostic := []
  /-- What the check took for granted in vain, if that made it fail. -/
  failure : Option Lookup := none

namespace Analysis

/-- Whether a program has no error. -/
def ok (analysis : Analysis) : Bool := analysis.failure.isNone && noErrors analysis.diagnostics

/-- The analysis with warnings made errors, if the configuration says so. -/
def applyWarningPolicy (config : Config) (analysis : Analysis) : Analysis :=
  if config.warningsAsErrors then
    { analysis with
      diagnostics := analysis.diagnostics ++
        analysis.warnings.map fun warning => { warning with severity := .error }
      warnings := [] }
  else analysis

end Analysis

namespace Analyzer

/-- The state in which the check of a program starts. -/
def begin (analyzer : Analyzer) (program : Program) : Analyzer :=
  { analyzer with
    site := globalSite
    finished := Table.empty
    unstable := closureAssignedNames program
    topLevel := none }

/-- The state after the check of a program: of its scopes the outermost are left, and nothing of its
statements is open. -/
def finish (analyzer : Analyzer) : Analyzer :=
  { analyzer with
    frames := analyzer.frames.take (globalFrame + 1)
    contexts := #[]
    site := globalSite
    pending := Table.empty
    active := Table.empty
    deferred := [] }

/-- Checks a program; `levels` bounds how deep it may nest. -/
def analyzeWithin (levels : Nat) (analyzer : Analyzer) (config : Config) (program : Program) :
    Analysis × Analyzer :=
  let ⟨(outcome, after), reports⟩ := checkStatementsAt levels program (analyzer.begin program)
  let (checked, reports, failure) : Program × List CheckReport × Option Lookup := match outcome with
    | .ok (statements, _) => (statements, reports, none)
    | .error .tooDeep => (program, reports ++ [⟨.tooDeep, after.topLevel⟩], none)
    | .error (.undefined lookup) => (program, reports, some lookup)
  let diagnostics := reports.map fun report =>
    report.problem.diagnostic config.filename report.position
  let warnings := diagnostics.filter fun diagnostic => !diagnostic.isError
  ({ program := checked
     diagnostics := diagnostics.filter Diagnostic.isError
     warnings := if config.warnings then warnings else []
     failure },
   after.finish)

/-- Checks a program. -/
def analyze (analyzer : Analyzer) (config : Config) (program : Program) : Analysis × Analyzer :=
  analyzeWithin checkLevels analyzer config program

end Analyzer

/-! ## Snapshots -/

/-- What a struct has: the types of its fields and methods, and the traits it lists. -/
structure Members where
  fields : Table String Ty
  methods : Table String Ty
  traits : List String

/-- What a struct has. -/
def StructInfo.members (info : StructInfo) : Members := ⟨info.fields, info.methods, info.traits⟩

/-- What the check of a program can change for later programs. -/
structure Snapshot where
  globals : Frame
  /-- The declared structs. -/
  structs : Table String (StructDecl Stmt)
  /-- What the structs have. -/
  members : Table String Members
  traits : Table String TraitInfo
  flow : Flow
  /-- The names there are. -/
  symbols : Array Symbol
  /-- The types of the global names. -/
  types : List (SymbolRef × Ty)

/-- The structs of a snapshot with what they have; each is looked up among those that are declared. -/
def Snapshot.registry (saved : Snapshot) : Table String StructInfo :=
  ⟨saved.members.entries.filterMap fun (name, members) =>
    (saved.structs.find? name).map fun decl =>
      (name, ⟨decl, members.fields, members.methods, members.traits⟩)⟩

namespace Analyzer

/-- What later programs see of an analyzer. -/
def snapshot (analyzer : Analyzer) : Snapshot :=
  let globals := analyzer.frame globalFrame
  { globals
    structs := analyzer.structs.map StructInfo.decl
    members := analyzer.structs.map StructInfo.members
    traits := analyzer.traits
    flow := analyzer.flow
    symbols := analyzer.symbols
    types := globals.symbols.values.map fun ref => (ref, (analyzer.symbol ref).ty) }

/-- A name of a snapshot as it is now, where it is still there: its type may have changed. -/
def current (analyzer : Analyzer) (id : Nat) (saved : Symbol) : Symbol :=
  if { analyzer.symbolAt id with ty := saved.ty } = saved then analyzer.symbolAt id else saved

/-- Puts a snapshot back. Of the names that it holds only the global ones get their types back. -/
def restore (analyzer : Analyzer) (saved : Snapshot) : Analyzer :=
  let symbols := saved.types.foldl
    (fun symbols (ref, ty) => symbols.modify ref.id fun symbol => { symbol with ty })
    (saved.symbols.mapIdx analyzer.current)
  { analyzer with
    frames := analyzer.frames.setIfInBounds globalFrame saved.globals
    symbols
    structs := saved.registry
    traits := saved.traits
    flow := saved.flow }

/-- The global names, in alphabetical order. -/
def names (analyzer : Analyzer) : List String :=
  (analyzer.frame globalFrame).symbols.keys.mergeSort fun a b => a ≤ b

/-- The global names with their types. -/
def globalTypes (analyzer : Analyzer) : List (String × Ty) :=
  (analyzer.frame globalFrame).symbols.entries.map fun (name, ref) =>
    (name, (analyzer.symbol ref).ty)

/-- The structs with the types of their fields. -/
def fieldTypes (analyzer : Analyzer) : List (String × List (String × Ty)) :=
  analyzer.structs.entries.map fun (name, info) => (name, info.fields.entries)

end Analyzer

end FlowScript
