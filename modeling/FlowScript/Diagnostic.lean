/-!
# Positions and diagnostics

A diagnostic is a message about a place in a text: which phase found it, how severe it is, a code
for tools, and notes.  Each phase keeps its own problems as typed causes; they become diagnostics
where the file name is known.
-/

namespace FlowScript

/-- A place in a text, counted from one in lines and in characters of the line. -/
structure Position where
  line : Nat
  column : Nat
  deriving DecidableEq, Repr, Inhabited

/-- A place in a file, as far as it is known. -/
structure Span where
  file : Option String := none
  line : Option Nat := none
  column : Option Nat := none
  deriving DecidableEq, Repr, Inhabited

namespace Span

/-- The span of a position in a file; an unknown position leaves line and column open. -/
def of (file : Option String) : Option Position → Span
  | some position => ⟨file, some position.line, some position.column⟩
  | none => ⟨file, none, none⟩

/-- `file:line:column`, with question marks for what is unknown. -/
def text (span : Span) : String :=
  let file := match span.file with
    | some name => if name = "" then "<input>" else name
    | none => "<input>"
  let number : Option Nat → String
    | some n => toString n
    | none => "?"
  file ++ ":" ++ number span.line ++ ":" ++ number span.column

end Span

/-- The phase that found a problem. -/
inductive Phase where
  | lexer
  | parser
  | checker
  | runtime
  /-- A phase of an embedding tool. -/
  | other (label : String)
  deriving DecidableEq, Repr, Inhabited

/-- The name of a phase. -/
def Phase.label : Phase → String
  | .lexer => "lexer"
  | .parser => "parser"
  | .checker => "checker"
  | .runtime => "runtime"
  | .other label => label

/-- How severe a diagnostic is. Only `error` stops the later phases. -/
inductive Severity where
  | error
  | warning
  /-- A severity of an embedding tool. -/
  | other (label : String)
  deriving DecidableEq, Repr, Inhabited

/-- The name of a severity. -/
def Severity.label : Severity → String
  | .error => "error"
  | .warning => "warning"
  | .other label => label

/-- A message about a place in a text. -/
structure Diagnostic where
  message : String
  code : Option String := none
  phase : Option Phase := none
  severity : Severity := .error
  span : Span := {}
  notes : List String := []
  deriving DecidableEq, Repr, Inhabited

namespace Diagnostic

/-- Whether a diagnostic is an error. -/
def isError (diagnostic : Diagnostic) : Bool := diagnostic.severity = .error

/-- The line that shows a diagnostic, followed by one line for each note. An empty code is left
out like a missing one. -/
def text (diagnostic : Diagnostic) : String :=
  let code := match diagnostic.code with
    | some code => if code = "" then "" else "[" ++ code ++ "]"
    | none => ""
  let head := diagnostic.span.text ++ ": " ++ diagnostic.severity.label ++ code ++ ": " ++
    diagnostic.message
  diagnostic.notes.foldl (fun text note => text ++ "\n  note: " ++ note) head

/-- The key by which diagnostics of one text are put in order; an unknown place comes first. -/
def order (diagnostic : Diagnostic) : Nat × Nat :=
  (diagnostic.span.line.getD 0, diagnostic.span.column.getD 0)

/-- Whether one diagnostic may stand before another in text order. -/
def before (left right : Diagnostic) : Bool :=
  left.order.1 < right.order.1 ||
    (left.order.1 = right.order.1 && left.order.2 ≤ right.order.2)

/-- Diagnostics in text order; those of one place keep their order. -/
def sorted (diagnostics : List Diagnostic) : List Diagnostic := diagnostics.mergeSort before

end Diagnostic

/-- Whether a list of diagnostics has no error. -/
def noErrors (diagnostics : List Diagnostic) : Bool := !diagnostics.any Diagnostic.isError

end FlowScript
