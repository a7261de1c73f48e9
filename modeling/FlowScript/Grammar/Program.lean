import FlowScript.Grammar.Statement
import FlowScript.Token.Stream
/-!
# The grammar of programs

The rules tied together: `Level.at limit stack depth` reads parts that may nest `depth` levels further,
out of `limit` in all, on a stack that holds `stack` more calls.  Every call of a rule for a nested part
or for a link of a chain takes one, so a long chain can use the stack up however little it nests; that
ends the program as nesting past the limit does.  `parseTokens` reads a program from tokens, and
`parseText` from a text, with the lexical problems of as much of the text as was looked at.
-/

namespace FlowScript

mutual

/-- An expression that may nest `depth` levels. -/
def expressionAt (limit : Nat) : (stack depth : Nat) → Parse Expr
  | 0, _ => Parse.abort .overflow
  | _ + 1, 0 => Parse.abort (.tooDeep .expression limit)
  | stack + 1, depth + 1 =>
    Level.assignment
      ⟨expressionAt limit stack depth, operandAt limit stack depth, valueAt limit stack depth,
        conditionalAt limit stack depth, blockAt limit stack depth, typeAt limit stack depth⟩
termination_by structural stack => stack

/-- The operand of a unary operator that may nest `depth` levels. -/
def operandAt (limit : Nat) : (stack depth : Nat) → Parse Expr
  | 0, _ => Parse.abort .overflow
  | _ + 1, 0 => Parse.abort (.tooDeep .expression limit)
  | stack + 1, depth + 1 =>
    Level.unary
      ⟨expressionAt limit stack depth, operandAt limit stack depth, valueAt limit stack depth,
        conditionalAt limit stack depth, blockAt limit stack depth, typeAt limit stack depth⟩
termination_by structural stack => stack

/-- What an equals sign assigns, with parts that may nest `depth` levels. -/
def valueAt (limit : Nat) : (stack depth : Nat) → Parse Expr
  | 0, _ => Parse.abort .overflow
  | stack + 1, depth =>
    Level.assignment
      ⟨expressionAt limit stack depth, operandAt limit stack depth, valueAt limit stack depth,
        conditionalAt limit stack depth, blockAt limit stack depth, typeAt limit stack depth⟩
termination_by structural stack => stack

/-- The conditional after an `else`, with parts that may nest `depth` levels. -/
def conditionalAt (limit : Nat) : (stack depth : Nat) → Parse Stmt
  | 0, _ => Parse.abort .overflow
  | stack + 1, depth =>
    Level.ifStmt
      ⟨expressionAt limit stack depth, operandAt limit stack depth, valueAt limit stack depth,
        conditionalAt limit stack depth, blockAt limit stack depth, typeAt limit stack depth⟩
termination_by structural stack => stack

/-- A block that may nest `depth` levels. -/
def blockAt (limit : Nat) : (stack depth : Nat) → String → Parse (Block Stmt)
  | 0, _, _ => Parse.abort .overflow
  | _ + 1, 0, _ => Parse.abort (.tooDeep .block limit)
  | stack + 1, depth + 1, context =>
    Level.blockBody
      ⟨expressionAt limit stack depth, operandAt limit stack depth, valueAt limit stack depth,
        conditionalAt limit stack depth, blockAt limit stack depth, typeAt limit stack depth⟩
      context
termination_by structural stack => stack

/-- A type that may nest `depth` levels. -/
def typeAt (limit : Nat) : (stack depth : Nat) → Parse TypeExpr
  | 0, _ => Parse.abort .overflow
  | _ + 1, 0 => Parse.abort (.tooDeep .type limit)
  | stack + 1, depth + 1 =>
    Level.typeBody
      ⟨expressionAt limit stack depth, operandAt limit stack depth, valueAt limit stack depth,
        conditionalAt limit stack depth, blockAt limit stack depth, typeAt limit stack depth⟩
termination_by structural stack => stack

end

/-- The parts that may nest `depth` levels, out of `limit`, read by rules that call each other at most
`stack` times before one of them ends. -/
def Level.at (limit stack depth : Nat) : Level :=
  ⟨expressionAt limit stack depth, operandAt limit stack depth, valueAt limit stack depth,
    conditionalAt limit stack depth, blockAt limit stack depth, typeAt limit stack depth⟩

/-- One more statement of a program, if the input does not end here. A closing brace without an
opening one is reported and dropped. -/
def Level.nextTopLevel (level : Level) (statements : Array Stmt) :
    Parse (Option (Array Stmt)) := do
  let token ← Parse.peek
  match token.kind with
  | .endOfInput => return none
  | .rightBrace =>
    let _ ← Parse.advance
    Parse.report ⟨.unmatchedBrace, token.position⟩
    Parse.skipTerminators
    return some statements
  | _ => level.nextStatement statements

/-- The statements of a program as far as they can be read. Nesting that goes too deep is reported
and ends the program with the statements before it. -/
def Level.topLevel (level : Level) : (rounds : Nat) → Array Stmt → Parse (Array Stmt)
  | 0, statements => return statements
  | rounds + 1, statements => do
    let next? ← tryCatch (level.nextTopLevel statements) fun
      | .tooDeep report => do
        Parse.report report
        return none
      | interrupt => throw interrupt
    match next? with
    | some next => level.topLevel rounds next
    | none => return statements

/-- A program read from tokens. -/
structure ParsedTokens where
  program : Program
  /-- The syntax problems, in the order in which they were found. -/
  reports : List SyntaxReport
  /-- How many tokens were looked at. -/
  demanded : Nat

/-- How many calls of rules the stack holds if nothing else is said. -/
def parserStack : Nat := 2500

/-- Reads a program from tokens, of which the last is the end of the input. -/
def parseTokens (maxDepth : Nat) (tokens : List Token) (stack : Nat := parserStack) : ParsedTokens :=
  let parse : Parse (Array Stmt) := do
    Parse.skipTerminators
    (Level.at maxDepth stack maxDepth).topLevel (tokens.length + 1) #[]
  let (outcome, cursor) := parse.run { rest := tokens }
  let program := match outcome with
    | .ok statements => statements.toList
    | .error _ => []
  ⟨program, cursor.reports.toList, cursor.demanded⟩

/-- A program read from a text, with its lexical and syntax problems in text order. -/
structure ParsedText where
  program : Program
  diagnostics : List Diagnostic

/-- Whether a text was read without an error. -/
def ParsedText.ok (parsed : ParsedText) : Bool := noErrors parsed.diagnostics

/-- Reads a program from a text. The text is read on demand, so where nesting that goes too deep
ends the program, what follows is not looked at. -/
def parseText (file : String) (maxDepth : Nat) (source : String) (stack : Nat := parserStack) :
    Except DigitOverflow ParsedText :=
  let stream := TokenStream.ofText source
  let parsed := parseTokens maxDepth stream.tokens stack
  let seen := stream.read parsed.demanded
  match seen.failure? with
  | some overflow => .error overflow
  | none =>
    let lexical := seen.problems.map fun (problem, position) => problem.diagnostic file position
    let structural := parsed.reports.map fun report =>
      report.problem.diagnostic file report.position
    .ok ⟨parsed.program, Diagnostic.sorted (lexical ++ structural)⟩

end FlowScript
