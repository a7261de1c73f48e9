import FlowScript.Syntax
/-!
# Reading tokens

A `Cursor` is a place in a token list together with the problems reported so far, and a `Parse`
reads on from it.  A parse can be interrupted in two ways: by a syntax problem, from which it
recovers at the next statement, and by nesting that goes too deep, which ends it.  Nesting is too deep
past a limit of the language, and where the stack on which the rules call each other is used up.
Either way the cursor stays where it was.

`Parse.iterate` is the one loop of the grammar.  It ends after more rounds than there are tokens
left, which is never reached since each round takes a token.
-/

namespace FlowScript

/-- What can nest too deep. -/
inductive Nesting where
  | expression
  | block
  | type
  deriving DecidableEq, Repr

/-- The name of what nests. -/
def Nesting.text : Nesting → String
  | .expression => "expression"
  | .block => "block"
  | .type => "type"

/-- What is wrong with a sequence of tokens. -/
inductive SyntaxProblem where
  /-- Another kind of token should stand here. -/
  | expected (kind : TokenKind) (context : String) (found : Token)
  | expectedTerminator (found : Token)
  | expectedType (found : Token)
  | expectedExpression (found : Token)
  | expectedFieldEnd (found : Token)
  | traitMethodBody
  | unmatchedBrace
  | invalidTarget
  | tooDeep (what : Nesting) (limit : Nat)
  /-- The rules called each other too often. -/
  | overflow
  deriving Repr

namespace SyntaxProblem

/-- How messages name a kind of token that should stand somewhere. -/
def expectedText : TokenKind → String
  | .identifier => "identifier"
  | .leftParen => "'('"
  | .rightParen => "')'"
  | .leftBrace => "'\x7b'"
  | .rightBrace => "'\x7d'"
  | .colon => "':'"
  | .comma => "','"
  | .arrow => "'->'"
  | .dotDot => "'..'"
  | .equal => "'='"
  | .kwIn => "'in'"
  | .terminator => "end of statement"
  | .endOfInput => "end of input"
  | kind => String.ofList (kind.label.toList.map Char.toLower)

/-- The code of a syntax problem. -/
def code : SyntaxProblem → String
  | .invalidTarget => "E_INVALID_ASSIGN_TARGET"
  | _ => "E_SYNTAX"

/-- The message of a syntax problem. -/
def message : SyntaxProblem → String
  | .expected kind context found =>
    "expected " ++ expectedText kind ++ " " ++ context ++ ", found " ++ found.text
  | .expectedTerminator found => "expected end of statement, found " ++ found.text
  | .expectedType found => "expected a type, found " ++ found.text
  | .expectedExpression found => "expected expression, found " ++ found.text
  | .expectedFieldEnd found => "expected ',' or end of line after field, found " ++ found.text
  | .traitMethodBody => "trait methods are signatures only and cannot have a body"
  | .unmatchedBrace => "unmatched '\x7d'"
  | .invalidTarget => "invalid assignment target"
  | .tooDeep what limit =>
    what.text ++ " nested too deeply (limit " ++ toString limit ++ ")"
  | .overflow => "program nested too deeply"

/-- The diagnostic of a syntax problem. -/
def diagnostic (problem : SyntaxProblem) (file : String) (position : Position) : Diagnostic :=
  { message := problem.message
    code := some problem.code
    phase := some .parser
    span := Span.of (some file) (some position) }

end SyntaxProblem

/-- A syntax problem and where it is. -/
structure SyntaxReport where
  problem : SyntaxProblem
  position : Position
  deriving Repr

/-- A place in a token list. -/
structure Cursor where
  /-- The tokens that are left. -/
  rest : List Token
  /-- How many tokens were taken. -/
  consumed : Nat := 0
  /-- How many tokens were looked at, taken or not. -/
  demanded : Nat := 0
  /-- The problems reported so far. -/
  reports : Array SyntaxReport := #[]
  deriving Repr

/-- Why a parse is interrupted. -/
inductive Interrupt where
  /-- A problem from which the parse recovers. -/
  | problem (report : SyntaxReport)
  /-- Nesting that goes too deep. -/
  | tooDeep (report : SyntaxReport)
  deriving Repr

/-- A computation that reads tokens. -/
abbrev Parse := ExceptT Interrupt (StateM Cursor)

namespace Cursor

/-- What is read past the last token. -/
def missing : Token := ⟨.endOfInput, "", .nil, ⟨0, 0⟩⟩

/-- The token `ahead` places on. -/
def tokenAt (cursor : Cursor) (ahead : Nat) : Token := cursor.rest[ahead]?.getD missing

/-- The cursor once the token `ahead` places on has been looked at. -/
def look (cursor : Cursor) (ahead : Nat) : Cursor :=
  { cursor with demanded := max cursor.demanded (cursor.consumed + ahead + 1) }

/-- The cursor past `count` tokens. -/
def skip (cursor : Cursor) (count : Nat) : Cursor :=
  { cursor with rest := cursor.rest.drop count, consumed := cursor.consumed + count }

/-- The number of tokens at the start whose kinds satisfy `p`. -/
def leading (p : TokenKind → Bool) (cursor : Cursor) : Nat :=
  (cursor.rest.takeWhile fun token => p token.kind).length

end Cursor

namespace Parse

/-- The token `ahead` places on, which is not taken. -/
def peekAt (ahead : Nat) : Parse Token := do
  modify fun cursor => cursor.look ahead
  return (← get).tokenAt ahead

/-- The next token, which is not taken. -/
def peek : Parse Token := peekAt 0

/-- Takes the next token; the end of the input is never taken. -/
def advance : Parse Token := do
  let token ← peek
  if token.kind ≠ .endOfInput then
    modify fun cursor => cursor.skip 1
  return token

/-- Whether the next token is of a kind. -/
def check (kind : TokenKind) : Parse Bool := return (← peek).kind = kind

/-- Takes the next token if it is of a kind. -/
def accept (kind : TokenKind) : Parse Bool := do
  if ← check kind then
    let _ ← advance
    return true
  else return false

/-- Interrupts with a problem at a token. -/
def fail {α : Type} (problem : SyntaxProblem) (token : Token) : Parse α :=
  throw (.problem ⟨problem, token.position⟩)

/-- Takes the next token, which has to be of a kind. -/
def expect (kind : TokenKind) (context : String) : Parse Token := do
  let token ← peek
  if token.kind = kind then advance
  else fail (.expected kind context token) token

/-- Reports a problem and goes on. -/
def report (problem : SyntaxReport) : Parse Unit :=
  modify fun cursor => { cursor with reports := cursor.reports.push problem }

/-- Takes the tokens at the start whose kinds satisfy `p`, which the end of the input does not. -/
def skipWhile (p : TokenKind → Bool) : Parse Unit :=
  modify fun cursor =>
    let count := cursor.leading p
    (cursor.look count).skip count

/-- Takes all terminators at the start. -/
def skipTerminators : Parse Unit := skipWhile fun kind => kind = .terminator

/-- Takes the terminator of a statement, which may be missing before a closing brace and at the end
of the input. -/
def expectTerminator : Parse Unit := do
  let token ← peek
  match token.kind with
  | .terminator =>
    let _ ← advance
  | .rightBrace | .endOfInput => return
  | _ => fail (.expectedTerminator token) token

/-- Repeats a step at most `rounds` times, as long as it gives a new value. -/
def repeatStep {α : Type} (step : α → Parse (Option α)) : (rounds : Nat) → α → Parse α
  | 0, value => return value
  | rounds + 1, value => do
    match ← step value with
    | some next => repeatStep step rounds next
    | none => return value

/-- Repeats a step as long as it gives a new value. Each such step takes a token, so the number of
tokens left bounds the rounds. -/
def iterate {α : Type} (step : α → Parse (Option α)) (value : α) : Parse α := do
  repeatStep step ((← get).rest.length + 1) value

/-- One more item after a comma, if there is one. -/
def nextItem {α : Type} (item : Parse α) (items : Array α) : Parse (Option (Array α)) := do
  if ← accept .comma then return some (items.push (← item)) else return none

/-- What `item` reads, once or more, with commas between. -/
def commaSeparated {α : Type} (item : Parse α) : Parse (List α) := do
  let items ← iterate (nextItem item) #[← item]
  return items.toList

/-- What `item` reads, any number of times with commas between, up to a closing parenthesis. -/
def listed {α : Type} (item : Parse α) : Parse (List α) := do
  if ← check .rightParen then return [] else commaSeparated item

/-- Ends the parse with a problem at the next token. -/
def abort {α : Type} (problem : SyntaxProblem) : Parse α := do
  let token ← peek
  throw (.tooDeep ⟨problem, token.position⟩)

end Parse

end FlowScript
