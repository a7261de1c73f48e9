import FlowScript.Token.Literal
import FlowScript.Token.Terminator
/-!
# The token stream

The tokens of a text in the order in which a reader meets them, with the lexical problems between
them.  A malformed piece never stops the stream: an invalid character is reported and everything
that directly adjoins it is skipped, an open comment is reported and left out, and a malformed
number or an open string is reported and stands for what it begins with.  Only a whole number with
too many digits ends the stream.

A stream is read on demand: `TokenStream.read` gives the part that is met on the way to a given
number of tokens, and only its problems count.
-/

namespace FlowScript

/-- What is wrong with a piece of text. -/
inductive LexProblem where
  | invalidCharacter (c : Char)
  | openComment
  | malformedNumber (text : String)
  | openString
  | unknownEscape (c : Char)
  deriving DecidableEq, Repr

namespace LexProblem

/-- The code of a lexical problem. -/
def code : LexProblem → String
  | .invalidCharacter _ => "E_LEX_INVALID_CHAR"
  | .openComment => "E_LEX_UNTERMINATED_COMMENT"
  | .malformedNumber _ => "E_LEX_INVALID_NUMBER"
  | .openString => "E_LEX_UNTERMINATED_STRING"
  | .unknownEscape _ => "E_LEX_INVALID_ESCAPE"

/-- The message of a lexical problem. -/
def message : LexProblem → String
  | .invalidCharacter c => "invalid character '" ++ c.toString ++ "'"
  | .openComment => "unterminated block comment"
  | .malformedNumber text => "invalid numeric literal '" ++ text ++ "'"
  | .openString => "unterminated string literal"
  | .unknownEscape c => "invalid escape sequence '\\" ++ c.toString ++ "'"

/-- The diagnostic of a lexical problem. -/
def diagnostic (problem : LexProblem) (file : String) (position : Position) : Diagnostic :=
  { message := problem.message
    code := some problem.code
    phase := some .lexer
    span := Span.of (some file) (some position) }

end LexProblem

/-- What a reader of a text meets next. -/
inductive LexEvent where
  | problem (problem : LexProblem) (position : Position)
  | token (token : Token)
  /-- A whole number that cannot be read; nothing follows. -/
  | failure (overflow : DigitOverflow)
  deriving Repr

/-- The tokens of a text and the problems between them. -/
abbrev TokenStream := List LexEvent

namespace Lexeme

/-- The token of a lexeme with a value. -/
def toToken (lexeme : Lexeme) (kind : TokenKind) (value : Literal) : Token :=
  ⟨kind, String.ofList lexeme.text, value, lexeme.position⟩

/-- The problems of a string literal's inside and the token it gives. -/
def stringEvents (lexeme : Lexeme) (body : List Char) : TokenStream :=
  let problems := (Literal.unknownEscapes 1 body).map fun (offset, c) =>
    LexEvent.problem (.unknownEscape c)
      ⟨lexeme.position.line, lexeme.position.column + offset⟩
  problems ++ [.token (lexeme.toToken .string (.string (String.ofList (Literal.unescape body))))]

/-- The token of a number, followed by `rest`, or the failure that ends the stream. -/
def numberEvents (lexeme : Lexeme) (numeral : List Char) (rest : TokenStream) : TokenStream :=
  match Literal.ofNumeral numeral with
  | .ok value =>
    let kind := match value with
      | .float _ => .float
      | _ => .integer
    .token (lexeme.toToken kind value) :: rest
  | .error overflow => [.failure overflow]

/-- What a lexeme outside of a malformed run adds in front of `rest`. -/
def events (lexeme : Lexeme) (rest : TokenStream) : TokenStream :=
  match lexeme.kind with
  | .invalid =>
    .problem (.invalidCharacter (lexeme.text.headD ' ')) lexeme.position :: rest
  | .openComment => .problem .openComment lexeme.position :: rest
  | .malformedNumber =>
    .problem (.malformedNumber (String.ofList lexeme.text)) lexeme.position ::
      lexeme.numberEvents (lexeme.text.take ((Scan.number? lexeme.text).getD 0)) rest
  | .openString =>
    .problem .openString lexeme.position :: lexeme.stringEvents (lexeme.text.drop 1) ++ rest
  | .token .integer | .token .float => lexeme.numberEvents lexeme.text rest
  | .token .string => lexeme.stringEvents (lexeme.text.drop 1).dropLast ++ rest
  | .token .kwTrue => .token (lexeme.toToken .kwTrue (.bool true)) :: rest
  | .token .kwFalse => .token (lexeme.toToken .kwFalse (.bool false)) :: rest
  | .token kind => .token (lexeme.toToken kind .nil) :: rest
  | .semicolon | .newline | .blank | .comment => rest

end Lexeme

namespace TokenStream

/-- The stream of a list of lexemes before a final part. `skipping` is the offset just past a
malformed run: a lexeme that starts there still belongs to the run, unless it is a terminator. -/
def ofLexemes (final : TokenStream) (skipping : Option Nat) : List Lexeme → TokenStream
  | [] => final
  | lexeme :: rest =>
    if skipping = some lexeme.offset ∧ lexeme.kind ≠ .token .terminator then
      ofLexemes final (some lexeme.stop) rest
    else
      lexeme.events
        (ofLexemes final (if lexeme.kind = .invalid then some lexeme.stop else none) rest)

/-- The token stream of a text; its last token is the end of the input. -/
def ofText (source : String) : TokenStream :=
  ofLexemes [.token ⟨.endOfInput, "", .nil, Position.advance ⟨1, 1⟩ source.toList⟩] none
    (significantLexemes source)

/-- The tokens of a stream. -/
def tokens (stream : TokenStream) : List Token :=
  stream.filterMap fun
    | .token token => some token
    | _ => none

/-- The problems of a stream. -/
def problems (stream : TokenStream) : List (LexProblem × Position) :=
  stream.filterMap fun
    | .problem problem position => some (problem, position)
    | _ => none

/-- The failure of a stream, if it ends with one. -/
def failure? (stream : TokenStream) : Option DigitOverflow :=
  stream.findSome? fun
    | .failure overflow => some overflow
    | _ => none

/-- The part of a stream that is read for its first `count` tokens. -/
def read : (count : Nat) → TokenStream → TokenStream
  | 0, _ => []
  | _, [] => []
  | count + 1, .token token :: rest => .token token :: read count rest
  | count + 1, event :: rest => event :: read (count + 1) rest

end TokenStream

end FlowScript
