import FlowScript.Token.Lexeme
/-!
# Statement terminators

A semicolon ends a statement, and so does a newline outside of parentheses right after a token that
can end one.  Every other newline is dropped.
-/

namespace FlowScript

namespace LexemeKind

/-- Whether a lexeme is dropped before terminators are placed. -/
def isIgnored : LexemeKind → Bool
  | .blank | .comment => true
  | _ => false

/-- Whether a lexeme leaves open if a following newline ends a statement, as if it were not there. -/
def isTransparent : LexemeKind → Bool
  | .invalid | .openComment => true
  | _ => false

/-- Whether a statement can end with a lexeme. -/
def canEndStatement : LexemeKind → Bool
  | .token kind => kind.canEndStatement
  | .malformedNumber | .openString => true
  | _ => false

/-- The number of open parentheses after a lexeme. A closing one without an opening one does not
count. -/
def parenDepth (depth : Nat) : LexemeKind → Nat
  | .token .leftParen => depth + 1
  | .token .rightParen => depth - 1
  | _ => depth

end LexemeKind

/-- A lexeme turned into a terminator. -/
def Lexeme.toTerminator (lexeme : Lexeme) : Lexeme := { lexeme with kind := .token .terminator }

/-- Turns semicolons and statement-ending newlines into terminators and drops the other newlines.
`depth` is the number of open parentheses, and `ends` tells whether the token before can end a
statement. -/
def placeTerminators (depth : Nat) (ends : Bool) : List Lexeme → List Lexeme
  | [] => []
  | lexeme :: rest =>
    match lexeme.kind with
    | .newline =>
      if depth = 0 ∧ ends then lexeme.toTerminator :: placeTerminators depth false rest
      else placeTerminators depth ends rest
    | .semicolon => lexeme.toTerminator :: placeTerminators depth false rest
    | kind =>
      if kind.isTransparent then lexeme :: placeTerminators depth ends rest
      else lexeme :: placeTerminators (kind.parenDepth depth) kind.canEndStatement rest

/-- The lexemes of a text that reach the tokens: without blanks and comments, and with terminators
placed. -/
def significantLexemes (source : String) : List Lexeme :=
  placeTerminators 0 false ((lexemes source).filter fun lexeme => !lexeme.kind.isIgnored)

end FlowScript
