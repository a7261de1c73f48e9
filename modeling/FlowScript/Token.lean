import FlowScript.Diagnostic
/-!
# Tokens

The words of a program: keywords, names, literals, operators and punctuation, the terminators that
end statements, and the end of the input.
-/

namespace FlowScript

/-- A literal value. -/
inductive Literal where
  | nil
  | bool (value : Bool)
  | int (value : Int)
  | float (value : Float)
  | string (value : String)
  deriving Repr, Inhabited

/-- The kind of a token. -/
inductive TokenKind where
  | kwVar | kwFn | kwStruct | kwTrait | kwIf | kwElse | kwWhile | kwFor | kwIn | kwReturn
  | kwTrue | kwFalse | kwNil | kwAnd | kwOr | kwSelf | kwIs
  | identifier | integer | float | string
  | equalEqual | notEqual | lessEqual | greaterEqual | arrow | dotDot
  | equal | less | greater | plus | minus | star | slash | percent | bang | question
  | dot | comma | colon | leftParen | rightParen | leftBrace | rightBrace
  /-- The end of a statement: a semicolon, or a newline where a statement can end. -/
  | terminator
  | endOfInput
  deriving DecidableEq, Repr, Inhabited

namespace TokenKind

/-- The name of a token kind for tools. -/
def label : TokenKind → String
  | .kwVar => "VAR" | .kwFn => "FN" | .kwStruct => "STRUCT" | .kwTrait => "TRAIT"
  | .kwIf => "IF" | .kwElse => "ELSE" | .kwWhile => "WHILE" | .kwFor => "FOR" | .kwIn => "IN"
  | .kwReturn => "RETURN" | .kwTrue => "TRUE" | .kwFalse => "FALSE" | .kwNil => "NIL"
  | .kwAnd => "AND" | .kwOr => "OR" | .kwSelf => "SELF" | .kwIs => "IS"
  | .identifier => "IDENT" | .integer => "INT" | .float => "FLOAT" | .string => "STRING"
  | .equalEqual => "EQEQ" | .notEqual => "NOTEQ" | .lessEqual => "LTE" | .greaterEqual => "GTE"
  | .arrow => "ARROW" | .dotDot => "DOTDOT" | .equal => "EQUAL" | .less => "LT"
  | .greater => "GT" | .plus => "PLUS" | .minus => "MINUS" | .star => "STAR"
  | .slash => "SLASH" | .percent => "PERCENT" | .bang => "BANG" | .question => "QMARK"
  | .dot => "DOT" | .comma => "COMMA" | .colon => "COLON" | .leftParen => "LPAR"
  | .rightParen => "RPAR" | .leftBrace => "LBRACE" | .rightBrace => "RBRACE"
  | .terminator => "TERMINATOR" | .endOfInput => "EOF"

/-- The keywords with their spelling. -/
def keywords : List (String × TokenKind) :=
  [("var", .kwVar), ("fn", .kwFn), ("struct", .kwStruct), ("trait", .kwTrait), ("if", .kwIf),
   ("else", .kwElse), ("while", .kwWhile), ("for", .kwFor), ("in", .kwIn),
   ("return", .kwReturn), ("true", .kwTrue), ("false", .kwFalse), ("nil", .kwNil),
   ("and", .kwAnd), ("or", .kwOr), ("self", .kwSelf), ("is", .kwIs)]

/-- The kind of a word: that of the keyword it spells, else an identifier. -/
def ofWord (word : String) : TokenKind := (keywords.lookup word).getD .identifier

/-- The operators and punctuation marks with their spelling, the longer ones first. -/
def marks : List (String × TokenKind) :=
  [("==", .equalEqual), ("!=", .notEqual), ("<=", .lessEqual), (">=", .greaterEqual),
   ("->", .arrow), ("..", .dotDot),
   ("=", .equal), ("<", .less), (">", .greater), ("+", .plus), ("-", .minus), ("*", .star),
   ("/", .slash), ("%", .percent), ("!", .bang), ("?", .question), (".", .dot), (",", .comma),
   (":", .colon), ("(", .leftParen), (")", .rightParen), ("\x7b", .leftBrace),
   ("\x7d", .rightBrace)]

/-- Whether tokens of a kind are literals. -/
def isLiteral : TokenKind → Bool
  | .integer | .float | .string | .kwTrue | .kwFalse | .kwNil => true
  | _ => false

/-- Whether tokens of a kind are keywords. -/
def isKeyword (kind : TokenKind) : Bool := keywords.any fun entry => entry.2 = kind

/-- Whether tokens of a kind are operators. -/
def isOperator : TokenKind → Bool
  | .equalEqual | .notEqual | .lessEqual | .greaterEqual | .arrow | .dotDot | .equal | .less
  | .greater | .plus | .minus | .star | .slash | .percent | .bang | .question | .dot
  | .kwAnd | .kwOr | .kwIs => true
  | _ => false

/-- The class of a token kind for tools. -/
def category (kind : TokenKind) : String :=
  if kind = .endOfInput then "end-of-input"
  else if kind.isLiteral then "literal"
  else if kind.isKeyword then "keyword"
  else if kind = .identifier then "identifier"
  else if kind.isOperator then "operator"
  else "punctuation"

/-- Whether a statement can end with a token of this kind. -/
def canEndStatement : TokenKind → Bool
  | .identifier | .integer | .float | .string | .kwTrue | .kwFalse | .kwNil | .kwSelf
  | .kwReturn | .rightParen | .rightBrace | .bang | .question => true
  | _ => false

end TokenKind

/-- A word of a program with its place and, for a literal, its value. -/
structure Token where
  kind : TokenKind
  lexeme : String
  value : Literal := .nil
  position : Position
  deriving Repr, Inhabited

/-- A token as messages name it. -/
def Token.text (token : Token) : String :=
  match token.kind with
  | .endOfInput => "end of input"
  | .terminator => "end of statement"
  | _ => "'" ++ token.lexeme ++ "'"

end FlowScript
