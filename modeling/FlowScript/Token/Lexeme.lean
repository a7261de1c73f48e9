import FlowScript.Text.Digit
import FlowScript.Token
/-!
# Lexemes

The first cut of a text: at each place the terminals of the language are tried in a fixed order,
and the first that matches takes its match.  Blanks, comments and malformed pieces are lexemes like
any other, so nothing of the text is lost.

Main statements: every text has a first lexeme and it is not empty (`Terminal.first?_cons`), and the
lexemes of a text put together are the text (`flatMap_text_lexemes`).
-/

namespace FlowScript

/-- What a lexeme is. -/
inductive LexemeKind where
  /-- A token by itself. -/
  | token (kind : TokenKind)
  | semicolon
  | newline
  /-- A number that runs into letters. -/
  | malformedNumber
  /-- A string literal that is not closed on its line. -/
  | openString
  /-- A block comment that is not closed. -/
  | openComment
  /-- A character that belongs to no other lexeme. -/
  | invalid
  | blank
  | comment
  deriving DecidableEq, Repr, Inhabited

/-- A piece of a text with its place; `offset` counts characters from the start of the text. -/
structure Lexeme where
  kind : LexemeKind
  text : List Char
  position : Position
  offset : Nat
  deriving DecidableEq, Repr, Inhabited

/-- The offset just past a lexeme. -/
def Lexeme.stop (lexeme : Lexeme) : Nat := lexeme.offset + lexeme.text.length

/-- The position after a character: only a line feed starts a new line. -/
def Position.next (position : Position) (c : Char) : Position :=
  if c = '\n' then ⟨position.line + 1, 1⟩ else ⟨position.line, position.column + 1⟩

/-- The position after a piece of text. -/
def Position.advance (position : Position) (text : List Char) : Position :=
  text.foldl Position.next position

/-! ## Character classes and runs -/

namespace Scan

/-- Whether a word can start with a character. -/
def isWordStart (c : Char) : Bool := c.isAlpha || c = '_'

/-- Whether a word can go on with a character. -/
def isWordPart (c : Char) : Bool := c.isAlphanum || c = '_'

/-- Whether a character is a blank within a line. -/
def isBlank (c : Char) : Bool :=
  c = ' ' || c = '\t' || c = '\r' || c = '\x0b' || c = '\x0c'

/-- The length of the run of characters at the start that satisfy `p`. -/
def run (p : Char → Bool) : List Char → Nat
  | [] => 0
  | c :: rest => if p c then run p rest + 1 else 0

/-- The length of digits, a point and digits at the start. -/
def decimal? (chars : List Char) : Option Nat :=
  let whole := run Digit.isDigit chars
  match chars.drop whole with
  | '.' :: rest =>
    let fraction := run Digit.isDigit rest
    if whole = 0 ∨ fraction = 0 then none else some (whole + 1 + fraction)
  | _ => none

/-- The length of a number at the start, with or without a fraction. -/
def number? (chars : List Char) : Option Nat :=
  match decimal? chars with
  | some length => some length
  | none => if run Digit.isDigit chars = 0 then none else some (run Digit.isDigit chars)

/-- The length of a word at the start. -/
def word? : List Char → Option Nat
  | [] => none
  | c :: rest => if isWordStart c then some (run isWordPart rest + 1) else none

/-- The length of the inside of a string literal: pairs of a backslash and a character, and
characters other than quotes and backslashes, as far as they go on the line. -/
def stringBody : List Char → Nat
  | '\\' :: c :: rest => if c = '\n' then 0 else stringBody rest + 2
  | c :: rest => if c = '\\' ∨ c = '"' ∨ c = '\n' then 0 else stringBody rest + 1
  | [] => 0

/-- The length up to and with the first `*/`. -/
def commentEnd? : List Char → Option Nat
  | '*' :: '/' :: _ => some 2
  | _ :: rest => (commentEnd? rest).map (· + 1)
  | [] => none

end Scan

/-! ## Terminals -/

/-- A terminal of the language. -/
inductive Terminal where
  | malformedNumber
  | word
  | closedString
  | closedComment
  | openString
  | openComment
  | lineComment
  | blank
  | decimal
  | integer
  /-- An operator or punctuation mark. -/
  | mark (text : String) (kind : TokenKind)
  | semicolon
  | newline
  /-- Any one character of a line. -/
  | invalid
  deriving DecidableEq, Repr

namespace Terminal

/-- The length of a terminal's match at the start of a text. -/
def length? : Terminal → List Char → Option Nat
  | .malformedNumber, chars =>
    match Scan.number? chars with
    | some digits => (Scan.word? (chars.drop digits)).map (digits + ·)
    | none => none
  | .word, chars => Scan.word? chars
  | .closedString, chars =>
    match chars with
    | '"' :: rest =>
      let body := Scan.stringBody rest
      if (rest.drop body).head? = some '"' then some (body + 2) else none
    | _ => none
  | .closedComment, chars =>
    match chars with
    | '/' :: '*' :: rest => (Scan.commentEnd? rest).map (· + 2)
    | _ => none
  | .openString, chars =>
    match chars with
    | '"' :: rest => some (Scan.stringBody rest + 1)
    | _ => none
  | .openComment, chars =>
    match chars with
    | '/' :: '*' :: rest => some (rest.length + 2)
    | _ => none
  | .lineComment, chars =>
    match chars with
    | '/' :: '/' :: rest => some (Scan.run (· ≠ '\n') rest + 2)
    | _ => none
  | .blank, chars =>
    if Scan.run Scan.isBlank chars = 0 then none else some (Scan.run Scan.isBlank chars)
  | .decimal, chars => Scan.decimal? chars
  | .integer, chars =>
    if Scan.run Digit.isDigit chars = 0 then none else some (Scan.run Digit.isDigit chars)
  | .mark text _, chars => if text.toList.isPrefixOf chars then some text.length else none
  | .semicolon, chars => if chars.head? = some ';' then some 1 else none
  | .newline, chars => if chars.head? = some '\n' then some 1 else none
  | .invalid, chars =>
    match chars with
    | c :: _ => if c = '\n' then none else some 1
    | [] => none

/-- The kind of a lexeme that a terminal matched. -/
def kind : Terminal → List Char → LexemeKind
  | .malformedNumber, _ => .malformedNumber
  | .word, text => .token (TokenKind.ofWord (String.ofList text))
  | .closedString, _ => .token .string
  | .closedComment, _ => .comment
  | .openString, _ => .openString
  | .openComment, _ => .openComment
  | .lineComment, _ => .comment
  | .blank, _ => .blank
  | .decimal, _ => .token .float
  | .integer, _ => .token .integer
  | .mark _ kind, _ => .token kind
  | .semicolon, _ => .semicolon
  | .newline, _ => .newline
  | .invalid, _ => .invalid

/-- The terminals in the order in which they are tried. -/
def inOrder : List Terminal :=
  [.malformedNumber, .word, .closedString, .closedComment, .openString, .openComment,
   .lineComment, .blank, .decimal, .integer] ++
    TokenKind.marks.map (fun entry => .mark entry.1 entry.2) ++ [.semicolon, .newline, .invalid]

/-- The first terminal that matches at the start of a text, with the length of its match. -/
def first? (chars : List Char) : Option (Terminal × Nat) :=
  inOrder.findSome? fun terminal => (terminal.length? chars).map fun length => (terminal, length)

/-! ## Matches are not empty and every text has one -/

theorem word?_pos {chars : List Char} {n : Nat} (h : Scan.word? chars = some n) : 0 < n := by
  unfold Scan.word? at h
  split at h
  · cases h
  · split at h
    · cases h; omega
    · cases h

theorem decimal?_pos {chars : List Char} {n : Nat} (h : Scan.decimal? chars = some n) : 0 < n := by
  simp only [Scan.decimal?] at h
  split at h
  · split at h
    · cases h
    · cases h; omega
  · cases h

/-- A terminal of the language matches no empty text. -/
theorem length?_pos {terminal : Terminal} (mem : terminal ∈ inOrder) {chars : List Char} {n : Nat}
    (h : terminal.length? chars = some n) : 0 < n := by
  cases terminal with
  | malformedNumber =>
    simp only [length?] at h
    split at h
    · obtain ⟨m, hm, rfl⟩ := Option.map_eq_some_iff.1 h
      have := word?_pos hm
      omega
    · cases h
  | word => exact word?_pos h
  | decimal => exact decimal?_pos h
  | closedComment =>
    simp only [length?] at h
    split at h
    · obtain ⟨m, -, rfl⟩ := Option.map_eq_some_iff.1 h
      omega
    · cases h
  | mark text kind =>
    have long : ∀ entry ∈ TokenKind.marks, 0 < entry.1.length := by decide
    have found : ∃ entry ∈ TokenKind.marks, entry.1 = text ∧ entry.2 = kind := by
      simpa [inOrder] using mem
    obtain ⟨entry, entryMem, rfl, -⟩ := found
    have := long entry entryMem
    simp only [length?] at h
    split at h
    · cases h; exact this
    · cases h
  | closedString | openString | openComment | lineComment | blank | integer | semicolon
  | newline | invalid =>
    simp only [length?] at h
    repeat' split at h
    all_goals first
      | cases h; omega
      | cases h

/-- Every text that is not empty has a first lexeme, and its match is not empty. -/
theorem first?_cons (c : Char) (rest : List Char) :
    ∃ terminal length, first? (c :: rest) = some (terminal, length) ∧ 0 < length := by
  have some_match : ∃ terminal ∈ inOrder, (terminal.length? (c :: rest)).isSome := by
    by_cases h : c = '\n'
    · exact ⟨.newline, by decide, by simp [length?, h]⟩
    · exact ⟨.invalid, by decide, by simp [length?, h]⟩
  cases found : first? (c :: rest) with
  | none =>
    obtain ⟨terminal, mem, isSome⟩ := some_match
    have := List.findSome?_eq_none_iff.1 found terminal mem
    simp only [Option.map_eq_none_iff] at this
    simp [this] at isSome
  | some result =>
    obtain ⟨terminal, mem, h⟩ := List.exists_of_findSome?_eq_some found
    obtain ⟨length, hlength, rfl⟩ := Option.map_eq_some_iff.1 h
    exact ⟨terminal, length, rfl, length?_pos mem hlength⟩

end Terminal

/-! ## The lexemes of a text -/

/-- The lexemes of a text that starts at a position and an offset. -/
def lexemesFrom (position : Position) (offset : Nat) : List Char → List Lexeme
  | [] => []
  | c :: rest =>
    let (terminal, length) := (Terminal.first? (c :: rest)).getD (.invalid, 1)
    let text := c :: rest.take (length - 1)
    { kind := terminal.kind text, text, position, offset } ::
      lexemesFrom (position.advance text) (offset + text.length) (rest.drop (length - 1))
termination_by chars => chars.length
decreasing_by simp only [List.length_drop, List.length_cons]; omega

/-- The lexemes of a text. -/
def lexemes (source : String) : List Lexeme := lexemesFrom ⟨1, 1⟩ 0 source.toList

theorem flatMap_text_lexemesFrom (position : Position) (offset : Nat) (chars : List Char) :
    (lexemesFrom position offset chars).flatMap Lexeme.text = chars := by
  fun_induction lexemesFrom position offset chars with
  | case1 => rfl
  | case2 position offset c rest terminal length _ text ih =>
    simp only [List.flatMap_cons, ih]
    simp [text]

/-- The lexemes of a text put together are the text. -/
theorem flatMap_text_lexemes (source : String) :
    (lexemes source).flatMap Lexeme.text = source.toList :=
  flatMap_text_lexemesFrom _ _ _

end FlowScript
