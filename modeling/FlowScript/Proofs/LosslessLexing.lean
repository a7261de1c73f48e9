import FlowScript.Token.Stream
import Mathlib.Data.List.Basic
import Mathlib.Data.List.Induction
import Mathlib.Data.List.TakeWhile
/-!
# Nothing of a text is lost, and every token stands where it says

The lexemes of a text are cut off one after the other, each by the first terminal that matches where the
one before it ended.  A terminal matches at every place, and never more than is left of the text, so the
cut goes through to the end.  Blanks, comments and malformed runs are dropped afterwards and newlines that
end no statement too, but what remains keeps its text, its place and its order.

Positions are compared with a count that does not go through the cut: `Position.following` counts the line
feeds before a place, and the characters since the last of them.

Main statement: `TokenStream.ofText_faithful`.
-/

namespace FlowScript

/-! ## Positions -/

namespace Position

/-- The place of what follows a piece of text from the start, counted out: a line for each line feed before
it, and a column for each character since the last of them. -/
def following (before : List Char) : Position :=
  ⟨before.count '\n' + 1, (before.reverse.takeWhile (· ≠ '\n')).length + 1⟩

theorem advance_append (position : Position) (first second : List Char) :
    position.advance (first ++ second) = (position.advance first).advance second :=
  List.foldl_append

/-- Stepping through a text and counting it out give the same place. -/
theorem advance_start (before : List Char) : Position.advance ⟨1, 1⟩ before = following before := by
  induction before using List.reverseRecOn with
  | nil => rfl
  | append_singleton before c ih =>
    rw [advance_append, ih]
    show (following before).next c = following (before ++ [c])
    by_cases newline : c = '\n'
    · simp [following, next, newline]
    · simp [following, next, newline]

theorem advance_following (before text : List Char) :
    (following before).advance text = following (before ++ text) := by
  rw [← advance_start, ← advance_start, advance_append]

/-- Whether a position comes before another, line by line. -/
def Before (first second : Position) : Prop :=
  first.line < second.line ∨ first.line = second.line ∧ first.column < second.column

/-- Whether a position is not after another one. -/
def NotAfter (first second : Position) : Prop :=
  first.line < second.line ∨ first.line = second.line ∧ first.column ≤ second.column

theorem NotAfter.refl (position : Position) : position.NotAfter position := .inr ⟨rfl, Nat.le_refl _⟩

theorem NotAfter.trans {first second third : Position} (h : first.NotAfter second)
    (later : second.NotAfter third) : first.NotAfter third := by
  unfold NotAfter at *
  omega

theorem Before.trans_notAfter {first second third : Position} (h : first.Before second)
    (later : second.NotAfter third) : first.Before third := by
  unfold Before NotAfter at *
  omega

/-- A place on the first line of a piece of text is not after the end of the piece. -/
theorem notAfter_advance (position : Position) {text : List Char} {count : Nat} (within : count ≤ text.length) :
    NotAfter ⟨position.line, position.column + count⟩ (position.advance text) := by
  induction text generalizing position count with
  | nil =>
    obtain rfl := Nat.le_zero.mp within
    exact .refl position
  | cons c rest ih =>
    change NotAfter _ ((position.next c).advance rest)
    have later {count : Nat} (fits : count ≤ rest.length) := ih (position.next c) fits
    by_cases newline : c = '\n'
    · exact NotAfter.trans (.inl (by simp [next, newline])) (later (Nat.zero_le _))
    · rw [next, if_neg newline] at later ⊢
      cases count with
      | zero =>
        have step : NotAfter position ⟨position.line, position.column + 1⟩ := .inr ⟨rfl, Nat.le_succ _⟩
        exact step.trans (later (Nat.zero_le _))
      | succ count =>
        have shifted := later (Nat.le_of_succ_le_succ within)
        rwa [Nat.add_assoc, Nat.add_comm 1] at shifted

/-- The position after a text that is not empty is a later one. -/
theorem before_advance (position : Position) {text : List Char} (some : text ≠ []) :
    position.Before (position.advance text) := by
  have step : position.Before ⟨position.line, position.column + 1⟩ := .inr ⟨rfl, Nat.lt_succ_self _⟩
  exact step.trans_notAfter (position.notAfter_advance (List.length_pos_iff.mpr some))

/-- The position after the text at a place. -/
def behind (place : String × Position) : Position := place.2.advance place.1.toList

/-- Whether the text at a place ends before another place. -/
def Precedes (first second : String × Position) : Prop := (behind first).NotAfter second.2

end Position

/-! ## Matches end within the text -/

namespace Scan

variable {chars : List Char} {n : Nat}

theorem run_le (p : Char → Bool) (chars : List Char) : run p chars ≤ chars.length := by
  induction chars with
  | nil => exact Nat.le_refl 0
  | cons c rest ih =>
    rw [run]
    split
    · exact Nat.succ_le_succ ih
    · exact Nat.zero_le _

/-- The characters of a run satisfy what the run is of. -/
theorem take_run (p : Char → Bool) (chars : List Char) :
    ∀ c ∈ chars.take (run p chars), p c = true := by
  induction chars with
  | nil => simp [run]
  | cons c rest ih =>
    rw [run]
    split
    · rename_i holds
      simpa using ⟨holds, ih⟩
    · simp

/-- Two runs with a character between them make up the text so far. -/
theorem run_add_run_le {p : Char → Bool} {rest : List Char} {c : Char}
    (h : chars.drop (run p chars) = c :: rest) : run p chars + 1 + run p rest ≤ chars.length := by
  have length := congrArg List.length h
  have first := run_le p chars
  have second := run_le p rest
  rw [List.length_drop, List.length_cons] at length
  omega

theorem decimal?_le (h : decimal? chars = some n) : n ≤ chars.length := by
  simp only [decimal?] at h
  split at h
  · rename_i rest shape
    have := run_add_run_le shape
    split at h
    · cases h
    · cases h
      exact this
  · cases h

theorem number?_le (h : number? chars = some n) : n ≤ chars.length := by
  unfold number? at h
  split at h
  · rename_i length found
    cases h
    exact decimal?_le found
  · split at h
    · cases h
    · cases h
      exact run_le _ chars

theorem word?_le (h : word? chars = some n) : n ≤ chars.length := by
  cases chars with
  | nil => cases h
  | cons c rest =>
    simp only [word?] at h
    split at h
    · cases h
      exact Nat.succ_le_succ (run_le _ rest)
    · cases h

theorem stringBody_le (chars : List Char) : stringBody chars ≤ chars.length := by
  fun_induction stringBody chars <;> simp <;> omega

theorem commentEnd?_le (h : commentEnd? chars = some n) : n ≤ chars.length := by
  fun_induction commentEnd? chars generalizing n with
  | case1 rest =>
    cases h
    simp
  | case2 c rest _ ih =>
    obtain ⟨m, found, rfl⟩ := Option.map_eq_some_iff.mp h
    exact Nat.succ_le_succ (ih found)
  | case3 => cases h

end Scan

namespace Terminal

/-- A terminal matches no more than there is. -/
theorem length?_le {terminal : Terminal} {chars : List Char} {n : Nat}
    (h : terminal.length? chars = some n) : n ≤ chars.length := by
  cases terminal with
  | malformedNumber =>
    simp only [length?] at h
    split at h
    · rename_i digits number
      obtain ⟨m, word, rfl⟩ := Option.map_eq_some_iff.mp h
      have first := Scan.number?_le number
      have second := Scan.word?_le word
      rw [List.length_drop] at second
      omega
    · cases h
  | word => exact Scan.word?_le h
  | closedString =>
    simp only [length?] at h
    split at h
    · rename_i rest
      split at h
      · rename_i closed
        cases h
        -- the quote at the end is one more character
        have inside : Scan.stringBody rest < rest.length := by
          by_contra outside
          rw [List.drop_eq_nil_of_le (Nat.le_of_not_lt outside)] at closed
          cases closed
        exact Nat.succ_le_succ inside
      · cases h
    · cases h
  | closedComment =>
    simp only [length?] at h
    split at h
    · obtain ⟨m, found, rfl⟩ := Option.map_eq_some_iff.mp h
      exact Nat.add_le_add_right (Scan.commentEnd?_le found) 2
    · cases h
  | openString =>
    simp only [length?] at h
    split at h
    · cases h
      exact Nat.succ_le_succ (Scan.stringBody_le _)
    · cases h
  | openComment =>
    simp only [length?] at h
    split at h
    · cases h
      exact Nat.le_refl _
    · cases h
  | lineComment =>
    simp only [length?] at h
    split at h
    · cases h
      exact Nat.add_le_add_right (Scan.run_le _ _) 2
    · cases h
  | blank | integer =>
    simp only [length?] at h
    split at h
    · cases h
    · cases h
      exact Scan.run_le _ chars
  | decimal => exact Scan.decimal?_le h
  | mark text kind =>
    simp only [length?] at h
    split at h
    · rename_i begins
      cases h
      exact (List.isPrefixOf_iff_prefix.mp begins).length_le
    · cases h
  | semicolon | newline | invalid =>
    cases chars with
    | nil => simp [length?] at h
    | cons c rest =>
      simp only [length?] at h
      split at h <;> cases h
      exact Nat.le_add_left 1 rest.length

/-- The first terminal that matches is one of the language, and it matches. -/
theorem of_first? {terminal : Terminal} {chars : List Char} {n : Nat}
    (h : first? chars = some (terminal, n)) :
    terminal ∈ inOrder ∧ terminal.length? chars = some n := by
  obtain ⟨other, mem, found⟩ := List.exists_of_findSome?_eq_some h
  obtain ⟨length, matched, same⟩ := Option.map_eq_some_iff.mp found
  cases same
  exact ⟨mem, matched⟩

end Terminal

/-! ## Lexemes -/

namespace Lexeme

/-- Whether a lexeme is what the first matching terminal takes of a text at the lexeme's place. -/
def Matched (lexeme : Lexeme) (src : List Char) : Prop :=
  ∃ before after terminal, src = before ++ (lexeme.text ++ after) ∧
    lexeme.offset = before.length ∧ lexeme.position = .following before ∧ lexeme.text ≠ [] ∧
    Terminal.first? (lexeme.text ++ after) = some (terminal, lexeme.text.length) ∧
    lexeme.kind = terminal.kind lexeme.text

/-- The text of a lexeme and its place. -/
def place (lexeme : Lexeme) : String × Position := (String.ofList lexeme.text, lexeme.position)

end Lexeme

/-- What holds of the lexemes of the empty text, and of those of a text if it holds after the match of its
first terminal, holds of the lexemes of every text. -/
theorem lexemesFrom_ind {motive : Position → Nat → List Char → List Lexeme → Prop}
    (nil : ∀ position offset, motive position offset [] [])
    (cut : ∀ position offset terminal text after later, text ≠ [] →
      Terminal.first? (text ++ after) = some (terminal, text.length) →
      motive (position.advance text) (offset + text.length) after later →
      motive position offset (text ++ after)
        ({ kind := terminal.kind text, text, position, offset } :: later))
    (position : Position) (offset : Nat) (chars : List Char) :
    motive position offset chars (lexemesFrom position offset chars) := by
  fun_induction lexemesFrom position offset chars with
  | case1 => exact nil _ _
  | case2 position offset c rest terminal length taken text ih =>
    obtain ⟨other, size, found, positive⟩ := Terminal.first?_cons c rest
    rw [found, Option.getD_some] at taken
    cases taken
    have bounded : length ≤ rest.length + 1 := Terminal.length?_le (Terminal.of_first? found).2
    have whole : c :: rest = text ++ rest.drop (length - 1) := by
      rw [List.cons_append, List.take_append_drop]
    have exactly : text.length = length := by
      rw [List.length_cons, List.length_take]
      omega
    rw [whole] at found ⊢
    exact cut _ _ _ _ _ _ (List.cons_ne_nil _ _) (by rw [found, exactly]) ih

/-- The lexemes of a text are the matches of the first terminals, each at its place. -/
theorem matched_lexemes (src : String) :
    ∀ lexeme ∈ lexemes src, lexeme.Matched src.toList := by
  -- what stands before the text that is left grows by each match
  refine lexemesFrom_ind (motive := fun position offset chars list => ∀ before : List Char,
    position = .following before → offset = before.length →
      ∀ lexeme ∈ list, lexeme.Matched (before ++ chars)) ?_ ?_ ⟨1, 1⟩ 0 src.toList [] rfl rfl
  · intro position offset before _ _ lexeme mem
    cases mem
  · intro position offset terminal text after later some found ih before placed counted lexeme mem
    rcases List.mem_cons.mp mem with rfl | listed
    · exact ⟨before, after, terminal, rfl, counted, placed, some, found, rfl⟩
    · have inner := ih (before ++ text) (by rw [placed, Position.advance_following])
        (by rw [counted, List.length_append]) lexeme listed
      rwa [List.append_assoc] at inner

/-- Every lexeme starts where those before it have ended, or later, and ends within the text. -/
theorem ordered_lexemesFrom (position : Position) (offset : Nat) (chars : List Char) :
    ((lexemesFrom position offset chars).map Lexeme.place).Pairwise Position.Precedes ∧
      ∀ place ∈ (lexemesFrom position offset chars).map Lexeme.place, position.NotAfter place.2 ∧
        place.2.Before (.behind place) ∧ (Position.behind place).NotAfter (position.advance chars) := by
  refine lexemesFrom_ind (motive := fun position _ chars list =>
    (list.map Lexeme.place).Pairwise Position.Precedes ∧ ∀ place ∈ list.map Lexeme.place,
      position.NotAfter place.2 ∧ place.2.Before (.behind place) ∧
        (Position.behind place).NotAfter (position.advance chars)) ?_ ?_ position offset chars
  · simp
  · intro position offset terminal text after later some _ ⟨ordered, bounds⟩
    have here : Position.behind (String.ofList text, position) = position.advance text := by
      rw [Position.behind, String.toList_ofList]
    rw [Position.advance_append, List.map_cons, List.pairwise_cons, List.forall_mem_cons, Lexeme.place]
    refine ⟨⟨fun place mem => ?_, ordered⟩, ⟨.refl position, ?_, ?_⟩, fun place mem => ?_⟩
    · rw [Position.Precedes, here]
      exact (bounds place mem).1
    · rw [here]
      exact position.before_advance some
    · rw [here]
      exact Position.notAfter_advance _ (Nat.zero_le _)
    · obtain ⟨starts, rest⟩ := bounds place mem
      exact ⟨(position.notAfter_advance (Nat.zero_le _)).trans starts, rest⟩

/-! ## Numerals -/

/-- Whether a text is one or more digits, or two such runs with a point between them. -/
def IsNumeral (numeral : List Char) : Prop :=
  ∃ whole, whole ≠ [] ∧ (∀ c ∈ whole, Digit.isDigit c = true) ∧
    (numeral = whole ∨ ∃ fraction, fraction ≠ [] ∧ (∀ c ∈ fraction, Digit.isDigit c = true) ∧
      numeral = whole ++ '.' :: fraction)

/-- The part of a lexeme that is read as a number: all of it, or what a malformed number begins with. -/
def Lexeme.numeral? (lexeme : Lexeme) : Option (List Char) :=
  match lexeme.kind with
  | .token .integer | .token .float => some lexeme.text
  | .malformedNumber => some (lexeme.text.take ((Scan.number? lexeme.text).getD 0))
  | _ => none

namespace Scan

variable {chars : List Char} {n : Nat}

theorem take_run_ne_nil {p : Char → Bool} (h : run p chars ≠ 0) : chars.take (run p chars) ≠ [] := by
  cases chars with
  | nil => exact absurd rfl h
  | cons c rest => simpa [List.take_eq_nil_iff] using h

theorem isNumeral_of_run (h : run Digit.isDigit chars ≠ 0) :
    IsNumeral (chars.take (run Digit.isDigit chars)) :=
  ⟨_, take_run_ne_nil h, take_run _ chars, .inl rfl⟩

/-- What a number with a fraction consists of. -/
theorem take_decimal? (h : decimal? chars = some n) :
    ∃ whole fraction, whole ≠ [] ∧ (∀ c ∈ whole, Digit.isDigit c = true) ∧ fraction ≠ [] ∧
      (∀ c ∈ fraction, Digit.isDigit c = true) ∧ chars.take n = whole ++ '.' :: fraction := by
  simp only [decimal?] at h
  split at h
  · rename_i rest shape
    split at h
    · cases h
    · rename_i long
      cases h
      obtain ⟨whole, fraction⟩ := not_or.mp long
      refine ⟨_, _, take_run_ne_nil whole, take_run _ chars, take_run_ne_nil fraction,
        take_run _ rest, ?_⟩
      rw [Nat.add_assoc, List.take_add, shape, Nat.add_comm 1, List.take_succ_cons]
  · cases h

theorem isNumeral_of_decimal? (h : decimal? chars = some n) : IsNumeral (chars.take n) := by
  obtain ⟨whole, fraction, some, digits, nonempty, decimals, shape⟩ := take_decimal? h
  exact ⟨whole, some, digits, .inr ⟨fraction, nonempty, decimals, shape⟩⟩

theorem isNumeral_of_number? (h : number? chars = some n) : IsNumeral (chars.take n) := by
  unfold number? at h
  split at h
  · rename_i length found
    cases h
    exact isNumeral_of_decimal? found
  · split at h
    · cases h
    · rename_i long
      cases h
      exact isNumeral_of_run long

/-- A text starts with a number if it starts with a digit. -/
theorem number?_isSome_iff (c : Char) (rest : List Char) :
    (number? (c :: rest)).isSome = true ↔ Digit.isDigit c = true := by
  by_cases digit : Digit.isDigit c = true
  · refine iff_of_true ?_ digit
    unfold number?
    cases decimal? (c :: rest) with
    | some length => rfl
    | none => simp [run, digit]
  · refine iff_of_false ?_ digit
    have nothing : run Digit.isDigit (c :: rest) = 0 := by simp [run, digit]
    have none : decimal? (c :: rest) = none := by
      simp only [decimal?, nothing]
      split
      · simp
      · rfl
    simp [number?, none, nothing]

end Scan

namespace Terminal

/-- Only the terminals of numbers give lexemes that are read as numbers, and no terminal gives the end of
the input. -/
theorem of_kind {terminal : Terminal} (mem : terminal ∈ inOrder) (text : List Char) :
    (terminal.kind text = .token .integer → terminal = .integer) ∧
      (terminal.kind text = .token .float → terminal = .decimal) ∧
      (terminal.kind text = .malformedNumber → terminal = .malformedNumber) ∧
      terminal.kind text ≠ .token .endOfInput := by
  cases terminal with
  | word =>
    have spelled : ∀ word, TokenKind.ofWord word = .identifier ∨
        ∃ entry ∈ TokenKind.keywords, TokenKind.ofWord word = entry.2 := by
      intro word
      unfold TokenKind.ofWord
      cases found : TokenKind.keywords.lookup word with
      | none => exact .inl rfl
      | some kind =>
        obtain ⟨first, last, listed, -⟩ := List.lookup_eq_some_iff.mp found
        exact .inr ⟨(word, kind), by rw [listed]; simp, rfl⟩
    -- a word is an identifier or listed, and the list holds no number
    have keywords : ∀ entry ∈ TokenKind.keywords,
        entry.2 ≠ .integer ∧ entry.2 ≠ .float ∧ entry.2 ≠ .endOfInput := by
      decide
    rcases spelled (String.ofList text) with same | ⟨entry, listed, same⟩
    · simp [kind, same]
    · have := keywords entry listed
      simp [kind, same, this]
  | mark text kind =>
    have marks : ∀ entry ∈ TokenKind.marks,
        entry.2 ≠ .integer ∧ entry.2 ≠ .float ∧ entry.2 ≠ .endOfInput := by
      decide
    have found : ∃ entry ∈ TokenKind.marks, entry.1 = text ∧ entry.2 = kind := by
      simpa [inOrder] using mem
    obtain ⟨entry, listed, -, rfl⟩ := found
    have := marks entry listed
    simp [Terminal.kind, this]
  | _ => simp [kind]

end Terminal

namespace Lexeme

variable {lexeme : Lexeme} {src : List Char}

theorem Matched.kind_ne (h : lexeme.Matched src) : lexeme.kind ≠ .token .endOfInput := by
  obtain ⟨before, after, terminal, -, -, -, -, found, kind⟩ := h
  rw [kind]
  exact (Terminal.of_kind (Terminal.of_first? found).1 _).2.2.2

/-- What is read as a number is one. -/
theorem Matched.isNumeral (h : lexeme.Matched src) {numeral : List Char}
    (read : lexeme.numeral? = some numeral) : IsNumeral numeral := by
  obtain ⟨before, after, terminal, -, -, -, some, found, kind⟩ := h
  obtain ⟨mem, matched⟩ := Terminal.of_first? found
  obtain ⟨integer, decimal, malformed, -⟩ := Terminal.of_kind mem lexeme.text
  have whole : (lexeme.text ++ after).take lexeme.text.length = lexeme.text := List.take_left
  unfold numeral? at read
  split at read
  · rename_i same
    cases read
    rw [integer (kind ▸ same)] at matched
    simp only [Terminal.length?] at matched
    split at matched
    · cases matched
    · rename_i long
      have digits := Scan.isNumeral_of_run long
      rwa [Option.some.inj matched, whole] at digits
  · rename_i same
    cases read
    rw [decimal (kind ▸ same)] at matched
    have digits := Scan.isNumeral_of_decimal? matched
    rwa [whole] at digits
  · rename_i same
    cases read
    rw [malformed (kind ▸ same)] at matched
    -- the lexeme starts with the digit that the match starts with
    cases chars : lexeme.text with
    | nil => exact absurd chars some
    | cons c rest =>
      rw [chars, List.cons_append] at matched
      have starts : (Scan.number? (c :: (rest ++ after))).isSome = true := by
        simp only [Terminal.length?] at matched
        split at matched
        · rename_i digits number
          rw [number]
          rfl
        · cases matched
      have digit := (Scan.number?_isSome_iff c rest).mpr ((Scan.number?_isSome_iff _ _).mp starts)
      obtain ⟨length, number⟩ := Option.isSome_iff_exists.mp digit
      rw [number]
      exact Scan.isNumeral_of_number? number
  · cases read

end Lexeme

/-- The only numerals that have no value are whole numbers of more digits than the limit. -/
theorem IsNumeral.ofNumeral_eq_error_iff {numeral : List Char} (h : IsNumeral numeral)
    (overflow : DigitOverflow) :
    Literal.ofNumeral numeral = .error overflow ↔
      (∀ c ∈ numeral, Digit.isDigit c = true) ∧ digitLimit < numeral.length ∧
        overflow.count = numeral.length := by
  obtain ⟨whole, some, digits, shape⟩ := h
  have noPoint : ∀ c ∈ whole, decide (c ≠ '.') = true := by
    intro c mem
    rw [decide_eq_true_eq]
    rintro rfl
    exact absurd (digits _ mem) (by decide)
  rcases shape with rfl | ⟨fraction, -, -, rfl⟩
  · have taken : numeral.takeWhile (· ≠ '.') = numeral := List.takeWhile_eq_self_iff.mpr noPoint
    simp only [Literal.ofNumeral, taken, if_true]
    split
    · rename_i long
      constructor
      · intro same
        cases same
        exact ⟨digits, long, rfl⟩
      · rintro ⟨-, -, count⟩
        obtain ⟨count⟩ := overflow
        cases count
        rfl
    · rename_i short
      exact iff_of_false nofun fun both => short both.2.1
  · have taken : (whole ++ '.' :: fraction).takeWhile (· ≠ '.') = whole := by
      rw [List.takeWhile_append_of_pos noPoint]
      simp
    refine iff_of_false ?_ fun both => absurd (both.1 '.' (by simp)) (by decide)
    have longer : whole.length ≠ (whole ++ '.' :: fraction).length := by simp
    simp only [Literal.ofNumeral, taken, if_neg longer]
    exact nofun

/-! ## Tokens -/

/-- The text of a token and its place. -/
def Token.place (token : Token) : String × Position := (token.lexeme, token.position)

/-- Whether the text of a token stands in a text at the token's position. -/
def Token.StandsIn (token : Token) (src : String) : Prop :=
  ∃ before after, src.toList = before ++ (token.lexeme.toList ++ after) ∧
    token.position = .following before

/-- Placing terminators drops lexemes and keeps the places of the others. -/
theorem placeTerminators_sublist (depth : Nat) (ends : Bool) (list : List Lexeme) :
    ((placeTerminators depth ends list).map Lexeme.place).Sublist (list.map Lexeme.place) := by
  fun_induction placeTerminators depth ends list with
  | case1 => exact .slnil
  | case3 _ _ _ _ _ _ ih => exact .cons _ ih
  | case2 _ _ _ _ _ _ ih | case4 _ _ _ _ _ ih | case5 _ _ _ _ _ _ _ ih
  | case6 _ _ _ _ _ _ _ ih => exact .cons_cons _ ih

/-- A lexeme that is left is one that was there, or a terminator. -/
theorem mem_placeTerminators {depth : Nat} {ends : Bool} {list : List Lexeme} {lexeme : Lexeme}
    (mem : lexeme ∈ placeTerminators depth ends list) :
    lexeme ∈ list ∨ lexeme.kind = .token .terminator := by
  fun_induction placeTerminators depth ends list with
  | case1 => cases mem
  | case3 _ _ _ _ _ _ ih => exact (ih mem).imp_left (List.mem_cons_of_mem _)
  | case2 _ _ _ _ _ _ ih | case4 _ _ _ _ _ ih =>
    rcases List.mem_cons.mp mem with rfl | later
    · exact .inr rfl
    · exact (ih later).imp_left (List.mem_cons_of_mem _)
  | case5 _ _ _ _ _ _ _ ih | case6 _ _ _ _ _ _ _ ih =>
    rcases List.mem_cons.mp mem with rfl | later
    · exact .inl List.mem_cons_self
    · exact (ih later).imp_left (List.mem_cons_of_mem _)

namespace TokenStream

@[simp] theorem tokens_token (token : Token) (rest : TokenStream) :
    tokens (.token token :: rest) = token :: tokens rest := rfl

/-- The positions of the problems of a stream. -/
def places (stream : TokenStream) : List Position := stream.problems.map Prod.snd

@[simp] theorem places_append (first second : TokenStream) :
    places (first ++ second) = first.places ++ second.places := by
  simp [places, problems]

@[simp] theorem tokens_append (first second : TokenStream) :
    tokens (first ++ second) = first.tokens ++ second.tokens := by
  simp [tokens]

@[simp] theorem failure?_append (first second : TokenStream) :
    failure? (first ++ second) = first.failure?.or second.failure? := by
  simp [failure?, List.findSome?_append]

/-- Whether the problems of a stream are in order, and not before a position. -/
structure Ordered (start : Position) (stream : TokenStream) : Prop where
  pairwise : stream.places.Pairwise Position.NotAfter
  behind : ∀ place ∈ stream.places, start.NotAfter place

end TokenStream

/-- The unknown escapes of a string are found from left to right, inside of it. -/
theorem Literal.ordered_unknownEscapes (offset : Nat) (body : List Char) :
    (unknownEscapes offset body).Pairwise (·.1 ≤ ·.1) ∧
      ∀ escape ∈ unknownEscapes offset body, offset ≤ escape.1 ∧ escape.1 < offset + body.length := by
  fun_induction unknownEscapes offset body with
  | case1 offset c rest later known ih =>
    exact ⟨ih.1, fun escape mem => by have := ih.2 escape mem; simp; omega⟩
  | case2 offset c rest later unknown ih =>
    refine ⟨List.pairwise_cons.mpr ⟨fun escape mem => ?_, ih.1⟩, List.forall_mem_cons.mpr ⟨by simp, ?_⟩⟩
    · exact Nat.le_of_add_right_le (ih.2 escape mem).1
    · exact fun escape mem => by have := ih.2 escape mem; simp; omega
  | case3 offset c rest _ ih =>
    exact ⟨ih.1, fun escape mem => by have := ih.2 escape mem; simp; omega⟩
  | case4 offset => exact ⟨.nil, nofun⟩

namespace Lexeme

open TokenStream

/-- What a lexeme may put into a stream: at most one token, at the lexeme's place, and problems inside of the
lexeme, in their order. -/
structure Adds (lexeme : Lexeme) (front : TokenStream) : Prop where
  token : front.tokens = [] ∨ ∃ token, front.tokens = [token] ∧ token.place = lexeme.place ∧
    (lexeme.kind ≠ .token .endOfInput → token.kind ≠ .endOfInput)
  whole : front.failure? = none
  ordered : front.Ordered lexeme.position
  inside : ∀ place ∈ front.places, place.NotAfter (.behind lexeme.place)

/-- What a lexeme makes of the stream that follows it: it puts something before it, or, in place of all that
follows, the failure of a number. -/
inductive Emits (lexeme : Lexeme) (rest : TokenStream) : TokenStream → Prop
  | front {front : TokenStream} (adds : lexeme.Adds front) : Emits lexeme rest (front ++ rest)
  | failure {front : TokenStream} (adds : lexeme.Adds front) (numeral : List Char) (overflow : DigitOverflow)
    (read : lexeme.numeral? = some numeral) (failed : Literal.ofNumeral numeral = .error overflow) :
    Emits lexeme rest (front ++ [.failure overflow])

variable {lexeme : Lexeme} {rest stream : TokenStream}

theorem behind_place (lexeme : Lexeme) :
    Position.behind lexeme.place = lexeme.position.advance lexeme.text := by
  rw [Position.behind, place, String.toList_ofList]

theorem Adds.nothing (lexeme : Lexeme) : lexeme.Adds [] := ⟨.inl rfl, rfl, ⟨.nil, nofun⟩, nofun⟩

theorem Adds.problem {front : TokenStream} (h : lexeme.Adds front) (problem : LexProblem) :
    lexeme.Adds (.problem problem lexeme.position :: front) := by
  refine ⟨h.token, h.whole, ⟨?_, ?_⟩, ?_⟩
  · exact List.pairwise_cons.mpr ⟨h.ordered.behind, h.ordered.pairwise⟩
  · exact List.forall_mem_cons.mpr ⟨.refl _, h.ordered.behind⟩
  · refine List.forall_mem_cons.mpr ⟨?_, h.inside⟩
    rw [behind_place]
    exact lexeme.position.notAfter_advance (Nat.zero_le _)

theorem Emits.problem (h : lexeme.Emits rest stream) (problem : LexProblem) :
    lexeme.Emits rest (.problem problem lexeme.position :: stream) := by
  cases h with
  | front adds => exact .front (adds.problem problem)
  | failure adds numeral overflow read failed =>
    exact .failure (adds.problem problem) numeral overflow read failed

theorem emits_token {token : Token} (place : token.place = lexeme.place)
    (kind : lexeme.kind ≠ .token .endOfInput → token.kind ≠ .endOfInput) :
    lexeme.Emits rest (.token token :: rest) :=
  have adds : lexeme.Adds [.token token] := ⟨.inr ⟨token, rfl, place, kind⟩, rfl, ⟨.nil, nofun⟩, nofun⟩
  .front adds

/-- The events of a string stand for its text, escapes included. -/
theorem emits_stringEvents {body : List Char} (within : body.length ≤ lexeme.text.length - 1) :
    lexeme.Emits rest (lexeme.stringEvents body ++ rest) := by
  have places : (lexeme.stringEvents body).places = (Literal.unknownEscapes 1 body).map fun escape =>
      ⟨lexeme.position.line, lexeme.position.column + escape.1⟩ := by
    simp [stringEvents, TokenStream.places, problems, Function.comp_def]
  have tokens : ∃ token, (lexeme.stringEvents body).tokens = [token] ∧ token.place = lexeme.place ∧
      (lexeme.kind ≠ .token .endOfInput → token.kind ≠ .endOfInput) := by
    simp [stringEvents, TokenStream.tokens, Lexeme.toToken, Token.place, Lexeme.place]
  have whole : (lexeme.stringEvents body).failure? = none := by
    simp [stringEvents, failure?, List.findSome?_map]
  obtain ⟨ordered, bounds⟩ := Literal.ordered_unknownEscapes 1 body
  refine .front ⟨.inr tokens, whole, ⟨?_, ?_⟩, ?_⟩ <;> rw [places]
  · rw [List.pairwise_map]
    exact ordered.imp fun le => .inr ⟨rfl, Nat.add_le_add_left le _⟩
  · exact List.forall_mem_map.mpr fun _ _ => .inr ⟨rfl, Nat.le_add_right _ _⟩
  · refine List.forall_mem_map.mpr fun escape mem => ?_
    have bound := bounds escape mem
    rw [behind_place]
    exact lexeme.position.notAfter_advance (by omega)

theorem emits_numberEvents {numeral : List Char} (read : lexeme.numeral? = some numeral) :
    lexeme.Emits rest (lexeme.numberEvents numeral rest) := by
  unfold numberEvents
  cases value : Literal.ofNumeral numeral with
  | error overflow => exact .failure (.nothing lexeme) numeral overflow read value
  | ok literal =>
    refine emits_token rfl fun _ => ?_
    cases literal <;> nofun

/-- Every lexeme emits events that stand for it. -/
theorem emits_events (lexeme : Lexeme) (rest : TokenStream) :
    lexeme.Emits rest (lexeme.events rest) := by
  have nothing : lexeme.Emits rest rest := .front (.nothing lexeme)
  have one (kind : TokenKind) (value : Literal) (same : lexeme.kind = .token kind) :
      lexeme.Emits rest (.token (lexeme.toToken kind value) :: rest) :=
    emits_token rfl fun ne ending => ne (same ▸ congrArg _ ending)
  unfold events
  split
  · exact nothing.problem _
  · exact nothing.problem _
  · rename_i kind
    exact (emits_numberEvents (by rw [numeral?, kind])).problem _
  · exact (emits_stringEvents (by simp)).problem _
  · rename_i kind
    exact emits_numberEvents (by rw [numeral?, kind])
  · rename_i kind
    exact emits_numberEvents (by rw [numeral?, kind])
  · exact emits_stringEvents (by simp)
  · rename_i kind
    exact one _ _ kind
  · rename_i kind
    exact one _ _ kind
  · rename_i kind
    exact one _ _ kind
  all_goals exact nothing

end Lexeme

namespace TokenStream

variable {src : String}

/-- What stands in a stream before its end: tokens at the places of some lexemes and problems, both in their
order. -/
structure Covers (start : Position) (list : List Lexeme) (front : TokenStream) : Prop where
  places : (front.tokens.map Token.place).Sublist (list.map Lexeme.place)
  inner : ∀ token ∈ front.tokens, token.kind ≠ .endOfInput
  whole : front.failure? = none
  ordered : front.Ordered start

theorem Covers.nothing (start : Position) (list : List Lexeme) : Covers start list [] :=
  ⟨List.nil_sublist _, nofun, rfl, .nil, nofun⟩

theorem Covers.mono {start : Position} {list more : List Lexeme} {front : TokenStream}
    (covers : Covers start list front)
    (kept : (list.map Lexeme.place).Sublist (more.map Lexeme.place)) : Covers start more front :=
  { covers with places := covers.places.trans kept }

/-- One more lexeme in front of a stream that covers the rest. -/
theorem Covers.cons {start : Position} {lexeme : Lexeme} {list : List Lexeme} {front later : TokenStream}
    (adds : lexeme.Adds front) (first : start.NotAfter lexeme.position)
    (inner : lexeme.kind ≠ .token .endOfInput) (covers : Covers (.behind lexeme.place) list later) :
    Covers start (lexeme :: list) (front ++ later) := by
  refine ⟨?_, ?_, by simp [adds.whole, covers.whole], ⟨?_, ?_⟩⟩
  · rcases adds.token with none | ⟨token, one, place, -⟩ <;> rw [tokens_append]
    · rw [none]
      exact .cons _ covers.places
    · rw [one, List.singleton_append, List.map_cons, place]
      exact .cons_cons _ covers.places
  · rw [tokens_append]
    rcases adds.token with none | ⟨token, one, -, kind⟩
    · rw [none]
      exact covers.inner
    · rw [one]
      exact List.forall_mem_cons.mpr ⟨kind inner, covers.inner⟩
  · rw [places_append, List.pairwise_append]
    exact ⟨adds.ordered.pairwise, covers.ordered.pairwise, fun place mem other listed =>
      (adds.inside place mem).trans (covers.ordered.behind other listed)⟩
  · rw [places_append, List.forall_mem_append]
    refine ⟨fun place mem => first.trans (adds.ordered.behind place mem), fun place mem => ?_⟩
    rw [Lexeme.behind_place] at covers
    exact first.trans ((lexeme.position.notAfter_advance (Nat.zero_le _)).trans
      (covers.ordered.behind place mem))

/-- How a stream comes about from lexemes and a final part: its tokens and problems stand where the lexemes
do, and the final part follows unless a number failed. -/
theorem ofLexemes_cases (final : TokenStream) (skipping : Option Nat) (start : Position) {list : List Lexeme}
    (inner : ∀ lexeme ∈ list, lexeme.kind ≠ .token .endOfInput)
    (starts : ∀ lexeme ∈ list, start.NotAfter lexeme.position)
    (separate : (list.map Lexeme.place).Pairwise Position.Precedes) :
    ∃ front : TokenStream, Covers start list front ∧
      (ofLexemes final skipping list = front ++ final ∨
        ∃ lexeme ∈ list, ∃ numeral overflow, lexeme.numeral? = some numeral ∧
          Literal.ofNumeral numeral = .error overflow ∧
          ofLexemes final skipping list = front ++ [.failure overflow]) := by
  induction list generalizing skipping start with
  | nil => exact ⟨[], .nothing start [], .inl rfl⟩
  | cons lexeme list ih =>
    obtain ⟨first, later⟩ := List.forall_mem_cons.mp starts
    obtain ⟨kind, kinds⟩ := List.forall_mem_cons.mp inner
    obtain ⟨beyond, separate⟩ := List.pairwise_cons.mp separate
    rw [ofLexemes]
    split
    · -- the lexeme still belongs to a malformed run, and adds nothing
      obtain ⟨front, covers, outcome⟩ := ih (some lexeme.stop) start kinds later separate
      refine ⟨front, covers.mono (.cons _ (.refl _)), outcome.imp_right ?_⟩
      rintro ⟨other, mem, rest⟩
      exact ⟨other, List.mem_cons_of_mem _ mem, rest⟩
    · obtain ⟨back, covers, outcome⟩ := ih (if lexeme.kind = .invalid then some lexeme.stop else none)
        (.behind lexeme.place) kinds (fun other mem => beyond _ (List.mem_map_of_mem mem)) separate
      generalize ofLexemes final (if lexeme.kind = .invalid then some lexeme.stop else none) list =
        rest at outcome
      have emits := lexeme.emits_events rest
      generalize lexeme.events rest = stream at emits
      cases emits with
      | @front front adds =>
        refine ⟨front ++ back, Covers.cons adds first kind covers, outcome.imp (by rintro rfl; simp) ?_⟩
        rintro ⟨other, mem, numeral, overflow, read, failed, rfl⟩
        exact ⟨other, List.mem_cons_of_mem _ mem, numeral, overflow, read, failed, by simp⟩
      | @failure front adds numeral overflow read failed =>
        refine ⟨front, ?_, .inr ⟨lexeme, List.mem_cons_self, numeral, overflow, read, failed, rfl⟩⟩
        have covers := Covers.cons adds first kind (.nothing _ list)
        rwa [List.append_nil] at covers

/-- The significant lexemes are the matches of terminals, or terminators. -/
theorem kind_ne_of_significant {lexeme : Lexeme} (mem : lexeme ∈ significantLexemes src) :
    lexeme.kind ≠ .token .endOfInput := by
  rcases mem_placeTerminators mem with listed | terminator
  · exact (matched_lexemes src lexeme (List.mem_of_mem_filter listed)).kind_ne
  · rw [terminator]
    decide

/-- The stream of a text is what covers some of its lexemes, with the end of the input after it or the
failure of a number. -/
theorem ofText_shape (src : String) :
    ∃ front : TokenStream, Covers ⟨1, 1⟩ (lexemes src) front ∧
      (ofText src = front ++ [.token ⟨.endOfInput, "", .nil, .following src.toList⟩] ∨
        ∃ lexeme ∈ lexemes src, ∃ numeral overflow, lexeme.numeral? = some numeral ∧
          Literal.ofNumeral numeral = .error overflow ∧ ofText src = front ++ [.failure overflow]) := by
  have kept := (placeTerminators_sublist 0 false
    ((lexemes src).filter fun lexeme => !lexeme.kind.isIgnored)).trans (List.filter_sublist.map _)
  obtain ⟨separate, bounds⟩ := ordered_lexemesFrom ⟨1, 1⟩ 0 src.toList
  obtain ⟨front, covers, outcome⟩ := ofLexemes_cases
    [.token ⟨.endOfInput, "", .nil, .following src.toList⟩] none ⟨1, 1⟩
    (fun _ => kind_ne_of_significant)
    (fun lexeme mem => (bounds _ (kept.subset (List.mem_map_of_mem mem))).1) (separate.sublist kept)
  rw [ofText, Position.advance_start]
  refine ⟨front, covers.mono kept, outcome.imp_right ?_⟩
  rintro ⟨lexeme, mem, numeral, overflow, read, failed⟩
  refine ⟨lexeme, ?_, numeral, overflow, read, failed⟩
  -- a terminator is not read as a number
  rcases mem_placeTerminators mem with listed | terminator
  · exact List.mem_of_mem_filter listed
  · rw [Lexeme.numeral?, terminator] at read
    cases read

/-- The tokens of a text are at the places of some of its lexemes, in their order, with the end of the
input after them unless a number failed. -/
theorem ofText_cases (src : String) :
    ∃ front : List Token, (front.map Token.place).Sublist ((lexemes src).map Lexeme.place) ∧
      (∀ token ∈ front, token.kind ≠ .endOfInput) ∧
      ((ofText src).tokens =
            front ++ [⟨.endOfInput, "", .nil, .following src.toList⟩] ∧
          (ofText src).failure? = none ∨
        (ofText src).tokens = front ∧ ∃ lexeme ∈ lexemes src, ∃ numeral overflow,
          lexeme.numeral? = some numeral ∧ Literal.ofNumeral numeral = .error overflow ∧
            (ofText src).failure? = some overflow) := by
  obtain ⟨front, covers, outcome⟩ := ofText_shape src
  refine ⟨front.tokens, covers.places, covers.inner, outcome.imp (fun same => ?_) ?_⟩
  · rw [same, tokens_append, failure?_append, covers.whole]
    exact ⟨rfl, rfl⟩
  · rintro ⟨lexeme, mem, numeral, overflow, read, failed, same⟩
    rw [same, tokens_append, failure?_append, covers.whole]
    exact ⟨List.append_nil _, lexeme, mem, numeral, overflow, read, failed, rfl⟩

/-- A token at the place of a lexeme stands in the text. -/
theorem standsIn_of_place {token : Token} (mem : token.place ∈ (lexemes src).map Lexeme.place) :
    token.StandsIn src := by
  obtain ⟨lexeme, listed, same⟩ := List.mem_map.mp mem
  obtain ⟨text, position⟩ := Prod.mk.inj same
  obtain ⟨before, after, -, whole, -, placed, -⟩ := matched_lexemes src lexeme listed
  refine ⟨before, after, ?_, ?_⟩
  · rw [← text, String.toList_ofList]
    exact whole
  · rw [← position]
    exact placed

/-- Tokens at the places of lexemes are in the order of their positions, and all before the end. -/
theorem ordered_of_places {front : List Token}
    (places : (front.map Token.place).Sublist ((lexemes src).map Lexeme.place)) :
    (front.map Token.position).Pairwise Position.Before ∧
      ∀ position ∈ front.map Token.position, position.Before (.following src.toList) := by
  obtain ⟨ordered, bounds⟩ := ordered_lexemesFrom ⟨1, 1⟩ 0 src.toList
  have bound {token : Token} (mem : token ∈ front) := bounds _ (places.subset (List.mem_map_of_mem mem))
  rw [List.pairwise_map, List.forall_mem_map, ← Position.advance_start]
  refine ⟨?_, fun token mem => (bound mem).2.1.trans_notAfter (bound mem).2.2⟩
  have separate := List.pairwise_map.mp (ordered.sublist places)
  exact separate.imp_of_mem fun mem _ precedes => (bound mem).2.1.trans_notAfter precedes

/-- For every text: a terminal matches at every place of it, something and no more than there is; the
lexemes are the matches of the first such terminals, and put together they are the text; every token but
the end of the input stands in the text where its position says; positions only grow; and unless a number
failed, the tokens end with the one end of the input, just past the last character.  What is read as a
number is one, and has a value unless it is a whole number of more digits than the limit, which is what
a stream fails with. -/
theorem ofText_faithful (source : String) :
    (∀ before c rest, source.toList = before ++ c :: rest → ∃ terminal length,
        Terminal.first? (c :: rest) = some (terminal, length) ∧
          0 < length ∧ length ≤ (c :: rest).length) ∧
      (lexemes source).flatMap Lexeme.text = source.toList ∧
      (∀ lexeme ∈ lexemes source, lexeme.Matched source.toList) ∧
      (∀ token ∈ (ofText source).tokens, token.kind ≠ .endOfInput → token.StandsIn source) ∧
      ((ofText source).tokens.map Token.position).Pairwise Position.Before ∧
      ((ofText source).failure? = none → ∃ front,
        (ofText source).tokens =
            front ++ [⟨.endOfInput, "", .nil, .following source.toList⟩] ∧
          ∀ token ∈ front, token.kind ≠ .endOfInput) ∧
      (∀ lexeme ∈ lexemes source, ∀ numeral, lexeme.numeral? = some numeral →
        IsNumeral numeral ∧ ∀ overflow, Literal.ofNumeral numeral = .error overflow ↔
          (∀ c ∈ numeral, Digit.isDigit c = true) ∧ digitLimit < numeral.length ∧
            overflow.count = numeral.length) ∧
      ∀ overflow, (ofText source).failure? = some overflow → ∃ lexeme ∈ lexemes source,
        ∃ numeral, lexeme.numeral? = some numeral ∧
          Literal.ofNumeral numeral = .error overflow := by
  -- the tokens in front come from lexemes; behind them the input ends, or a number has failed
  obtain ⟨front, places, inner, outcome⟩ := ofText_cases source
  obtain ⟨ordered, early⟩ := ordered_of_places places
  have stands : ∀ token ∈ front, token.StandsIn source := fun token mem =>
    standsIn_of_place (places.subset (List.mem_map_of_mem mem))
  refine ⟨?_, flatMap_text_lexemes source, matched_lexemes source, ?_, ?_, ?_, ?_, ?_⟩
  · intro before c rest _
    obtain ⟨terminal, length, found, positive⟩ := Terminal.first?_cons c rest
    exact ⟨terminal, length, found, positive, Terminal.length?_le (Terminal.of_first? found).2⟩
  · intro token mem notEnd
    rcases outcome with ⟨same, -⟩ | ⟨same, -⟩
    · rw [same, List.mem_append, List.mem_singleton] at mem
      rcases mem with listed | rfl
      · exact stands token listed
      · exact absurd rfl notEnd
    · exact stands token (same ▸ mem)
  · rcases outcome with ⟨same, -⟩ | ⟨same, -⟩
    · rw [same, List.map_append, List.map_singleton, List.pairwise_append]
      refine ⟨ordered, List.pairwise_singleton _ _, fun first mem second last => ?_⟩
      rw [List.mem_singleton.mp last]
      exact early first mem
    · rw [same]
      exact ordered
  · intro none
    rcases outcome with ⟨same, -⟩ | ⟨-, _, _, _, _, _, _, failed⟩
    · exact ⟨front, same, inner⟩
    · rw [failed] at none
      cases none
  · intro lexeme mem numeral read
    have isNumeral := (matched_lexemes source lexeme mem).isNumeral read
    exact ⟨isNumeral, isNumeral.ofNumeral_eq_error_iff⟩
  · intro overflow failed
    rcases outcome with ⟨-, none⟩ | ⟨-, lexeme, mem, numeral, other, read, value, same⟩
    · rw [none] at failed
      cases failed
    · rw [same] at failed
      cases failed
      exact ⟨lexeme, mem, numeral, read, value⟩

end TokenStream

end FlowScript
