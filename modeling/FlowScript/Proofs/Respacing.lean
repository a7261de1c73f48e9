import FlowScript.Proofs.LosslessLexing
import Mathlib.Data.List.Forall2
/-!
# A text is its tokens

The tokens of a text without lexical problems can be written out again, one blank between any two, with
a semicolon for every terminator, and what is read from that is the same tokens.  So two texts without
problems have the same tokens exactly if they are written out alike: blanks, comments and the choice
between a newline and a semicolon matter only through the terminators they give.

Two facts carry this.  A lexeme that is a token was cut off by a terminal that looks at most one character
past its match, so a blank or the end there cuts it off too, by the same terminal
(`Terminal.standsAlone_of_first?`).  And where no newline is left, terminators are the semicolons, whatever
the parentheses around them (`placeTerminators_of_no_newline`).

Main statement: `TokenStream.ofText_respaced`.
-/

namespace FlowScript

variable {lexeme : Lexeme}

/-! ## Character classes do not overlap -/

theorem Digit.isDigit_eq_false {c : Char} (h : c.toNat < 48 ∨ 58 ≤ c.toNat ∧ c.toNat < 0x660) :
    isDigit c = false := by
  have outside : ∀ start ∈ zeros, ¬(start ≤ c.toNat ∧ c.toNat < start + 10) := by
    intro start mem
    have : start = 48 ∨ 0x660 ≤ start :=
      (by decide : ∀ start ∈ zeros, start = 48 ∨ 0x660 ≤ start) start mem
    omega
  have none : zeros.find? (fun start => start ≤ c.toNat && c.toNat < start + 10) = none :=
    List.find?_eq_none.mpr fun start mem => by simpa using outside start mem
  rw [isDigit, value?, none]
  rfl

namespace Scan

variable {c : Char} {after : List Char}

theorem isWordStart_bounds (h : isWordStart c = true) : 65 ≤ c.toNat ∧ c.toNat < 123 := by
  rw [isWordStart] at h
  delta Char.isAlpha Char.isUpper Char.isLower at h
  simp only [Bool.or_eq_true, Bool.and_eq_true, decide_eq_true_eq, UInt32.le_iff_toNat_le] at h
  rcases h with (upper | lower) | rfl
  · exact ⟨upper.1, Nat.lt_of_le_of_lt upper.2 (by decide)⟩
  · exact ⟨Nat.le_trans (by decide) lower.1, Nat.lt_of_le_of_lt lower.2 (by decide)⟩
  · decide

theorem isBlank_bounds (h : isBlank c = true) : c.toNat ≤ 32 := by
  simp only [isBlank, Bool.or_eq_true, decide_eq_true_eq] at h
  rcases h with (((rfl | rfl) | rfl) | rfl) | rfl <;> decide

/-- A digit starts no word, is no blank and opens neither a string nor a comment. -/
theorem classes_of_isDigit (h : Digit.isDigit c = true) :
    isWordStart c = false ∧ isBlank c = false ∧ c ≠ '"' ∧ c ≠ '/' := by
  have bounds : ¬(c.toNat < 48 ∨ 58 ≤ c.toNat ∧ c.toNat < 0x660) := fun outside =>
    Bool.noConfusion (h.symm.trans (Digit.isDigit_eq_false outside))
  refine ⟨?_, ?_, ?_, ?_⟩
  · refine Bool.eq_false_iff.mpr fun word => ?_
    have := isWordStart_bounds word
    omega
  · refine Bool.eq_false_iff.mpr fun blank => ?_
    have := isBlank_bounds blank
    omega
  · rintro rfl
    exact bounds (by decide)
  · rintro rfl
    exact bounds (by decide)

/-- A blank is no digit, starts no word and opens neither a string nor a comment. -/
theorem classes_of_isBlank (h : isBlank c = true) :
    Digit.isDigit c = false ∧ isWordStart c = false ∧ c ≠ '"' ∧ c ≠ '/' := by
  have bounds := isBlank_bounds h
  refine ⟨Digit.isDigit_eq_false (.inl (by omega)), ?_, ?_, ?_⟩
  · refine Bool.eq_false_iff.mpr fun word => ?_
    have := isWordStart_bounds word
    omega
  · rintro rfl
    exact absurd bounds (by decide)
  · rintro rfl
    exact absurd bounds (by decide)

/-! ## Runs -/

theorem run_append {p : Char → Bool} {text : List Char} (h : ∀ c ∈ text, p c = true)
    (after : List Char) : run p (text ++ after) = text.length + run p after := by
  induction text with
  | nil => simp
  | cons c rest ih =>
    obtain ⟨first, later⟩ := List.forall_mem_cons.mp h
    rw [List.cons_append, run, if_pos first, ih later, List.length_cons]
    omega

/-- A run that is as long as a text at the start is of the text's characters. -/
theorem forall_of_run_append {p : Char → Bool} {text : List Char} (h : run p (text ++ after) = text.length) :
    ∀ c ∈ text, p c = true := by
  have taken := take_run p (text ++ after)
  rwa [h, List.take_left] at taken

theorem number?_eq_none (h : Digit.isDigit c = false) (rest : List Char) : number? (c :: rest) = none := by
  cases found : number? (c :: rest) with
  | none => rfl
  | some length =>
    have digit := (number?_isSome_iff c rest).mp (by rw [found]; rfl)
    rw [h] at digit
    cases digit

theorem decimal?_digits {digits : List Char} (h : ∀ c ∈ digits, Digit.isDigit c = true)
    (ends : run Digit.isDigit after = 0) (noPoint : after.head? ≠ some '.') :
    decimal? (digits ++ after) = none := by
  simp only [decimal?, run_append h, ends, Nat.add_zero, List.drop_left]
  split
  · exact absurd rfl noPoint
  · rfl

theorem decimal?_fraction {whole fraction : List Char} (some : whole ≠ [])
    (digits : ∀ c ∈ whole, Digit.isDigit c = true) (nonempty : fraction ≠ [])
    (decimals : ∀ c ∈ fraction, Digit.isDigit c = true) (ends : run Digit.isDigit after = 0) :
    decimal? (whole ++ '.' :: (fraction ++ after)) =
      .some (whole ++ '.' :: fraction).length := by
  have point : run Digit.isDigit ('.' :: (fraction ++ after)) = 0 := rfl
  have long : ¬(whole.length = 0 ∨ fraction.length = 0) := by
    simp [some, nonempty]
  simp only [decimal?, run_append digits, point, Nat.add_zero, List.drop_left, run_append decimals,
    ends, if_neg long, List.length_append, List.length_cons]
  congr 1
  omega

/-- The inside of a string literal ends where a quote follows it, whatever comes after. -/
theorem stringBody_append {body : List Char} (h : stringBody (body ++ '"' :: after) = body.length)
    (other : List Char) : stringBody (body ++ '"' :: other) = body.length := by
  fun_induction stringBody body with
  | case1 => simp [stringBody] at h
  | case2 c rest line ih =>
    simp only [List.cons_append, stringBody, if_neg line, List.length_cons] at h ⊢
    rw [ih (by omega)]
  | case3 c rest pair special =>
    cases rest with
    | nil => rcases special with rfl | rfl | rfl <;> simp [stringBody] at h
    | cons d rest =>
      have notPair : c ≠ '\\' := fun same => pair d rest same rfl
      rw [List.cons_append, stringBody.eq_2 _ _ fun _ _ same => absurd same notPair, if_pos special] at h
      cases h
  | case4 c rest pair plain ih =>
    have step : ∀ tail, stringBody (c :: tail) = stringBody tail + 1 := fun tail => by
      rw [stringBody.eq_2 _ _ fun _ _ same => absurd (.inl same) plain, if_neg plain]
    rw [List.cons_append, step, List.length_cons] at h ⊢
    rw [ih (Nat.succ.inj h)]
  | case5 => rfl

end Scan

/-! ## The first terminal, by the first character -/

namespace Terminal

/-- The first terminal that matches, from those before it that do not. -/
theorem first?_eq_some {terminal : Terminal} {chars : List Char} {n : Nat}
    (skipped others : List Terminal) (order : inOrder = skipped ++ terminal :: others)
    (skip : ∀ other ∈ skipped, other.length? chars = none) (found : terminal.length? chars = some n) :
    first? chars = some (terminal, n) := by
  have none : skipped.findSome? (fun other => (other.length? chars).map fun length =>
      (other, length)) = none :=
    List.findSome?_eq_none_iff.mpr fun other mem => by rw [skip other mem]; rfl
  rw [first?, order, List.findSome?_append, none, List.findSome?_cons, found]
  rfl

theorem first?_of_isWordStart {c : Char} (h : Scan.isWordStart c = true) (rest : List Char) :
    first? (c :: rest) = some (.word, Scan.run Scan.isWordPart rest + 1) := by
  have bounds := Scan.isWordStart_bounds h
  have notDigit : Digit.isDigit c = false := Digit.isDigit_eq_false (.inr (by omega))
  refine first?_eq_some [.malformedNumber] _ rfl ?_ (if_pos h)
  simp [length?, Scan.number?_eq_none notDigit]

theorem first?_of_isBlank {c : Char} (h : Scan.isBlank c = true) (rest : List Char) :
    first? (c :: rest) = some (.blank, Scan.run Scan.isBlank rest + 1) := by
  obtain ⟨notDigit, notWord, notQuote, notSlash⟩ := Scan.classes_of_isBlank h
  refine first?_eq_some [.malformedNumber, .word, .closedString, .closedComment, .openString,
    .openComment, .lineComment] _ rfl ?_ (by simp [length?, Scan.run, h])
  simp [length?, Scan.number?_eq_none notDigit, Scan.word?, notWord, notQuote, notSlash]

/-- A number that runs into no letter is read whole, with its fraction if it has one. -/
theorem first?_of_isDigit {c : Char} (h : Digit.isDigit c = true) {chars : List Char}
    (starts : chars.head? = some c) (alone : Terminal.malformedNumber.length? chars = none) :
    first? chars =
      match Scan.decimal? chars with
      | some length => some (.decimal, length)
      | none => some (.integer, Scan.run Digit.isDigit chars) := by
  obtain ⟨notWord, notBlank, notQuote, notSlash⟩ := Scan.classes_of_isDigit h
  obtain ⟨rest, rfl⟩ := List.head?_eq_some_iff.mp starts
  have earlier : ∀ other ∈ [malformedNumber, .word, .closedString, .closedComment, .openString,
      .openComment, .lineComment, .blank], other.length? (c :: rest) = none := by
    refine List.forall_mem_cons.mpr ⟨alone, ?_⟩
    simp [length?, Scan.word?, notWord, notQuote, notSlash, Scan.run, notBlank]
  cases found : Scan.decimal? (c :: rest) with
  | some length => exact first?_eq_some _ _ rfl earlier found
  | none =>
    refine first?_eq_some ([malformedNumber, .word, .closedString, .closedComment, .openString,
      .openComment, .lineComment, .blank] ++ [.decimal]) _ rfl ?_ (by simp [length?, Scan.run, h])
    rw [List.forall_mem_append]
    exact ⟨earlier, List.forall_mem_singleton.mpr found⟩

theorem first?_closedString {body : List Char} {after : List Char}
    (h : Scan.stringBody (body ++ '"' :: after) = body.length) :
    first? ('"' :: (body ++ '"' :: after)) = some (.closedString, body.length + 2) := by
  refine first?_eq_some [.malformedNumber, .word] _ rfl ?_ (by simp [length?, h])
  have notDigit : Digit.isDigit '"' = false := by decide
  have notWord : Scan.isWordStart '"' = false := by decide
  simp [length?, Scan.number?_eq_none notDigit, Scan.word?, notWord]

/-- A mark is the first terminal at its own text if a blank or nothing follows. -/
theorem first?_mark : ∀ entry ∈ TokenKind.marks,
    first? entry.1.toList = some (.mark entry.1 entry.2, entry.1.toList.length) ∧
      ∀ rest, first? (entry.1.toList ++ ' ' :: rest) =
        some (.mark entry.1 entry.2, entry.1.toList.length) := by
  simp only [TokenKind.marks, List.forall_mem_cons]
  repeat' first
    | exact ⟨rfl, fun _ => rfl⟩
    | exact List.forall_mem_nil _
    | constructor

end Terminal

/-! ## Lexemes that stand alone -/

/-- Whether a text is cut off as one lexeme of a kind wherever a blank or the end of the text follows. -/
structure LexemeKind.StandsAlone (kind : LexemeKind) (text : List Char) : Prop where
  solid : ∀ c ∈ text.head?, Scan.isBlank c = false
  nonempty : text ≠ []
  cut : ∀ after : List Char, (∀ c ∈ after.head?, c = ' ') → ∃ terminal,
    Terminal.first? (text ++ after) = some (terminal, text.length) ∧ terminal.kind text = kind

namespace Terminal

/-- Neither a word nor a number goes on with a blank or the end, and no fraction starts there. -/
theorem ends_of_blank {after : List Char} (h : ∀ c ∈ after.head?, c = ' ') :
    Scan.run Scan.isWordPart after = 0 ∧ Scan.run Digit.isDigit after = 0 ∧
      Scan.word? after = none ∧ after.head? ≠ some '.' := by
  cases after with
  | nil => exact ⟨rfl, rfl, rfl, by simp⟩
  | cons c rest =>
    cases h c rfl
    exact ⟨rfl, rfl, rfl, by simp⟩

section Cut

variable {text after other : List Char}

theorem cut_word (found : Terminal.word.length? (text ++ after) = some text.length)
    (nonempty : text ≠ []) (ends : ∀ c ∈ other.head?, c = ' ') :
    first? (text ++ other) = some (.word, text.length) := by
  cases text with
  | nil => exact absurd rfl nonempty
  | cons c rest =>
    simp only [length?, List.cons_append, Scan.word?, List.length_cons] at found
    split at found
    · rename_i start
      have parts := Scan.forall_of_run_append (Nat.succ.inj (Option.some.inj found))
      rw [List.cons_append, first?_of_isWordStart start, Scan.run_append parts,
        (ends_of_blank ends).1, Nat.add_zero, List.length_cons]
    · cases found

/-- A string is cut off at its own closing quote, whatever follows. -/
theorem cut_closedString
    (found : Terminal.closedString.length? (text ++ after) = some text.length)
    (nonempty : text ≠ []) (other : List Char) :
    first? (text ++ other) = some (.closedString, text.length) := by
  cases text with
  | nil => exact absurd rfl nonempty
  | cons c rest =>
    simp only [length?, List.cons_append] at found
    split at found
    · rename_i inside same
      obtain ⟨rfl, rfl⟩ := List.cons.inj same
      split at found
      · rename_i closed
        -- the quote that closes the string is the last character of the text
        obtain ⟨body, rfl⟩ : ∃ body, rest = body ++ ['"'] := by
          have length : Scan.stringBody (rest ++ after) + 1 = rest.length :=
            Nat.succ.inj (Option.some.inj found)
          refine ⟨rest.take (Scan.stringBody (rest ++ after)), ?_⟩
          have last : rest.drop (Scan.stringBody (rest ++ after)) = ['"'] := by
            rw [List.head?_drop, List.getElem?_append_left (by omega)] at closed
            obtain ⟨bound, same⟩ := List.getElem?_eq_some_iff.mp closed
            rw [List.drop_eq_getElem_cons bound, same, List.drop_eq_nil_of_le (by omega)]
          rw [← last, List.take_append_drop]
        rw [List.append_assoc] at found
        have length : Scan.stringBody (body ++ '"' :: after) = body.length := by
          simpa using found
        rw [List.cons_append, List.append_assoc]
        exact (first?_closedString (Scan.stringBody_append length other)).trans (by simp)
      · cases found
    · cases found

/-- A number that a blank or the end follows is not malformed. -/
theorem malformedNumber_eq_none (number : Scan.number? (text ++ other) = some text.length)
    (ends : ∀ c ∈ other.head?, c = ' ') :
    Terminal.malformedNumber.length? (text ++ other) = none := by
  simp only [length?, number, List.drop_left, (ends_of_blank ends).2.2.1, Option.map_none]

theorem cut_decimal (found : Terminal.decimal.length? (text ++ after) = some text.length)
    (ends : ∀ c ∈ other.head?, c = ' ') :
    first? (text ++ other) = some (.decimal, text.length) := by
  obtain ⟨whole, fraction, some, digits, nonempty, decimals, shape⟩ := Scan.take_decimal? found
  rw [List.take_left] at shape
  have decimal : Scan.decimal? (text ++ other) = .some text.length := by
    rw [shape, List.append_assoc, List.cons_append]
    exact Scan.decimal?_fraction some digits nonempty decimals (ends_of_blank ends).2.1
  have number : Scan.number? (text ++ other) = .some text.length := by rw [Scan.number?, decimal]
  obtain ⟨c, rest, rfl⟩ := List.exists_cons_of_ne_nil some
  rw [first?_of_isDigit (digits c List.mem_cons_self) (by rw [shape]; rfl)
    (malformedNumber_eq_none number ends), decimal]

/-- A whole number is cut off before a blank. -/
theorem cut_integer (found : Terminal.integer.length? (text ++ after) = some text.length)
    (nonempty : text ≠ []) (ends : ∀ c ∈ other.head?, c = ' ') :
    first? (text ++ other) = some (.integer, text.length) := by
  obtain ⟨-, noDigit, -, noPoint⟩ := ends_of_blank ends
  have digits : ∀ c ∈ text, Digit.isDigit c = true := by
    simp only [length?] at found
    split at found
    · cases found
    · exact Scan.forall_of_run_append (Option.some.inj found)
  have run : Scan.run Digit.isDigit (text ++ other) = text.length := by
    rw [Scan.run_append digits, noDigit, Nat.add_zero]
  have decimal := Scan.decimal?_digits digits noDigit noPoint
  have number : Scan.number? (text ++ other) = some text.length := by
    simp [Scan.number?, decimal, run, nonempty]
  obtain ⟨c, rest, rfl⟩ := List.exists_cons_of_ne_nil nonempty
  rw [first?_of_isDigit (digits c List.mem_cons_self) rfl (malformedNumber_eq_none number ends),
    decimal, run]

/-- A lexeme that is a token is one too where a blank or the end follows it. -/
theorem standsAlone_of_first? {terminal : Terminal} {kind : TokenKind} (nonempty : text ≠ [])
    (found : first? (text ++ after) = some (terminal, text.length))
    (token : terminal.kind text = .token kind) : (LexemeKind.token kind).StandsAlone text := by
  obtain ⟨mem, matched⟩ := of_first? found
  refine ⟨?_, nonempty, fun other ends => ⟨terminal, ?_, token⟩⟩
  · intro c first
    refine Bool.eq_false_iff.mpr fun blank => ?_
    obtain ⟨rest, rfl⟩ := List.head?_eq_some_iff.mp first
    rw [List.cons_append, first?_of_isBlank blank] at found
    obtain ⟨rfl, -⟩ := Prod.mk.inj (Option.some.inj found)
    cases token
  · cases terminal with
    | word => exact cut_word matched nonempty ends
    | closedString => exact cut_closedString matched nonempty other
    | decimal => exact cut_decimal matched ends
    | integer => exact cut_integer matched nonempty ends
    | mark spelling markKind =>
      have listed : (spelling, markKind) ∈ TokenKind.marks := by simpa [inOrder] using mem
      -- the spelling and the text begin the same characters and are equally long
      have same : text = spelling.toList := by
        simp only [length?] at matched
        split at matched
        · rename_i begins
          have length : spelling.toList.length = text.length := Option.some.inj matched
          exact (List.prefix_of_prefix_length_le (List.prefix_append text after)
            (List.isPrefixOf_iff_prefix.mp begins) length.ge).eq_of_length length.symm
        · cases matched
      obtain ⟨last, within⟩ := first?_mark _ listed
      subst same
      cases other with
      | nil => simpa only [List.append_nil] using last
      | cons c rest =>
        cases ends c rfl
        exact within rest
    | _ => cases token

end Cut

/-- A semicolon stands alone. -/
theorem standsAlone_semicolon : LexemeKind.semicolon.StandsAlone [';'] where
  solid c first := by
    cases first
    rfl
  nonempty := List.cons_ne_nil _ _
  cut after ends := by
    cases after with
    | nil => exact ⟨.semicolon, rfl, rfl⟩
    | cons c rest =>
      cases ends c rfl
      exact ⟨.semicolon, rfl, rfl⟩

end Terminal

/-! ## The lexemes of a written out text -/

/-- The kind of a lexeme and its text, which is all that it is apart from its place. -/
def Lexeme.piece (lexeme : Lexeme) : LexemeKind × List Char := (lexeme.kind, lexeme.text)

theorem lexemesFrom_append (position : Position) (offset : Nat) {terminal : Terminal}
    {text after : List Char} (nonempty : text ≠ [])
    (found : Terminal.first? (text ++ after) = some (terminal, text.length)) :
    lexemesFrom position offset (text ++ after) =
      { kind := terminal.kind text, text, position, offset } ::
        lexemesFrom (position.advance text) (offset + text.length) after := by
  obtain ⟨c, rest, rfl⟩ := List.exists_cons_of_ne_nil nonempty
  rw [List.cons_append] at found ⊢
  rw [lexemesFrom, found]
  simp

/-- Pieces that stand alone do not start with a blank when they are written out. -/
theorem run_isBlank_intercalate (pieces : List (LexemeKind × List Char))
    (alone : ∀ piece ∈ pieces, piece.1.StandsAlone piece.2) :
    Scan.run Scan.isBlank ([' '].intercalate (pieces.map Prod.snd)) = 0 := by
  cases pieces with
  | nil => rfl
  | cons piece others =>
    obtain ⟨solid, nonempty, -⟩ := alone piece List.mem_cons_self
    obtain ⟨c, rest, same⟩ := List.exists_cons_of_ne_nil nonempty
    have notBlank : Scan.isBlank c = false := solid c (by rw [same]; rfl)
    cases others with
    | nil => simp [same, Scan.run, notBlank]
    | cons next others => simp [same, Scan.run, notBlank, List.intercalate_cons_cons]

/-- Pieces that stand alone, with a blank between any two, are cut into themselves and the blanks. -/
theorem pieces_lexemesFrom (position : Position) (offset : Nat)
    (pieces : List (LexemeKind × List Char))
    (alone : ∀ piece ∈ pieces, piece.1.StandsAlone piece.2)
    (kept : ∀ piece ∈ pieces, piece.1.isIgnored = false) :
    ((lexemesFrom position offset ([' '].intercalate (pieces.map Prod.snd))).filter
      fun lexeme => !lexeme.kind.isIgnored).map Lexeme.piece = pieces := by
  induction pieces generalizing position offset with
  | nil => simp [lexemesFrom]
  | cons piece others ih =>
    obtain ⟨kind, text⟩ := piece
    obtain ⟨first, later⟩ := List.forall_mem_cons.mp alone
    obtain ⟨firstKept, laterKept⟩ := List.forall_mem_cons.mp kept
    cases others with
    | nil =>
      obtain ⟨terminal, found, same⟩ := first.cut [] (by simp)
      have cut := lexemesFrom_append position offset first.nonempty found
      rw [List.append_nil] at cut
      simp [cut, same, firstKept, lexemesFrom, Lexeme.piece]
    | cons next others =>
      have tail := ih ((position.advance text).advance [' ']) (offset + text.length + 1) later laterKept
      have solid := run_isBlank_intercalate (next :: others) later
      rw [List.map_cons, List.map_cons, List.intercalate_cons_cons, ← List.map_cons,
        List.append_assoc, List.singleton_append]
      -- the cut of the first piece does not depend on what is written after the blank
      generalize [' '].intercalate ((next :: others).map Prod.snd) = written at tail solid ⊢
      obtain ⟨terminal, found, same⟩ := first.cut (' ' :: written) (by simp)
      have gap : Terminal.first? ([' '] ++ written) = some (.blank, 1) := by
        rw [List.singleton_append, Terminal.first?_of_isBlank rfl, solid]
      have blank := lexemesFrom_append (position.advance text) (offset + text.length)
        (List.cons_ne_nil ' ' []) gap
      rw [List.singleton_append, List.length_singleton] at blank
      rw [lexemesFrom_append position offset first.nonempty found, blank, same]
      rw [List.filter_cons_of_pos (by simpa using firstKept),
        List.filter_cons_of_neg (by simp [Terminal.kind, LexemeKind.isIgnored]), List.map_cons, tail]
      rfl

/-! ## Terminators -/

namespace Lexeme

/-- A semicolon as the terminator it is; any other lexeme as it stands. -/
def terminated (lexeme : Lexeme) : Lexeme :=
  if lexeme.kind = .semicolon then lexeme.toTerminator else lexeme

end Lexeme

/-- Without newlines the terminators are the semicolons, whatever stands before them and whatever
parentheses are open. -/
theorem placeTerminators_of_no_newline (depth : Nat) (ends : Bool) (list : List Lexeme)
    (none : ∀ lexeme ∈ list, lexeme.kind ≠ .newline) :
    placeTerminators depth ends list = list.map Lexeme.terminated := by
  fun_induction placeTerminators depth ends list with
  | case1 => rfl
  | case2 _ _ lexeme _ newline | case3 _ _ lexeme _ newline =>
    exact absurd newline (none lexeme List.mem_cons_self)
  | case4 depth ends lexeme rest semicolon ih =>
    rw [ih fun other mem => none other (List.mem_cons_of_mem _ mem), List.map_cons,
      Lexeme.terminated, if_pos semicolon]
  | case5 depth ends lexeme rest _ plain _ ih | case6 depth ends lexeme rest _ plain _ ih =>
    rw [ih fun other mem => none other (List.mem_cons_of_mem _ mem), List.map_cons,
      Lexeme.terminated, if_neg plain]

/-- What is left after terminators are placed is no newline and no semicolon. -/
theorem kind_of_mem_placeTerminators {depth : Nat} {ends : Bool} {list : List Lexeme}
    (mem : lexeme ∈ placeTerminators depth ends list) :
    lexeme.kind ≠ .newline ∧ lexeme.kind ≠ .semicolon := by
  fun_induction placeTerminators depth ends list with
  | case1 => cases mem
  | case3 _ _ _ _ _ _ ih => exact ih mem
  | case2 _ _ _ _ _ _ ih | case4 _ _ _ _ _ ih =>
    rcases List.mem_cons.mp mem with rfl | later
    · simp [Lexeme.toTerminator]
    · exact ih later
  | case5 _ _ _ _ newline semicolon _ ih | case6 _ _ _ _ newline semicolon _ ih =>
    rcases List.mem_cons.mp mem with rfl | later
    · exact ⟨newline, semicolon⟩
    · exact ih later

theorem isIgnored_of_significant {src : String} (mem : lexeme ∈ significantLexemes src) :
    lexeme.kind.isIgnored = false := by
  rcases mem_placeTerminators mem with listed | terminator
  · simpa using (List.mem_filter.mp listed).2
  · rw [terminator]
    rfl

/-! ## What a lexeme reads as -/

/-- Whether a lexeme of a kind and a text gives one token wherever it stands, of this kind and value. -/
structure LexemeKind.Gives (kind : LexemeKind) (text : List Char) (read : TokenKind)
    (value : Literal) : Prop where
  token : ∃ kind', kind = .token kind'
  events : ∀ lexeme : Lexeme, lexeme.kind = kind → lexeme.text = text → ∀ rest,
    lexeme.events rest = .token (lexeme.toToken read value) :: rest
  terminator : read = .terminator ↔ kind = .token .terminator

namespace Lexeme

variable {lexeme : Lexeme} {rest : TokenStream}

theorem events_number (kind : lexeme.kind = .token .integer ∨ lexeme.kind = .token .float) :
    lexeme.events rest = lexeme.numberEvents lexeme.text rest := by
  rcases kind with kind | kind <;> simp only [events, kind]

/-- A number that is read whole gives a numeral. -/
theorem gives_number (kind : lexeme.kind = .token .integer ∨ lexeme.kind = .token .float)
    (whole : (lexeme.events rest).failure? = none) :
    ∃ read value, lexeme.kind.Gives lexeme.text read value := by
  rw [events_number kind, numberEvents] at whole
  cases found : Literal.ofNumeral lexeme.text with
  | error overflow =>
    rw [found] at whole
    cases whole
  | ok value =>
    have reads : ∃ read, read ≠ .terminator ∧ ∀ (other : Lexeme) (later : TokenStream),
        other.numberEvents lexeme.text later = .token (other.toToken read value) :: later := by
      cases value with
      | float => exact ⟨.float, by simp, fun _ _ => by rw [numberEvents, found]⟩
      | _ => exact ⟨.integer, by simp, fun _ _ => by rw [numberEvents, found]⟩
    obtain ⟨read, other, events⟩ := reads
    refine ⟨read, value, kind.elim (⟨_, ·⟩) (⟨_, ·⟩), ?_, iff_of_false other ?_⟩
    · intro other same text later
      rw [events_number (same ▸ kind), text, events]
    · rcases kind with kind | kind <;> simp [kind]

/-- A string without problems gives its text. -/
theorem gives_string (kind : lexeme.kind = .token .string)
    (clean : (lexeme.events rest).problems = []) :
    ∃ read value, lexeme.kind.Gives lexeme.text read value := by
  have inside : ∀ other : Lexeme, other.kind = .token .string → ∀ later, other.events later =
      other.stringEvents (other.text.drop 1).dropLast ++ later := by
    intro other same later
    simp only [events, same]
  rw [inside lexeme kind, stringEvents] at clean
  cases escapes : Literal.unknownEscapes 1 (lexeme.text.drop 1).dropLast with
  | cons escape escapes =>
    rw [escapes] at clean
    cases clean
  | nil =>
    refine ⟨.string, .string (String.ofList (Literal.unescape (lexeme.text.drop 1).dropLast)),
      ⟨_, kind⟩, ?_, by simp [kind]⟩
    intro other same text later
    rw [inside other (same.trans kind), stringEvents, text, escapes]
    rfl

theorem gives_fixed {read : TokenKind} (kind : lexeme.kind = .token read) (integer : read ≠ .integer)
    (float : read ≠ .float) (string : read ≠ .string) :
    ∃ value, lexeme.kind.Gives lexeme.text read value := by
  have fixed : ∃ value, ∀ (other : Lexeme) (later : TokenStream), other.kind = .token read →
      other.events later = .token (other.toToken read value) :: later := by
    cases read with
    | kwTrue => exact ⟨.bool true, fun other later same => by simp only [events, same]⟩
    | kwFalse => exact ⟨.bool false, fun other later same => by simp only [events, same]⟩
    | _ => first
      | contradiction
      | exact ⟨.nil, fun other later same => by simp only [events, same]⟩
  obtain ⟨value, events⟩ := fixed
  refine ⟨value, ⟨read, kind⟩, fun other same _ later => events other later (same.trans kind), ?_⟩
  rw [kind, LexemeKind.token.injEq]

/-- A lexeme without problems gives one token, and would give it anywhere. -/
theorem gives_of_clean (newline : lexeme.kind ≠ .newline) (semicolon : lexeme.kind ≠ .semicolon)
    (kept : lexeme.kind.isIgnored = false) (clean : (lexeme.events rest).problems = [])
    (whole : (lexeme.events rest).failure? = none) :
    ∃ read value, lexeme.kind.Gives lexeme.text read value := by
  cases kind : lexeme.kind with
  | token read =>
    rw [← kind]
    by_cases integer : read = .integer
    · exact gives_number (.inl (by rw [kind, integer])) whole
    by_cases float : read = .float
    · exact gives_number (.inr (by rw [kind, float])) whole
    by_cases string : read = .string
    · exact gives_string (by rw [kind, string]) clean
    exact ⟨read, gives_fixed kind integer float string⟩
  | newline => exact absurd kind newline
  | semicolon => exact absurd kind semicolon
  | blank | comment =>
    rw [kind] at kept
    cases kept
  | invalid | openComment | malformedNumber | openString =>
    rw [events, kind] at clean
    cases clean

end Lexeme

/-- Whether a lexeme gives one token, of this kind and value. -/
def Lexeme.ReadsAs (lexeme : Lexeme) (reading : TokenKind × Literal) : Prop :=
  lexeme.kind.Gives lexeme.text reading.1 reading.2

/-- The tokens of lexemes that read as these kinds and values. -/
def tokensOf : List Lexeme → List (TokenKind × Literal) → List Token :=
  List.zipWith fun lexeme reading => lexeme.toToken reading.1 reading.2

/-! ## Streams without problems -/

namespace TokenStream

theorem ofLexemes_cons {lexeme : Lexeme} {reading : TokenKind × Literal} (h : lexeme.ReadsAs reading)
    (final : TokenStream) (rest : List Lexeme) :
    ofLexemes final none (lexeme :: rest) =
      .token (lexeme.toToken reading.1 reading.2) :: ofLexemes final none rest := by
  obtain ⟨⟨kind, token⟩, events, -⟩ := h
  have valid : lexeme.kind ≠ .invalid := by simp [token]
  rw [ofLexemes, if_neg (by simp), if_neg valid, events lexeme rfl rfl]

theorem ofLexemes_readings {list : List Lexeme} {readings : List (TokenKind × Literal)}
    (h : List.Forall₂ Lexeme.ReadsAs list readings) (final : TokenStream) :
    ofLexemes final none list = (tokensOf list readings).map .token ++ final := by
  induction h with
  | nil => rfl
  | cons first _ ih =>
    rw [ofLexemes_cons first, ih]
    rfl

/-- Every lexeme of a stream without problems gives a token. -/
theorem exists_readings {final : TokenStream} {list : List Lexeme}
    (kinds : ∀ lexeme ∈ list, lexeme.kind ≠ .newline ∧ lexeme.kind ≠ .semicolon ∧
      lexeme.kind.isIgnored = false)
    (clean : (ofLexemes final none list).problems = [])
    (whole : (ofLexemes final none list).failure? = none) :
    ∃ readings, List.Forall₂ Lexeme.ReadsAs list readings := by
  induction list with
  | nil => exact ⟨[], .nil⟩
  | cons lexeme rest ih =>
    obtain ⟨⟨newline, semicolon, kept⟩, later⟩ := List.forall_mem_cons.mp kinds
    have step := ofLexemes.eq_2 final none lexeme rest
    rw [if_neg (by simp)] at step
    obtain ⟨read, value, gives⟩ := Lexeme.gives_of_clean newline semicolon kept
      (by rw [← step]; exact clean) (by rw [← step]; exact whole)
    have first : lexeme.ReadsAs (read, value) := gives
    rw [ofLexemes_cons first] at clean whole
    obtain ⟨readings, others⟩ := ih later clean whole
    exact ⟨_, .cons first others⟩

end TokenStream

/-! ## Writing tokens out -/

namespace Token

/-- A token apart from its place: its kind, its value and its text. A terminator has no text of its own,
for it may be a semicolon or a newline. -/
def content (token : Token) : TokenKind × Literal × Option String :=
  (token.kind, token.value, if token.kind = .terminator then none else some token.lexeme)

/-- How a token is written: a terminator as a semicolon, any other as it was. -/
def spelling (token : Token) : List Char :=
  if token.kind = .terminator then [';'] else token.lexeme.toList

/-- Tokens written out in one line, with a blank between any two and nothing for the end of the input. -/
def respaced (tokens : List Token) : String :=
  String.ofList ([' '].intercalate ((tokens.filter (·.kind ≠ .endOfInput)).map spelling))

end Token

namespace Lexeme

/-- The piece of a written out text that stands for a lexeme. -/
def spelled (lexeme : Lexeme) : LexemeKind × List Char :=
  if lexeme.kind = .token .terminator then (.semicolon, [';']) else lexeme.piece

variable {lexeme other : Lexeme} {reading : TokenKind × Literal}

theorem ReadsAs.spelling_eq (h : lexeme.ReadsAs reading) :
    (lexeme.toToken reading.1 reading.2).spelling = lexeme.spelled.2 := by
  by_cases terminator : lexeme.kind = .token .terminator
  · simp [Token.spelling, spelled, toToken, h.terminator.mpr terminator, terminator]
  · simp [Token.spelling, spelled, toToken, h.terminator.not.mpr terminator, terminator, piece]

theorem ReadsAs.eq_of_terminator (h : lexeme.ReadsAs reading)
    (terminator : lexeme.kind = .token .terminator) : reading = (.terminator, .nil) := by
  have events := h.events lexeme rfl rfl []
  simp only [Lexeme.events, terminator] at events
  obtain ⟨read, value⟩ := reading
  cases events
  rfl

/-- What a lexeme is written as reads as the lexeme does. -/
theorem ReadsAs.respelled (h : lexeme.ReadsAs reading) (same : other.piece = lexeme.spelled) :
    other.terminated.ReadsAs reading ∧
      (other.terminated.toToken reading.1 reading.2).content =
        (lexeme.toToken reading.1 reading.2).content := by
  by_cases terminator : lexeme.kind = .token .terminator
  · rw [spelled, if_pos terminator] at same
    obtain ⟨kind, -⟩ := Prod.mk.inj same
    rw [h.eq_of_terminator terminator, terminated, if_pos kind]
    refine ⟨⟨⟨_, rfl⟩, fun later kind _ rest => ?_, by simp [toTerminator]⟩, rfl⟩
    rw [events, kind]
    rfl
  · rw [spelled, if_neg terminator] at same
    obtain ⟨kind, text⟩ := Prod.mk.inj same
    obtain ⟨token, isToken⟩ := h.token
    have plain : other.kind ≠ .semicolon := by simp [kind, isToken]
    have notTerminator := h.terminator.not.mpr terminator
    rw [terminated, if_neg plain, ReadsAs, kind, text]
    exact ⟨h, by simp [Token.content, toToken, notTerminator, text]⟩

/-- Lexemes spelled alike are read alike. -/
theorem readings_respelled {list others : List Lexeme} {readings : List (TokenKind × Literal)}
    (h : List.Forall₂ ReadsAs list readings) (same : others.map piece = list.map spelled) :
    List.Forall₂ ReadsAs (others.map terminated) readings ∧
      (tokensOf (others.map terminated) readings).map Token.content =
        (tokensOf list readings).map Token.content := by
  induction h generalizing others with
  | nil =>
    cases List.map_eq_nil_iff.mp same
    exact ⟨.nil, rfl⟩
  | cons first _ ih =>
    obtain ⟨other, later, rfl, one, rest⟩ := List.map_eq_cons_iff.mp same
    obtain ⟨reads, content⟩ := first.respelled one
    obtain ⟨others, contents⟩ := ih rest
    refine ⟨.cons reads others, ?_⟩
    simp only [tokensOf, List.map_cons, List.zipWith_cons_cons] at contents ⊢
    rw [content, contents]

theorem spelling_tokensOf {list : List Lexeme} {readings : List (TokenKind × Literal)}
    (h : List.Forall₂ ReadsAs list readings) :
    (tokensOf list readings).map Token.spelling = (list.map spelled).map Prod.snd := by
  induction h with
  | nil => rfl
  | cons first _ ih =>
    simp only [tokensOf, List.map_cons, List.zipWith_cons_cons] at ih ⊢
    rw [first.spelling_eq, ih]

end Lexeme

/-- What stands for a significant lexeme in a written out text stands alone. -/
theorem standsAlone_spelled {src : String} {reading : TokenKind × Literal}
    (mem : lexeme ∈ significantLexemes src) (reads : lexeme.ReadsAs reading) :
    lexeme.spelled.1.StandsAlone lexeme.spelled.2 := by
  unfold Lexeme.spelled
  split
  · exact Terminal.standsAlone_semicolon
  · rename_i plain
    rcases mem_placeTerminators mem with listed | terminator
    · obtain ⟨kind, token⟩ := reads.token
      obtain ⟨before, after, terminal, -, -, -, nonempty, found, same⟩ :=
        matched_lexemes src lexeme (List.mem_of_mem_filter listed)
      have alone := Terminal.standsAlone_of_first? nonempty found (same.symm.trans token)
      rwa [← token] at alone
    · exact absurd terminator plain

/-- Tokens that differ at most in their places are written out alike. -/
theorem Token.respaced_congr {tokens others : List Token}
    (h : others.map content = tokens.map content) : respaced others = respaced tokens := by
  have written : ∀ list : List Token, (list.filter (·.kind ≠ .endOfInput)).map spelling =
      ((list.map content).filter (·.1 ≠ .endOfInput)).map
        fun content => (content.2.2.map String.toList).getD [';'] := by
    intro list
    have spell : spelling = (fun content => (content.2.2.map String.toList).getD [';']) ∘ content := by
      funext token
      by_cases terminator : token.kind = .terminator
      · simp [spelling, content, terminator]
      · simp [spelling, content, terminator]
    rw [List.filter_map, List.map_map, ← spell]
    rfl
  rw [respaced, respaced, written, written, h]

namespace TokenStream

variable {src : String}

/-- Whether a text was read to its end without a problem. -/
def IsClean (stream : TokenStream) : Prop := stream.problems = [] ∧ stream.failure? = none

theorem tokens_map_token (list : List Token) :
    TokenStream.tokens (list.map .token) = list ∧ IsClean (list.map .token) := by
  induction list with
  | nil => exact ⟨rfl, rfl, rfl⟩
  | cons token rest ih =>
    obtain ⟨tokens, problems, failure⟩ := ih
    rw [List.map_cons]
    exact ⟨by rw [tokens_token, tokens], problems, failure⟩

/-- A text whose significant lexemes all give tokens is clean, and these are its tokens. -/
theorem ofText_of_readings {readings : List (TokenKind × Literal)}
    (h : List.Forall₂ Lexeme.ReadsAs (significantLexemes src) readings) :
    (ofText src).IsClean ∧ (ofText src).tokens =
      tokensOf (significantLexemes src) readings ++
        [⟨.endOfInput, "", .nil, .following src.toList⟩] := by
  have stream : ofText src = List.map LexEvent.token
      (tokensOf (significantLexemes src) readings ++
        [⟨.endOfInput, "", .nil, .following src.toList⟩]) := by
    rw [ofText, ofLexemes_readings h, List.map_append, Position.advance_start]
    rfl
  rw [stream]
  exact (tokens_map_token _).symm

theorem contents_of_readings {readings : List (TokenKind × Literal)}
    (h : List.Forall₂ Lexeme.ReadsAs (significantLexemes src) readings) :
    (ofText src).tokens.map Token.content =
      (tokensOf (significantLexemes src) readings).map Token.content ++
        [(.endOfInput, .nil, some "")] := by
  rw [(ofText_of_readings h).2, List.map_append]
  rfl

theorem IsClean.readings (h : (ofText src).IsClean) :
    ∃ readings, List.Forall₂ Lexeme.ReadsAs (significantLexemes src) readings :=
  exists_readings (fun _ mem => ⟨(kind_of_mem_placeTerminators mem).1,
    (kind_of_mem_placeTerminators mem).2, isIgnored_of_significant mem⟩) h.1 h.2

/-- How the tokens of a clean text are written out, by its lexemes. -/
theorem respaced_eq {readings : List (TokenKind × Literal)}
    (h : List.Forall₂ Lexeme.ReadsAs (significantLexemes src) readings) :
    (Token.respaced (ofText src).tokens).toList =
      [' '].intercalate (((significantLexemes src).map Lexeme.spelled).map Prod.snd) := by
  obtain ⟨clean, tokens⟩ := ofText_of_readings h
  -- only the last token is the end of the input
  have inner : ∀ token ∈ tokensOf (significantLexemes src) readings,
      token.kind ≠ .endOfInput := by
    obtain ⟨front, -, inner, ⟨same, -⟩ | ⟨-, _, _, _, _, _, _, failed⟩⟩ := ofText_cases src
    · rwa [List.append_cancel_right (tokens.symm.trans same)]
    · rw [clean.2] at failed
      cases failed
  have kept : (tokensOf (significantLexemes src) readings).filter (·.kind ≠ .endOfInput) =
      tokensOf (significantLexemes src) readings :=
    List.filter_eq_self.mpr fun token mem => decide_eq_true (inner token mem)
  rw [Token.respaced, String.toList_ofList, tokens, List.filter_append, kept,
    List.filter_cons_of_neg (by simp), List.filter_nil, List.append_nil,
    Lexeme.spelling_tokensOf h]

/-- The significant lexemes of a text that was written out are those it was written from, with a
semicolon for every terminator. -/
theorem significantLexemes_respaced {readings : List (TokenKind × Literal)}
    (h : List.Forall₂ Lexeme.ReadsAs (significantLexemes src) readings) :
    ∃ others : List Lexeme, others.map Lexeme.piece = (significantLexemes src).map Lexeme.spelled ∧
      significantLexemes (Token.respaced (ofText src).tokens) = others.map Lexeme.terminated := by
  have reading : ∀ lexeme ∈ significantLexemes src, ∃ reading, lexeme.ReadsAs reading :=
    ((List.forall₂_and_left _ _).mp (h.imp fun _ reading reads => ⟨⟨reading, reads⟩, reads⟩)).1
  have pieces : ∀ piece ∈ (significantLexemes src).map Lexeme.spelled,
      piece.1.StandsAlone piece.2 ∧ piece.1.isIgnored = false ∧ piece.1 ≠ .newline := by
    intro piece mem
    obtain ⟨lexeme, listed, rfl⟩ := List.mem_map.mp mem
    obtain ⟨reading, reads⟩ := reading lexeme listed
    refine ⟨standsAlone_spelled listed reads, ?_⟩
    obtain ⟨kind, token⟩ := reads.token
    unfold Lexeme.spelled
    split
    · exact ⟨rfl, by simp⟩
    · rw [Lexeme.piece, token]
      exact ⟨rfl, by simp⟩
  have cut := pieces_lexemesFrom ⟨1, 1⟩ 0 _ (fun piece mem => (pieces piece mem).1)
    fun piece mem => (pieces piece mem).2.1
  rw [← respaced_eq h] at cut
  refine ⟨_, cut, placeTerminators_of_no_newline _ _ _ fun lexeme mem => ?_⟩
  exact (pieces lexeme.piece (cut ▸ List.mem_map_of_mem mem)).2.2

/-- The tokens of a clean text, written out, are read again. -/
theorem IsClean.respaced (h : (ofText src).IsClean) :
    (ofText (Token.respaced (ofText src).tokens)).IsClean ∧
      (ofText (Token.respaced (ofText src).tokens)).tokens.map Token.content =
        (ofText src).tokens.map Token.content := by
  obtain ⟨readings, reads⟩ := h.readings
  obtain ⟨others, pieces, lexemes⟩ := significantLexemes_respaced reads
  obtain ⟨again, contents⟩ := Lexeme.readings_respelled reads pieces
  rw [← lexemes] at again contents
  refine ⟨(ofText_of_readings again).1, ?_⟩
  rw [contents_of_readings again, contents, contents_of_readings reads]

/-- Writing out the tokens of a clean text, with a blank between any two and a semicolon for every
terminator, gives a clean text with the same tokens up to their places; so clean texts have the same
tokens exactly if they are written out alike. -/
theorem ofText_respaced (source : String) (clean : (ofText source).IsClean) :
    (ofText (Token.respaced (ofText source).tokens)).IsClean ∧
      (ofText (Token.respaced (ofText source).tokens)).tokens.map Token.content =
        (ofText source).tokens.map Token.content ∧
      ∀ other, (ofText other).IsClean →
        ((ofText other).tokens.map Token.content = (ofText source).tokens.map Token.content ↔
          Token.respaced (ofText other).tokens = Token.respaced (ofText source).tokens) := by
  obtain ⟨again, contents⟩ := clean.respaced
  refine ⟨again, contents, fun other otherClean => ⟨Token.respaced_congr, fun same => ?_⟩⟩
  calc (ofText other).tokens.map Token.content
      = (ofText (Token.respaced (ofText other).tokens)).tokens.map Token.content :=
        otherClean.respaced.2.symm
    _ = (ofText (Token.respaced (ofText source).tokens)).tokens.map Token.content := by rw [same]
    _ = (ofText source).tokens.map Token.content := contents

/-- A call over two lines with a comment in it, and a string that looks like other tokens. -/
theorem ofText_respaced_call :
    let source := "f(1, // one\n  \"a; /*b\")\nx=2.50 ;/* c */y\n"
    (ofText source).IsClean ∧
      Token.respaced (ofText source).tokens = "f ( 1 , \"a; /*b\" ) ; x = 2.50 ; y ;" ∧
      (ofText (Token.respaced (ofText source).tokens)).tokens.map Token.content =
        (ofText source).tokens.map Token.content := by
  have clean : (ofText "f(1, // one\n  \"a; /*b\")\nx=2.50 ;/* c */y\n").IsClean :=
    ⟨by decide +kernel, by decide +kernel⟩
  exact ⟨clean, by decide +kernel, (ofText_respaced _ clean).2.1⟩

end TokenStream

end FlowScript
