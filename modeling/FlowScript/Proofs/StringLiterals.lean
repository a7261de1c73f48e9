import FlowScript.Proofs.Respacing
import FlowScript.Value.Display
/-!
# String literals stand for what was written

The inside of a string literal is read three times: by the scan for the closing quote, for its characters and
for its unknown escapes.  `Literal.Writes` says in one place how characters are written inside of a literal,
and the three readings follow it piece by piece.

Main statement: `TokenStream.ofText_stringLiteral`.
-/

namespace FlowScript

namespace Literal

/-- The escapes, each with the character that it stands for. -/
def escapes : List (Char × Char) :=
  [('n', '\n'), ('t', '\t'), ('r', '\r'), ('\\', '\\'), ('"', '"'), ('0', '\x00')]

/-- Whether the inside of a literal writes some characters, from an offset of the source on.  Every character
may be written as it is unless it is a quote, a backslash or a newline, and some have an escape.  A backslash
with any other character writes that character, and counts as an unknown escape at its place. -/
inductive Writes : (offset : Nat) → (body value : List Char) → (unknown : List (Nat × Char)) → Prop
  | nil {offset : Nat} : Writes offset [] [] []
  | plain {offset : Nat} {body value : List Char} {unknown : List (Nat × Char)} {c : Char}
    (ordinary : ¬(c = '\\' ∨ c = '"' ∨ c = '\n')) (rest : Writes (offset + 1) body value unknown) :
    Writes offset (c :: body) (c :: value) unknown
  | escape {offset : Nat} {body value : List Char} {unknown : List (Nat × Char)} {letter c : Char}
    (listed : (letter, c) ∈ escapes) (rest : Writes (offset + 2) body value unknown) :
    Writes offset ('\\' :: letter :: body) (c :: value) unknown
  | unknown {offset : Nat} {body value : List Char} {unknown : List (Nat × Char)} {c : Char}
    (inLine : c ≠ '\n') (unlisted : ∀ entry ∈ escapes, entry.1 ≠ c)
    (rest : Writes (offset + 2) body value unknown) :
    Writes offset ('\\' :: c :: body) (c :: value) ((offset, c) :: unknown)

/-- A literal with a given inside. -/
def inQuotes (body : List Char) : List Char := '"' :: body ++ ['"']

theorem escape?_of_mem : ∀ entry ∈ escapes, escape? entry.1 = some entry.2 ∧ entry.1 ≠ '\n' := by
  decide

theorem escape?_eq_none {c : Char} (unlisted : ∀ entry ∈ escapes, entry.1 ≠ c) : escape? c = none := by
  simp only [escapes, List.forall_mem_cons] at unlisted
  unfold escape?
  split <;> simp_all

/-- The last equation of a reading that goes by pairs, where the first character is no backslash. -/
theorem not_pair {c : Char} (ordinary : ¬(c = '\\' ∨ c = '"' ∨ c = '\n')) {body : List Char} (d : Char)
    (rest : List Char) (same : c = '\\') : body ≠ d :: rest :=
  absurd (.inl same) ordinary

namespace Writes

variable {offset : Nat} {body value : List Char} {unknown : List (Nat × Char)}

/-- The scan for the closing quote takes the inside, and nothing of the quote. -/
theorem stringBody_eq (h : Writes offset body value unknown) (after : List Char) :
    Scan.stringBody (body ++ '"' :: after) = body.length := by
  induction h with
  | nil => simp [Scan.stringBody]
  | plain ordinary _ ih =>
    rw [List.cons_append, Scan.stringBody.eq_2 _ _ (not_pair ordinary), if_neg ordinary, ih, List.length_cons]
  | escape listed _ ih => simp [Scan.stringBody, (escape?_of_mem _ listed).2, ih]
  | unknown inLine _ _ ih => simp [Scan.stringBody, inLine, ih]

theorem unescape_eq (h : Writes offset body value unknown) : unescape body = value := by
  induction h with
  | nil => rfl
  | plain ordinary _ ih => rw [unescape.eq_2 _ _ (not_pair ordinary), ih]
  | escape listed _ ih => rw [unescape, ih, (escape?_of_mem _ listed).1, Option.getD_some]
  | unknown _ unlisted _ ih => rw [unescape, ih, escape?_eq_none unlisted, Option.getD_none]

theorem unknownEscapes_eq (h : Writes offset body value unknown) : unknownEscapes offset body = unknown := by
  induction h with
  | nil => rfl
  | plain ordinary _ ih => rw [unknownEscapes.eq_2 _ _ _ (not_pair ordinary), ih]
  | escape listed _ ih => simp [unknownEscapes, ih, (escape?_of_mem _ listed).1]
  | unknown _ unlisted _ ih => simp [unknownEscapes, ih, escape?_eq_none unlisted]

/-- A literal stays on its line. -/
theorem inLine (h : Writes offset body value unknown) : ∀ c ∈ body, c ≠ '\n' := by
  induction h with
  | nil => simp
  | plain ordinary _ ih => exact List.forall_mem_cons.mpr ⟨fun same => ordinary (.inr (.inr same)), ih⟩
  | escape listed _ ih => simpa [(escape?_of_mem _ listed).2] using ih
  | unknown inLine _ _ ih => simpa [inLine] using ih

/-- The quoted form of a text of one line writes the text, with no unknown escape. -/
theorem quotedChars (offset : Nat) (text : List Char) (inLine : '\n' ∉ text) :
    Writes offset (Value.quotedChars text) text [] := by
  induction text generalizing offset with
  | nil => exact .nil
  | cons c rest ih =>
    obtain ⟨notNewline, later⟩ := not_or.mp (mt List.mem_cons.mpr inLine)
    rw [Value.quotedChars]
    split
    · rename_i special
      refine .escape ?_ (ih _ later)
      rcases special with rfl | rfl <;> decide
    · rename_i ordinary
      refine .plain (fun special => ?_) (ih _ later)
      rcases special with same | same | same
      · exact ordinary (.inl same)
      · exact ordinary (.inr same)
      · exact notNewline same.symm

end Writes

end Literal

/-- Within a line only the column advances. -/
theorem Position.advance_inLine (pos : Position) {text : List Char} (inLine : ∀ c ∈ text, c ≠ '\n') :
    pos.advance text = ⟨pos.line, pos.column + text.length⟩ := by
  induction text generalizing pos with
  | nil => rfl
  | cons c rest ih =>
    obtain ⟨first, later⟩ := List.forall_mem_cons.mp inLine
    rw [Position.advance, List.foldl_cons, ← Position.advance, ih _ later, Position.next, if_neg first,
      List.length_cons, Nat.add_right_comm, Nat.add_assoc]

namespace TokenStream

open Literal (Writes)

/-- The stream of a literal that writes some characters. -/
theorem ofText_of_writes {body value : List Char} {unknown : List (Nat × Char)}
    (h : Writes 1 body value unknown) :
    ofText (String.ofList (Literal.inQuotes body)) =
      (unknown.map fun (offset, c) => .problem (.unknownEscape c) ⟨1, 1 + offset⟩) ++
        [.token ⟨.string, String.ofList (Literal.inQuotes body), .string (String.ofList value), ⟨1, 1⟩⟩,
          .token ⟨.endOfInput, "", .nil, ⟨1, body.length + 3⟩⟩] := by
  have found : Terminal.first? (Literal.inQuotes body ++ []) =
      some (.closedString, (Literal.inQuotes body).length) := by
    rw [List.append_nil, Literal.inQuotes, List.cons_append, Terminal.first?_closedString (h.stringBody_eq [])]
    simp
  have cut : lexemes (String.ofList (Literal.inQuotes body)) =
      [⟨.token .string, Literal.inQuotes body, ⟨1, 1⟩, 0⟩] := by
    have whole := lexemesFrom_append ⟨1, 1⟩ 0 (by simp [Literal.inQuotes]) found
    rw [List.append_nil, lexemesFrom] at whole
    rw [lexemes, String.toList_ofList, whole, Terminal.kind]
  have last : Position.advance ⟨1, 1⟩ (Literal.inQuotes body) = ⟨1, body.length + 3⟩ := by
    rw [Position.advance_inLine _ (by simpa [Literal.inQuotes, or_imp, forall_and] using h.inLine)]
    simp [Literal.inQuotes]
    omega
  have inside : (Literal.inQuotes body).tail.dropLast = body := by simp [Literal.inQuotes]
  rw [ofText, String.toList_ofList, last, significantLexemes, cut]
  simp [LexemeKind.isIgnored, placeTerminators, LexemeKind.isTransparent, ofLexemes, Lexeme.events,
    Lexeme.stringEvents, inside, h.unescape_eq, h.unknownEscapes_eq, Lexeme.toToken]

/-- **String literals stand for what was written.**  Take any characters and any inside of a literal that
writes them.  In quotes it is read as one string with these characters and the end of the input, after one
report for every unknown escape at the place of its backslash, and none else: without unknown escapes nothing
is reported.  So every text of one line is read back from its quoted form. -/
theorem ofText_stringLiteral :
    (∀ body value unknown, Writes 1 body value unknown →
      ofText (String.ofList (Literal.inQuotes body)) =
        (unknown.map fun (offset, c) => .problem (.unknownEscape c) ⟨1, 1 + offset⟩) ++
          [.token ⟨.string, String.ofList (Literal.inQuotes body), .string (String.ofList value), ⟨1, 1⟩⟩,
            .token ⟨.endOfInput, "", .nil, ⟨1, body.length + 3⟩⟩]) ∧
      ∀ text : String, '\n' ∉ text.toList → ∃ last,
        ofText (Value.quoted text) =
          [.token ⟨.string, Value.quoted text, .string text, ⟨1, 1⟩⟩, .token ⟨.endOfInput, "", .nil, last⟩] := by
  refine ⟨fun body value unknown h => ofText_of_writes h, fun text inLine => ?_⟩
  have quoted : Value.quoted text = String.ofList (Literal.inQuotes (Value.quotedChars text.toList)) := by
    simp [Value.quoted, Literal.inQuotes, ← String.toList_inj]
  rw [quoted, ofText_of_writes (.quotedChars 1 text.toList inLine), String.ofList_toList]
  exact ⟨_, rfl⟩

/-- A letter, an escaped quote and an unknown escape. -/
theorem ofText_stringLiteral_escapes :
    let body := ['a', '\\', '"', '\\', 'q']
    ofText (String.ofList (Literal.inQuotes body)) =
      [.problem (.unknownEscape 'q') ⟨1, 5⟩,
        .token ⟨.string, String.ofList (Literal.inQuotes body), .string (String.ofList ['a', '"', 'q']), ⟨1, 1⟩⟩,
        .token ⟨.endOfInput, "", .nil, ⟨1, 8⟩⟩] :=
  ofText_stringLiteral.1 ['a', '\\', '"', '\\', 'q'] ['a', '"', 'q'] [(4, 'q')]
    (.plain (by decide) (.escape (by decide) (.unknown (by decide) (by decide) .nil)))

end TokenStream

end FlowScript
