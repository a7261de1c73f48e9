import FlowScript.Token.Terminator
import Mathlib.Data.List.Basic
import Mathlib.Data.List.Induction
/-!
# Which newlines end statements

Terminators are placed in one pass that keeps the number of open parentheses and whether a statement can end
where it is.  A newline that is dropped leaves both as they are, and so does a malformed piece.

The reference rule looks at the whole text before a newline instead.  The two agree because what is kept is
what the text before shows, as long as no parenthesis is open: `Recalls`.  Within parentheses the second part
may be out of date, but it is set anew by the parenthesis that closes them.

Main statement: `placeTerminators_rule`.
-/

namespace FlowScript

/-! ## The reference rule -/

/-- The number of parentheses that are open after some lexemes. Closing ones that close nothing do not
count. -/
def openParens (before : List Lexeme) : Nat :=
  before.foldl (fun count lexeme =>
    if lexeme.kind = .token .leftParen then count + 1
    else if lexeme.kind = .token .rightParen then count - 1
    else count) 0

/-- Whether the last of some lexemes that is neither an invalid character nor an open comment can end a
statement. -/
def canEndAfter (before : List Lexeme) : Bool :=
  (before.reverse.find? fun lexeme => lexeme.kind ≠ .invalid ∧ lexeme.kind ≠ .openComment).any
    fun lexeme => lexeme.kind.canEndStatement

/-- What becomes of a lexeme after others. -/
def Lexeme.placed (lexeme : Lexeme) (before : List Lexeme) : Option Lexeme :=
  if lexeme.kind = .semicolon ∨
      lexeme.kind = .newline ∧ openParens before = 0 ∧ canEndAfter before = true then
    some lexeme.toTerminator
  else if lexeme.kind = .newline then none
  else some lexeme

/-- What becomes of each lexeme after those before it. -/
def placedByRule (raw : List Lexeme) : List Lexeme :=
  raw.zipIdx.filterMap fun (lexeme, index) => lexeme.placed (raw.take index)

theorem openParens_concat (before : List Lexeme) (lexeme : Lexeme) :
    openParens (before ++ [lexeme]) = lexeme.kind.parenDepth (openParens before) := by
  rw [openParens, List.foldl_append, ← openParens, List.foldl_cons, List.foldl_nil]
  cases lexeme.kind with
  | token kind => cases kind <;> rfl
  | _ => rfl

theorem canEndAfter_concat (before : List Lexeme) (lexeme : Lexeme) :
    canEndAfter (before ++ [lexeme]) =
      if lexeme.kind.isTransparent then canEndAfter before else lexeme.kind.canEndStatement := by
  rw [canEndAfter, List.reverse_append, List.reverse_singleton, List.singleton_append, List.find?_cons]
  cases kind : lexeme.kind <;> simp [LexemeKind.isTransparent, canEndAfter, kind]

theorem placedByRule_concat (raw : List Lexeme) (lexeme : Lexeme) :
    placedByRule (raw ++ [lexeme]) = placedByRule raw ++ (lexeme.placed raw).toList := by
  have earlier : raw.zipIdx.filterMap (fun (other, index) => other.placed ((raw ++ [lexeme]).take index)) =
      placedByRule raw := by
    refine List.filterMap_congr fun (other, index) mem => ?_
    have inside : index ≤ raw.length := Nat.le_of_lt (List.snd_lt_of_mem_zipIdx mem)
    simp only [List.take_append_of_le_length inside]
  rw [placedByRule, List.zipIdx_append, List.filterMap_append, earlier]
  cases placed : lexeme.placed raw <;> simp [placed]

/-! ## The pass -/

/-- Whether what the pass keeps is what the lexemes before show. -/
structure Recalls (before : List Lexeme) (depth : Nat) (ends : Bool) : Prop where
  count : depth = openParens before
  last : depth = 0 → ends = canEndAfter before

namespace Recalls

variable {before : List Lexeme} {depth : Nat} {ends : Bool}

/-- One step of the pass goes by the rule. -/
theorem step (h : Recalls before depth ends) (lexeme : Lexeme) : ∃ depth' ends',
    Recalls (before ++ [lexeme]) depth' ends' ∧ ∀ rest, placeTerminators depth ends (lexeme :: rest) =
      (lexeme.placed before).toList ++ placeTerminators depth' ends' rest := by
  -- a newline or a semicolon opens no parenthesis, and no statement can end right after it
  have keep (flag : Bool) (kind : lexeme.kind = .semicolon ∨ lexeme.kind = .newline)
      (off : depth = 0 → flag = false) : Recalls (before ++ [lexeme]) depth flag := by
    refine ⟨?_, fun closed => ?_⟩
    · rw [openParens_concat, h.count]
      rcases kind with kind | kind <;> rw [kind] <;> rfl
    · rw [canEndAfter_concat, off closed]
      rcases kind with kind | kind <;> rw [kind] <;> rfl
  by_cases isNewline : lexeme.kind = .newline
  · -- both sides ask the same of a newline, since the rule asks only where no parenthesis is open
    have same : openParens before = 0 ∧ canEndAfter before = true ↔ depth = 0 ∧ ends = true := by
      rw [← h.count]
      exact and_congr_right fun closed => by rw [h.last closed]
    by_cases ending : depth = 0 ∧ ends = true
    · refine ⟨depth, false, keep false (.inr isNewline) fun _ => rfl, fun rest => ?_⟩
      simp [placeTerminators, Lexeme.placed, isNewline, same, ending]
    · -- within parentheses the flag goes stale, but a parenthesis comes before it is asked for
      have off (closed : depth = 0) : ends = false := Bool.eq_false_iff.mpr fun on => ending ⟨closed, on⟩
      refine ⟨depth, ends, keep ends (.inr isNewline) off, fun rest => ?_⟩
      simp [placeTerminators, Lexeme.placed, isNewline, same, ending]
  by_cases isSemicolon : lexeme.kind = .semicolon
  · refine ⟨depth, false, keep false (.inl isSemicolon) fun _ => rfl, fun rest => ?_⟩
    simp [placeTerminators, Lexeme.placed, isSemicolon]
  have placed : lexeme.placed before = some lexeme := by simp [Lexeme.placed, isNewline, isSemicolon]
  rw [placed]
  by_cases transparent : lexeme.kind.isTransparent = true
  · -- the rule passes over what is transparent, and so does the pass
    refine ⟨depth, ends, ⟨?_, fun closed => ?_⟩, fun rest => ?_⟩
    · rw [openParens_concat, h.count]
      cases kind : lexeme.kind <;> simp_all [LexemeKind.isTransparent, LexemeKind.parenDepth]
    · rw [canEndAfter_concat, if_pos transparent, h.last closed]
    · rw [placeTerminators]
      split <;> simp_all
  · refine ⟨lexeme.kind.parenDepth depth, lexeme.kind.canEndStatement, ⟨?_, fun _ => ?_⟩, fun rest => ?_⟩
    · rw [openParens_concat, h.count]
    · rw [canEndAfter_concat, if_neg transparent]
    · rw [placeTerminators]
      split <;> simp_all

end Recalls

/-- The pass goes by the rule, and what it keeps afterwards is what the lexemes show. -/
theorem recalls_placeTerminators (before : List Lexeme) : ∃ depth ends, Recalls before depth ends ∧
    ∀ rest, placeTerminators 0 false (before ++ rest) =
      placedByRule before ++ placeTerminators depth ends rest := by
  induction before using List.reverseRecOn with
  | nil => exact ⟨0, false, ⟨rfl, fun _ => rfl⟩, fun rest => rfl⟩
  | append_singleton before lexeme ih =>
    obtain ⟨depth, ends, recalls, run⟩ := ih
    obtain ⟨depth', ends', recalls', next⟩ := recalls.step lexeme
    refine ⟨depth', ends', recalls', fun rest => ?_⟩
    rw [List.append_assoc, List.singleton_append, run, next, placedByRule_concat, List.append_assoc]

/-- Whether a newline after some lexemes is one too many: it is the first of all, it stands within
parentheses, or right behind a newline or a semicolon. -/
def ExtraAfter (before : List Lexeme) : Prop :=
  before = [] ∨ openParens before ≠ 0 ∨
    ∃ earlier last, before = earlier ++ [last] ∧ (last.kind = .newline ∨ last.kind = .semicolon)

theorem ExtraAfter.dropped {before : List Lexeme} (extra : ExtraAfter before) {depth : Nat} {ends : Bool}
    (recalls : Recalls before depth ends) : ¬(depth = 0 ∧ ends = true) := by
  rintro ⟨closed, ending⟩
  rw [recalls.last closed] at ending
  rcases extra with rfl | opened | ⟨earlier, last, rfl, kind⟩
  · cases ending
  · exact opened (recalls.count.symm.trans closed)
  · rw [canEndAfter_concat] at ending
    rcases kind with kind | kind <;> rw [kind] at ending <;> cases ending

/-- **Terminators are placed by rule.**  Take any list of lexemes.  Every semicolon becomes a terminator, and
so does every newline before which no parenthesis is open and the nearest lexeme that is neither an invalid
character nor an open comment can end a statement; every other newline is dropped, and all else is kept in
order.  So a newline that is put in at the start, within parentheses or right behind a newline or a semicolon
changes nothing, and one that is put in right before a newline changes no kind: at most, the terminator stands
at the first of the two. -/
theorem placeTerminators_rule (raw : List Lexeme) :
    placeTerminators 0 false raw = placedByRule raw ∧
      ∀ before after newline, raw = before ++ after → newline.kind = .newline →
        (ExtraAfter before →
          placeTerminators 0 false (before ++ newline :: after) = placeTerminators 0 false raw) ∧
        (∀ next rest, after = next :: rest → next.kind = .newline →
          (placeTerminators 0 false (before ++ newline :: after)).map Lexeme.kind =
            (placeTerminators 0 false raw).map Lexeme.kind) := by
  refine ⟨?_, ?_⟩
  · obtain ⟨depth, ends, -, run⟩ := recalls_placeTerminators raw
    simpa [placeTerminators] using run []
  rintro before after newline rfl kind
  obtain ⟨depth, ends, recalls, run⟩ := recalls_placeTerminators before
  rw [run, run]
  refine ⟨fun extra => ?_, ?_⟩
  · have dropped := extra.dropped recalls
    rw [placeTerminators]
    simp [kind, dropped]
  · rintro next rest rfl also
    by_cases ending : depth = 0 ∧ ends = true <;> simp [placeTerminators, kind, also, ending, Lexeme.toTerminator]

/-- A second newline after a name. -/
theorem placeTerminators_rule_name :
    let lexeme (kind : LexemeKind) : Lexeme := ⟨kind, [], ⟨1, 1⟩, 0⟩
    let before := [lexeme (.token .identifier), lexeme .newline]
    placeTerminators 0 false (before ++ lexeme .newline :: []) = placeTerminators 0 false before :=
  ((placeTerminators_rule _).2 _ [] _ (List.append_nil _).symm rfl).1 (.inr (.inr ⟨[_], _, rfl, .inl rfl⟩))

/-- A newline right before a semicolon is not always one too many: after a name it is a terminator of its
own. -/
theorem placeTerminators_newline_semicolon :
    let name : Lexeme := ⟨.token .identifier, ['x'], ⟨1, 1⟩, 0⟩
    let newline : Lexeme := ⟨.newline, ['\n'], ⟨1, 2⟩, 1⟩
    let semicolon : Lexeme := ⟨.semicolon, [';'], ⟨2, 1⟩, 2⟩
    placeTerminators 0 false [name, newline, semicolon] ≠ placeTerminators 0 false [name, semicolon] := by
  decide

end FlowScript
