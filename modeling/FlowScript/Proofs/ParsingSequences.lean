import FlowScript.Proofs.ComparedPrograms
/-!
# Programs one after another

The tokens of two programs with a terminator between them are read as the one program and then the other, if
the first one is well formed.  The first program is compared with the whole, which goes on behind its end:
`Level.Compared.topLevel_seam`.  The second one is compared with the rest of the whole.

Main statement: `parseTokens_join`.
-/

namespace FlowScript

open Parse (Loop)

namespace Level

variable {sides : Comparison} {left right : Level} {one two : Cursor}

/-- Reports on the left are not taken back. -/
theorem Compared.tells_topLevel (h : Compared sides left right) (rounds : Nat) (stmts : Array Stmt)
    {cur : Cursor} (on : cur.Within sides.left) (told : cur.reports ≠ #[]) :
    (left.topLevel rounds stmts cur).2.reports ≠ #[] := by
  induction rounds generalizing stmts cur with
  | zero => exact told
  | succ rounds ih =>
    rw [topLevel_succ_apply]
    by_cases ends : (cur.tokenAt 0).kind = .endOfInput
    · rw [nextTopLevel_of_end ends]
      exact told
    · obtain ⟨onAfter, -, kept, -, -⟩ := (h.nextTopLevel stmts fun _ => ends).proceeds cur on rfl
      have kept := kept told
      rcases run : left.nextTopLevel stmts cur with ⟨(problem | report) | (_ | next), after⟩ <;>
        rw [run] at kept onAfter
      · exact kept
      · simp
      · exact kept
      · exact ih next onAfter kept

/-- Where the left input breaks off and nothing was reported, the right side has read as much and goes on
with what follows. -/
theorem Compared.topLevel_seam (h : Compared sides left right) (off : sides.breaksOff = true)
    (rounds rounds' : Nat) (stmts : Array Stmt)
    (settled : sides.Aligned one two ∧ ¬sides.Exhausted one ∨
      sides.Past one two ∧ Comparison.unterminated two.rest = two.rest)
    (enough : sides.left.before.length < rounds + one.consumed)
    (enough' : sides.right.before.length < rounds' + two.consumed)
    (silent : (left.topLevel rounds stmts one).2.reports = #[]) :
    ∃ found further mid, (left.topLevel rounds stmts one).1 = .ok found ∧
      right.topLevel rounds' stmts two = right.topLevel further found mid ∧
      mid.Within sides.right ∧ mid.rest = Comparison.unterminated sides.tail ∧
      mid.reports = #[] ∧ sides.right.before.length < further + mid.consumed := by
  induction rounds generalizing rounds' stmts one two with
  | zero =>
    have on : one.Within sides.left := settled.elim (·.1.onLeft) (·.1.exhausted.on)
    have taken : one.consumed ≤ sides.left.before.length := on.taken
    omega
  | succ rounds ih =>
    rw [topLevel_succ_apply] at silent ⊢
    -- the left side has more to read and the sides are aligned, or the right side is at the seam
    rcases settled with ⟨aligned, more⟩ | ⟨past, all⟩
    · have notEnd : (one.tokenAt 0).kind ≠ .endOfInput := fun ends => more (aligned.exhausted off ends)
      have tracks := h.nextTopLevel stmts fun _ => notEnd
      obtain ⟨onAfter, -, -, taking, -⟩ := tracks.proceeds one aligned.onLeft rfl
      obtain ⟨-, -, -, taking', -⟩ := h.onRight.nextTopLevel stmts _ two aligned.onRight rfl
      have leaves := (nextTopLevel_leaves h.statement.proceeds stmts aligned.onLeft).result
      have tracked := tracks.runs one two aligned rfl
      rcases run : left.nextTopLevel stmts one with ⟨(problem | report) | (_ | next), after⟩ <;>
        rw [run] at silent onAfter taking leaves tracked
      · obtain ⟨report, ⟨⟩⟩ := left.nextTopLevel_interrupts stmts one _ (congrArg Prod.fst run)
      · exact absurd silent (by simp)
      · exact absurd (leaves none rfl rfl).1 notEnd
      · rcases tracked with (⟨-, ⟨interrupt, ⟨⟩⟩ | told⟩ | ⟨-, report, ⟨⟩⟩) | ⟨same, settled⟩
        · -- the left side has run into the end of its input, which is reported
          exact absurd silent (h.tells_topLevel rounds next onAfter told)
        cases rounds' with
        | zero =>
          have taken : two.consumed ≤ sides.right.before.length := aligned.onRight.taken
          omega
        | succ rounds' =>
          rcases other : right.nextTopLevel stmts two with ⟨outcome, after'⟩
          rw [other] at same settled taking'
          cases same
          have further : one.consumed < after.consumed := (taking _ rfl).2 rfl
          have further' : two.consumed < after'.consumed := (taking' _ rfl).2 rfl
          rw [topLevel_succ_apply, other]
          exact ih rounds' next settled (by omega) (by omega) silent
    · rw [nextTopLevel_of_end past.exhausted.atEnd]
      exact ⟨stmts, rounds', two, rfl, rfl, past.onRight, all.symm.trans past.rest, past.silentRight,
        enough'⟩

end Level

/-! ## Two programs -/

/-- Two inputs with a terminator between them. -/
def Input.join (first : Input) (mark : Token) (stands : mark.kind = .terminator) (second : Input) :
    Input where
  before := first.before ++ mark :: second.before
  last := second.last
  beyond := second.beyond
  proper := by
    intro token mem
    rcases List.mem_append.mp mem with mem | mem
    · exact first.proper token mem
    rcases List.mem_cons.mp mem with rfl | mem
    · rw [stands]
      nofun
    · exact second.proper token mem
  ends := second.ends

namespace Comparison

variable (first second : Input) {mark : Token} (stands : mark.kind = .terminator)

theorem tokens_join : (first.join mark stands second).tokens = first.before ++ mark :: second.tokens := by
  simp [Input.tokens, Input.join]

/-- The first of two inputs, and both of them. -/
def seam (noElse : NoElse (second.before.map Token.kind)) : Comparison where
  left := first
  right := first.join mark stands second
  shift := 0
  tail := mark :: second.tokens
  breaksOff := true
  tighter := false
  inFront := Nat.zero_le _
  common := tokens_join first second stands
  whole := nofun
  goesOn _ := by
    refine ⟨stands, ?_⟩
    have ends : nextKind (((second.last :: second.beyond).map Token.kind).dropWhile
        fun kind => kind = .terminator) = .endOfInput := by
      simp [second.ends]
    rw [NoElse, List.map_cons, stands, List.dropWhile_cons_of_pos (by simp), Input.tokens, List.map_append,
      List.dropWhile_append]
    split
    · rw [ends]
      nofun
    · rename_i some
      rw [NoElse] at noElse
      cases rest : (second.before.map Token.kind).dropWhile fun kind => kind = .terminator with
      | nil => simp [rest] at some
      | cons kind kinds =>
        rw [rest] at noElse
        exact noElse

theorem drop_tokens_join :
    (first.join mark stands second).tokens.drop (first.before.length + 1) = second.tokens := by
  rw [tokens_join, ← List.drop_drop, List.drop_left, List.drop_one, List.tail_cons]

theorem length_join : (first.join mark stands second).before.length =
    first.before.length + (second.before.length + 1) := by
  rw [Input.join, List.length_append, List.length_cons]

theorem lt_length_join : first.before.length + 1 ≤ (first.join mark stands second).before.length := by
  rw [length_join]
  omega

/-- The second of two inputs, and both of them. -/
def behind : Comparison :=
  .endingAlike second (first.join mark stands second) (first.before.length + 1) false
    (lt_length_join first second stands) (drop_tokens_join first second stands)

variable {first second}

/-- Both inputs start in the same way. -/
theorem settled_start (noElse : NoElse (second.before.map Token.kind)) :
    let sides := seam first second stands noElse
    sides.Aligned (Cursor.start first.tokens) (Cursor.start (first.join mark stands second).tokens) ∧
        ¬sides.Exhausted (Cursor.start first.tokens) ∨
      sides.Past (Cursor.start first.tokens) (Cursor.start (first.join mark stands second).tokens) ∧
        unterminated (Cursor.start (first.join mark stands second).tokens).rest =
          (Cursor.start (first.join mark stands second).tokens).rest := by
  intro sides
  have aligned : sides.Aligned { rest := first.tokens } { rest := (first.join mark stands second).tokens } :=
    ⟨Cursor.within_first _, Cursor.within_first _, rfl, rfl, fun _ => rfl⟩
  rcases (Tracks.skipTerminators _).runs _ _ aligned rfl with excused | landed
  · rcases excused with ⟨-, ⟨interrupt, ⟨⟩⟩ | told⟩ | ⟨-, report, ⟨⟩⟩
    exact absurd rfl told
  · exact landed.2

/-- What is left of both inputs after the first one is what the second one starts with. -/
theorem aligned_behind {mid : Cursor} (on : mid.Within (first.join mark stands second))
    (rest : mid.rest = unterminated (mark :: second.tokens)) (silent : mid.reports = #[]) :
    (behind first second stands).Aligned (Cursor.start second.tokens) mid := by
  have onStart := Cursor.within_start second
  have start : (Cursor.start second.tokens).rest = unterminated second.tokens :=
    rest_skip_leading { rest := second.tokens } _
  have same : mid.rest = (Cursor.start second.tokens).rest := by
    rw [rest, start, unterminated, List.dropWhile_cons_of_pos (by simp [stands])]
    rfl
  refine ⟨onStart, on, ?_, silent, fun off => absurd off Bool.false_ne_true⟩
  -- as many tokens are left on both sides
  have size := congrArg List.length same
  have taken : mid.consumed ≤ (first.join mark stands second).before.length := on.taken
  have taken' : (Cursor.start second.tokens).consumed ≤ second.before.length := onStart.taken
  rw [on.rest, onStart.rest, Input.shown_view, Input.shown_view, tokens_join, List.length_drop, List.length_drop, List.length_append,
    List.length_cons] at size
  have whole := length_join first second stands
  have more : second.before.length < second.tokens.length := by simp [Input.tokens]
  change mid.consumed = (Cursor.start second.tokens).consumed + (first.before.length + 1)
  omega

end Comparison

/-- **Parsing goes along with joining programs.**  Take two lists of tokens before an end of the input, the
first of which parses without a report, while nothing is asked of the second one except that its first token
that is no terminator is no `else`.  With a terminator between them they parse as the statements of the first
and then those of the second, with the reports of the second, whatever the limit on nesting. -/
theorem parseTokens_join (maxDepth stack : Nat) (first second : Input) (mark : Token)
    (stands : mark.kind = .terminator) (clean : (parseTokens maxDepth first.tokens stack).reports = [])
    (noElse : NoElse (second.before.map Token.kind)) :
    (parseTokens maxDepth (first.before ++ mark :: second.tokens) stack).program =
        (parseTokens maxDepth first.tokens stack).program ++ (parseTokens maxDepth second.tokens stack).program ∧
      (parseTokens maxDepth (first.before ++ mark :: second.tokens) stack).reports =
        (parseTokens maxDepth second.tokens stack).reports := by
  rw [← Comparison.tokens_join first second stands]
  have levels (sides : Comparison) :
      Level.Compared sides (Level.at maxDepth stack maxDepth) (Level.at maxDepth stack maxDepth) :=
    Level.compared (.inr ⟨rfl, rfl, rfl⟩)
  -- the first program, with nothing reported
  obtain ⟨statements, read⟩ := (Level.proceeds first maxDepth stack maxDepth).topLevel_ok
    (first.tokens.length + 1) #[] (Cursor.within_start first) (first.view.enough _)
  rcases run : (Level.at maxDepth stack maxDepth).topLevel (first.tokens.length + 1) #[]
    (Cursor.start first.tokens) with ⟨outcome, last⟩
  rw [run] at read
  cases read
  rw [parseTokens_eq run] at clean ⊢
  have silent : last.reports = #[] := Array.toList_inj.mp clean
  -- both programs, up to where the first one ends
  obtain ⟨found, further, middle, same, goesOn, on, rest, none, enough⟩ :=
    (levels (Comparison.seam first second stands noElse)).topLevel_seam rfl (first.tokens.length + 1)
      ((first.join mark stands second).tokens.length + 1) #[] (Comparison.settled_start stands noElse)
      (first.view.enough _) ((first.join mark stands second).view.enough _) (by rw [run]; exact silent)
  rw [run] at same
  cases same
  -- the second program, and both from there on
  obtain ⟨outcome, cursor, -, follows⟩ :=
    (levels (Comparison.behind first second stands)).topLevel rfl (second.tokens.length + 1) further
      statements #[] (Comparison.aligned_behind stands on rest none) (second.view.enough _) enough
  rw [Array.append_empty, ← goesOn] at follows
  rcases run₂ : (Level.at maxDepth stack maxDepth).topLevel (second.tokens.length + 1) #[]
    (Cursor.start second.tokens) with ⟨outcome₂, last₂⟩
  rcases run₃ : (Level.at maxDepth stack maxDepth).topLevel ((first.join mark stands second).tokens.length + 1) #[]
    (Cursor.start (first.join mark stands second).tokens) with ⟨outcome₃, last₃⟩
  have summary : ∃ found, outcome₂ = .ok found ∧ outcome₃ = .ok (statements ++ found) ∧
      last₃.reports = last₂.reports := by
    rcases outcome with (problem | report) | found
    · exact follows.elim
    · obtain ⟨found, other, left, right, -, same⟩ := follows.found
      obtain ⟨rfl, reports⟩ := same rfl
      rw [run₂] at left reports
      rw [run₃] at right reports
      exact ⟨found, left, right, reports⟩
    · obtain ⟨left, right, aligned, -, -⟩ := follows
      rw [run₂] at left aligned
      rw [run₃] at right aligned
      exact ⟨found, left, right, aligned.reports⟩
  obtain ⟨found, rfl, rfl, reports⟩ := summary
  rw [parseTokens_eq run₂, parseTokens_eq run₃]
  exact ⟨Array.toList_append, congrArg Array.toList reports⟩

/-- A name, and a closing brace before a name, where the second program is reported. -/
theorem parseTokens_join_brace :
    let token (kind : TokenKind) : Token := ⟨kind, "x", .nil, ⟨1, 1⟩⟩
    let first : Input := ⟨[token .identifier], token .endOfInput, [], by decide, rfl⟩
    let second : Input := ⟨[token .rightBrace, token .identifier], token .endOfInput, [], by decide, rfl⟩
    (parseTokens 1 first.tokens).reports = [] ∧ (parseTokens 1 second.tokens).reports ≠ [] ∧
      (parseTokens 1 (first.before ++ token .terminator :: second.tokens)).program =
        (parseTokens 1 first.tokens).program ++ (parseTokens 1 second.tokens).program := by
  intro token first second
  have clean : (parseTokens 1 first.tokens).reports = [] := rfl
  have noElse : NoElse (second.before.map Token.kind) := by rw [NoElse]; decide
  exact ⟨clean, nofun, (parseTokens_join 1 parserStack first second (token .terminator) rfl clean noElse).1⟩

end FlowScript
