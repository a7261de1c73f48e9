import FlowScript.Proofs.ComparedGrammar
/-!
# The parser always goes on

However malformed the tokens are, every rule of the grammar keeps to the input, and what opens a level
takes a token if it is read at all.

Main statements: `parseTokens_progress`, by which every loop of the grammar halts, the end of the input is
never taken, and the whole input is read unless nesting goes too deep; and `parseTokens_plain`, by which the
program that is read has nothing noted in it.
-/

namespace FlowScript

open Parse (Always Onward Rounds ProceedsAt Goes)

open Parse.Proceeds

/-! ## Loops -/

namespace Level

/-- Whether all loops of the rules at a level come to their end. -/
structure Halts (input : Input) (level : Level) : Prop where
  topLevel : Parse.Halts input level.nextTopLevel
  statements : Parse.Halts input level.nextStatement
  members : Parse.Halts input level.nextMember
  methodSigs : Parse.Halts input level.nextMethodSig
  traits : Parse.Halts input (Parse.nextItem traitRef)
  params : Parse.Halts input (Parse.nextItem level.param)
  arguments : Parse.Halts input (Parse.nextItem level.expression)
  types : Parse.Halts input (Parse.nextItem level.type)
  questions : Parse.Halts input nextQuestion
  suffixes : Parse.Halts input level.suffix
  products : Parse.Halts input (chainStep productOperator? level.unary)
  sums : Parse.Halts input (chainStep sumOperator? level.product)
  comparisons : Parse.Halts input level.comparisonStep
  equalities : Parse.Halts input (chainStep equalityOperator? level.comparison)
  conjunctions : Parse.Halts input (chainStep andOperator? level.equality)
  disjunctions : Parse.Halts input (chainStep orOperator? level.conjunction)

variable {input : Input} {level : Level}

/-- One more statement of a program, on one input. -/
theorem Proceeds.nextTopLevel {input : View} (h : level.Proceeds input) :
    Rounds input PlainStatements level.nextTopLevel :=
  fun stmts _ => (Follows.nextTopLevel h stmts fun off => absurd off Bool.false_ne_true).proceeds

/-- A loop halts if its rounds keep to the input. -/
theorem halts_of_tracks {α : Type} {step : α → Parse (Option α)} {post : α → Prop}
    {scope : Comparison.Scope}
    (each : ∀ value, (Comparison.alone input).Tracks scope (Onward post value) (step value) (step value)) :
    Parse.Halts input step :=
  Rounds.halts fun value => (each value).proceeds

/-- Loops whose rounds keep to the input come to their end. -/
theorem Proceeds.halts (h : level.Proceeds input) : level.Halts input where
  topLevel := h.nextTopLevel.halts
  statements := halts_of_tracks h.nextStatement
  members := halts_of_tracks h.nextMember
  methodSigs := halts_of_tracks h.nextMethodSig
  traits := halts_of_tracks (Comparison.Tracks.nextItem Follows.traitRef)
  params := halts_of_tracks (Comparison.Tracks.nextItem h.param)
  arguments := halts_of_tracks (Comparison.Tracks.nextItem h.expression)
  types := halts_of_tracks (Comparison.Tracks.nextItem h.type)
  questions := halts_of_tracks Follows.nextQuestion
  suffixes := halts_of_tracks h.suffix
  products := halts_of_tracks (Follows.chainStep operators_product h.unary)
  sums := halts_of_tracks (Follows.chainStep operators_sum h.product)
  comparisons := halts_of_tracks h.comparisonStep
  equalities := halts_of_tracks (Follows.chainStep operators_equality h.comparison)
  conjunctions := halts_of_tracks (Follows.chainStep operators_and h.equality)
  disjunctions := halts_of_tracks (Follows.chainStep operators_or h.conjunction)

end Level

/-! ## Whole programs -/

/-- Whether a parse is interrupted only in the ways that `stops` allows. -/
def Parse.Interrupts {α : Type} (stops : Interrupt → Prop) (parse : Parse α) : Prop :=
  ∀ cur interrupt, (parse cur).1 = .error interrupt → stops interrupt

namespace Parse.Interrupts

variable {α β : Type} {stops : Interrupt → Prop} {parse : Parse α} {rest : α → Parse β}

theorem pure (value : α) : Interrupts stops (Pure.pure value : Parse α) := by
  rintro cur interrupt ⟨⟩

theorem bind (first : Interrupts stops parse) (second : ∀ value, Interrupts stops (rest value)) :
    Interrupts stops (parse >>= rest) := by
  intro cur interrupt run
  rw [bind_apply] at run
  rcases step : parse cur with ⟨outcome, after⟩
  rw [step] at run
  cases outcome with
  | error other =>
    cases run
    exact first cur _ (by rw [step])
  | ok value => exact second value after interrupt run

theorem peekAt (ahead : Nat) : Interrupts stops (Parse.peekAt ahead) := by
  rintro cur interrupt ⟨⟩

theorem modify (change : Cursor → Cursor) : Interrupts stops (modify change : Parse Unit) := by
  rintro cur interrupt ⟨⟩

theorem advance : Interrupts stops Parse.advance := by
  refine bind (peekAt 0) fun token => ?_
  split
  · exact bind (modify _) fun _ => pure _
  · exact pure _

theorem recoverStatement (start : Nat) (problem : SyntaxReport) :
    Interrupts stops (Parse.recoverStatement start problem) := by
  refine bind (modify _) fun _ => bind (by rintro cur interrupt ⟨⟩) fun cur => ?_
  refine bind (modify _) fun _ => bind (by rintro cur interrupt ⟨⟩) fun cur => ?_
  split
  · refine bind (peekAt 0) fun token => ?_
    split
    · exact bind advance fun _ => pure _
    · exact pure _
  · exact pure _

/-- After recovery only nesting that goes too deep is left. -/
theorem recovering {recover : Nat → SyntaxReport → Parse Unit}
    (h : ∀ start problem, Interrupts stops (recover start problem))
    (deep : ∀ report, stops (.tooDeep report)) : Interrupts stops (Parse.recovering recover parse) := by
  refine bind (by rintro cur interrupt ⟨⟩) fun start cur interrupt run => ?_
  rw [tryCatch_apply] at run
  rcases step : (some <$> parse) cur with ⟨outcome, after⟩
  rw [step] at run
  cases outcome with
  | ok value => cases run
  | error other =>
    cases other with
    | problem report =>
      exact bind (h start.consumed report) (fun _ => pure none) after interrupt run
    | tooDeep report =>
      cases run
      exact deep report

end Parse.Interrupts

namespace Level

variable {input : View} {level : Level} {cur : Cursor}

/-- Problems of statements are recovered from, so only nesting ends the statements of a program early. -/
theorem nextTopLevel_interrupts (level : Level) (stmts : Array Stmt) :
    Parse.Interrupts (fun interrupt => ∃ report, interrupt = .tooDeep report)
      (level.nextTopLevel stmts) := by
  have skips : Parse.Interrupts (fun interrupt => ∃ report, interrupt = .tooDeep report)
      Parse.skipTerminators := .modify _
  have next : Parse.Interrupts (fun interrupt => ∃ report, interrupt = .tooDeep report)
      (level.nextStatement stmts) := by
    refine .bind (.peekAt 0) fun token => ?_
    split
    · exact .pure _
    · exact .pure _
    · refine .bind (.recovering .recoverStatement fun report => ⟨report, rfl⟩) fun read => ?_
      refine .bind skips fun _ => ?_
      cases read <;> exact .pure _
  refine .bind (.peekAt 0) fun token => ?_
  split
  · exact .pure _
  · exact .bind .advance fun _ => .bind (.modify _) fun _ => .bind skips fun _ => .pure _
  · exact next

/-- Before a token that does not end a block there is one more statement, if only a malformed one. -/
theorem nextStatement_goesOn (statement : Parse.Proceeds input (Always Stmt.Plain) level.statement)
    {stmts : Array Stmt} (on : cur.Within input)
    (notEnd : (cur.tokenAt 0).kind ≠ .endOfInput) (notBrace : (cur.tokenAt 0).kind ≠ .rightBrace) :
    Goes input cur (level.nextStatement stmts) fun next _ => next ≠ none := by
  refine .peekAt ?_
  split
  · rename_i same
    exact absurd same notBrace
  · rename_i same
    exact absurd same notEnd
  · have read := (statement _).recoveringStatement notEnd notBrace _ on.peeked rfl
    refine read.bind fun read after on _ _ => ?_
    refine (skipTerminators _ after on rfl).bind fun _ last on _ _ => ?_
    cases read <;> exact .pure on nofun

/-- The statements of a program end only where the input does. -/
theorem nextTopLevel_leaves (statement : Parse.Proceeds input (Always Stmt.Plain) level.statement)
    (stmts : Array Stmt) (on : cur.Within input) :
    Goes input cur (level.nextTopLevel stmts) fun next after =>
      next = none → (cur.tokenAt 0).kind = .endOfInput ∧ after = cur.look 0 := by
  refine .peekAt ?_
  split
  · rename_i ends
    exact .pure on.peeked fun _ => ⟨ends, rfl⟩
  · rename_i brace
    have notEnd : (cur.tokenAt 0).kind ≠ .endOfInput := by simp [brace]
    refine (ProceedsAt.advance notEnd _ on.peeked rfl).bind fun _ after on _ _ => ?_
    refine (report rfl _ after on rfl).bind fun _ after on _ _ => ?_
    refine (skipTerminators _ after on rfl).bind fun _ after on _ _ => ?_
    exact .pure on nofun
  · rename_i notEnd notBrace
    exact (nextStatement_goesOn statement on.peeked notEnd notBrace).mono fun _ _ _ more none =>
      absurd none more

theorem topLevel_succ_apply (level : Level) (rounds : Nat) (stmts : Array Stmt) (cur : Cursor) :
    level.topLevel (rounds + 1) stmts cur =
      match level.nextTopLevel stmts cur with
      | (.ok (some next), after) => level.topLevel rounds next after
      | (.ok none, after) => (.ok stmts, after)
      | (.error (.tooDeep report), after) =>
        (.ok stmts, { after with reports := after.reports.push report })
      | (.error (.problem report), after) => (.error (.problem report), after) := by
  rw [topLevel, Parse.bind_apply, Parse.tryCatch_apply]
  rcases level.nextTopLevel stmts cur with ⟨(report | report) | (_ | next), after⟩ <;> rfl

/-- How the statements of a program are read: up to the end of the input, or up to nesting that goes too
deep, which is reported then. -/
theorem topLevel_run (h : level.Proceeds input) (rounds : Nat) (stmts : Array Stmt)
    (on : cur.Within input) (enough : input.before.length < rounds + cur.consumed) :
    ∃ outcome after, Parse.Loop level.nextTopLevel stmts cur (outcome, after) ∧
      after.Within input ∧
      match outcome with
      | .ok found =>
        (after.consumed = input.before.length ∧ after.demanded = input.before.length + 1) ∧
          level.topLevel rounds stmts cur = (.ok found, after)
      | .error (.tooDeep report) =>
        report.problem.isNesting = true ∧ ∃ found, level.topLevel rounds stmts cur =
          (.ok found, { after with reports := after.reports.push report })
      | .error (.problem _) => False := by
  -- a round that is not the last takes a token, so the rounds do not run out
  induction rounds generalizing stmts cur with
  | zero =>
    have taken := on.taken
    omega
  | succ rounds ih =>
    obtain ⟨onAfter, -, -, taking, genuine⟩ := h.nextTopLevel stmts _ cur on rfl
    have leaves := (nextTopLevel_leaves h.statement.proceeds stmts on).result
    have guarded := level.topLevel_succ_apply rounds stmts cur
    rcases run : level.nextTopLevel stmts cur with ⟨outcome, after⟩
    rw [run] at onAfter taking genuine leaves guarded
    cases outcome with
    | error interrupt =>
      obtain ⟨report, rfl⟩ := level.nextTopLevel_interrupts stmts cur interrupt
        (congrArg Prod.fst run)
      exact ⟨_, after, .stop run, onAfter, genuine _ rfl, stmts, guarded⟩
    | ok next =>
      cases next with
      | none =>
        obtain ⟨ends, rfl⟩ := leaves none rfl rfl
        have all := (on.kind_eq_end_iff on.taken).mp ends
        have seen : max cur.demanded (cur.consumed + 0 + 1) ≤ input.before.length + 1 := onAfter.seen
        refine ⟨_, _, .leave run, onAfter, ⟨all, ?_⟩, guarded⟩
        change max cur.demanded (cur.consumed + 0 + 1) = input.before.length + 1
        omega
      | some next =>
        have further : cur.consumed < after.consumed := (taking _ rfl).2 rfl
        have left : input.before.length < rounds + after.consumed := by omega
        obtain ⟨outcome, last, loop, onLast, rest⟩ := ih next onAfter left
        rw [guarded]
        exact ⟨outcome, last, .next run loop, onLast, rest⟩

/-- Whatever is reported, there is a program. -/
theorem Proceeds.topLevel_ok (h : level.Proceeds input) (rounds : Nat) (stmts : Array Stmt)
    (on : cur.Within input) (enough : input.before.length < rounds + cur.consumed) :
    ∃ found, (level.topLevel rounds stmts cur).1 = .ok found := by
  obtain ⟨(problem | report) | found, after, -, -, rest⟩ := topLevel_run h rounds stmts on enough
  · exact rest.elim
  · obtain ⟨-, found, run⟩ := rest
    exact ⟨found, by rw [run]⟩
  · exact ⟨found, by rw [rest.2]⟩

/-- The statements that are read are plain, however far reading comes. -/
theorem plain_topLevel (h : level.Proceeds input) (rounds : Nat) {stmts found : Array Stmt}
    (on : cur.Within input) (plain : PlainStatements stmts)
    (run : (level.topLevel rounds stmts cur).1 = .ok found) : PlainStatements found := by
  induction rounds generalizing stmts cur with
  | zero =>
    cases run
    exact plain
  | succ rounds ih =>
    obtain ⟨onAfter, -, -, keeps, -⟩ := h.nextTopLevel stmts _ cur on rfl
    rw [topLevel_succ_apply] at run
    rcases step : level.nextTopLevel stmts cur with ⟨(problem | report) | (_ | next), after⟩ <;>
      rw [step] at run keeps onAfter
    · cases run
    · cases run
      exact plain
    · cases run
      exact plain
    · exact ih onAfter ((keeps _ rfl).1 next rfl plain) run

end Level

/-- The cursor before the first statement of a program. -/
def Cursor.start (tokens : List Token) : Cursor := (Parse.skipTerminators { rest := tokens }).2

theorem Cursor.within_first (view : View) : Cursor.Within view { rest := view.shown } :=
  ⟨rfl, Nat.zero_le _, Nat.zero_le _, by simp⟩

theorem Cursor.within_start (view : View) : (Cursor.start view.shown).Within view :=
  (skipTerminators _ { rest := view.shown } (Cursor.within_first view) rfl).on

/-- There are as many rounds as it takes to read an input from any place. -/
theorem View.enough (view : View) (count : Nat) : view.before.length < view.shown.length + 1 + count :=
  Nat.lt_of_lt_of_le (Cursor.within_first view).enough (Nat.add_le_add_left (Nat.zero_le count) _)

/-- What is parsed is read off the last cursor. -/
theorem parseTokens_eq {maxDepth stack : Nat} {tokens : List Token} {found : Array Stmt} {last : Cursor}
    (run : (Level.at maxDepth stack maxDepth).topLevel (tokens.length + 1) #[] (Cursor.start tokens) =
      (.ok found, last)) :
    parseTokens maxDepth tokens stack = ⟨found.toList, last.reports.toList, last.demanded⟩ := by
  have skips : Parse.skipTerminators { rest := tokens } = (.ok (), Cursor.start tokens) := rfl
  simp only [parseTokens, ExceptT.run]
  rw [Parse.bind_apply, skips]
  dsimp only
  rw [run]

/-- How a program is read from what is shown of an input. -/
theorem parseTokens_run (maxDepth stack : Nat) (view : View) :
    ∃ outcome cur,
      Parse.Loop (Level.at maxDepth stack maxDepth).nextTopLevel #[] (Cursor.start view.shown) (outcome, cur) ∧
      cur.Within view ∧ (parseTokens maxDepth view.shown stack).demanded = cur.demanded ∧
      match outcome with
      | .ok stmts =>
        (cur.consumed = view.before.length ∧ cur.demanded = view.before.length + 1) ∧
          (parseTokens maxDepth view.shown stack).program = stmts.toList ∧
          (parseTokens maxDepth view.shown stack).reports = cur.reports.toList
      | .error (.tooDeep report) =>
        report.problem.isNesting = true ∧
          (parseTokens maxDepth view.shown stack).reports = cur.reports.toList ++ [report]
      | .error (.problem _) => False := by
  obtain ⟨outcome, cur, loop, on, rest⟩ := Level.topLevel_run (Level.proceeds view maxDepth stack maxDepth)
    (view.shown.length + 1) #[] (Cursor.within_start view) (view.enough _)
  refine ⟨outcome, cur, loop, on, ?_⟩
  cases outcome with
  | ok stmts =>
    obtain ⟨all, run⟩ := rest
    rw [parseTokens_eq run]
    exact ⟨rfl, all, rfl, rfl⟩
  | error interrupt =>
    cases interrupt with
    | problem report => exact rest.elim
    | tooDeep report =>
      obtain ⟨deep, found, run⟩ := rest
      rw [parseTokens_eq run]
      exact ⟨rfl, deep, Array.toList_push⟩

/-- Any tokens are shown of some input. -/
theorem View.exists_shown (tokens : List Token) : ∃ view : View, view.shown = tokens := by
  induction tokens with
  | nil => exact ⟨⟨⟨[], Cursor.missing, [], nofun, rfl⟩, [], .inr ⟨rfl, rfl⟩⟩, rfl⟩
  | cons token rest ih =>
    by_cases ends : token.kind = .endOfInput
    · exact ⟨Input.view ⟨[], token, rest, nofun, ends⟩, rfl⟩
    · obtain ⟨view, rfl⟩ := ih
      have proper : ∀ other ∈ token :: view.before, other.kind ≠ .endOfInput :=
        List.forall_mem_cons.mpr ⟨ends, view.proper⟩
      refine ⟨⟨⟨token :: view.before, view.last, view.beyond, proper, view.ends⟩, token :: view.shown, ?_⟩, rfl⟩
      refine view.shows.imp (congrArg (token :: ·)) fun shown => ?_
      exact ⟨congrArg (token :: ·) shown.1, shown.2⟩

/-- Whatever the tokens are, the program that is read from them is plain. -/
theorem parseTokens_plain (maxDepth stack : Nat) (tokens : List Token) :
    (parseTokens maxDepth tokens stack).program.Plain := by
  obtain ⟨view, rfl⟩ := View.exists_shown tokens
  have level := Level.proceeds view maxDepth stack maxDepth
  have on := Cursor.within_start view
  obtain ⟨found, run⟩ := level.topLevel_ok (view.shown.length + 1) #[] on (view.enough _)
  rw [parseTokens_eq (Prod.ext run rfl)]
  exact Stmt.eachOf_iff.mpr (Level.plain_topLevel level _ on (by nofun) run)

theorem parseText_plain {file : String} {maxDepth stack : Nat} {src : String} {parsed : ParsedText}
    (h : parseText file maxDepth src stack = .ok parsed) : parsed.program.Plain := by
  unfold parseText at h
  dsimp only at h
  split at h
  · cases h
  · cases h
    exact parseTokens_plain _ _ _

/-- **The parser always finishes and goes on.** Take any list of tokens in which the input ends, however
malformed.  At every level each loop of the grammar comes to its end without a limit on its rounds, and
each round of it takes a token or leaves the loop, recovery included.  So the statements of the program
are read by a loop that ends: it takes nothing beyond the end of the input and looks at nothing beyond it,
and unless nesting that goes too deep ended it, all tokens before the end are taken. -/
theorem parseTokens_progress (maxDepth stack : Nat) (input : Input) :
    (∀ left depth, (Level.at maxDepth left depth).Halts input) ∧
      ∃ start outcome cursor,
        Parse.skipTerminators { rest := input.tokens } = (.ok (), start) ∧
        Parse.Loop (Level.at maxDepth stack maxDepth).nextTopLevel #[] start (outcome, cursor) ∧
        cursor.On input ∧
        (parseTokens maxDepth input.tokens stack).demanded = cursor.demanded ∧
        match outcome with
        | .ok statements =>
          cursor.consumed = input.before.length ∧
            (parseTokens maxDepth input.tokens stack).program = statements.toList ∧
            (parseTokens maxDepth input.tokens stack).reports = cursor.reports.toList
        | .error (.tooDeep report) =>
          report.problem.isNesting = true ∧
            (parseTokens maxDepth input.tokens stack).reports = cursor.reports.toList ++ [report]
        | .error (.problem _) => False := by
  obtain ⟨outcome, cursor, loop, on, demanded, rest⟩ := parseTokens_run maxDepth stack input
  refine ⟨fun left depth => (Level.proceeds input maxDepth left depth).halts, Cursor.start input.tokens, outcome,
    cursor, rfl, loop, Cursor.within_view_iff.mp on, demanded, ?_⟩
  rcases outcome with (report | report) | statements
  · exact rest
  · exact rest
  · exact ⟨rest.1.1, rest.2⟩

end FlowScript
