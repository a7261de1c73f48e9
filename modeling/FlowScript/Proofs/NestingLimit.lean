import FlowScript.Proofs.ComparedPrograms
/-!
# The limit on nesting only cuts off

Parsing with a tighter limit on nesting goes along with parsing with a wider one, statement by statement,
until nesting goes too deep for the tighter one or uses up the stack.  That is reported once and ends the
program there.

Main statement: `parseTokens_limit`.
-/

namespace FlowScript

open Parse (Loop)

/-- A loop has one outcome. -/
theorem Parse.Loop.unique {α : Type} {step : α → Parse (Option α)} {value : α} {cur : Cursor}
    {first second : Except Interrupt α × Cursor} (one : Loop step value cur first)
    (two : Loop step value cur second) : first = second := by
  induction one with
  | leave run =>
    cases two with
    | leave other =>
      cases run.symm.trans other
      rfl
    | stop other => cases run.symm.trans other
    | next other => cases run.symm.trans other
  | stop run =>
    cases two with
    | leave other => cases run.symm.trans other
    | stop other =>
      cases run.symm.trans other
      rfl
    | next other => cases run.symm.trans other
  | next run _ ih =>
    cases two with
    | leave other => cases run.symm.trans other
    | stop other => cases run.symm.trans other
    | next other rest =>
      cases run.symm.trans other
      exact ih rest

/-- One input on both sides, with the tighter limit on the left. -/
def Comparison.narrowing (input : Input) : Comparison :=
  .endingAlike input input 0 true (Nat.zero_le _) rfl

/-- Whether the statements of a program nest deeper than a limit, or use up the stack: the loop that reads them
is interrupted by nesting that goes too deep. -/
def NestsTooDeep (maxDepth stack : Nat) (tokens : List Token) : Prop :=
  ∃ report cur, Loop (Level.at maxDepth stack maxDepth).nextTopLevel #[] (Cursor.start tokens)
    (.error (.tooDeep report), cur)

/-- **The limit on nesting only cuts off.**  Take any list of tokens in which the input ends, and two limits,
with stacks of which the one for the wider limit holds no less.  If nesting does not go too deep for the tighter
limit, the wider one gives the same program, the same reports and has looked at as many tokens.  If it does,
there is one report of that, which is the last report, and the program is the start of the one that the wider
limit gives. -/
theorem parseTokens_limit (input : Input) {tight wide small large : Nat} (le : tight ≤ wide)
    (holds : small ≤ large) :
    (¬NestsTooDeep tight small input.tokens →
        parseTokens wide input.tokens large = parseTokens tight input.tokens small) ∧
      (NestsTooDeep tight small input.tokens →
        (∃ before report, (parseTokens tight input.tokens small).reports = before ++ [report] ∧
          report.problem.isNesting = true ∧ ∀ other ∈ before, other.problem.isNesting = false) ∧
        (parseTokens tight input.tokens small).program <+: (parseTokens wide input.tokens large).program) := by
  have on := Cursor.within_start input
  have aligned : (Comparison.narrowing input).Aligned (Cursor.start input.tokens)
      (Cursor.start input.tokens) := ⟨on, on, rfl, rfl, nofun⟩
  have levels : Level.Compared (Comparison.narrowing input) (Level.at tight small tight)
      (Level.at wide large wide) :=
    Level.compared (.inl ⟨rfl, holds, le⟩)
  obtain ⟨outcome, cursor, loop, rest⟩ := levels.topLevel rfl (input.tokens.length + 1)
    (input.tokens.length + 1) #[] #[] aligned (input.view.enough _) (input.view.enough _)
  rw [Array.append_empty] at rest
  rcases run : (Level.at tight small tight).topLevel (input.tokens.length + 1) #[] (Cursor.start input.tokens)
    with ⟨first, last⟩
  rcases run' : (Level.at wide large wide).topLevel (input.tokens.length + 1) #[] (Cursor.start input.tokens)
    with ⟨second, last'⟩
  rw [run, run'] at rest
  -- how the loop ends with the tighter limit tells whether nesting goes too deep for it
  rcases outcome with (problem | report) | found
  · exact rest.elim
  · obtain ⟨nesting, onLast, reports, found, other, rfl, rfl, extends', -⟩ := rest
    rw [Array.empty_append] at extends'
    rw [parseTokens_eq run, parseTokens_eq run']
    refine ⟨fun shallow => absurd ⟨report, cursor, loop⟩ shallow, fun _ => ⟨?_, extends'⟩⟩
    refine ⟨cursor.reports.toList, report, ?_, nesting, fun other mem => ?_⟩
    · rw [show last.reports = _ from reports, Array.toList_push]
    · exact onLast.silent other (Array.mem_toList_iff.mp mem)
  · obtain ⟨rfl, rfl, ended, seen, seen'⟩ := rest
    have same : parseTokens wide input.tokens large = parseTokens tight input.tokens small := by
      rw [parseTokens_eq run, parseTokens_eq run', Array.empty_append]
      dsimp only at seen seen'
      rw [seen, seen', show last'.reports = _ from ended.reports]
      rfl
    refine ⟨fun _ => same, fun ⟨report, cursor', deep⟩ => ?_⟩
    -- the loop ends in one way only, so it was not cut off as well
    cases loop.unique deep

/-- The tokens of a name and of a name in parentheses, with a terminator between them. -/
def parenthesizedName : Input where
  before := [.identifier, .terminator, .leftParen, .identifier, .rightParen].map
    fun kind => ⟨kind, "x", .nil, ⟨1, 1⟩⟩
  last := ⟨.endOfInput, "", .nil, ⟨1, 1⟩⟩
  proper := by decide
  ends := rfl

/-- A name in parentheses nests too deep for the limit one, but not for the limit two. -/
theorem parseTokens_limit_parenthesizedName :
    parseTokens 3 parenthesizedName.tokens 5 = parseTokens 2 parenthesizedName.tokens 4 ∧
      (parseTokens 1 parenthesizedName.tokens 4).reports ≠ [] ∧
      (parseTokens 1 parenthesizedName.tokens 4).program <+:
        (parseTokens 2 parenthesizedName.tokens 4).program := by
  have shallow : ¬NestsTooDeep 2 4 parenthesizedName.tokens := by
    rintro ⟨report, cursor, deep⟩
    cases Loop.unique (.next rfl (.next rfl (.leave rfl))) deep
  have deep : NestsTooDeep 1 4 parenthesizedName.tokens := ⟨_, _, .next rfl (.stop rfl)⟩
  obtain ⟨⟨before, report, reports, -⟩, extends'⟩ :=
    (parseTokens_limit parenthesizedName (show 1 ≤ 2 by decide) (Nat.le_refl 4)).2 deep
  refine ⟨(parseTokens_limit parenthesizedName (by decide) (by decide)).1 shallow, ?_, extends'⟩
  rw [reports]
  simp

end FlowScript
