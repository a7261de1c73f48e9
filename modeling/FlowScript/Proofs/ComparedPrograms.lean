import FlowScript.Proofs.ParserProgress
/-!
# Programs on two inputs

The statements of a program are read by a loop that goes on to the end of the input, or up to nesting that
goes too deep.
-/

namespace FlowScript

open Parse (Loop)

namespace Level

variable {level : Level} {cur : Cursor}

/-! ## One round -/

/-- At the end of the input there is no further statement. -/
theorem nextTopLevel_of_end (ends : (cur.tokenAt 0).kind = .endOfInput) (stmts : Array Stmt) :
    level.nextTopLevel stmts cur = (.ok none, cur.look 0) := by
  rw [nextTopLevel, Parse.bind_apply, Parse.peek_apply]
  dsimp only
  rw [ends]
  rfl

/-- Statements that were read before stay in front. -/
theorem nextTopLevel_append (level : Level) (before stmts : Array Stmt) (cur : Cursor) :
    level.nextTopLevel (before ++ stmts) cur =
      ((level.nextTopLevel stmts cur).1.map (Option.map (before ++ ·)),
        (level.nextTopLevel stmts cur).2) := by
  have next : level.nextStatement (before ++ stmts) =
      Option.map (before ++ ·) <$> level.nextStatement stmts := by
    rw [nextStatement, nextStatement, map_bind]
    refine congrArg _ (funext fun token => ?_)
    split
    · rw [map_pure, Option.map_none]
    · rw [map_pure, Option.map_none]
    · rw [map_bind]
      refine congrArg _ (funext fun read => ?_)
      rw [map_bind]
      refine congrArg _ (funext fun _ => ?_)
      cases read with
      | none => rw [map_pure, Option.map_some]
      | some stmt =>
        rw [map_pure, Option.map_some]
        dsimp only
        rw [Array.push_append]
  rw [← Parse.map_apply, nextTopLevel, nextTopLevel, map_bind]
  refine congrFun (congrArg _ (funext fun token => ?_)) cur
  split
  · rw [map_pure, Option.map_none]
  · simp only [map_bind, map_pure, Option.map_some]
  · exact next

/-- Reading on only adds statements. -/
theorem topLevel_extends (level : Level) (rounds : Nat) {stmts found : Array Stmt} {cur : Cursor}
    (run : (level.topLevel rounds stmts cur).1 = .ok found) :
    stmts.toList <+: found.toList := by
  induction rounds generalizing stmts cur with
  | zero =>
    cases run
    exact List.prefix_rfl
  | succ rounds ih =>
    have added := nextTopLevel_append level stmts #[] cur
    rw [Array.append_empty] at added
    rw [topLevel_succ_apply, added] at run
    rcases step : level.nextTopLevel #[] cur with ⟨(problem | report) | (_ | next), after⟩ <;>
      rw [step] at run
    · cases run
    · cases run
      exact List.prefix_rfl
    · cases run
      exact List.prefix_rfl
    · refine List.IsPrefix.trans ?_ (ih run)
      rw [Array.toList_append]
      exact List.prefix_append _ _

end Level

/-! ## All rounds -/

namespace Comparison

variable (sides : Comparison)

/-- Whether both sides read a program to its end, where the right side had read some statements before. -/
structure BothEnd (before : Array Stmt) (first second : Except Interrupt (Array Stmt) × Cursor)
    (found : Array Stmt) : Prop where
  left : first.1 = .ok found
  right : second.1 = .ok (before ++ found)
  aligned : sides.Aligned first.2 second.2
  seenLeft : first.2.demanded = sides.left.before.length + 1
  seenRight : second.2.demanded = sides.right.before.length + 1

/-- Whether nesting that goes too deep cuts the left side off.  The right side has read as much, and unless it
may nest deeper, it is cut off at the same place. -/
structure CutOff (before : Array Stmt) (first second : Except Interrupt (Array Stmt) × Cursor)
    (report : SyntaxReport) (cursor : Cursor) : Prop where
  nesting : report.problem.isNesting = true
  on : cursor.Within sides.left
  reports : first.2.reports = cursor.reports.push report
  found : ∃ found other, first.1 = .ok found ∧ second.1 = .ok other ∧
    (before ++ found).toList <+: other.toList ∧
    (sides.tighter = false → other = before ++ found ∧ second.2.reports = first.2.reports)

end Comparison

namespace Level

variable {sides : Comparison} {left right : Level} {one two : Cursor}

/-- The programs read on both sides, if neither input breaks off. -/
theorem Compared.topLevel (h : Compared sides left right) (whole : sides.breaksOff = false)
    (rounds rounds' : Nat) (before stmts : Array Stmt) (aligned : sides.Aligned one two)
    (enough : sides.left.before.length < rounds + one.consumed)
    (enough' : sides.right.before.length < rounds' + two.consumed) :
    ∃ outcome cur, Loop left.nextTopLevel stmts one (outcome, cur) ∧
      match outcome with
      | .ok found =>
        sides.BothEnd before (left.topLevel rounds stmts one)
          (right.topLevel rounds' (before ++ stmts) two) found
      | .error (.tooDeep report) =>
        sides.CutOff before (left.topLevel rounds stmts one)
          (right.topLevel rounds' (before ++ stmts) two) report cur
      | .error (.problem _) => False := by
  -- every round takes a token, so the rounds of both sides last as long as their tokens do
  induction rounds generalizing rounds' stmts one two with
  | zero =>
    have taken : one.consumed ≤ sides.left.before.length := aligned.onLeft.taken
    omega
  | succ rounds ih =>
    cases rounds' with
    | zero =>
      have taken : two.consumed ≤ sides.right.before.length := aligned.onRight.taken
      omega
    | succ rounds' =>
      have onLeft := aligned.onLeft
      have never (off : sides.breaksOff = true) : False :=
        absurd (whole.symm.trans off) Bool.false_ne_true
      have tracks := h.nextTopLevel stmts fun off (_ : (one.tokenAt 0).kind = _) => never off
      obtain ⟨onAfter, -, -, taking, genuine⟩ := tracks.proceeds one onLeft rfl
      have tracked := tracks.runs one two aligned rfl
      have added := right.nextTopLevel_append before stmts two
      rcases run : left.nextTopLevel stmts one with ⟨(problem | report) | (_ | next), after⟩ <;>
        rw [run] at onAfter taking genuine tracked
      · -- problems are recovered from within a round, so only nesting gets out of it
        obtain ⟨report, ⟨⟩⟩ := left.nextTopLevel_interrupts stmts one _ (congrArg Prod.fst run)
      · -- the left side is cut off here, and the right side goes on by itself
        obtain ⟨other, read⟩ :=
          h.onRight.topLevel_ok (rounds' + 1) (before ++ stmts) aligned.onRight enough'
        refine ⟨_, after, .stop run, genuine _ rfl, onAfter, ?_, stmts, other, ?_, read, ?_, ?_⟩
        · rw [topLevel_succ_apply, run]
        · rw [topLevel_succ_apply, run]
        · exact right.topLevel_extends _ read
        · -- with the same limits, the right side is interrupted there too
          intro same
          rcases tracked with (⟨off, -⟩ | ⟨tighter, -⟩) | landed
          · exact (never off).elim
          · exact absurd (same.symm.trans tighter) Bool.false_ne_true
          obtain ⟨equal, ended⟩ := landed.whole whole
          rw [← equal] at added
          rw [topLevel_succ_apply, added] at read ⊢
          rw [topLevel_succ_apply, run]
          cases read
          exact ⟨rfl, congrArg (·.push report) ended.reports⟩
      · -- both sides see the end of their inputs
        have ends : (one.tokenAt 0).kind = .endOfInput :=
          ((nextTopLevel_leaves h.statement.proceeds stmts onLeft).result none (congrArg Prod.fst run) rfl).1
        have same : (two.tokenAt 0).kind = .endOfInput := by
          rw [Cursor.tokenAt, aligned.rest_eq whole]
          exact ends
        have all : _ = sides.left.before.length := (onLeft.kind_eq_end_iff onLeft.taken).mp ends
        have all' : _ = sides.right.before.length :=
          (aligned.onRight.kind_eq_end_iff aligned.onRight.taken).mp same
        have seen : one.demanded ≤ sides.left.before.length + 1 := onLeft.seen
        have seen' : two.demanded ≤ sides.right.before.length + 1 := aligned.onRight.seen
        refine ⟨_, after, .leave run, ?_⟩
        rw [topLevel_succ_apply, topLevel_succ_apply, nextTopLevel_of_end ends, nextTopLevel_of_end same]
        refine ⟨rfl, rfl, aligned.peeked, ?_, ?_⟩
        · change max _ _ = _
          omega
        · change max _ _ = _
          omega
      · -- both sides have read the same statement, and are aligned after it
        rcases tracked with (⟨off, -⟩ | ⟨-, report, ⟨⟩⟩) | landed
        · exact (never off).elim
        have equal := (landed.whole whole).1
        have ended : sides.Aligned after (right.nextTopLevel stmts two).2 := (landed.whole whole).2
        have further : one.consumed < after.consumed := (taking _ rfl).2 rfl
        have behind := aligned.consumed
        have ahead := ended.consumed
        obtain ⟨outcome, cur, loop, rest⟩ := ih rounds' next ended (by omega) (by omega)
        refine ⟨outcome, cur, .next run loop, ?_⟩
        rw [← equal] at added
        rw [topLevel_succ_apply, topLevel_succ_apply, run, added]
        exact rest

end Level

end FlowScript
