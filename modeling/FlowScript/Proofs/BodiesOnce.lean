import FlowScript.Proofs.AcceptedPrograms
import FlowScript.Proofs.DefinedLookups
import FlowScript.Proofs.SpendingLists
import Mathlib.Data.List.Perm.Subperm
/-!
# Bodies are checked once

The rules tied together by recursion on the levels: the check of a program spends what its nodes have.
It starts with nothing spent, so it comes to an end at a depth that the size of the program bounds, and
each body is checked at most once.  Without an error nothing waits at the end, and then each body was
checked.
-/

namespace FlowScript

namespace Checks

variable {p : Block Stmt → Bool}

open Check.Accounts (tooDeep)

/-- Checking spends what it checks, however many levels are left. -/
theorem spending (p : Block Stmt → Bool) (levels : Nat) :
    Checks.Spending p levels (.within levels) (.within (levels + 1)) := by
  induction levels with
  | zero =>
    exact ⟨fun _ _ => tooDeep, fun _ _ => tooDeep, fun _ _ => tooDeep, fun _ _ => tooDeep,
      fun _ _ => tooDeep⟩
  | succ levels ih =>
    have steps := Check.Pays.adjusting p levels
    have some (e : Expr) : e.nodes ≠ [] := by
      rw [e.nodes_eq]
      exact List.cons_ne_nil _ _
    exact ⟨fun e => (steps.checkExpr ih.admits.toAdmitsPairs e).deeper (some e),
      fun e => (steps.checkCondition ih.admits.toAdmitsPairs e).deeper (some e),
      ih.checkOther, fun stmts _ => (ih.checkStatements id).deeper rfl (Nat.lt_add_one _),
      ih.finishFunction⟩

end Checks

namespace Analyzer

/-- The bodies that are checked along with a program, each as often as it is. -/
def checkedBodies (levels : Nat) (a : Analyzer) (prog : Program) : List (Block Stmt) :=
  (checkStatementsAt levels prog (a.begin prog)).result.2.visited

/-- How many levels are enough for a program. -/
def enoughLevels (prog : Program) : Nat := 2 * (Stmt.nodesOfList prog).length + 2

variable {a : Analyzer}

theorem charge_of_empty (p : Block Stmt → Bool) (empty : a.pending = Table.empty) :
    a.charge p = a.visited.countP p := by
  rw [charge, empty]
  rfl

/-- The check of a program spends what its nodes have. -/
theorem spends (a : Analyzer) (prog : Program) (p : Block Stmt → Bool) (levels : Nat) :
    Check.Spends p prog.Plain levels (tally p (Stmt.nodesOfList prog))
      (2 * (Stmt.nodesOfList prog).length + 1) (a.begin prog)
      (checkStatementsAt levels prog) (checkStatementsAt (levels + 1) prog) :=
  (Checks.spending p levels).statements prog _

namespace Settled

variable (settled : a.Settled) (prog : Program)

include settled

theorem charge_begin (p : Block Stmt → Bool) : (a.begin prog).charge p = 0 := by
  have pending : (a.begin prog).pending = Table.empty := settled.pending
  have contexts : (a.begin prog).contexts = #[] := settled.contexts
  rw [charge_of_empty p pending, visited, contexts]
  rfl

theorem work_begin : (a.begin prog).work = 0 := by
  have pending : (a.begin prog).pending = Table.empty := settled.pending
  rw [work, pending]
  rfl

theorem books_begin : (a.begin prog).Books := by
  have pending : (a.begin prog).pending = Table.empty := settled.pending
  constructor <;> rw [pending]
  · exact List.nodup_nil
  · rintro _ ⟨⟩
  · rintro _ ⟨⟩

/-- Each body is checked at most once. -/
theorem checkedBodies_subperm (levels : Nat) :
    (a.checkedBodies levels prog).Subperm (bodies (Stmt.nodesOfList prog)) := by
  classical
  refine List.subperm_ext_iff.mpr fun body _ => ?_
  have charge := (a.spends prog (· == body) levels).charge
  rw [settled.charge_begin, Nat.zero_add] at charge
  exact Nat.le_trans (Nat.le_add_right _ _) charge

/-- Each body of a program without an error is checked. -/
theorem checkedBodies_perm (config : Config) (levels : Nat) (plain : prog.Plain)
    (ok : (a.analyzeWithin levels config prog).1.ok = true) :
    (a.checkedBodies levels prog).Perm (bodies (Stmt.nodesOfList prog)) := by
  classical
  obtain ⟨res, after, accepted, -⟩ := accepts_of_ok ok
  refine List.perm_iff_count.mpr fun body => ?_
  obtain ⟨-, charge, drains⟩ := (a.spends prog (· == body) levels).exact plain
    (settled.books_begin prog) res after accepted
  -- nothing waited at the start, so nothing waits now
  have empty : after.pending = Table.empty := by
    refine Table.eq_empty fun key => drains.not_waiting ?_
    have pending : (a.begin prog).pending = Table.empty := settled.pending
    rw [pending]
    rfl
  obtain ⟨reports, run, -⟩ := accepted
  rw [settled.charge_begin, Nat.zero_add, charge_of_empty _ empty] at charge
  rw [checkedBodies, run]
  exact charge

/-- With enough levels the check of a program comes to its end, and more levels change nothing. -/
theorem checkStatements_enough (levels : Nat) (enough : enoughLevels prog ≤ levels) :
    (∃ res, (checkStatementsAt levels prog (a.begin prog)).result.1 = .ok res) ∧
      checkStatementsAt levels prog (a.begin prog) =
        checkStatementsAt (enoughLevels prog) prog (a.begin prog) := by
  have spends (levels : Nat) (enough : enoughLevels prog ≤ levels) :=
    (a.spends prog (fun _ => true) levels).enough (by
      rw [settled.work_begin, enoughLevels] at *
      omega)
  constructor
  · have defined := ((Checks.evolving levels).statements prog _
      (.refl (settled.wellFormed_begin prog))).defined
    have shallow := (spends levels enough).1
    cases outcome : (checkStatementsAt levels prog (a.begin prog)).result.1 with
    | ok res => exact ⟨res, rfl⟩
    | error stop =>
      cases stop with
      | tooDeep => exact absurd outcome shallow
      | undefined lookup => exact absurd outcome (defined lookup)
  · induction enough with
    | refl => rfl
    | step enough ih => exact (spends _ enough).2.trans ih

end Settled

end Analyzer

namespace Desk

/-- The check of a program ends, and it checks each body at most once, whatever cycles there are among its
functions, methods, constructors and constructions and whatever the analyzer was used for before.  There is
a number of levels, given by the size of the program alone, at which the check comes to its end and from
which on more levels change nothing.  However many levels there are, the bodies of functions, methods and
anonymous functions that are checked are among those of the program, each of these at most once; and if the
program is accepted, each exactly once. -/
theorem bodies_checked_once (signatures : List (String × Ty)) (uses : List AnalyzerUse)
    (config : Config) (program : Program) :
    let analyzer := ((start signatures).run uses).analyzer
    (∀ levels, Analyzer.enoughLevels program ≤ levels →
      (∃ result, (checkStatementsAt levels program (analyzer.begin program)).result.1 = .ok result) ∧
      analyzer.analyzeWithin levels config program =
        analyzer.analyzeWithin (Analyzer.enoughLevels program) config program) ∧
    ∀ levels,
      (analyzer.checkedBodies levels program).Subperm (bodies (Stmt.nodesOfList program)) ∧
      (program.Plain → (analyzer.analyzeWithin levels config program).1.ok = true →
        (analyzer.checkedBodies levels program).Perm (bodies (Stmt.nodesOfList program))) := by
  have settled : ((start signatures).run uses).analyzer.Settled :=
    ((start_sound signatures).run uses).settled
  refine ⟨fun levels enough => ?_, fun levels => ⟨settled.checkedBodies_subperm program levels, ?_⟩⟩
  · obtain ⟨ends, same⟩ := settled.checkStatements_enough program levels enough
    exact ⟨ends, by rw [Analyzer.analyzeWithin, same, Analyzer.analyzeWithin]⟩
  · exact settled.checkedBodies_perm program config levels

/-- A function whose return type is asked for in the body before it is checked from there, along with the
anonymous function in it. -/
theorem bodies_checked_once_early :
    let source :=
      "fn first() \x7b return second() \x7d fn second() \x7b var g = fn() \x7b return 1 \x7d; return g() \x7d"
    ∃ parsed, parseText "<input>" 64 source = .ok parsed ∧ parsed.ok = true ∧
      (bodies (Stmt.nodesOfList parsed.program)).length = 3 ∧
      let analyzer := ((start []).run []).analyzer
      (analyzer.analyzeWithin checkLevels {} parsed.program).1.ok = true ∧
      (analyzer.checkedBodies checkLevels parsed.program).Perm
        (bodies (Stmt.nodesOfList parsed.program)) := by
  intro source
  have accepted : ((parseText "<input>" 64 source).toOption.map fun parsed =>
      parsed.ok && (bodies (Stmt.nodesOfList parsed.program)).length == 3 &&
        (((start []).run []).analyzer.analyzeWithin checkLevels {} parsed.program).1.ok) = some true := by
    decide +kernel
  obtain ⟨parsed, read, accepted⟩ := exists_ok_of_shown accepted
  obtain ⟨both, ok⟩ := Bool.and_eq_true_iff.mp accepted
  obtain ⟨clean, three⟩ := Bool.and_eq_true_iff.mp both
  refine ⟨parsed, read, clean, eq_of_beq three, ok, ?_⟩
  exact ((bodies_checked_once [] [] {} parsed.program).2 checkLevels).2 (parseText_plain read) ok

end Desk

end FlowScript
