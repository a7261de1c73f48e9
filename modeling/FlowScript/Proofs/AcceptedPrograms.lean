import FlowScript.Proofs.AnnotatedStatements
import FlowScript.Proofs.Atomicity
import FlowScript.Proofs.ParserProgress
/-!
# Accepted programs are annotated completely

A program on which the check reports no error leaves it as it was, with a type noted on every expression, a
target on every type test and a signature on every function, wherever they stand: in code that is never
reached, in methods, in closures, on the left of assignments.

A state between programs is consistent as soon as a check can start from it, and this outlasts every
input of a session: what an accepted input leaves is consistent since its check was, and what a rejected or
failing one leaves is what was there before it.

Main statement: `Session.accepted_annotated`.
-/

namespace FlowScript

/-- An outcome of which something is seen is a value of which it is seen. -/
theorem exists_ok_of_shown {ε α β : Type} {outcome : Except ε α} {view : α → β} {seen : β}
    (shown : outcome.toOption.map view = some seen) : ∃ value, outcome = .ok value ∧ view value = seen := by
  cases outcome with
  | error => cases shown
  | ok value => exact ⟨value, rfl, Option.some.inj shown⟩

namespace Analyzer

variable {a : Analyzer}

/-! ## Between programs -/

/-- Before any program the state is consistent, if the types of the host functions are canonical. -/
theorem initial_consistent {signatures : List (String × Ty)}
    (canonical : ∀ sig ∈ signatures, sig.2.Determined) :
    (initial signatures).Consistent := by
  refine ⟨⟨fun id => ?_, .empty, fun _ => rfl, fun id => ?_, .empty, .empty⟩,
    ⟨by simp [initial], by simp [initial], by simp [initial]⟩⟩
  · by_cases inBounds : id < signatures.length
    · have determined := canonical signatures[id] (List.getElem_mem inBounds)
      have eq : ((initial signatures).symbolAt id).ty = signatures[id].2 := by
        simp [symbolAt, initial, inBounds]
      exact ⟨eq ▸ determined.1, fun _ => eq ▸ determined.2⟩
    · have eq : (initial signatures).symbolAt id = default := by
        simp [symbolAt, initial, inBounds]
      rw [eq]
      exact ⟨rfl, fun fixed => absurd fixed (by decide)⟩
  · rcases id with _ | _ | id <;> exact .empty

/-- The check of a program starts with no body that is done. -/
theorem Consistent.begin (h : a.Consistent) (prog : Program) :
    (a.begin prog).Consistent := by
  refine ⟨{ h.typed with }, ⟨fun found => ?_, nofun, h.orderly.deferred⟩⟩
  obtain ⟨plain, known, -⟩ := h.orderly.pending found
  exact ⟨plain, known, rfl⟩

/-- When a program has been checked, its inner scopes and all that is left to do are dropped. -/
theorem Consistent.finish (h : a.Consistent) : a.finish.Consistent := by
  refine ⟨⟨h.typed.names, h.typed.facts, fun _ => rfl, fun id => ?_, h.typed.structs, h.typed.traits⟩,
    ⟨nofun, h.orderly.finished, nofun⟩⟩
  by_cases outermost : id < globalFrame + 1
  · rw [frame_finish_of_lt outermost]
    exact h.typed.types id
  · rw [frame_finish_of_le (by omega)]
    exact .empty

/-! ## Checking a program -/

/-- A program without an error comes to the end of its check, and no report on the way is an error. -/
theorem accepts_of_ok {levels : Nat} {config : Config} {prog : Program}
    (ok : (analyzeWithin levels a config prog).1.ok = true) :
    ∃ res after, Check.Accepts (checkStatementsAt levels prog) (a.begin prog) res after ∧
      (analyzeWithin levels a config prog).1.program = res.1 ∧
      (analyzeWithin levels a config prog).2 = after.finish := by
  -- An error among the reports is among the diagnostics too.
  have harmless {reports : List CheckReport}
      (clean : noErrors ((reports.map fun report =>
        report.problem.diagnostic config.filename report.position).filter Diagnostic.isError) = true) :
      ∀ report ∈ reports, report.problem.severity ≠ .error := by
    simpa [noErrors, Diagnostic.isError, CheckProblem.diagnostic] using clean
  unfold analyzeWithin at ok ⊢
  rcases run : checkStatementsAt levels prog (a.begin prog) with ⟨⟨outcome, after⟩, reports⟩
  rw [run] at ok
  obtain ⟨defined, clean⟩ := Bool.and_eq_true_iff.mp ok
  cases outcome with
  | ok res => exact ⟨res, after, ⟨reports, run, harmless clean⟩, rfl, rfl⟩
  | error stop =>
    cases stop with
    | tooDeep =>
      have error : (CheckReport.mk .tooDeep after.topLevel).problem.severity ≠ .error :=
        harmless clean _ (by simp)
      exact absurd rfl error
    | undefined lookup => cases defined

/-- An accepted program is the given one, checked at every node, and the state after it is consistent and
has all its structs. -/
theorem Consistent.analyze_complete (config : Config) {prog : Program}
    (consistent : (a.begin prog).Consistent) (plain : prog.Plain)
    (ok : (a.analyze config prog).1.ok = true) :
    Stmt.AllComplete (a.analyze config prog).1.program prog ∧ (a.analyze config prog).2.Consistent ∧
      Stmt.AllDeclaredIn prog (a.analyze config prog).2 := by
  obtain ⟨res, after, accepted, checked, left⟩ := accepts_of_ok ok
  obtain ⟨proceeds, ⟨complete, -⟩, parts⟩ :=
    ((Checks.annotating checkLevels).statements plain).leads consistent res after accepted
  rw [Analyzer.analyze, checked, left]
  refine ⟨complete, proceeds.consistent.finish, fun node mem => ?_⟩
  exact declaredIn_of_declares id node (parts node mem)

end Analyzer

/-- Making warnings errors makes no program accepted. -/
theorem Analysis.ok_of_applyWarningPolicy {analysis : Analysis} {config : Config}
    (ok : (analysis.applyWarningPolicy config).ok = true) : analysis.ok = true := by
  unfold applyWarningPolicy at ok
  split at ok
  · simp only [Analysis.ok, noErrors, List.any_append, Bool.not_or, Bool.and_eq_true] at ok ⊢
    exact ⟨ok.1, ok.2.1⟩
  · exact ok

/-! ## Sessions -/

namespace Session

/-- The session after some inputs, whatever they gave. -/
def after (session : Session) (inputs : List String) : Session :=
  inputs.foldl (fun session src => (session.feed src).2) session

/-- A session in which every program is checked from a state with a property. -/
structure StartsFrom (session : Session) (p : Analyzer → Prop) : Prop where
  settled : session.analyzer.Settled
  begin : ∀ program, p (session.analyzer.begin program)

/-- Whether a property of the states in which checks start outlasts every accepted program. -/
def Outlasts (p : Analyzer → Prop) : Prop :=
  ∀ (a : Analyzer) (config : Config) (prog : Program), prog.Plain →
    p (a.begin prog) → (a.analyze config prog).1.ok = true →
    ∀ next, p ((a.analyze config prog).2.begin next)

namespace StartsFrom

variable {session : Session} {p : Analyzer → Prop}

variable (h : session.StartsFrom p)

include h

/-- What an undone check leaves is what was there before it. -/
theorem undo (prog : Program) {undone : Session}
    (restored : undone.analyzer = (session.analyzer.analyze session.config prog).2.restore
      session.analyzer.snapshot) : undone.StartsFrom p := by
  obtain ⟨settled, alike⟩ := h.settled.analyze_restore session.config prog
  refine ⟨restored ▸ settled, fun next => ?_⟩
  rw [restored, alike next]
  exact h.begin next

/-- Running a parsed program. -/
theorem runParsed (outlasts : Outlasts p) {prog : Program}
    (plain : prog.Plain) : (session.runParsed prog).2.StartsFrom p := by
  rw [runParsed_eq]
  split
  · rename_i ok
    by_cases ran : (session.runProgram (session.analysis prog).program).1.ok = true
    · have checked := outlasts session.analyzer session.config prog plain (h.begin prog)
        (Analysis.ok_of_applyWarningPolicy ok)
      refine ⟨?_, fun next => ?_⟩
      · dsimp only
        rw [if_pos ran]
        exact h.settled.analyze session.config prog
      · dsimp only
        rw [if_pos ran]
        exact checked next
    · exact h.undo prog (by simp only [if_neg ran])
  · exact h.undo prog rfl

theorem feed (outlasts : Outlasts p) (src : String) :
    (session.feed src).2.StartsFrom p := by
  rw [feed_eq]
  cases parse : parseText session.config.filename session.config.maxNestingDepth src with
  | error overflow => exact h
  | ok parsed =>
    have quiet : session.quiet.StartsFrom p := ⟨h.settled, h.begin⟩
    dsimp only
    split
    · exact quiet.runParsed outlasts (parseText_plain parse)
    · exact quiet

/-- Whatever inputs a session gets, and whatever becomes of them. -/
theorem after (outlasts : Outlasts p) (inputs : List String) :
    (session.after inputs).StartsFrom p := by
  induction inputs generalizing session with
  | nil => exact h
  | cons src rest ih => exact ih (h.feed outlasts src)

end StartsFrom

/-- A session in which every program is checked from a consistent state. -/
abbrev Consistent (session : Session) : Prop := session.StartsFrom Analyzer.Consistent

theorem Consistent.after {session : Session} (h : session.Consistent) (inputs : List String) :
    (session.after inputs).Consistent :=
  StartsFrom.after h (fun _ config _ plain consistent ok next =>
    (Analyzer.Consistent.analyze_complete config consistent plain ok).2.1.begin next) inputs

theorem start_consistent (config : Config) {host : Host}
    (canonical : ∀ fn ∈ host, fn.signature.Canonical) : (start config host).Consistent := by
  refine ⟨Analyzer.initial_settled _, (Analyzer.initial_consistent ?_).begin⟩
  intro sig mem
  obtain ⟨fn, listed, rfl⟩ := List.mem_map.mp mem
  exact ⟨canonical fn listed, nofun⟩

/-- In every session with a host of canonical types, and after any inputs, the check gives back the program
of a text on which it reports no error with nothing but notes added, and annotated at every node: each
expression has a type that is neither unknown nor a problem, and is widened only if it is a whole number, with
or without `nil`; each type test has its target; each function has its signature with a known result; and
`nil` is only added to types that lack it. -/
theorem accepted_annotated (config : Config) (host : Host)
    (canonical : ∀ function ∈ host, function.signature.Canonical) (inputs : List String)
    (source : String) (parsed : ParsedText)
    (read : parseText config.filename config.maxNestingDepth source = .ok parsed) :
    let session := (start config host).after inputs
    let analysis := (session.analyzer.analyze config parsed.program).1
    analysis.ok = true → Stmt.bareList analysis.program = parsed.program ∧
      ∀ node ∈ Stmt.nodesOfList analysis.program, node.Annotated := by
  intro session analysis ok
  have consistent := (start_consistent config canonical).after inputs
  obtain ⟨complete, -⟩ := Analyzer.Consistent.analyze_complete config (consistent.begin parsed.program)
    (parseText_plain read) ok
  exact ⟨complete.bare, fun node mem => (complete.checked node mem).annotated⟩

/-- A struct whose method has code after its return, made from a widened number of an earlier input, after
another input has failed. -/
theorem accepted_annotated_struct :
    let source := "struct P \x7b v: float; fn get() \x7b return self.v; self.v = 0 \x7d \x7d\n" ++
      "var p = P(x!); var t = x is int and p.get() > 0"
    let session := (start {} [Host.print]).after ["var x: int? = 1", "x! / 0"]
    ∃ parsed, parseText "<input>" 64 source = .ok parsed ∧ parsed.ok = true ∧
      (session.analyzer.analyze {} parsed.program).1.ok = true ∧
      Stmt.bareList (session.analyzer.analyze {} parsed.program).1.program = parsed.program ∧
      ∀ node ∈ Stmt.nodesOfList (session.analyzer.analyze {} parsed.program).1.program,
        node.Annotated := by
  intro source session
  have accepted : ((parseText "<input>" 64 source).toOption.map fun parsed =>
      parsed.ok && (session.analyzer.analyze {} parsed.program).1.ok) = some true := by
    decide +kernel
  obtain ⟨parsed, read, accepted⟩ := exists_ok_of_shown accepted
  obtain ⟨clean, ok⟩ := Bool.and_eq_true_iff.mp accepted
  refine ⟨parsed, read, clean, ok, ?_⟩
  exact accepted_annotated {} [Host.print] (by simp; decide) ["var x: int? = 1", "x! / 0"] source
    parsed read ok

end Session

end FlowScript
