import FlowScript.Proofs.Atomicity
/-!
# Sessions forget the inputs that are rejected

An input that has a lexical, syntax or type error is never run.  Its check may have declared names,
given types to global names and to fields, and narrowed variables, at whatever point it stopped; all
of that is undone.  So the rejected inputs of a session can be left out, and every other input gives
exactly the same and leaves the session in exactly the same standing.

The machine is not touched by a rejected input, and the analyzers of the two sessions differ in nothing
that a check depends on (`Analyzer.Alike`), so here the sessions are compared by equality and not along
a link of their cells.

Main statement: `Session.history_accepted`.
-/

namespace FlowScript

/-! ## Analyzers -/

namespace Analyzer

/-- The state after some programs are checked one after another. The flag of a program tells whether
its check is undone. -/
def afterChecks (config : Config) : Analyzer → List (Program × Bool) → Analyzer
  | a, [] => a
  | a, (prog, undone) :: rest =>
    let checked := (a.analyze config prog).2
    (if undone then checked.restore a.snapshot else checked).afterChecks config rest

/-- However programs are checked and undone, the state after them is one between programs. -/
theorem Settled.afterChecks {a : Analyzer} (settled : a.Settled) (config : Config)
    (history : List (Program × Bool)) : (a.afterChecks config history).Settled := by
  induction history generalizing a with
  | nil => exact settled
  | cons step rest ih =>
    obtain ⟨prog, undone⟩ := step
    refine ih ?_
    cases undone with
    | true => exact (settled.analyze_restore config prog).1
    | false => exact settled.analyze config prog

variable {left right : Analyzer}

variable (alike : left.Alike right)

include alike

/-- Analyzers that check every program alike show the same, if it is not what a check starts with. -/
theorem Alike.shows_eq {α : Type} (shown : Analyzer → α)
    (kept : ∀ a, shown (a.begin []) = shown a) : shown left = shown right := by
  rw [← kept left, ← kept right, alike []]

theorem Alike.names_eq : left.names = right.names :=
  alike.shows_eq names fun _ => rfl

theorem Alike.globalTypes_eq : left.globalTypes = right.globalTypes :=
  alike.shows_eq globalTypes fun _ => rfl

theorem Alike.fieldTypes_eq : left.fieldTypes = right.fieldTypes :=
  alike.shows_eq fieldTypes fun _ => rfl

end Analyzer

namespace Session

/-! ## Histories -/

/-- Whether an input is rejected: it has a lexical or syntax error, or its check gives an error, which
a warning is too if warnings are made errors. -/
def rejects (session : Session) (src : String) : Bool :=
  match parseText session.config.filename session.config.maxNestingDepth src with
  | .error _ => false
  | .ok parsed => !(noErrors parsed.diagnostics && (session.analysis parsed.program).ok)

/-- What can be seen of a session between two inputs. -/
structure Standing where
  names : List String
  /-- The types of the global names. -/
  types : List (String × Ty)
  /-- The types of the fields of structs. -/
  fields : List (String × List (String × Ty))
  /-- The values of the global variables. -/
  globals : List (String × Option Value)
  /-- The cells that these values refer to. -/
  heap : Heap

/-- The standing of a session. -/
def standing (session : Session) : Standing where
  names := session.names
  types := session.analyzer.globalTypes
  fields := session.analyzer.fieldTypes
  globals := session.machine.globals
  heap := session.machine.heap

/-- An input of a session with what it gave, and the standing of the session after it. -/
structure Entry where
  source : String
  rejected : Bool
  reply : Except DigitOverflow Reply
  standing : Standing

/-- The inputs of a session with what they gave. -/
def history : Session → List String → List Entry
  | _, [] => []
  | session, src :: rest =>
    let (reply, next) := session.feed src
    ⟨src, session.rejects src, reply, next.standing⟩ :: next.history rest

/-- The inputs of a session that are not rejected, with what they gave. -/
def acceptedHistory (session : Session) (inputs : List String) : List Entry :=
  (session.history inputs).filter fun entry => !entry.rejected

/-! ## Sessions that agree -/

/-- Sessions in which every input gives exactly the same. -/
structure Agrees (left right : Session) : Prop where
  config : left.config = right.config
  host : left.host = right.host
  settled : left.analyzer.Settled
  alike : left.analyzer.Alike right.analyzer
  machine : left.quiet.machine = right.quiet.machine

namespace Agrees

variable {left right : Session}

theorem refl {session : Session} (settled : session.analyzer.Settled) : session.Agrees session :=
  ⟨rfl, rfl, settled, fun _ => rfl, rfl⟩

variable (h : left.Agrees right)

include h

theorem standing_eq : left.standing = right.standing := by
  have heap : left.quiet.machine.heap = right.quiet.machine.heap := congrArg Machine.heap h.machine
  change left.machine.heap = right.machine.heap at heap
  simp only [standing, names, Machine.globals, h.alike.names_eq, h.alike.globalTypes_eq,
    h.alike.fieldTypes_eq, heap]

theorem analysis_eq (prog : Program) :
    left.analysis prog = right.analysis prog := by
  rw [analysis, analysis, ← h.config, h.alike.analyze_eq left.config prog]

theorem rejects_eq (src : String) :
    left.rejects src = right.rejects src := by
  simp only [rejects, ← h.config, h.analysis_eq]

/-- A program that both sessions check and run. -/
theorem runParsed (prog : Program) :
    (left.quiet.runParsed prog).1 = (right.quiet.runParsed prog).1 ∧
      (left.quiet.runParsed prog).2.machine = (right.quiet.runParsed prog).2.machine ∧
      (left.quiet.runParsed prog).2.Agrees (right.quiet.runParsed prog).2 := by
  have analyses : right.quiet.analysis prog = left.quiet.analysis prog :=
    (h.analysis_eq prog).symm
  have checks : right.quiet.analyzer.analyze right.quiet.config prog =
      left.quiet.analyzer.analyze left.quiet.config prog := by
    change right.analyzer.analyze right.config prog = left.analyzer.analyze left.config prog
    rw [h.alike.analyze_eq, h.config]
  have snapshots : right.quiet.analyzer.snapshot = left.quiet.analyzer.snapshot :=
    h.alike.snapshot_eq.symm
  have runs (checked : Program) : right.quiet.runProgram checked = left.quiet.runProgram checked := by
    have config : right.quiet.config = left.quiet.config := h.config.symm
    have host : right.quiet.host = left.quiet.host := h.host.symm
    simp only [Session.runProgram, config, host, h.machine]
  have undone := (h.settled.analyze_restore left.config prog).1
  rw [runParsed_eq, runParsed_eq, analyses, checks, snapshots, runs]
  split
  · refine ⟨rfl, rfl, h.config, h.host, ?_, fun _ => rfl, rfl⟩
    dsimp only
    split
    · exact h.settled.analyze left.config prog
    · exact undone
  · exact ⟨rfl, h.machine, h.config, h.host, undone, fun _ => rfl,
      congrArg Machine.clearOutput h.machine⟩

/-- An input gives the same in sessions that agree, and they agree after it. -/
theorem feed (src : String) :
    (left.feed src).1 = (right.feed src).1 ∧
      (left.feed src).2.Agrees (right.feed src).2 := by
  rw [feed_eq, feed_eq, ← h.config]
  cases parseText left.config.filename left.config.maxNestingDepth src with
  | error overflow => exact ⟨rfl, h⟩
  | ok parsed =>
    dsimp only
    split
    · obtain ⟨results, machines, agrees⟩ := h.runParsed parsed.program
      exact ⟨by rw [results, machines], agrees⟩
    · exact ⟨by rw [h.machine], h.config, h.host, h.settled, h.alike,
        congrArg Machine.clearOutput h.machine⟩

/-- An input that is rejected in one session leaves it in agreement with the other, which does not get
it. -/
theorem reject {src : String} (rejected : left.rejects src = true) :
    (left.feed src).2.Agrees right := by
  rw [feed_eq]
  simp only [rejects] at rejected
  cases parse : parseText left.config.filename left.config.maxNestingDepth src with
  | error overflow => exact h
  | ok parsed =>
    simp only [parse] at rejected ⊢
    by_cases clean : noErrors parsed.diagnostics = true
    · have refused : (left.analysis parsed.program).ok = false := by
        simpa [clean] using rejected
      change (left.quiet.analysis parsed.program).ok = false at refused
      simp only [clean, if_true]
      rw [runParsed_eq, if_neg (by simp [refused])]
      obtain ⟨settled, alike⟩ := h.settled.analyze_restore left.config parsed.program
      exact ⟨h.config, h.host, settled, fun next => (alike next).trans (h.alike next), h.machine⟩
    · simp only [clean, Bool.false_eq_true, if_false]
      exact ⟨h.config, h.host, h.settled, h.alike, h.machine⟩

/-- Where the rejected inputs are left out, the others give the same, and the session has the same
standing after each of them. -/
theorem history_eq (inputs : List String) :
    right.history ((left.acceptedHistory inputs).map Entry.source) = left.acceptedHistory inputs := by
  induction inputs generalizing left right with
  | nil => rfl
  | cons src rest ih =>
    cases rejected : left.rejects src with
    | true =>
      simpa [acceptedHistory, history, rejected] using ih (h.reject rejected)
    | false =>
      obtain ⟨replies, next⟩ := h.feed src
      simp only [acceptedHistory, history, rejected, List.filter_cons, Bool.not_false, if_true,
        List.map_cons, List.cons.injEq, Entry.mk.injEq, true_and]
      exact ⟨⟨(h.rejects_eq src).symm.trans rejected, replies.symm, next.standing_eq.symm⟩,
        ih next⟩

end Agrees

/-- In every session, the inputs that are not rejected give the same and leave the session in the same
standing without those that are. And whatever was checked and undone before, undoing the check of a
program leaves an analyzer that nothing tells from the one before it: every program is checked alike,
with the same analysis and the same state after it, and the same names, types and fields are seen. -/
theorem history_accepted (config : Config) (host : Host) (inputs : List String) :
    (start config host).history (((start config host).acceptedHistory inputs).map Entry.source) =
        (start config host).acceptedHistory inputs ∧
    ∀ (checks : List (Program × Bool)) (program : Program),
      let analyzer := (Analyzer.initial host.signatures).afterChecks config checks
      let restored := (analyzer.analyze config program).2.restore analyzer.snapshot
      (∀ next, restored.analyze config next = analyzer.analyze config next) ∧
        restored.snapshot = analyzer.snapshot ∧ restored.names = analyzer.names ∧
        restored.globalTypes = analyzer.globalTypes ∧ restored.fieldTypes = analyzer.fieldTypes := by
  refine ⟨(Agrees.refl (Analyzer.initial_settled _)).history_eq inputs, fun checks program => ?_⟩
  have settled := (Analyzer.initial_settled host.signatures).afterChecks config checks
  have alike := (settled.analyze_restore config program).2
  exact ⟨alike.analyze_eq config, alike.snapshot_eq, alike.names_eq, alike.globalTypes_eq,
    alike.fieldTypes_eq⟩

end Session

end FlowScript
