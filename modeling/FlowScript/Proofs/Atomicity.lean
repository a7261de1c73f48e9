import FlowScript.Proofs.Forgetting
import FlowScript.Proofs.Parametricity
import FlowScript.Proofs.Rollback
/-!
# Sessions forget the inputs that fail at run time

The inputs of a session that pass the check and then fail can be left out: the others give the same.
This holds as long as a failing input leaves the cells alone that later inputs can reach but a
checkpoint misses; these are the cells that only the methods of an instance refer to, and the frame of
the host.

Two sessions are compared, one that gets all inputs and one that gets the others only.  They are
`Session.Related`: their analyzers check every program alike, and their heaps are the same along a
link.  An input that both get keeps them related, since neither checking nor running depends on the
numbers of cells.  So does an input that only one gets and that fails, since it is undone.

Main statement: `Session.transcript_survivors`.
-/

namespace FlowScript

/-! ## Transcripts -/

/-- What an input gives: its result, the text it wrote, and the heap that its value refers to. -/
structure Reply where
  result : RunResult
  written : String
  heap : Heap

/-- The reply of a result and the machine after it. -/
def Reply.of (res : RunResult) (machine : Machine) : Reply :=
  ⟨res, machine.output, machine.heap⟩

/-- Replies that are the same but for the numbers of cells. -/
structure Reply.Alike (left right : Reply) : Prop where
  diagnostics : left.result.diagnostics = right.result.diagnostics
  warnings : left.result.warnings = right.result.warnings
  raised : left.result.raised = right.result.raised
  written : left.written = right.written
  value : ∃ link, Heap.Related link left.heap right.heap ∧
    Value.Related link left.result.value right.result.value

namespace Session

/-- The session with no text written. -/
def quiet (session : Session) : Session :=
  { session with machine := session.machine.clearOutput }

/-- Runs an input: what it gives, and the session after it. -/
def feed (session : Session) (src : String) : Except DigitOverflow Reply × Session :=
  match session.quiet.run src with
  | .ok (res, next) => (.ok (.of res next.machine), next)
  | .error overflow => (.error overflow, session)

/-- What the check of a program gives, with warnings made errors if they are to stop it. -/
def analysis (session : Session) (prog : Program) : Analysis :=
  (session.analyzer.analyze session.config prog).1.applyWarningPolicy session.config

/-- Whether an input passes the check and then fails. -/
def failsAtRunTime (session : Session) (src : String) : Bool :=
  match parseText session.config.filename session.config.maxNestingDepth src with
  | .error _ => false
  | .ok parsed =>
    let analysis := session.analysis parsed.program
    noErrors parsed.diagnostics && analysis.ok && !(session.quiet.runProgram analysis.program).1.ok

/-- An input of a session with what it gave. -/
structure Exchange where
  source : String
  /-- Whether the input passed the check and then failed. -/
  failed : Bool
  reply : Except DigitOverflow Reply

/-- The inputs of a session with what they gave. -/
def transcript : Session → List String → List Exchange
  | _, [] => []
  | session, src :: rest =>
    let (reply, next) := session.feed src
    ⟨src, session.failsAtRunTime src, reply⟩ :: next.transcript rest

/-- Whether every input that fails leaves the visible cells that the checkpoint misses as they
were. -/
def KeepsMissed : Session → List String → Prop
  | _, [] => True
  | session, src :: rest =>
    (session.failsAtRunTime src = true →
      session.machine.heap.KeepsMissed (session.feed src).2.machine.heap) ∧
    (session.feed src).2.KeepsMissed rest

/-! ## Related sessions -/

/-- Sessions in which every input does the same. -/
structure Related (left right : Session) : Prop where
  config : left.config = right.config
  host : left.host = right.host
  settled : left.analyzer.Settled
  alike : left.analyzer.Alike right.analyzer
  idle : left.machine.depth = 0 ∧ right.machine.depth = 0
  machines : ∃ link, Environment.Related link Heap.globalEnvironment Heap.globalEnvironment ∧
    Machine.Related link left.quiet.machine right.quiet.machine

end Session

/-- Whether two inputs gave the same. -/
inductive Reply.Same : Except DigitOverflow Reply → Except DigitOverflow Reply → Prop where
  | ok {left right : Reply} (alike : left.Alike right) : Reply.Same (.ok left) (.ok right)
  | error (overflow : DigitOverflow) : Reply.Same (.error overflow) (.error overflow)

/-- The text of the value of an input, if it has one. -/
def Reply.text? : Except DigitOverflow Reply → Option String
  | .ok reply => (reply.result.value.display reply.heap).toOption
  | .error _ => none

/-- Inputs that gave the same gave values that are shown alike. -/
theorem Reply.Same.text?_eq {left right : Except DigitOverflow Reply} (same : Reply.Same left right) :
    Reply.text? left = Reply.text? right := by
  cases same with
  | ok alike =>
    obtain ⟨link, heaps, value⟩ := alike.value
    simp only [Reply.text?, heaps.display value]
  | error overflow => rfl

theorem Machine.Related.clearOutput {link : Link} {m n : Machine}
    (machines : Machine.Related link m n) : Machine.Related link m.clearOutput n.clearOutput :=
  ⟨machines.heap, machines.depth, rfl, machines.stampsBelow⟩

namespace Session

variable {left right : Session}

theorem Related.quiet (h : Related left right) : Related left.quiet right.quiet :=
  ⟨h.config, h.host, h.settled, h.alike, h.idle, h.machines⟩

/-- The run of a checked program in both sessions, before a failure is rolled back. -/
theorem Related.run (h : Related left right) (stateless : left.host.Stateless)
    (prog : Program) :
    ∃ link later, Environment.Related link Heap.globalEnvironment Heap.globalEnvironment ∧
      Machine.Related link left.quiet.machine right.quiet.machine ∧ link.Le later ∧
      Machine.Related later
        ((Setup.of left.config left.host).run prog left.quiet.machine).2
        ((Setup.of right.config right.host).run prog right.quiet.machine).2 ∧
      RunResult.Related later
        ((Setup.of left.config left.host).run prog left.quiet.machine).1
        ((Setup.of right.config right.host).run prog right.quiet.machine).1 ∧
      left.machine.heap.Grows
        ((Setup.of left.config left.host).run prog left.quiet.machine).2.heap := by
  obtain ⟨link, globals, machines⟩ := h.machines
  have run := (Setup.of left.config left.host).run_related stateless rfl globals prog machines
  rw [← h.config, ← h.host]
  obtain ⟨later, le, after, results, grows⟩ := run
  exact ⟨link, later, globals, machines, le, after, results, grows⟩

/-- A run that fails in one session fails in the other. -/
theorem ok_eq_of_related {link : Link} {first second : RunResult}
    (results : RunResult.Related link first second) : first.ok = second.ok := by
  rw [RunResult.ok, RunResult.ok, results.diagnostics, results.raised]

/-- A checked program that does not fail gives the same in both sessions, and their machines stay
related. -/
theorem Related.runProgram (h : Related left right) (stateless : left.host.Stateless)
    (prog : Program) (succeeds : (left.quiet.runProgram prog).1.ok = true) :
    (right.quiet.runProgram prog).1.ok = true ∧
      ∃ link, Environment.Related link Heap.globalEnvironment Heap.globalEnvironment ∧
        Machine.Related link (left.quiet.runProgram prog).2 (right.quiet.runProgram prog).2 ∧
        RunResult.Related link (left.quiet.runProgram prog).1
          (right.quiet.runProgram prog).1 := by
  obtain ⟨link, later, globals, -, le, after, results, -⟩ := h.run stateless prog
  have same := ok_eq_of_related results
  have first : (left.quiet.runProgram prog).1 =
      ((Setup.of left.config left.host).run prog left.quiet.machine).1 := by
    simp only [Session.runProgram]
    split <;> rfl
  have ok := succeeds
  rw [first] at ok
  have leftRun : left.quiet.runProgram prog =
      (Setup.of left.config left.host).run prog left.quiet.machine := by
    simp only [Session.runProgram]
    exact if_pos ok
  have rightRun : right.quiet.runProgram prog =
      (Setup.of right.config right.host).run prog right.quiet.machine := by
    simp only [Session.runProgram]
    exact if_pos (same ▸ ok)
  rw [leftRun, rightRun]
  exact ⟨same ▸ ok, later, globals.mono le, after, results⟩

/-- After a program no call is open. -/
theorem depth_runProgram (session : Session) (prog : Program) :
    (session.runProgram prog).2.depth = 0 := by
  simp only [Session.runProgram]
  split <;> rfl

/-- The analyses of a program are the same in related sessions. -/
theorem Related.analysis_eq (h : Related left right) (prog : Program) :
    left.analysis prog = right.analysis prog := by
  rw [analysis, analysis, ← h.config, h.alike.analyze_eq left.config prog]

/-- A program that is checked and run in a session. -/
theorem runParsed_eq (session : Session) (prog : Program) :
    session.runParsed prog =
      if (session.analysis prog).ok then
        ({ (session.runProgram (session.analysis prog).program).1 with
            warnings := (session.analysis prog).warnings },
          { session with
            machine := (session.runProgram (session.analysis prog).program).2
            analyzer :=
              if (session.runProgram (session.analysis prog).program).1.ok then
                (session.analyzer.analyze session.config prog).2
              else (session.analyzer.analyze session.config prog).2.restore
                session.analyzer.snapshot })
      else
        ({ diagnostics := (session.analysis prog).diagnostics
           warnings := (session.analysis prog).warnings },
          { session with
            analyzer := (session.analyzer.analyze session.config prog).2.restore
              session.analyzer.snapshot }) := rfl

/-- A program that both sessions check and run, and that does not fail at run time. -/
theorem Related.runParsed (h : Related left right) (stateless : left.host.Stateless)
    (prog : Program)
    (survives : (left.analysis prog).ok = true →
      (left.quiet.runProgram (left.analysis prog).program).1.ok = true) :
    Reply.Alike
        (.of (left.quiet.runParsed prog).1 (left.quiet.runParsed prog).2.machine)
        (.of (right.quiet.runParsed prog).1 (right.quiet.runParsed prog).2.machine) ∧
      Related (left.quiet.runParsed prog).2 (right.quiet.runParsed prog).2 := by
  -- both sessions check the program alike, since their analyzers are alike
  have analyses : right.quiet.analysis prog = left.analysis prog :=
    (h.analysis_eq prog).symm
  have checks : right.quiet.analyzer.analyze right.quiet.config prog =
      left.analyzer.analyze left.config prog := by
    rw [h.alike.analyze_eq, h.config]
    rfl
  have snapshots : right.quiet.analyzer.snapshot = left.analyzer.snapshot :=
    h.alike.snapshot_eq.symm
  have analysis : left.quiet.analysis prog = left.analysis prog := rfl
  rw [runParsed_eq, runParsed_eq, analyses, checks, snapshots, analysis]
  by_cases accepted : (left.analysis prog).ok = true
  · obtain ⟨succeeds, link, globals, machines, results⟩ :=
      h.runProgram stateless _ (survives accepted)
    simp only [accepted, if_true, survives accepted, succeeds]
    refine ⟨⟨results.diagnostics, rfl, results.raised, machines.output, link, machines.heap, results.value⟩, ?_⟩
    refine ⟨h.config, h.host, h.settled.analyze left.config prog, fun _ => rfl, ?_, link, globals,
      ?_⟩
    · exact ⟨depth_runProgram _ _, depth_runProgram _ _⟩
    · exact machines.clearOutput
  · -- a program that is refused is not run, and the analyzers go back to where they were
    obtain ⟨link, globals, machines⟩ := h.machines
    simp only [accepted, Bool.false_eq_true, if_false]
    refine ⟨⟨rfl, rfl, rfl, machines.output, link, machines.heap, .nil⟩, ?_⟩
    exact ⟨h.config, h.host, (h.settled.analyze_restore left.config prog).1, fun _ => rfl, h.idle, link, globals,
      machines⟩

/-- What an input does to a session. -/
theorem feed_eq (session : Session) (src : String) :
    session.feed src =
      match parseText session.config.filename session.config.maxNestingDepth src with
      | .error overflow => (.error overflow, session)
      | .ok parsed =>
        let (res, next) :=
          if noErrors parsed.diagnostics then session.quiet.runParsed parsed.program
          else ({ diagnostics := parsed.diagnostics }, session.quiet)
        (.ok (.of res next.machine), next) := by
  cases parse : parseText session.config.filename session.config.maxNestingDepth src with
  | error overflow =>
    have run : session.quiet.run src = .error overflow := by
      rw [Session.run, show session.quiet.config = session.config from rfl, parse]
      rfl
    rw [feed, run]
  | ok parsed =>
    have run : session.quiet.run src =
        .ok (if noErrors parsed.diagnostics then session.quiet.runParsed parsed.program
          else ({ diagnostics := parsed.diagnostics }, session.quiet)) := by
      rw [Session.run, show session.quiet.config = session.config from rfl, parse]
      rfl
    rw [feed, run]

/-- An input that does not fail at run time gives the same in related sessions and keeps them
related. -/
theorem Related.feed (h : Related left right) (stateless : left.host.Stateless) (src : String)
    (survives : left.failsAtRunTime src = false) :
    Reply.Same (left.feed src).1 (right.feed src).1 ∧
      Related (left.feed src).2 (right.feed src).2 := by
  obtain ⟨link, globals, machines⟩ := h.machines
  rw [feed_eq, feed_eq, ← h.config]
  simp only [failsAtRunTime] at survives
  cases parse : parseText left.config.filename left.config.maxNestingDepth src with
  | error overflow => exact ⟨.error overflow, h⟩
  | ok parsed =>
    simp only [parse] at survives
    by_cases clean : noErrors parsed.diagnostics = true
    · simp only [clean, if_true, Bool.true_and] at survives ⊢
      have ended := h.runParsed stateless parsed.program fun accepted => by
        simpa [accepted] using survives
      exact ⟨.ok ended.1, ended.2⟩
    · simp only [clean, if_false, Bool.false_eq_true]
      exact ⟨.ok ⟨rfl, rfl, rfl, rfl, link, machines.heap, .nil⟩, h.quiet⟩

/-- A program that fails is run and rolled back. -/
theorem runProgram_of_failed (session : Session) (prog : Program)
    (failed : (session.runProgram prog).1.ok = false) :
    let run := (Setup.of session.config session.host).run prog session.machine
    session.runProgram prog =
      (run.1, { run.2 with heap := run.2.heap.rollback session.machine.heap.checkpoint }) := by
  have res : (session.runProgram prog).1 =
      ((Setup.of session.config session.host).run prog session.machine).1 := by
    simp only [Session.runProgram]
    split <;> rfl
  rw [res] at failed
  simp only [Session.runProgram]
  rw [if_neg (by simp [failed])]

/-- A checked program that fails in one session leaves it related to the other, which does not get
it. -/
theorem Related.failParsed (h : Related left right) (stateless : left.host.Stateless)
    (prog : Program) (accepted : (left.analysis prog).ok = true)
    (failed : (left.quiet.runProgram (left.analysis prog).program).1.ok = false)
    (keeps : left.machine.heap.KeepsMissed (left.quiet.runParsed prog).2.machine.heap) :
    Related (left.quiet.runParsed prog).2 right := by
  have analysis : left.quiet.analysis prog = left.analysis prog := rfl
  rw [runParsed_eq, analysis] at keeps ⊢
  simp only [accepted, if_true, failed, Bool.false_eq_true, if_false] at keeps ⊢
  obtain ⟨link, later, globals, machines, le, after, -, grows⟩ :=
    h.run stateless (left.analysis prog).program
  rw [runProgram_of_failed _ _ failed] at keeps ⊢
  obtain ⟨settled, alike⟩ := h.settled.analyze_restore left.config prog
  refine ⟨h.config, h.host, settled, fun other => (alike other).trans (h.alike other),
    ⟨rfl, h.idle.2⟩, link.restrict left.machine.heap.Visible, ?_, ?_⟩
  · exact globals.restrict (by simpa [Heap.globalEnvironment] using ⟨.globals, .host⟩)
  · refine ⟨machines.heap.rollback grows keeps, h.idle.2.symm, rfl, ?_⟩
    exact fun a b pair => ⟨(after.stampsBelow (le.stamp a b pair)).1, (machines.stampsBelow pair).2⟩

/-- An input that fails at run time in one session leaves it related to the other, which does not get
it. -/
theorem Related.fail (h : Related left right) (stateless : left.host.Stateless) (src : String)
    (fails : left.failsAtRunTime src = true)
    (keeps : left.machine.heap.KeepsMissed (left.feed src).2.machine.heap) :
    Related (left.feed src).2 right := by
  rw [feed_eq] at keeps ⊢
  simp only [failsAtRunTime] at fails
  cases parse : parseText left.config.filename left.config.maxNestingDepth src with
  | error overflow => simp [parse] at fails
  | ok parsed =>
    simp only [parse, Bool.and_eq_true, Bool.not_eq_true'] at fails
    obtain ⟨⟨clean, accepted⟩, failed⟩ := fails
    simp only [parse, clean, if_true] at keeps ⊢
    exact h.failParsed stateless parsed.program accepted failed keeps

/-! ## Whole sessions -/

theorem host_feed (session : Session) (src : String) :
    (session.feed src).2.host = session.host := by
  rw [feed_eq]
  split
  · rfl
  · dsimp only
    split
    · rw [runParsed_eq]
      split <;> rfl
    · rfl

/-- Where inputs that fail are left out, the others give the same. -/
theorem Related.transcript (h : Related left right) (stateless : left.host.Stateless)
    (inputs : List String) (keeps : left.KeepsMissed inputs) :
    List.Forall₂ Reply.Same
      (((left.transcript inputs).filter fun exchange => !exchange.failed).map Exchange.reply)
      ((right.transcript (((left.transcript inputs).filter fun exchange => !exchange.failed).map
        Exchange.source)).map Exchange.reply) := by
  induction inputs generalizing left right with
  | nil => exact .nil
  | cons src rest ih =>
    have host := left.host_feed src
    obtain ⟨missed, later⟩ := keeps
    cases fails : left.failsAtRunTime src with
    | true =>
      have next := h.fail stateless src fails (missed fails)
      simpa [Session.transcript, fails] using ih next (host ▸ stateless) later
    | false =>
      obtain ⟨same, next⟩ := h.feed stateless src fails
      simp only [Session.transcript, fails, List.filter_cons, Bool.not_false, if_true, List.map_cons]
      exact .cons same (ih next (host ▸ stateless) later)

/-- A session before its first input is related to itself. -/
theorem start_related (config : Config) (host : Host) :
    Related (start config host) (start config host) := by
  let link : Link := ⟨fun a b => a = b ∧ a < 2, fun _ _ => False, fun _ _ => False⟩
  have hosts : Bindings.Related link
      (Table.ofList (host.map fun fn => (fn.name, some (.host fn.name))))
      (Table.ofList (host.map fun fn => (fn.name, some (.host fn.name)))) := by
    refine Table.Related.ofList (List.forall₂_same.mpr fun pair mem => ?_)
    obtain ⟨fn, -, rfl⟩ := List.mem_map.mp mem
    exact ⟨rfl, .some (.host _)⟩
  refine ⟨rfl, rfl, Analyzer.initial_settled _, fun _ => rfl, ⟨rfl, rfl⟩, link, ?_,
    ⟨⟨?_, ?_, ?_, ?_, ?_⟩, rfl, rfl, ?_⟩⟩
  · exact .cons ⟨rfl, by decide⟩ (.cons ⟨rfl, by decide⟩ .nil)
  · refine ⟨?_, fun _ _ _ _ pair => pair.elim, fun _ _ _ _ pair => pair.elim⟩
    rintro a b c d ⟨rfl, -⟩ ⟨rfl, -⟩
    rfl
  · rintro a b ⟨rfl, inBounds⟩
    exact ⟨inBounds, inBounds⟩
  · exact fun _ _ pair => pair.elim
  · rintro a b ⟨rfl, inBounds⟩
    match a, inBounds with
    | 0, _ => exact hosts
    | 1, _ => exact .empty
  · exact fun pair => pair.elim
  · exact fun _ _ pair => pair.elim

/-- In every session, the inputs that do not fail at run time give the same without those that do,
if the failing ones leave the cells alone that later inputs can reach but a checkpoint misses. -/
theorem transcript_survivors (config : Config) (host : Host) (stateless : host.Stateless)
    (inputs : List String) (keeps : (start config host).KeepsMissed inputs) :
    let survivors := ((start config host).transcript inputs).filter fun exchange => !exchange.failed
    List.Forall₂ Reply.Same (survivors.map Exchange.reply)
      (((start config host).transcript (survivors.map Exchange.source)).map Exchange.reply) :=
  (start_related config host).transcript stateless inputs keeps

/-- A method call that changes a field and then fails is undone: the methods of the instance are in
the global scope, so the checkpoint misses nothing. -/
theorem transcript_survivors_field :
    let inputs := [
      "struct P \x7b x: int; fn up() -> int \x7b self.x = self.x + 1; return self.x \x7d \x7d",
      "var p = P(1)", "p.up() / 0", "p.x"]
    let survivors := ((start {} []).transcript inputs).filter fun exchange => !exchange.failed
    (start {} []).KeepsMissed inputs ∧ survivors.map Exchange.source = inputs.eraseIdx 2 ∧
      List.Forall₂ Reply.Same (survivors.map Exchange.reply)
        (((start {} []).transcript (survivors.map Exchange.source)).map Exchange.reply) := by
  intro inputs survivors
  have keeps : (start {} []).KeepsMissed inputs := by
    refine ⟨fun fails => absurd fails (by decide +kernel), fun fails => absurd fails (by decide +kernel),
      fun _ => ?_, fun fails => absurd fails (by decide +kernel), trivial⟩
    -- There is no host function, so the frame of the host is empty before and after.
    have empty (table : Bindings) (h : table.entries.isEmpty) : table = .empty := by
      obtain ⟨entries⟩ := table
      exact congrArg Table.mk (List.isEmpty_iff.mp h)
    refine Heap.keepsMissed_of_closed (by decide +kernel) (by decide +kernel) ?_
    exact (empty _ (by decide +kernel)).trans (empty _ (by decide +kernel)).symm
  exact ⟨keeps, by decide +kernel, transcript_survivors {} [] (by simp [Host.Stateless]) inputs keeps⟩

/-- The variable of a block that only the methods of an instance refer to is missed: a failing input
that counts it up leaves it changed. -/
theorem transcript_survivors_fails_for_methods :
    let inputs := [
      "var g",
      "\x7b var n = 0; struct S \x7b x: int; fn bump() -> int \x7b n = n + 1; return n \x7d \x7d; " ++
        "g = S(1) \x7d",
      "g.bump() / 0", "g.bump()"]
    let session := start {} (Host.standard 0)
    let survivors := (session.transcript inputs).filter fun exchange => !exchange.failed
    ¬List.Forall₂ Reply.Same (survivors.map Exchange.reply)
      ((session.transcript (survivors.map Exchange.source)).map Exchange.reply) := by
  intro inputs session survivors same
  have texts : (survivors.map Exchange.reply).map Reply.text? =
      ((session.transcript (survivors.map Exchange.source)).map Exchange.reply).map Reply.text? := by
    rw [← List.forall₂_eq_eq_eq, List.forall₂_map_left_iff, List.forall₂_map_right_iff]
    exact same.imp fun _ _ => Reply.Same.text?_eq
  revert texts
  decide +kernel

end Session

end FlowScript
