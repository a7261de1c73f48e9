import FlowScript.Proofs.EvolvingRules
import FlowScript.Proofs.NewVariables
/-!
# Running statements that were checked

The check of a stretch of a program leads from one state to another.  `Run.Passes` says of the stretch what
is wanted: run on a heap that agrees with the first state, it comes to one that agrees with the second, or to
an expected stop.  Stretches are put one after another (`Run.Passes.andThen`) and made branches and bodies of
loops (`Run.Passes.ite`, `Run.Passes.whileLoop`, `Run.Passes.forLoop`).

`Stmt.Steps` and `Stmt.AllStep` collect what a check without an error shows of a statement and of a list of
them.  The type of a variable may be found out after its declaration, and is noted in the declaration when
the whole list has been checked; so they are about a statement as it is noted in some later state.

Main statement: `Checks.Stepping.checkBlock`, that as much is shown of a block, run in a new frame, if it is
shown of its statements.
-/

namespace FlowScript

/-! ## Stretches of a program -/

namespace Run

/-- Whether a stretch of a program, run on a heap that agrees with one state of checking, comes to a heap
that agrees with another, or to an expected stop.  Only variables of some names are assigned on the way,
and if control is said never to fall off the end of the stretch, it comes to no end. -/
def Passes (run : Run) (before : Analyzer) (names : List String) (after : Analyzer) (ends : Bool)
    (action : Evaluator → Environment → Eval Unit) : Prop :=
  ∀ levels env memory machine, run.Agrees before env memory machine.heap →
    Run.Meets (action (run.evaluator levels) env) machine fun _ reached =>
      ends = false ∧ run.Arrives before names after env memory reached.heap

namespace Passes

variable {run : Run} {before mid after other : Analyzer} {names more : List String}
  {ends stops : Bool} {action rest : Evaluator → Environment → Eval Unit}

theorem skip (run : Run) (a : Analyzer) (names : List String) :
    run.Passes a names a false fun _ _ => pure () :=
  fun _ _ memory _ agrees => .pure ⟨rfl, memory, agrees, .refl a names memory⟩

/-- One stretch after another. -/
theorem andThen (first : run.Passes before names mid ends action)
    (second : run.Passes mid names after stops rest)
    (visible : ∀ ref, before.Visible ref → mid.Visible ref) :
    run.Passes before names after (ends || stops) fun evaluator env =>
      action evaluator env >>= fun _ => rest evaluator env := by
  intro levels env memory machine agrees
  refine .bind (first levels env memory machine agrees) ?_
  rintro _ machine ⟨rfl, between, agrees, kept⟩
  refine (second levels env between machine agrees).mono ?_
  rintro _ reached ⟨rfl, last, agrees, later⟩
  exact ⟨rfl, last, agrees, kept.trans later visible⟩

theorem mono (h : run.Passes before names after ends action) (sub : names ⊆ more) :
    run.Passes before more after ends action := by
  intro levels env memory machine agrees
  refine (h levels env memory machine agrees).mono ?_
  rintro _ reached ⟨comes, last, agrees, kept⟩
  exact ⟨comes, last, agrees, kept.mono sub⟩

/-- The stretch starts where more is known. -/
theorem of_agrees (h : run.Passes other names after ends action)
    (agree : ∀ {env memory heap}, run.Agrees before env memory heap →
      run.Agrees other env memory heap)
    (visible : ∀ ref, before.Visible ref → other.Visible ref) :
    run.Passes before names after ends action := by
  intro levels env memory machine agrees
  refine (h levels env memory machine (agree agrees)).mono ?_
  rintro _ reached ⟨comes, last, agrees, kept⟩
  exact ⟨comes, last, agrees, kept.of_visible visible⟩

/-- Less is known where the stretch ends. -/
theorem settle (h : run.Passes before names mid ends action)
    (agree : ends = false → ∀ {env memory heap}, run.Agrees mid env memory heap →
      run.Agrees after env memory heap) :
    run.Passes before names after ends action := by
  intro levels env memory machine agrees
  refine (h levels env memory machine agrees).mono ?_
  rintro _ reached ⟨comes, last, agrees, kept⟩
  exact ⟨comes, last, agree comes agrees, kept⟩

end Passes

end Run

/-! ## Branches and loops -/

/-- The state in which more facts are known. -/
def Analyzer.knowing (a : Analyzer) (facts : Facts) : Analyzer :=
  { a with flow := a.flow.apply facts }

/-- The state at the start of a loop, where nothing is known of the variables that its body assigns. -/
def Analyzer.looping (a : Analyzer) (names : List String) : Analyzer :=
  { a with flow := a.flow.forget names }

namespace Analyzer

variable {a : Analyzer}

theorem Steady.know (h : a.Steady) {facts : Facts} (fine : a.Fine facts) :
    (a.knowing facts).Steady :=
  h.setFlow (h.facts.overlay fine)

theorem Steady.loop (h : a.Steady) (names : List String) : (a.looping names).Steady :=
  h.setFlow (h.facts.of_subset List.filter_sublist.subset)

theorem not_mem_of_looping {names : List String} {entry : SymbolRef × Ty}
    (mem : entry ∈ (a.looping names).flow.facts.entries) : entry.1.name ∉ names := by
  have kept := (List.mem_filter.mp mem).2
  simpa using kept

end Analyzer

/-- The value of a condition, with the facts for it. The condition of a loop that never ends is true. -/
theorem Expr.Told.decide {a : Analyzer} {e : Expr} {facts : Branches} (told : e.Told a facts)
    (checked : e.Checked) {run : Run} (refines : a.Refines run.later) {levels : Nat}
    {env : Environment} {memory : Memory} {machine : Machine}
    (agrees : run.Agrees a env memory machine.heap) :
    Run.Meets ((run.evaluator levels).expr env e) machine fun value after => after = machine ∧
      Run.FactsHold memory (facts.given value.isTrue) ∧ (e.isForever = true → value.isTrue = true) := by
  have evaluates : Run.Meets ((run.evaluator levels).expr env e) machine fun value after =>
      (after = machine ∧ value.Is e.checkedTy ∧ Run.FactsHold memory (facts.given value.isTrue)) ∧
        (e.isForever = true → value.isTrue = true) := by
    refine eval_plain told.plain checked.ty_eq (fun _ _ holds => holds.1.2.1) fun levels => ?_
    have sound := told.sound run refines levels env memory machine agrees
    cases forever : e.isForever with
    | false => exact sound.mono fun _ _ holds => ⟨holds, by rintro ⟨⟩⟩
    | true =>
      unfold isForever at forever
      split at forever
      · exact .pure ⟨sound, fun _ => rfl⟩
      · cases forever
  refine evaluates.mono ?_
  rintro value after ⟨⟨same, -, hold⟩, forever⟩
  exact ⟨same, hold, forever⟩

/-- Whether an expression has a whole number for its value where it was checked. -/
def Expr.Counts (e : Expr) (a : Analyzer) : Prop :=
  ∀ run : Run, a.Refines run.later → ∀ levels env memory machine,
    run.Agrees a env memory machine.heap →
    Run.Meets ((run.evaluator levels).expr env e) machine fun value reached =>
      reached = machine ∧ ∃ n, value.index = .ok n

namespace Run.Passes

variable {run : Run} {start inner after : Analyzer} {cond : Expr} {facts : Branches}
  {names : List String} {ends stops : Bool} {action other : Evaluator → Environment → Eval Unit}

/-- A conditional, whose branches start where the facts for them are known. -/
theorem ite (told : cond.Told start facts) (checked : cond.Checked)
    (refines : start.Refines run.later)
    (yes : run.Passes (start.knowing facts.whenTrue) names after ends action)
    (no : run.Passes (start.knowing facts.whenFalse) names after stops other) :
    run.Passes start names after (ends && stops) fun evaluator env =>
      evaluator.expr env cond >>= fun value =>
        if value.isTrue then action evaluator env else other evaluator env := by
  intro levels env memory machine agrees
  refine .bind (told.decide checked refines agrees) ?_
  rintro value machine ⟨rfl, hold, -⟩
  refine .ite (fun truth => ?_) fun falsity => ?_
  · rw [truth] at hold
    refine (yes levels env memory machine (agrees.apply hold)).mono ?_
    rintro _ reached ⟨rfl, last, agrees, kept⟩
    exact ⟨rfl, last, agrees, kept.of_visible fun _ visible => visible⟩
  · rw [Bool.eq_false_iff.mpr falsity] at hold
    refine (no levels env memory machine (agrees.apply hold)).mono ?_
    rintro _ reached ⟨rfl, last, agrees, kept⟩
    exact ⟨Bool.and_false ends, last, agrees, kept.of_visible fun _ visible => visible⟩

/-- A loop on a condition. What is known when the condition is tested for the first time is known every
time, since nothing is known of the variables that the body assigns. -/
theorem whileLoop (told : cond.Told start facts) (checked : cond.Checked)
    (refines : start.Refines run.later) (wellFormed : start.WellFormed)
    (body : run.Passes (start.knowing facts.whenTrue) names inner ends action)
    (evolves : start.Evolves false inner)
    (forgotten : ∀ entry ∈ start.flow.facts.entries, entry.1.name ∉ names)
    (exit : ∀ {env memory heap}, run.Agrees start env memory heap →
      FactsHold memory facts.whenFalse → run.Agrees after env memory heap) (patience : Nat) :
    run.Passes start names after cond.isForever fun evaluator env =>
      Eval.whileLoop (evaluator.expr env cond) (action evaluator env) patience := by
  intro levels env memory machine agrees
  induction patience generalizing memory machine with
  | zero => exact .throw rfl
  | succ patience ih =>
    refine .bind (told.decide checked refines agrees) ?_
    rintro value machine ⟨rfl, hold, forever⟩
    refine .ite (fun truth => ?_) fun falsity => ?_
    · rw [truth] at hold
      refine .bind (body levels env memory machine (agrees.apply hold)) ?_
      rintro _ machine ⟨-, between, done, kept⟩
      have kept : Run.Keeps start names memory between := kept.of_visible fun _ visible => visible
      refine (ih between machine (agrees.again done kept wellFormed evolves forgotten)).mono ?_
      rintro _ reached ⟨comes, last, agrees, later⟩
      exact ⟨comes, last, agrees, kept.trans later fun _ visible => visible⟩
    · rw [Bool.eq_false_iff.mpr falsity] at hold
      refine .pure ⟨?_, memory, exit agrees hold, .refl start names memory⟩
      exact Bool.eq_false_iff.mpr fun never => falsity (forever never)

/-- A loop over a range, which likewise is run any number of times. -/
theorem forLoop {body : Evaluator → Environment → Int → Eval Unit} (wellFormed : start.WellFormed)
    (passes : ∀ index, run.Passes start names inner ends fun evaluator env =>
      body evaluator env index)
    (evolves : start.Evolves false inner)
    (forgotten : ∀ entry ∈ start.flow.facts.entries, entry.1.name ∉ names) (count : Nat) (first : Int) :
    run.Passes start names start false fun evaluator env =>
      Eval.forLoop (body evaluator env) count first := by
  intro levels env memory machine agrees
  induction count generalizing memory machine first with
  | zero => exact .pure ⟨rfl, memory, agrees, .refl start names memory⟩
  | succ count ih =>
    refine .bind (passes first levels env memory machine agrees) ?_
    rintro _ machine ⟨-, between, done, kept⟩
    refine (ih (first + 1) between machine
      (agrees.again done kept wellFormed evolves forgotten)).mono ?_
    rintro _ reached ⟨comes, last, agrees, later⟩
    exact ⟨comes, last, agrees, kept.trans later fun _ visible => visible⟩

end Run.Passes

/-! ## Parts of statements -/

/-- What a check without an error shows of a part of a statement, between two states: of a branch, of the
body of a loop, or of a statement that is run for its effects. -/
structure Part (action : Run → Evaluator → Environment → Eval Unit) (ends : Bool) (before : Analyzer)
    (names : List String) (after : Analyzer) : Prop where
  steady : after.Steady
  evolves : before.Evolves false after
  sound : ∀ run : Run, after.Refines run.later → run.Passes before names after ends (action run)

namespace Part

variable {before mid after : Analyzer} {names more : List String} {ends stops : Bool}
  {action other : Run → Evaluator → Environment → Eval Unit} {cond : Expr} {facts : Branches}

theorem mono (h : Part action ends before names after) (sub : names ⊆ more) :
    Part action ends before more after :=
  ⟨h.steady, h.evolves, fun run refines => (h.sound run refines).mono sub⟩

/-- The part starts in a later state in which no more is known. -/
theorem of_later (h : Part action ends mid names after) (evolves : before.Evolves false mid)
    (wellFormed : before.WellFormed) (weakens : before.flow.Weakens mid.flow) :
    Part action ends before names after := by
  refine ⟨h.steady, evolves.trans h.evolves, fun run refines => ?_⟩
  refine (h.sound run refines).of_agrees ?_ fun _ => evolves.visible
  intro env memory heap agrees
  exact agrees.evolve wellFormed evolves weakens

/-- The check goes on to a later state in which no more is known. -/
theorem until_later (h : Part action ends before names mid) (evolves : mid.Evolves false after)
    (steady : after.Steady) (weakens : ends = false → mid.flow.Weakens after.flow) :
    Part action ends before names after := by
  refine ⟨steady, h.evolves.trans evolves, fun run refines => ?_⟩
  refine (h.sound run (refines.of_evolves evolves h.steady.toRegular)).settle ?_
  intro comes env memory heap agrees
  exact agrees.evolve h.steady.wellFormed evolves (weakens comes)

/-- A conditional. -/
theorem ite (told : cond.Told before facts) (checked : cond.Checked) (steady : before.Steady)
    (yes : Part action ends (before.knowing facts.whenTrue) names after)
    (no : Part other stops (before.knowing facts.whenFalse) names after) :
    Part (fun run evaluator env => evaluator.expr env cond >>= fun value =>
      if value.isTrue then action run evaluator env else other run evaluator env)
      (ends && stops) before names after := by
  have evolves := (steady.evolves_setFlow false _).trans yes.evolves
  refine ⟨yes.steady, evolves, fun run refines => ?_⟩
  exact .ite told checked (refines.of_evolves evolves steady.toRegular) (yes.sound run refines)
    (no.sound run refines)

/-- A loop on a condition. The check of its body has come to `middle`, and `after` is a later state in which
no more is known than at the start of the loop. -/
theorem whileLoop (told : cond.Told before facts) (checked : cond.Checked)
    (steady : before.Steady) (body : Part action ends (before.knowing facts.whenTrue) names mid)
    (forgotten : ∀ entry ∈ before.flow.facts.entries, entry.1.name ∉ names)
    (evolves : mid.Evolves false after) (leaving : after.Steady)
    (weakens : before.flow.Weakens after.flow) :
    Part (fun run evaluator env => Eval.whileLoop (evaluator.expr env cond)
      (action run evaluator env) run.setup.patience)
      cond.isForever before names (after.knowing facts.whenFalse) := by
  have first := (steady.evolves_setFlow false _).trans body.evolves
  have all := first.trans evolves
  refine ⟨leaving.know ((told.fine false).mono all.grows.nameCount),
    all.trans (leaving.evolves_setFlow false _), fun run refines => ?_⟩
  have refines : after.Refines run.later := refines
  have refines := refines.of_evolves evolves body.steady.toRegular
  refine .whileLoop told checked (refines.of_evolves first steady.toRegular) steady.wellFormed
    (body.sound run refines) first forgotten ?_ run.setup.patience
  intro env memory heap agrees hold
  exact (agrees.evolve steady.wellFormed all weakens).apply hold

/-- A loop starts with nothing known of the variables that its body assigns. -/
theorem of_looping (h : Part action ends (before.looping names) names after) (steady : before.Steady) :
    Part action ends before names after :=
  h.of_later (steady.evolves_setFlow false _) steady.wellFormed (.forget _ _)

/-- A loop over a range. The check of its body has come to `middle`, and `after` is a later state in which
no more is known than at the start of the loop. -/
theorem forRange (pos : Position) {name : String} {first last : Expr} {body : Block Stmt}
    (low : first.Counts before) (high : last.Counts before) (steady : before.Steady)
    (rounds : ∀ index : Int, Part (fun _ evaluator env =>
      evaluator.runNested (Table.empty.insert name (some (.int index))) env body) ends
      (before.looping names) names mid)
    (evolves : mid.Evolves false after) (leaving : after.Steady)
    (weakens : (before.looping names).flow.Weakens after.flow) :
    Part (fun run evaluator env => evaluator.runStatement run.setup.patience env
      (.forRange pos name first last body)) false before names after := by
  have entering := steady.loop names
  have round := rounds 0
  have enters : before.Evolves false (before.looping names) := steady.evolves_setFlow false _
  have all := (enters.trans round.evolves).trans evolves
  refine ⟨leaving, all, fun run refines levels env memory machine agrees => ?_⟩
  have bounds := refines.of_evolves all steady.toRegular
  have refines := refines.of_evolves evolves round.steady.toRegular
  refine .bind (low run bounds levels env memory machine agrees) ?_
  rintro low _ ⟨rfl, least, lowEq⟩
  refine .bind (high run bounds levels env memory _ agrees) ?_
  rintro high machine ⟨rfl, bound, highEq⟩
  rw [lowEq, highEq]
  have starts : run.Agrees (before.looping names) env memory machine.heap :=
    agrees.evolve steady.wellFormed enters (.forget _ _)
  -- every round starts with the facts on what no round assigns
  have loop := Run.Passes.forLoop entering.wellFormed (fun index => (rounds index).sound run refines)
    round.evolves (fun _ => Analyzer.not_mem_of_looping) (bound - least).toNat least
  refine (loop levels env memory machine starts).mono ?_
  rintro _ reached ⟨comes, other, agrees, kept⟩
  exact ⟨comes, other, agrees.evolve entering.wellFormed (round.evolves.trans evolves) weakens,
    kept.of_visible fun _ => enters.visible⟩

end Part

theorem Eval.forM_concat {ι : Type} (f : ι → Eval Unit) (items : List ι) (item : ι) :
    (items ++ [item]).forM f = items.forM f >>= fun _ => f item := by
  rw [List.forM_eq_forM, List.forM_append, List.forM_cons]
  simp

/-! ## What a check without an error shows -/

/-- What a check without an error shows of a statement, between two states.  Some of its notes are made
later; `form last` is the statement as it is noted when the check has come to `last`. -/
structure Stmt.Steps (form : Analyzer → Stmt) (ends : Bool) (before : Analyzer) (names : List String)
    (after : Analyzer) : Prop where
  operates : ∀ last, (form last).Each Node.Operates
  hoists : ∀ last environment, Eval.hoist environment (form last) = pure ()
  sound : ∀ (run : Run) (last : Analyzer), after.Evolves true last → last.Refines run.later →
    run.Passes before names after ends fun evaluator environment =>
      evaluator.statement environment (form last)
  /-- At the top of a program an expression is run for its value. -/
  top : ∀ (run : Run) (last : Analyzer), after.Evolves true last → last.Refines run.later →
    ∀ levels memory machine, run.Agrees before Heap.globalEnvironment memory machine.heap →
      Run.Meets ((run.evaluator levels).step (form last)) machine fun _ reached =>
        ends = false ∧ run.Arrives before names after Heap.globalEnvironment memory reached.heap

/-- What a check without an error shows of a list of statements, between two states. -/
structure Stmt.AllStep (forms : Analyzer → List Stmt) (ends : Bool) (before : Analyzer)
    (names : List String) (after : Analyzer) : Prop where
  operates : ∀ last, Stmt.EachOf Node.Operates (forms last)
  hoists : ∀ last environment, (forms last).forM (Eval.hoist environment) = pure ()
  sound : ∀ (run : Run) (last : Analyzer), after.Evolves true last → last.Refines run.later →
    run.Passes before names after ends fun evaluator environment =>
      (forms last).forM (evaluator.statement environment)
  top : ∀ (run : Run) (last : Analyzer), after.Evolves true last → last.Refines run.later →
    ∀ levels value memory machine, run.Agrees before Heap.globalEnvironment memory machine.heap →
      Run.Meets ((forms last).foldlM (fun _ s => (run.evaluator levels).step s) value) machine
        fun _ reached =>
          ends = false ∧ run.Arrives before names after Heap.globalEnvironment memory reached.heap

namespace Stmt

variable {before mid after : Analyzer} {names : List String} {ends stops : Bool}
  {form : Analyzer → Stmt} {forms : Analyzer → List Stmt}

/-- A statement that is no expression is run for nothing but its effects. -/
theorem Steps.of_rule (plain : ∀ last pos value, form last ≠ .expr pos value)
    (operates : ∀ last, (form last).Each Node.Operates)
    (hoists : ∀ last env, Eval.hoist env (form last) = pure ())
    (sound : ∀ (run : Run) (last : Analyzer), after.Evolves true last → last.Refines run.later →
      run.Passes before names after ends fun evaluator env =>
        evaluator.runStatement run.setup.patience env (form last)) :
    Steps form ends before names after := by
  have runs (run : Run) (last : Analyzer) (evolves : after.Evolves true last)
      (refines : last.Refines run.later) : run.Passes before names after ends fun evaluator env =>
        evaluator.statement env (form last) := by
    intro levels env memory machine agrees
    cases levels with
    | zero => exact .throw rfl
    | succ levels => exact sound run last evolves refines levels env memory machine agrees
  refine ⟨operates, hoists, runs, fun run last evolves refines levels memory machine agrees => ?_⟩
  have step : (run.evaluator levels).step (form last) = do
      (run.evaluator levels).statement Heap.globalEnvironment (form last)
      return .nil := by
    cases eq : form last with
    | expr pos value => exact absurd eq (plain last pos value)
    | _ => rfl
  rw [step]
  refine .bind (runs run last evolves refines levels _ memory machine agrees) fun _ reached holds => ?_
  exact .pure holds

/-- A statement that has no notes made later. -/
theorem Steps.of_part {s : Stmt}
    (part : Part (fun run evaluator env =>
      evaluator.runStatement run.setup.patience env s) ends before names after)
    (plain : ∀ pos value, s ≠ .expr pos value) (operates : s.Each Node.Operates)
    (hoists : ∀ env, Eval.hoist env s = pure ()) :
    Steps (fun _ => s) ends before names after :=
  .of_rule (fun _ => plain) (fun _ => operates) (fun _ => hoists) fun run _ evolves refines =>
    part.sound run (refines.of_evolves evolves part.steady.toRegular)

/-- An expression that is checked. -/
theorem Steps.expr {e : Expr} (checked : e.Checked) (unwidened : e.note.widen = false)
    (assigns : e.Assigns before names after) (regular : after.Regular) (pos : Position) :
    Steps (fun _ => .expr pos e) false before names after := by
  have evaluates (run : Run) (last : Analyzer) (evolves : after.Evolves true last)
      (refines : last.Refines run.later) (levels : Nat) (env : Environment) (memory : Memory)
      (machine : Machine) (agrees : run.Agrees before env memory machine.heap) :
      Run.Meets ((run.evaluator levels).expr env e) machine fun value reached =>
        value.Is e.checkedTy ∧ run.Arrives before names after env memory reached.heap :=
    Expr.eval_plain unwidened checked.ty_eq (fun _ _ holds => holds.1) fun levels =>
      assigns.sound run (refines.of_evolves evolves regular) levels env memory machine agrees
  refine ⟨fun _ => each_expr.mpr ⟨trivial, assigns.operates⟩, fun _ _ => rfl,
    fun run last evolves refines => ?_, fun run last evolves refines levels memory machine agrees => ?_⟩
  · intro levels env memory machine agrees
    cases levels with
    | zero => exact .throw rfl
    | succ levels =>
      refine .bind (evaluates run last evolves refines levels _ memory machine agrees) ?_
      rintro _ reached ⟨-, arrives⟩
      exact .pure ⟨rfl, arrives⟩
  · refine (evaluates run last evolves refines levels _ memory machine agrees).mono ?_
    rintro _ reached ⟨-, arrives⟩
    exact ⟨rfl, arrives⟩

theorem Steps.mono {more : List String} (h : Steps form ends before names after) (sub : names ⊆ more) :
    Steps form ends before more after where
  operates := h.operates
  hoists := h.hoists
  sound run last evolves refines := (h.sound run last evolves refines).mono sub
  top run last evolves refines levels memory machine agrees := by
    refine (h.top run last evolves refines levels memory machine agrees).mono ?_
    rintro _ reached ⟨comes, other, agrees, kept⟩
    exact ⟨comes, other, agrees, kept.mono sub⟩

/-- The statement starts where more is known. -/
theorem Steps.of_agrees (h : Steps form ends mid names after)
    (agree : ∀ {run : Run} {env memory heap}, run.Agrees before env memory heap →
      run.Agrees mid env memory heap)
    (visible : ∀ ref, before.Visible ref → mid.Visible ref) : Steps form ends before names after where
  operates := h.operates
  hoists := h.hoists
  sound run last evolves refines := (h.sound run last evolves refines).of_agrees agree visible
  top run last evolves refines levels memory machine agrees := by
    refine (h.top run last evolves refines levels memory machine (agree agrees)).mono ?_
    rintro _ reached ⟨comes, other, agrees, kept⟩
    exact ⟨comes, other, agrees, kept.of_visible visible⟩

/-- Nothing is run. -/
theorem AllStep.nil (a : Analyzer) (names : List String) :
    AllStep (fun _ => []) false a names a where
  operates _ := by rintro _ ⟨⟩
  hoists _ _ := rfl
  sound run _ _ _ := .skip run a names
  top _ _ _ _ _ _ memory _ agrees := .pure ⟨rfl, memory, agrees, .refl a names memory⟩

/-- One more statement. -/
theorem AllStep.snoc (first : AllStep forms ends before names mid)
    (second : Steps form stops mid names after) (evolves : mid.Evolves true after)
    (visible : ∀ ref, before.Visible ref → mid.Visible ref) :
    AllStep (fun last => forms last ++ [form last]) (ends || stops) before names after where
  operates last := by
    refine eachOf_iff.mpr fun s mem => ?_
    rcases List.mem_append.mp mem with old | new
    · exact eachOf_iff.mp (first.operates last) s old
    · rw [List.mem_singleton.mp new]
      exact second.operates last
  hoists last env := by
    rw [Eval.forM_concat, first.hoists, pure_bind, second.hoists]
  sound run last later refines := by
    have passes := (first.sound run last (evolves.trans later) refines).andThen
      (second.sound run last later refines) visible
    simpa only [Eval.forM_concat] using passes
  top run last later refines levels value memory machine agrees := by
    rw [List.foldlM_append]
    refine .bind (first.top run last (evolves.trans later) refines levels value memory machine agrees) ?_
    rintro value machine ⟨rfl, between, agrees, kept⟩
    refine .bind (second.top run last later refines levels between machine agrees) ?_
    rintro value reached ⟨rfl, last, agrees, later⟩
    exact .pure ⟨rfl, last, agrees, kept.trans later visible⟩

/-- The notes are made now. -/
theorem AllStep.fix (h : AllStep forms ends before names after) (regular : after.Regular) :
    AllStep (fun _ => forms after) ends before names after where
  operates _ := h.operates after
  hoists _ := h.hoists after
  sound run _ later refines :=
    h.sound run after (.refl regular.wellFormed) (refines.of_evolves later regular)
  top run _ later refines :=
    h.top run after (.refl regular.wellFormed) (refines.of_evolves later regular)

end Stmt

/-! ## Blocks -/

/-- The state in which a block is left: at the site before it, and with those facts of before that still
hold. -/
def Analyzer.left (before last : Analyzer) : Analyzer :=
  { last with
    site := before.site
    flow := { last.flow with facts := before.flow.facts.common last.flow.facts } }

/-- Whether a new frame of the heap with some variables stands for the frame that is opened for a
block. -/
def Run.Opens (run : Run) (before inner : Analyzer) (bindings : Bindings) : Prop :=
  ∀ {env memory heap}, run.Agrees before env memory heap →
    ∃ other, run.Agrees inner (heap.frames.size :: env) other (heap.pushFrame bindings) ∧
      Run.Keeps before [] memory other

/-- What a check without an error shows of a block, between two states; `inner` is the state in which its
first statement is checked. -/
structure Block.Nests (block : Block Stmt) (ends : Bool) (before inner : Analyzer) (names : List String)
    (after : Analyzer) : Prop where
  steady : after.Steady
  evolves : before.Evolves false after
  operates : Stmt.EachOf Node.Operates block.statements
  sound : ∀ (run : Run) (bindings : Bindings), after.Refines run.later →
    (inner.Refines run.later → run.Opens before inner bindings) →
    run.Passes before names after ends fun evaluator environment =>
      evaluator.runNested bindings environment block

namespace Analyzer

variable {before inner last : Analyzer}

/-- A block is left. -/
theorem Steady.leave (h : last.Steady) (outer : before.Regular) (wellFormed : (before.left last).WellFormed)
    (visible : before.site.frames ⊆ last.site.frames) : (before.left last).Steady where
  wellFormed := wellFormed
  consistent :=
    ((h.consistent.move before.site last.active last.topLevel).consistent.setFlow
      (outer.consistent.typed.facts.filter _)).consistent
  outside := outer.outside
  inside := outer.inside
  kinds := h.kinds
  facts := h.facts.of_subset fun _ mem => (Facts.mem_of_mem_common mem).2
  separate first memFirst second memSecond :=
    h.separate first (visible memFirst) second (visible memSecond)
  ready := h.ready

end Analyzer

namespace Run

variable {run : Run} {before inner last : Analyzer} {names : List String} {ends : Bool}
  {bindings : Bindings} {stmts : List Stmt}

/-- A block without variables of its own is entered. -/
theorem opens_entered (run : Run) (wellFormed : before.WellFormed) :
    run.Opens before before.entered Table.empty := by
  intro env memory heap agrees
  exact ⟨_, agrees.enter wellFormed, fun _ _ _ => rfl, fun _ _ => id⟩

/-- A block with one variable of its own is entered. -/
theorem opens_introduced {name : String} {value : Value} (regular : before.Regular)
    (introduced : before.entered.Introduces name inner)
    (own : value.Is (run.later.symbol (before.entered.fresh name)).ty) :
    run.Opens before inner (Table.empty.insert name (some value)) := by
  intro env memory heap agrees
  have inside := introduced.agrees regular.enter (agrees.enter regular.wellFormed) (some value) own
  have place : (memory.put before.frames.size heap.frames.size).place before.entered.scope =
      heap.frames.size := if_pos rfl
  rw [place, ← Heap.pushFrame_insert] at inside
  have kept := introduced.keeps regular.enter [] (memory.put before.frames.size heap.frames.size)
    (some (some value))
  have visible (ref : SymbolRef) : before.Visible ref → before.entered.Visible ref :=
    Analyzer.visible_entered.mpr
  have kept := kept.of_visible visible
  exact ⟨_, inside, kept.same, kept.assigned⟩

/-- A block is run in a new frame. -/
theorem Passes.nested (opens : run.Opens before inner bindings)
    (steps : Stmt.AllStep (fun _ => stmts) ends inner names last)
    (visible : ∀ ref, before.Visible ref → inner.Visible ref) (wellFormed : last.WellFormed)
    (refines : last.Refines run.later) {frame : Nat}
    (frames : last.site.frames = frame :: before.site.frames) (pos : Position) :
    run.Passes before names (before.left last) ends fun evaluator env =>
      evaluator.runNested bindings env ⟨pos, stmts⟩ := by
  intro levels env memory machine agrees
  obtain ⟨entered, inside, first⟩ := opens agrees
  have pushed : Run.Meets (Eval.pushFrame bindings env) machine fun reached after =>
      reached = machine.heap.frames.size :: env ∧
        after.heap = machine.heap.pushFrame bindings := ⟨rfl, rfl⟩
  refine .bind pushed ?_
  rintro _ reached ⟨rfl, heap⟩
  rw [← heap] at inside
  have passes := steps.sound run last (.refl wellFormed) refines levels _ entered reached inside
  have hoists := steps.hoists last (machine.heap.frames.size :: env)
  unfold Evaluator.runBlock
  dsimp only at hoists ⊢
  rw [hoists, pure_bind]
  refine passes.mono ?_
  rintro _ reached ⟨comes, other, agrees, later⟩
  refine ⟨comes, other, ?_, (first.mono (List.nil_subset names)).trans later visible⟩
  have left : run.Agrees { last with site := before.site } env other reached.heap :=
    agrees.leave frames
  exact left.setFlow ⟨fun _ mem => (Facts.mem_of_mem_common mem).2, List.Subset.refl _⟩

end Run

/-! ## Checking statements -/

mutual

/-- Whether a statement is made of variables, blocks, conditionals and loops, with expressions without
effects and assignments that are statements of their own. -/
def Stmt.isFirstOrder : Stmt → Bool
  | .block ⟨_, body⟩ => allFirstOrder body
  | .varDecl _ _ _ value _ => value.all Expr.isPure
  | .expr _ value => value.isChain
  | .ifElse _ cond ⟨_, body⟩ none => cond.isPure && allFirstOrder body
  | .ifElse _ cond ⟨_, body⟩ (some alt) =>
    cond.isPure && (allFirstOrder body && alt.isFirstOrder)
  | .whileLoop _ cond ⟨_, body⟩ => cond.isPure && allFirstOrder body
  | .forRange _ _ start stop ⟨_, body⟩ => start.isPure && (stop.isPure && allFirstOrder body)
  | .ret .. | .function _ | .struct _ | .trait _ => false

/-- Whether all statements of a list are so. -/
def allFirstOrder : List Stmt → Bool
  | [] => true
  | s :: rest => s.isFirstOrder && allFirstOrder rest

end

theorem Stmt.isFirstOrder_ifElse {pos : Position} {cond : Expr} {body : Block Stmt}
    {alt : Option Stmt} :
    (Stmt.ifElse pos cond body alt).isFirstOrder = true ↔ cond.isPure = true ∧
      allFirstOrder body.statements = true ∧ ∀ other ∈ alt, other.isFirstOrder = true := by
  cases alt <;> simp [isFirstOrder]

namespace Check.Ensures

variable {α : Type} {start : Analyzer}

theorem newFrame : Ensures start newFrame fun frame after =>
    frame = start.frames.size ∧ after = { start with frames := start.frames.push {} } :=
  .get (.modifyThen (.pure ⟨rfl, rfl⟩))

theorem atSite {site : Site} {action : Check α} {post : α → Analyzer → Prop}
    (h : Ensures { start with site } action post) :
    Ensures start (Check.atSite site action) fun res after =>
      ∃ last, post res last ∧ after = { last with site := start.site } :=
  .get (.modifyThen (.ensuring h fun _ last holds => ⟨last, holds, rfl⟩))

end Check.Ensures

namespace Checks

open Check (Ensures)

variable {checks : Checks} {start : Analyzer}

/-- What is shown of statements one level further in. -/
structure Stepping (checks : Checks) : Prop extends checks.Assigning where
  evolving : checks.Evolving
  statement : ∀ {s : Stmt} {start : Analyzer}, s.isFirstOrder = true → s.Plain →
    s.isAlternative = true → start.Steady →
    Ensures start (checks.statement s) fun checked after => (after.Steady ∧ start.Evolves false after) ∧
      Stmt.Steps (fun _ => checked.1) checked.2 start s.assignedNames after
  statements : ∀ {statements : List Stmt} {start : Analyzer}, allFirstOrder statements = true →
    Stmt.EachOf Node.Plain statements → start.Steady →
    Ensures start (checks.statements statements) fun checked after =>
      (after.Steady ∧ start.Evolves true after) ∧
        Stmt.AllStep (fun _ => checked.1) checked.2 start (assignedNames statements) after

namespace Stepping

/-- A block is checked in a new frame, in which something may be declared first. -/
theorem checkBlockAfter (h : checks.Stepping) {before : Check Unit} {opened : Analyzer → Prop}
    (first : Ensures start.entered before fun _ inner =>
      (inner.Steady ∧ start.entered.Evolves true inner) ∧ opened inner)
    (evolving : ∀ {base}, Check.Evolving true base before) {block : Block Stmt}
    (simple : allFirstOrder block.statements = true) (plain : Stmt.EachOf Node.Plain block.statements)
    (steady : start.Steady) :
    Ensures start (checks.checkBlockAfter before block) fun checked after => ∃ inner, opened inner ∧
      Block.Nests checked.1 checked.2 start inner (assignedNames block.statements) after := by
  have same : start.Evolves false start := .refl steady.wellFormed
  have evolves := Ensures.keeps (h.evolving.checkBlockAfter evolving block) same
  -- the state `inner` is that between what is declared first and the statements
  have inside : Ensures start.entered (before >>= fun _ => checks.statements block.statements)
      fun checked last => ∃ inner, (opened inner ∧ inner.Steady ∧ start.entered.Evolves true inner) ∧
        (last.Steady ∧ inner.Evolves true last) ∧
        Stmt.AllStep (fun _ => checked.1) checked.2 inner (assignedNames block.statements) last := by
    refine .bind first ?_
    rintro _ inner ⟨⟨steady, entered⟩, opened⟩
    refine (h.statements simple plain steady).mono ?_
    rintro checked last ⟨reached, steps⟩
    exact ⟨inner, ⟨opened, steady, entered⟩, reached, steps⟩
  have checked : Ensures start (checks.checkBlockAfter before block) fun checked after =>
      ∃ inner last, after = start.left last ∧
        (opened inner ∧ inner.Steady ∧ start.entered.Evolves true inner) ∧
        (last.Steady ∧ inner.Evolves true last) ∧
        Stmt.AllStep (fun _ => checked.1.statements) checked.2 inner (assignedNames block.statements)
          last := by
    refine .bind .newFrame ?_
    rintro _ _ ⟨rfl, rfl⟩
    refine .get (.bind (.atSite inside) ?_)
    rintro ⟨stmts, ends⟩ _ ⟨last, ⟨inner, entered, reached, steps⟩, rfl⟩
    exact .modifyThen (.pure ⟨inner, last, rfl, entered, reached, steps⟩)
  refine (checked.and evolves).mono ?_
  rintro ⟨⟨pos, stmts⟩, ends⟩ _
    ⟨⟨inner, last, rfl, ⟨opened, innerSteady, entered⟩, ⟨lastSteady, later⟩, steps⟩, evolves, -⟩
  have frames : last.site.frames = start.frames.size :: start.site.frames := by
    rw [later.site, entered.site]
    rfl
  have visible (ref : SymbolRef) (seen : start.Visible ref) : inner.Visible ref :=
    entered.visible (Analyzer.visible_entered.mpr seen)
  refine ⟨inner, opened, lastSteady.leave steady.toRegular evolves.wellFormed ?_, evolves,
    steps.operates last, fun run bindings refines opens => ?_⟩
  · rw [frames]
    exact List.subset_cons_self _ _
  · have refines : last.Refines run.later := refines
    exact .nested (opens (refines.of_evolves later innerSteady.toRegular)) steps visible
      lastSteady.wellFormed refines frames pos

/-- A block is checked in a new frame. -/
theorem checkBlock (h : checks.Stepping) {block : Block Stmt}
    (simple : allFirstOrder block.statements = true) (plain : Stmt.EachOf Node.Plain block.statements)
    (steady : start.Steady) :
    Ensures start (checks.checkBlock block) fun checked after =>
      Stmt.EachOf Node.Operates checked.1.statements ∧
        Part (fun _ evaluator env => evaluator.runNested Table.empty env checked.1) checked.2
          start (assignedNames block.statements) after := by
  have entered : Ensures start.entered (pure ()) fun _ inner =>
      (inner.Steady ∧ start.entered.Evolves true inner) ∧ inner = start.entered :=
    .pure ⟨⟨⟨steady.toRegular.enter, steady.ready⟩, .refl steady.toRegular.enter.wellFormed⟩, rfl⟩
  refine (h.checkBlockAfter entered (fun {_} => .pure trivial) simple plain steady).mono ?_
  rintro checked after ⟨_, rfl, nests⟩
  exact ⟨nests.operates, nests.steady, nests.evolves, fun run refines =>
    nests.sound run _ refines fun _ => run.opens_entered steady.wellFormed⟩

end Stepping

end Checks

end FlowScript
