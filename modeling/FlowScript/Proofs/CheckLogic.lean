import FlowScript.Typing.Analysis
/-!
# Invariants of checking

`Check.Keeps invariant post` says of a computation on the state of checking that it keeps an
invariant, also where it is interrupted, that its results satisfy `post`, and that it finds all that it
takes for granted.  There is a rule for every way in which the rules of checking are put together, so
that an invariant has to be proved of the primitive changes of the state only.  `Check.Reaches` says the
same of one state to start from, for computations that break the invariant on their way.

`Check.Accepts` says that a computation comes to its end without an error.  Errors are never taken
back, so a computation accepts exactly if each of its parts does (`Check.accepts_bind`), and what a
rule demands can be read off its parts one after the other.  `Check.Ensures` says what holds after all
computations that accept.
-/

namespace FlowScript

/-- Checking with `levels` levels left. -/
abbrev Checks.within (levels : Nat) : Checks :=
  ⟨checkExprAt levels, checkConditionAt levels, checkStatementAt levels, checkStatementsAt levels,
    finishAt levels⟩

namespace Check

variable {α β : Type} {invariant : Analyzer → Prop} {post : α → Prop} {next : β → Prop}

/-- Whether a computation from a state leads to one with the invariant and to results that satisfy
`post`, and nothing that it takes for granted is missing. -/
structure Reaches (start : Analyzer) (invariant : Analyzer → Prop) (post : α → Prop)
    (action : Check α) : Prop where
  after : invariant (action start).result.2
  result : ∀ result, (action start).result.1 = .ok result → post result
  defined : ∀ lookup, (action start).result.1 ≠ .error (.undefined lookup)

/-- Whether a computation keeps an invariant and has results that satisfy `post`. -/
def Keeps (invariant : Analyzer → Prop) (post : α → Prop) (action : Check α) : Prop :=
  ∀ a, invariant a → Reaches a invariant post action

/-- No statement on the results of a computation. -/
abbrev Anything : α → Prop := fun _ => True

theorem bind_apply (action : Check α) (rest : α → Check β) (a : Analyzer) :
    (action >>= rest) a = match action a with
      | ⟨(.ok res, after), reports⟩ =>
        ⟨(rest res after).result, reports ++ (rest res after).reports⟩
      | ⟨(.error stop, after), reports⟩ => ⟨(.error stop, after), reports⟩ := by
  simp only [Bind.bind, ExceptT.bind, ExceptT.mk, StateT.bind]
  rcases action a with ⟨⟨_ | _, after⟩, reports⟩
  · exact congrArg (Reported.mk _) (List.append_nil reports)
  · rfl

theorem get_bind (rest : Analyzer → Check β) (a : Analyzer) :
    ((get : Check Analyzer) >>= rest) a = rest a a := rfl

theorem modify_bind (change : Analyzer → Analyzer) (rest : Unit → Check β) (a : Analyzer) :
    ((modify change : Check Unit) >>= rest) a = rest () (change a) := rfl

namespace Reaches

variable {start : Analyzer}
variable {action : Check α} {rest : α → Check β}

theorem weaken {wider : α → Prop} (h : Reaches start invariant post action)
    (imp : ∀ res, post res → wider res) : Reaches start invariant wider action :=
  ⟨h.after, fun res eq => imp res (h.result res eq), h.defined⟩

/-- A computation whose outcome is known. -/
theorem of_run {value : α} {after : Analyzer} {reports : List CheckReport}
    (run : action start = ⟨(.ok value, after), reports⟩) (holds : invariant after) (h : post value) :
    Reaches start invariant post action := by
  constructor
  · rw [run]
    exact holds
  · intro other eq
    rw [run] at eq
    cases eq
    exact h
  · intro lookup eq
    rw [run] at eq
    cases eq

theorem pure {res : α} (holds : invariant start) (h : post res) :
    Reaches start invariant post (Pure.pure res : Check α) :=
  of_run rfl holds h

/-- A first step whose outcome is known. -/
theorem step {value : α} {after : Analyzer} {reports : List CheckReport}
    (run : action start = ⟨(.ok value, after), reports⟩) (h : Reaches after invariant next (rest value)) :
    Reaches start invariant next (action >>= rest) := by
  have same : (action >>= rest) start =
      ⟨(rest value after).result, reports ++ (rest value after).reports⟩ := by rw [bind_apply, run]
  constructor
  · rw [same]
    exact h.after
  · rw [same]
    exact h.result
  · rw [same]
    exact h.defined

theorem modifyThen {change : Analyzer → Analyzer} {rest : Unit → Check β}
    (h : Reaches (change start) invariant next (rest ())) :
    Reaches start invariant next ((modify change : Check Unit) >>= rest) :=
  step rfl h

/-- One computation after another, from a state on. -/
theorem bind (first : Reaches start invariant post action)
    (second : ∀ res, post res → Keeps invariant next (rest res)) :
    Reaches start invariant next (action >>= rest) := by
  obtain ⟨after, res, defined⟩ := first
  rcases h : action start with ⟨⟨outcome, a⟩, reports⟩
  rw [h] at after res defined
  cases outcome with
  | ok value => exact step h (second value (res value rfl) a after)
  | error stop =>
    have same : (action >>= rest) start = ⟨(.error stop, a), reports⟩ := by rw [bind_apply, h]
    constructor
    · rw [same]
      exact after
    · rw [same]
      exact nofun
    · intro lookup eq
      rw [same] at eq
      cases eq
      exact defined lookup rfl

/-- One computation after another, where nothing is known of the result of the first. -/
theorem andThen (first : Reaches start invariant Anything action)
    (second : ∀ res, Keeps invariant next (rest res)) :
    Reaches start invariant next (action >>= rest) :=
  bind first fun res _ => second res

end Reaches

namespace Keeps

variable {action : Check α}

theorem weaken {wider : α → Prop} (h : Keeps invariant post action)
    (imp : ∀ res, post res → wider res) : Keeps invariant wider action :=
  fun a holds => (h a holds).weaken imp

/-- Without a statement on the results. -/
theorem anyway (h : Keeps invariant post action) : Keeps invariant Anything action :=
  h.weaken fun _ _ => trivial

theorem pure {res : α} (h : post res) :
    Keeps invariant post (Pure.pure res : Check α) :=
  fun _ holds => .pure holds h

theorem tooDeep : Keeps invariant post (MonadExcept.throw .tooDeep : Check α) :=
  fun _ holds => ⟨holds, nofun, nofun⟩

/-- What is taken for granted is there. -/
theorem demand {lookup : Lookup} {found : Option α} (known : found.isSome = true)
    (h : ∀ value, found = some value → post value) :
    Keeps invariant post (Check.demand lookup found) := by
  cases found with
  | none => cases known
  | some value => exact pure (h value rfl)

theorem bind {rest : α → Check β} (first : Keeps invariant post action)
    (second : ∀ res, post res → Keeps invariant next (rest res)) :
    Keeps invariant next (action >>= rest) :=
  fun a holds => (first a holds).bind second

/-- One computation after another, where nothing is known of the result of the first. -/
theorem andThen {rest : α → Check β} (first : Keeps invariant Anything action)
    (second : ∀ res, Keeps invariant next (rest res)) : Keeps invariant next (action >>= rest) :=
  bind first fun res _ => second res

/-- Reading the state: what follows may use that the invariant holds of it. -/
theorem get {rest : Analyzer → Check β}
    (h : ∀ a, invariant a → Keeps invariant next (rest a)) :
    Keeps invariant next (MonadState.get >>= rest) :=
  fun a holds => .step rfl (h a holds a holds)

/-- Reading the state: what follows starts from it. -/
theorem getFrom {rest : Analyzer → Check β}
    (h : ∀ a, invariant a → Reaches a invariant next (rest a)) :
    Keeps invariant next (MonadState.get >>= rest) :=
  fun a holds => .step rfl (h a holds)

theorem modify {change : Analyzer → Analyzer}
    (h : ∀ a, invariant a → invariant (change a)) :
    Keeps invariant Anything (modify change : Check Unit) :=
  fun a holds => .of_run rfl (h a holds) trivial

theorem report (problem : CheckProblem) (pos : Option Position) :
    Keeps invariant Anything (Check.report problem pos) :=
  fun _ holds => .of_run rfl holds trivial

theorem fail (problem : CheckProblem) (pos : Position) :
    Keeps invariant Anything (Check.fail problem pos) :=
  bind (report problem _) fun _ _ => pure trivial

theorem ensuring {cleanup : Analyzer → Analyzer} (h : Keeps invariant post action)
    (clean : ∀ a, invariant a → invariant (cleanup a)) :
    Keeps invariant post (ensuring cleanup action) :=
  fun a holds =>
    ⟨clean _ (h a holds).after, (h a holds).result, (h a holds).defined⟩

theorem ite {cond : Prop} [Decidable cond] {yes no : Check α}
    (first : Keeps invariant post yes) (second : Keeps invariant post no) :
    Keeps invariant post (if cond then yes else no) := by
  by_cases h : cond
  · rw [if_pos h]
    exact first
  · rw [if_neg h]
    exact second

/-! ## Lists -/

theorem forM {ι : Type} {f : ι → Check Unit} (items : List ι)
    (h : ∀ item ∈ items, Keeps invariant Anything (f item)) :
    Keeps invariant Anything (items.forM f) := by
  induction items with
  | nil => exact pure trivial
  | cons item rest ih =>
    exact bind (h item (by simp)) fun _ _ => ih fun other mem => h other (by simp [mem])

theorem foldlM {ι : Type} {f : α → ι → Check α} (items : List ι)
    (h : ∀ res, ∀ item ∈ items, Keeps invariant Anything (f res item)) (start : α) :
    Keeps invariant Anything (items.foldlM f start) := by
  induction items generalizing start with
  | nil => exact pure trivial
  | cons item rest ih =>
    rw [List.foldlM_cons]
    exact bind (h start item (by simp)) fun res _ =>
      ih (fun res other mem => h res other (by simp [mem])) res

end Keeps

/-! ## Computations that report no error -/

/-- Whether a computation from a state comes to its end without an error, with a result and in a state
after it. Warnings do not count. -/
def Accepts (action : Check α) (start : Analyzer) (res : α) (after : Analyzer) : Prop :=
  ∃ reports, action start = ⟨(.ok res, after), reports⟩ ∧
    ∀ report ∈ reports, report.problem.severity ≠ .error

section Accepts

variable {start after : Analyzer} {action : Check α} {res : α} {final : β}

theorem accepts_pure {value : α} :
    Accepts (Pure.pure value : Check α) start res after ↔ res = value ∧ after = start := by
  constructor
  · rintro ⟨reports, run, -⟩
    cases run
    exact ⟨rfl, rfl⟩
  · rintro ⟨rfl, rfl⟩
    exact ⟨[], rfl, by simp⟩

/-- A computation accepts if its parts do. -/
theorem accepts_bind {rest : α → Check β} :
    Accepts (action >>= rest) start final after ↔
      ∃ res mid, Accepts action start res mid ∧
        Accepts (rest res) mid final after := by
  rw [Accepts, bind_apply]
  rcases run : action start with ⟨⟨outcome, mid⟩, reports⟩
  cases outcome with
  | error stop =>
    refine ⟨fun ⟨_, eq, _⟩ => (by cases eq), fun ⟨_, _, ⟨_, eq, _⟩, _⟩ => ?_⟩
    rw [run] at eq
    cases eq
  | ok value =>
    simp only
    rcases next : rest value mid with ⟨⟨outcome, last⟩, others⟩
    constructor
    · rintro ⟨_, eq, silent⟩
      cases eq
      refine ⟨value, mid, ⟨reports, run, fun report mem => silent report (by simp [mem])⟩,
        ⟨others, next, fun report mem => silent report (by simp [mem])⟩⟩
    · rintro ⟨_, _, ⟨_, eq, silent⟩, ⟨_, eqNext, silentNext⟩⟩
      rw [run] at eq
      cases eq
      rw [next] at eqNext
      cases eqNext
      refine ⟨_, rfl, fun report mem => ?_⟩
      exact (List.mem_append.mp mem).elim (silent report) (silentNext report)

theorem accepts_modify {change : Analyzer → Analyzer} {res : Unit} :
    Accepts (modify change : Check Unit) start res after ↔ after = change start := by
  constructor
  · rintro ⟨reports, run, -⟩
    cases run
    rfl
  · rintro rfl
    exact ⟨[], rfl, by simp⟩

theorem accepts_report {problem : CheckProblem} {pos : Option Position} {res : Unit} :
    Accepts (report problem pos) start res after ↔
      problem.severity ≠ .error ∧ after = start := by
  constructor
  · rintro ⟨reports, run, silent⟩
    cases run
    exact ⟨silent _ List.mem_cons_self, rfl⟩
  · rintro ⟨warning, rfl⟩
    exact ⟨_, rfl, by simpa using warning⟩

theorem accepts_throw {stop : Interruption} :
    ¬Accepts (MonadExcept.throw stop : Check α) start res after := by
  rintro ⟨_, run, -⟩
  cases run

theorem accepts_ensuring {cleanup : Analyzer → Analyzer} :
    Accepts (ensuring cleanup action) start res after ↔
      ∃ mid, Accepts action start res mid ∧ after = cleanup mid := by
  rw [Accepts, ensuring]
  rcases run : action start with ⟨⟨outcome, mid⟩, reports⟩
  simp only
  constructor
  · rintro ⟨_, eq, silent⟩
    cases eq
    exact ⟨mid, ⟨_, run, silent⟩, rfl⟩
  · rintro ⟨_, ⟨_, eq, silent⟩, rfl⟩
    rw [run] at eq
    cases eq
    exact ⟨_, rfl, silent⟩

/-- What is taken for granted is there. -/
theorem accepts_demand {lookup : Lookup} {found : Option α}
    (accepted : Accepts (demand lookup found) start res after) :
    found = some res ∧ after = start := by
  cases found with
  | none => exact absurd accepted accepts_throw
  | some value =>
    obtain ⟨rfl, same⟩ := accepts_pure.mp accepted
    exact ⟨rfl, same⟩

/-- At the end only the bodies that are being checked are others. -/
theorem accepts_closing {key : Option FunctionKey}
    (accepted : Accepts (closing key action) start res after) :
    ∃ mid active, Accepts action start res mid ∧ after = { mid with active } := by
  obtain ⟨reports, eq, silent⟩ := accepted
  rw [closing] at eq
  rcases run : action start with ⟨⟨outcome, mid⟩, inner⟩
  rw [run] at eq
  cases key with
  | none =>
    cases eq
    exact ⟨after, after.active, ⟨reports, run, silent⟩, rfl⟩
  | some key =>
    simp only at eq
    split at eq
    · cases eq
      exact ⟨mid, _, ⟨reports, run, silent⟩, rfl⟩
    · cases eq

theorem accepts_map {f : α → β} :
    Accepts (f <$> action) start final after ↔
      ∃ res, Accepts action start res after ∧ final = f res := by
  rw [← bind_pure_comp]
  simp only [accepts_bind, accepts_pure]
  constructor
  · rintro ⟨res, _, accepted, rfl, rfl⟩
    exact ⟨res, accepted, rfl⟩
  · rintro ⟨res, accepted, rfl⟩
    exact ⟨res, _, accepted, rfl, rfl⟩

/-- What a computation keeps, and what its results satisfy. -/
theorem Accepts.keeps (accepted : Accepts action start res after)
    (h : Keeps invariant post action) (holds : invariant start) : invariant after ∧ post res := by
  obtain ⟨reports, run, -⟩ := accepted
  obtain ⟨invariantAfter, results, -⟩ := h start holds
  rw [run] at invariantAfter results
  exact ⟨invariantAfter, results res rfl⟩

end Accepts

/-- Whether a computation from a state, if it comes to its end without an error, comes to a result and
a state of which `post` holds. -/
def Ensures (start : Analyzer) (action : Check α) (post : α → Analyzer → Prop) : Prop :=
  ∀ res after, Accepts action start res after → post res after

namespace Ensures

variable {start : Analyzer} {post : α → Analyzer → Prop} {next : β → Analyzer → Prop}
variable {action : Check α} {problem : CheckProblem}

theorem mono {wider : α → Analyzer → Prop} (h : Ensures start action post)
    (imp : ∀ res after, post res after → wider res after) : Ensures start action wider :=
  fun res after accepted => imp res after (h res after accepted)

theorem pure {value : α} (h : post value start) : Ensures start (Pure.pure value) post := by
  intro res after accepted
  obtain ⟨rfl, rfl⟩ := accepts_pure.mp accepted
  exact h

theorem throw (stop : Interruption) : Ensures start (MonadExcept.throw stop : Check α) post :=
  fun _ _ accepted => absurd accepted accepts_throw

theorem bind {rest : α → Check β} (first : Ensures start action post)
    (second : ∀ res mid, post res mid → Ensures mid (rest res) next) :
    Ensures start (action >>= rest) next := by
  intro res after accepted
  obtain ⟨value, mid, head, tail⟩ := accepts_bind.mp accepted
  exact second value mid (first value mid head) res after tail

theorem get {rest : Analyzer → Check β} (h : Ensures start (rest start) next) :
    Ensures start (MonadState.get >>= rest) next := h

theorem modifyThen {change : Analyzer → Analyzer} {rest : Unit → Check β}
    (h : Ensures (change start) (rest ()) next) :
    Ensures start ((modify change : Check Unit) >>= rest) next := by
  intro res after accepted
  obtain ⟨_, mid, head, tail⟩ := accepts_bind.mp accepted
  obtain rfl := accepts_modify.mp head
  exact h res after tail

theorem modify {change : Analyzer → Analyzer} {post : Unit → Analyzer → Prop}
    (h : post () (change start)) : Ensures start (modify change : Check Unit) post := by
  intro res after accepted
  obtain rfl := accepts_modify.mp accepted
  exact h

/-- A report that may be a warning. -/
theorem report {pos : Option Position} :
    Ensures start (report problem pos) fun _ after => after = start :=
  fun _ _ accepted => (accepts_report.mp accepted).2

/-- Nothing comes after an error. -/
theorem errorThen (severity : problem.severity = .error) {pos : Option Position}
    {rest : Unit → Check β} : Ensures start (Check.report problem pos >>= rest) next := by
  intro res after accepted
  obtain ⟨_, _, reported, -⟩ := accepts_bind.mp accepted
  exact absurd severity (accepts_report.mp reported).1

theorem fail (severity : problem.severity = .error) {pos : Position} {post : Ty → Analyzer → Prop} :
    Ensures start (fail problem pos) post :=
  errorThen severity

theorem failThen (severity : problem.severity = .error) {pos : Position} {rest : Ty → Check β} :
    Ensures start (Check.fail problem pos >>= rest) next := by
  have first : Ensures start (Check.fail problem pos) fun _ _ => False := fail severity
  exact bind first fun _ _ => False.elim

theorem ensuring {wider : α → Analyzer → Prop} {cleanup : Analyzer → Analyzer}
    (h : Ensures start action post)
    (clean : ∀ res after, post res after → wider res (cleanup after)) :
    Ensures start (ensuring cleanup action) wider := by
  intro res after accepted
  obtain ⟨mid, inner, rfl⟩ := accepts_ensuring.mp accepted
  exact clean res mid (h res mid inner)

theorem ite {cond : Prop} [Decidable cond] {yes no : Check α}
    (first : cond → Ensures start yes post) (second : ¬cond → Ensures start no post) :
    Ensures start (if cond then yes else no) post := by
  by_cases h : cond
  · rw [if_pos h]
    exact first h
  · rw [if_neg h]
    exact second h

/-- Coming to a statement, all that may change is where errors without a position are reported. -/
theorem arriveAt (progress : Checks.Progress) (stmt : Stmt) :
    Ensures start (Checks.arriveAt progress stmt) fun _ after => ∃ topLevel, after = { start with topLevel } := by
  refine .get (ite (fun _ => .modifyThen ?_) fun _ => ?_)
  all_goals
    refine ite (fun _ => .bind .report ?_) fun _ => .pure ⟨_, rfl⟩
    rintro _ _ rfl
    exact .pure ⟨_, rfl⟩

/-- What a computation keeps holds of the state that it comes to. -/
theorem keeps {invariant : Analyzer → Prop} {results : α → Prop} (h : Keeps invariant results action)
    (holds : invariant start) : Ensures start action fun res after => invariant after ∧ results res :=
  fun _ _ accepted => accepted.keeps h holds

theorem and {also : α → Analyzer → Prop} (first : Ensures start action post)
    (second : Ensures start action also) :
    Ensures start action fun res after => post res after ∧ also res after :=
  fun res after accepted => ⟨first res after accepted, second res after accepted⟩

end Ensures

end Check

end FlowScript
