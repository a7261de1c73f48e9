import FlowScript.Proofs.ReadingLogic
/-!
# Going on in the input

An `Input` is a list of tokens in which the input ends.  A cursor is `Cursor.On` an input if it has taken
tokens before that end only and has looked no further than the end itself, so that it never met the token
that stands for a missing one.

A `Parse.Promise` tells what a parse comes to: which results mean that it has taken a token, and what holds of
all results.  `Parse.Proceeds input promise parse` says that a parse keeps cursors on the input and never goes
back, also where it is interrupted, and that it keeps the promise.  There is a rule for every primitive of
parsing and for putting two parses together.  `Parse.ProceedsAt` says the same of cursors before a token of a
given kind.

After a problem the rest of a statement or a member is dropped.  The places where dropping stops take no token
by themselves (a closing brace, the start of a statement, the end of the input), so a round of a loop that
recovers right where it began has to take a token of its own: `Parse.ProceedsAt.recoveringStatement` and
`Parse.ProceedsAt.recoveringMember`.

Loops run for a limited number of rounds.  `Parse.Loop` is a loop without a limit, and `Parse.Halts` says
that each round of a loop takes a token or leaves the loop, and that the limit is never met.

Main statement: `Parse.Rounds.halts`, by which a loop halts if its rounds proceed.
-/

namespace FlowScript

/-! ## Inputs -/

/-- A list of tokens in which the input ends. What is beyond the first end of the input is not part of
it. -/
structure Input where
  /-- The tokens before the end. -/
  before : List Token
  /-- The end of the input. -/
  last : Token
  beyond : List Token := []
  proper : ∀ token ∈ before, token.kind ≠ .endOfInput
  ends : last.kind = .endOfInput

namespace Input

variable (input : Input)

/-- All tokens of an input. -/
def tokens : List Token := input.before ++ input.last :: input.beyond

end Input

/-- What a parse has before it: the tokens of an input, where the end may be left out if it is what is read past
the last token anyway. -/
structure View extends Input where
  shown : List Token
  shows : shown = toInput.tokens ∨ shown = before ∧ last = Cursor.missing

/-- All of an input. -/
abbrev Input.view (input : Input) : View := ⟨input, input.tokens, .inl rfl⟩

instance : Coe Input View := ⟨Input.view⟩

theorem Input.shown_view (input : Input) : input.view.shown = input.tokens := rfl

/-- What is shown after some of the tokens before the end. -/
theorem View.drop_shown (view : View) {count : Nat} (within : count ≤ view.before.length) :
    ∃ tail, view.shown.drop count = view.before.drop count ++ tail ∧
      (tail.headD Cursor.missing).kind = .endOfInput := by
  rcases view.shows with shown | ⟨shown, -⟩ <;> rw [shown]
  · exact ⟨_, List.drop_append_of_le_length within, view.ends⟩
  · exact ⟨[], (List.append_nil _).symm, rfl⟩

theorem View.shown_eq (view : View) :
    view.shown = view.before ++ view.shown.drop view.before.length := by
  rcases view.shows with shown | ⟨shown, -⟩ <;> rw [shown]
  · rw [Input.tokens, List.drop_left]
  · rw [List.drop_length, List.append_nil]

/-! ## Cursors on an input -/

/-- Whether a syntax problem is that something nests too deep. -/
def SyntaxProblem.isNesting : SyntaxProblem → Bool
  | .tooDeep .. | .overflow => true
  | _ => false

/-- Whether a cursor is on an input: it has taken tokens before the end only, has looked no further than
the end, and was told of no nesting that goes too deep. -/
structure Cursor.On (input : Input) (cursor : Cursor) : Prop where
  rest : cursor.rest = input.tokens.drop cursor.consumed
  taken : cursor.consumed ≤ input.before.length
  seen : cursor.demanded ≤ input.before.length + 1
  silent : ∀ report ∈ cursor.reports, report.problem.isNesting = false

/-- Whether a cursor keeps in the same way to what is shown of an input. -/
structure Cursor.Within (view : View) (cursor : Cursor) : Prop where
  rest : cursor.rest = view.shown.drop cursor.consumed
  taken : cursor.consumed ≤ view.before.length
  seen : cursor.demanded ≤ view.before.length + 1
  silent : ∀ report ∈ cursor.reports, report.problem.isNesting = false

theorem Cursor.within_view_iff {input : Input} {cur : Cursor} : cur.Within input ↔ cur.On input :=
  ⟨fun h => ⟨h.rest, h.taken, h.seen, h.silent⟩, fun h => ⟨h.rest, h.taken, h.seen, h.silent⟩⟩

namespace Cursor

variable {input : View} {cur : Cursor} {count : Nat}

@[simp] theorem consumed_look : (cur.look count).consumed = cur.consumed := rfl

@[simp] theorem rest_look : (cur.look count).rest = cur.rest := rfl

@[simp] theorem tokenAt_look (ahead : Nat) : (cur.look count).tokenAt ahead = cur.tokenAt ahead :=
  rfl

@[simp] theorem consumed_skip : (cur.skip count).consumed = cur.consumed + count := rfl

/-- A run of tokens at the start that the end of the input is not part of. -/
theorem leading_le {p : TokenKind → Bool} (stops : p .endOfInput = false) (on : cur.Within input) :
    cur.consumed + cur.leading p ≤ input.before.length := by
  have taken := on.taken
  obtain ⟨tail, shown, ends⟩ := input.drop_shown taken
  have short : ∀ ahead : List Token,
      ((ahead ++ tail).takeWhile fun token => p token.kind).length ≤ ahead.length := by
    intro ahead
    induction ahead with
    | nil => cases tail <;> simp_all
    | cons token rest ih =>
      rw [List.cons_append, List.takeWhile_cons]
      split
      · exact Nat.succ_le_succ ih
      · exact Nat.zero_le _
  have run := short (input.before.drop cur.consumed)
  rw [List.length_drop] at run
  rw [leading, on.rest, shown]
  omega

namespace Within

variable (on : cur.Within input)

include on

/-- A loop that takes a token in each round has enough rounds. -/
theorem enough : input.before.length < cur.rest.length + 1 + cur.consumed := by
  have taken := on.taken
  have left := congrArg List.length on.rest
  rw [List.length_drop] at left
  rcases input.shows with shown | ⟨shown, -⟩ <;> rw [shown] at left
  · rw [Input.tokens, List.length_append] at left
    omega
  · omega

theorem look (within : cur.consumed + count ≤ input.before.length) :
    (cur.look count).Within input where
  rest := on.rest
  taken := on.taken
  seen := Nat.max_le.mpr ⟨on.seen, Nat.succ_le_succ within⟩
  silent := on.silent

theorem skip (within : cur.consumed + count ≤ input.before.length) :
    (cur.skip count).Within input where
  rest := by
    change cur.rest.drop count = input.shown.drop (cur.consumed + count)
    rw [on.rest, List.drop_drop]
  taken := within
  seen := on.seen
  silent := on.silent

/-- A token that is looked at is the end exactly if all tokens before it are taken or skipped. -/
theorem kind_eq_end_iff {ahead : Nat} (within : cur.consumed + ahead ≤ input.before.length) :
    (cur.tokenAt ahead).kind = .endOfInput ↔ cur.consumed + ahead = input.before.length := by
  obtain ⟨tail, shown, ends⟩ := input.drop_shown (Nat.zero_le _)
  rw [List.drop_zero, List.drop_zero] at shown
  rw [tokenAt, on.rest, List.getElem?_drop, shown]
  rcases Nat.lt_or_ge (cur.consumed + ahead) input.before.length with more | all
  · -- the token is one of those before the end
    rw [List.getElem?_append_left more, List.getElem?_eq_getElem more]
    have proper := input.proper _ (List.getElem_mem more)
    exact ⟨fun ends => absurd ends proper, fun same => by omega⟩
  · have same : cur.consumed + ahead = input.before.length := by omega
    rw [same, List.getElem?_append_right (Nat.le_refl _), Nat.sub_self]
    exact ⟨fun _ => rfl, fun _ => by cases tail <;> exact ends⟩

theorem lt_of_kind {ahead : Nat} (within : cur.consumed + ahead ≤ input.before.length)
    (notEnd : (cur.tokenAt ahead).kind ≠ .endOfInput) :
    cur.consumed + ahead < input.before.length := by
  have other := mt (on.kind_eq_end_iff within).mpr notEnd
  omega

theorem peeked : (cur.look 0).Within input := on.look on.taken

end Within

end Cursor

/-! ## Parses that proceed -/

/-- Whether an interrupt is what it says: it stands for nesting that goes too deep exactly if its report
does. -/
def Interrupt.Genuine : Interrupt → Prop
  | .problem report => report.problem.isNesting = false
  | .tooDeep report => report.problem.isNesting = true

namespace Parse

/-- What is said of the results of a parse. -/
structure Promise (α : Type) where
  /-- The results for which a token has been taken. -/
  takes : α → Prop
  /-- What all results satisfy. -/
  good : α → Prop

/-- A parse that may take no token. -/
abbrev Perhaps {α : Type} (good : α → Prop) : Promise α := ⟨fun _ => False, good⟩

/-- A parse that takes a token whenever it has a result. -/
abbrev Always {α : Type} (good : α → Prop) : Promise α := ⟨fun _ => True, good⟩

/-- What is found, if anything is. -/
abbrev Found {α : Type} (good : α → Prop) : Option α → Prop :=
  fun found => ∀ value ∈ found, good value

/-- All items of a list. -/
abbrev All {α : Type} (good : α → Prop) : List α → Prop := fun values => ∀ value ∈ values, good value

/-- A parse that takes a token if it says yes. -/
abbrev Decides : Promise Bool := ⟨(· = true), Anything⟩

/-- A round of a loop, which takes a token if the loop goes on, and keeps what holds of the value. -/
abbrev Onward {α : Type} (post : α → Prop) (value : α) : Promise (Option α) :=
  ⟨fun next => next.isSome = true, Found fun other => post value → post other⟩

variable {α β : Type} {input : View} {cur : Cursor} {parse : Parse α} {rest : α → Parse β}
  {post : α → Cursor → Prop} {good : α → Prop} {promise : Promise α} {final : Promise β}
  {kind : TokenKind}

theorem found_some {value : α} (h : good value) : Found good (some value) := by
  rintro other ⟨⟩
  exact h

theorem all_push {items : Array α} {value : α} (each : All good items.toList) (h : good value) :
    All good (items.push value).toList := by
  rw [Array.toList_push]
  exact List.forall_mem_append.mpr ⟨each, List.forall_mem_singleton.mpr h⟩

/-- Whether a parse, run from a cursor, leads to a cursor on the input that is no further back, takes back no
report, and has results that satisfy `post`. -/
structure Goes (input : View) (cursor : Cursor) (parse : Parse α) (post : α → Cursor → Prop) :
    Prop where
  on : (parse cursor).2.Within input
  forward : cursor.consumed ≤ (parse cursor).2.consumed
  kept : cursor.reports ≠ #[] → (parse cursor).2.reports ≠ #[]
  result : ∀ value, (parse cursor).1 = .ok value → post value (parse cursor).2
  genuine : ∀ interrupt, (parse cursor).1 = .error interrupt → interrupt.Genuine

/-- Whether a parse that starts before a token of a kind keeps to the input and to what is promised of its
results. -/
def ProceedsAt (input : View) (kind : TokenKind) (promise : Promise α) (parse : Parse α) : Prop :=
  ∀ cur : Cursor, cur.Within input → (cur.tokenAt 0).kind = kind →
    Goes input cur parse fun value after =>
      promise.good value ∧ (promise.takes value → cur.consumed < after.consumed)

/-- Whether a parse keeps to the input and to what is promised of its results. -/
def Proceeds (input : View) (promise : Promise α) (parse : Parse α) : Prop :=
  ∀ kind, ProceedsAt input kind promise parse

namespace Goes

variable {next : β → Cursor → Prop}

theorem mono {wider : α → Cursor → Prop} (h : Goes input cur parse post)
    (imp : ∀ value after, cur.consumed ≤ after.consumed → post value after → wider value after) :
    Goes input cur parse wider :=
  ⟨h.on, h.forward, h.kept, fun value run => imp value _ h.forward (h.result value run), h.genuine⟩

/-- A parse whose outcome is known. -/
theorem of_run {value : α} {after : Cursor} (run : parse cur = (.ok value, after))
    (on : after.Within input) (forward : cur.consumed ≤ after.consumed)
    (kept : cur.reports ≠ #[] → after.reports ≠ #[]) (holds : post value after) :
    Goes input cur parse post := by
  constructor <;> rw [run]
  · exact on
  · exact forward
  · exact kept
  · rintro other ⟨⟩
    exact holds
  · rintro interrupt ⟨⟩

/-- A parse that is interrupted where it stands. -/
theorem of_throw {interrupt : Interrupt} (run : parse cur = (.error interrupt, cur)) (on : cur.Within input)
    (genuine : interrupt.Genuine) : Goes input cur parse post := by
  have stays : (parse cur).2 = cur := congrArg Prod.snd run
  refine ⟨?_, Nat.le_of_eq (congrArg Cursor.consumed stays.symm), ?_, ?_, ?_⟩
  · rwa [stays]
  · rw [stays]
    exact id
  · rw [run]
    rintro value ⟨⟩
  · rw [run]
    rintro other ⟨⟩
    exact genuine

theorem pure {value : α} (on : cur.Within input) (holds : post value cur) :
    Goes input cur (Pure.pure value) post :=
  .of_run rfl on (Nat.le_refl _) id holds

/-- One parse after another. -/
theorem bind (first : Goes input cur parse post)
    (second : ∀ value after, after.Within input → cur.consumed ≤ after.consumed → post value after →
      Goes input after (rest value) next) :
    Goes input cur (parse >>= rest) next := by
  obtain ⟨on, forward, kept, res, genuine⟩ := first
  rcases run : parse cur with ⟨outcome, after⟩
  rw [run] at on forward kept res genuine
  cases outcome with
  | error interrupt =>
    have same : (parse >>= rest) cur = (.error interrupt, after) := by rw [bind_apply, run]
    constructor <;> rw [same]
    · exact on
    · exact forward
    · exact kept
    · exact nofun
    · rintro other ⟨⟩
      exact genuine interrupt rfl
  | ok value =>
    have same : (parse >>= rest) cur = rest value after := by rw [bind_apply, run]
    have later := second value after on forward (res value rfl)
    constructor <;> rw [same]
    · exact later.on
    · exact Nat.le_trans forward later.forward
    · exact fun told => later.kept (kept told)
    · exact later.result
    · exact later.genuine

/-- Looking at the cursor. -/
theorem get {rest : Cursor → Parse β} (h : Goes input cur (rest cur) next) :
    Goes input cur (MonadState.get >>= rest) next :=
  ⟨h.on, h.forward, h.kept, h.result, h.genuine⟩

/-- Looking at a token, which is no further on than the end of the input. -/
theorem peekAt {rest : Token → Parse β} {ahead : Nat}
    (h : Goes input (cur.look ahead) (rest (cur.tokenAt ahead)) next) :
    Goes input cur (Parse.peekAt ahead >>= rest) next :=
  ⟨h.on, h.forward, h.kept, h.result, h.genuine⟩

/-- A handler goes on from where the interrupt came. -/
theorem tryCatch {handler : Interrupt → Parse α} (h : Goes input cur parse post)
    (handled : ∀ interrupt after, after.Within input → cur.consumed ≤ after.consumed →
      interrupt.Genuine → Goes input after (handler interrupt) post) :
    Goes input cur (MonadExcept.tryCatch parse handler) post := by
  obtain ⟨on, forward, kept, res, genuine⟩ := h
  have unfolded := tryCatch_apply parse handler cur
  rcases run : parse cur with ⟨outcome, after⟩
  rw [run] at on forward kept res genuine unfolded
  cases outcome with
  | ok value => exact .of_run unfolded on forward kept (res value rfl)
  | error interrupt =>
    have later := handled interrupt after on forward (genuine interrupt rfl)
    simp only at unfolded
    constructor <;> rw [unfolded]
    · exact later.on
    · exact Nat.le_trans forward later.forward
    · exact fun told => later.kept (kept told)
    · exact later.result
    · exact later.genuine

end Goes

/-! ## Putting parses together -/

namespace ProceedsAt

theorem weaken {narrower : Promise α} (h : ProceedsAt input kind promise parse)
    (good : ∀ value, promise.good value → narrower.good value)
    (takes : ∀ value, narrower.takes value → promise.takes value) :
    ProceedsAt input kind narrower parse := by
  intro cur on here
  exact (h cur on here).mono fun value _ _ holds =>
    ⟨good value holds.1, fun taken => holds.2 (takes value taken)⟩

/-- One parse after another. -/
theorem bind (first : ProceedsAt input kind promise parse)
    (second : ∀ value, promise.good value → Proceeds input final (rest value)) :
    ProceedsAt input kind final (parse >>= rest) := by
  intro cur on here
  refine (first cur on here).bind fun value after on forward holds => ?_
  exact (second value holds.1 _ after on rfl).mono fun _ _ _ later =>
    ⟨later.1, fun taken => Nat.lt_of_le_of_lt forward (later.2 taken)⟩

/-- One parse after another, of which the first takes a token. -/
theorem bindTaking (first : ProceedsAt input kind (Always good) parse)
    (second : ∀ value, good value → Proceeds input (Perhaps final.good) (rest value)) :
    ProceedsAt input kind final (parse >>= rest) := by
  intro cur on here
  refine (first cur on here).bind fun value after on _ holds => ?_
  exact (second value holds.1 _ after on rfl).mono fun _ _ forward later =>
    ⟨later.1, fun _ => Nat.lt_of_lt_of_le (holds.2 trivial) forward⟩

/-- Looking at the next token. -/
theorem peek {rest : Token → Parse β}
    (h : ∀ token : Token, token.kind = kind → ProceedsAt input kind final (rest token)) :
    ProceedsAt input kind final (Parse.peek >>= rest) := by
  intro cur on here
  exact .peekAt (h (cur.tokenAt 0) here (cur.look 0) on.peeked here)

/-- Taking a token that is not the end of the input. -/
theorem advance (notEnd : kind ≠ .endOfInput) :
    ProceedsAt input kind (Always Anything) Parse.advance := by
  intro cur on here
  rw [← here] at notEnd
  have more : cur.consumed + 1 ≤ input.before.length := on.lt_of_kind on.taken notEnd
  exact .of_run (advance_apply notEnd) (on.peeked.skip more) (Nat.le_succ _) id
    ⟨trivial, fun _ => Nat.lt_succ_self _⟩

end ProceedsAt

namespace Proceeds

/-- Without a statement on the tokens taken. -/
theorem perhaps (h : Proceeds input promise parse) : Proceeds input (Perhaps promise.good) parse :=
  fun kind => (h kind).weaken (fun _ => id) fun _ => False.elim

theorem idle {value : α} (h : promise.good value) (idle : ¬promise.takes value) :
    Proceeds input promise (Pure.pure value) :=
  fun _ _ on _ => .pure on ⟨h, fun taken => absurd taken idle⟩

theorem pure {value : α} (h : good value) : Proceeds input (Perhaps good) (Pure.pure value) :=
  idle h not_false

/-- The loop is left. -/
theorem leave {post : α → Prop} {value : α} :
    Proceeds input (Onward post value) (Pure.pure none : Parse (Option α)) :=
  idle nofun nofun

/-- One parse after another. -/
theorem bind (first : Proceeds input promise parse)
    (second : ∀ value, promise.good value → Proceeds input final (rest value)) :
    Proceeds input final (parse >>= rest) :=
  fun kind => (first kind).bind second

/-- What is done for a yes, for which a token is taken, and for a no. -/
theorem branch {parse : Parse Bool} {rest : Bool → Parse β} (h : Proceeds input Decides parse)
    (yes : Proceeds input (Perhaps final.good) (rest true)) (no : Proceeds input final (rest false)) :
    Proceeds input final (parse >>= rest) := by
  intro kind cur on here
  refine (h kind cur on here).bind fun found after on forward holds => ?_
  cases found with
  | true =>
    exact (yes _ after on rfl).mono fun _ _ later held =>
      ⟨held.1, fun _ => Nat.lt_of_lt_of_le (holds.2 rfl) later⟩
  | false =>
    exact (no _ after on rfl).mono fun _ _ _ held =>
      ⟨held.1, fun taken => Nat.lt_of_le_of_lt forward (held.2 taken)⟩

/-- Looking at the cursor. -/
theorem get {rest : Cursor → Parse β} (h : ∀ cur, Proceeds input final (rest cur)) :
    Proceeds input final (MonadState.get >>= rest) := by
  intro kind cur on here
  exact .get (h cur kind cur on here)

/-! ## Single tokens -/

theorem peek {rest : Token → Parse β}
    (h : ∀ token : Token, ProceedsAt input token.kind final (rest token)) :
    Proceeds input final (Parse.peek >>= rest) := by
  intro kind
  refine .peek fun token here => ?_
  subst here
  exact h token

/-- Looking at the next token, whatever it is. -/
theorem peeking {rest : Token → Parse β} (h : ∀ token, Proceeds input final (rest token)) :
    Proceeds input final (Parse.peek >>= rest) :=
  peek fun token => h token token.kind

theorem fail {problem : SyntaxProblem} {token : Token} (plain : problem.isNesting = false) :
    Proceeds input promise (Parse.fail problem token : Parse α) :=
  fun _ _ on _ => .of_throw rfl on plain

theorem abort {problem : SyntaxProblem} (nesting : problem.isNesting = true) :
    Proceeds input promise (Parse.abort problem : Parse α) :=
  peeking fun _ _ _ on _ => .of_throw rfl on nesting

theorem report {problem : SyntaxReport} (plain : problem.problem.isNesting = false) :
    Proceeds input (Perhaps Anything) (Parse.report problem) := by
  intro kind cur on here
  have told : Cursor.Within input { cur with reports := cur.reports.push problem } := by
    refine ⟨on.rest, on.taken, on.seen, fun other mem => ?_⟩
    rcases Array.mem_push.mp mem with old | rfl
    · exact on.silent other old
    · exact plain
  exact .of_run rfl told (Nat.le_refl _) (fun _ => by simp) ⟨trivial, False.elim⟩

/-- Testing for a token of a kind, and going on. -/
theorem checkThen {kind : TokenKind} {rest : Bool → Parse β} (yes : ProceedsAt input kind final (rest true))
    (no : Proceeds input final (rest false)) : Proceeds input final (Parse.check kind >>= rest) := by
  rw [Parse.check, bind_assoc]
  refine peek fun token => ?_
  rw [pure_bind]
  by_cases same : token.kind = kind
  · rw [decide_eq_true same, same]
    exact yes
  · rw [decide_eq_false same]
    exact no _

theorem skipWhile {p : TokenKind → Bool} (stops : p .endOfInput = false) :
    Proceeds input (Perhaps Anything) (Parse.skipWhile p) := by
  intro kind cur on here
  have within := Cursor.leading_le stops on
  exact .of_run rfl ((on.look within).skip within) (Nat.le_add_right _ _) id ⟨trivial, False.elim⟩

theorem skipTerminators : Proceeds input (Perhaps Anything) Parse.skipTerminators := skipWhile rfl

/-- An `else` behind any number of terminators. -/
theorem acceptElse : Proceeds input Decides Level.acceptElse := by
  intro kind cur on here
  have within : cur.consumed + cur.leading (fun kind => kind = .terminator) ≤
      input.before.length := Cursor.leading_le rfl on
  have onPeeked := on.look within
  refine .get (.peekAt ?_)
  split
  · rename_i isElse
    have more : cur.consumed + (cur.leading (fun kind => kind = .terminator) + 1) ≤
        input.before.length := on.lt_of_kind within (by simp [isElse])
    exact .of_run rfl (onPeeked.skip more) (Nat.le_add_right _ _) id
      ⟨trivial, fun _ => Nat.lt_add_of_pos_right (Nat.succ_pos _)⟩
  · exact .pure onPeeked ⟨trivial, nofun⟩

end Proceeds

/-! ## Loops -/

/-- A loop with rounds left makes one, and goes on if that gives a new value. -/
theorem repeatStep_succ (step : α → Parse (Option α)) (rounds : Nat) (value : α) :
    repeatStep step (rounds + 1) value =
      step value >>= fun next => next.elim (Pure.pure value) (repeatStep step rounds) := by
  rw [repeatStep]
  congr
  funext next
  cases next <;> rfl

/-- A loop that runs as long as its step gives a new value, however many rounds that takes. -/
inductive Loop (step : α → Parse (Option α)) : α → Cursor → Except Interrupt α × Cursor → Prop
  | leave {value : α} {cursor after : Cursor} :
    step value cursor = (.ok none, after) → Loop step value cursor (.ok value, after)
  | stop {value : α} {cursor after : Cursor} {interrupt : Interrupt} :
    step value cursor = (.error interrupt, after) → Loop step value cursor (.error interrupt, after)
  | next {value other : α} {cursor after : Cursor} {outcome : Except Interrupt α × Cursor} :
    step value cursor = (.ok (some other), after) → Loop step other after outcome →
      Loop step value cursor outcome

/-- Whether a loop comes to its end on an input: each of its rounds takes a token or leaves the loop, and
with its limit on rounds it does what it does without one. -/
structure Halts (input : Input) (step : α → Parse (Option α)) : Prop where
  progress : ∀ value (cursor : Cursor), cursor.On input → ∀ next after,
    step value cursor = (.ok (some next), after) → cursor.consumed < after.consumed
  unlimited : ∀ value (cursor : Cursor), cursor.On input →
    Loop step value cursor (iterate step value cursor)

/-- Whether the rounds of a loop keep to the input and to what holds of the value, and take a token each. -/
abbrev Rounds (input : View) (post : α → Prop) (step : α → Parse (Option α)) : Prop :=
  ∀ value, Proceeds input (Onward post value) (step value)

namespace Rounds

variable {step : α → Parse (Option α)} {post : α → Prop}

variable (h : Rounds input post step)

include h

/-- What one round does: it ends the loop, or it takes a token. -/
theorem round (value : α) (on : cur.Within input) :
    (step value cur).2.Within input ∧ cur.consumed ≤ (step value cur).2.consumed ∧
      ∀ next, (step value cur).1 = .ok (some next) →
        cur.consumed < (step value cur).2.consumed := by
  have run := h value _ cur on rfl
  exact ⟨run.on, run.forward, fun next same => (run.result _ same).2 rfl⟩

/-- A loop with more rounds than there are tokens left is a loop without a limit. -/
theorem loop_repeatStep (rounds : Nat) {value : α} (on : cur.Within input)
    (enough : input.before.length < rounds + cur.consumed) :
    Loop step value cur (repeatStep step rounds value cur) := by
  -- each round takes a token, so the rounds left stay ahead of the tokens left
  induction rounds generalizing value cur with
  | zero =>
    have taken := on.taken
    omega
  | succ rounds ih =>
    obtain ⟨onAfter, -, taken⟩ := h.round value on
    rw [repeatStep, bind_apply]
    rcases run : step value cur with ⟨outcome, after⟩
    rw [run] at onAfter taken
    cases outcome with
    | error interrupt => exact .stop run
    | ok next =>
      cases next with
      | none => exact .leave run
      | some other =>
        have further := taken other rfl
        exact .next run (ih onAfter (by dsimp only at further; omega))

theorem repeatStep (rounds : Nat) {value : α} (initial : post value) :
    Proceeds input (Perhaps post) (repeatStep step rounds value) := by
  induction rounds generalizing value with
  | zero => exact .pure initial
  | succ rounds ih =>
    refine (h value).bind fun next holds => ?_
    cases next with
    | none => exact .pure initial
    | some other => exact ih (holds other rfl initial)

theorem iterate {value : α} (initial : post value) : Proceeds input (Perhaps post) (iterate step value) :=
  .get fun _ => h.repeatStep _ initial

omit h in
theorem halts {input : Input} (h : Rounds input post step) : Halts input step where
  progress value cur on next after run := by
    obtain ⟨-, -, taken⟩ := h.round value (Cursor.within_view_iff.mpr on)
    rw [run] at taken
    exact taken next rfl
  unlimited value cur on := by
    have within := Cursor.within_view_iff.mpr on
    exact h.loop_repeatStep (cur.rest.length + 1) within within.enough

end Rounds

end Parse

/-! ## Recovery -/

namespace Cursor

/-- The rest of a statement does not reach past the end of the input. -/
theorem statementRest_le {tail : List Token} (ends : (tail.headD missing).kind = .endOfInput)
    (ahead : List Token) : statementRest (ahead ++ tail) ≤ ahead.length := by
  induction ahead with
  | nil => cases tail <;> simp_all [statementRest]
  | cons token rest ih =>
    rw [List.cons_append, statementRest, List.length_cons]
    split
    · exact Nat.zero_le _
    · exact Nat.zero_le _
    · omega
    · split <;> omega

/-- The rest of a member does not reach past the end of the input. -/
theorem memberRest_le {tail : List Token} (ends : (tail.headD missing).kind = .endOfInput)
    (ahead : List Token) (depth : Nat) (progressed : Bool) :
    memberRest depth progressed (ahead ++ tail) ≤ ahead.length := by
  induction ahead generalizing depth progressed with
  | nil => cases tail <;> simp_all [memberRest]
  | cons token rest ih =>
    rw [List.cons_append, memberRest, List.length_cons]
    split
    · exact Nat.zero_le _
    · split
      · exact Nat.zero_le _
      · split
        · exact Nat.succ_le_succ (ih _ _)
        · split
          · exact Nat.zero_le _
          · exact Nat.succ_le_succ (ih _ _)
        · exact Nat.succ_le_succ (ih _ _)

/-- A member of which no token was taken has a rest, unless it starts where members end. -/
theorem memberRest_pos {token : Token} {rest : List Token} (notEnd : token.kind ≠ .endOfInput)
    (notBrace : token.kind ≠ .rightBrace) : 0 < memberRest 0 false (token :: rest) := by
  rw [memberRest, if_neg notEnd, if_neg (by simp)]
  split
  · exact Nat.succ_pos _
  · rename_i same
    exact absurd same notBrace
  · exact Nat.succ_pos _

variable {input : View} {cur : Cursor}

theorem Within.statementRest_le (on : cur.Within input) :
    cur.consumed + statementRest cur.rest ≤ input.before.length := by
  have taken := on.taken
  obtain ⟨tail, shown, ends⟩ := input.drop_shown taken
  have rest := Cursor.statementRest_le ends (input.before.drop cur.consumed)
  rw [List.length_drop] at rest
  rw [on.rest, shown]
  omega

theorem Within.memberRest_le (on : cur.Within input) (progressed : Bool) :
    cur.consumed + memberRest 0 progressed cur.rest ≤ input.before.length := by
  have taken := on.taken
  obtain ⟨tail, shown, ends⟩ := input.drop_shown taken
  have rest := Cursor.memberRest_le ends (input.before.drop cur.consumed) 0 progressed
  rw [List.length_drop] at rest
  rw [on.rest, shown]
  omega

/-- The next token, if it is not the end, is the first of those that are left. -/
theorem rest_eq_cons (notEnd : (cur.tokenAt 0).kind ≠ .endOfInput) :
    cur.rest = cur.tokenAt 0 :: cur.rest.tail := by
  rw [tokenAt] at *
  cases here : cur.rest with
  | nil =>
    rw [here] at notEnd
    exact absurd rfl notEnd
  | cons token rest => rfl

end Cursor

namespace Parse

variable {α : Type} {input : View} {cur : Cursor} {kind : TokenKind} {good : α → Prop}

theorem Goes.drop {count : Nat} (on : cur.Within input)
    (within : cur.consumed + count ≤ input.before.length) :
    Goes input cur (Parse.drop count) fun _ after =>
      after.consumed = cur.consumed + count ∧ (count = 0 → after.tokenAt 0 = cur.tokenAt 0) := by
  refine .of_run rfl ((on.look within).skip within) (Nat.le_add_right _ _) id ⟨rfl, ?_⟩
  rintro rfl
  rfl

/-- After a problem in a statement that did not start where statements end, a token has been taken since
its start. -/
theorem Goes.recoverStatement {start : Cursor} {problem : SyntaxReport}
    (plain : problem.problem.isNesting = false) (onStart : start.Within input)
    (notEnd : (start.tokenAt 0).kind ≠ .endOfInput) (notBrace : (start.tokenAt 0).kind ≠ .rightBrace)
    (on : cur.Within input) (forward : start.consumed ≤ cur.consumed) :
    Goes input cur (Parse.recoverStatement start.consumed problem) fun _ after =>
      start.consumed < after.consumed := by
  refine (Proceeds.report plain _ cur on rfl).bind fun _ told on taken _ => ?_
  refine .get ((Goes.drop on on.statementRest_le).bind fun _ after on dropped _ => .get ?_)
  by_cases stayed : after.consumed = start.consumed
  · -- nothing was dropped, so the token at the start is still there, and it can be taken
    have same : after.tokenAt 0 = start.tokenAt 0 := by
      rw [Cursor.tokenAt, Cursor.tokenAt, on.rest, onStart.rest, stayed]
    rw [if_pos stayed]
    have taking : ProceedsAt input (start.tokenAt 0).kind (Always Anything)
        (do
          let token ← Parse.peek
          if token.kind ≠ .endOfInput ∧ token.kind ≠ .rightBrace then
            let _ ← Parse.advance) := by
      refine .peek fun token here => ?_
      rw [here, if_pos ⟨notEnd, notBrace⟩]
      exact (ProceedsAt.advance notEnd).bindTaking fun _ _ => .pure trivial
    refine (taking after on (congrArg Token.kind same)).mono fun _ last _ further => ?_
    rw [← stayed]
    exact further.2 trivial
  · rw [if_neg stayed]
    exact .pure on (by omega)

theorem Proceeds.recoverMember {start : Nat} {problem : SyntaxReport}
    (plain : problem.problem.isNesting = false) :
    Proceeds input (Perhaps Anything) (Parse.recoverMember start problem) := by
  refine (Proceeds.report plain).bind fun _ _ kind cur on here => .get ?_
  exact (Goes.drop on (on.memberRest_le _)).mono fun _ _ _ _ => ⟨trivial, False.elim⟩

/-- After a problem in a member that did not start where members end, a token has been taken since its
start. -/
theorem Goes.recoverMember {start : Cursor} {problem : SyntaxReport}
    (plain : problem.problem.isNesting = false) (onStart : start.Within input)
    (notEnd : (start.tokenAt 0).kind ≠ .endOfInput) (notBrace : (start.tokenAt 0).kind ≠ .rightBrace)
    (on : cur.Within input) (forward : start.consumed ≤ cur.consumed) :
    Goes input cur (Parse.recoverMember start.consumed problem) fun _ after =>
      start.consumed < after.consumed := by
  refine (Proceeds.report plain _ cur on rfl).bind fun _ told on taken _ => ?_
  refine .get ((Goes.drop on (on.memberRest_le _)).mono fun _ after _ dropped => ?_)
  by_cases stayed : told.consumed = start.consumed
  · -- no token of the member was taken, so its first token belongs to the rest
    have same : told.tokenAt 0 = start.tokenAt 0 := by
      rw [Cursor.tokenAt, Cursor.tokenAt, on.rest, onStart.rest, stayed]
    rw [← same] at notEnd notBrace
    have some : 0 < Cursor.memberRest 0 false (told.tokenAt 0 :: told.rest.tail) :=
      Cursor.memberRest_pos notEnd notBrace
    rw [← Cursor.rest_eq_cons notEnd] at some
    simp only [stayed, Nat.lt_irrefl, decide_false] at dropped
    omega
  · omega

/-- An item, and what is done about its problems. -/
theorem Goes.recovering {recover : Nat → SyntaxReport → Parse Unit} {item : Parse α}
    {post : Option α → Cursor → Prop} (h : Goes input cur item fun value => post (some value))
    (recovers : ∀ (after : Cursor) (problem : SyntaxReport), after.Within input →
      cur.consumed ≤ after.consumed → problem.problem.isNesting = false →
      Goes input after (recover cur.consumed problem) fun _ => post none) :
    Goes input cur (Parse.recovering recover item) post := by
  have read : Goes input cur (some <$> item) post := by
    rw [← bind_pure_comp]
    exact h.bind fun value after on _ holds => .pure on holds
  refine .get (read.tryCatch fun interrupt after on forward genuine => ?_)
  cases interrupt with
  | problem report =>
    exact (recovers after report on forward genuine).bind fun _ last on _ holds => .pure on holds
  | tooDeep report => exact .of_throw rfl on genuine

/-- An item takes a token, also where there is a problem with it, if recovery takes one since its start. -/
theorem ProceedsAt.recovering {recover : Nat → SyntaxReport → Parse Unit} {item : Parse α}
    (h : ProceedsAt input kind (Always good) item)
    (recovers : ∀ {start after : Cursor} {problem : SyntaxReport}, problem.problem.isNesting = false →
      start.Within input → (start.tokenAt 0).kind = kind → after.Within input →
      start.consumed ≤ after.consumed →
      Goes input after (recover start.consumed problem) fun _ last => start.consumed < last.consumed) :
    ProceedsAt input kind (Always (Found good)) (Parse.recovering recover item) := by
  intro start onStart here
  refine .recovering ((h start onStart here).mono fun _ _ _ holds => ⟨found_some holds.1, holds.2⟩)
    fun after problem on forward plain => ?_
  exact (recovers plain onStart here on forward).mono fun _ _ _ taken => ⟨nofun, fun _ => taken⟩

theorem ProceedsAt.recoveringStatement {item : Parse α} (h : ProceedsAt input kind (Always good) item)
    (notEnd : kind ≠ .endOfInput) (notBrace : kind ≠ .rightBrace) :
    ProceedsAt input kind (Always (Found good)) (Parse.recovering Parse.recoverStatement item) :=
  h.recovering fun plain on here => .recoverStatement plain on (here ▸ notEnd) (here ▸ notBrace)

theorem ProceedsAt.recoveringMember {item : Parse α} (h : ProceedsAt input kind (Always good) item)
    (notEnd : kind ≠ .endOfInput) (notBrace : kind ≠ .rightBrace) :
    ProceedsAt input kind (Always (Found good)) (Parse.recovering Parse.recoverMember item) :=
  h.recovering fun plain on here => .recoverMember plain on (here ▸ notEnd) (here ▸ notBrace)

/-- Recovery that may take no token. -/
theorem Proceeds.recovering {recover : Nat → SyntaxReport → Parse Unit} {item : Parse α}
    (h : Proceeds input (Perhaps good) item)
    (recovers : ∀ start problem, problem.problem.isNesting = false →
      Proceeds input (Perhaps Anything) (recover start problem)) :
    Proceeds input (Perhaps (Found good)) (Parse.recovering recover item) := by
  intro kind start on here
  refine .recovering ((h kind start on here).mono fun _ _ _ holds => ⟨found_some holds.1, holds.2⟩)
    fun after problem on _ plain => ?_
  exact (recovers start.consumed problem plain _ after on rfl).mono fun _ _ _ _ => ⟨nofun, False.elim⟩

end Parse

end FlowScript
