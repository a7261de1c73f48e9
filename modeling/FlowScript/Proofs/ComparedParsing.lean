import FlowScript.Proofs.ComparedInputs
/-!
# Two parses side by side

`Comparison.Tracks` says of two parses that the left one keeps to its input and to what is promised of its
results, and that from aligned cursors both do the same, unless the left one is excused.  Where the left input
breaks off, it is excused once there is a problem.  Where nesting is limited more tightly on the left, it is
excused from nesting that goes too deep.

What aligned cursors come to depends on the `Comparison.Scope`.  An expression leaves them aligned.  At the end
of a statement the right cursor may have taken terminators that the left input does not have.  Between braces
the left cursor may be at the end of its input, whatever the right one does, since no brace closes there.

Main statement: `Comparison.Tracks.iterate`, by which loops do the same if their rounds do.
-/

namespace FlowScript

open Parse (Anything Promise Perhaps Always Decides Found All Onward Rounds Goes Proceeds ProceedsAt)

theorem Parse.map_apply {α β : Type} (f : α → β) (parse : Parse α) (cur : Cursor) :
    (f <$> parse) cur = ((parse cur).1.map f, (parse cur).2) := by
  rw [← bind_pure_comp, Parse.bind_apply]
  rcases parse cur with ⟨_ | _, _⟩ <;> rfl

namespace Comparison

/-- What can come of aligned cursors. -/
inductive Scope where
  /-- The cursors are aligned again. -/
  | exact
  /-- Between braces, the left input may be exhausted. -/
  | inside
  /-- At the end of a statement, the right cursor may have taken terminators beyond the left input. -/
  | ending
  /-- Before the next statement, the right cursor has taken all terminators beyond the left input. -/
  | settled
  deriving DecidableEq

variable {sides : Comparison} {α β : Type} {left right : Cursor} {scope : Scope} {kind : TokenKind}
variable {run other : Except Interrupt α × Cursor} {promise : Promise α} {final : Promise β}
variable {good : α → Prop}

/-! ## Excused and tracked runs -/

variable (sides) in
/-- Whether a run on the left need not be matched. -/
def Excuses (run : Except Interrupt α × Cursor) : Prop :=
  sides.breaksOff = true ∧ ((∃ interrupt, run.1 = .error interrupt) ∨ run.2.reports ≠ #[]) ∨
    sides.tighter = true ∧ ∃ report, run.1 = .error (.tooDeep report)

variable (sides) in
/-- Whether two runs come to what a scope asks for. -/
def Lands : Scope → Except Interrupt α × Cursor → Except Interrupt α × Cursor → Prop
  | .exact, first, second => first.1 = second.1 ∧ sides.Aligned first.2 second.2
  | .inside, first, second =>
    sides.Exhausted first.2 ∨ first.1 = second.1 ∧ sides.Aligned first.2 second.2
  | .ending, first, second =>
    first.1 = second.1 ∧ (sides.Aligned first.2 second.2 ∨ sides.Past first.2 second.2)
  | .settled, first, second =>
    first.1 = second.1 ∧
      (sides.Aligned first.2 second.2 ∧ ¬sides.Exhausted first.2 ∨
        sides.Past first.2 second.2 ∧ unterminated second.2.rest = second.2.rest)

variable (sides) in
/-- Whether two parses do the same from aligned cursors before a token of a kind. -/
def MatchesAt (kind : TokenKind) (scope : Scope) (first second : Parse α) : Prop :=
  ∀ left right, sides.Aligned left right → (left.tokenAt 0).kind = kind →
    sides.Excuses (first left) ∨ sides.Lands scope (first left) (second right)

variable (sides) in
/-- Whether a parse before a token of a kind keeps to the left input and to a promise, and another one does the
same on the right. -/
structure TracksAt (kind : TokenKind) (scope : Scope) (promise : Promise α) (first second : Parse α) :
    Prop where
  proceeds : ProceedsAt sides.left kind promise first
  runs : sides.MatchesAt kind scope first second

variable (sides) in
/-- Whether a parse keeps to the left input and to a promise, and another one does the same on the right. -/
def Tracks (scope : Scope) (promise : Promise α) (first second : Parse α) : Prop :=
  ∀ kind, sides.TracksAt kind scope promise first second

variable (sides) in
/-- Whether a parse takes a token and builds what satisfies `good`, and another one does the same. -/
abbrev Builds (good : α → Prop) (first second : Parse α) : Prop :=
  sides.Tracks .exact (Always good) first second

variable (sides) in
/-- Whether a parse builds so before a token of a kind. -/
abbrev BuildsAt (kind : TokenKind) (good : α → Prop) (first second : Parse α) : Prop :=
  sides.TracksAt kind .exact (Always good) first second

variable {first second : Parse α} {rest others : α → Parse β} {post : α → Cursor → Prop}

theorem Tracks.proceeds (h : sides.Tracks scope promise first second) :
    Proceeds sides.left promise first := fun kind => (h kind).proceeds

theorem Excuses.of_error {interrupt : Interrupt} (off : sides.breaksOff = true)
    (stopped : run.1 = .error interrupt) : sides.Excuses run :=
  .inl ⟨off, .inl ⟨interrupt, stopped⟩⟩

theorem Excuses.of_reports (off : sides.breaksOff = true) (told : run.2.reports ≠ #[]) :
    sides.Excuses run :=
  .inl ⟨off, .inr told⟩

/-- An excuse for the first of two parses is one for both. -/
theorem Excuses.bind (excused : sides.Excuses (first left)) (goes : Goes sides.left left first post)
    (later : ∀ value after, post value after → Proceeds sides.left final (rest value)) :
    sides.Excuses ((first >>= rest) left) := by
  obtain ⟨on, -, -, holds, -⟩ := goes
  rw [Parse.bind_apply]
  rcases run : first left with ⟨interrupt | value, after⟩ <;> rw [run] at excused on holds
  · rcases excused with ⟨off, -⟩ | ⟨tighter, report, stopped⟩
    · exact .of_error off rfl
    · cases stopped
      exact .inr ⟨tighter, report, rfl⟩
  · rcases excused with ⟨off, ⟨interrupt, stopped⟩ | told⟩ | ⟨-, report, stopped⟩
    · cases stopped
    · exact .of_reports off ((later value after (holds value rfl) _ after on rfl).kept told)
    · cases stopped

/-- Where neither input breaks off, there is nothing to lose in any scope. -/
theorem Lands.of_whole (whole : sides.breaksOff = false) (same : run.1 = other.1)
    (aligned : sides.Aligned run.2 other.2) : sides.Lands scope run other := by
  cases scope with
  | exact => exact ⟨same, aligned⟩
  | inside => exact .inr ⟨same, aligned⟩
  | ending => exact ⟨same, .inl aligned⟩
  | settled =>
    refine ⟨same, .inl ⟨aligned, ?_⟩⟩
    intro exhausted
    exact absurd (whole.symm.trans exhausted.off) Bool.false_ne_true

/-- What is exact is so in a wider scope too. -/
theorem Lands.widen (landed : sides.Lands .exact run other) (wider : scope ≠ .settled) :
    sides.Lands scope run other := by
  cases scope with
  | exact => exact landed
  | inside => exact .inr landed
  | ending => exact ⟨landed.1, .inl landed.2⟩
  | settled => exact absurd rfl wider

theorem Lands.whole (landed : sides.Lands scope run other) (whole : sides.breaksOff = false) :
    sides.Lands .exact run other := by
  have never {cur : Cursor} (exhausted : sides.Exhausted cur) : False :=
    absurd (whole.symm.trans exhausted.off) Bool.false_ne_true
  cases scope with
  | exact => exact landed
  | inside => exact landed.resolve_left never
  | ending => exact ⟨landed.1, landed.2.resolve_right fun past => never past.exhausted⟩
  | settled => exact ⟨landed.1, (landed.2.resolve_right fun past => never past.1.exhausted).1⟩

/-- A result on the left may be changed if it is changed on the right in the same way. -/
theorem Lands.change {value : α} {res : β} {after : Cursor} {changed : Except Interrupt β × Cursor}
    (landed : sides.Lands scope (.ok value, after) other)
    (same : other.1 = .ok value → changed = (.ok res, other.2)) :
    sides.Lands scope (.ok res, after) changed := by
  cases scope with
  | inside =>
    rcases landed with exhausted | ⟨equal, rest⟩
    · exact .inl exhausted
    · rw [same equal.symm]
      exact .inr ⟨rfl, rest⟩
  | exact | ending | settled =>
    obtain ⟨equal, rest⟩ := landed
    rw [same equal.symm]
    exact ⟨rfl, rest⟩

/-- Both sides are interrupted alike. -/
theorem excuses_or_lands_of_error {interrupt : Interrupt} (stopped : run.1 = .error interrupt)
    (same : run.1 = other.1) (aligned : sides.Aligned run.2 other.2) :
    sides.Excuses run ∨ sides.Lands scope run other := by
  cases off : sides.breaksOff with
  | true => exact .inl (.of_error off stopped)
  | false => exact .inr (.of_whole off same aligned)

/-- What comes after two parses that did the same. -/
theorem Lands.bind (landed : sides.Lands .exact (first left) (second right))
    (goes : Goes sides.left left first post)
    (two : ∀ value after, post value after → sides.Tracks scope final (rest value) (others value)) :
    sides.Excuses ((first >>= rest) left) ∨
      sides.Lands scope ((first >>= rest) left) ((second >>= others) right) := by
  obtain ⟨same, after⟩ := landed
  have holds := goes.result
  rw [Parse.bind_apply, Parse.bind_apply]
  rcases run : first left with ⟨interrupt | value, ended⟩ <;>
    rcases other : second right with ⟨interrupt' | value', ended'⟩ <;>
    rw [run, other] at same after <;> rw [run] at holds <;> cases same
  · exact excuses_or_lands_of_error rfl rfl after
  · exact (two value ended (holds value rfl) _).runs ended ended' after rfl

variable (sides) in
/-- Whether a parse at the end of an input that breaks off fails, or stays there between braces. -/
def Ends (scope : Scope) (parse : Parse α) : Prop :=
  ∀ cur, sides.Exhausted cur →
    (∃ interrupt, (parse cur).1 = .error interrupt) ∨
      scope = .inside ∧ sides.Exhausted (parse cur).2

theorem Ends.stays {parse : Parse α} (h : Proceeds sides.left promise parse) :
    sides.Ends .inside parse :=
  fun _ exhausted => .inr ⟨rfl, exhausted.stays h⟩

theorem Ends.pure (value : α) : sides.Ends .inside (Pure.pure value) :=
  fun _ exhausted => .inr ⟨rfl, exhausted⟩

/-- No token is left to be taken. -/
theorem Ends.expect {wanted : TokenKind} {context : String} {rest : Token → Parse β}
    (notEnd : wanted ≠ .endOfInput) : sides.Ends scope (Parse.expect wanted context >>= rest) := by
  intro cur exhausted
  have other : (cur.tokenAt 0).kind ≠ wanted := fun same => notEnd (same.symm.trans exhausted.atEnd)
  refine .inl ⟨.problem ⟨.expected wanted context (cur.tokenAt 0), (cur.tokenAt 0).position⟩, ?_⟩
  rw [Parse.expect, bind_assoc, Parse.bind_apply, Parse.peek_apply]
  dsimp only
  rw [if_neg other]
  rfl

/-- The end of the input is seen. -/
theorem Ends.peek {rest : Token → Parse β}
    (h : ∀ token : Token, token.kind = .endOfInput → sides.Ends scope (rest token)) :
    sides.Ends scope (Parse.peek >>= rest) :=
  fun cur exhausted => h (cur.tokenAt 0) exhausted.atEnd (cur.look 0) exhausted.peeked

theorem Ends.bind (stays : Proceeds sides.left promise first)
    (h : ∀ value, sides.Ends scope (rest value)) : sides.Ends scope (first >>= rest) := by
  intro cur exhausted
  have after := exhausted.stays stays
  rw [Parse.bind_apply]
  rcases run : first cur with ⟨interrupt | value, ended⟩ <;> rw [run] at after
  · exact .inl ⟨interrupt, rfl⟩
  · exact h value ended after

/-- At the end of an input that breaks off, one parse after another. -/
theorem Exhausted.bind (exhausted : sides.Exhausted (first left).2)
    (ends : ∀ value, sides.Ends scope (rest value)) :
    sides.Excuses ((first >>= rest) left) ∨
      scope = .inside ∧ sides.Exhausted ((first >>= rest) left).2 := by
  rw [Parse.bind_apply]
  rcases run : first left with ⟨interrupt | value, ended⟩ <;> rw [run] at exhausted
  · exact .inl (.of_error exhausted.off rfl)
  · refine (ends value ended exhausted).imp_left ?_
    rintro ⟨interrupt, stopped⟩
    exact .of_error exhausted.off stopped

/-! ## Recovery reports -/

theorem told_report (problem : SyntaxReport) (cur : Cursor) : (Parse.report problem cur).2.reports ≠ #[] := by
  change cur.reports.push problem ≠ #[]
  simp

theorem told_recoverMember (start : Nat) (problem : SyntaxReport) (cur : Cursor) :
    (Parse.recoverMember start problem cur).2.reports ≠ #[] := told_report problem cur

theorem told_recoverStatement (start : Nat) (problem : SyntaxReport) (cur : Cursor) :
    (Parse.recoverStatement start problem cur).2.reports ≠ #[] := by
  have told := told_report problem cur
  rw [Parse.recoverStatement, Parse.bind_apply]
  change ((if _ = start then _ else _ : Parse Unit) _).2.reports ≠ #[]
  split
  · change ((if _ then _ else _ : Parse Unit) _).2.reports ≠ #[]
    split
    · rename_i more
      rw [Parse.bind_apply, Parse.advance_apply more.1]
      exact told
    · exact told
  · exact told

/-! ## Putting parses together -/

namespace MatchesAt

theorem pure (value : α) : sides.MatchesAt kind .exact (Pure.pure value) (Pure.pure value) :=
  fun _ _ aligned _ => .inr ⟨rfl, aligned⟩

/-- Between braces nothing has to be matched at the end of an input that breaks off. -/
theorem atEnd (off : sides.breaksOff = true) (value : α) :
    sides.MatchesAt .endOfInput .inside (Pure.pure value) second :=
  fun _ _ aligned here => .inr (.inl (aligned.exhausted off here))

/-- Where the left side fails, there is nothing to match if its input breaks off. -/
theorem failed {problem : SyntaxProblem} {token : Token} (off : sides.breaksOff = true) :
    sides.MatchesAt kind scope (Parse.fail problem token) second :=
  fun _ _ _ _ => .inl (.of_error off rfl)

/-- Looking at the next token.  Where the left input breaks off, the right side sees a terminator. -/
theorem peek {rest others : Token → Parse β}
    (same : ∀ token : Token, token.kind = kind → sides.MatchesAt kind scope (rest token) (others token))
    (broken : sides.breaksOff = true → kind = .endOfInput → ∀ last mark : Token,
      last.kind = .endOfInput → mark.kind = .terminator →
      sides.MatchesAt kind scope (rest last) (others mark)) :
    sides.MatchesAt kind scope (Parse.peek >>= rest) (Parse.peek >>= others) := by
  intro left right aligned here
  rw [Parse.bind_apply, Parse.bind_apply, Parse.peek_apply, Parse.peek_apply]
  rcases aligned.tokenAt 0 aligned.onLeft.taken with equal | ⟨off, ends, stands⟩
  · rw [equal]
    exact same _ here _ _ aligned.peeked here
  · exact broken off (here.symm.trans ends) _ _ ends stands _ _ aligned.peeked here

/-- At the end of the input on the left there is no token of a kind to be taken. -/
theorem acceptAtEnd {wanted : TokenKind} {rest others : Bool → Parse β} (notEnd : wanted ≠ .endOfInput)
    (notMark : wanted ≠ .terminator) (no : sides.MatchesAt .endOfInput scope (rest false) (others false)) :
    sides.MatchesAt .endOfInput scope (Parse.accept wanted >>= rest) (Parse.accept wanted >>= others) := by
  rw [Parse.accept, Parse.check, bind_assoc, bind_assoc, bind_assoc, bind_assoc]
  refine peek (fun token here => ?_) fun _ _ last mark ends stands => ?_
  · rw [pure_bind, pure_bind, here, decide_eq_false notEnd.symm]
    exact no
  · rw [pure_bind, pure_bind, ends, stands, decide_eq_false notEnd.symm, decide_eq_false notMark.symm]
    exact no

end MatchesAt

namespace TracksAt

theorem widen (h : sides.TracksAt kind .exact promise first second) (wider : scope ≠ .settled) :
    sides.TracksAt kind scope promise first second := by
  refine ⟨h.proceeds, fun left right aligned here => ?_⟩
  exact (h.runs left right aligned here).imp_right fun landed => landed.widen wider

/-- Between braces it does not matter what the right side does beyond the left input. -/
theorem enclose (h : sides.TracksAt kind scope promise first second) :
    sides.TracksAt kind .inside promise first second := by
  refine ⟨h.proceeds, fun left right aligned here => ?_⟩
  refine (h.runs left right aligned here).imp_right fun landed => ?_
  cases scope with
  | exact => exact .inr landed
  | inside => exact landed
  | ending => exact landed.2.elim (fun after => .inr ⟨landed.1, after⟩) fun past => .inl past.exhausted
  | settled =>
    exact landed.2.elim (fun after => .inr ⟨landed.1, after.1⟩) fun past => .inl past.1.exhausted

theorem runs_bind (one : sides.TracksAt kind .exact promise first second)
    (two : ∀ value, promise.good value → sides.Tracks scope final (rest value) (others value)) :
    sides.MatchesAt kind scope (first >>= rest) (second >>= others) := by
  intro left right aligned here
  have goes := one.proceeds left aligned.onLeft here
  rcases one.runs left right aligned here with excused | landed
  · exact .inl (excused.bind goes fun value _ holds => (two value holds.1).proceeds)
  · exact landed.bind goes fun value _ holds => two value holds.1

/-- One parse after another. -/
theorem bind (one : sides.TracksAt kind .exact promise first second)
    (two : ∀ value, promise.good value → sides.Tracks scope final (rest value) (others value)) :
    sides.TracksAt kind scope final (first >>= rest) (second >>= others) :=
  ⟨one.proceeds.bind fun value holds => (two value holds).proceeds, one.runs_bind two⟩

/-- One parse after another, of which the first takes a token. -/
theorem bindTaking (one : sides.BuildsAt kind good first second)
    (two : ∀ value, good value → sides.Tracks scope (Perhaps final.good) (rest value) (others value)) :
    sides.TracksAt kind scope final (first >>= rest) (second >>= others) :=
  ⟨one.proceeds.bindTaking fun value holds => (two value holds).proceeds, one.runs_bind two⟩

/-- Taking a token that is not the end of the input. -/
theorem advance (notEnd : kind ≠ .endOfInput) :
    sides.BuildsAt kind Anything Parse.advance Parse.advance := by
  refine ⟨.advance notEnd, fun left right aligned here => .inr ?_⟩
  rw [← here] at notEnd
  have taken := aligned.onLeft.taken
  have more : left.consumed + 1 ≤ sides.left.before.length := aligned.onLeft.lt_of_kind taken notEnd
  have same : right.tokenAt 0 = left.tokenAt 0 := by
    rcases aligned.tokenAt 0 taken with same | ⟨-, ends, -⟩
    · exact same
    · exact absurd ends notEnd
  rw [Parse.advance_apply notEnd, Parse.advance_apply (same ▸ notEnd), same]
  exact ⟨rfl, aligned.peeked.skip more⟩

/-- Taking a token, and what comes after it. -/
theorem advanceThen {rest others : Token → Parse β} (notEnd : kind ≠ .endOfInput)
    (two : ∀ token, sides.Tracks scope (Perhaps final.good) (rest token) (others token)) :
    sides.TracksAt kind scope final (Parse.advance >>= rest) (Parse.advance >>= others) :=
  (advance notEnd).bindTaking fun token _ => two token

/-- Looking at how many tokens were taken. -/
theorem get {rest others : Cursor → Parse β}
    (h : ∀ left right : Cursor, right.consumed = left.consumed + sides.shift →
      sides.TracksAt kind scope final (rest left) (others right)) :
    sides.TracksAt kind scope final (MonadState.get >>= rest) (MonadState.get >>= others) := by
  refine ⟨fun cur on here => .get ?_, fun left right aligned here => ?_⟩
  · exact (h cur { cur with consumed := cur.consumed + sides.shift } rfl).proceeds cur on here
  · exact (h left right aligned.consumed).runs left right aligned here

/-- Looking at the next token. -/
theorem peek {rest others : Token → Parse β}
    (same : ∀ token : Token, token.kind = kind →
      sides.TracksAt kind scope final (rest token) (others token))
    (broken : sides.breaksOff = true → kind = .endOfInput → ∀ last mark : Token,
      last.kind = .endOfInput → mark.kind = .terminator →
      sides.MatchesAt kind scope (rest last) (others mark)) :
    sides.TracksAt kind scope final (Parse.peek >>= rest) (Parse.peek >>= others) :=
  ⟨.peek fun token here => (same token here).proceeds,
    .peek (fun token here => (same token here).runs) broken⟩

/-- Before a token at which the left input does not break off, there is nothing to settle. -/
theorem settled (more : sides.breaksOff = true → kind ≠ .endOfInput) {value : α}
    (h : Proceeds sides.left promise (Pure.pure value)) :
    sides.TracksAt kind .settled promise (Pure.pure value) (Pure.pure value) := by
  refine ⟨h kind, fun left right aligned here => .inr ⟨rfl, .inl ⟨aligned, ?_⟩⟩⟩
  intro exhausted
  exact more exhausted.off (here.symm.trans exhausted.atEnd)

/-- Looking at the token after the next one, which is not the end of the input. -/
theorem peekSecond {rest others : Token → Parse β} (notEnd : kind ≠ .endOfInput)
    (same : ∀ token : Token, sides.TracksAt kind scope final (rest token) (others token))
    (broken : ∀ last mark : Token, last.kind = .endOfInput → mark.kind = .terminator →
      sides.MatchesAt kind scope (rest last) (others mark)) :
    sides.TracksAt kind scope final (Parse.peekAt 1 >>= rest) (Parse.peekAt 1 >>= others) := by
  have within {cur : Cursor} (on : cur.Within sides.left) (here : (cur.tokenAt 0).kind = kind) :
      cur.consumed + 1 ≤ sides.left.before.length := on.lt_of_kind on.taken (here ▸ notEnd)
  constructor
  · intro cur on here
    exact .peekAt ((same _).proceeds (cur.look 1) (on.look (within on here)) here)
  · intro left right aligned here
    have inside := within aligned.onLeft here
    change sides.Excuses (rest (left.tokenAt 1) (left.look 1)) ∨ sides.Lands scope
      (rest (left.tokenAt 1) (left.look 1)) (others (right.tokenAt 1) (right.look 1))
    have looked := aligned.look inside
    rcases aligned.tokenAt 1 inside with equal | ⟨-, ends, stands⟩
    · rw [equal]
      exact (same _).runs _ _ looked here
    · exact broken _ _ ends stands _ _ looked here

end TracksAt

namespace Tracks

theorem perhaps (h : sides.Tracks scope promise first second) :
    sides.Tracks scope (Perhaps promise.good) first second :=
  fun kind => ⟨h.proceeds.perhaps kind, (h kind).runs⟩

theorem idle {value : α} (h : promise.good value) (idle : ¬promise.takes value) :
    sides.Tracks .exact promise (Pure.pure value) (Pure.pure value) :=
  fun kind => ⟨Proceeds.idle h idle kind, .pure value⟩

theorem pure {value : α} (h : good value) :
    sides.Tracks .exact (Perhaps good) (Pure.pure value) (Pure.pure value) :=
  idle h not_false

/-- The loop is left. -/
theorem leave {post : α → Prop} {value : α} :
    sides.Tracks .exact (Onward post value) (Pure.pure none) (Pure.pure none) :=
  idle nofun nofun

theorem bind (one : sides.Tracks .exact promise first second)
    (two : ∀ value, promise.good value → sides.Tracks scope final (rest value) (others value)) :
    sides.Tracks scope final (first >>= rest) (second >>= others) :=
  fun kind => (one kind).bind two

theorem bindTaking (one : sides.Builds good first second)
    (two : ∀ value, good value → sides.Tracks scope (Perhaps final.good) (rest value) (others value)) :
    sides.Tracks scope final (first >>= rest) (second >>= others) :=
  fun kind => (one kind).bindTaking two

/-- One parse after another between braces. -/
theorem bindInside (one : sides.Tracks .inside promise first second)
    (two : ∀ value, promise.good value → sides.Tracks scope final (rest value) (others value))
    (ends : ∀ value, sides.Ends scope (rest value)) :
    sides.Tracks scope final (first >>= rest) (second >>= others) := by
  have later := fun value holds => (two value holds).proceeds
  refine fun kind => ⟨(one kind).proceeds.bind later, fun left right aligned here => ?_⟩
  have goes := (one kind).proceeds left aligned.onLeft here
  rcases (one kind).runs left right aligned here with excused | exhausted | landed
  · exact .inl (excused.bind goes fun value _ holds => later value holds.1)
  · refine (exhausted.bind ends).imp_right ?_
    rintro ⟨rfl, stays⟩
    exact .inl stays
  · exact Lands.bind landed goes fun value _ holds => two value holds.1

/-- A change of the result changes nothing else. -/
theorem bindPure {f : α → β} {good : β → Prop} (h : sides.Tracks scope promise first second)
    (image : ∀ value, promise.good value → good (f value)) :
    sides.Tracks scope (Perhaps good) (first >>= fun value => Pure.pure (f value))
      (second >>= fun value => Pure.pure (f value)) := by
  intro kind
  refine ⟨(h kind).proceeds.bind fun value holds => .pure (image value holds), ?_⟩
  intro left right aligned here
  rw [bind_pure_comp, bind_pure_comp, Parse.map_apply, Parse.map_apply]
  refine ((h kind).runs left right aligned here).imp ?_ ?_
  · rintro (⟨off, ⟨interrupt, stopped⟩ | told⟩ | ⟨tighter, report, stopped⟩)
    · exact .of_error off (congrArg (Except.map f) stopped)
    · exact .of_reports off told
    · exact .inr ⟨tighter, report, congrArg (Except.map f) stopped⟩
  · cases scope with
    | inside => exact Or.imp_right fun landed => ⟨congrArg (Except.map f) landed.1, landed.2⟩
    | exact | ending | settled => exact fun landed => ⟨congrArg (Except.map f) landed.1, landed.2⟩

theorem ite {cond : Prop} [Decidable cond] {yes no yes' no' : Parse α}
    (one : sides.Tracks scope promise yes yes') (two : sides.Tracks scope promise no no') :
    sides.Tracks scope promise (if cond then yes else no) (if cond then yes' else no') := by
  split
  · exact one
  · exact two

/-- What is done for a yes, for which a token is taken, and for a no. -/
theorem branch {first second : Parse Bool} {rest others : Bool → Parse β}
    (h : sides.Tracks .exact Decides first second)
    (yes : sides.Tracks scope (Perhaps final.good) (rest true) (others true))
    (no : sides.Tracks scope final (rest false) (others false)) :
    sides.Tracks scope final (first >>= rest) (second >>= others) := by
  have either (found : Bool) : sides.Tracks scope (Perhaps final.good) (rest found) (others found) := by
    cases found with
    | true => exact yes
    | false => exact no.perhaps
  exact fun kind => ⟨h.proceeds.branch yes.proceeds no.proceeds kind,
    (h kind).runs_bind fun found _ => either found⟩

/-! ## Single tokens -/

theorem peek {rest others : Token → Parse β}
    (same : ∀ token : Token, sides.TracksAt token.kind scope final (rest token) (others token))
    (broken : sides.breaksOff = true → ∀ last mark : Token, last.kind = .endOfInput →
      mark.kind = .terminator → sides.MatchesAt .endOfInput scope (rest last) (others mark)) :
    sides.Tracks scope final (Parse.peek >>= rest) (Parse.peek >>= others) := by
  intro kind
  refine .peek (fun token here => here ▸ same token) ?_
  rintro off rfl last mark ends stands
  exact broken off last mark ends stands

/-- A failure at a token that both sides see. -/
theorem fail (problem : SyntaxProblem) (token : Token) (plain : problem.isNesting = false) :
    sides.Tracks scope promise (Parse.fail problem token : Parse α) (Parse.fail problem token) :=
  fun kind => ⟨Proceeds.fail plain kind, fun _ _ aligned _ => excuses_or_lands_of_error rfl rfl aligned⟩

/-- Nesting that goes too deep: on both sides, or past a tighter limit on the left. -/
theorem abort {problem : SyntaxProblem} (nesting : problem.isNesting = true)
    (h : sides.tighter = true ∨ second = Parse.abort problem) :
    sides.Tracks scope promise (Parse.abort problem) second := by
  refine fun kind => ⟨Proceeds.abort nesting kind, ?_⟩
  rcases h with tighter | rfl
  · exact fun _ _ _ _ => .inl (.inr ⟨tighter, _, rfl⟩)
  · refine .peek (fun token _ _ _ aligned _ => ?_) fun off _ last mark _ _ _ _ _ _ => ?_
    · exact excuses_or_lands_of_error rfl rfl aligned
    · exact .inl (.of_error off rfl)

theorem report (problem : SyntaxReport) (plain : problem.problem.isNesting = false) :
    sides.Tracks .exact (Perhaps Anything) (Parse.report problem) (Parse.report problem) := by
  refine fun kind => ⟨Proceeds.report plain kind, fun left right aligned _ => ?_⟩
  cases off : sides.breaksOff with
  | true => exact .inl (.of_reports off (told_report problem left))
  | false =>
    have onLeft := (Proceeds.report plain _ left aligned.onLeft rfl).on
    have onRight := (Proceeds.report plain _ right aligned.onRight rfl).on
    refine .inr ⟨rfl, onLeft, onRight, aligned.consumed, ?_, ?_⟩
    · exact congrArg (·.push problem) aligned.reports
    · exact fun broken => absurd (off.symm.trans broken) Bool.false_ne_true

/-- A test for a kind of token other than a terminator, and what is done then. -/
theorem checkThen {kind : TokenKind} {rest others : Bool → Parse β}
    (yes : sides.TracksAt kind scope final (rest true) (others true))
    (no : sides.Tracks scope final (rest false) (others false)) (notEnd : kind ≠ .endOfInput)
    (notMark : kind ≠ .terminator) :
    sides.Tracks scope final (Parse.check kind >>= rest) (Parse.check kind >>= others) := by
  refine fun other => ⟨Proceeds.checkThen yes.proceeds no.proceeds other, ?_⟩
  rw [Parse.check, bind_assoc, bind_assoc]
  refine .peek (fun token here => ?_) fun _ _ last mark ends stands => ?_
  · rw [pure_bind, pure_bind, ← here]
    by_cases same : token.kind = kind
    · rw [decide_eq_true same, same]
      exact yes.runs
    · rw [decide_eq_false same]
      exact (no _).runs
  · rw [pure_bind, pure_bind, ends, stands, decide_eq_false notEnd.symm, decide_eq_false notMark.symm]
    exact (no _).runs

/-- Taking a token of a kind, other than a terminator, if it is there. -/
theorem accept {kind : TokenKind} (notEnd : kind ≠ .endOfInput)
    (notMark : kind ≠ .terminator) :
    sides.Tracks .exact Decides (Parse.accept kind) (Parse.accept kind) :=
  checkThen ((TracksAt.advance notEnd).bindTaking fun _ _ => pure trivial) (idle trivial nofun) notEnd notMark

/-- Taking a token that has to be of a kind other than a terminator. -/
theorem expect {kind : TokenKind} {context : String} (notEnd : kind ≠ .endOfInput) :
    sides.Builds Anything (Parse.expect kind context) (Parse.expect kind context) := by
  refine peek (fun token => ?_) fun off last mark ends _ => ?_
  · split
    · rename_i same
      exact .advance (same ▸ notEnd)
    · exact fail _ _ rfl _
  · rw [if_neg (by rw [ends]; exact notEnd.symm)]
    exact .failed off

/-- The terminator of a statement, which may be missing where the left input breaks off. -/
theorem expectTerminator :
    sides.Tracks .ending (Perhaps Anything) Parse.expectTerminator Parse.expectTerminator := by
  refine peek (fun token => ?_) fun off last mark ends stands => ?_
  · refine .widen ?_ nofun
    split
    · rename_i same
      exact (TracksAt.advance (by simp [same])).bindTaking fun _ _ => pure trivial
    · exact pure trivial _
    · exact pure trivial _
    · exact fail _ _ rfl _
  · rw [ends, stands]
    intro left right aligned here
    have exhausted := aligned.exhausted off here
    have mark := aligned.kind_of_exhausted exhausted
    dsimp only
    rw [Parse.bind_apply, Parse.advance_apply (by simp [mark])]
    exact .inr ⟨rfl, .inr ((aligned.past exhausted).advance mark)⟩

/-! ## Runs of tokens -/

theorem skipWhile {p : TokenKind → Bool} (stops : p .endOfInput = false) :
    sides.Tracks .inside (Perhaps Anything) (Parse.skipWhile p) (Parse.skipWhile p) := by
  refine fun kind => ⟨Proceeds.skipWhile stops kind, fun left right aligned _ => .inr ?_⟩
  have within := Cursor.leading_le stops aligned.onLeft
  rcases aligned.leading stops with ⟨same, -⟩ | ⟨off, all, -⟩
  · refine .inr ⟨rfl, ?_⟩
    change sides.Aligned ((left.look (left.leading p)).skip (left.leading p))
      ((right.look (right.leading p)).skip (right.leading p))
    rw [same]
    exact (aligned.look within).skip within
  · exact .inl ⟨off, (aligned.onLeft.look within).skip within, all⟩

/-- Terminators on the right go on beyond an input that breaks off. -/
theorem skipTerminators :
    sides.Tracks .settled (Perhaps Anything) Parse.skipTerminators Parse.skipTerminators := by
  refine fun kind => ⟨Proceeds.skipTerminators kind, fun left right aligned _ => .inr ⟨rfl, ?_⟩⟩
  have stops : (decide (TokenKind.endOfInput = .terminator)) = false := rfl
  have within : left.consumed + left.leading (fun kind => kind = .terminator) ≤ _ :=
    Cursor.leading_le stops aligned.onLeft
  rcases aligned.leading (p := fun kind => kind = .terminator) stops with ⟨same, more⟩ | ⟨off, all, rest⟩
  · refine .inl ⟨?_, fun exhausted => ?_⟩
    · change sides.Aligned ((left.look (left.leading _)).skip (left.leading _))
        ((right.look (right.leading _)).skip (right.leading _))
      rw [same]
      exact (aligned.look within).skip within
    · exact absurd exhausted.all (Nat.ne_of_lt (more exhausted.off))
  · have silent := aligned.silent off
    have goes := Parse.Proceeds.skipTerminators _ right aligned.onRight rfl
    have unterminates : (Parse.skipTerminators right).2.rest = unterminated right.rest :=
      rest_skip_leading right _
    refine .inr ⟨⟨⟨off, (aligned.onLeft.look within).skip within, all⟩, goes.on, ?_, silent,
      aligned.reports.trans silent⟩, ?_⟩
    · rw [unterminates]
      exact (List.dropWhile_idempotent _ _).trans rest
    · rw [unterminates]
      exact List.dropWhile_idempotent _ _

/-- An `else` behind any number of terminators; none follows where the left input breaks off. -/
theorem acceptElse : sides.Tracks .exact Decides Level.acceptElse Level.acceptElse := by
  refine fun kind => ⟨Proceeds.acceptElse kind, fun left right aligned _ => .inr ?_⟩
  have stops : (decide (TokenKind.endOfInput = .terminator)) = false := rfl
  have within : left.consumed + left.leading (fun kind => kind = .terminator) ≤ _ :=
    Cursor.leading_le stops aligned.onLeft
  rw [Level.acceptElse_apply, Level.acceptElse_apply]
  rcases aligned.leading (p := fun kind => kind = .terminator) stops with ⟨same, -⟩ | ⟨off, all, rest⟩
  · rw [same]
    have looked := aligned.look within
    rcases aligned.tokenAt _ within with token | ⟨-, ends, mark⟩
    · rw [token]
      split
      · rename_i isElse
        have more := aligned.onLeft.lt_of_kind within (by simp [isElse])
        exact ⟨rfl, looked.skip more⟩
      · exact ⟨rfl, looked⟩
    · rw [if_neg (by simp [ends]), if_neg (by simp [mark])]
      exact ⟨rfl, looked⟩
  · have ends := (aligned.onLeft.kind_eq_end_iff within).mpr all
    have other : (right.tokenAt (right.leading fun kind => kind = .terminator)).kind ≠ .kwElse := by
      have same : ((right.rest.map Token.kind).dropWhile fun kind => kind = .terminator) =
          (sides.tail.map Token.kind).dropWhile fun kind => kind = .terminator := by
        rw [List.dropWhile_map, List.dropWhile_map]
        exact congrArg (List.map Token.kind) rest
      rw [Level.kind_tokenAt_leading, same]
      exact (sides.goesOn off).2
    rw [if_neg (by simp [ends]), if_neg other]
    have inside := Cursor.leading_le (p := fun kind => kind = .terminator) stops aligned.onRight
    exact ⟨rfl, aligned.onLeft.look within, aligned.onRight.look inside, aligned.consumed, aligned.reports,
      aligned.silent⟩

/-- The end of a statement and all terminators after it. -/
theorem settle (h : sides.TracksAt kind .ending (Always good) first second)
    (finishes : ∀ value, good value → ∃ res, final.good res ∧ rest value = Pure.pure res ∧
      others value = Pure.pure res) :
    sides.TracksAt kind .settled final
      (do
        let value ← first
        Parse.skipTerminators
        rest value)
      (do
        let value ← second
        Parse.skipTerminators
        others value) := by
  have follows (value : α) (holds : good value) : sides.Tracks .settled (Perhaps final.good)
      (do Parse.skipTerminators; rest value) (do Parse.skipTerminators; others value) := by
    obtain ⟨res, last, one, two⟩ := finishes value holds
    rw [one, two]
    exact skipTerminators.bindPure fun _ _ => last
  have later := fun value holds => (follows value holds).proceeds
  refine ⟨h.proceeds.bindTaking later, fun left right aligned here => ?_⟩
  have goes := h.proceeds left aligned.onLeft here
  rcases h.runs left right aligned here with excused | ⟨same, aligned | past⟩
  · exact .inl (excused.bind goes fun value _ holds => later value holds.1)
  · exact Lands.bind ⟨same, aligned⟩ goes fun value _ holds => follows value holds.1
  · have holds := goes.result
    rw [Parse.bind_apply, Parse.bind_apply]
    -- the left input broke off at the end of the statement
    rcases run : first left with ⟨interrupt | value, ended⟩ <;>
      rcases other : second right with ⟨interrupt' | value', ended'⟩ <;>
      rw [run, other] at same past <;> rw [run] at holds <;> cases same
    · exact .inl (.of_error past.exhausted.off rfl)
    · obtain ⟨res, -, one, two⟩ := finishes value (holds value rfl).1
      dsimp only
      rw [one, two]
      exact .inr ⟨rfl, .inr past.settle⟩

/-! ## Recovery -/

/-- Dropping tokens, as many on both sides. -/
theorem drop {count count' : Cursor → Nat}
    (same : ∀ left right, sides.Aligned left right → count' right = count left)
    (within : ∀ cur : Cursor, cur.Within sides.left →
      cur.consumed + count cur ≤ sides.left.before.length) :
    sides.Tracks .exact (Perhaps Anything) (MonadState.get >>= fun cur => Parse.drop (count cur))
      (MonadState.get >>= fun cur => Parse.drop (count' cur)) := by
  refine fun kind => ⟨fun cur on _ => .get ?_, fun left right aligned _ => ?_⟩
  · exact (Goes.drop on (within cur on)).mono fun _ _ _ _ => ⟨trivial, False.elim⟩
  · have inside := within left aligned.onLeft
    refine .inr ⟨rfl, ?_⟩
    change sides.Aligned ((left.look (count left)).skip (count left))
      ((right.look (count' right)).skip (count' right))
    rw [same left right aligned]
    exact (aligned.look inside).skip inside

theorem dropThen {count count' : Cursor → Nat} {rest others : Unit → Parse β}
    (same : ∀ left right, sides.Aligned left right → count' right = count left)
    (within : ∀ cur : Cursor, cur.Within sides.left →
      cur.consumed + count cur ≤ sides.left.before.length)
    (two : sides.Tracks scope final (rest ()) (others ())) :
    sides.Tracks scope final (MonadState.get >>= fun cur => Parse.drop (count cur) >>= rest)
      (MonadState.get >>= fun cur => Parse.drop (count' cur) >>= others) := by
  rw [← bind_assoc, ← bind_assoc]
  exact (drop same within).bind fun _ _ => two

/-- The rest of a statement is the same on both sides, if neither input breaks off. -/
theorem recoverStatement (whole : sides.breaksOff = false) (start : Nat) {problem : SyntaxReport}
    (plain : problem.problem.isNesting = false) :
    sides.Tracks .exact (Perhaps Anything) (Parse.recoverStatement start problem)
      (Parse.recoverStatement (start + sides.shift) problem) := by
  refine (report problem plain).bind fun _ _ => ?_
  refine dropThen (fun left right aligned => ?_) (fun cur on => on.statementRest_le) ?_
  · rw [aligned.rest_eq whole]
  refine fun kind => .get fun left right same => ?_
  simp only [same, Nat.add_right_cancel_iff]
  refine ite (peek (fun token => ?_) fun off _ _ _ _ => ?_) (pure trivial) kind
  · split
    · rename_i more
      exact (TracksAt.advance more.1).bindTaking fun _ _ => pure trivial
    · exact pure trivial _
  · exact absurd (whole.symm.trans off) Bool.false_ne_true

/-- The rest of a member is the same on both sides, if neither input breaks off. -/
theorem recoverMember (whole : sides.breaksOff = false) (start : Nat) {problem : SyntaxReport}
    (plain : problem.problem.isNesting = false) :
    sides.Tracks .exact (Perhaps Anything) (Parse.recoverMember start problem)
      (Parse.recoverMember (start + sides.shift) problem) := by
  refine (report problem plain).bind fun _ _ => ?_
  refine drop (fun left right aligned => ?_) fun cur on => on.memberRest_le _
  simp only [aligned.rest_eq whole, aligned.consumed, Nat.add_lt_add_iff_right]

end Tracks

/-- An item, and what is done about its problems.  Where the left input breaks off, a problem is an excuse,
and recovery reports it. -/
theorem TracksAt.recovering {recover recover' : Nat → SyntaxReport → Parse Unit} {final : Promise (Option α)}
    (h : sides.TracksAt kind scope promise first second)
    (proceeds : ProceedsAt sides.left kind final (Parse.recovering recover first))
    (told : ∀ start problem cur, (recover start problem cur).2.reports ≠ #[])
    (recovers : sides.breaksOff = false → ∀ start problem, problem.problem.isNesting = false →
      sides.Tracks .exact (Perhaps Anything) (recover start problem)
        (recover' (start + sides.shift) problem)) :
    sides.TracksAt kind scope final (Parse.recovering recover first)
      (Parse.recovering recover' second) := by
  refine ⟨proceeds, fun left right aligned here => ?_⟩
  have genuine := (h.proceeds left aligned.onLeft here).genuine
  have runs := h.runs left right aligned here
  rw [Parse.recovering_apply, Parse.recovering_apply]
  rcases run : first left with ⟨(problem | report) | value, after⟩ <;> rw [run] at genuine runs
  · cases off : sides.breaksOff with
    | true =>
      refine .inl (.of_reports off ?_)
      dsimp only
      rw [bind_pure_comp, Parse.map_apply]
      exact told _ _ _
    | false =>
      -- the same problem on both sides, from which they recover alike
      rcases runs with (⟨broken, -⟩ | ⟨-, report, stopped⟩) | landed
      · exact absurd (off.symm.trans broken) Bool.false_ne_true
      · cases stopped
      obtain ⟨same, ended⟩ := landed.whole off
      rcases other : second right with ⟨interrupt' | value', after'⟩ <;> rw [other] at same ended <;>
        cases same
      have recovered := recovers off left.consumed problem (genuine _ rfl)
      rw [aligned.consumed]
      have ends : sides.Tracks .exact (Perhaps Anything) (pure none : Parse (Option α)) (pure none) :=
        .pure trivial
      refine (((recovered.bind fun _ _ => ends) _).runs after after' ended rfl).imp_right ?_
      exact fun landed => .of_whole off landed.1 landed.2
  · cases off : sides.breaksOff with
    | true => exact .inl (.of_error off rfl)
    | false =>
      rcases runs with (⟨broken, -⟩ | ⟨tighter, -⟩) | landed
      · exact absurd (off.symm.trans broken) Bool.false_ne_true
      · exact .inl (.inr ⟨tighter, report, rfl⟩)
      obtain ⟨same, ended⟩ := landed.whole off
      rcases other : second right with ⟨interrupt' | value', after'⟩ <;> rw [other] at same ended <;>
        cases same
      exact .inr (.of_whole off rfl ended)
  · rcases runs with (⟨off, ⟨interrupt, stopped⟩ | kept⟩ | ⟨-, report, stopped⟩) | landed
    · cases stopped
    · exact .inl (.of_reports off kept)
    · cases stopped
    · refine .inr (landed.change fun same => ?_)
      rcases other : second right with ⟨interrupt' | value', after'⟩ <;> rw [other] at same <;> cases same
      rfl

theorem TracksAt.recoveringStatement (h : sides.TracksAt kind scope (Always good) first second)
    (notEnd : kind ≠ .endOfInput) (notBrace : kind ≠ .rightBrace) :
    sides.TracksAt kind scope (Always (Found good)) (Parse.recovering Parse.recoverStatement first)
      (Parse.recovering Parse.recoverStatement second) :=
  h.recovering (h.proceeds.recoveringStatement notEnd notBrace) told_recoverStatement
    fun whole start _ plain => Tracks.recoverStatement whole start plain

theorem TracksAt.recoveringMember (h : sides.TracksAt kind scope (Always good) first second)
    (notEnd : kind ≠ .endOfInput) (notBrace : kind ≠ .rightBrace) :
    sides.TracksAt kind scope (Always (Found good)) (Parse.recovering Parse.recoverMember first)
      (Parse.recovering Parse.recoverMember second) :=
  h.recovering (h.proceeds.recoveringMember notEnd notBrace) told_recoverMember
    fun whole start _ plain => Tracks.recoverMember whole start plain

/-! ## Loops -/

section Loops

variable {step step' : α → Parse (Option α)} {post : α → Prop}

/-- Loops do the same if their rounds do, each with enough rounds for its input. -/
theorem Tracks.runs_repeatStep (carries : scope = .exact ∨ scope = .inside)
    (each : ∀ value, sides.Tracks scope (Onward post value) (step value) (step' value))
    (rounds rounds' : Nat) (value : α) (aligned : sides.Aligned left right)
    (enough : sides.left.before.length < rounds + left.consumed)
    (enough' : sides.right.before.length < rounds' + right.consumed) :
    sides.Excuses (Parse.repeatStep step rounds value left) ∨
      sides.Lands scope (Parse.repeatStep step rounds value left)
        (Parse.repeatStep step' rounds' value right) := by
  have onward : Rounds sides.left Anything step :=
    fun value kind => (each value kind).proceeds.weaken (fun _ _ _ _ _ => trivial) fun _ => id
  have later (value : α) (rounds : Nat) (next : Option α) :
      Proceeds sides.left (Perhaps Anything)
        (next.elim (Pure.pure value) (Parse.repeatStep step rounds)) := by
    cases next with
    | none => exact .pure trivial
    | some other => exact onward.repeatStep rounds trivial
  -- each round takes a token on both sides, so the rounds left stay ahead of the tokens left
  induction rounds generalizing rounds' value left right with
  | zero =>
    have taken : left.consumed ≤ sides.left.before.length := aligned.onLeft.taken
    omega
  | succ rounds ih =>
    cases rounds' with
    | zero =>
      have taken : right.consumed ≤ sides.right.before.length := aligned.onRight.taken
      omega
    | succ rounds' =>
      have goes := (each value _).proceeds left aligned.onLeft rfl
      -- what follows a round that did the same on both sides
      have follows (landed : sides.Lands .exact (step value left) (step' value right)) :
          sides.Excuses (Parse.repeatStep step (rounds + 1) value left) ∨
            sides.Lands scope (Parse.repeatStep step (rounds + 1) value left)
              (Parse.repeatStep step' (rounds' + 1) value right) := by
        obtain ⟨same, ended⟩ := landed
        have further := goes.result
        have behind := aligned.consumed
        rw [Parse.repeatStep, Parse.repeatStep, Parse.bind_apply, Parse.bind_apply]
        rcases run : step value left with ⟨interrupt | next, after⟩ <;>
          rcases other : step' value right with ⟨interrupt' | next', after'⟩ <;>
          rw [run] at same ended further <;> rw [other] at same ended <;> cases same
        · exact excuses_or_lands_of_error rfl rfl ended
        · cases next with
          | none => exact .inr (Lands.widen ⟨rfl, ended⟩ (by rcases carries with rfl | rfl <;> decide))
          | some next =>
            have one : left.consumed < after.consumed := (further _ rfl).2 rfl
            have two : after'.consumed = after.consumed + sides.shift := ended.consumed
            exact ih rounds' next ended (by omega) (by omega)
      rcases (each value _).runs left right aligned rfl with excused | landed
      · rw [Parse.repeatStep_succ step]
        exact .inl (excused.bind goes fun next _ _ => later value rounds next)
      rcases carries with rfl | rfl
      · exact follows landed
      rcases landed with exhausted | landed
      · rw [Parse.repeatStep_succ step]
        exact (exhausted.bind fun next => .stays (later value rounds next)).imp_right fun stays => .inl stays.2
      · exact follows landed

/-- Loops do the same if their rounds do. -/
theorem Tracks.iterate (carries : scope = .exact ∨ scope = .inside)
    (each : ∀ value, sides.Tracks scope (Onward post value) (step value) (step' value)) {value : α}
    (initial : post value) :
    sides.Tracks scope (Perhaps post) (Parse.iterate step value) (Parse.iterate step' value) := by
  have rounds : Rounds sides.left post step := fun value => (each value).proceeds
  refine fun kind => ⟨rounds.iterate initial kind, fun left right aligned _ => ?_⟩
  exact runs_repeatStep carries each _ _ value aligned aligned.onLeft.enough aligned.onRight.enough

end Loops

namespace Tracks

variable {item item' : Parse α}

/-- One more item after a comma. -/
theorem nextItem (h : sides.Builds good item item') (items : Array α) :
    sides.Tracks .exact (Onward (fun items => All good items.toList) items)
      (Parse.nextItem item items) (Parse.nextItem item' items) :=
  (accept (by decide) (by decide)).branch
    (h.bind fun _ holds => pure (Parse.found_some fun each => Parse.all_push each holds)) leave

/-- Items with commas between them, of which the first takes a token. -/
theorem commaSeparated (h : sides.Builds good item item') :
    sides.Builds (All good) (Parse.commaSeparated item) (Parse.commaSeparated item') := by
  refine h.bindTaking fun first holds => ?_
  exact (iterate (.inl rfl) h.nextItem (List.forall_mem_singleton.mpr holds)).bind fun _ each => pure each

theorem listed (h : sides.Builds good item item') :
    sides.Tracks .exact (Perhaps (All good)) (Parse.listed item) (Parse.listed item') :=
  checkThen (pure nofun _) h.commaSeparated.perhaps (by decide) (by decide)

end Tracks

end Comparison

end FlowScript
