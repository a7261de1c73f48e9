import FlowScript.Grammar.Program
import FlowScript.Proofs.Rendering
import Mathlib.Data.List.Forall2
/-!
# Reading what is written

`Parse.Reads parse words follow result` says that a parse takes exactly the tokens that stand for some
words, reports nothing, and has a result that satisfies `result`, provided that the kinds of the tokens
after them satisfy `follow`.  There is a rule for every primitive of parsing and for putting two parses
together, so that a rule of the grammar is read off its own text.

Loops run for a number of rounds that exceeds the number of tokens left.  `Parse.Loops` says of a loop
what `Parse.Reads` says of a parse, for every such number of rounds.
-/

namespace FlowScript

/-- The kind of the next token. -/
def nextKind (kinds : List TokenKind) : TokenKind := kinds.headD .endOfInput

@[simp] theorem nextKind_cons (kind : TokenKind) (kinds : List TokenKind) :
    nextKind (kind :: kinds) = kind := rfl

namespace Parse

variable {α β : Type} {parse : Parse α} {rest : α → Parse β} {words more : List Word} {word : Word}
  {follow after : List TokenKind → Prop} {res : α → Prop} {final : β → Prop}

/-- Whether a parse, run from a cursor, takes all tokens but `left`, reports nothing, and has a result
that satisfies `result`. -/
def Takes (parse : Parse α) (cur : Cursor) (left : List Token) (res : α → Prop) : Prop :=
  ∃ value next, parse cur = (.ok value, next) ∧ next.rest = left ∧
    next.reports = cur.reports ∧ res value

/-- Whether a parse takes the tokens that stand for `words` if the kinds of those after them satisfy
`follow`. -/
def Reads (parse : Parse α) (words : List Word) (follow : List TokenKind → Prop)
    (res : α → Prop) : Prop :=
  ∀ (cur : Cursor) (tokens left : List Token), cur.rest = tokens ++ left →
    List.Forall₂ Token.Spells tokens words → follow (left.map Token.kind) →
    Takes parse cur left res

/-- Whether a loop takes the tokens that stand for `words`, for any number of rounds that exceeds the
number of tokens. -/
def Loops (step : α → Parse (Option α)) (start : α) (words : List Word)
    (follow : List TokenKind → Prop) (res : α → Prop) : Prop :=
  ∀ (cur : Cursor) (tokens left : List Token) (rounds : Nat), cur.rest.length < rounds →
    cur.rest = tokens ++ left → List.Forall₂ Token.Spells tokens words →
    follow (left.map Token.kind) → Takes (repeatStep step rounds start) cur left res

/-- No condition on the result. -/
abbrev Anything : α → Prop := fun _ => True

/-- No condition on the tokens that follow. -/
abbrev Anywhere : List TokenKind → Prop := fun _ => True

theorem bind_apply (parse : Parse α) (rest : α → Parse β) (cur : Cursor) :
    (parse >>= rest) cur = match parse cur with
      | (.ok value, next) => rest value next
      | (.error interrupt, next) => (.error interrupt, next) := by
  simp only [Bind.bind, ExceptT.bind, ExceptT.mk, StateT.bind]
  rcases parse cur with ⟨_ | _, next⟩ <;> rfl

theorem tryCatch_apply (parse : Parse α) (handler : Interrupt → Parse α) (cur : Cursor) :
    MonadExcept.tryCatch parse handler cur = match parse cur with
      | (.ok value, after) => (.ok value, after)
      | (.error interrupt, after) => handler interrupt after := by
  change ExceptT.tryCatch parse handler cur = _
  simp only [ExceptT.tryCatch, ExceptT.mk, Bind.bind, StateT.bind]
  rcases parse cur with ⟨_ | _, _⟩ <;> rfl

theorem recovering_apply (recover : Nat → SyntaxReport → Parse Unit) (item : Parse α) (cur : Cursor) :
    Parse.recovering recover item cur = match item cur with
      | (.ok value, after) => (.ok (some value), after)
      | (.error (.problem problem), after) =>
        (recover cur.consumed problem >>= fun _ => pure none) after
      | (.error (.tooDeep report), after) => (.error (.tooDeep report), after) := by
  change MonadExcept.tryCatch (some <$> item) _ cur = _
  rw [tryCatch_apply, ← bind_pure_comp, bind_apply]
  rcases item cur with ⟨(problem | report) | value, after⟩ <;> rfl

theorem peek_apply (cur : Cursor) :
    Parse.peek cur = (.ok (cur.tokenAt 0), cur.look 0) := rfl

theorem advance_apply {cur : Cursor} (notEnd : (cur.tokenAt 0).kind ≠ .endOfInput) :
    Parse.advance cur = (.ok (cur.tokenAt 0), (cur.look 0).skip 1) := by
  rw [Parse.advance, bind_apply, peek_apply]
  dsimp only
  rw [if_pos notEnd]
  rfl

theorem kinds_of_spells {tokens : List Token} (spelled : List.Forall₂ Token.Spells tokens words) :
    tokens.map Token.kind = words.map Word.kind := by
  induction spelled with
  | nil => rfl
  | cons first _ ih => rw [List.map_cons, List.map_cons, first.kind_eq, ih]

theorem Takes.bind {cur : Cursor} {mid left : List Token}
    (first : Takes parse cur mid res)
    (second : ∀ value next, res value → next.rest = mid → Takes (rest value) next left final) :
    Takes (parse >>= rest) cur left final := by
  obtain ⟨value, next, run, rest', reports, holds⟩ := first
  obtain ⟨last, done, runLast, restLast, reportsLast, holdsLast⟩ := second value next holds rest'
  refine ⟨last, done, ?_, restLast, reportsLast.trans reports, holdsLast⟩
  rw [bind_apply, run]
  exact runLast

namespace Reads

theorem weaken {wider : α → Prop} (h : Reads parse words follow res)
    (imp : ∀ value, res value → wider value) : Reads parse words follow wider := by
  intro cur tokens left eq spelled holds
  obtain ⟨value, next, run, rest, reports, found⟩ := h cur tokens left eq spelled holds
  exact ⟨value, next, run, rest, reports, imp value found⟩

/-- A condition on what follows can be made stronger. -/
theorem before {narrower : List TokenKind → Prop} (h : Reads parse words follow res)
    (imp : ∀ kinds, narrower kinds → follow kinds) : Reads parse words narrower res :=
  fun cur tokens left eq spelled holds => h cur tokens left eq spelled (imp _ holds)

theorem pure {value : α} (h : res value) : Reads (Pure.pure value) [] follow res := by
  intro cur tokens left eq spelled _
  cases spelled
  exact ⟨value, cur, rfl, eq, rfl, h⟩

/-- One parse after another. What the second one reads has to be able to follow the first one. -/
theorem bind (first : Reads parse words follow res)
    (second : ∀ value, res value → Reads (rest value) more after final)
    (next : ∀ kinds, after kinds → follow (more.map Word.kind ++ kinds)) :
    Reads (parse >>= rest) (words ++ more) after final := by
  intro cur tokens left eq spelled holds
  have spelledBefore := List.forall₂_take_append tokens words more spelled
  have spelledOthers := List.forall₂_drop_append tokens words more spelled
  rw [← List.take_append_drop words.length tokens, List.append_assoc] at eq
  refine (first cur _ _ eq spelledBefore ?_).bind fun value mid found eqMiddle =>
    second value found mid _ left eqMiddle spelledOthers holds
  rw [List.map_append, kinds_of_spells spelledOthers]
  exact next _ holds

/-- One parse after another, where all words belong to the first. -/
theorem bindLast (first : Reads parse words follow res)
    (second : ∀ value, res value → Reads (rest value) [] after final)
    (next : ∀ kinds, after kinds → follow kinds) :
    Reads (parse >>= rest) words after final := by
  have := bind first second next
  rwa [List.append_nil] at this

theorem map {f : α → β} (h : Reads parse words follow res)
    (image : ∀ value, res value → final (f value)) : Reads (f <$> parse) words follow final := by
  rw [← bind_pure_comp]
  exact h.bindLast (fun value found => pure (image value found)) fun _ => id

/-- Looking at the cursor. -/
theorem get {rest : Cursor → Parse β} (h : ∀ cur, Reads (rest cur) words follow final) :
    Reads (MonadState.get >>= rest) words follow final :=
  fun cur tokens left eq spelled holds => h cur cur tokens left eq spelled holds

/-! ## Single tokens -/

/-- Looking at the next token, which stands for the first word. -/
theorem peek {rest : Token → Parse β}
    (h : ∀ token : Token, token.Spells word → Reads (rest token) (word :: words) follow final) :
    Reads (Parse.peek >>= rest) (word :: words) follow final := by
  intro cur tokens left eq spelled holds
  cases spelled with
  | @cons token _ others _ first spelled =>
    obtain ⟨value, next, run, taken, reports, found⟩ :=
      h token first (cur.look 0) (token :: others) left eq (.cons first spelled) holds
    refine ⟨value, next, ?_, taken, reports, found⟩
    have seen : (cur.look 0).tokenAt 0 = token := by simp [Cursor.tokenAt, Cursor.look, eq]
    rw [← seen] at run
    exact run

/-- Looking at the next token, which belongs to what follows. -/
theorem peekEnd {rest : Token → Parse β}
    (h : ∀ (token : Token) (kinds : List TokenKind), follow kinds → token.kind = nextKind kinds →
      Reads (rest token) [] follow final) : Reads (Parse.peek >>= rest) [] follow final := by
  intro cur tokens left eq spelled holds
  cases spelled
  have seen : ((cur.look 0).tokenAt 0).kind = nextKind (left.map Token.kind) := by
    rw [Cursor.tokenAt, Cursor.look, eq]
    cases left <;> rfl
  obtain ⟨value, next, run, taken, reports, found⟩ :=
    h _ _ holds seen (cur.look 0) [] left eq .nil holds
  exact ⟨value, next, run, taken, reports, found⟩

/-- Looking at the token after the next one. -/
theorem peekSecond {rest : Token → Parse β} {second : Word}
    (h : ∀ token : Token, token.Spells second →
      Reads (rest token) (word :: second :: words) follow final) :
    Reads (Parse.peekAt 1 >>= rest) (word :: second :: words) follow final := by
  intro cur tokens left eq spelled holds
  cases spelled with
  | @cons token _ others _ first spelled =>
    cases spelled with
    | @cons token' _ others' _ next spelled =>
      obtain ⟨value, after, run, taken, reports, found⟩ :=
        h token' next (cur.look 1) (token :: token' :: others') left eq
          (.cons first (.cons next spelled)) holds
      refine ⟨value, after, ?_, taken, reports, found⟩
      have seen : (cur.look 1).tokenAt 1 = token' := by simp [Cursor.tokenAt, Cursor.look, eq]
      rw [← seen] at run
      exact run

/-- Taking the next token. -/
theorem advance {rest : Token → Parse β} (notEnd : word.kind ≠ .endOfInput)
    (h : ∀ token : Token, token.Spells word → Reads (rest token) words follow final) :
    Reads (Parse.advance >>= rest) (word :: words) follow final := by
  intro cur tokens left eq spelled holds
  cases spelled with
  | @cons token _ others _ first spelled =>
    obtain ⟨value, next, run, taken, reports, found⟩ :=
      h token first ((cur.look 0).skip 1) others left (by simp [Cursor.skip, Cursor.look, eq])
        spelled holds
    refine ⟨value, next, ?_, taken, reports, found⟩
    have seen : cur.tokenAt 0 = token := by simp [Cursor.tokenAt, eq]
    have notEnd : (cur.tokenAt 0).kind ≠ .endOfInput := by
      rw [seen, first.kind_eq]
      exact notEnd
    rw [bind_apply, advance_apply notEnd, seen]
    exact run

/-- Looking at the kind of the next token, whether it belongs to the words or to what follows. -/
theorem peekKind {rest : Token → Parse β}
    (h : ∀ (token : Token) (kinds : List TokenKind), follow kinds →
      token.kind = nextKind (words.map Word.kind ++ kinds) → Reads (rest token) words follow final) :
    Reads (Parse.peek >>= rest) words follow final := by
  intro cur tokens left eq spelled holds
  have seen : (cur.tokenAt 0).kind = nextKind (words.map Word.kind ++ left.map Token.kind) := by
    rw [← kinds_of_spells spelled, ← List.map_append, ← eq, Cursor.tokenAt]
    cases cur.rest <;> rfl
  exact h _ _ holds seen (cur.look 0) tokens left eq spelled holds

/-- Taking the next token, which has the kind that it has to have. -/
theorem expect {rest : Token → Parse β} {kind : TokenKind} {context : String}
    (same : word.kind = kind) (notEnd : kind ≠ .endOfInput)
    (h : ∀ token : Token, token.Spells word → Reads (rest token) words follow final) :
    Reads (Parse.expect kind context >>= rest) (word :: words) follow final := by
  rw [Parse.expect, bind_assoc]
  refine peek fun token spelled => ?_
  rw [if_pos (spelled.kind_eq.trans same)]
  exact advance (same ▸ notEnd) h

/-- Taking a mark. -/
theorem expectMark {rest : Token → Parse β} {kind : TokenKind} {context : String}
    (notEnd : kind ≠ .endOfInput) (h : ∀ token, Reads (rest token) words follow final) :
    Reads (Parse.expect kind context >>= rest) (.mark kind :: words) follow final :=
  expect rfl notEnd fun token _ => h token

/-- Taking a name. -/
theorem expectName {rest : Token → Parse β} {name context : String}
    (h : ∀ token : Token, token.lexeme = name → Reads (rest token) words follow final) :
    Reads (Parse.expect .identifier context >>= rest) (.name name :: words) follow final :=
  expect rfl (by decide) fun token spelled => h token spelled.2

/-- A test for the kind of the next token. -/
theorem check {rest : Bool → Parse β} {kind : TokenKind} (found : Bool)
    (test : ∀ kinds, follow kinds →
      decide (nextKind (words.map Word.kind ++ kinds) = kind) = found)
    (h : Reads (rest found) words follow final) :
    Reads (Parse.check kind >>= rest) words follow final := by
  rw [Parse.check, bind_assoc]
  refine peekKind fun token kinds holds seen => ?_
  rw [seen, pure_bind, test kinds holds]
  exact h

/-- Taking a mark if it is there: it is. -/
theorem acceptYes {rest : Bool → Parse β} {kind : TokenKind} (notEnd : kind ≠ .endOfInput)
    (h : Reads (rest true) words follow final) :
    Reads (Parse.accept kind >>= rest) (.mark kind :: words) follow final := by
  rw [Parse.accept, bind_assoc]
  refine check true (fun kinds _ => decide_eq_true rfl) ?_
  rw [if_pos rfl, bind_assoc]
  exact advance notEnd fun _ _ => h

/-- Taking a mark if it is there: it is not. -/
theorem acceptNo {rest : Bool → Parse β} {kind : TokenKind}
    (other : ∀ kinds, follow kinds → nextKind (words.map Word.kind ++ kinds) ≠ kind)
    (h : Reads (rest false) words follow final) :
    Reads (Parse.accept kind >>= rest) words follow final := by
  rw [Parse.accept, bind_assoc]
  refine check false (fun kinds holds => decide_eq_false (other kinds holds)) ?_
  exact h

/-- Taking the terminator of a statement. -/
theorem expectTerminator : Reads Parse.expectTerminator [.mark .terminator] Anywhere Anything := by
  rw [Parse.expectTerminator]
  refine peek fun token spelled => ?_
  rw [spelled.kind_eq]
  exact advance (by decide) fun _ _ => pure trivial

/-- Taking all tokens at the start whose kinds satisfy a predicate. -/
theorem skipWhile {p : TokenKind → Bool} (skipped : ∀ word ∈ words, p word.kind = true) :
    Reads (Parse.skipWhile p) words (fun kinds => p (nextKind kinds) = false) Anything := by
  intro cur tokens left eq spelled stops
  have leading : cur.leading p = tokens.length := by
    have all : ∀ token ∈ tokens, p token.kind = true := by
      intro token mem
      have kinds : token.kind ∈ words.map Word.kind :=
        kinds_of_spells spelled ▸ List.mem_map_of_mem mem
      obtain ⟨word, known, same⟩ := List.mem_map.mp kinds
      exact same ▸ skipped word known
    rw [Cursor.leading, eq, List.takeWhile_append_of_pos all]
    cases left with
    | nil => simp
    | cons token _ =>
      have stops : p token.kind = false := stops
      simp [stops]
  refine ⟨(), (cur.look tokens.length).skip tokens.length, ?_, ?_, rfl, trivial⟩
  · rw [← leading]
    rfl
  · simp [Cursor.skip, Cursor.look, eq]

/-- A parse that is not interrupted has nothing to catch. -/
theorem tryCatch {handler : Interrupt → Parse α} (h : Reads parse words follow res) :
    Reads (MonadExcept.tryCatch parse handler) words follow res := by
  intro cur tokens left eq spelled holds
  obtain ⟨value, next, run, rest⟩ := h cur tokens left eq spelled holds
  refine ⟨value, next, ?_, rest⟩
  rw [tryCatch_apply, run]

/-- An item from whose problems the parse would recover. -/
theorem recovering {recover : Nat → SyntaxReport → Parse Unit}
    (h : Reads parse words follow res) :
    Reads (Parse.recovering recover parse) words follow
      (fun found => ∃ value, found = some value ∧ res value) :=
  .get fun _ => (h.map fun value found => ⟨value, rfl, found⟩).tryCatch

end Reads

/-! ## Loops -/

namespace Loops

variable {step : α → Parse (Option α)} {start : α} {mid : α → Prop}

theorem weaken {wider : α → Prop} (h : Loops step start words follow res)
    (imp : ∀ value, res value → wider value) : Loops step start words follow wider := by
  intro cur tokens left rounds enough eq spelled holds
  obtain ⟨value, next, run, rest, reports, found⟩ :=
    h cur tokens left rounds enough eq spelled holds
  exact ⟨value, next, run, rest, reports, imp value found⟩

/-- A loop that ends. -/
theorem stop (h : Reads (step start) words follow (· = none)) (found : res start) :
    Loops step start words follow res := by
  intro cur tokens left rounds enough eq spelled holds
  obtain ⟨rounds, rfl⟩ : ∃ less, rounds = less + 1 := ⟨rounds - 1, by omega⟩
  refine (h cur tokens left eq spelled holds).bind fun value next none taken => ?_
  subst none
  exact ⟨start, next, rfl, taken, rfl, found⟩

/-- One more round of a loop, which takes a token. -/
theorem next
    (first : Reads (step start) words after fun found => ∃ value, found = some value ∧ mid value)
    (taking : words ≠ [])
    (second : ∀ value, mid value → Loops step value more follow res)
    (meets : ∀ kinds, follow kinds → after (more.map Word.kind ++ kinds)) :
    Loops step start (words ++ more) follow res := by
  intro cur tokens left rounds enough eq spelled holds
  have spelledFirst := List.forall₂_take_append tokens words more spelled
  have spelledMore := List.forall₂_drop_append tokens words more spelled
  rw [← List.take_append_drop words.length tokens, List.append_assoc] at eq
  obtain ⟨rounds, rfl⟩ : ∃ less, rounds = less + 1 := ⟨rounds - 1, by omega⟩
  refine (first cur _ _ eq spelledFirst ?_).bind ?_
  · rw [List.map_append, kinds_of_spells spelledMore]
    exact meets _ holds
  · rintro _ now ⟨value, rfl, found⟩ taken
    refine second value found now _ left rounds ?_ taken spelledMore holds
    have some : 0 < words.length := List.length_pos_iff.mpr taking
    have length := spelledFirst.length_eq
    rw [eq, List.length_append, length] at enough
    rw [taken]
    omega

/-- A loop with as many rounds as there are tokens. -/
theorem iterate (h : Loops step start words follow res) :
    Reads (Parse.iterate step start) words follow res := by
  intro cur tokens left eq spelled holds
  exact h cur tokens left (cur.rest.length + 1) (by omega) eq spelled holds

end Loops

/-! ## Lists -/

namespace Reads

variable {ι : Type} {item : Parse α} {write : ι → Written} {related : ι → α → Prop}
  {sources : List ι}

/-- The rest of a list with commas between its items. -/
theorem continued
    (each : ∀ src ∈ sources, Reads item (write src).words follow (related src))
    (comma : ∀ kinds, follow (.comma :: kinds))
    (ends : ∀ kinds, after kinds → follow kinds ∧ nextKind kinds ≠ .comma)
    {known : List ι} {items : Array α} (read : List.Forall₂ related known items.toList) :
    Loops (nextItem item) items (Written.continued (sources.map write)).words after
      (fun items => List.Forall₂ related (known ++ sources) items.toList) := by
  induction sources generalizing known items with
  | nil =>
    rw [List.append_nil]
    exact .stop (acceptNo (fun kinds holds => (ends kinds holds).2) (pure rfl)) read
  | cons src rest ih =>
    have step : Reads (nextItem item items) (.mark .comma :: (write src).words) follow fun found =>
        ∃ items, found = some items ∧ List.Forall₂ related (known ++ [src]) items.toList := by
      refine acceptYes (by decide) ?_
      refine (each src (by simp)).bindLast (fun value found => pure ⟨_, rfl, ?_⟩) fun _ => id
      rw [Array.toList_push]
      exact List.rel_append read (.cons found .nil)
    refine Loops.next step (by simp) (fun items found => ?_) fun kinds holds => ?_
    · have := ih (fun other mem => each other (by simp [mem])) found
      rwa [List.append_assoc, List.singleton_append] at this
    · cases rest with
      | nil => exact (ends kinds holds).1
      | cons next others => exact comma _

/-- A list with commas between its items, of which there is one at least. -/
theorem commaSeparated {src : ι}
    (each : ∀ other ∈ src :: sources, Reads item (write other).words follow (related other))
    (comma : ∀ kinds, follow (.comma :: kinds))
    (ends : ∀ kinds, after kinds → follow kinds ∧ nextKind kinds ≠ .comma) :
    Reads (Parse.commaSeparated item) (Written.commas ((src :: sources).map write)).words after
      (List.Forall₂ related (src :: sources)) := by
  rw [Parse.commaSeparated]
  refine (each src (by simp)).bind (fun value found => ?_) fun kinds holds => ?_
  · have first : List.Forall₂ related [src] #[value].toList := .cons found .nil
    have others : ∀ other ∈ sources, Reads item (write other).words follow (related other) :=
      fun other mem => each other (by simp [mem])
    exact (continued others comma ends first).iterate.map fun items found => found
  · cases sources with
    | nil => exact (ends kinds holds).1
    | cons next others => exact comma _

/-- A list before a closing parenthesis, with commas between its items. -/
theorem listed (each : ∀ src ∈ sources, Reads item (write src).words follow (related src))
    (starts : ∀ src ∈ sources, ∀ kinds,
      nextKind ((write src).words.map Word.kind ++ kinds) ≠ .rightParen)
    (comma : ∀ kinds, follow (.comma :: kinds))
    (closing : ∀ kinds, follow (.rightParen :: kinds)) :
    Reads (Parse.listed item)
      (Written.commas (sources.map write)).words (fun kinds => nextKind kinds = .rightParen)
      (List.Forall₂ related sources) := by
  cases sources with
  | nil => exact check true (fun kinds holds => decide_eq_true holds) (pure .nil)
  | cons src rest =>
    refine check false (fun kinds _ => decide_eq_false ?_) ?_
    · have := starts src (by simp) ((Written.continued (rest.map write)).words.map Word.kind ++ kinds)
      rwa [← List.append_assoc, ← List.map_append] at this
    · refine commaSeparated each comma fun kinds holds => ?_
      cases kinds with
      | nil => cases holds
      | cons kind kinds =>
        cases holds
        exact ⟨closing kinds, by simp⟩

end Reads

end Parse

end FlowScript
