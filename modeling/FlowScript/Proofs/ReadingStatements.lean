import FlowScript.Proofs.ReadingDeclarations
/-!
# Reading written statements

A written statement is read as the statement that was written.  The terminator behind it is taken by the
statement itself or by the round of the block that reads it, and an `else` is looked for behind any
number of terminators, so what follows a statement matters further than its first token: `NoElse`.

Main statement: `Level.ReadsNested.nextStatement`.
-/

namespace FlowScript

open Parse

/-! ## Conditionals -/

/-- The words of the alternative of a conditional. -/
def writtenElse : Option Stmt → Written
  | some alt => .mark .kwElse ++ alt.written.linked
  | none => .empty

theorem Stmt.written_ifElse (pos : Position) (cond : Expr) (body : Block Stmt)
    (alt : Option Stmt) :
    (Stmt.ifElse pos cond body alt).written =
      .mark .kwIf ++ cond.written.inner ++ .block (Stmt.writtenList body.statements) ++
        writtenElse alt := by
  cases alt <;> simp only [Stmt.written, writtenElse]

theorem Stmt.unplaced_ifElse (pos : Position) (cond : Expr) (body : Block Stmt)
    (alt : Option Stmt) :
    (Stmt.ifElse pos cond body alt).unplaced =
      .ifElse default cond.unplaced ⟨default, Stmt.unplacedList body.statements⟩
        (alt.map Stmt.unplaced) := by
  cases alt <;> simp only [Stmt.unplaced, Option.map]

/-- Whether the alternative of a conditional is as the parser leaves it. -/
def PlainElse (alt : Option Stmt) : Prop :=
  ∀ other ∈ alt, other.isAlternative = true ∧ other.Plain

/-- The words of the initial value of a variable. -/
def writtenInitial : Option Expr → Written
  | some value => .mark .equal ++ value.written.inner
  | none => .empty

theorem Stmt.written_varDecl (pos : Position) (name : String) (type : Option TypeExpr)
    (value : Option Expr) (resolved : Option Ty) :
    (Stmt.varDecl pos name type value resolved).written =
      .mark .kwVar ++ .word (.name name) ++ writtenType .colon type ++ writtenInitial value := by
  cases value <;> simp only [Stmt.written, writtenInitial]

theorem Stmt.unplaced_varDecl (pos : Position) (name : String) (type : Option TypeExpr)
    (value : Option Expr) (resolved : Option Ty) :
    (Stmt.varDecl pos name type value resolved).unplaced =
      .varDecl default name (type.map TypeExpr.unplaced) (value.map Expr.unplaced) resolved := by
  cases value <;> simp only [Stmt.unplaced, Option.map]

namespace Level

variable {level : Level} {depth stack : Nat} {β : Type} {words : List Word} {final : β → Prop}

/-- The kind of the first token that does not satisfy a predicate. -/
theorem kind_tokenAt_leading (cur : Cursor) (p : TokenKind → Bool) :
    (cur.tokenAt (cur.leading p)).kind =
      nextKind ((cur.rest.map Token.kind).dropWhile p) := by
  rw [Cursor.tokenAt, Cursor.leading]
  induction cur.rest with
  | nil => rfl
  | cons token rest ih =>
    cases skipped : p token.kind with
    | true => simpa [skipped] using ih
    | false => simp [skipped]

theorem acceptElse_apply (cur : Cursor) :
    acceptElse cur =
      if (cur.tokenAt (cur.leading fun kind => kind = .terminator)).kind = .kwElse then
        (.ok true, (cur.look (cur.leading fun kind => kind = .terminator)).skip
          ((cur.leading fun kind => kind = .terminator) + 1))
      else (.ok false, cur.look (cur.leading fun kind => kind = .terminator)) := by
  change (if _ then _ else _ : Parse Bool) _ = _
  split
  · rw [if_pos (by assumption)]
    rfl
  · rw [if_neg (by assumption)]
    rfl

/-- Taking an `else`: it is there. -/
theorem acceptElse_yes {rest : Bool → Parse β} {follow : List TokenKind → Prop}
    (h : Reads (rest true) words follow final) :
    Reads (acceptElse >>= rest) (.mark .kwElse :: words) follow final := by
  intro cur tokens left eq spelled holds
  cases spelled with
  | @cons token _ others _ first spelled =>
    have isElse : token.kind = .kwElse := first.kind_eq
    have none : (cur.leading fun kind => kind = .terminator) = 0 := by
      simp [Cursor.leading, eq, isElse]
    have seen : cur.tokenAt 0 = token := by simp [Cursor.tokenAt, eq]
    obtain ⟨value, next, run, taken, reports, found⟩ :=
      h ((cur.look 0).skip 1) others left (by simp [Cursor.skip, Cursor.look, eq]) spelled holds
    refine ⟨value, next, ?_, taken, reports, found⟩
    rw [bind_apply, acceptElse_apply, none, seen, if_pos isElse]
    exact run

/-- Taking an `else`: it is not there. -/
theorem acceptElse_no {rest : Bool → Parse β} (h : Reads (rest false) [] NoElse final) :
    Reads (acceptElse >>= rest) [] NoElse final := by
  intro cur tokens left eq spelled holds
  cases spelled
  have other : (cur.tokenAt (cur.leading fun kind => kind = .terminator)).kind ≠ .kwElse := by
    rw [kind_tokenAt_leading, eq]
    exact holds
  obtain ⟨value, next, run, taken, reports, found⟩ :=
    h (cur.look (cur.leading fun kind => kind = .terminator)) [] left eq .nil holds
  refine ⟨value, next, ?_, taken, reports, found⟩
  rw [bind_apply, acceptElse_apply, if_neg other]
  exact run

namespace ReadsNested

variable (nested : level.ReadsNested depth stack)

include nested

/-- What follows the block of a conditional. -/
theorem alternative {alt : Option Stmt} (plain : PlainElse alt)
    (enough : (writtenElse alt).Fits depth stack) :
    Reads level.alternative (writtenElse alt).words NoElse
      fun found => found.map Stmt.unplaced = alt.map Stmt.unplaced := by
  cases alt with
  | none => exact acceptElse_no (.pure rfl)
  | some other =>
    obtain ⟨allowed, plain⟩ := plain other rfl
    simp only [writtenElse, Written.fits_append] at enough
    refine acceptElse_yes ?_
    rw [if_pos rfl]
    cases other with
    | block body =>
      have plainBody := (Stmt.each_block.mp plain).2
      refine .check false (fun kinds _ => by simp [Stmt.written, Written.block, Word.kind]) ?_
      have read := nested.block "after 'else'" _ plainBody enough.2.of_linked
      refine (read.map fun block same => ?_).before fun _ _ => trivial
      simp only [Option.map, Stmt.unplaced, same]
    | ifElse pos cond body alt =>
      refine .check true (fun kinds _ => by rw [Stmt.written_ifElse]; rfl) ?_
      exact (nested.conditional plain enough.2).map fun found same => congrArg some same
    | _ => cases allowed

/-- A conditional. -/
theorem ifStmt {pos : Position} {cond : Expr} {body : Block Stmt} {alt : Option Stmt} :
    ReadsStmt depth stack level.ifStmt (.ifElse pos cond body alt) NoElse := by
  intro plain enough
  obtain ⟨own, plainCondition, block, others⟩ := Stmt.each_ifElse.mp plain
  have plainBody := (Stmt.each_block.mp block).2
  have plainElse : PlainElse alt := by
    rintro other rfl
    exact ⟨own, others other rfl⟩
  simp only [Stmt.written_ifElse, Written.fits_append] at enough
  obtain ⟨⟨⟨-, inCondition⟩, inBody⟩, inElse⟩ := enough
  simp only [Stmt.written_ifElse, Written.words_append, List.append_assoc]
  refine .advance (by decide) fun _ _ => ?_
  refine (nested.expression cond plainCondition inCondition).bind (fun found same => ?_) fun kinds _ => ?_
  · refine (nested.block _ _ plainBody inBody).bind (fun block sameBody => ?_) fun _ _ => trivial
    refine (nested.alternative plainElse inElse).bindLast (fun other sameElse => .pure ?_) fun _ => id
    rw [Stmt.Same, Stmt.unplaced_ifElse, Stmt.unplaced_ifElse, same, sameBody, sameElse]
  · simp [Below, Written.block, Word.kind, TokenKind.tightness]

/-! ## Simple statements -/

/-- The initial value of a variable. -/
theorem initialValue {value : Option Expr}
    (plain : ∀ e ∈ value, e.Plain) (enough : (writtenInitial value).Fits depth stack) :
    Reads level.initialValue (writtenInitial value).words (fun kinds => nextKind kinds = .terminator)
      fun found => found.map Expr.unplaced = value.map Expr.unplaced := by
  cases value with
  | none => exact .acceptNo (fun kinds ends => by simp [writtenInitial, ends]) (.pure rfl)
  | some value =>
    simp only [writtenInitial, Written.fits_append] at enough
    refine .acceptYes (by decide) ?_
    have below : ∀ kinds, nextKind kinds = .terminator → Below 0 kinds :=
      fun kinds ends => by simp [Below, ends, TokenKind.tightness]
    have read := (nested.expression value (plain value rfl) enough.2).before below
    exact read.map fun found same => congrArg some same

/-- A variable. -/
theorem varDecl {pos : Position} {name : String}
    {type : Option TypeExpr} {value : Option Expr} {resolved : Option Ty} :
    ReadsStmt depth stack level.varDecl (.varDecl pos name type value resolved)
      fun kinds => nextKind kinds = .terminator := by
  intro plain enough
  obtain ⟨unresolved, plainValue⟩ := Stmt.each_varDecl.mp plain
  simp only [Stmt.written_varDecl, Written.fits_append] at enough
  simp only [Stmt.written_varDecl, Written.words_append, List.append_assoc]
  refine .advance (by decide) fun _ _ => .expectName fun token lexeme => ?_
  have ends : ∀ kinds, nextKind kinds = .terminator ∨ nextKind kinds = .equal →
      EndsType kinds ∧ nextKind kinds ≠ .colon := by
    rintro kinds (ends | ends) <;> simp [EndsType, ends]
  refine (ReadsType.annotation (nested.typeAfter enough.1.2) ends).bind (fun found same => ?_) ?_
  · refine (nested.initialValue plainValue enough.2).bindLast (fun read sameValue => .pure ?_)
      fun _ => id
    rw [Stmt.Same, Stmt.unplaced_varDecl, Stmt.unplaced_varDecl, lexeme, same, sameValue,
      show resolved = none from unresolved]
  · intro kinds ends
    cases value with
    | none => exact .inl ends
    | some value => exact .inr rfl

/-- A return statement. -/
theorem returnStmt {pos : Position} {value : Option Expr} (plain : (Stmt.ret pos value).Plain)
    (enough : (Stmt.ret pos value).written.Fits depth stack) :
    Reads level.returnStmt ((Stmt.ret pos value).written.words ++ [.mark .terminator]) Anywhere
      (Stmt.ret pos value).Same := by
  cases value with
  | none =>
    simp only [Stmt.written, Written.words_append, List.append_assoc]
    refine .advance (by decide) fun _ _ => ?_
    have none : Reads level.returnedValue [] (fun kinds => nextKind kinds = .terminator)
        (· = none) := by
      refine .peekEnd fun token kinds ends seen => ?_
      rw [seen, ends]
      exact .pure rfl
    refine none.bind (fun found eq => ?_) fun _ _ => rfl
    refine Reads.expectTerminator.bindLast (fun _ _ => .pure ?_) fun _ _ => trivial
    rw [eq]
    rfl
  | some value =>
    have plainValue := (Stmt.each_ret.mp plain).2 value rfl
    simp only [Stmt.written, Written.fits_append] at enough
    simp only [Stmt.written, Written.words_append, List.append_assoc]
    refine .advance (by decide) fun _ _ => ?_
    have read : Reads level.returnedValue value.written.words (Below 0)
        fun found => ∃ read, found = some read ∧ value.Same read := by
      refine .peekKind fun token kinds _ seen => ?_
      split
      case h_4 =>
        exact (nested.expression value plainValue enough.2).map fun read same => ⟨read, rfl, same⟩
      all_goals
        rename_i isEnd
        exact absurd (seen.symm.trans isEnd) (value.starts.nextKind_ne kinds (by decide))
    refine read.bind ?_ fun _ _ => Nat.le_refl 0
    rintro _ ⟨read, rfl, same⟩
    refine Reads.expectTerminator.bindLast (fun _ _ => .pure ?_) fun _ _ => trivial
    simp only [Stmt.Same, Stmt.unplaced, same]

/-- An expression as a statement. -/
theorem exprStmt {pos : Position} {value : Expr}
    (plain : value.Plain) (enough : value.written.inner.Fits depth stack) :
    Reads level.exprStmt (value.written.words ++ [.mark .terminator]) Anywhere
      (Stmt.expr pos value).Same := by
  refine (nested.expression value plain enough).bind (fun found same => ?_) fun _ _ => Nat.le_refl 0
  refine Reads.expectTerminator.bindLast (fun _ _ => .pure ?_) fun _ _ => trivial
  simp only [Stmt.Same, Stmt.unplaced, same]

end ReadsNested

/-- What starts like an expression is read as one. -/
theorem statement_of_exprStmt {follow : List TokenKind → Prop} {res : Stmt → Prop}
    (starts : StartsExpression words) (h : Reads level.exprStmt words follow res) :
    Reads level.statement words follow res := by
  cases words with
  | nil =>
    rcases starts with primary | ⟨op, rest, eq⟩
    · exact primary.elim
    · cases eq
  | cons first rest =>
    refine .peek fun token spelled => ?_
    rw [spelled.kind_eq]
    rcases starts with ⟨primary, isFn⟩ | ⟨op, others, eq⟩
    · generalize first.kind = kind at primary isFn
      split
      case h_2 =>
        obtain ⟨others, rfl⟩ := isFn rfl
        refine .peekSecond fun second paren => ?_
        rw [if_neg (by simp [paren.kind_eq, Word.kind])]
        exact h
      case h_10 => exact h
      all_goals exact absurd primary (by decide)
    · cases eq
      cases op <;> exact h

end Level

/-! ## Statements -/

/-- The terminator behind a statement if the rule for statements takes it. -/
def Stmt.ownTerminator : Stmt → List Word
  | .varDecl .. | .expr .. | .ret .. => [.mark .terminator]
  | .block _ | .ifElse .. | .whileLoop .. | .forRange .. | .function _ | .struct _ | .trait _ => []

/-- Whether the next token can start a statement, or close a block or a program. -/
def Fresh (kinds : List TokenKind) : Prop :=
  nextKind kinds ≠ .terminator ∧ nextKind kinds ≠ .kwElse

theorem Fresh.noElse {kinds : List TokenKind} (fresh : Fresh kinds) : NoElse kinds := by
  cases kinds with
  | nil => simp [NoElse, nextKind]
  | cons kind rest =>
    rw [NoElse, List.dropWhile_cons_of_neg (by simpa using fresh.1)]
    exact fresh.2

theorem Fresh.noElse_terminator {kinds : List TokenKind} (fresh : Fresh kinds) :
    NoElse (.terminator :: kinds) := by
  rw [NoElse, List.dropWhile_cons_of_pos (by simp)]
  exact fresh.noElse

/-- No statement starts with a token that ends statements. -/
theorem Stmt.nextKind_ne (s : Stmt) (kinds : List TokenKind) {kind : TokenKind}
    (ends : kind ∈ [TokenKind.rightBrace, .endOfInput, .terminator, .kwElse]) :
    nextKind (s.written.words.map Word.kind ++ kinds) ≠ kind := by
  have other : kind.startsPrimary = false ∧ kind ≠ .minus ∧ kind ≠ .bang := by
    simp only [List.mem_cons, List.not_mem_nil, or_false] at ends
    rcases ends with rfl | rfl | rfl | rfl <;> decide
  cases s with
  | expr pos value => exact value.starts.nextKind_ne kinds other
  | varDecl pos name type value resolved =>
    rw [written_varDecl]
    rintro rfl
    simp [Word.kind] at ends
  | ifElse pos cond body alt =>
    rw [written_ifElse]
    rintro rfl
    simp [Word.kind] at ends
  | ret pos value =>
    cases value <;>
    · rintro rfl
      simp [written, Word.kind] at ends
  | _ =>
    rintro rfl
    simp [written, writtenFunction, Written.block, Word.kind] at ends

namespace Level

variable {level : Level} {depth stack : Nat}

namespace ReadsNested

variable (nested : level.ReadsNested depth stack)

include nested

/-- A loop on a condition. -/
theorem whileStmt {pos : Position} {cond : Expr} {body : Block Stmt} :
    ReadsStmt depth stack level.whileStmt (.whileLoop pos cond body) Anywhere := by
  intro plain enough
  obtain ⟨-, plainCondition, block⟩ := Stmt.each_whileLoop.mp plain
  have plainBody := (Stmt.each_block.mp block).2
  simp only [Stmt.written, Written.fits_append] at enough
  simp only [Stmt.written, Written.words_append, List.append_assoc]
  refine .advance (by decide) fun _ _ => ?_
  refine (nested.expression cond plainCondition enough.1.2).bind (fun found same => ?_) ?_
  · refine (nested.block _ _ plainBody enough.2).bindLast (fun block sameBody => .pure ?_)
      fun _ _ => trivial
    simp only [Stmt.Same, Stmt.unplaced, same, sameBody]
  · intro kinds _
    simp [Below, Written.block, Word.kind, TokenKind.tightness]

/-- A loop over a range. -/
theorem forStmt {pos : Position} {name : String} {start stop : Expr} {body : Block Stmt} :
    ReadsStmt depth stack level.forStmt (.forRange pos name start stop body) Anywhere := by
  intro plain enough
  obtain ⟨-, plainStart, plainStop, block⟩ := Stmt.each_forRange.mp plain
  have plainBody := (Stmt.each_block.mp block).2
  simp only [Stmt.written, Written.fits_append] at enough
  obtain ⟨⟨⟨⟨-, inStart⟩, -⟩, inStop⟩, inBody⟩ := enough
  simp only [Stmt.written, Written.words_append, List.append_assoc]
  refine .advance (by decide) fun _ _ => .expectName fun token lexeme => ?_
  refine .expectMark (by decide) fun _ => ?_
  refine (nested.expression start plainStart inStart).bind (fun first sameStart => ?_)
    fun _ _ => Nat.le_refl 0
  refine .expectMark (by decide) fun _ => ?_
  refine (nested.expression stop plainStop inStop).bind (fun last sameStop => ?_) ?_
  · refine (nested.block _ _ plainBody inBody).bindLast (fun block sameBody => .pure ?_)
      fun _ _ => trivial
    simp only [Stmt.Same, Stmt.unplaced, lexeme, sameStart, sameStop, sameBody]
  · intro kinds _
    simp [Below, Written.block, Word.kind, TokenKind.tightness]

/-- Every statement is read as it was written. -/
theorem statement {s : Stmt} (plain : s.Plain) (enough : s.written.Fits depth stack) :
    Reads level.statement (s.written.words ++ s.ownTerminator) NoElse s.Same := by
  cases s with
  | block body =>
    have plainBody := (Stmt.each_block.mp plain).2
    rw [Stmt.ownTerminator, List.append_nil]
    refine .peekKind fun token kinds _ seen => ?_
    rw [show token.kind = .leftBrace from seen]
    refine ((nested.block "" _ plainBody enough).map fun block same => ?_).before fun _ _ => trivial
    simp only [Stmt.Same, Stmt.unplaced, same]
  | varDecl pos name type value resolved =>
    rw [Stmt.ownTerminator]
    have read := nested.varDecl plain enough
    rw [Stmt.written_varDecl] at read ⊢
    refine .peekKind fun token kinds _ seen => ?_
    rw [show token.kind = .kwVar from seen]
    refine read.bind (fun found same => ?_) fun _ _ => rfl
    exact Reads.expectTerminator.bindLast (fun _ _ => .pure same) fun _ _ => trivial
  | expr pos value =>
    have plainValue := (Stmt.each_expr.mp plain).2
    refine statement_of_exprStmt (value.starts.append _) ?_
    exact (nested.exprStmt plainValue enough).before fun _ _ => trivial
  | ifElse pos cond body alt =>
    rw [Stmt.ownTerminator, List.append_nil]
    have read := nested.ifStmt plain enough
    rw [Stmt.written_ifElse] at read ⊢
    refine .peekKind fun token kinds _ seen => ?_
    rw [show token.kind = .kwIf from seen]
    exact read
  | whileLoop pos cond body =>
    rw [Stmt.ownTerminator, List.append_nil]
    refine .peekKind fun token kinds _ seen => ?_
    rw [show token.kind = .kwWhile from seen]
    exact (nested.whileStmt plain enough).before fun _ _ => trivial
  | forRange pos name start stop body =>
    rw [Stmt.ownTerminator, List.append_nil]
    refine .peekKind fun token kinds _ seen => ?_
    rw [show token.kind = .kwFor from seen]
    exact (nested.forStmt plain enough).before fun _ _ => trivial
  | ret pos value =>
    have read := nested.returnStmt plain enough
    refine .peekKind fun token kinds _ seen => ?_
    rw [show token.kind = .kwReturn by cases value <;> exact seen]
    exact read.before fun _ _ => trivial
  | function decl =>
    rw [Stmt.ownTerminator, List.append_nil]
    have read := nested.functionDecl plain enough
    refine .peekKind fun token kinds _ seen => ?_
    rw [show token.kind = .kwFn from seen]
    change Reads _ (.mark .kwFn :: .name decl.name :: _) _ _
    refine .peekSecond fun second spelled => ?_
    rw [if_pos (show second.kind = .identifier from spelled.kind_eq)]
    exact (read.map fun found same => same).before fun _ _ => trivial
  | struct decl =>
    rw [Stmt.ownTerminator, List.append_nil]
    refine .peekKind fun token kinds _ seen => ?_
    rw [show token.kind = .kwStruct from seen]
    exact ((nested.structDecl plain enough).map fun found same => same).before fun _ _ => trivial
  | trait decl =>
    rw [Stmt.ownTerminator, List.append_nil]
    refine .peekKind fun token kinds _ seen => ?_
    rw [show token.kind = .kwTrait from seen]
    exact ((nested.traitDecl enough).map fun found same => same).before fun _ _ => trivial

/-- A statement with the terminator behind it. -/
theorem nextStatement {s : Stmt} (plain : s.Plain) (enough : s.written.Fits depth stack) (read : Array Stmt) :
    Reads (level.nextStatement read) (s.written.words ++ [.mark .terminator]) Fresh
      fun next => ∃ found, next = some (read.push found) ∧ s.Same found := by
  -- The terminator is taken by the statement itself or by what skips terminators behind it.
  obtain ⟨left, split, cases⟩ : ∃ left, [.mark .terminator] = s.ownTerminator ++ left ∧
      (left = [] ∨ left = [.mark .terminator]) := by
    cases s <;> simp [Stmt.ownTerminator]
  have skipped : ∀ word ∈ left, decide (word.kind = .terminator) = true := by
    rcases cases with rfl | rfl <;> simp [Word.kind]
  have whole : Reads (do
        let statement? ← Parse.recovering Parse.recoverStatement level.statement
        Parse.skipTerminators
        match statement? with
        | some stmt => return some (read.push stmt)
        | none => return some read)
      (s.written.words ++ [.mark .terminator]) Fresh
      fun next => ∃ found, next = some (read.push found) ∧ s.Same found := by
    rw [split, ← List.append_assoc]
    refine (nested.statement plain enough).recovering.bind ?_ fun kinds fresh => ?_
    · rintro _ ⟨found, rfl, same⟩
      refine (Reads.skipWhile skipped).bindLast (fun _ _ => .pure ⟨found, rfl, same⟩) ?_
      exact fun kinds fresh => decide_eq_false fresh.1
    · rcases cases with rfl | rfl
      · exact fresh.noElse
      · exact fresh.noElse_terminator
  refine .peekKind fun token kinds _ seen => ?_
  rw [List.map_append, List.append_assoc] at seen
  split
  case h_3 => exact whole
  all_goals
    rename_i isEnd
    exact absurd (seen.symm.trans isEnd) (s.nextKind_ne _ (by decide))

end ReadsNested

end Level

end FlowScript
