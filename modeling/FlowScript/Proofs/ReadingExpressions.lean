import FlowScript.Proofs.EveryNode
import FlowScript.Proofs.ReadingOperators
/-!
# Reading written expressions

A written expression is read as the expression that was written: by the rule of its own rank and by
every looser one as it is, and by the tighter ones in parentheses.  Parts that open a level are read by
`Level.ReadsNested`, which the grammar as a whole provides.

Main statement: `Level.ReadsNested.expr`.
-/

namespace FlowScript

open Parse

/-! ## Nested parts -/

theorem Note.Plain.unplaced_eq {note : Note} (plain : note.Plain) :
    note.unplaced = { position := default } := by
  obtain ⟨position, ty, widen⟩ := note
  obtain ⟨rfl, rfl⟩ := plain
  rfl

theorem Note.unplaced_position (position : Position) :
    Note.unplaced { position } = { position := default } := rfl

theorem Expr.Plain.note {e : Expr} (plain : e.Plain) : e.note.Plain := (Expr.Each.own plain).1

theorem Expr.writtenList_eq (args : List Expr) :
    Expr.writtenList args = args.map fun arg => arg.written.inner := by
  induction args with
  | nil => rfl
  | cons arg rest ih => rw [Expr.writtenList, ih, List.map_cons]

theorem Expr.unplacedList_eq (args : List Expr) :
    Expr.unplacedList args = args.map Expr.unplaced := by
  induction args with
  | nil => rfl
  | cons arg rest ih => rw [Expr.unplacedList, ih, List.map_cons]

/-- Whether a statement that was read is the one that was written. -/
abbrev Stmt.Same (s found : Stmt) : Prop := found.unplaced = s.unplaced

/-- Whether the next token, terminators aside, is no `else`. -/
def NoElse (kinds : List TokenKind) : Prop :=
  nextKind (kinds.dropWhile fun kind => kind = .terminator) ≠ .kwElse

namespace Level

/-- Whether a parse reads a statement that fits as it was written, where tokens of such kinds follow. -/
abbrev ReadsStmt (depth stack : Nat) (parse : Parse Stmt) (s : Stmt) (follow : List TokenKind → Prop) : Prop :=
  s.Plain → s.written.Fits depth stack → Reads parse s.written.words follow s.Same

/-- Whether a level reads the parts that open at most `depth` levels, and stack up to `stack`, the level or
link they are on included. -/
structure ReadsNested (level : Level) (depth stack : Nat) : Prop where
  expression : ∀ e : Expr, e.Plain → e.written.inner.Fits depth stack →
    Reads level.expression e.written.words (Below 0) e.Same
  operand : ∀ e : Expr, e.Plain → (e.written.grouped (e.rank < 7)).inner.Fits depth stack →
    Reads level.operand (e.written.grouped (e.rank < 7)).words (Below 7) e.Same
  value : ∀ e : Expr, e.Plain → e.written.linked.Fits depth stack →
    Reads level.value e.written.words (Below 0) e.Same
  conditional : ∀ {pos : Position} {cond : Expr} {body : Block Stmt} {alt : Option Stmt},
    (Stmt.ifElse pos cond body alt).Plain → (Stmt.ifElse pos cond body alt).written.linked.Fits depth stack →
    Reads level.conditional (Stmt.ifElse pos cond body alt).written.words NoElse
      (Stmt.ifElse pos cond body alt).Same
  block : ∀ (context : String) (body : List Stmt), (∀ node ∈ Stmt.nodesOfList body, node.Plain) →
    (Written.block (Stmt.writtenList body)).Fits depth stack →
    Reads (level.block context) (Written.block (Stmt.writtenList body)).words Anywhere
      fun found => Stmt.unplacedList found.statements = Stmt.unplacedList body
  type : ∀ type : TypeExpr, type.written.inner.Fits depth stack → level.ReadsType type

variable {level : Level} {depth stack : Nat}
variable {note : Note} {args : List Expr}

/-! ## Primary expressions -/

/-- Literals are read back. -/
theorem readsLiteral (plain : note.Plain) (value : Literal) :
    Reads level.primary [.literal value] Anywhere (Expr.literal note value).Same := by
  have taken (token : Token) (spelled : token.Spells (.literal value)) :
      Reads (do
          let _ ← Parse.advance
          return Expr.literal { position := token.position } token.value)
        [.literal value] Anywhere (Expr.literal note value).Same := by
    refine .advance ?_ fun _ _ => .pure ?_
    · cases value with
      | bool flag => cases flag <;> simp [Word.kind, Literal.kind]
      | _ => simp [Word.kind, Literal.kind]
    · simp only [Expr.Same, Expr.unplaced, spelled.2, plain.unplaced_eq]
      rfl
  refine .peek fun token spelled => ?_
  have kind := spelled.kind_eq
  cases value with
  | bool flag => cases flag <;> simpa only [kind, Word.kind, Literal.kind] using taken token spelled
  | _ => simpa only [kind, Word.kind, Literal.kind] using taken token spelled

theorem readsName (plain : note.Plain) (ident : String) :
    Reads level.primary [.name ident] Anywhere (Expr.name note ident).Same := by
  refine .peek fun token spelled => ?_
  simp only [spelled.kind_eq, Word.kind]
  refine .advance (by simp [Word.kind]) fun _ _ => .pure ?_
  simp only [Expr.Same, Expr.unplaced, spelled.2, plain.unplaced_eq]
  rfl

theorem readsSelf (plain : note.Plain) :
    Reads level.primary [.mark .kwSelf] Anywhere (Expr.self note).Same := by
  refine .peek fun token spelled => ?_
  simp only [spelled.kind_eq, Word.kind]
  refine .advance (by decide) fun _ _ => .pure ?_
  simp only [Expr.Same, Expr.unplaced, plain.unplaced_eq]
  rfl

namespace ReadsNested

variable (nested : level.ReadsNested depth stack)

include nested

/-- An expression in parentheses. -/
theorem parenthesized {e : Expr} (plain : e.Plain)
    (enough : (e.written.between .leftParen .rightParen).Fits depth stack) :
    Reads level.primary (e.written.between .leftParen .rightParen).words Anywhere e.Same := by
  rw [Written.fits_between] at enough
  rw [Written.words_between]
  refine .peek fun token spelled => ?_
  simp only [spelled.kind_eq, Word.kind]
  refine .advance (by decide) fun _ _ => ?_
  refine (nested.expression e plain enough).bind (fun found same => ?_) fun kinds _ => ?_
  · exact .expectMark (by decide) fun _ => .pure same
  · simp [Below, Word.kind, TokenKind.tightness]

/-- A parameter list. -/
theorem params {params : List Param} (enough : (writtenParams params).Fits depth stack) :
    Reads level.params (writtenParams params).words Anywhere
      fun found => found.map Param.unplaced = params.map Param.unplaced := by
  simp only [writtenParams, Written.fits_append, Written.fits_commas,
    List.mem_map, forall_exists_index, and_imp, forall_apply_eq_imp_iff₂] at enough
  exact ReadsType.params fun param mem => nested.type _ (enough.1.2 param mem).2

/-- A type after a mark, if there is one. -/
theorem typeAfter {mark : TokenKind} {type : Option TypeExpr}
    (enough : (writtenType mark type).Fits depth stack) : ∀ some ∈ type, level.ReadsType some := by
  rintro some rfl
  simp only [writtenType, Written.fits_append] at enough
  exact nested.type some enough.2

/-- An anonymous function. -/
theorem closure {note : Note} {params : List Param}
    {res : Option TypeExpr} {body : Block Stmt} {captures : List String}
    (plain : (Expr.closure note params res body captures).Plain)
    (enough : (Expr.closure note params res body captures).written.Fits depth stack) :
    Reads level.primary (Expr.closure note params res body captures).written.words Anywhere
      (Expr.closure note params res body captures).Same := by
  obtain ⟨position, body⟩ := body
  have noted : note.Plain := plain.note
  obtain ⟨⟨-, noCaptures⟩, -, plainBody⟩ := Expr.each_closure.mp plain
  simp only [Expr.written, Written.fits_append] at enough
  simp only [Expr.written, Written.words_append, List.append_assoc]
  refine .peek fun token spelled => ?_
  simp only [spelled.kind_eq, Word.kind]
  refine .advance (by decide) fun _ _ => ?_
  refine (nested.params enough.1.1.2).bind (fun found same => ?_) fun _ _ => trivial
  refine (ReadsType.resultType (nested.typeAfter enough.1.2)).bind (fun final sameResult => ?_) ?_
  · refine (nested.block _ body plainBody enough.2).bindLast (fun block sameBody => .pure ?_)
      fun _ _ => trivial
    simp only [Expr.Same, Expr.unplaced, same, sameResult, sameBody, noted.unplaced_eq, noCaptures]
    rfl
  · intro kinds _
    simp [EndsType, Written.block, Word.kind]

end ReadsNested

/-! ## One round of a loop -/

/-- An operator with its right operand. -/
theorem readsOperator {rank : Nat} {kind : TokenKind} {combine : Combine} {words : List Word}
    {right : Expr} (known : operator? rank kind = some combine)
    (operand : Reads (level.rule (rank + 1)) words (Below (rank + 1)) right.Same) (left : Expr) :
    Reads (level.step rank left) (.mark kind :: words) (Below (rank + 1)) fun next =>
      ∃ value, next = some value ∧
        ∃ position found, value = combine { position } left found ∧ right.Same found := by
  have notEnd : kind ≠ .endOfInput := by
    rintro rfl
    rw [operator?_eq_none (Nat.zero_le rank)] at known
    cases known
  have chain : Reads (chainStep (operator? rank) (level.rule (rank + 1)) left) (.mark kind :: words)
      (Below (rank + 1)) fun next => ∃ value, next = some value ∧
        ∃ position found, value = combine { position } left found ∧ right.Same found := by
    refine .peek fun token spelled => ?_
    rw [spelled.kind_eq, Word.kind, known]
    refine .advance notEnd fun _ _ => ?_
    exact operand.bindLast (fun found same => .pure ⟨_, rfl, _, found, rfl, same⟩) fun _ => id
  unfold step
  split
  · refine .peek fun token spelled => ?_
    rw [if_neg]
    · exact chain
    · rw [spelled.kind_eq]
      rintro rfl
      cases known
  · cases known
  · exact chain

variable (nested : level.ReadsNested depth stack)

include nested

/-- The arguments of a call. -/
theorem ReadsNested.arguments (plain : ∀ node ∈ Expr.nodesOfList args, node.Plain)
    (enough : (Written.commas (Expr.writtenList args)).Fits depth stack) :
    Reads level.arguments ((Written.commas (Expr.writtenList args)).words ++ [.mark .rightParen])
      Anywhere fun found => Expr.unplacedList found = Expr.unplacedList args := by
  rw [Expr.writtenList_eq] at enough ⊢
  rw [Written.fits_commas, List.forall_mem_map] at enough
  rw [Expr.nodesOfList_eq] at plain
  have each : ∀ arg ∈ args, Reads level.expression arg.written.inner.words (Below 0) arg.Same :=
    fun arg mem => nested.expression arg
      (fun node inside => plain node (List.mem_flatMap.mpr ⟨arg, mem, inside⟩)) (enough arg mem)
  refine (Reads.listed each ?_ ?_ ?_).bind (fun found same => ?_) fun _ _ => rfl
  · exact fun arg _ kinds => arg.starts.nextKind_ne kinds (by decide)
  · exact fun _ => by simp [Below, TokenKind.tightness]
  · exact fun _ => by simp [Below, TokenKind.tightness]
  · refine .expectMark (by decide) fun _ => .pure ?_
    rw [Expr.unplacedList_eq, Expr.unplacedList_eq]
    exact map_unplaced_eq same

end Level

/-! ## Whole expressions -/

/-- Whether the loop of a rank may go on behind an expression with tokens of these kinds. A member in
front of a parenthesis would be read as a method. -/
def Expr.Ends (e : Expr) (rank : Nat) (kinds : List TokenKind) : Prop :=
  Below (rank + 1) kinds ∧ (e.isField = true → nextKind kinds ≠ .leftParen)

theorem Expr.Ends.of_below {e : Expr} {rank : Nat} {kinds : List TokenKind} (below : Below rank kinds)
    (low : rank ≤ 8) : e.Ends rank kinds := by
  refine ⟨below.mono (by omega), fun _ paren => ?_⟩
  rw [Below, paren, TokenKind.tightness] at below
  omega

namespace Level

variable {level : Level} {depth stack : Nat}

/-- Whether the rules of a level read an expression wherever its rank, or the parentheses around it,
allow it. -/
structure ReadsExpr (level : Level) (depth stack : Nat) (e : Expr) : Prop where
  reads : ∀ rank ≤ 9, (e.written.grouped (e.rank < rank)).Fits depth stack →
    Reads (level.rule rank) (e.written.grouped (e.rank < rank)).words (Below rank) e.Same
  continues : ∀ rank ∈ loopRanks, (e.written.grouped (e.rank < rank)).Fits depth stack →
    level.Continues rank (e.written.grouped (e.rank < rank)).words (e.Ends rank) e

namespace ReadsExpr

variable {e : Expr}

variable (nested : level.ReadsNested depth stack)
variable {left right : Expr} {note : Note} {value : Expr}

include nested

/-- What the rule of its own rank makes of an expression is enough: looser rules read it as well, and
tighter ones read it in parentheses. -/
theorem of_own (plain : e.Plain) (own : e.written.Fits depth stack →
      Reads (level.rule e.rank) e.written.words (Below e.rank) e.Same)
    (loops : e.rank ∈ loopRanks → e.written.Fits depth stack →
      level.Continues e.rank e.written.words (e.Ends e.rank) e) :
    level.ReadsExpr depth stack e := by
  have reads : ∀ rank ≤ 9, (e.written.grouped (e.rank < rank)).Fits depth stack →
      Reads (level.rule rank) (e.written.grouped (e.rank < rank)).words (Below rank) e.Same := by
    intro rank le
    by_cases loose : e.rank < rank
    · rw [decide_eq_true loose, Written.grouped, if_pos rfl]
      intro enough
      have inParens : Reads (level.rule 9) _ (Below 9) e.Same :=
        (nested.parenthesized plain enough).before fun _ _ => trivial
      exact reads_of_le le inParens fun _ => .parenthesized e.written
    · rw [decide_eq_false loose, Written.grouped, if_neg (by simp)]
      intro enough
      exact reads_of_le (by omega) (own enough) e.startsPrimary
  refine ⟨reads, fun rank loop enough => ?_⟩
  by_cases same : e.rank = rank
  · subst same
    rw [decide_eq_false (Nat.lt_irrefl _), Written.grouped, if_neg (by simp)] at enough ⊢
    exact loops loop enough
  · -- Of another rank, the expression is in parentheses for this rank just if it is for the next one.
    have next : decide (e.rank < rank) = decide (e.rank < rank + 1) := by
      rw [decide_eq_decide]
      omega
    have le : rank + 1 ≤ 9 := by
      simp only [loopRanks, List.mem_cons, List.not_mem_nil, or_false] at loop
      omega
    rw [next] at enough ⊢
    exact (Continues.start loop (reads (rank + 1) le enough)).narrow fun kinds ends => ends.1

/-- Expressions that the rule of their rank reads by its loop. -/
theorem of_continues (plain : e.Plain) (loop : e.rank ∈ loopRanks)
    (h : e.written.Fits depth stack → level.Continues e.rank e.written.words (e.Ends e.rank) e) :
    level.ReadsExpr depth stack e := by
  have low : e.rank ≤ 8 := by
    simp only [loopRanks, List.mem_cons, List.not_mem_nil, or_false] at loop
    omega
  refine of_own nested plain (fun enough => ?_) fun _ => h
  exact (h enough).reads fun kinds below => .of_below below low

/-- Expressions that need no operator. -/
theorem of_primary (plain : e.Plain) (rank : e.rank = 9)
    (h : e.written.Fits depth stack → Reads level.primary e.written.words Anywhere e.Same) :
    level.ReadsExpr depth stack e := by
  refine of_own nested plain (fun enough => ?_) fun loop => ?_
  · rw [rank]
    exact (h enough).before fun _ _ => trivial
  · rw [rank] at loop
    exact absurd loop (by decide)

/-- An expression that is another one with something behind it, which one round of the loop reads. -/
theorem extended (plain : e.Plain) (loop : e.rank ∈ loopRanks)
    {part : Expr} {base : Written} {ends : List TokenKind → Prop} (added : Written)
    (written : e.written = base ++ added)
    (reads : base.Fits depth stack → level.Continues e.rank base.words ends part)
    (round : added.Fits depth stack → ∀ found, part.Same found →
      Reads (level.step e.rank found) added.words (e.Ends e.rank)
        fun next => ∃ value, next = some value ∧ e.Same value)
    (taking : added.words ≠ []) (meets : ∀ kinds, ends (added.words.map Word.kind ++ kinds)) :
    level.ReadsExpr depth stack e := by
  refine of_continues nested plain loop fun enough => ?_
  rw [written] at enough ⊢
  rw [Written.fits_append] at enough
  exact (reads enough.1).step (round enough.2) taking fun kinds _ => meets kinds

/-- An expression with an operator between two operands. -/
theorem operator (plain : e.Plain) (loop : e.rank ∈ loopRanks) {kind : TokenKind} {combine : Combine}
    (known : operator? e.rank kind = some combine) (tight : kind.tightness = e.rank + 1)
    (notParen : kind ≠ .leftParen) (written : e.written = left.written.grouped (left.rank < e.rank) ++
      (.mark kind ++ right.written.grouped (right.rank < e.rank + 1)))
    (combined : ∀ position found other, left.Same found → right.Same other →
      e.Same (combine { position } found other)) (readsLeft : level.ReadsExpr depth stack left)
    (readsRight : level.ReadsExpr depth stack right) : level.ReadsExpr depth stack e := by
  have low : e.rank + 1 ≤ 9 := by
    simp only [loopRanks, List.mem_cons, List.not_mem_nil, or_false] at loop
    omega
  refine extended nested plain loop _ written (readsLeft.continues e.rank loop) ?_ (by simp) ?_
  · intro enough found same
    rw [Written.fits_append] at enough
    have operand := readsRight.reads (e.rank + 1) low enough.2
    refine ((readsOperator known operand found).weaken ?_).before fun kinds ends => ends.1
    rintro next ⟨_, rfl, position, other, rfl, sameOther⟩
    exact ⟨_, rfl, combined position found other same sameOther⟩
  · exact fun kinds => ⟨Nat.le_of_eq tight, fun _ => notParen⟩

theorem binary {op : BinaryOp} (plain : (Expr.binary note op left right).Plain)
    (readsLeft : level.ReadsExpr depth stack left) (readsRight : level.ReadsExpr depth stack right) :
    level.ReadsExpr depth stack (.binary note op left right) := by
  refine operator nested plain ?_ (operator?_binary op) op.tightness_kind ?_ ?_ ?_ readsLeft readsRight
  · cases op <;> simp [Expr.rank, loopRanks, BinaryOp.rank]
  · cases op <;> decide
  · rw [Expr.written, Written.append_assoc]
    rfl
  · intro position found other same sameOther
    have noted : note.Plain := plain.note
    simp only [Expr.Same, Expr.unplaced, same, sameOther, noted.unplaced_eq, Note.unplaced_position]

theorem logical {op : LogicalOp} (plain : (Expr.logical note op left right).Plain)
    (readsLeft : level.ReadsExpr depth stack left) (readsRight : level.ReadsExpr depth stack right) :
    level.ReadsExpr depth stack (.logical note op left right) := by
  refine operator nested plain ?_ (operator?_logical op) op.tightness_kind ?_ ?_ ?_ readsLeft readsRight
  · cases op <;> simp [Expr.rank, loopRanks, LogicalOp.rank]
  · cases op <;> decide
  · rw [Expr.written, Written.append_assoc]
    rfl
  · intro position found other same sameOther
    have noted : note.Plain := plain.note
    simp only [Expr.Same, Expr.unplaced, same, sameOther, noted.unplaced_eq, Note.unplaced_position]

/-- Type tests are read back. -/
theorem typeTest {type : TypeExpr} {target : Option Ty} (plain : (Expr.is note value type target).Plain)
    (reads : level.ReadsExpr depth stack value) : level.ReadsExpr depth stack (.is note value type target) := by
  have loop : 4 ∈ loopRanks := by decide
  refine extended nested plain loop (.mark .kwIs ++ type.written.inner) ?_ (reads.continues 4 loop)
    ?_ ?_ ?_
  · rw [Expr.written, Written.append_assoc]
  · intro enough found same
    simp only [Written.fits_append] at enough
    have noted : note.Plain := plain.note
    have noTarget : target = none := (Expr.each_is.mp plain).1.2
    refine .peek fun token spelled => ?_
    rw [if_pos (show token.kind = .kwIs from spelled.kind_eq)]
    refine .advance (by decide) fun _ _ => ?_
    refine (nested.type type enough.2).bindLast (fun other sameType => .pure ⟨_, rfl, ?_⟩)
      fun kinds ends => ((show Below 5 kinds from ends.1).mono (by decide)).endsType
    simp only [Expr.Same, Expr.unplaced, same, sameType, noTarget, noted.unplaced_eq,
      Note.unplaced_position]
  · simp
  · exact fun kinds => ⟨Nat.le_refl 5, fun _ => by simp [Word.kind]⟩

theorem unwrap (plain : (Expr.unwrap note value).Plain) (reads : level.ReadsExpr depth stack value) :
    level.ReadsExpr depth stack (.unwrap note value) := by
  have loop : 8 ∈ loopRanks := by decide
  refine extended nested plain loop (.mark .bang) ?_ (reads.continues 8 loop) ?_ (by simp) ?_
  · rw [Expr.written]
  · intro _ found same
    have noted : note.Plain := plain.note
    refine .peek fun token spelled => ?_
    simp only [spelled.kind_eq, Word.kind]
    refine .advance (by decide) fun _ _ => .pure ⟨_, rfl, ?_⟩
    simp only [Expr.Same, Expr.unplaced, same, noted.unplaced_eq, Note.unplaced_position]
  · exact fun kinds => ⟨Nat.le_refl 9, fun _ => by simp [Word.kind]⟩

/-- Fields are read back. -/
theorem field {object : Expr} {member : String} (plain : (Expr.field note object member).Plain)
    (reads : level.ReadsExpr depth stack object) : level.ReadsExpr depth stack (.field note object member) := by
  have loop : 8 ∈ loopRanks := by decide
  refine extended nested plain loop (.mark .dot ++ .word (.name member)) ?_ (reads.continues 8 loop)
    ?_ ?_ ?_
  · rw [Expr.written, Written.append_assoc]
  · intro _ found same
    have noted : note.Plain := plain.note
    refine .peek fun token spelled => ?_
    simp only [spelled.kind_eq, Word.kind]
    refine .advance (by decide) fun _ _ => .expectName fun name lexeme => ?_
    refine .acceptNo (fun kinds ends => ends.2 rfl) (.pure ⟨_, rfl, ?_⟩)
    simp only [Expr.Same, Expr.unplaced, lexeme, same, noted.unplaced_eq, Note.unplaced_position]
  · simp
  · exact fun kinds => ⟨Nat.le_refl 9, fun _ => by simp [Word.kind]⟩

/-- What is called, which is in parentheses if it is a member. -/
theorem callee {function : Expr} (plain : function.Plain) (reads : level.ReadsExpr depth stack function)
    (enough : (function.written.grouped (function.rank < 8 || function.isField)).Fits depth stack) :
    level.Continues 8 (function.written.grouped (function.rank < 8 || function.isField)).words
      (Below 9) function := by
  have loop : 8 ∈ loopRanks := by decide
  cases isField : function.isField with
  | true =>
    rw [isField, Bool.or_true, Written.grouped, if_pos rfl] at enough
    rw [Bool.or_true, Written.grouped, if_pos rfl]
    refine Continues.start loop ((nested.parenthesized plain enough).before fun _ _ => trivial)
  | false =>
    rw [isField, Bool.or_false] at enough
    rw [Bool.or_false]
    exact (reads.continues 8 loop enough).narrow fun kinds below => ⟨below, by simp [isField]⟩

/-- Calls are read back. -/
theorem call {function : Expr} {args : List Expr} (plain : (Expr.call note function args).Plain)
    (plainFunction : function.Plain) (reads : level.ReadsExpr depth stack function) :
    level.ReadsExpr depth stack (.call note function args) := by
  have loop : 8 ∈ loopRanks := by decide
  refine extended nested plain loop
    (.mark .leftParen ++ (.commas (Expr.writtenList args) ++ .mark .rightParen)) ?_
    (callee nested plainFunction reads) ?_ ?_ ?_
  · rw [Expr.written, Written.append_assoc, Written.append_assoc]
  · intro enough found same
    simp only [Written.fits_append] at enough
    have plainArgs := Expr.each_list.mpr (Expr.each_call.mp plain).2.2
    have noted : note.Plain := plain.note
    refine .peek fun token spelled => ?_
    simp only [spelled.kind_eq, Word.kind]
    refine .advance (by decide) fun _ _ => ?_
    refine ((nested.arguments plainArgs enough.2.1).before fun _ _ => trivial).map fun others sameArgs => ?_
    refine ⟨_, rfl, ?_⟩
    simp only [Expr.Same, Expr.unplaced, same, sameArgs, noted.unplaced_eq, Note.unplaced_position]
  · simp
  · exact fun kinds => Nat.le_refl 9

/-- Method calls are read back. -/
theorem methodCall {recv : Expr} {method : String} {args : List Expr}
    (plain : (Expr.methodCall note recv method args).Plain) (reads : level.ReadsExpr depth stack recv) :
    level.ReadsExpr depth stack (.methodCall note recv method args) := by
  have loop : 8 ∈ loopRanks := by decide
  refine extended nested plain loop
    (.mark .dot ++ (.word (.name method) ++ (.mark .leftParen ++
      (.commas (Expr.writtenList args) ++ .mark .rightParen)))) ?_ (reads.continues 8 loop) ?_ ?_ ?_
  · simp only [Expr.written, Written.append_assoc]
  · intro enough found same
    simp only [Written.fits_append] at enough
    have plainArgs := Expr.each_list.mpr (Expr.each_methodCall.mp plain).2.2
    have noted : note.Plain := plain.note
    refine .peek fun token spelled => ?_
    simp only [spelled.kind_eq, Word.kind]
    refine .advance (by decide) fun _ _ => .expectName fun name lexeme => .acceptYes (by decide) ?_
    rw [if_pos rfl]
    refine ((nested.arguments plainArgs enough.2.2.2.1).before fun _ _ => trivial).map fun others sameArgs => ?_
    refine ⟨_, rfl, ?_⟩
    simp only [Expr.Same, Expr.unplaced, lexeme, same, sameArgs, noted.unplaced_eq, Note.unplaced_position]
  · simp
  · exact fun kinds => ⟨Nat.le_refl 9, fun _ => by simp [Word.kind]⟩

theorem unary {op : UnaryOp} {operand : Expr} (plain : (Expr.unary note op operand).Plain)
    (plainOperand : operand.Plain) : level.ReadsExpr depth stack (.unary note op operand) := by
  have noted : note.Plain := plain.note
  refine of_own nested plain (fun enough => ?_) fun loop => ?_
  · simp only [Expr.written, Written.fits_append] at enough
    have reads := nested.operand operand plainOperand enough.2
    refine .peek fun token spelled => ?_
    cases op <;>
    · simp only [spelled.kind_eq, Word.kind, UnaryOp.kind]
      refine .advance (by decide) fun _ _ => reads.map fun found same => ?_
      simp only [Expr.Same, Expr.unplaced, same, noted.unplaced_eq, Note.unplaced_position]
  · exact absurd loop (by simp [Expr.rank, loopRanks])

/-- Assignments are read back, however long their chain. -/
theorem assign {target : Note} {ident : String} (plain : (Expr.assign note target ident value).Plain)
    (plainValue : value.Plain) : level.ReadsExpr depth stack (.assign note target ident value) := by
  have noted : note.Plain := plain.note
  have plainTarget : target.Plain := (Expr.each_assign.mp plain).2.1.1
  refine of_own nested plain (fun enough => ?_) fun loop => absurd loop (by simp [Expr.rank, loopRanks])
  simp only [Expr.written, Written.fits_append] at enough
  simp only [Expr.written, Written.words_append, List.append_assoc]
  have primary : Reads (level.rule 9) [.name ident] (Below 9) (Expr.name target ident).Same :=
    (readsName plainTarget ident).before fun _ _ => trivial
  have name : Reads (level.rule 1) [.name ident] (Below 1) (Expr.name target ident).Same :=
    reads_of_le (by decide) primary fun _ => ⟨rfl, by rintro ⟨⟩⟩
  refine readsAssignment name (nested.value value plainValue enough.2) fun found last token same sameLast => ?_
  cases found <;> simp only [Expr.Same, Expr.unplaced, reduceCtorEq, Expr.name.injEq] at same
  refine .pure ?_
  simp only [Expr.Same, Expr.unplaced, same, sameLast, noted.unplaced_eq, Note.unplaced_position]

/-- Assignments to fields are read back. -/
theorem assignField {target : Note} {object : Expr} {member : String}
    (plain : (Expr.assignField note target object member value).Plain)
    (readsObject : level.ReadsExpr depth stack object) (plainValue : value.Plain) :
    level.ReadsExpr depth stack (.assignField note target object member value) := by
  have noted : note.Plain := plain.note
  obtain ⟨-, place, plainObject, -⟩ := Expr.each_assignField.mp plain
  have plainField : (Expr.field target object member).Plain := Expr.each_field.mpr ⟨place, plainObject⟩
  refine of_own nested plain (fun enough => ?_) fun loop => absurd loop (by simp [Expr.rank, loopRanks])
  have written : (Expr.assignField note target object member value).written =
      (Expr.field target object member).written ++ (.mark .equal ++ value.written.linked) := by
    simp only [Expr.written, Written.append_assoc]
  rw [written] at enough ⊢
  simp only [Written.fits_append] at enough
  have readsTarget := (field nested plainField readsObject).reads 1 (by decide) enough.1
  refine readsAssignment readsTarget (nested.value value plainValue enough.2.2)
    fun found last token same sameLast => ?_
  cases found <;> simp only [Expr.Same, Expr.unplaced, reduceCtorEq, Expr.field.injEq] at same
  refine .pure ?_
  simp only [Expr.Same, Expr.unplaced, same, sameLast, noted.unplaced_eq, Note.unplaced_position]

end ReadsExpr

variable (nested : level.ReadsNested depth stack)

include nested

/-- Every expression is read wherever its rank, or the parentheses around it, allow it. -/
theorem ReadsNested.expr : ∀ e : Expr, e.Plain → level.ReadsExpr depth stack e
  | .literal _ value, plain => .of_primary nested plain rfl fun _ => readsLiteral plain.note value
  | .name _ ident, plain => .of_primary nested plain rfl fun _ => readsName plain.note ident
  | .self _, plain => .of_primary nested plain rfl fun _ => readsSelf plain.note
  | .binary _ _ left right, plain =>
    have ⟨_, first, second⟩ := Expr.each_binary.mp plain
    .binary nested plain (ReadsNested.expr left first) (ReadsNested.expr right second)
  | .logical _ _ left right, plain =>
    have ⟨_, first, second⟩ := Expr.each_logical.mp plain
    .logical nested plain (ReadsNested.expr left first) (ReadsNested.expr right second)
  | .unary .., plain => .unary nested plain (Expr.each_unary.mp plain).2
  | .is _ value _ _, plain => .typeTest nested plain (ReadsNested.expr value (Expr.each_is.mp plain).2)
  | .unwrap _ value, plain => .unwrap nested plain (ReadsNested.expr value (Expr.each_unwrap.mp plain).2)
  | .assign .., plain => .assign nested plain (Expr.each_assign.mp plain).2.2
  | .assignField _ _ object _ _, plain =>
    have ⟨_, _, first, second⟩ := Expr.each_assignField.mp plain
    .assignField nested plain (ReadsNested.expr object first) second
  | .call _ function _, plain =>
    have callee := (Expr.each_call.mp plain).2.1
    .call nested plain callee (ReadsNested.expr function callee)
  | .field _ object _, plain => .field nested plain (ReadsNested.expr object (Expr.each_field.mp plain).2)
  | .methodCall _ recv _ _, plain =>
    .methodCall nested plain (ReadsNested.expr recv (Expr.each_methodCall.mp plain).2.1)
  | .closure .., plain => .of_primary nested plain rfl (nested.closure plain)

/-- Every expression is read by the loosest rule. -/
theorem ReadsNested.assignment {e : Expr} (plain : e.Plain)
    (enough : e.written.Fits depth stack) : Reads level.assignment e.written.words (Below 0) e.Same :=
  (nested.expr e plain).reads 0 (by decide) (by simpa [Written.grouped] using enough)

/-- Every operand of a unary operator is read. -/
theorem ReadsNested.unary {e : Expr} (plain : e.Plain)
    (enough : (e.written.grouped (e.rank < 7)).Fits depth stack) :
    Reads level.unary (e.written.grouped (e.rank < 7)).words (Below 7) e.Same :=
  (nested.expr e plain).reads 7 (by decide) enough

end Level

end FlowScript
