import FlowScript.Proofs.ComparedParsing
import FlowScript.Proofs.EveryNode
/-!
# The grammar on two inputs

Every rule of the grammar keeps to its input, however malformed it is, and what opens a level takes a token if
it is read at all.  The tree that it builds has nothing noted in it, and the alternatives of its conditionals
are blocks and conditionals.  On two inputs with tokens in common every rule does the same, as long as both
sides are at these.

`Level.Follows` says all this of the parts one level further in, and there is a step for each rule of the
grammar.  Expressions, types and blocks leave the cursors aligned.  A statement may end where the left input
breaks off, and then the right side may take the terminator that stands there: `Level.Follows.statement`.

Main statements: `Level.proceeds`, by which levels keep to any input, and `Level.compared`, by which levels with
the same limit do the same, and levels with different limits do the same unless nesting goes too deep for the
tighter one.
-/

namespace FlowScript

open Parse (Anything Perhaps Always Found All Onward found_some all_push)

open Comparison (Tracks TracksAt)

open Comparison.Tracks

/-! ## Plain trees -/

/-- A note of a position alone. -/
theorem Note.plain_of_position (position : Position) : Note.Plain { position } := ⟨rfl, rfl⟩

namespace Level

/-- Whether operators stand neither at the end of an input nor where a statement ends, and combine plain
operands to plain expressions. -/
structure Operators (operator? : TokenKind → Option Combine) : Prop where
  noEnd : operator? .endOfInput = none
  noMark : operator? .terminator = none
  plain : ∀ kind combine, operator? kind = some combine → ∀ {note left right}, Note.Plain note →
    Expr.Plain left → Expr.Plain right → (combine note left right).Plain

theorem plain_binary {note : Note} {op : BinaryOp} {left right : Expr} (own : note.Plain)
    (first : left.Plain) (second : right.Plain) : (Expr.binary note op left right).Plain :=
  Expr.each_binary.mpr ⟨⟨own, trivial⟩, first, second⟩

theorem plain_logical {note : Note} {op : LogicalOp} {left right : Expr} (own : note.Plain)
    (first : left.Plain) (second : right.Plain) : (Expr.logical note op left right).Plain :=
  Expr.each_logical.mpr ⟨⟨own, trivial⟩, first, second⟩

theorem operators_product : Operators productOperator? := by
  refine ⟨rfl, rfl, fun kind combine found => ?_⟩
  unfold productOperator? at found
  split at found <;> cases found <;> exact plain_binary

theorem operators_sum : Operators sumOperator? := by
  refine ⟨rfl, rfl, fun kind combine found => ?_⟩
  unfold sumOperator? at found
  split at found <;> cases found <;> exact plain_binary

theorem operators_ordering : Operators orderingOperator? := by
  refine ⟨rfl, rfl, fun kind combine found => ?_⟩
  unfold orderingOperator? at found
  split at found <;> cases found <;> exact plain_binary

theorem operators_equality : Operators equalityOperator? := by
  refine ⟨rfl, rfl, fun kind combine found => ?_⟩
  unfold equalityOperator? at found
  split at found <;> cases found <;> exact plain_binary

theorem operators_and : Operators andOperator? := by
  refine ⟨rfl, rfl, fun kind combine found => ?_⟩
  unfold andOperator? at found
  split at found <;> cases found
  exact plain_logical

theorem operators_or : Operators orOperator? := by
  refine ⟨rfl, rfl, fun kind combine found => ?_⟩
  unfold orOperator? at found
  split at found <;> cases found
  exact plain_logical

/-- A block of plain statements. -/
abbrev PlainBlock (body : Block Stmt) : Prop := (Stmt.block body).Plain

/-- A plain function. -/
abbrev PlainFunction (decl : FunctionDecl Stmt) : Prop := (Stmt.function decl).Plain

/-- The conditional after an `else`. -/
abbrev PlainConditional (stmt : Stmt) : Prop := stmt.Plain ∧ stmt.isAlternative = true

/-- What stands after the block of a conditional. -/
abbrev PlainAlternative : Option Stmt → Prop := Found PlainConditional

/-- The members of a struct. -/
abbrev PlainMembers (members : Members) : Prop := All PlainFunction members.methods.toList

/-- The statements read so far. -/
abbrev PlainStatements (stmts : Array Stmt) : Prop := All Stmt.Plain stmts.toList

theorem plain_ifElse {position : Position} {cond : Expr} {body : Block Stmt}
    {alternative : Option Stmt} (condition : cond.Plain) (plain : PlainBlock body)
    (others : PlainAlternative alternative) :
    PlainConditional (.ifElse position cond body alternative) := by
  refine ⟨Stmt.each_ifElse.mpr ⟨?_, condition, plain, fun other same => (others other same).1⟩, rfl⟩
  cases alternative with
  | none => trivial
  | some other => exact (others other rfl).2

/-! ## Rules -/

/-- Whether the parts one level further in keep to the left input, give plain trees, take a token if they are
read, and do the same on both inputs. -/
structure Follows (sides : Comparison) (left right : Level) : Prop where
  expression : sides.Builds Expr.Plain left.expression right.expression
  operand : sides.Builds Expr.Plain left.operand right.operand
  value : sides.Builds Expr.Plain left.value right.value
  conditional : sides.BuildsAt .kwIf PlainConditional left.conditional right.conditional
  block : ∀ context, sides.Builds PlainBlock (left.block context) (right.block context)
  type : sides.Builds Anything left.type right.type

namespace Follows

variable {sides : Comparison} {left right : Level}

/-! ### Types -/

variable (h : Follows sides left right)

include h

theorem resultType : sides.Tracks .exact (Perhaps Anything) left.resultType right.resultType :=
  (accept (by decide) (by decide)).branch (h.type.bind fun _ _ => pure trivial) (pure trivial)

theorem annotation : sides.Tracks .exact (Perhaps Anything) left.annotation right.annotation :=
  (accept (by decide) (by decide)).branch (h.type.bind fun _ _ => pure trivial) (pure trivial)

/-- A type without a question mark is read alike. -/
theorem plainType : sides.Builds Anything left.plainType right.plainType := by
  refine peek (fun token => ?_) fun off last mark ends stands => ?_
  · split
    · exact .advanceThen (by simp [*]) fun _ => pure trivial
    · exact .advanceThen (by simp [*]) fun _ => pure trivial
    · refine .advanceThen (by simp [*]) fun _ => ?_
      refine (expect (by decide)).bind fun _ _ => ?_
      refine (listed h.type).bind fun params _ => ?_
      refine (expect (by decide)).bind fun _ _ => ?_
      exact h.resultType.bind fun _ _ => pure trivial
    · refine .advanceThen (by simp [*]) fun _ => ?_
      refine h.type.bind fun inner _ => ?_
      exact (expect (by decide)).bind fun _ _ => pure trivial
    · exact fail _ _ rfl _
  · rw [ends]
    exact .failed off

omit h in
theorem nextQuestion (written : TypeExpr) :
    sides.Tracks .exact (Onward Anything written) (nextQuestion written) (nextQuestion written) :=
  (accept (by decide) (by decide)).branch (pure fun _ _ _ => trivial) leave

theorem typeBody : sides.Builds Anything left.typeBody right.typeBody :=
  h.plainType.bindTaking fun _ _ => iterate (.inl rfl) nextQuestion trivial

/-! ### Parameters -/

theorem param : sides.Builds Anything left.param right.param := by
  refine (expect (by decide)).bindTaking fun name _ => ?_
  refine (expect (by decide)).bind fun _ _ => ?_
  exact h.type.bind fun _ _ => pure trivial

theorem params : sides.Builds Anything left.params right.params := by
  refine (expect (by decide)).bindTaking fun _ _ => ?_
  refine (listed h.param).bind fun params _ => ?_
  exact (expect (by decide)).bind fun _ _ => pure trivial

/-! ### Expressions -/

theorem arguments : sides.Tracks .exact (Perhaps (All Expr.Plain)) left.arguments right.arguments := by
  refine (listed h.expression).bind fun args plain => ?_
  exact (expect (by decide)).bind fun _ _ => pure plain

/-- Literals, names, parentheses and function literals are read alike. -/
theorem primary : sides.Builds Expr.Plain left.primary right.primary := by
  refine peek (fun token => ?_) fun off last mark ends stands => ?_
  · have own := Note.plain_of_position token.position
    dsimp only
    split
    iterate 8
      · refine .advanceThen (by simp [*]) fun _ => pure ?_
        exact (Expr.each_leaf (by simp only [Expr.nodes])).mpr ⟨own, trivial⟩
    · refine .advanceThen (by simp [*]) fun _ => ?_
      refine h.expression.bind fun inner plain => ?_
      exact (expect (by decide)).bind fun _ _ => pure plain
    · refine .advanceThen (by simp [*]) fun _ => ?_
      refine h.params.bind fun params _ => ?_
      refine h.resultType.bind fun res _ => ?_
      refine (h.block _).bind fun body plain => pure (Expr.each_closure.mpr ⟨⟨own, rfl⟩, trivial, ?_⟩)
      exact (Stmt.each_block.mp plain).2
    · exact fail _ _ rfl _
  · dsimp only
    rw [ends]
    exact .failed off

/-- One more suffix of an expression, or none. -/
theorem suffix (expr : Expr) :
    sides.Tracks .exact (Onward Expr.Plain expr) (left.suffix expr) (right.suffix expr) := by
  have own := Note.plain_of_position
  refine peek (fun token => ?_) fun _ last mark ends stands => ?_
  · split
    · refine .advanceThen (by simp [*]) fun _ => ?_
      refine h.arguments.bind fun args plain => pure (found_some fun first => ?_)
      exact Expr.each_call.mpr ⟨⟨own _, trivial⟩, first, plain⟩
    · refine .advanceThen (by simp [*]) fun _ => ?_
      refine (expect (by decide)).bind fun name _ => ?_
      refine (accept (by decide) (by decide)).branch ?_ (pure (found_some fun first => ?_))
      · refine h.arguments.bind fun args plain => pure (found_some fun first => ?_)
        exact Expr.each_methodCall.mpr ⟨⟨own _, trivial⟩, first, plain⟩
      · exact Expr.each_field.mpr ⟨⟨own _, trivial⟩, first⟩
    · refine .advanceThen (by simp [*]) fun _ => pure (found_some fun first => ?_)
      exact Expr.each_unwrap.mpr ⟨⟨own _, trivial⟩, first⟩
    · exact leave _
  · rw [ends, stands]
    exact .pure _

theorem suffixed : sides.Builds Expr.Plain left.suffixed right.suffixed :=
  h.primary.bindTaking fun _ plain => iterate (.inl rfl) h.suffix plain

theorem unary : sides.Builds Expr.Plain left.unary right.unary := by
  refine peek (fun token => ?_) fun _ last mark ends stands => ?_
  · dsimp only
    split
    iterate 2
      · refine .advanceThen (by simp [*]) fun _ => ?_
        refine h.operand.bind fun _ plain => pure ?_
        exact Expr.each_unary.mpr ⟨⟨Note.plain_of_position _, trivial⟩, plain⟩
    · exact h.suffixed _
  · dsimp only
    rw [ends, stands]
    exact (h.suffixed _).runs

omit h in
/-- A terminator is no operator, so a chain ends before it as it does at the end of the input. -/
theorem chainStep {operator? : TokenKind → Option Combine} {operand operand' : Parse Expr}
    (operators : Operators operator?) (h : sides.Builds Expr.Plain operand operand')
    (expr : Expr) :
    sides.Tracks .exact (Onward Expr.Plain expr) (chainStep operator? operand expr)
      (chainStep operator? operand' expr) := by
  refine peek (fun token => ?_) fun _ last mark ends stands => ?_
  · split
    · rename_i combine found
      have notEnd : token.kind ≠ .endOfInput := by
        intro same
        rw [same, operators.noEnd] at found
        cases found
      refine .advanceThen notEnd fun _ => ?_
      refine h.bind fun _ plain => pure (found_some fun first => ?_)
      exact operators.plain _ combine found (Note.plain_of_position _) first plain
    · exact leave _
  · rw [ends, stands, operators.noEnd, operators.noMark]
    exact .pure _

omit h in
theorem leftChain {operator? : TokenKind → Option Combine} {operand operand' : Parse Expr}
    (operators : Operators operator?) (h : sides.Builds Expr.Plain operand operand') :
    sides.Builds Expr.Plain (leftChain operator? operand) (leftChain operator? operand') :=
  h.bindTaking fun _ plain => iterate (.inl rfl) (chainStep operators h) plain

theorem product : sides.Builds Expr.Plain left.product right.product :=
  leftChain operators_product h.unary

theorem sum : sides.Builds Expr.Plain left.sum right.sum :=
  leftChain operators_sum h.product

theorem comparisonStep (expr : Expr) :
    sides.Tracks .exact (Onward Expr.Plain expr) (left.comparisonStep expr)
      (right.comparisonStep expr) := by
  refine peek (fun token => ?_) fun _ last mark ends stands => ?_
  · split
    · refine .advanceThen (by simp [*]) fun _ => ?_
      refine h.type.bind fun _ _ => pure (found_some fun first => ?_)
      exact Expr.each_is.mpr ⟨⟨Note.plain_of_position _, rfl⟩, first⟩
    · exact chainStep operators_ordering h.sum expr _
  · rw [if_neg (by simp [ends]), if_neg (by simp [stands])]
    exact (chainStep operators_ordering h.sum expr _).runs

theorem comparison : sides.Builds Expr.Plain left.comparison right.comparison :=
  h.sum.bindTaking fun _ plain => iterate (.inl rfl) h.comparisonStep plain

theorem equality : sides.Builds Expr.Plain left.equality right.equality :=
  leftChain operators_equality h.comparison

theorem conjunction : sides.Builds Expr.Plain left.conjunction right.conjunction :=
  leftChain operators_and h.equality

theorem disjunction : sides.Builds Expr.Plain left.disjunction right.disjunction :=
  leftChain operators_or h.conjunction

omit h in
/-- An assignment takes over the note of its target. -/
theorem assignTo {value : Expr} (plain : value.Plain) {target : Expr × Token} (place : target.1.Plain) :
    sides.Tracks .exact (Perhaps Expr.Plain) (assignTo value target) (assignTo value target) := by
  have own := Note.plain_of_position
  unfold Level.assignTo
  split
  · exact pure (Expr.each_assign.mpr ⟨⟨own _, trivial⟩, Expr.Each.own place, plain⟩)
  · obtain ⟨field, object⟩ := Expr.each_field.mp place
    exact pure (Expr.each_assignField.mpr ⟨⟨own _, trivial⟩, field, object, plain⟩)
  · exact (report _ rfl).bind fun _ _ => pure plain

/-- The equals sign is kept for a message, and where the sides see different tokens there is none. -/
theorem assignment : sides.Builds Expr.Plain left.assignment right.assignment := by
  refine h.disjunction.bindTaking fun target place => ?_
  have accepted : sides.Tracks .exact Parse.Decides (Parse.accept .equal) (Parse.accept .equal) :=
    accept (by decide) (by decide)
  refine peek (fun token => accepted.branch (h.value.bind fun _ plain => ?_) ?_ _)
    fun _ last mark ends stands => ?_
  · exact assignTo plain place
  · exact pure place
  · exact .acceptAtEnd (by decide) (by decide) (.pure _)

/-! ### Simple statements -/

theorem initialValue :
    sides.Tracks .exact (Perhaps (Found Expr.Plain)) left.initialValue right.initialValue :=
  (accept (by decide) (by decide)).branch (h.expression.bind fun _ plain => pure (found_some plain))
    (pure nofun)

variable {kind : TokenKind}

theorem varDecl (notEnd : kind ≠ .endOfInput) :
    sides.BuildsAt kind Stmt.Plain left.varDecl right.varDecl := by
  refine .advanceThen notEnd fun keyword => ?_
  refine (expect (by decide)).bind fun name _ => ?_
  refine h.annotation.bind fun written _ => ?_
  exact h.initialValue.bind fun _ plain => pure (Stmt.each_varDecl.mpr ⟨rfl, plain⟩)

/-- A value is missing before a terminator as it is at the end of the input. -/
theorem returnedValue :
    sides.Tracks .exact (Perhaps (Found Expr.Plain)) left.returnedValue right.returnedValue := by
  refine peek (fun token => ?_) fun _ last mark ends stands => ?_
  · split
    iterate 3
      · exact pure nofun _
    · exact h.expression.bind (fun _ plain => pure (found_some plain)) _
  · rw [ends, stands]
    exact .pure _

theorem returnStmt (notEnd : kind ≠ .endOfInput) :
    sides.TracksAt kind .ending (Always Stmt.Plain) left.returnStmt right.returnStmt := by
  refine .advanceThen notEnd fun keyword => ?_
  refine h.returnedValue.bind fun value plain => ?_
  exact expectTerminator.bindPure fun _ _ => Stmt.each_ret.mpr ⟨trivial, plain⟩

theorem exprStmt : sides.Tracks .ending (Always Stmt.Plain) left.exprStmt right.exprStmt :=
  h.expression.bindTaking fun _ plain =>
    expectTerminator.bindPure fun _ _ => Stmt.each_expr.mpr ⟨trivial, plain⟩

/-! ### Loops and conditionals -/

theorem whileStmt (notEnd : kind ≠ .endOfInput) :
    sides.BuildsAt kind Stmt.Plain left.whileStmt right.whileStmt := by
  refine .advanceThen notEnd fun keyword => ?_
  refine h.expression.bind fun cond plain => ?_
  exact (h.block _).bind fun _ body => pure (Stmt.each_whileLoop.mpr ⟨trivial, plain, body⟩)

theorem forStmt (notEnd : kind ≠ .endOfInput) :
    sides.BuildsAt kind Stmt.Plain left.forStmt right.forStmt := by
  refine .advanceThen notEnd fun keyword => ?_
  refine (expect (by decide)).bind fun name _ => ?_
  refine (expect (by decide)).bind fun _ _ => ?_
  refine h.expression.bind fun start first => ?_
  refine (expect (by decide)).bind fun _ _ => ?_
  refine h.expression.bind fun stop last => ?_
  exact (h.block _).bind fun _ body => pure (Stmt.each_forRange.mpr ⟨trivial, first, last, body⟩)

theorem alternative :
    sides.Tracks .exact (Perhaps PlainAlternative) left.alternative right.alternative := by
  refine Tracks.acceptElse.branch (checkThen ?_ ?_ (by decide) (by decide)) (pure nofun)
  · exact h.conditional.bind fun _ plain => pure (found_some plain)
  · exact (h.block _).bind fun _ plain => pure (found_some ⟨plain, rfl⟩)

theorem ifStmt (notEnd : kind ≠ .endOfInput) :
    sides.BuildsAt kind PlainConditional left.ifStmt right.ifStmt := by
  refine .advanceThen notEnd fun keyword => ?_
  refine h.expression.bind fun cond condition => ?_
  refine (h.block _).bind fun body plain => ?_
  exact h.alternative.bind fun _ others => pure (plain_ifElse condition plain others)

/-! ### Declarations -/

theorem functionDecl (notEnd : kind ≠ .endOfInput) :
    sides.BuildsAt kind PlainFunction left.functionDecl right.functionDecl := by
  refine .advanceThen notEnd fun _ => ?_
  refine (expect (by decide)).bind fun name _ => ?_
  refine h.params.bind fun params _ => ?_
  refine h.resultType.bind fun res _ => ?_
  exact (h.block _).bind fun _ plain => pure (Stmt.each_function.mpr ⟨⟨rfl, rfl⟩, plain⟩)

theorem fieldDecl : sides.Builds Anything left.fieldDecl right.fieldDecl :=
  (expect (by decide)).bindTaking fun _ _ => h.annotation.bind fun _ _ => pure trivial

omit h in
theorem fieldEnd : sides.Tracks .exact (Perhaps Anything) fieldEnd fieldEnd := by
  refine peek (fun token => ?_) fun off last mark ends _ => ?_
  · split
    iterate 3
      · exact pure trivial _
    · exact fail _ _ rfl _
  · rw [ends]
    exact .failed off

theorem methodSig : sides.Builds Anything left.methodSig right.methodSig := by
  refine (expect (by decide)).bindTaking fun _ _ => ?_
  refine (expect (by decide)).bind fun name _ => ?_
  refine h.params.bind fun params _ => ?_
  refine h.resultType.bind fun res _ => ?_
  refine peek (fun token => ite (fail _ _ rfl) (pure trivial) _) fun _ last mark ends stands => ?_
  rw [if_neg (by simp [ends]), if_neg (by simp [stands])]
  exact .pure _

/-- A field with what stands behind it: recovery starts at the field on both sides. -/
theorem nextField (notEnd : kind ≠ .endOfInput) (notBrace : kind ≠ .rightBrace) (members : Members) :
    sides.TracksAt kind .exact (Onward PlainMembers members)
      (do
        let start := (← get).consumed
        match ← Parse.recovering Parse.recoverMember left.fieldDecl with
        | some field =>
          let _ ← Parse.recovering (fun _ => Parse.recoverMember start) Level.fieldEnd
          return some { members with fields := members.fields.push field }
        | none => return some members)
      (do
        let start := (← get).consumed
        match ← Parse.recovering Parse.recoverMember right.fieldDecl with
        | some field =>
          let _ ← Parse.recovering (fun _ => Parse.recoverMember start) Level.fieldEnd
          return some { members with fields := members.fields.push field }
        | none => return some members) := by
  refine .get fun first second same => ?_
  have ended : sides.Tracks .exact (Perhaps (Found Anything))
      (Parse.recovering (fun _ => Parse.recoverMember first.consumed) Level.fieldEnd)
      (Parse.recovering (fun _ => Parse.recoverMember second.consumed) Level.fieldEnd) := by
    intro kind
    refine (fieldEnd kind).recovering (fieldEnd.proceeds.recovering (fun _ _ => .recoverMember) kind)
      (fun _ => Comparison.told_recoverMember _) fun whole _ problem plain => ?_
    rw [same]
    exact recoverMember whole first.consumed plain
  refine ((h.fieldDecl kind).recoveringMember notEnd notBrace).bindTaking fun field _ => ?_
  cases field with
  | none => exact pure (found_some id)
  | some field => exact ended.bind fun _ _ => pure (found_some id)

/-- One more member of a struct, or the closing brace. -/
theorem nextMember (members : Members) :
    sides.Tracks .inside (Onward PlainMembers members) (left.nextMember members)
      (right.nextMember members) := by
  refine (skipWhile rfl).bindInside (fun _ _ => peek (fun token => ?_) fun off last mark ends _ => ?_)
    fun _ => .peek fun token ends => ?_
  · refine .widen ?_ nofun
    split
    · exact leave _
    · exact leave _
    · rename_i same
      have notEnd : token.kind ≠ .endOfInput := by simp [same]
      refine ((h.functionDecl notEnd).recoveringMember notEnd (by simp [same])).bindTaking fun method plain => ?_
      cases method with
      | none => exact pure (found_some id)
      | some method => exact pure (found_some fun each => all_push each (plain method rfl))
    · rename_i notBrace notEnd _
      exact h.nextField notEnd notBrace members
  · rw [ends]
    exact .atEnd off _
  · rw [ends]
    exact .pure _

omit h in
theorem traitRef : sides.Builds Anything traitRef traitRef :=
  (expect (by decide)).bindTaking fun _ _ => pure trivial

omit h in
theorem traitRefs : sides.Tracks .exact (Perhaps (All Anything)) traitRefs traitRefs :=
  (accept (by decide) (by decide)).branch (commaSeparated traitRef).perhaps (pure nofun)

theorem structDecl (notEnd : kind ≠ .endOfInput) :
    sides.TracksAt kind .exact (Always fun decl => (Stmt.struct decl).Plain) left.structDecl
      right.structDecl := by
  refine .advanceThen notEnd fun _ => ?_
  refine (expect (by decide)).bind fun name _ => ?_
  refine traitRefs.bind fun traits _ => ?_
  refine (expect (by decide)).bind fun _ _ => ?_
  have start : PlainMembers {} := nofun
  refine (iterate (.inr rfl) h.nextMember start).bindInside (fun members plain => ?_)
    fun _ => .expect (by decide)
  exact (expect (by decide)).bind fun _ _ =>
    pure (Stmt.each_struct.mpr ⟨trivial, fun _ _ => trivial, plain⟩)

/-- One more method of a trait, or the closing brace. -/
theorem nextMethodSig (methods : Array MethodSig) :
    sides.Tracks .inside (Onward Anything methods) (left.nextMethodSig methods)
      (right.nextMethodSig methods) := by
  refine (skipWhile rfl).bindInside (fun _ _ => peek (fun token => ?_) fun off last mark ends _ => ?_)
    fun _ => .peek fun token ends => ?_
  · refine .widen ?_ nofun
    split
    · exact leave _
    · exact leave _
    · rename_i notBrace notEnd
      refine ((h.methodSig token.kind).recoveringMember notEnd notBrace).bindTaking fun method _ => ?_
      cases method <;> exact pure (found_some id)
  · rw [ends]
    exact .atEnd off _
  · rw [ends]
    exact .pure _

theorem traitDecl (notEnd : kind ≠ .endOfInput) :
    sides.BuildsAt kind Anything left.traitDecl right.traitDecl := by
  refine .advanceThen notEnd fun _ => ?_
  refine (expect (by decide)).bind fun name _ => ?_
  refine (expect (by decide)).bind fun _ _ => ?_
  refine (iterate (.inr rfl) h.nextMethodSig trivial).bindInside (fun methods _ => ?_)
    fun _ => .expect (by decide)
  exact (expect (by decide)).bind fun _ _ => pure trivial

/-! ### Statements and blocks -/

/-- A keyword `fn` before a name starts a declaration, and else an expression.  What follows it is no name on
either side where the left input breaks off. -/
theorem functionStmt :
    sides.TracksAt .kwFn .ending (Always Stmt.Plain)
      (do
        if (← Parse.peekAt 1).kind = .identifier then return .function (← left.functionDecl)
        else left.exprStmt)
      (do
        if (← Parse.peekAt 1).kind = .identifier then return .function (← right.functionDecl)
        else right.exprStmt) := by
  have notEnd : TokenKind.kwFn ≠ .endOfInput := nofun
  refine .peekSecond notEnd (fun token => ?_) fun last mark ends stands => ?_
  · split
    · exact ((h.functionDecl notEnd).bindTaking fun _ plain => pure plain).widen nofun
    · exact h.exprStmt _
  · rw [if_neg (by simp [ends]), if_neg (by simp [stands])]
    exact (h.exprStmt _).runs

/-- A statement.  Where the left input breaks off, there is an expression missing or a problem with one. -/
theorem statement : sides.Tracks .ending (Always Stmt.Plain) left.statement right.statement := by
  refine peek (fun token => ?_) fun _ last mark ends stands => ?_
  · split
    · rename_i same
      exact (h.varDecl (by simp [same])).bindTaking fun _ plain =>
        expectTerminator.bindPure fun _ _ => plain
    · rename_i same
      rw [same]
      exact h.functionStmt
    · rename_i same
      exact ((h.structDecl (by simp [same])).bindTaking fun _ plain => pure plain).widen nofun
    · rename_i same
      refine ((h.traitDecl (by simp [same])).bindTaking fun _ _ => pure ?_).widen nofun
      exact Stmt.each_trait.mpr ⟨trivial, fun _ _ => trivial⟩
    · rename_i same
      have read : sides.TracksAt token.kind .ending (Always PlainConditional) left.ifStmt right.ifStmt :=
        (h.ifStmt (by simp [same])).widen nofun
      exact ⟨read.proceeds.weaken (fun _ plain => plain.1) fun _ => id, read.runs⟩
    · rename_i same
      exact (h.whileStmt (by simp [same])).widen nofun
    · rename_i same
      exact (h.forStmt (by simp [same])).widen nofun
    · rename_i same
      exact h.returnStmt (by simp [same])
    · exact ((h.block _).bindTaking (fun _ plain => pure plain) _).widen nofun
    · exact h.exprStmt _
  · rw [ends, stands]
    exact (h.exprStmt _).runs

/-- One more statement before a token at which the left input does not break off. -/
theorem nextStatement_settled (stmts : Array Stmt) (more : sides.breaksOff = true → kind ≠ .endOfInput) :
    sides.TracksAt kind .settled (Onward PlainStatements stmts) (left.nextStatement stmts)
      (right.nextStatement stmts) := by
  refine .peek (fun token here => ?_) fun off ends => absurd ends (more off)
  split
  · exact .settled more .leave
  · exact .settled more .leave
  · rename_i notBrace notEnd
    rw [here] at notBrace notEnd
    refine settle ((h.statement kind).recoveringStatement notEnd notBrace) fun read plain => ?_
    cases read with
    | none => exact ⟨_, found_some id, rfl, rfl⟩
    | some stmt => exact ⟨_, found_some fun each => all_push each (plain stmt rfl), rfl, rfl⟩

/-- One more statement of a block, or its end. -/
theorem nextStatement (stmts : Array Stmt) :
    sides.Tracks .inside (Onward PlainStatements stmts) (left.nextStatement stmts)
      (right.nextStatement stmts) := by
  intro kind
  by_cases more : sides.breaksOff = true → kind ≠ .endOfInput
  · exact (h.nextStatement_settled stmts more).enclose
  · obtain ⟨off, rfl⟩ : sides.breaksOff = true ∧ kind = .endOfInput := by
      by_contra other
      exact more fun off ends => other ⟨off, ends⟩
    refine .peek (fun token here => ?_) fun off _ last mark ends _ => ?_
    · rw [here]
      exact (leave _).widen nofun
    · rw [ends]
      exact .atEnd off _

/-- The statements of a block up to its closing brace. -/
theorem blockBody (context : String) :
    sides.Builds PlainBlock (left.blockBody context) (right.blockBody context) := by
  refine (expect (by decide)).bindTaking fun opening _ => ?_
  have closes (stmts : Array Stmt) : sides.Ends .exact (do
      let _ ← Parse.expect .rightBrace
        ("to close the block opened at line " ++ toString opening.position.line)
      return (⟨opening.position, stmts.toList⟩ : Block Stmt)) := .expect (by decide)
  have start : PlainStatements #[] := nofun
  have statements := iterate (.inr rfl) h.nextStatement start
  refine bindInside (fun kind => (skipTerminators kind).enclose) (fun _ _ => ?_) fun _ =>
    .bind statements.proceeds closes
  refine statements.bindInside (fun stmts plain => ?_) closes
  exact (expect (by decide)).bind fun _ _ =>
    pure (Stmt.each_block.mpr ⟨trivial, Stmt.eachOf_iff.mpr plain⟩)

/-- One more statement of a program before a token at which the left input does not break off. -/
theorem nextTopLevel (stmts : Array Stmt) (more : sides.breaksOff = true → kind ≠ .endOfInput) :
    sides.TracksAt kind .settled (Onward PlainStatements stmts) (left.nextTopLevel stmts)
      (right.nextTopLevel stmts) := by
  refine .peek (fun token here => ?_) fun off ends => absurd ends (more off)
  split
  · exact .settled more .leave
  · rename_i same
    refine .advanceThen (by simp [← here, same]) fun _ => ?_
    refine (report _ rfl).bind fun _ _ => ?_
    exact skipTerminators.bindPure fun _ _ => found_some id
  · exact h.nextStatement_settled stmts more

end Follows

/-- What bounds the levels on the left and on the right: the same, unless the left side is to be the
tighter one. -/
def Bounded (sides : Comparison) (limit limit' stack stack' depth depth' : Nat) : Prop :=
  sides.tighter = true ∧ stack ≤ stack' ∧ depth ≤ depth' ∨
    limit = limit' ∧ stack = stack' ∧ depth = depth'

/-- Levels with the same bounds do the same.  So do levels with different ones, unless nesting goes too deep
for the one on the left, which is to be the tighter one. -/
theorem follows {sides : Comparison} {limit limit' stack stack' depth depth' : Nat}
    (h : Bounded sides limit limit' stack stack' depth depth') :
    Follows sides (Level.at limit stack depth) (Level.at limit' stack' depth') := by
  induction stack generalizing stack' depth depth' with
  | zero =>
    refine ⟨?_, ?_, ?_, ?_, fun context => ?_, ?_⟩
    case refine_4 =>
      refine abort rfl ?_ _
      rcases h with ⟨tighter, -⟩ | ⟨rfl, rfl, rfl⟩
      · exact .inl tighter
      · exact .inr rfl
    all_goals
      refine abort rfl ?_
      rcases h with ⟨tighter, -⟩ | ⟨rfl, rfl, rfl⟩
      · exact .inl tighter
      · exact .inr rfl
  | succ stack ih =>
    obtain ⟨further, rfl⟩ : ∃ further, stack' = further + 1 := by
      refine ⟨stack' - 1, ?_⟩
      rcases h with ⟨-, le, -⟩ | ⟨-, rfl, -⟩ <;> omega
    have linked : Follows sides (Level.at limit stack depth) (Level.at limit' further depth') :=
      ih (h.imp (fun ⟨tighter, le, within⟩ => ⟨tighter, Nat.le_of_succ_le_succ le, within⟩)
        fun ⟨same, eq, within⟩ => ⟨same, Nat.succ.inj eq, within⟩)
    have conditional : sides.BuildsAt .kwIf PlainConditional
        (conditionalAt limit (stack + 1) depth) (conditionalAt limit' (further + 1) depth') :=
      linked.ifStmt nofun
    cases depth with
    | zero =>
      refine ⟨?_, ?_, linked.assignment, conditional, fun context => ?_, ?_⟩
      all_goals
        refine abort rfl ?_
        rcases h with ⟨tighter, -⟩ | ⟨rfl, -, rfl⟩
        · exact .inl tighter
        · exact .inr rfl
    | succ depth =>
      obtain ⟨deeper, rfl⟩ : ∃ deeper, depth' = deeper + 1 := by
        refine ⟨depth' - 1, ?_⟩
        rcases h with ⟨-, -, le⟩ | ⟨-, -, rfl⟩ <;> omega
      have inner : Follows sides (Level.at limit stack depth) (Level.at limit' further deeper) :=
        ih (h.imp (fun ⟨tighter, le, within⟩ =>
            ⟨tighter, Nat.le_of_succ_le_succ le, Nat.le_of_succ_le_succ within⟩)
          fun ⟨same, eq, within⟩ => ⟨same, Nat.succ.inj eq, Nat.succ.inj within⟩)
      exact ⟨inner.assignment, inner.unary, linked.assignment, conditional, inner.blockBody, inner.typeBody⟩

/-- Whether a level keeps to what is shown of an input. -/
abbrev Proceeds (input : View) (level : Level) : Prop := Follows (.alone input) level level

/-- However deep parts may nest, they keep to the input. -/
theorem proceeds (input : View) (limit stack depth : Nat) :
    (Level.at limit stack depth).Proceeds input :=
  follows (.inr ⟨rfl, rfl, rfl⟩)

/-- Whether levels keep to their inputs and do the same. -/
structure Compared (sides : Comparison) (left right : Level) : Prop extends Follows sides left right where
  onRight : right.Proceeds sides.right

theorem compared {sides : Comparison} {limit limit' stack stack' depth depth' : Nat}
    (h : Bounded sides limit limit' stack stack' depth depth') :
    Compared sides (Level.at limit stack depth) (Level.at limit' stack' depth') :=
  ⟨follows h, proceeds sides.right limit' stack' depth'⟩

end Level

end FlowScript
