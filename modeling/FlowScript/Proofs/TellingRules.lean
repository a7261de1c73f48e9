import FlowScript.Proofs.PureExpressions
/-!
# Checking expressions without effects

Each rule of checking, if it comes to its end without an error, leaves the state as it was and shows of an
expression without effects what `Expr.Told` says, if checking one level further in shows as much of the
operands (`Checks.Telling`).

Main statement: `Checks.telling`, that it is shown however many levels are left.
-/

namespace FlowScript

/-- What is shown of the operands of a test. -/
def Expr.Tested (a : Analyzer) : Expr → Prop
  | .binary note op left right => op.isEquality = true →
    note.ty = some .bool ∧ (left.Checked ∧ left.Told a {}) ∧ right.Checked ∧ right.Told a {}
  | .is note value _ target =>
    note.ty = some .bool ∧ (value.Checked ∧ value.Told a {}) ∧ ∃ ty ∈ target, ty.Canonical
  | _ => True

theorem BinaryOp.Typed.eq_bool {op : BinaryOp} {left right ty : Ty} (h : op.Typed left right ty)
    (equality : op.isEquality = true) : ty = .bool := by
  cases h with
  | arithmetic plain => exact absurd (equality.symm.trans plain) (by decide)
  | append => cases equality
  | _ => rfl

theorem Facts.forget_nil (facts : Facts) : facts.forget [] = facts :=
  congrArg Table.mk (List.filter_eq_self.mpr fun _ _ => rfl)

namespace Checks

open Check (Ensures)

variable {checks : Checks} {start : Analyzer}

/-- What is shown of expressions without effects one level further in. -/
structure Telling (checks : Checks) : Prop where
  expr : ∀ {e : Expr} {start : Analyzer}, e.isPure = true → e.Plain → start.Regular →
    Ensures start (checks.expr e) fun checked after =>
      after = start ∧ checked.Checked ∧ checked.Told start {}
  condition : ∀ {e : Expr} {start : Analyzer}, e.isPure = true → e.Plain → start.Regular →
    Ensures start (checks.condition e) fun checked after =>
      after = start ∧ checked.1.Checked ∧ checked.1.Told start checked.2

namespace Telling

variable {note : Note} {op : BinaryOp} {left right value e : Expr}

/-! ## Names -/

/-- Outside of functions nothing is captured. -/
theorem noteCapture (regular : start.Regular) (symbol : Symbol) :
    Ensures start (Check.noteCapture symbol) fun _ after => after = start := by
  unfold Check.noteCapture
  split
  · exact .pure rfl
  · refine .modify ?_
    rw [regular.outside]
    rfl

/-- A name is read as the variable that it stands for, with the type known of it. -/
theorem checkName (regular : start.Regular) (ident : String) (pos : Position) :
    Ensures start (checks.checkName ident pos) fun ty after => after = start ∧
      ty ≠ .unknown ∧ ∃ ref, start.Reads ident ref ∧ ty = start.typeOf ref := by
  refine .get ?_
  split
  · exact .fail rfl
  · rename_i ref found
    refine .ite (fun _ => .fail rfl) fun ready => ?_
    refine .bind (noteCapture regular _) ?_
    rintro _ _ rfl
    split
    · exact absurd ‹_› (regular.kinds ref.id).2
    · exact absurd ‹_› (regular.kinds ref.id).1
    · refine .ite (fun _ => .fail rfl) fun assigned => ?_
      refine .ite (fun _ => .fail rfl) fun known => .pure ⟨rfl, ?_, ref, ⟨found, ?_, ?_⟩, rfl⟩
      · intro unknown
        rw [unknown] at known
        exact known rfl
      · simpa using ready
      · simpa using assigned

/-! ## Operators -/

theorem warnMixed (pos : Position) (left right : Ty) :
    Ensures start (Checks.warnMixed pos left right) fun _ after => after = start :=
  .ite (fun _ => .pure rfl) fun _ => .report

/-- The type of a binary operation on operands without a problem. -/
theorem binaryType (op : BinaryOp) (pos : Position) {left right : Ty} (first : left.isError = false)
    (second : right.isError = false) :
    Ensures start (Checks.binaryType op pos left right) fun ty after =>
      after = start ∧ op.Typed left right ty := by
  refine .ite (fun error => ?_) fun _ => ?_
  · rw [first, second] at error
    cases error
  refine .ite (fun equality => .get (.ite (fun _ => .fail rfl) fun _ => ?_)) fun plain => ?_
  · refine .ite (fun _ => .bind (warnMixed pos left right) ?_) fun _ => .pure ⟨rfl, .equality equality⟩
    rintro _ _ rfl
    exact .pure ⟨rfl, .equality equality⟩
  have plain : op.isEquality = false := Bool.eq_false_iff.mpr plain
  refine .ite (fun ordering => ?_) fun unordered => ?_
  · refine .ite (fun numeric => ?_) fun _ => .ite (fun text => ?_) fun _ => .fail rfl
    · obtain ⟨numeric, other⟩ := Bool.and_eq_true_iff.mp numeric
      refine .bind (warnMixed pos left right) ?_
      rintro _ _ rfl
      exact .pure ⟨rfl, .order ordering numeric other⟩
    · obtain ⟨rfl, rfl⟩ := text
      exact .pure ⟨rfl, .textOrder ordering⟩
  have unordered : op.isOrdering = false := Bool.eq_false_iff.mpr unordered
  refine .ite (fun _ => ?_) fun _ => .throw _
  refine .ite (fun numeric => ?_) fun _ => .ite (fun text => ?_) fun _ => .fail rfl
  · obtain ⟨numeric, other⟩ := Bool.and_eq_true_iff.mp numeric
    exact .pure ⟨rfl, .arithmetic plain unordered numeric other⟩
  · obtain ⟨rfl, rfl, rfl⟩ := text
    exact .pure ⟨rfl, .append⟩

/-- What is told of an operator comes from what is told of its operands. -/
theorem checkBinary (h : checks.Telling) (plain : (Expr.binary note op left right).Plain)
    (pureLeft : left.isPure = true) (pureRight : right.isPure = true) (regular : start.Regular) :
    Ensures start (checks.checkBinary note op left right) fun checked after =>
      after = start ∧ checked.Told start {} ∧ checked.Tested start := by
  obtain ⟨own, first, second⟩ := Expr.each_binary.mp plain
  refine .bind (h.expr pureLeft first regular) ?_
  rintro left _ ⟨rfl, checkedLeft, one⟩
  refine .bind (h.expr pureRight second regular) ?_
  rintro right _ ⟨rfl, checkedRight, two⟩
  refine .bind (binaryType op note.position checkedLeft.determined.1.ne_error
    checkedRight.determined.1.ne_error) ?_
  rintro ty _ ⟨rfl, rule⟩
  have told : (Expr.binary { note with ty := some ty } op (left.widenedFor ty)
      (right.widenedFor ty)).Told _ {} :=
    .binary own.1.2 rfl one checkedLeft two checkedRight rule
  refine .ite (fun float => .pure ⟨rfl, ?_, fun equality => ?_⟩) fun double => .pure ⟨rfl, ?_, fun equality => ?_⟩
  · simpa only [Expr.widenedFor, if_pos float] using told
  · rw [rule.eq_bool equality] at float
    cases float
  · simpa only [Expr.widenedFor, if_neg double] using told
  · exact ⟨congrArg some (rule.eq_bool equality), ⟨checkedLeft, one⟩, checkedRight, two⟩

theorem checkNegation (h : checks.Telling) {operand : Expr} (plain : (Expr.unary note .neg operand).Plain)
    (isPure : operand.isPure = true) (regular : start.Regular) :
    Ensures start (checks.checkNegation note operand) fun checked after =>
      after = start ∧ checked.Told start {} ∧ checked.Tested start := by
  obtain ⟨own, inner⟩ := Expr.each_unary.mp plain
  refine .bind (h.expr isPure inner regular) ?_
  rintro operand _ ⟨rfl, checked, told⟩
  refine .ite (fun problem => ?_) fun _ => .ite (fun numeric => ?_) fun _ => .failThen rfl
  · rw [checked.determined.1.ne_error] at problem
    cases problem
  · exact .pure ⟨rfl, .negation own.1.2 rfl told checked numeric, trivial⟩

theorem checkIs (h : checks.Telling) {written : TypeExpr} {target : Option Ty}
    (plain : (Expr.is note value written target).Plain) (isPure : value.isPure = true)
    (regular : start.Regular) :
    Ensures start (checks.checkIs note value written) fun checked after =>
      after = start ∧ checked.Told start {} ∧ checked.Tested start := by
  obtain ⟨own, inner⟩ := Expr.each_is.mp plain
  refine .bind (h.expr isPure inner regular) ?_
  rintro value _ ⟨rfl, checked, told⟩
  refine .bind (fun target after accepted =>
    (Check.Leads.resolveType regular.consistent written target after accepted).2) ?_
  rintro target _ ⟨rfl, determined⟩
  refine .ite (fun _ => .get (.ite (fun _ => .errorThen rfl) fun _ => ?_)) fun _ => ?_ <;>
    exact .pure ⟨rfl, .typeTest own.1.2 rfl told checked, rfl, ⟨checked, told⟩, target, rfl, determined.1⟩

/-- An unwrapped value has the type inside. -/
theorem checkUnwrap (h : checks.Telling) (plain : (Expr.unwrap note value).Plain)
    (isPure : value.isPure = true) (regular : start.Regular) :
    Ensures start (checks.checkUnwrap note value) fun checked after =>
      after = start ∧ checked.Told start {} ∧ checked.Tested start := by
  obtain ⟨own, inner⟩ := Expr.each_unwrap.mp plain
  refine .bind (h.expr isPure inner regular) ?_
  rintro value _ ⟨rfl, checked, told⟩
  have canonical := checked.determined.1
  split
  · rename_i problem
    rw [problem] at canonical
    cases canonical
  · rename_i inner nilable
    exact .pure ⟨rfl, .unwrap own.1.2 rfl told checked nilable, trivial⟩
  · exact .failThen rfl
  · exact .failThen rfl

/-! ## Conditions -/

theorem requireBool (what : String) (checked : e.Checked) (regular : start.Regular) :
    Ensures start (Checks.requireBool what e) fun _ after => after = start ∧ e.checkedTy = .bool := by
  have bool : Ensures start (Checks.requireBool what e) fun _ _ => e.ty = some .bool :=
    fun res after accepted =>
      ((Annotating.requireBool what checked).leads regular.consistent res after accepted).2.1
  have same : Ensures start (Checks.requireBool what e) fun _ after => after = start := by
    unfold Checks.requireBool
    split
    · exact .pure rfl
    · exact .pure rfl
    · exact .pure rfl
    · exact .report
  exact (same.and bool).mono fun _ _ both => ⟨both.1, Expr.checkedTy_eq both.2⟩

/-- What a test can narrow is a name that is found. -/
theorem narrowable? (e : Expr) :
    Ensures start (Checks.narrowable? e) fun symbol after => after = start ∧
      ∀ ref ∈ symbol, ∃ note ident, e = .name note ident ∧ start.lookup? ident = some ref := by
  refine .get ?_
  split
  · split
    · rename_i ref found
      refine .ite (fun _ => .pure ⟨rfl, ?_⟩) fun _ => .pure ⟨rfl, by rintro _ ⟨⟩⟩
      rintro _ ⟨⟩
      exact ⟨_, _, rfl, found⟩
    · exact .pure ⟨rfl, by rintro _ ⟨⟩⟩
  · exact .pure ⟨rfl, by rintro _ ⟨⟩⟩

/-- What a comparison with `nil` tells of the variable that is compared. -/
theorem comparedFacts (told : (Expr.binary note op left right).Told start {})
    (tested : (Expr.binary note op left right).Tested start) (equality : op.isEquality = true)
    (regular : start.Regular) (symbol : Option SymbolRef)
    (found : ∀ ref ∈ symbol, ∃ ident, start.lookup? ident = some ref ∧
      ((∃ note, left = .name note ident) ∧ right.isNil = true ∨
        left.isNil = true ∧ ∃ note, right = .name note ident)) :
    Ensures start (match symbol with
      | none => return {}
      | some ref => do
        match ((← get) : Analyzer).typeOf ref with
        | .nilable inner =>
          let notNil := Facts.single ref inner
          let isNil := Facts.single ref .nil
          return if op = .ne then ⟨notNil, isNil⟩ else ⟨isNil, notNil⟩
        | _ => return {})
      fun facts after => after = start ∧ (Expr.binary note op left right).Told start facts := by
  obtain ⟨noted, ⟨checkedLeft, one⟩, checkedRight, two⟩ := tested equality
  cases symbol with
  | none => exact .pure ⟨rfl, told⟩
  | some ref =>
    obtain ⟨ident, found, sides⟩ := found ref rfl
    refine .get ?_
    split
    · rename_i inner nilable
      exact .pure ⟨rfl,
        told.nilTest noted equality regular one checkedLeft two checkedRight sides found nilable⟩
    · exact .pure ⟨rfl, told⟩

/-- What a comparison with nil tells of a variable. -/
theorem nilFacts (told : (Expr.binary note op left right).Told start {})
    (tested : (Expr.binary note op left right).Tested start) (equality : op.isEquality = true)
    (regular : start.Regular) :
    Ensures start (Checks.nilFacts op left right) fun facts after =>
      after = start ∧ (Expr.binary note op left right).Told start facts := by
  refine .ite (fun isNil => .bind (narrowable? left) ?_) fun _ =>
    .ite (fun isNil => .bind (narrowable? right) ?_) fun _ =>
      comparedFacts told tested equality regular none (by rintro _ ⟨⟩)
  · rintro symbol _ ⟨rfl, names⟩
    refine comparedFacts told tested equality regular symbol fun ref mem => ?_
    obtain ⟨note, ident, eq, found⟩ := names ref mem
    exact ⟨ident, found, .inl ⟨⟨note, eq⟩, isNil⟩⟩
  · rintro symbol _ ⟨rfl, names⟩
    refine comparedFacts told tested equality regular symbol fun ref mem => ?_
    obtain ⟨note, ident, eq, found⟩ := names ref mem
    exact ⟨ident, found, .inr ⟨isNil, note, eq⟩⟩

/-- What a type test tells of the variable that is tested. -/
theorem isFacts {written : TypeExpr} {target : Option Ty}
    (told : (Expr.is note value written target).Told start {})
    (tested : (Expr.is note value written target).Tested start) (regular : start.Regular) :
    Ensures start (Checks.isFacts value target) fun facts after =>
      after = start ∧ (Expr.is note value written target).Told start facts := by
  obtain ⟨noted, ⟨checked, one⟩, target, rfl, canonical⟩ := tested
  refine .bind (narrowable? value) ?_
  rintro symbol _ ⟨rfl, names⟩
  cases symbol with
  | none => exact .pure ⟨rfl, told⟩
  | some ref =>
    obtain ⟨_, ident, rfl, found⟩ := names ref rfl
    refine .ite (fun _ => .pure ⟨rfl, told⟩) fun _ => .get (.pure ⟨rfl, ?_⟩)
    exact told.isTest noted regular one checked found canonical

theorem testFacts (told : e.Told start {}) (tested : e.Tested start) (regular : start.Regular) :
    Ensures start (Checks.testFacts e) fun facts after => after = start ∧ e.Told start facts := by
  unfold Checks.testFacts
  split
  · exact .ite (fun equality => nilFacts told tested equality regular) fun _ => .pure ⟨rfl, told⟩
  · exact isFacts told tested regular
  · exact .pure ⟨rfl, told⟩

/-- The right operand is checked where the left one does not decide, and nothing of it is left, since
it has no effects. -/
theorem checkLogical (h : checks.Telling) {op : LogicalOp} (plain : (Expr.logical note op left right).Plain)
    (pureLeft : left.isPure = true) (pureRight : right.isPure = true) (regular : start.Regular) :
    Ensures start (checks.checkLogical note op left right) fun checked after =>
      after = start ∧ checked.1.Told start checked.2 ∧ checked.1.Tested start := by
  obtain ⟨own, first, second⟩ := Expr.each_logical.mp plain
  refine .bind (h.condition pureLeft first regular) ?_
  rintro ⟨left, first⟩ _ ⟨rfl, checkedLeft, one⟩
  refine .bind (requireBool _ checkedLeft regular) ?_
  rintro _ start ⟨rfl, -⟩
  have given : (if op = .and then first.whenTrue else first.whenFalse) = first.given op.neutral := by
    cases op <;> rfl
  refine .get (.modifyThen ?_)
  rw [given]
  have between : Analyzer.Regular { start with flow := start.flow.apply (first.given op.neutral) } :=
    regular.setFlow (regular.facts.overlay (one.fine _))
  refine .bind (h.condition pureRight second between) ?_
  rintro ⟨right, second⟩ _ ⟨rfl, checkedRight, two⟩
  refine .bind (requireBool _ checkedRight between) ?_
  rintro _ _ ⟨rfl, bool⟩
  refine .modifyThen (.pure ⟨?_, .logical own.1.2 rfl one checkedLeft two checkedRight bool, trivial⟩)
  rw [two.assigns, Facts.forget_nil]
  rfl

theorem checkNot (h : checks.Telling) {operand : Expr} (plain : (Expr.unary note .not operand).Plain)
    (isPure : operand.isPure = true) (regular : start.Regular) :
    Ensures start (checks.checkNot note operand) fun checked after =>
      after = start ∧ checked.1.Told start checked.2 ∧
        ∃ note operand, checked.1 = .unary note .not operand ∧ operand.ty = some .bool := by
  obtain ⟨own, inner⟩ := Expr.each_unary.mp plain
  refine .bind (h.condition isPure inner regular) ?_
  rintro ⟨operand, facts⟩ _ ⟨rfl, checked, told⟩
  refine .bind (requireBool _ checked regular) ?_
  rintro _ _ ⟨rfl, bool⟩
  exact .pure ⟨rfl, .not own.1.2 rfl told checked, _, _, rfl, bool ▸ checked.ty_eq⟩

/-! ## All expressions without effects -/

/-- Of a pure expression, checking tells the type of its value. -/
theorem checkExpr (h : checks.Telling) (isPure : e.isPure = true) (plain : e.Plain)
    (regular : start.Regular) :
    Ensures start (checks.checkExpr e) fun checked after =>
      after = start ∧ checked.Told start {} ∧ checked.Tested start := by
  cases e with
  | literal note value =>
    have own : note.Plain := Expr.Each.own plain |>.1
    refine .pure ⟨rfl, .literal own.2 rfl ?_, trivial⟩
    cases value <;> rfl
  | name note ident =>
    have own : note.Plain := Expr.Each.own plain |>.1
    refine .bind (checkName regular ident note.position) ?_
    rintro _ _ ⟨rfl, known, ref, reads, rfl⟩
    exact .pure ⟨rfl, .name regular own.2 reads rfl known, trivial⟩
  | binary note op left right =>
    obtain ⟨pureLeft, pureRight⟩ := Bool.and_eq_true_iff.mp isPure
    exact h.checkBinary plain pureLeft pureRight regular
  | logical note op left right =>
    obtain ⟨pureLeft, pureRight⟩ := Bool.and_eq_true_iff.mp isPure
    refine .bind (h.checkLogical plain pureLeft pureRight regular) ?_
    rintro checked _ ⟨rfl, told, tested⟩
    exact .pure ⟨rfl, told.silent, tested⟩
  | unary note op operand =>
    cases op with
    | neg => exact h.checkNegation plain isPure regular
    | not =>
      refine .bind (h.checkNot plain isPure regular) ?_
      rintro ⟨_, facts⟩ _ ⟨rfl, told, note, operand, rfl, bool⟩
      refine .pure ⟨rfl, ?_⟩
      rw [if_pos bool]
      exact ⟨told.silent, trivial⟩
  | is note value written target => exact h.checkIs plain isPure regular
  | unwrap note value => exact h.checkUnwrap plain isPure regular
  | _ => cases isPure

theorem checkCondition (h : checks.Telling) (isPure : e.isPure = true) (plain : e.Plain)
    (regular : start.Regular) :
    Ensures start (checks.checkCondition e) fun checked after =>
      after = start ∧ checked.1.Told start checked.2 := by
  unfold Checks.checkCondition
  split
  · obtain ⟨pureLeft, pureRight⟩ := Bool.and_eq_true_iff.mp isPure
    exact (h.checkLogical plain pureLeft pureRight regular).mono fun _ _ all => ⟨all.1, all.2.1⟩
  · exact (h.checkNot plain isPure regular).mono fun _ _ all => ⟨all.1, all.2.1⟩
  · refine .bind (h.checkExpr isPure plain regular) ?_
    rintro checked _ ⟨rfl, told, tested⟩
    refine .bind (testFacts told tested regular) ?_
    rintro facts _ ⟨rfl, told⟩
    exact .pure ⟨rfl, told⟩

end Telling

/-- Checking of expressions without effects shows what they come to, however many levels are left. -/
theorem telling (levels : Nat) : Telling (.within levels) := by
  induction levels with
  | zero => exact ⟨fun _ _ _ => .throw _, fun _ _ _ => .throw _⟩
  | succ levels ih =>
    have annotating := annotating (levels + 1)
    refine ⟨fun isPure plain regular => ?_, fun isPure plain regular => ?_⟩
    · intro checked after accepted
      obtain ⟨same, told, -⟩ := ih.checkExpr isPure plain regular checked after accepted
      exact ⟨same, ((annotating.expr plain).leads regular.consistent checked after accepted).2.1.checked, told⟩
    · intro checked after accepted
      obtain ⟨same, told⟩ := ih.checkCondition isPure plain regular checked after accepted
      exact ⟨same, ((annotating.condition plain).leads regular.consistent checked after accepted).2.1.1.checked, told⟩

end Checks

end FlowScript
