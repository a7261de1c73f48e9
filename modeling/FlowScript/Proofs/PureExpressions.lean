import FlowScript.Proofs.Agreement
import FlowScript.Proofs.AnnotatedStatements
/-!
# Expressions without effects

Expressions of literals, names and operators change nothing, neither when they are checked nor when they
are evaluated.  On every machine that agrees with what is known before them, they come to a value of the
type noted for them, or to an expected stop; and if such an expression is a condition, the facts for its
truth value hold.

`Expr.Told` collects what the check of such an expression without an error shows.  Main statements: one
for each kind of expression, that as much is shown of it if it is shown of its operands; and that tests
against `nil` (`Expr.Told.nilTest`) and type tests (`Expr.Told.isTest`) tell the truth about the variable
they test.
-/

namespace FlowScript

/-- Whether an expression is made of literals, names and operators only. -/
def Expr.isPure : Expr → Bool
  | .literal .. | .name .. => true
  | .binary _ _ left right | .logical _ _ left right => left.isPure && right.isPure
  | .unary _ _ operand => operand.isPure
  | .is _ value _ _ | .unwrap _ value => value.isPure
  | _ => false

/-! ## Facts of conditions -/

/-- The facts for a truth value. -/
def Branches.given (facts : Branches) (truth : Bool) : Facts :=
  if truth then facts.whenTrue else facts.whenFalse

@[simp] theorem Branches.given_empty (truth : Bool) : ({} : Branches).given truth = Table.empty := by
  cases truth <;> rfl

/-- The facts of a test against `nil` of a variable whose type is a nilable one. -/
def Branches.ofNil (op : BinaryOp) (ref : SymbolRef) (inner : Ty) : Branches :=
  if op = .ne then ⟨.single ref inner, .single ref .nil⟩ else ⟨.single ref .nil, .single ref inner⟩

theorem Branches.given_ofNil (op : BinaryOp) (ref : SymbolRef) (inner : Ty) (truth : Bool) :
    (ofNil op ref inner).given truth =
      if truth = decide (op = .ne) then .single ref inner else .single ref .nil := by
  by_cases ne : op = .ne <;> cases truth <;> simp [given, ofNil, ne]

/-- The facts of a type test of a variable. -/
def Branches.ofType (ref : SymbolRef) (target current : Ty) : Branches where
  whenTrue := if target = current then Table.empty else .single ref target
  whenFalse := match current with
    | .nilable inner =>
      if target = inner then .single ref .nil
      else if target = .nil then .single ref inner
      else Table.empty
    | _ => Table.empty

/-- What a type test tells, if it tells anything: the variable is of the type, or it is of the other part
of its own type, which is a nilable one. -/
theorem Branches.given_ofType (ref : SymbolRef) (target current : Ty) (truth : Bool) :
    (ofType ref target current).given truth = Table.empty ∨
    ∃ ty, (ofType ref target current).given truth = .single ref ty ∧
      (truth = true ∧ ty = target ∨ truth = false ∧ current = .nilable target ∧ ty = .nil ∨
        truth = false ∧ current = .nilable ty ∧ target = .nil) := by
  cases truth with
  | true =>
    by_cases same : target = current
    · exact .inl (if_pos same)
    · exact .inr ⟨target, if_neg same, .inl ⟨rfl, rfl⟩⟩
  | false =>
    cases current with
    | nilable inner =>
      by_cases same : target = inner
      · exact .inr ⟨.nil, if_pos same, .inr (.inl ⟨rfl, by rw [same], rfl⟩)⟩
      · by_cases isNil : target = .nil
        · exact .inr ⟨inner, (if_neg same).trans (if_pos isNil), .inr (.inr ⟨rfl, rfl, isNil⟩)⟩
        · exact .inl ((if_neg same).trans (if_neg isNil))
    | _ => exact .inl rfl

namespace LogicalOp

variable (op : LogicalOp) (first second : Branches)

/-- The truth value of the left operand with which the right one decides. -/
def neutral : Bool := op = .and

/-- The facts of a logical operation. -/
def facts : Branches :=
  match op with
  | .and => ⟨first.whenTrue.overlay second.whenTrue, first.whenFalse.common second.whenFalse⟩
  | .or => ⟨first.whenTrue.common second.whenTrue, first.whenFalse.overlay second.whenFalse⟩

theorem given_neutral : (op.facts first second).given op.neutral =
    (first.given op.neutral).overlay (second.given op.neutral) := by
  cases op <;> rfl

theorem given_not_neutral : (op.facts first second).given (!op.neutral) =
    (first.given (!op.neutral)).common (second.given (!op.neutral)) := by
  cases op <;> rfl

end LogicalOp

theorem Value.equal_nil (value : Value) : value.equal .nil = false ↔ value ≠ .nil := by
  cases value <;> simp [equal, number?]

theorem Value.nil_equal (value : Value) : equal .nil value = false ↔ value ≠ .nil := by
  cases value <;> simp [equal, number?]

/-! ## What evaluation comes to -/

namespace Expr

theorem checkedTy_eq {e : Expr} {ty : Ty} (noted : e.ty = some ty) : e.checkedTy = ty := by
  rw [checkedTy, noted, Option.getD_some]

variable {a : Analyzer} {e : Expr} {facts : Branches} {run : Run} {env : Environment}
  {memory : Memory} {machine : Machine} {levels : Nat}

/-- Whether evaluation of a checked expression comes to a value of its type, for whose truth value the
facts hold, on every machine that agrees with a state of checking. The machine stays as it is. -/
def Sound (e : Expr) (a : Analyzer) (facts : Branches) : Prop :=
  ∀ (run : Run), a.Refines run.later → ∀ levels env memory machine,
    run.Agrees a env memory machine.heap →
    Run.Meets ((run.evaluator levels).evaluate run.setup.host env e) machine
      fun value after => after = machine ∧ value.Is e.checkedTy ∧
        Run.FactsHold memory (facts.given value.isTrue)

theorem evaluate_withWiden (inner : Evaluator) (host : Host) (widen : Bool) (e : Expr) :
    inner.evaluate host env (e.withWiden widen) = inner.evaluate host env e := by
  cases e <;> rfl

/-- The observer is content with a value of the noted type. -/
theorem observe_meets {value : Value} {ty : Ty} (typed : e.valueTy? = some ty) (is : value.Is ty) :
    Run.Meets (run.observe e value) machine fun _ after => after = machine := by
  rw [Run.Meets, Eval.Meets, run.content e value ty machine typed is]

section Evaluation

variable {post : Value → Machine → Prop} {ty : Ty}

/-- An expression that is not widened has the value that evaluation of its rule comes to. -/
theorem eval_plain (plain : e.note.widen = false) (noted : e.ty = some ty)
    (typed : ∀ value after, post value after → value.Is ty)
    (h : ∀ levels, Run.Meets ((run.evaluator levels).evaluate run.setup.host env e) machine post) :
    Run.Meets ((run.evaluator levels).expr env e) machine post := by
  have valueTy : e.valueTy? = some ty := by rw [valueTy?, plain, noted]; rfl
  cases levels with
  | zero => exact .throw rfl
  | succ levels =>
    have evaluated :
        Run.Meets ((run.evaluator levels).evalExpr run.setup.host env e) machine post := by
      refine .bind (h levels) fun value after holds => ?_
      rw [plain]
      exact .pure holds
    refine .bind evaluated fun value after holds => ?_
    refine .bind (observe_meets valueTy (typed value after holds)) ?_
    rintro _ after rfl
    exact .pure holds

/-- An expression has the value that evaluation of its rule comes to, widened if it is to be. -/
theorem eval_widened (noted : e.ty = some ty) (typed : ∀ value after, post value after → value.Is ty)
    (h : ∀ levels, Run.Meets ((run.evaluator levels).evaluate run.setup.host env e) machine post) :
    Run.Meets ((run.evaluator levels).expr env e) machine fun value after =>
      (∃ original, post original after) ∧ ∃ found, e.valueTy? = some found ∧ value.Is found := by
  cases widens : e.note.widen with
  | false =>
    have valueTy : e.valueTy? = some ty := by rw [valueTy?, widens, noted]; rfl
    refine (eval_plain widens noted typed h).mono fun value after holds => ?_
    exact ⟨⟨value, holds⟩, ty, valueTy, typed value after holds⟩
  | true =>
    have valueTy : e.valueTy? = some ty.widened := by rw [valueTy?, widens, noted]; rfl
    cases levels with
    | zero => exact .throw rfl
    | succ levels =>
      have evaluated : Run.Meets ((run.evaluator levels).evalExpr run.setup.host env e) machine
          fun value after => (∃ original, post original after) ∧ value.Is ty.widened := by
        refine .bind (h levels) fun value after holds => ?_
        rw [widens]
        refine .operation (fun wide eq => ⟨⟨value, holds⟩, (typed value after holds).widen eq⟩)
          fun reason eq => ?_
        rw [Value.widen_eq_error eq]
        rfl
      refine .bind evaluated fun value after holds => ?_
      refine .bind (observe_meets valueTy holds.2) ?_
      rintro _ after rfl
      exact .pure ⟨holds.1, _, valueTy, holds.2⟩

end Evaluation

namespace Sound

variable (h : e.Sound a facts)

include h

theorem withWiden (widen : Bool) :
    (e.withWiden widen).Sound a facts := by
  intro run refines levels env memory machine agrees
  rw [evaluate_withWiden, checkedTy, ty_withWiden]
  exact h run refines levels env memory machine agrees

/-- Nothing has to be told. -/
theorem silent : e.Sound a {} := by
  intro run refines levels env memory machine agrees
  refine (h run refines levels env memory machine agrees).mono ?_
  rintro value after ⟨same, is, -⟩
  exact ⟨same, is, by rw [Branches.given_empty]; exact .empty⟩

/-- The value of an expression, widened if it is to be. -/
theorem eval (noted : e.ty = some e.checkedTy) (refines : a.Refines run.later)
    (agrees : run.Agrees a env memory machine.heap) :
    Run.Meets ((run.evaluator levels).expr env e) machine
      fun value after => after = machine ∧ ∃ ty, e.valueTy? = some ty ∧ value.Is ty := by
  refine (eval_widened noted (fun _ _ holds => holds.2.1) fun levels =>
    h run refines levels env memory machine agrees).mono ?_
  rintro value after ⟨⟨_, same, -⟩, typed⟩
  exact ⟨same, typed⟩

/-- The value of a condition, with the facts for it. -/
theorem decide (plain : e.note.widen = false)
    (noted : e.ty = some e.checkedTy) (refines : a.Refines run.later)
    (agrees : run.Agrees a env memory machine.heap) :
    Run.Meets ((run.evaluator levels).expr env e) machine
      fun value after => after = machine ∧ value.Is e.checkedTy ∧
        Run.FactsHold memory (facts.given value.isTrue) :=
  eval_plain plain noted (fun _ _ holds => holds.2.1) fun levels =>
    h run refines levels env memory machine agrees

end Sound

/-! ## What a check without an error shows -/

end Expr

/-- Whether a name can be read: it is visible, has a value, and is not the one whose initial value is
being checked. -/
structure Analyzer.Reads (analyzer : Analyzer) (ident : String) (ref : SymbolRef) : Prop where
  found : analyzer.lookup? ident = some ref
  ready : (analyzer.symbol ref).initializing = false
  assigned : ref ∉ analyzer.flow.unassigned

/-- What a check without an error shows of an expression without effects, in a state that it leaves as
it was. -/
structure Expr.Told (e : Expr) (analyzer : Analyzer) (facts : Branches) : Prop where
  plain : e.note.widen = false
  /-- A name that is the whole expression can be read. -/
  reads : ∀ note ident, e = .name note ident →
    ∃ ref, analyzer.Reads ident ref ∧ note.ty = some (analyzer.typeOf ref)
  assigns : e.assignedNames = []
  operates : e.Each Node.Operates
  fine : ∀ truth, analyzer.Fine (facts.given truth)
  sound : e.Sound analyzer facts

/-- An operand, widened if it is a whole number and the result a double. -/
def Expr.widenedFor (res : Ty) (operand : Expr) : Expr :=
  if res = .float then operand.withWiden (operand.checkedTy = .int) else operand

theorem Expr.operates_withWiden (widen : Bool) (e : Expr) :
    (Node.expr (e.withWiden widen)).Operates ↔ (Node.expr e).Operates := by
  cases e with
  | unary note op operand => cases op <;> rfl
  | _ => rfl

theorem Expr.assignedNames_withWiden (widen : Bool) (e : Expr) :
    (e.withWiden widen).assignedNames = e.assignedNames := by
  cases e <;> rfl

/-- Operands of a result that is a double are numbers. -/
theorem BinaryOp.Typed.numeric {op : BinaryOp} {left right : Ty} (h : op.Typed left right .float) :
    left.isNumeric = true ∧ right.isNumeric = true := by
  generalize eq : Ty.float = res at h
  cases h <;> first | cases eq | exact ⟨‹_›, ‹_›⟩

namespace Expr.Told

variable {a : Analyzer} {e left right operand value : Expr} {facts first second : Branches}
  {note : Note} {ty : Ty}

/-- Nothing has to be told. -/
theorem silent (h : e.Told a facts) : e.Told a {} :=
  ⟨h.plain, h.reads, h.assigns, h.operates, fun truth => by rw [Branches.given_empty]; exact .empty,
    h.sound.silent⟩

/-- A test tells more. -/
theorem withFacts (h : e.Told a {}) (fine : ∀ truth, a.Fine (facts.given truth))
    (sound : e.Sound a facts) : e.Told a facts :=
  ⟨h.plain, h.reads, h.assigns, h.operates, fine, sound⟩

/-- An expression that tells nothing. -/
theorem of_silent (plain : e.note.widen = false)
    (reads : ∀ note ident, e = .name note ident →
      ∃ ref, a.Reads ident ref ∧ note.ty = some (a.typeOf ref))
    (assigns : e.assignedNames = []) (operates : e.Each Node.Operates)
    (sound : ∀ (run : Run), a.Refines run.later → ∀ levels env memory machine,
      run.Agrees a env memory machine.heap →
      Run.Meets ((run.evaluator levels).evaluate run.setup.host env e) machine
        fun value after => after = machine ∧ value.Is e.checkedTy) : e.Told a {} := by
  refine ⟨plain, reads, assigns, operates, fun truth => by rw [Branches.given_empty]; exact .empty, ?_⟩
  intro run refines levels env memory machine agrees
  refine (sound run refines levels env memory machine agrees).mono ?_
  rintro value after ⟨same, is⟩
  exact ⟨same, is, by rw [Branches.given_empty]; exact .empty⟩

/-! ## Literals and names -/

theorem literal {value : Literal} (plain : note.widen = false) (noted : note.ty = some ty)
    (typed : (Value.ofLiteral value).hasType {} ty = true) :
    (Expr.literal note value).Told a {} := by
  have leaf : (Expr.literal note value).nodes = [.expr (.literal note value)] := by simp only [nodes]
  refine of_silent plain (by rintro _ _ ⟨⟩) rfl ((each_leaf leaf).mpr trivial) ?_
  intro run _ levels env memory machine _
  rw [checkedTy_eq (e := .literal note value) noted]
  exact .pure ⟨rfl, .ofLiteral typed⟩

/-- A name that can be read has the value that it is bound to. -/
theorem read_meets {ident : String} {ref : SymbolRef} (reads : a.Reads ident ref)
    (regular : a.Regular) (known : a.typeOf ref ≠ .unknown) {run : Run}
    (refines : a.Refines run.later) {env : Environment} {memory : Memory}
    {machine : Machine} (agrees : run.Agrees a env memory machine.heap)
    (pos : Option Position) :
    Run.Meets (Eval.read env ident pos) machine fun value after => after = machine ∧
      value.Is (a.typeOf ref) ∧ memory.cell ref = some (some value) := by
  obtain ⟨value, bound, is⟩ :=
    agrees.has_value regular refines reads.found reads.ready reads.assigned known
  refine .get ?_
  rw [(agrees.mirrors.locate reads.found bound).1]
  exact .pure ⟨rfl, is, bound⟩

theorem name {ident : String} {ref : SymbolRef} (regular : a.Regular)
    (plain : note.widen = false) (reads : a.Reads ident ref)
    (noted : note.ty = some (a.typeOf ref)) (known : a.typeOf ref ≠ .unknown) :
    (Expr.name note ident).Told a {} := by
  have leaf : (Expr.name note ident).nodes = [.expr (.name note ident)] := by simp only [nodes]
  refine of_silent plain ?_ rfl ((each_leaf leaf).mpr trivial) ?_
  · rintro _ _ ⟨⟩
    exact ⟨ref, reads, noted⟩
  · intro run refines levels env memory machine agrees
    rw [checkedTy_eq (e := .name note ident) noted]
    refine (read_meets reads regular known refines agrees _).mono ?_
    rintro value after ⟨same, is, -⟩
    exact ⟨same, is⟩

/-! ## Operators -/

theorem widenedFor (h : operand.Told a facts) (res : Ty) :
    (operand.widenedFor res).Each Node.Operates ∧
      (operand.widenedFor res).assignedNames = [] ∧ (operand.widenedFor res).Sound a facts := by
  unfold Expr.widenedFor
  split
  · refine ⟨h.operates.withNote ?_, ?_, h.sound.withWiden _⟩
    · exact (operates_withWiden _ operand).mpr h.operates.own
    · rw [assignedNames_withWiden, h.assigns]
  · exact ⟨h.operates, h.assigns, h.sound⟩

/-- The type to which an operand is brought. -/
theorem valueTy?_widenedFor (h : operand.Told a facts) (checked : operand.Checked) {res : Ty}
    (numeric : res = .float → operand.checkedTy.isNumeric = true) :
    (operand.widenedFor res).valueTy? = some (res.operand operand.checkedTy) := by
  unfold Expr.widenedFor Ty.operand
  split
  · rename_i float
    have numeric := numeric float
    by_cases whole : operand.checkedTy = .int
    · rw [valueTy?, ty_withWiden, checked.ty_eq, whole]
      simp [withWiden, Ty.widened]
    · have double : operand.checkedTy = .float := by
        cases eq : operand.checkedTy <;> rw [eq] at numeric whole <;>
          first | rfl | exact absurd rfl whole | cases numeric
      rw [valueTy?, ty_withWiden, checked.ty_eq, double]
      simp [withWiden]
  · rw [valueTy?, h.plain, checked.ty_eq]
    rfl

theorem ty_widenedFor (checked : operand.Checked) (res : Ty) :
    (operand.widenedFor res).ty = some (operand.widenedFor res).checkedTy := by
  unfold Expr.widenedFor
  split
  · have noted := ty_withWiden (operand.checkedTy = .int) operand
    rw [checked.ty_eq] at noted
    rw [noted, checkedTy_eq noted]
  · exact checked.ty_eq

/-- An operator on operands of the right types gives a value of the noted type. -/
theorem binary {op : BinaryOp} (plain : note.widen = false) (noted : note.ty = some ty)
    (one : left.Told a {}) (oneChecked : left.Checked) (two : right.Told a {})
    (twoChecked : right.Checked) (rule : op.Typed left.checkedTy right.checkedTy ty) :
    (Expr.binary note op (left.widenedFor ty) (right.widenedFor ty)).Told a {} := by
  obtain ⟨leftOperates, leftAssigns, leftSound⟩ := one.widenedFor ty
  obtain ⟨rightOperates, rightAssigns, rightSound⟩ := two.widenedFor ty
  have leftTy := one.valueTy?_widenedFor oneChecked fun (float : ty = .float) =>
    (float ▸ rule).numeric.1
  have rightTy := two.valueTy?_widenedFor twoChecked fun (float : ty = .float) =>
    (float ▸ rule).numeric.2
  have own (l r : Value) (machine : Machine) (isLeft : l.Is (ty.operand left.checkedTy))
      (isRight : r.Is (ty.operand right.checkedTy)) : op.Gives l r note.position machine ty :=
    rule.meets isLeft isRight
  refine of_silent plain (by rintro _ _ ⟨⟩) ?_ (each_binary.mpr ⟨?_, leftOperates, rightOperates⟩) ?_
  · unfold assignedNames at leftAssigns rightAssigns ⊢
    rw [nodes, List.filterMap_cons_none rfl, List.filterMap_append, leftAssigns, rightAssigns]
    rfl
  · intro first second isFirst isSecond l r machine isLeft isRight
    rw [leftTy] at isFirst
    rw [rightTy] at isSecond
    cases isFirst
    cases isSecond
    exact ⟨ty, noted, own l r machine isLeft isRight⟩
  · intro run refines levels env memory machine agrees
    rw [checkedTy_eq (e := Expr.binary note op (left.widenedFor ty) (right.widenedFor ty)) noted]
    refine .bind (leftSound.eval (ty_widenedFor oneChecked ty) refines agrees) ?_
    rintro l _ ⟨rfl, found, isFound, isLeft⟩
    rw [leftTy] at isFound
    cases isFound
    refine .bind (rightSound.eval (ty_widenedFor twoChecked ty) refines agrees) ?_
    rintro r _ ⟨rfl, found, isFound, isRight⟩
    rw [rightTy] at isFound
    cases isFound
    exact (own l r _ isLeft isRight).allow fun _ _ stops => stops.isExpected

/-- The negative of a number has the type of the number. -/
theorem negation (plain : note.widen = false) (noted : note.ty = some operand.checkedTy)
    (told : operand.Told a {}) (checked : operand.Checked)
    (numeric : operand.checkedTy.isNumeric = true) :
    (Expr.unary note .neg operand).Told a {} := by
  have valueTy : operand.valueTy? = some operand.checkedTy := by
    rw [valueTy?, told.plain, checked.ty_eq]
    rfl
  refine of_silent plain (by rintro _ _ ⟨⟩) ?_ (each_unary.mpr ⟨?_, told.operates⟩) ?_
  · rw [assignedNames, nodes, List.filterMap_cons_none rfl]
    exact told.assigns
  · intro ty typed value is
    rw [valueTy] at typed
    cases typed
    obtain ⟨negated, eq, isNegated⟩ := is.neg numeric
    exact ⟨_, negated, noted, eq, isNegated⟩
  · intro run refines levels env memory machine agrees
    rw [checkedTy_eq (e := Expr.unary note .neg operand) noted]
    refine .bind (told.sound.decide told.plain checked.ty_eq refines agrees) ?_
    rintro value _ ⟨rfl, is, -⟩
    obtain ⟨negated, eq, isNegated⟩ := is.neg numeric
    rw [Eval.unary, eq]
    exact .pure ⟨rfl, isNegated⟩

theorem typeTest {written : TypeExpr} {target : Option Ty} (plain : note.widen = false)
    (noted : note.ty = some .bool) (told : value.Told a {}) (checked : value.Checked) :
    (Expr.is note value written target).Told a {} := by
  refine of_silent plain (by rintro _ _ ⟨⟩) ?_ (each_is.mpr ⟨trivial, told.operates⟩) ?_
  · rw [assignedNames, nodes, List.filterMap_cons_none rfl]
    exact told.assigns
  · intro run refines levels env memory machine agrees
    rw [checkedTy_eq (e := Expr.is note value written target) noted]
    refine .bind (told.sound.decide told.plain checked.ty_eq refines agrees) ?_
    rintro found _ ⟨rfl, -, -⟩
    exact .get (.pure ⟨rfl, .bool _⟩)

/-- An unwrapped value that is not nil has the type inside. -/
theorem unwrap (plain : note.widen = false) (noted : note.ty = some ty) (told : value.Told a {})
    (checked : value.Checked) (nilable : value.checkedTy = .nilable ty) :
    (Expr.unwrap note value).Told a {} := by
  refine of_silent plain (by rintro _ _ ⟨⟩) ?_ (each_unwrap.mpr ⟨trivial, told.operates⟩) ?_
  · rw [assignedNames, nodes, List.filterMap_cons_none rfl]
    exact told.assigns
  · intro run refines levels env memory machine agrees
    rw [checkedTy_eq (e := Expr.unwrap note value) noted]
    refine .bind (told.sound.decide told.plain checked.ty_eq refines agrees) ?_
    rintro found _ ⟨rfl, is, -⟩
    rw [nilable] at is
    cases found with
    | nil => exact .fault rfl
    | _ => exact .pure ⟨rfl, is.of_nilable.resolve_left (by rintro ⟨⟩)⟩

/-! ## Logical operations -/

/-- A negated test tells the opposite. -/
theorem not (plain : note.widen = false) (noted : note.ty = some .bool)
    (told : operand.Told a facts) (checked : operand.Checked) :
    (Expr.unary note .not operand).Told a ⟨facts.whenFalse, facts.whenTrue⟩ := by
  refine ⟨plain, by rintro _ _ ⟨⟩, ?_, each_unary.mpr ⟨trivial, told.operates⟩, fun truth => ?_, ?_⟩
  · rw [assignedNames, nodes, List.filterMap_cons_none rfl]
    exact told.assigns
  · have fine := told.fine (!truth)
    cases truth <;> exact fine
  · intro run refines levels env memory machine agrees
    rw [checkedTy_eq (e := Expr.unary note .not operand) noted]
    refine .bind (told.sound.decide told.plain checked.ty_eq refines agrees) ?_
    rintro value _ ⟨rfl, -, hold⟩
    refine .pure ⟨rfl, .bool _, ?_⟩
    cases truth : value.isTrue <;> rw [truth] at hold <;> exact hold

/-- A logical operation. The left operand decides alone, or the right one is evaluated where the facts
of the left one are known. -/
theorem logical {op : LogicalOp} (plain : note.widen = false) (noted : note.ty = some .bool)
    (one : left.Told a first) (oneChecked : left.Checked)
    (two : right.Told { a with flow := a.flow.apply (first.given op.neutral) } second)
    (twoChecked : right.Checked) (bool : right.checkedTy = .bool) :
    (Expr.logical note op left right).Told a (op.facts first second) := by
  refine ⟨plain, by rintro _ _ ⟨⟩, ?_, each_logical.mpr ⟨trivial, one.operates, two.operates⟩, ?_, ?_⟩
  · have leftAssigns := one.assigns
    have rightAssigns := two.assigns
    unfold assignedNames at leftAssigns rightAssigns ⊢
    rw [nodes, List.filterMap_cons_none rfl, List.filterMap_append, leftAssigns, rightAssigns]
    rfl
  · intro truth
    by_cases same : truth = op.neutral
    · rw [same, op.given_neutral]
      exact (one.fine _).overlay (two.fine _)
    · rw [Bool.eq_not.mpr same, op.given_not_neutral]
      exact (one.fine _).of_subset fun _ mem => (Facts.mem_of_mem_common mem).1
  · intro run refines levels env memory machine agrees
    rw [checkedTy_eq (e := Expr.logical note op left right) noted]
    refine .bind (one.sound.decide one.plain oneChecked.ty_eq refines agrees) ?_
    rintro value machine ⟨rfl, -, hold⟩
    -- only the facts of both outcomes are told, and the left operand gives them alone
    have decided (truth : value.isTrue = !op.neutral) : (Value.bool !op.neutral).Is .bool ∧
        Run.FactsHold memory ((op.facts first second).given (!op.neutral)) := by
      rw [truth] at hold
      rw [op.given_not_neutral]
      exact ⟨.bool _, hold.of_subset fun _ mem => (Facts.mem_of_mem_common mem).1⟩
    have undecided (truth : value.isTrue = op.neutral) :
        Run.Meets ((run.evaluator levels).expr env right) machine fun res after =>
          after = machine ∧ res.Is .bool ∧
            Run.FactsHold memory ((op.facts first second).given res.isTrue) := by
      rw [truth] at hold
      refine (two.sound.decide two.plain twoChecked.ty_eq refines (agrees.apply hold)).mono ?_
      rintro res _ ⟨rfl, is, holdRight⟩
      refine ⟨rfl, bool ▸ is, ?_⟩
      by_cases same : res.isTrue = op.neutral
      · rw [same, op.given_neutral]
        rw [same] at holdRight
        exact hold.overlay holdRight
      · rw [Bool.eq_not.mpr same, op.given_not_neutral]
        rw [Bool.eq_not.mpr same] at holdRight
        exact holdRight.of_subset fun _ mem => (Facts.mem_of_mem_common mem).2
    -- `and` goes on after true and `or` after false
    cases op <;> cases truth : value.isTrue
    · exact .pure ⟨rfl, decided truth⟩
    · exact undecided truth
    · exact undecided truth
    · exact .pure ⟨rfl, decided truth⟩

/-! ## Tests -/

section Tests

variable {ident : String} {ref : SymbolRef} {run : Run} {levels : Nat} {env : Environment}
  {memory : Memory} {machine : Machine}

/-- The value of a name is the one that it is bound to. -/
theorem name_meets (told : (Expr.name note ident).Told a {})
    (checked : (Expr.name note ident).Checked) (regular : a.Regular)
    (found : a.lookup? ident = some ref) (refines : a.Refines run.later)
    (agrees : run.Agrees a env memory machine.heap) :
    Run.Meets ((run.evaluator levels).expr env (.name note ident)) machine
      fun value after => after = machine ∧ value.Is (a.typeOf ref) ∧
        memory.cell ref = some (some value) := by
  obtain ⟨other, reads, noted⟩ := told.reads note ident rfl
  obtain rfl : other = ref := Option.some.inj (reads.found.symm.trans found)
  have known : a.typeOf other ≠ .unknown := by
    rw [← checkedTy_eq (e := .name note ident) noted]
    exact checked.determined.2
  exact eval_plain (e := .name note ident) told.plain noted (fun _ _ holds => holds.2.1) fun levels =>
    read_meets reads regular known refines agrees _

theorem nil_meets (told : e.Told a {}) (checked : e.Checked) (isNil : e.isNil = true)
    (refines : a.Refines run.later)
    (agrees : run.Agrees a env memory machine.heap) :
    Run.Meets ((run.evaluator levels).expr env e) machine
      fun value after => after = machine ∧ value.Is e.checkedTy ∧ value = .nil := by
  refine eval_plain told.plain checked.ty_eq (fun _ _ holds => holds.2.1) fun levels => ?_
  have sound := told.sound run refines levels env memory machine agrees
  cases e with
  | literal note value =>
    cases value with
    | nil => exact .pure ⟨rfl, sound.2.1, rfl⟩
    | _ => cases isNil
  | _ => cases isNil

/-- What a test for equality comes to. -/
theorem equality_meets {op : BinaryOp} (equality : op.isEquality = true) (left right : Value)
    (pos : Position) :
    Run.Meets (Eval.binary op left right pos) machine fun value after =>
      after = machine ∧ value.Is .bool ∧
        (value.isTrue = decide (op = .ne) ↔ left.equal right = false) := by
  cases op <;> first | cases equality
  · exact ⟨rfl, .bool _, Iff.rfl⟩
  · refine ⟨rfl, .bool _, ?_⟩
    cases equal : left.equal right <;> simp [Value.isTrue]

/-- A test of a variable against `nil`. -/
theorem nilTest {op : BinaryOp} {inner : Ty} (told : (Expr.binary note op left right).Told a {})
    (noted : note.ty = some .bool) (equality : op.isEquality = true) (regular : a.Regular)
    (one : left.Told a {}) (oneChecked : left.Checked) (two : right.Told a {})
    (twoChecked : right.Checked)
    (sides : (∃ note, left = .name note ident) ∧ right.isNil = true ∨
      left.isNil = true ∧ ∃ note, right = .name note ident)
    (found : a.lookup? ident = some ref) (nilable : a.typeOf ref = .nilable inner) :
    (Expr.binary note op left right).Told a (.ofNil op ref inner) := by
  have old := (regular.wellFormed.lookup? found).2.1
  have canonical := regular.consistent.typed.typeOf ref
  rw [nilable] at canonical
  refine told.withFacts (fun truth => ?_) ?_
  · rw [Branches.given_ofNil]
    split
    · exact .single old canonical.determined_inner.1
    · exact .single old rfl
  · intro run refines levels env memory machine agrees
    rw [checkedTy_eq (e := .binary note op left right) noted]
    -- the variable is `nil` exactly if the test comes out that way
    have tells (value tested : Value) (is : tested.Is (.nilable inner))
        (bound : memory.cell ref = some (some tested))
        (came : value.isTrue = decide (op = .ne) ↔ tested ≠ .nil) :
        Run.FactsHold memory ((Branches.ofNil op ref inner).given value.isTrue) := by
      rw [Branches.given_ofNil]
      split
      · rename_i truth
        exact .single bound (is.of_nilable.resolve_left (came.mp truth))
      · rename_i truth
        have isNil : tested = .nil := Classical.byContradiction fun notNil => truth (came.mpr notNil)
        exact .single bound (isNil ▸ .nil rfl)
    rcases sides with ⟨⟨_, rfl⟩, isNil⟩ | ⟨isNil, _, rfl⟩
    · refine .bind (name_meets one oneChecked regular found refines agrees) ?_
      rintro tested machine ⟨rfl, is, bound⟩
      refine .bind (nil_meets two twoChecked isNil refines agrees) ?_
      rintro _ machine ⟨rfl, -, rfl⟩
      refine (equality_meets equality tested .nil _).mono ?_
      rintro value machine ⟨rfl, isBool, truth⟩
      rw [Value.equal_nil] at truth
      exact ⟨rfl, isBool, tells value tested (nilable ▸ is) bound truth⟩
    · refine .bind (nil_meets one oneChecked isNil refines agrees) ?_
      rintro _ machine ⟨rfl, -, rfl⟩
      refine .bind (name_meets two twoChecked regular found refines agrees) ?_
      rintro tested machine ⟨rfl, is, bound⟩
      refine (equality_meets equality .nil tested _).mono ?_
      rintro value machine ⟨rfl, isBool, truth⟩
      rw [Value.nil_equal] at truth
      exact ⟨rfl, isBool, tells value tested (nilable ▸ is) bound truth⟩

/-- A type test of a variable. -/
theorem isTest {named : Note} {written : TypeExpr} {target : Ty}
    (told : (Expr.is note (.name named ident) written (some target)).Told a {})
    (noted : note.ty = some .bool) (regular : a.Regular)
    (one : (Expr.name named ident).Told a {}) (checked : (Expr.name named ident).Checked)
    (found : a.lookup? ident = some ref) (canonical : target.Canonical) :
    (Expr.is note (.name named ident) written (some target)).Told a
      (.ofType ref target (a.typeOf ref)) := by
  have old := (regular.wellFormed.lookup? found).2.1
  have current := regular.consistent.typed.typeOf ref
  refine told.withFacts (fun truth => ?_) ?_
  · rcases Branches.given_ofType ref target (a.typeOf ref) truth with none | ⟨ty, some, src⟩
    · rw [none]
      exact .empty
    · rw [some]
      rcases src with ⟨-, rfl⟩ | ⟨-, -, rfl⟩ | ⟨-, nilable, -⟩
      · exact .single old canonical
      · exact .single old rfl
      · rw [nilable] at current
        exact .single old current.determined_inner.1
  · intro run refines levels env memory machine agrees
    rw [checkedTy_eq (e := .is note (.name named ident) written (some target)) noted]
    refine .bind (name_meets one checked regular found refines agrees) ?_
    rintro tested machine ⟨rfl, is, bound⟩
    refine .get (.pure ⟨rfl, .bool _, ?_⟩)
    change Run.FactsHold memory (Branches.given _ (tested.hasType machine.heap target))
    rcases Branches.given_ofType ref target (a.typeOf ref) (tested.hasType machine.heap target)
      with none | ⟨ty, some, src⟩
    · rw [none]
      exact .empty
    · rw [some]
      refine .single bound ?_
      rcases src with ⟨truth, rfl⟩ | ⟨truth, nilable, rfl⟩ | ⟨truth, nilable, rfl⟩
      · exact .of_hasType is.plain truth
      · rw [nilable] at is
        -- a nilable value that fails the test of its inner type is nil
        have isNil : tested = .nil := is.of_nilable.resolve_right fun inside => by
          rw [inside.typed] at truth
          cases truth
        exact isNil ▸ .nil rfl
      · rw [nilable] at is
        refine is.of_nilable.resolve_left ?_
        rintro rfl
        cases truth

end Tests

end Expr.Told

end FlowScript
