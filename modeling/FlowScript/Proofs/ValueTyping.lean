import FlowScript.Proofs.Annotation
import FlowScript.Proofs.EvalLogic
/-!
# Values of a type

How the values of a type flow into other types and what operators make of them.  The values are those
that are no instances of structs: their type does not depend on the heap.

Main statements: a value of a type is of every type that it may flow into (`Value.Is.coerce`), and an
operator on operands of the right types gives a value of its type, or stops for one of the reasons that
`BinaryOp.Stops` lists (`BinaryOp.Typed.meets`).
-/

namespace FlowScript

/-! ## Types -/

/-- Induction on how often `nil` was added to a type. -/
theorem Ty.nilableInduction {motive : Ty → Prop} (nilable : ∀ inner, motive inner → motive (.nilable inner))
    (plain : ∀ ty, (∀ inner, ty ≠ .nilable inner) → motive ty) : ∀ ty, motive ty
  | .nilable inner => nilable inner (nilableInduction nilable plain inner)
  | .int | .float | .bool | .string | .nil | .unknown | .any | .error | .struct _ | .trait _
  | .function .. => plain _ (by rintro _ ⟨⟩)

/-- What flows into a type without `nil`. -/
theorem Ty.coerce?_of_plain (conforms : String → String → Bool) (src : Ty) {target : Ty}
    (notNilable : ∀ inner, target ≠ .nilable inner) :
    Ty.coerce? conforms src target =
      if src.isError ∨ target.isError ∨ target = .any ∨ src = target then some .exact
      else
        match src, target with
        | .int, .float => some .widening
        | .struct name, .trait traitName => if conforms name traitName then some .exact else none
        | _, _ => none := by
  cases target <;> first | rfl | exact absurd rfl (notNilable _)

theorem Ty.eq_error : ∀ {ty : Ty}, ty.isError = true → ty = .error
  | .error, _ => rfl

/-! ## Values -/

namespace Value

variable {heap : Heap} {value : Value} {ty : Ty}

/-- The type of a value that is no instance does not depend on the heap. -/
theorem hasType_eq (plain : ∀ id, value ≠ .instance id) (heap other : Heap) (ty : Ty) :
    value.hasType heap ty = value.hasType other ty := by
  induction ty using Ty.nilableInduction with
  | nilable inner ih => cases value <;> simp only [hasType, ih]
  | plain ty notNilable =>
    cases ty with
    | nilable inner => exact absurd rfl (notNilable inner)
    | _ => cases value <;> first | rfl | exact absurd rfl (plain _)

/-- A value that is not `nil` is of a nilable type if it is of the type inside. -/
theorem hasType_nilable (notNil : value ≠ .nil) :
    value.hasType heap (.nilable ty) = value.hasType heap ty := by
  cases value <;> first | rfl | exact absurd rfl notNil

theorem Number.toFloat_eq_error {number : Number} {reason : Failure}
    (h : number.toFloat = .error reason) : reason = .tooLarge := by
  unfold Number.toFloat at h
  split at h
  · split at h <;> cases h
    rfl
  · cases h

/-- A widened whole number is a double, and every other value stays. -/
theorem widen_eq_ok {wide : Value} (h : value.widen = .ok wide) :
    ((∃ n, value = .int n) ∧ ∃ x, wide = .float x) ∨ ((∀ n, value ≠ .int n) ∧ wide = value) := by
  cases value with
  | int n =>
    rw [widen] at h
    cases found : (Number.int n).toFloat <;> rw [found] at h <;> cases h
    exact .inl ⟨⟨n, rfl⟩, _, rfl⟩
  | _ =>
    cases h
    exact .inr ⟨by rintro _ ⟨⟩, rfl⟩

/-- Widening fails on whole numbers without a double near them only. -/
theorem widen_eq_error {reason : Failure} (h : value.widen = .error reason) :
    reason = .tooLarge := by
  cases value with
  | int n =>
    rw [widen] at h
    cases found : (Number.int n).toFloat <;> rw [found] at h <;> cases h
    exact Number.toFloat_eq_error found
  | _ => cases h

/-- A widened value has the widened type. -/
theorem hasType_widen {wide : Value} (typed : value.hasType heap ty = true)
    (widens : value.widen = .ok wide) : wide.hasType heap ty.widened = true := by
  rcases widen_eq_ok widens with ⟨⟨n, rfl⟩, x, rfl⟩ | ⟨other, rfl⟩
  · induction ty using Ty.nilableInduction with
    | nilable inner ih => exact ih typed
    | plain ty notNilable => cases ty <;> first | rfl | cases typed | exact absurd rfl (notNilable _)
  · induction ty using Ty.nilableInduction with
    | nilable inner ih =>
      by_cases isNil : wide = .nil
      · rw [isNil]
        rfl
      · rw [hasType_nilable isNil] at typed
        rw [Ty.widened, hasType_nilable isNil]
        exact ih typed
    | plain ty notNilable =>
      cases ty with
      | nilable inner => exact absurd rfl (notNilable inner)
      | int => cases wide <;> first | exact absurd rfl (other _) | cases typed
      | _ => exact typed

/-- Whether a value is of a type, and no instance of a struct. -/
structure Is (value : Value) (ty : Ty) : Prop where
  plain : ∀ id, value ≠ .instance id
  typed : ∀ heap, value.hasType heap ty = true

namespace Is

/-- A value of a type in one heap is of that type. -/
theorem of_hasType (plain : ∀ id, value ≠ .instance id) (typed : value.hasType heap ty = true) :
    value.Is ty :=
  ⟨plain, fun other => (hasType_eq plain other heap ty).trans typed⟩

theorem ofLiteral {literal : Literal} (typed : (Value.ofLiteral literal).hasType {} ty = true) :
    (Value.ofLiteral literal).Is ty :=
  of_hasType (by cases literal <;> rintro _ ⟨⟩) typed

theorem int (n : Int) : (Value.int n).Is .int := ⟨by rintro _ ⟨⟩, fun _ => rfl⟩

theorem float (x : Float) : (Value.float x).Is .float := ⟨by rintro _ ⟨⟩, fun _ => rfl⟩

theorem bool (truth : Bool) : (Value.bool truth).Is .bool := ⟨by rintro _ ⟨⟩, fun _ => rfl⟩

theorem string (text : String) : (Value.string text).Is .string := ⟨by rintro _ ⟨⟩, fun _ => rfl⟩

/-- A host function is of every function type. -/
theorem host (name : String) (params : List Ty) (res : Ty) :
    (Value.host name).Is (.function params res) :=
  ⟨by rintro _ ⟨⟩, fun _ => rfl⟩

/-- `nil` is of its own type and of nilable ones. -/
theorem nil (nilable : ty.isNilable = true) : Value.nil.Is ty :=
  ⟨by rintro _ ⟨⟩, fun _ => by cases ty <;> first | rfl | cases nilable⟩

/-- No value has a type that is not known. -/
theorem ne_unknown (h : value.Is ty) : ty ≠ .unknown := by
  rintro rfl
  exact absurd (h.typed {}) Bool.false_ne_true

/-- Nothing is of the type of a reported problem. -/
theorem ne_error (h : value.Is ty) : ty.isError = false := by
  cases ty <;> first | rfl | exact absurd (h.typed {}) Bool.false_ne_true

theorem widen {wide : Value} (h : value.Is ty) (widens : value.widen = .ok wide) :
    wide.Is ty.widened := by
  refine ⟨fun id same => ?_, fun heap => hasType_widen (h.typed heap) widens⟩
  rcases widen_eq_ok widens with ⟨-, x, rfl⟩ | ⟨-, rfl⟩
  · cases same
  · exact h.plain id same

theorem orNil (h : value.Is ty) : value.Is (.nilable ty) := by
  refine ⟨h.plain, fun heap => ?_⟩
  cases value <;> first | rfl | exact h.typed heap

theorem eq_nil (h : value.Is .nil) : value = .nil := by
  have typed := h.typed {}
  cases value <;> first | rfl | cases typed

/-- A whole number is a bound of a range. -/
theorem index (h : value.Is .int) : ∃ n, value.index = .ok n := by
  have typed := h.typed {}
  cases value <;> first | exact ⟨_, rfl⟩ | cases typed

/-- A value of a nilable type is `nil`, or of the type inside. -/
theorem of_nilable (h : value.Is (.nilable ty)) : value = .nil ∨ value.Is ty := by
  by_cases isNil : value = .nil
  · exact .inl isNil
  · exact .inr ⟨h.plain, fun heap => (hasType_nilable isNil).symm.trans (h.typed heap)⟩

theorem inner (h : value.Is ty) : value = .nil ∨ value.Is ty.inner := by
  cases ty with
  | nilable inner => exact h.of_nilable
  | _ => exact .inr h

/-- A value of a type is of every canonical type that it may flow into; if it is to be widened, once it
is. -/
theorem coerce {conforms : String → String → Bool} {src target : Ty} {coercion : Ty.Coercion}
    (flows : Ty.coerce? conforms src target = some coercion) (canonical : target.Canonical)
    (h : value.Is (if coercion = .widening then src.widened else src)) : value.Is target := by
  have notError : src.isError = false := by
    have ne := h.ne_error
    split at ne
    · cases src <;> first | rfl | cases ne
    · exact ne
  -- `nil` is taken off both types at once, until the target lacks it
  induction target using Ty.nilableInduction generalizing src with
  | nilable target ih =>
    rw [Ty.coerce?] at flows
    split at flows
    · rename_i direct
      cases flows
      rw [if_neg (by rintro ⟨⟩)] at h
      rcases direct with error | rfl | rfl
      · rw [notError] at error
        cases error
      · exact h
      · rw [h.eq_nil]
        exact .nil rfl
    · -- the value is `nil`, or it is of the source without `nil`, which flows into the rest of the target
      have inside : value = .nil ∨ value.Is
          (if coercion = .widening then src.inner.widened else src.inner) := by
        cases coercion with
        | exact => exact h.inner
        | widening =>
          cases src with
          | nilable _ => exact of_nilable h
          | _ => exact .inr h
      rcases inside with rfl | inside
      · exact .nil rfl
      · refine (ih flows canonical.determined_inner.1 inside ?_).orNil
        have ne := inside.ne_error
        split at ne
        · cases eq : src.inner <;> first | rfl | (rw [eq] at ne; cases ne)
        · exact ne
  | plain target notNilable =>
    rw [Ty.coerce?_of_plain conforms src notNilable] at flows
    split at flows
    · rename_i direct
      cases flows
      rw [if_neg (by rintro ⟨⟩)] at h
      rcases direct with error | error | rfl | rfl
      · rw [notError] at error
        cases error
      · rw [Ty.eq_error error] at canonical
        cases canonical
      · exact ⟨h.plain, fun _ => rfl⟩
      · exact h
    · split at flows
      · cases flows
        exact h
      · -- only instances are of the type of a struct
        split at flows
        · cases flows
          have typed := h.typed {}
          cases value <;> first | cases typed | exact absurd rfl (h.plain _)
        · cases flows
      · cases flows

theorem int_cases (h : value.Is .int) : ∃ n, value = .int n := by
  have typed := h.typed {}
  cases value <;> first | exact ⟨_, rfl⟩ | cases typed

theorem float_cases (h : value.Is .float) : ∃ x, value = .float x := by
  have typed := h.typed {}
  cases value <;> first | exact ⟨_, rfl⟩ | cases typed

theorem string_cases (h : value.Is .string) : ∃ text, value = .string text := by
  have typed := h.typed {}
  cases value <;> first | exact ⟨_, rfl⟩ | cases typed

theorem number_cases (h : value.Is ty) (numeric : ty.isNumeric = true) :
    ∃ number, value.number? = some number := by
  cases ty with
  | int =>
    obtain ⟨n, rfl⟩ := h.int_cases
    exact ⟨_, rfl⟩
  | float =>
    obtain ⟨x, rfl⟩ := h.float_cases
    exact ⟨_, rfl⟩
  | _ => cases numeric

/-- The negative of a number is a number of the same type. -/
theorem neg (h : value.Is ty) (numeric : ty.isNumeric = true) :
    ∃ negated, value.neg = .ok negated ∧ negated.Is ty := by
  cases ty with
  | int =>
    obtain ⟨n, rfl⟩ := h.int_cases
    exact ⟨.int (-n), rfl, .int _⟩
  | float =>
    obtain ⟨x, rfl⟩ := h.float_cases
    exact ⟨.float (-x), rfl, .float _⟩
  | _ => cases numeric

end Is

/-- The remainder of a division of doubles. -/
theorem float_mod (x y : Float) : mod (.float x) (.float y) =
    (Binary64.remainder? x y).elim (.error .domain) fun r => .ok (.float r) := by
  have first : toFloat (.float x) = .ok x := rfl
  have second : toFloat (.float y) = .ok y := rfl
  simp only [mod, int?, first, second, Bind.bind, Except.bind]
  cases Binary64.remainder? x y <;> rfl

end Value

/-! ## Operators -/

/-- The stops that a binary operator on operands of its types can come to: a division by zero, and the
remainder of an infinite double. -/
def BinaryOp.Stops (op : BinaryOp) (left : Value) : Stop → Prop
  | .fault .divisionByZero _ => op = .div
  | .fault .moduloByZero _ => op = .mod
  | .failure .domain => op = .mod ∧ ∃ x negative, left = .float x ∧ Binary64.decode x = .infinite negative
  | _ => False

/-- The types of the operands and the result of an operator. -/
inductive BinaryOp.Typed : BinaryOp → (left right result : Ty) → Prop where
  | equality {op : BinaryOp} {left right : Ty} (equality : op.isEquality = true) :
    Typed op left right .bool
  | order {op : BinaryOp} {left right : Ty} (ordering : op.isOrdering = true)
    (first : left.isNumeric = true) (second : right.isNumeric = true) : Typed op left right .bool
  | textOrder {op : BinaryOp} (ordering : op.isOrdering = true) : Typed op .string .string .bool
  | arithmetic {op : BinaryOp} {left right : Ty} (plain : op.isEquality = false)
    (unordered : op.isOrdering = false) (first : left.isNumeric = true)
    (second : right.isNumeric = true) : Typed op left right (left.joinNumeric right)
  | append : Typed .add .string .string .string

/-- The type that an operand is brought to for a result of a type: in mixed arithmetic the whole
number is widened. -/
def Ty.operand (res operand : Ty) : Ty := if res = .float then .float else operand

namespace BinaryOp

variable {op : BinaryOp} {left right : Value} {first second res : Ty}
  {pos : Position} {start : Machine}

/-- Whether an operator on some operands gives a value of a type, or one of its stops. -/
abbrev Gives (op : BinaryOp) (left right : Value) (pos : Position) (start : Machine)
    (res : Ty) : Prop :=
  Eval.Meets (fun stop _ => op.Stops left stop) (Eval.binary op left right pos) start
    fun value after => after = start ∧ value.Is res

theorem gives_int (plain : op.isEquality = false) (unordered : op.isOrdering = false)
    (isLeft : left.Is .int) (isRight : right.Is .int) : op.Gives left right pos start .int := by
  obtain ⟨a, rfl⟩ := isLeft.int_cases
  obtain ⟨b, rfl⟩ := isRight.int_cases
  cases op with
  | add | sub | mul => exact ⟨rfl, .int _⟩
  | div | mod =>
    refine .ite (fun _ => .fault rfl) fun _ => ?_
    exact ⟨rfl, .int _⟩
  | _ => first | exact absurd plain (by decide) | exact absurd unordered (by decide)

/-- Arithmetic on doubles gives a double. -/
theorem gives_float (plain : op.isEquality = false) (unordered : op.isOrdering = false)
    (isLeft : left.Is .float) (isRight : right.Is .float) :
    op.Gives left right pos start .float := by
  obtain ⟨x, rfl⟩ := isLeft.float_cases
  obtain ⟨y, rfl⟩ := isRight.float_cases
  cases op with
  | add | sub | mul => exact ⟨rfl, .float _⟩
  | div =>
    refine .ite (fun _ => .fault rfl) fun _ => ?_
    exact ⟨rfl, .float _⟩
  | mod =>
    refine .ite (fun _ => .fault rfl) fun notZero => ?_
    rw [Value.float_mod]
    cases found : Binary64.remainder? x y with
    | some r => exact ⟨rfl, .float r⟩
    | none =>
      obtain ⟨negative, infinite⟩ :=
        Binary64.infinite_of_remainder?_eq_none found (Bool.eq_false_iff.mpr notZero)
      exact ⟨rfl, x, negative, rfl, infinite⟩
  | _ => first | exact absurd plain (by decide) | exact absurd unordered (by decide)

theorem gives_order (ordering : op.isOrdering = true)
    (ordered : ∃ value, left.ordered op right = .ok (.bool value)) :
    op.Gives left right pos start .bool := by
  have run : Eval.binary op left right pos = Eval.operation (left.ordered op right) := by
    cases op <;> first | rfl | exact absurd ordering (by decide)
  obtain ⟨value, eq⟩ := ordered
  rw [Gives, run, eq]
  exact ⟨rfl, .bool value⟩

/-- An operator on operands of its types gives a value of its type, or one of its stops. -/
theorem Typed.meets (h : op.Typed first second res) (isLeft : left.Is (res.operand first))
    (isRight : right.Is (res.operand second)) : op.Gives left right pos start res := by
  cases h with
  | equality equality =>
    cases op <;> first | exact ⟨rfl, .bool _⟩ | exact absurd equality (by decide)
  | order ordering first second =>
    obtain ⟨a, eq⟩ := isLeft.number_cases first
    obtain ⟨b, eqRight⟩ := isRight.number_cases second
    exact gives_order ordering
      ⟨(a.compare? b).any (Value.accepts op), by simp only [Value.ordered, eq, eqRight]⟩
  | textOrder ordering =>
    obtain ⟨a, rfl⟩ := isLeft.string_cases
    obtain ⟨b, rfl⟩ := isRight.string_cases
    exact gives_order ordering ⟨_, rfl⟩
  | append =>
    obtain ⟨a, rfl⟩ := isLeft.string_cases
    obtain ⟨b, rfl⟩ := isRight.string_cases
    exact ⟨rfl, .string _⟩
  | arithmetic plain unordered numeric other =>
    by_cases float : first.joinNumeric second = .float
    · rw [Ty.operand, if_pos float] at isLeft isRight
      rw [float]
      exact gives_float plain unordered isLeft isRight
    · rw [Ty.operand, if_neg float] at isLeft isRight
      obtain ⟨rfl, rfl⟩ : first = .int ∧ second = .int := by
        cases first <;> first | cases numeric
        all_goals cases second <;> first | cases other
        all_goals first | exact ⟨rfl, rfl⟩ | exact absurd rfl float
      exact gives_int plain unordered isLeft isRight

end BinaryOp

/-! ## Operators in a program -/

/-- Whether a node is no call and no access to a member, and the operator at it, if there is one, gives a
value of the type noted for the node whenever its operands are of the types noted for them, or else one of
the stops of its own. -/
def Node.Operates : Node → Prop
  | .expr (.binary note op left right) => ∀ first second, left.valueTy? = some first →
    right.valueTy? = some second → ∀ (l r : Value) (machine : Machine), l.Is first → r.Is second →
      ∃ res, note.ty = some res ∧ op.Gives l r note.position machine res
  | .expr (.unary note .neg operand) => ∀ ty, operand.valueTy? = some ty → ∀ value : Value, value.Is ty →
    ∃ res negated, note.ty = some res ∧ value.neg = .ok negated ∧ negated.Is res
  | .expr (.call ..) | .expr (.methodCall ..) | .expr (.field ..) | .expr (.assignField ..) => False
  | _ => True

/-- The stops that a checked program can come to: a division by zero, an unwrapped `nil`, a whole
number without a double near it, the remainder of an infinite double, and the limits of the machine. -/
def Stop.isExpected : Stop → Bool
  | .fault .divisionByZero _ | .fault .moduloByZero _ | .fault .unwrappedNil _ => true
  | .failure .tooLarge | .failure .domain | .failure .nesting | .diverged => true
  | _ => false

/-- The stops of operators are expected. -/
theorem BinaryOp.Stops.isExpected {op : BinaryOp} {left : Value} {stop : Stop} (h : op.Stops left stop) :
    stop.isExpected = true := by
  unfold BinaryOp.Stops at h
  split at h <;> first | rfl | cases h

end FlowScript
