import FlowScript.Heap
import FlowScript.Number.Text
/-!
# Operations on values

Arithmetic, comparison and truth of values.  Operands may be of any kind, since a program that was
not checked can bring any together: a truth value counts as the number zero or one, and operands
that do not fit are a failure.
-/

namespace FlowScript

/-- Why an operation has no result. -/
inductive Failure where
  /-- An arithmetic operator does not apply to values of these kinds. -/
  | operands (op : String) (left right : String)
  /-- A value of this kind cannot be appended to a text. -/
  | append (kind : String)
  /-- A text cannot be repeated by a value of this kind. -/
  | repetition (kind : String)
  /-- A text cannot be repeated so often. -/
  | repetitionCount
  /-- A repeated text would be too long. -/
  | repetitionLength
  /-- A value of this kind is no number. -/
  | notReal (kind : String)
  /-- Values of these kinds have no order. -/
  | ordering (op : String) (left right : String)
  | negation (kind : String)
  /-- A value of this kind bounds no range. -/
  | notIndex (kind : String)
  /-- A whole number has no double near it. -/
  | tooLarge
  /-- A remainder is not defined. -/
  | domain
  /-- A whole number has too many digits to be written. -/
  | digits
  /-- Evaluation nests too deep. -/
  | nesting
  deriving DecidableEq, Repr

/-- The text of a failure. -/
def Failure.message : Failure → String
  | .operands op left right => s!"unsupported operand type(s) for {op}: '{left}' and '{right}'"
  | .append kind => s!"can only concatenate str (not \"{kind}\") to str"
  | .repetition kind => s!"can't multiply sequence by non-int of type '{kind}'"
  | .repetitionCount => "cannot fit 'int' into an index-sized integer"
  | .repetitionLength => "repeated string is too long"
  | .notReal kind => s!"must be real number, not {kind}"
  | .ordering op left right =>
    s!"'{op}' not supported between instances of '{left}' and '{right}'"
  | .negation kind => s!"bad operand type for unary -: '{kind}'"
  | .notIndex kind => s!"'{kind}' object cannot be interpreted as an integer"
  | .tooLarge => "int too large to convert to float"
  | .domain => "math domain error"
  | .digits =>
    "Exceeds the limit (" ++ toString digitLimit ++
      " digits) for integer string conversion; use sys.set_int_max_str_digits() to increase the limit"
  | .nesting => "maximum recursion depth exceeded"

namespace Value

/-- The name of a value's kind in failures. -/
def kindName : Value → String
  | .nil => "NoneType"
  | .bool _ => "bool"
  | .int _ => "int"
  | .float _ => "float"
  | .string _ => "str"
  | .instance _ => "StructInstance"
  | .closure _ => "Closure"
  | .method .. => "BoundMethod"
  | .constructor .. => "StructConstructor"
  | .host _ => "HostFunction"

/-- Whether a value counts as true: all but `nil`, `false`, zero and the empty text. -/
def isTrue : Value → Bool
  | .nil => false
  | .bool value => value
  | .int value => value ≠ 0
  | .float value => !(value == 0.0)
  | .string value => value ≠ ""
  | _ => true

/-- The whole number that a value counts as. -/
def int? : Value → Option Int
  | .int value => some value
  | .bool value => some (if value then 1 else 0)
  | _ => none

/-- A number: whole, or a double. -/
inductive Number where
  | int (value : Int)
  | float (value : Float)

/-- The number that a value counts as. -/
def number? : Value → Option Number
  | .int value => some (.int value)
  | .bool value => some (.int (if value then 1 else 0))
  | .float value => some (.float value)
  | _ => none

/-- A number as a double. -/
def Number.toFloat : Number → Except Failure Float
  | .int value =>
    match Binary64.ofInt? value with
    | some x => .ok x
    | none => .error .tooLarge
  | .float value => .ok value

/-- The order of two numbers by their exact values; not-a-number has no order. -/
def Number.compare? : Number → Number → Option Ordering
  | .int a, .int b => some (compare a b)
  | .int a, .float b => Binary64.compareInt a b
  | .float a, .int b => (Binary64.compareInt b a).map Ordering.swap
  | .float a, .float b =>
    if a < b then some .lt else if a == b then some .eq else if b < a then some .gt else none

/-! ## Arithmetic -/

/-- Arithmetic on two numbers: on whole numbers if both are, else on doubles. -/
def Number.arithmetic (whole : Int → Int → Int) (double : Float → Float → Float) :
    Number → Number → Except Failure Value
  | .int a, .int b => .ok (.int (whole a b))
  | a, b => do return .float (double (← a.toFloat) (← b.toFloat))

/-- The failure of an arithmetic operator. -/
def operandFailure (op : BinaryOp) (left right : Value) : Except Failure Value :=
  .error (.operands op.text left.kindName right.kindName)

/-- The sum of two numbers, or one text after another. -/
def add (left right : Value) : Except Failure Value :=
  match left.number?, right.number?, left, right with
  | some a, some b, _, _ => a.arithmetic (· + ·) (· + ·) b
  | _, _, .string a, .string b => .ok (.string (a ++ b))
  | _, _, .string _, right => .error (.append right.kindName)
  | _, _, left, right => operandFailure .add left right

/-- The difference of two numbers. -/
def sub (left right : Value) : Except Failure Value :=
  match left.number?, right.number? with
  | some a, some b => a.arithmetic (· - ·) (· - ·) b
  | _, _ => operandFailure .sub left right

/-- The least number that is beyond the counts and lengths of texts, `2 ^ 63`. -/
def countLimit : Int := 0x8000000000000000

/-- A text repeated; a negative count gives the empty text. -/
def repeatText (text : String) (count : Value) : Except Failure Value :=
  match count.int? with
  | some n =>
    if countLimit ≤ n ∨ n < -countLimit then .error .repetitionCount
    else if text = "" then .ok (.string "")
    else if countLimit ≤ n * text.length then .error .repetitionLength
    else .ok (.string (String.join (List.replicate n.toNat text)))
  | none => .error (.repetition count.kindName)

/-- The product of two numbers, or a text repeated. -/
def mul (left right : Value) : Except Failure Value :=
  match left.number?, right.number?, left, right with
  | some a, some b, _, _ => a.arithmetic (· * ·) (· * ·) b
  | _, _, .string text, count => repeatText text count
  | _, _, count, .string text => repeatText text count
  | _, _, left, right => operandFailure .mul left right

/-- Whether a value is a zero, by which nothing can be divided. -/
def isZero (value : Value) : Bool :=
  match value.number? with
  | some (.int n) => n = 0
  | some (.float x) => Binary64.isZero x
  | none => false

/-- The quotient of two numbers, the second not zero; that of whole numbers is rounded toward
zero. -/
def div (left right : Value) : Except Failure Value :=
  match left.number?, right.number? with
  | some a, some b => a.arithmetic Int.tdiv (· / ·) b
  | _, _ => operandFailure .div left right

/-- A value as a double. -/
def toFloat (value : Value) : Except Failure Float :=
  match value.number? with
  | some number => number.toFloat
  | none => .error (.notReal value.kindName)

/-- The remainder of two numbers, the second not zero; its sign is that of the first. -/
def mod (left right : Value) : Except Failure Value :=
  match left.int?, right.int? with
  | some a, some b => .ok (.int (Int.tmod a b))
  | _, _ => do
    let x ← left.toFloat
    let y ← right.toFloat
    match Binary64.remainder? x y with
    | some r => return .float r
    | none => .error .domain

/-- The negative of a number. -/
def neg (value : Value) : Except Failure Value :=
  match value.number? with
  | some (.int n) => .ok (.int (-n))
  | some (.float x) => .ok (.float (-x))
  | none => .error (.negation value.kindName)

/-- A whole number as a double; every other value as it is. -/
def widen (value : Value) : Except Failure Value :=
  match value with
  | .int n => do return .float (← (Number.int n).toFloat)
  | value => .ok value

/-! ## Comparison -/

/-- Whether two values are equal. Numbers are equal if their exact values are; instances and
functions are equal only to themselves. -/
def equal (left right : Value) : Bool :=
  match left.number?, right.number?, left, right with
  | some a, some b, _, _ => a.compare? b = some .eq
  | _, _, .nil, .nil => true
  | _, _, .string a, .string b => a = b
  | _, _, .instance a, .instance b => a = b
  | _, _, .closure a, .closure b => a.stamp = b.stamp
  | _, _, .method a _ _, .method b _ _ => a = b
  | _, _, .constructor a _ _, .constructor b _ _ => a = b
  | _, _, .host a, .host b => a = b
  | _, _, _, _ => false

/-- Whether an ordering operator accepts an order. -/
def accepts : BinaryOp → Ordering → Bool
  | .lt, .lt => true
  | .le, .lt | .le, .eq => true
  | .gt, .gt => true
  | .ge, .gt | .ge, .eq => true
  | _, _ => false

/-- Whether two values are in an order. Numbers are compared by their exact values and texts by
their characters. -/
def ordered (op : BinaryOp) (left right : Value) : Except Failure Value :=
  match left.number?, right.number?, left, right with
  | some a, some b, _, _ => .ok (.bool ((a.compare? b).any (accepts op)))
  | _, _, .string a, .string b => .ok (.bool (accepts op (compare a b)))
  | _, _, left, right => .error (.ordering op.text left.kindName right.kindName)

/-- A bound of a range. -/
def index (value : Value) : Except Failure Int :=
  match value.int? with
  | some n => .ok n
  | none => .error (.notIndex value.kindName)

end Value

end FlowScript
