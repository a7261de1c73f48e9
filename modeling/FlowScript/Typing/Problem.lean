import FlowScript.Diagnostic
import FlowScript.Syntax
/-!
# Problems of programs

What can be wrong with a program that is syntactically well formed.  Each cause is a constructor;
its code, message and notes are read off it.
-/

namespace FlowScript

/-- A mistake in a program, or something worth a warning. -/
inductive CheckProblem where
  /-- The program nests too deep to be checked. -/
  | tooDeep
  -- Declarations
  /-- A name is declared twice in one scope; `previous` is the line of the first declaration. -/
  | duplicateName (name : String) (previous : Option Nat)
  | duplicateType (name : String)
  | duplicateTraitMethod (traitName method : String)
  | duplicateField (structName field : String)
  /-- A struct lists a trait twice. -/
  | duplicateTrait (name : String)
  /-- A method has the name of a field or of another method. -/
  | duplicateMember (structName member : String)
  | unknownType (name : String)
  | unknownTrait (name : String)
  | notTrait (name : String)
  /-- A constructor declares a return type. -/
  | initResult (structName : String)
  | missingTraitMethod (structName method traitName : String) (required : Ty)
  | traitMethodMismatch (structName method traitName : String) (required found : Ty)
  -- Functions
  | missingReturn (name : String) (result : Ty)
  | returnOutside
  | returnFromInit (name : String)
  | returnMismatch (name : String) (expected found : Ty)
  /-- A constructor may leave a field unassigned. -/
  | fieldUnassigned (structName field : String)
  -- Statements
  | initialMismatch (declared found : Ty)
  | rangeBound (found : Ty)
  | notBool (what : String) (found : Ty)
  -- Names
  | selfOutside
  /-- A name that is not declared; `isType` tells whether it names a type. -/
  | undefinedName (name : String) (isType : Bool)
  | ownInitializer (name : String)
  | unassigned (name : String)
  | unknownVariableType (name : String)
  | unknownFieldType (structName field : String)
  | unknownResultType (name : String)
  -- Operators
  | invalidOperator (op : BinaryOp) (left right : Ty)
  | invalidNegation (operand : Ty)
  | neverIs (value target : Ty)
  | unwrapNil
  | unwrapPlain (value : Ty)
  -- Assignments
  /-- A binding that is no variable; `what` says what it is. -/
  | immutable (what name : String)
  | immutableMethod (structName method : String)
  | notAssignable (value : Ty) (name : String) (target : Ty)
  | fieldNotAssignable (value : Ty) (structName field : String) (target : Ty)
  -- Members and calls
  | noFields (found : Ty)
  | noField (structName field : String)
  | noMember (structName member : String)
  | noTraitMethod (traitName method : String)
  | nilableAccess (member : String) (found : Ty)
  | nilableCall (name : String) (found : Ty)
  | directInit (structName : String)
  | notCallable (found : Ty)
  | arity (name : String) (expected found : Nat)
  | structArity (structName : String) (expected found : Nat)
  | argumentType (index : Nat) (name : String) (expected found : Ty)
  | fieldArgument (field structName : String) (expected found : Ty)
  -- Warnings
  | unreachable
  | mixedComparison (left right : Ty)
  deriving DecidableEq, Repr

namespace CheckProblem

/-- Warnings do not stop a program from running. -/
def severity : CheckProblem → Severity
  | .unreachable | .mixedComparison .. => .warning
  | _ => .error

/-- The code of a problem. -/
def code : CheckProblem → String
  | .tooDeep => "E_NESTING_TOO_DEEP"
  | .duplicateName .. | .duplicateType _ | .duplicateTraitMethod .. | .duplicateField ..
  | .duplicateTrait _ | .duplicateMember .. => "E_DUPLICATE_DECLARATION"
  | .unknownType _ | .unknownTrait _ => "E_UNKNOWN_TYPE"
  | .notTrait _ | .initialMismatch .. | .rangeBound _ | .notBool .. | .neverIs .. | .unwrapNil
  | .unwrapPlain _ => "E_TYPE_MISMATCH"
  | .initResult _ | .returnFromInit _ => "E_RETURN_FROM_INIT"
  | .missingTraitMethod .. => "E_MISSING_TRAIT_METHOD"
  | .traitMethodMismatch .. => "E_TRAIT_METHOD_SIGNATURE"
  | .missingReturn .. => "E_MISSING_RETURN"
  | .returnOutside => "E_RETURN_OUTSIDE_FUNCTION"
  | .returnMismatch .. => "E_RETURN_TYPE_MISMATCH"
  | .fieldUnassigned .. | .unassigned _ => "E_UNINITIALIZED"
  | .selfOutside => "E_SELF_OUTSIDE_METHOD"
  | .undefinedName .. => "E_UNDEFINED_SYMBOL"
  | .ownInitializer _ => "E_OWN_INITIALIZER"
  | .unknownVariableType _ | .unknownFieldType .. | .unknownResultType _ => "E_UNINFERRED"
  | .invalidOperator .. | .invalidNegation _ => "E_INVALID_OPERATOR"
  | .immutable .. | .immutableMethod .. => "E_ASSIGN_IMMUTABLE"
  | .notAssignable .. | .fieldNotAssignable .. => "E_NOT_ASSIGNABLE"
  | .noFields _ | .noField .. | .noMember .. | .noTraitMethod .. => "E_UNKNOWN_FIELD"
  | .nilableAccess .. | .nilableCall .. => "E_NILABLE_ACCESS"
  | .directInit _ => "E_DIRECT_CONSTRUCTOR_CALL"
  | .notCallable _ => "E_NOT_CALLABLE"
  | .arity .. | .structArity .. => "E_CALL_ARITY"
  | .argumentType .. | .fieldArgument .. => "E_CALL_ARG_TYPE"
  | .unreachable => "W_UNREACHABLE"
  | .mixedComparison .. => "W_INT_FLOAT_COMPARE"

/-- The message of a problem. -/
def message : CheckProblem → String
  | .tooDeep => "program is nested too deeply to analyze"
  | .duplicateName name _ => s!"'{name}' is already declared in this scope"
  | .duplicateType name => s!"type '{name}' is already declared"
  | .duplicateTraitMethod traitName method =>
    s!"trait '{traitName}' declares method '{method}' more than once"
  | .duplicateField structName field =>
    s!"struct '{structName}' declares field '{field}' more than once"
  | .duplicateTrait name => s!"trait '{name}' is listed more than once"
  | .duplicateMember structName member =>
    s!"struct '{structName}' already has a member named '{member}'"
  | .unknownType name => s!"unknown type '{name}'"
  | .unknownTrait name => s!"unknown trait '{name}'"
  | .notTrait name => s!"'{name}' is not a trait"
  | .initResult structName => s!"constructor '{structName}.init' cannot declare a return type"
  | .missingTraitMethod structName method traitName _ =>
    s!"struct '{structName}' does not implement method '{method}' required by trait '{traitName}'"
  | .traitMethodMismatch structName method traitName _ _ =>
    s!"method '{structName}.{method}' does not match its declaration in trait '{traitName}'"
  | .missingReturn name result =>
    s!"'{name}' can reach the end of its body without returning a value of type '{result}'"
  | .returnOutside => "'return' outside of a function"
  | .returnFromInit name => s!"cannot return from constructor '{name}'"
  | .returnMismatch name expected found => s!"'{name}' must return '{expected}', got '{found}'"
  | .fieldUnassigned structName field =>
    s!"field '{structName}.{field}' is not assigned on every path through '{structName}.init'"
  | .initialMismatch declared found => s!"type mismatch: expected '{declared}', got '{found}'"
  | .rangeBound found => s!"range bound must be 'Int', got '{found}'"
  | .notBool what found => s!"{what} must be 'Bool', got '{found}'"
  | .selfOutside => "'self' can only be used inside a method"
  | .undefinedName name _ => s!"undefined symbol '{name}'"
  | .ownInitializer name => s!"cannot read '{name}' in its own initializer"
  | .unassigned name => s!"'{name}' is used before it is assigned"
  | .unknownVariableType name =>
    s!"the type of '{name}' is not known here; assign it first or add a type annotation"
  | .unknownFieldType structName field =>
    s!"the type of field '{structName}.{field}' is not known here; annotate the field"
  | .unknownResultType name =>
    s!"the return type of '{name}' is not known here; add a '-> type' annotation"
  | .invalidOperator op left right =>
    "operator '" ++ op.text ++ s!"' is not defined for '{left}' and '{right}'"
  | .invalidNegation operand => s!"operator '-' is not defined for '{operand}'"
  | .neverIs value target => s!"a value of type '{value}' is never a '{target}'"
  | .unwrapNil => "cannot unwrap 'nil'"
  | .unwrapPlain value => s!"cannot unwrap non-nilable type '{value}'"
  | .immutable what name => s!"cannot assign to {what} '{name}'"
  | .immutableMethod structName method => s!"cannot assign to method '{structName}.{method}'"
  | .notAssignable value name target => s!"cannot assign '{value}' to '{name}' of type '{target}'"
  | .fieldNotAssignable value structName field target =>
    s!"cannot assign '{value}' to field '{structName}.{field}' of type '{target}'"
  | .noFields found => s!"type '{found}' has no fields"
  | .noField structName field => s!"struct '{structName}' has no field '{field}'"
  | .noMember structName member => s!"struct '{structName}' has no field or method '{member}'"
  | .noTraitMethod traitName method => s!"trait '{traitName}' has no method '{method}'"
  | .nilableAccess member found =>
    s!"cannot access '{member}' on a value of type '{found}' that may be nil"
  | .nilableCall name found => s!"cannot call '{name}': a value of type '{found}' may be nil"
  | .directInit structName =>
    s!"constructor '{structName}.init' cannot be called directly; use '{structName}(...)'"
  | .notCallable found => s!"a value of type '{found}' is not callable"
  | .arity name expected found => s!"'{name}' expects {expected} argument(s), got {found}"
  | .structArity structName expected found =>
    s!"struct '{structName}' has {expected} field(s), got {found} argument(s)"
  | .argumentType index name expected found =>
    s!"argument {index} of '{name}': expected '{expected}', got '{found}'"
  | .fieldArgument field structName expected found =>
    s!"field '{field}' of '{structName}': expected '{expected}', got '{found}'"
  | .unreachable => "unreachable statement"
  | .mixedComparison left right => s!"comparing '{left}' with '{right}'"

/-- The note that suggests a builtin type for a misspelt one. -/
def hintNotes (name : String) : List String :=
  match Ty.spellingHint? name with
  | some hint => [s!"did you mean '{hint}'?"]
  | none => []

/-- The notes of a problem. -/
def notes : CheckProblem → List String
  | .duplicateName _ (some line) => [s!"previous declaration at line {line}"]
  | .unknownType name | .unknownTrait name => hintNotes name
  | .undefinedName name true => [s!"'{name}' is a type, not a value"]
  | .nilableAccess .. => ["compare it against nil first, or unwrap it with '!'"]
  | .missingTraitMethod _ method _ (.function params result) =>
    ["expected: fn " ++ method ++ "(" ++ Ty.textList params ++ ") -> " ++ result.text]
  | .traitMethodMismatch _ _ _ required found => [s!"expected: {required}", s!"found: {found}"]
  | _ => []

/-- The diagnostic of a problem. -/
def diagnostic (problem : CheckProblem) (file : String) (position : Option Position) :
    Diagnostic :=
  { message := problem.message
    code := some problem.code
    phase := some .checker
    severity := problem.severity
    span := Span.of (some file) position
    notes := problem.notes }

end CheckProblem

/-- A problem and where it is. -/
structure CheckReport where
  problem : CheckProblem
  position : Option Position
  deriving DecidableEq, Repr

end FlowScript
