import FlowScript.Syntax.Traversal
import FlowScript.Typing.Function
/-!
# Checking expressions

Each rule takes checked operands and gives the type of the expression, or reports a problem.
Conditions also give the facts that hold when they are true and when they are false: tests against
`nil` and type tests narrow the variable they test, and `and`, `or` and `!` combine facts.
-/

namespace FlowScript

namespace Checks

/-! ## Names -/

/-- The type of a name that is read. -/
def checkName (checks : Checks) (ident : String) (position : Position) : Check Ty := do
  let analyzer ← get
  match analyzer.lookup? ident with
  | none =>
    Check.fail (.undefinedName ident (analyzer.lookupType? ident).isSome) position
  | some ref =>
    let symbol := analyzer.symbol ref
    if symbol.initializing then Check.fail (.ownInitializer ident) position
    else
      Check.noteCapture symbol
      match symbol.kind with
      | .struct =>
        let info ← Check.demand (.struct ident) (analyzer.structs.find? ident)
        return info.constructorType
      | .function => checks.settle symbol.ty (.function ref.id)
      | _ =>
        if analyzer.flow.unassigned.contains ref then Check.fail (.unassigned ident) position
        else
          let ty := analyzer.typeOf ref
          if ty.isUnknown then Check.fail (.unknownVariableType ident) position
          else return ty

/-- The type of the receiver. -/
def checkSelf (position : Position) : Check Ty := do
  let analyzer ← get
  match analyzer.lookup? "self" with
  | none => Check.fail .selfOutside position
  | some ref =>
    let symbol := analyzer.symbol ref
    if symbol.kind = .receiver then
      Check.noteCapture symbol
      return symbol.ty
    else Check.fail .selfOutside position

/-! ## Operators -/

/-- Warns where a whole number is compared with a double. -/
def warnMixed (position : Position) (left right : Ty) : Check Unit :=
  if left = right then return
  else Check.report (.mixedComparison left right) (some position)

/-- The type of a binary operation on checked operands. -/
def binaryType (op : BinaryOp) (position : Position) (left right : Ty) : Check Ty := do
  let invalid := Check.fail (.invalidOperator op left right) position
  if left.isError || right.isError then return .error
  else if op.isEquality then
    let analyzer ← get
    if (analyzer.coerce? left right).isNone && (analyzer.coerce? right left).isNone then invalid
    else
      if left.isNumeric && right.isNumeric then warnMixed position left right
      return .bool
  else if op.isOrdering then
    if left.isNumeric && right.isNumeric then
      warnMixed position left right
      return .bool
    else if left = .string ∧ right = .string then return .bool
    else invalid
  else if op.isArithmetic then
    if left.isNumeric && right.isNumeric then return left.joinNumeric right
    else if op = .add ∧ left = .string ∧ right = .string then return .string
    else invalid
  else throw (.undefined (.operator op))

/-- A binary operation. In mixed arithmetic the whole number is widened. -/
def checkBinary (checks : Checks) (note : Note) (op : BinaryOp) (left right : Expr) :
    Check Expr := do
  let left ← checks.expr left
  let right ← checks.expr right
  let ty ← binaryType op note.position left.checkedTy right.checkedTy
  let note := { note with ty := some ty }
  if ty = .float then
    return .binary note op (left.withWiden (left.checkedTy = .int))
      (right.withWiden (right.checkedTy = .int))
  else return .binary note op left right

/-- A negation of a number. -/
def checkNegation (checks : Checks) (note : Note) (operand : Expr) : Check Expr := do
  let operand ← checks.expr operand
  let ty := operand.checkedTy
  let result ←
    if ty.isError then pure .error
    else if ty.isNumeric then pure ty
    else Check.fail (.invalidNegation ty) note.position
  return .unary { note with ty := some result } .neg operand

/-- A type test. Its type is `bool` even where it has a problem. -/
def checkIs (checks : Checks) (note : Note) (value : Expr) (written : TypeExpr) :
    Check Expr := do
  let value ← checks.expr value
  let target ← Check.resolveType written
  let ty := value.checkedTy
  if !ty.isError && !target.isError && ty ≠ .any then
    if (← get).coerce? target ty ≠ some .exact then
      Check.report (.neverIs ty target) (some note.position)
  return .is { note with ty := some .bool } value written (some target)

/-- A value without `nil`. -/
def checkUnwrap (checks : Checks) (note : Note) (value : Expr) : Check Expr := do
  let value ← checks.expr value
  let result ← match value.checkedTy with
    | .error => pure .error
    | .nilable inner => pure inner
    | .nil => Check.fail .unwrapNil note.position
    | ty => Check.fail (.unwrapPlain ty) note.position
  return .unwrap { note with ty := some result } value

/-! ## Members -/

/-- Reports the use of a member on a value that may be `nil`. -/
def nilableAccess (object : Ty) (member : String) (position : Position) : Check Ty :=
  Check.fail (.nilableAccess member object) position

/-- The type of a member of a struct. -/
def structMember (checks : Checks) (info : StructInfo) (member : String) (position : Position) :
    Check Ty :=
  let name := info.decl.name
  match info.fields.find? member, info.methods.find? member with
  | some ty, _ =>
    if ty.isUnknown then Check.fail (.unknownFieldType name member) position else return ty
  | none, some signature =>
    if member = StructInfo.initName then Check.fail (.directInit name) position
    else checks.settle signature (.method name member)
  | none, none => Check.fail (.noMember name member) position

/-- The type of a member of a value. -/
def memberType (checks : Checks) (object : Ty) (member : String) (position : Position) :
    Check Ty := do
  if object.isError then return .error
  else if object.isNilable then nilableAccess object member position
  else
    let analyzer ← get
    match analyzer.structOf? object, analyzer.traitOf? object with
    | some info, _ => checks.structMember info member position
    | none, some info =>
      match info.methods.find? member with
      | some signature => return signature
      | none => Check.fail (.noTraitMethod object.text member) position
    | none, none => Check.fail (.noFields object) position

/-- A member of a value. -/
def checkField (checks : Checks) (note : Note) (object : Expr) (member : String) :
    Check Expr := do
  let object ← checks.expr object
  let ty ← checks.memberType object.checkedTy member note.position
  return .field { note with ty := some ty } object member

/-! ## Assignments -/

/-- An assignment to a variable. The first one gives a type to a variable that has none. -/
def checkAssign (checks : Checks) (note target : Note) (ident : String) (value : Expr) :
    Check Expr := do
  let value ← checks.expr value
  let source := value.checkedTy
  let build (ty : Ty) (value : Expr) : Expr :=
    .assign { note with ty := some ty } { target with ty := some ty } ident value
  let analyzer ← get
  match analyzer.lookup? ident with
  | none => return build (← Check.fail (.undefinedName ident false) target.position) value
  | some ref =>
    let symbol := analyzer.symbol ref
    Check.noteCapture symbol
    if !symbol.kind.isMutable then
      return build (← Check.fail (.immutable symbol.kind.text ident) target.position) value
    else
      let known := !symbol.ty.isUnknown
      let value ←
        if known then
          Check.flowInto value source symbol.ty (.notAssignable source ident symbol.ty)
        else do
          modify fun analyzer =>
            analyzer.modifySymbol ref.id fun symbol => { symbol with ty := source }
          pure value
      Check.modifyFlow fun flow => flow.assigned ref
      return build (if known then symbol.ty else source) value

/-- The type of a field of a struct that is assigned, and the assigned value. The first assignment
gives a type to a field that has none. -/
def assignedMember (info : StructInfo) (member : String) (position : Position) (value : Expr) :
    Check (Ty × Expr) := do
  let source := value.checkedTy
  let name := info.decl.name
  if info.methods.contains member then
    return (← Check.fail (.immutableMethod name member) position, value)
  else
    match info.fields.find? member with
    | none => return (← Check.fail (.noField name member) position, value)
    | some .unknown =>
      modify fun analyzer => analyzer.modifyStruct name fun info =>
        { info with fields := info.fields.insert member source }
      return (source, value)
    | some ty =>
      return (ty, ← Check.flowInto value source ty (.fieldNotAssignable source name member ty))

/-- The type of a field that is assigned, and the assigned value. -/
def assignedField (object : Ty) (member : String) (position : Position) (value : Expr) :
    Check (Ty × Expr) := do
  let analyzer ← get
  if object.isError then return (.error, value)
  else if object.isNilable then return (← nilableAccess object member position, value)
  else
    match analyzer.structOf? object with
    | none => return (← Check.fail (.noFields object) position, value)
    | some info => assignedMember info member position value

/-- An assignment to a field. -/
def checkAssignField (checks : Checks) (note target : Note) (object : Expr) (member : String)
    (value : Expr) : Check Expr := do
  let value ← checks.expr value
  let object ← checks.expr object
  let (ty, value) ← assignedField object.checkedTy member target.position value
  return .assignField { note with ty := some ty } { target with ty := some ty } object member value

/-! ## Calls -/

/-- Lets arguments flow into parameters, which are counted from `index`. -/
def flowArguments (name : String) : (index : Nat) → List Expr → List Ty → Check (List Expr)
  | index, arg :: args, param :: params => do
    let source := arg.checkedTy
    let arg ← Check.flowInto arg source param (.argumentType index name param source)
    return arg :: (← flowArguments name (index + 1) args params)
  | _, args, _ => return args

/-- The arguments and the type of a call of a function of a type, with checked arguments. -/
def applyFunction (position : Position) (name : String) (function : Ty) (args : List Expr) :
    Check (List Expr × Ty) := do
  let failing (problem : CheckProblem) : Check (List Expr × Ty) :=
    return (args, ← Check.fail problem position)
  match function with
  | .error => return (args, .error)
  | .nil | .nilable _ => failing (.nilableCall name function)
  | .function params result =>
    let args ←
      if args.length = params.length then flowArguments name 1 args params
      else do
        Check.report (.arity name params.length args.length) (some position)
        pure args
    if result.isUnknown then return (args, ← Check.fail (.unknownResultType name) position)
    else return (args, result)
  | _ => failing (.notCallable function)

/-- Lets arguments flow into the fields of a struct. The first construction gives a type to a field
that has none. -/
def flowFields (structName : String) : List Expr → List (String × Ty) → Check (List Expr)
  | arg :: args, (field, ty) :: fields => do
    let source := arg.checkedTy
    let arg ←
      if ty.isUnknown then do
        modify fun analyzer => analyzer.modifyStruct structName fun info =>
          { info with fields := info.fields.insert field source }
        pure arg
      else Check.flowInto arg source ty (.fieldArgument field structName ty source)
    return arg :: (← flowFields structName args fields)
  | args, _ => return args

/-- What is known of a struct. -/
def structInfo (structName : String) : Check StructInfo := do
  Check.demand (.struct structName) ((← get).structs.find? structName)

/-- Lets checked arguments flow into the fields of a struct. -/
def flowConstruct (structName : String) (position : Position) (args : List Expr) :
    Check (List Expr) := do
  let fields := (← structInfo structName).fields.entries
  if args.length = fields.length then flowFields structName args fields
  else
    Check.report (.structArity structName fields.length args.length) (some position)
    return args

/-- Checks the methods of a struct that waited for the types of fields, if all are known. -/
def finishDeferred (checks : Checks) (structName : String) : Check Unit := do
  let info ← structInfo structName
  if (← get).deferred.contains structName && !info.hasUnknownField then
    checks.finishStruct structName

/-- The construction of a struct whose name is called. -/
def checkConstruct (checks : Checks) (note callee : Note) (structName : String)
    (args : List Expr) : Check Expr := do
  let info ← structInfo structName
  let build (function : Ty) (args : List Expr) : Expr :=
    .call { note with ty := some (.struct structName) }
      (.name { callee with ty := some function } structName) args
  if StructInfo.hasInit info.decl then
    let function := info.constructorType
    checks.finish (.method structName StructInfo.initName)
    let args ← args.mapM checks.expr
    let (args, _) ← applyFunction note.position structName function args
    return build function args
  else
    let args ← args.mapM checks.expr
    let args ← flowConstruct structName note.position args
    checks.finishDeferred structName
    return build (← structInfo structName).constructorType args

/-- A call. -/
def checkCall (checks : Checks) (note : Note) (function : Expr) (args : List Expr) :
    Check Expr := do
  let analyzer ← get
  let constructed := match function with
    | .name callee ident =>
      match analyzer.lookup? ident with
      | some ref => if (analyzer.symbol ref).kind = .struct then some (callee, ident) else none
      | none => none
    | _ => none
  match constructed with
  | some (callee, structName) =>
    Check.noteCapture
      (analyzer.symbol ((analyzer.lookup? structName).getD default))
    checks.checkConstruct note callee structName args
  | none =>
    let function ← checks.expr function
    let name := match function with
      | .name _ ident => ident
      | _ => function.checkedTy.text
    let args ← args.mapM checks.expr
    let (args, ty) ← applyFunction note.position name function.checkedTy args
    return .call { note with ty := some ty } function args

/-- A call of a method. -/
def checkMethodCall (checks : Checks) (note : Note) (receiver : Expr) (method : String)
    (args : List Expr) : Check Expr := do
  let receiver ← checks.expr receiver
  let function ← checks.memberType receiver.checkedTy method note.position
  let args ← args.mapM checks.expr
  let name := receiver.checkedTy.text ++ "." ++ method
  let (args, ty) ← applyFunction note.position name function args
  return .methodCall { note with ty := some ty } receiver method args

/-- An anonymous function. -/
def checkClosure (checks : Checks) (note : Note) (params : List Param) (result : Option TypeExpr)
    (body : Block Stmt) : Check Expr := do
  let signature ← Check.resolveSignature params result .unknown
  let function : Body := { name := "<closure>", position := note.position, params, body }
  let checked ← checks.checkBody function signature (← get).site
  return .closure { note with ty := some checked.signature } params result checked.body
    checked.captures

/-! ## Conditions -/

/-- Reports an expression that should be a `bool`. -/
def requireBool (what : String) (expr : Expr) : Check Unit :=
  match expr.ty with
  | none | some .bool | some .error => return
  | some ty => Check.report (.notBool what ty) (some expr.position)

/-- The variable that a test on an expression can narrow. -/
def narrowable? (expr : Expr) : Check (Option SymbolRef) := do
  let analyzer ← get
  match expr with
  | .name _ ident =>
    match analyzer.lookup? ident with
    | some ref =>
      let kind := (analyzer.symbol ref).kind
      if kind.isMutable && !analyzer.unstable.contains ident then return some ref else return none
    | none => return none
  | _ => return none

/-- The facts of a test against `nil`. -/
def nilFacts (op : BinaryOp) (left right : Expr) : Check Branches := do
  let symbol ←
    if right.isNil then narrowable? left
    else if left.isNil then narrowable? right
    else pure none
  match symbol with
  | none => return {}
  | some ref =>
    match (← get).typeOf ref with
    | .nilable inner =>
      let notNil := Facts.single ref inner
      let isNil := Facts.single ref .nil
      return if op = .ne then ⟨notNil, isNil⟩ else ⟨isNil, notNil⟩
    | _ => return {}

/-- The facts of a type test. -/
def isFacts (value : Expr) (target : Option Ty) : Check Branches := do
  match ← narrowable? value, target with
  | some ref, some target =>
    if target.isError then return {}
    else
      let current := (← get).typeOf ref
      let whenTrue := if target = current then Table.empty else Facts.single ref target
      let whenFalse := match current with
        | .nilable inner =>
          if target = inner then Facts.single ref .nil
          else if target = .nil then Facts.single ref inner
          else Table.empty
        | _ => Table.empty
      return ⟨whenTrue, whenFalse⟩
  | _, _ => return {}

/-- The facts of a checked condition that is no logical operation. -/
def testFacts : Expr → Check Branches
  | .binary _ op left right => if op.isEquality then nilFacts op left right else return {}
  | .is _ value _ target => isFacts value target
  | _ => return {}

/-- A logical operation. The right operand is checked where the left one has the value that does
not decide, and what it assigns is forgotten, since it may not be evaluated. -/
def checkLogical (checks : Checks) (note : Note) (op : LogicalOp) (left right : Expr) :
    Check (Expr × Branches) := do
  let what := "operand of '" ++ op.text ++ "'"
  let (left, first) ← checks.condition left
  requireBool what left
  let saved := (← get).flow.facts
  Check.modifyFlow fun flow =>
    flow.apply (if op = .and then first.whenTrue else first.whenFalse)
  let (right, second) ← checks.condition right
  requireBool what right
  Check.modifyFlow fun flow => { flow with facts := saved.forget right.assignedNames }
  let facts : Branches := match op with
    | .and =>
      ⟨first.whenTrue.overlay second.whenTrue, first.whenFalse.common second.whenFalse⟩
    | .or =>
      ⟨first.whenTrue.common second.whenTrue, first.whenFalse.overlay second.whenFalse⟩
  return (.logical { note with ty := some .bool } op left right, facts)

/-- A negated condition. -/
def checkNot (checks : Checks) (note : Note) (operand : Expr) : Check (Expr × Branches) := do
  let (operand, facts) ← checks.condition operand
  requireBool "operand of '!'" operand
  return (.unary { note with ty := some .bool } .not operand, ⟨facts.whenFalse, facts.whenTrue⟩)

/-! ## All expressions -/

/-- Checks an expression. -/
def checkExpr (checks : Checks) : Expr → Check Expr
  | .literal note value =>
    let ty := match value with
      | .nil => .nil
      | .bool _ => .bool
      | .int _ => .int
      | .float _ => .float
      | .string _ => .string
    return .literal { note with ty := some ty } value
  | .name note ident => do
    let ty ← checks.checkName ident note.position
    return .name { note with ty := some ty } ident
  | .self note => do
    let ty ← checkSelf note.position
    return .self { note with ty := some ty }
  | .binary note op left right => checks.checkBinary note op left right
  | .logical note op left right => do
    let (expr, _) ← checks.checkLogical note op left right
    return expr
  | .unary note .not operand => do
    let (expr, _) ← checks.checkNot note operand
    match expr with
    | .unary _ _ operand =>
      return if operand.ty = some .bool then expr else expr.withTy .error
    | _ => return expr
  | .unary note .neg operand => checks.checkNegation note operand
  | .is note value written _ => checks.checkIs note value written
  | .unwrap note value => checks.checkUnwrap note value
  | .assign note target ident value => checks.checkAssign note target ident value
  | .assignField note target object member value =>
    checks.checkAssignField note target object member value
  | .call note function args => checks.checkCall note function args
  | .field note object member => checks.checkField note object member
  | .methodCall note receiver method args => checks.checkMethodCall note receiver method args
  | .closure note params result body _ => checks.checkClosure note params result body

/-- Checks an expression as a condition. -/
def checkCondition (checks : Checks) : Expr → Check (Expr × Branches)
  | .logical note op left right => checks.checkLogical note op left right
  | .unary note .not operand => checks.checkNot note operand
  | expr => do
    let expr ← checks.checkExpr expr
    return (expr, ← testFacts expr)

end Checks

end FlowScript
