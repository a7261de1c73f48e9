import FlowScript.Typing.Expression
/-!
# Checking statements

A statement is checked with what is known before it, and changes what is known after it.  Branches
start from the same knowledge and are joined after; a loop starts without the facts on what its
body assigns, since the body may have run before.
-/

namespace FlowScript

namespace Checks

/-! ## Blocks -/

/-- Checks a block in a frame of its own, in which `before` is run first. Narrowings made in the
block end with it. -/
def checkBlockAfter (checks : Checks) (before : Check Unit) (block : Block Stmt) :
    Check (Block Stmt × Bool) := do
  let frame ← Check.newFrame
  let analyzer ← get
  let site := { analyzer.site with frames := frame :: analyzer.site.frames }
  let (statements, terminates) ← Check.atSite site do
    before
    checks.statements block.statements
  Check.modifyFlow fun flow => { flow with facts := analyzer.flow.facts.common flow.facts }
  return ({ block with statements }, terminates)

/-- Checks a block in a frame of its own. -/
def checkBlock (checks : Checks) (block : Block Stmt) : Check (Block Stmt × Bool) :=
  checks.checkBlockAfter (pure ()) block

/-! ## Single statements -/

/-- The type that is written for a variable. -/
def resolveWritten : Option TypeExpr → Check (Option Ty)
  | some written => some <$> Check.resolveType written
  | none => return none

/-- The initial value of a variable. Without a written type it gives the variable its type. -/
def checkInitial (checks : Checks) (ref : SymbolRef) (declared : Option Ty) (value : Expr) :
    Check Expr := do
  let initializing (flag : Bool) (analyzer : Analyzer) : Analyzer :=
    analyzer.modifySymbol ref.id fun symbol => { symbol with initializing := flag }
  modify (initializing true)
  let value ← Check.ensuring (initializing false) (checks.expr value)
  let source := value.checkedTy
  match declared with
  | some target => Check.flowInto value source target (.initialMismatch target source)
  | none =>
    modify fun analyzer =>
      analyzer.modifySymbol ref.id fun symbol => { symbol with ty := source }
    return value

/-- A variable declaration. -/
def checkVarDecl (checks : Checks) (position : Position) (name : String)
    (written : Option TypeExpr) (value : Option Expr) : Check (Stmt × Check.Declared) := do
  let declared ← resolveWritten written
  let ref ← Check.declare name (declared.getD .unknown) .variable position
  match value with
  | some value =>
    let value ← checks.checkInitial ref declared value
    return (.varDecl position name written (some value) none, .variable ref)
  | none =>
    if !(declared.any Ty.isNilable) then
      Check.modifyFlow fun flow => flow.declaredUnassigned ref
    return (.varDecl position name written none none, .variable ref)

/-- The alternative of a conditional. -/
def checkAlternative (checks : Checks) : Option Stmt → Check (Option Stmt × Bool)
  | some alternative => do
    let (alternative, terminates) ← checks.statement alternative
    return (some alternative, terminates)
  | none => return (none, false)

/-- A conditional. -/
def checkIf (checks : Checks) (position : Position) (condition : Expr) (body : Block Stmt)
    (alternative : Option Stmt) : Check (Stmt × Bool) := do
  let (condition, facts) ← checks.condition condition
  requireBool "condition" condition
  let entry := (← get).flow
  Check.modifyFlow fun _ => entry.apply facts.whenTrue
  let (body, bodyTerminates) ← checks.checkBlock body
  let afterBody := (← get).flow
  Check.modifyFlow fun _ => entry.apply facts.whenFalse
  let (alternative, alternativeTerminates) ← checks.checkAlternative alternative
  let afterAlternative := (← get).flow
  Check.modifyFlow fun _ =>
    match bodyTerminates, alternativeTerminates with
    | false, false => afterBody.join afterAlternative
    | false, true => afterBody
    | true, false => afterAlternative
    | true, true => afterBody
  return (.ifElse position condition body alternative, bodyTerminates && alternativeTerminates)

/-- A loop on a condition. -/
def checkWhile (checks : Checks) (position : Position) (condition : Expr) (body : Block Stmt) :
    Check (Stmt × Bool) := do
  Check.modifyFlow fun flow => flow.forget (assignedNames body.statements)
  let (condition, facts) ← checks.condition condition
  requireBool "condition" condition
  let entry := (← get).flow
  Check.modifyFlow fun _ => entry.apply facts.whenTrue
  let (body, terminates) ← checks.checkBlock body
  Check.modifyFlow fun flow =>
    (if terminates then entry else entry.join flow).apply facts.whenFalse
  let statement := Stmt.whileLoop position condition body
  return (statement, statement.terminates)

/-- A bound of a range. -/
def checkBound (checks : Checks) (bound : Expr) : Check Expr := do
  let bound ← checks.expr bound
  let ty := bound.checkedTy
  if !ty.isError && ty ≠ .int then Check.report (.rangeBound ty) (some bound.position)
  return bound

/-- A loop over a range. -/
def checkFor (checks : Checks) (position : Position) (name : String) (start stop : Expr)
    (body : Block Stmt) : Check Stmt := do
  let start ← checks.checkBound start
  let stop ← checks.checkBound stop
  Check.modifyFlow fun flow => flow.forget (assignedNames body.statements)
  let entry := (← get).flow
  let declareLoop : Check Unit := do
    let _ ← Check.declare name .int .loop position
  let (body, terminates) ← checks.checkBlockAfter declareLoop body
  Check.modifyFlow fun flow => if terminates then entry else entry.join flow
  return .forRange position name start stop body

/-- The value of a return statement. -/
def checkReturned (checks : Checks) : Option Expr → Check (Option Expr)
  | some value => some <$> checks.expr value
  | none => return none

/-- A return statement. The first one gives a function its return type if none is written. -/
def checkReturn (checks : Checks) (position : Position) (value : Option Expr) : Check Stmt := do
  let value ← checks.checkReturned value
  let source := match value with
    | some value => value.checkedTy
    | none => .nil
  let analyzer ← get
  match analyzer.site.contexts with
  | [] =>
    Check.report .returnOutside (some position)
    return .ret position value
  | id :: _ =>
    let context := analyzer.context id
    if context.constructor then
      Check.report (.returnFromInit context.name) (some position)
      return .ret position value
    else if context.result.isUnknown then
      modify fun analyzer =>
        analyzer.modifyContext id fun context => { context with result := source }
      return .ret position value
    else
      match analyzer.coerce? source context.result with
      | none =>
        let place := match value with
          | some value => value.position
          | none => position
        Check.report (.returnMismatch context.name context.result source) (some place)
        return .ret position value
      | some .widening => return .ret position (value.map (Expr.withWiden true))
      | some .exact => return .ret position value

/-- A struct declaration. If a field has no type yet and no constructor gives it one, the methods
wait until a construction does. -/
def checkStruct (checks : Checks) (decl : StructDecl Stmt) : Check Unit := do
  let info := ((← get).structs.find? decl.name).getD default
  if !StructInfo.hasInit decl && info.hasUnknownField then
    modify fun analyzer => { analyzer with deferred := decl.name :: analyzer.deferred }
  else checks.finishStruct decl.name

/-- Checks a statement that is declared as `declared`: gives the statement, what it declares, and
whether control never falls off its end. -/
def checkStatement (checks : Checks) (statement : Stmt) (declared : Check.Declared) :
    Check (Stmt × Check.Declared × Bool) := do
  match statement, declared with
  | .varDecl position name written value _, _ =>
    let (statement, declared) ← checks.checkVarDecl position name written value
    return (statement, declared, false)
  | .expr position value, _ =>
    let value ← checks.expr value
    return (.expr position value, declared, false)
  | .block body, _ =>
    let (body, terminates) ← checks.checkBlock body
    return (.block body, declared, terminates)
  | .ifElse position condition body alternative, _ =>
    let (statement, terminates) ← checks.checkIf position condition body alternative
    return (statement, declared, terminates)
  | .whileLoop position condition body, _ =>
    let (statement, terminates) ← checks.checkWhile position condition body
    return (statement, declared, terminates)
  | .forRange position name start stop body, _ =>
    let statement ← checks.checkFor position name start stop body
    return (statement, declared, false)
  | .ret position value, _ =>
    let statement ← checks.checkReturn position value
    return (statement, declared, true)
  | .function _, .function key =>
    checks.finish key
    return (statement, declared, false)
  | .struct decl, .struct true =>
    checks.checkStruct decl
    return (statement, declared, false)
  | _, _ => return (statement, declared, false)

/-! ## Statement lists -/

/-- The statements checked so far, whether control never reaches the next one, and whether that was
reported. -/
structure Progress where
  checked : Array (Stmt × Check.Declared) := #[]
  terminates : Bool := false
  warned : Bool := false

/-- Notes which statement of a program is being checked, and warns of the first one that control never
reaches: gives whether there was a warning. -/
def arriveAt (progress : Progress) (statement : Stmt) : Check Bool := do
  if (← get).site.frames.head? = some Analyzer.globalFrame then
    modify fun analyzer => { analyzer with topLevel := some statement.position }
  let unreachable := progress.terminates && !progress.warned && !statement.isDeclaration
  if unreachable then Check.report .unreachable (some statement.position)
  return progress.warned || unreachable

/-- Checks the next statement of a list. -/
def checkNext (checks : Checks) (progress : Progress) (next : Stmt × Check.Declared) :
    Check Progress := do
  let warned ← arriveAt progress next.1
  let (statement, declared, terminates) ← checks.checkStatement next.1 next.2
  return {
    checked := progress.checked.push (statement, declared)
    terminates := progress.terminates || terminates
    warned }

/-- A statement with what became known after it was checked: the bodies of functions, and the types
of variables. -/
def complete (analyzer : Analyzer) : Stmt × Check.Declared → Stmt
  | (.function decl, .function key) => .function ((analyzer.finished.find? key).getD decl)
  | (.struct decl, .struct true) =>
    .struct { decl with
      methods := decl.methods.map fun method =>
        match analyzer.finished.find? (.method decl.name method.name) with
        | some finished => if finished.position = method.position then finished else method
        | none => method }
  | (.varDecl position name written value _, .variable ref) =>
    .varDecl position name written value (some (analyzer.symbol ref).ty)
  | (statement, _) => statement

/-- Checks a struct of a list at the end of the list, if that was put off. -/
def finishPutOff (checks : Checks) : Stmt × Check.Declared → Check Unit
  | (.struct decl, .struct true) => do
    if (← get).deferred.contains decl.name then checks.finishStruct decl.name
  | _ => return

/-- Checks a list of statements in the current frame: gives the statements, and whether control
never falls off their end. -/
def checkStatements (checks : Checks) (statements : List Stmt) : Check (List Stmt × Bool) := do
  let declared ← Check.hoist statements
  let progress ← declared.foldlM checks.checkNext {}
  declared.forM checks.finishPutOff
  let analyzer ← get
  return (progress.checked.toList.map (complete analyzer), progress.terminates)

end Checks

end FlowScript
