import FlowScript.Syntax.ControlFlow
import FlowScript.Typing.Declare
/-!
# Function bodies

The body of a function is checked where its declaration stands, or earlier if its return type is
not written and something needs it.  While a body is checked its return type is what the `return`
statements so far gave.
-/

namespace FlowScript

/-- How the parts of a program are checked one level further in. -/
structure Checks where
  /-- Gives the expression with its type. -/
  expr : Expr → Check Expr
  /-- Gives the expression with its type, and what it tells when true and when false. -/
  condition : Expr → Check (Expr × Branches)
  /-- Gives the statement, and whether control never falls off its end. -/
  statement : Stmt → Check (Stmt × Bool)
  /-- Gives the statements, and whether control never falls off their end. -/
  statements : List Stmt → Check (List Stmt × Bool)
  /-- Checks the body of a function that is not checked yet. -/
  finish : FunctionKey → Check Unit

namespace Checks

/-- What a checked function body gives. -/
structure CheckedBody where
  signature : Ty
  body : Block Stmt
  captures : List String

/-- A function to be checked. -/
structure Body where
  /-- How messages call it. -/
  name : String
  position : Position
  params : List Param
  body : Block Stmt
  /-- The struct of a method. -/
  receiver : Option String := none
  constructor : Bool := false
  /-- How others can ask for its return type; closures have none. -/
  key : Option FunctionKey := none

/-- Checks the body of a function of a given type, seen from the site of its declaration. -/
def checkBody (checks : Checks) (function : Body) (signature : Ty) (defining : Site) :
    Check CheckedBody := do
  let (paramTypes, result) := match signature with
    | .function params result => (params, result)
    | _ => ([], .unknown)
  let analyzer ← get
  let id := analyzer.contexts.size
  let frame ← Check.newFrame
  modify fun analyzer =>
    { analyzer with
      contexts := analyzer.contexts.push
        { name := function.name, result, constructor := function.constructor, body := function.body }
      site := ⟨frame :: defining.frames, id :: defining.contexts⟩
      flow := {}
      active := match function.key with
        | some key => analyzer.active.insert key id
        | none => analyzer.active }
  let leave (after : Analyzer) : Analyzer :=
    { after with site := analyzer.site, flow := analyzer.flow }
  let (statements, terminates) ← Check.ensuring leave <| Check.closing function.key do
    if let some structName := function.receiver then
      let _ ← Check.declare "self" (.struct structName) .receiver function.position
    (function.params.zip paramTypes).forM fun (param, ty) => do
      let _ ← Check.declare param.name ty .param param.position
    checks.statements function.body.statements
  let context := (← get).context id
  let final := if context.result.isUnknown then .nil else context.result
  modify fun analyzer => analyzer.modifyContext id fun context => { context with result := final }
  if !terminates && !final.isNilable && !final.isError then
    Check.report (.missingReturn function.name final) (some function.position)
  return ⟨.function paramTypes final, { function.body with statements }, context.captures⟩

/-- Checks that a constructor assigns every field that cannot be `nil`. -/
def checkInitFields (structName : String) (statements : List Stmt) : Check Unit := do
  let info := ((← get).structs.find? structName).getD default
  info.decl.fields.forM fun field => do
    match info.fields.find? field.name with
    | some ty =>
      if !ty.isNilable && !ty.isError && !assignsField field.name statements then
        Check.report (.fieldUnassigned structName field.name) (some field.position)
    | none => return

/-- The type of a function that has a key. -/
def signatureOf (key : FunctionKey) : Check Ty := do
  let analyzer ← get
  match key with
  | .function id => return (analyzer.symbolAt id).ty
  | .method structName name =>
    Check.demand (.signature key)
      ((analyzer.structs.find? structName).bind fun info => info.methods.find? name)

/-- Sets the type of a function that has a key. -/
def setSignature (key : FunctionKey) (signature : Ty) : Check Unit :=
  modify fun analyzer =>
    match key with
    | .function id => analyzer.modifySymbol id fun symbol => { symbol with ty := signature }
    | .method structName name =>
      analyzer.modifyStruct structName fun info =>
        { info with methods := info.methods.insert name signature }

/-- The function to be checked for a key. -/
def bodyOf (key : FunctionKey) (decl : FunctionDecl Stmt) : Body :=
  let plain : Body :=
    { name := decl.name, position := decl.position, params := decl.params, body := decl.body
      key := some key }
  match key with
  | .function _ => plain
  | .method structName name =>
    { plain with
      name := structName ++ "." ++ name
      receiver := some structName
      constructor := name = StructInfo.initName }

/-- Checks the body of a function if that has not been done. -/
def finishFunction (checks : Checks) (key : FunctionKey) : Check Unit := do
  match (← get).pending.find? key with
  | none => return
  | some ⟨decl, site⟩ =>
    modify fun analyzer => { analyzer with pending := analyzer.pending.erase key }
    let checked ← checks.checkBody (bodyOf key decl) (← signatureOf key) site
    setSignature key checked.signature
    if let .method structName name := key then
      if name = StructInfo.initName then checkInitFields structName decl.body.statements
    modify fun analyzer =>
      { analyzer with
        finished := analyzer.finished.insert key
          { decl with
            body := checked.body
            captures := checked.captures
            signature := some checked.signature } }

/-- The type of a function once its return type is needed: a body that is not checked yet is
checked now, and one that is being checked gives the return type found so far. -/
def settle (checks : Checks) (signature : Ty) (key : FunctionKey) : Check Ty := do
  match signature with
  | .function params .unknown =>
    let analyzer ← get
    if analyzer.pending.contains key then
      checks.finish key
      signatureOf key
    else
      match analyzer.active.find? key with
      | some id => return .function params (analyzer.context id).result
      | none => return signature
  | _ => return signature

/-- Checks the methods of a struct, the constructor first. -/
def finishMethods (checks : Checks) (structName : String) (decl : StructDecl Stmt) : Check Unit := do
  if StructInfo.hasInit decl then checks.finish (.method structName StructInfo.initName)
  decl.methods.forM fun method => checks.finish (.method structName method.name)

/-- Checks the methods of a struct, which are not put off any more, and then the traits it lists. -/
def finishStruct (checks : Checks) (structName : String) : Check Unit := do
  modify (·.undefer structName)
  let analyzer ← get
  checks.finishMethods structName ((analyzer.structs.find? structName).getD default).decl
  Check.checkConformance structName

end Checks

end FlowScript
