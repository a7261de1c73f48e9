import FlowScript.Typing.Analyzer
/-!
# Declaring names

The functions, structs and traits of a statement list are visible in all of it.  So before the
statements are checked their names are declared, and then the types in their declarations are
resolved, which may name any of them.
-/

namespace FlowScript

namespace Check

/-! ## Written types -/

mutual

/-- The type that a written type denotes. An unknown name is reported. -/
def resolveType : TypeExpr → Check Ty
  | .named position name nilable => do
    match Ty.primitive? name <|> (← get).lookupType? name with
    | some ty => return if nilable then ty.orNil else ty
    | none => fail (.unknownType name) position
  | .function _ params result nilable => do
    let params ← resolveTypes params
    let result ← match result with
      | some result => resolveType result
      | none => pure .nil
    let ty := Ty.function params result
    return if nilable then ty.orNil else ty

/-- The types that a list of written types denotes. -/
def resolveTypes : List TypeExpr → Check (List Ty)
  | [] => return []
  | written :: rest => do
    let ty ← resolveType written
    return ty :: (← resolveTypes rest)

end

/-- The function type of a parameter list and a written result; `missing` is the result if none is
written. -/
def resolveSignature (params : List Param) (result : Option TypeExpr) (missing : Ty) :
    Check Ty := do
  let params ← resolveTypes (params.map Param.written)
  let result ← match result with
    | some written => resolveType written
    | none => pure missing
  return .function params result

/-! ## Names of declarations -/

/-- What a statement of the current list declares. -/
inductive Declared where
  /-- Nothing that other statements see before it. -/
  | nothing
  | function (key : FunctionKey)
  /-- A struct, if its name was free. -/
  | struct (registered : Bool)
  /-- A trait, if its name was free. -/
  | trait (registered : Bool)
  | variable (symbol : SymbolRef)
  deriving DecidableEq, Repr, Inhabited

/-- Whether a type name can be declared. Type names are unique in the whole program. -/
def typeNameFree (name : String) (position : Position) : Check Bool := do
  let analyzer ← get
  if (Ty.primitive? name).isSome || analyzer.structs.contains name ||
      analyzer.traits.contains name then
    report (.duplicateType name) (some position)
    return false
  else return true

/-- Makes a type name visible in the innermost frame. -/
def bindType (name : String) (ty : Ty) : Check Unit :=
  modify fun analyzer =>
    analyzer.modifyFrame (analyzer.site.frames.headD Analyzer.globalFrame) fun frame =>
      { frame with types := frame.types.insert name ty }

/-- Declares the name of a function, struct or trait. -/
def declareName : Stmt → Check Declared
  | .trait decl => do
    if ← typeNameFree decl.name decl.position then
      modify fun analyzer => { analyzer with traits := analyzer.traits.insert decl.name {} }
      bindType decl.name (.trait decl.name)
      return .trait true
    else return .trait false
  | .struct decl => do
    if ← typeNameFree decl.name decl.position then
      modify fun analyzer =>
        { analyzer with structs := analyzer.structs.insert decl.name { decl } }
      bindType decl.name (.struct decl.name)
      let _ ← declare decl.name (.struct decl.name) .struct decl.position
      return .struct true
    else return .struct false
  | .function decl => do
    let symbol ← declare decl.name (.function [] .unknown) .function decl.position
    let key := FunctionKey.function symbol.id
    modify fun analyzer =>
      { analyzer with pending := analyzer.pending.insert key ⟨decl, analyzer.site⟩ }
    return .function key
  | _ => return .nothing

/-! ## Types of declarations -/

/-- Resolves the methods of a trait. Without a written result they return nil. -/
def resolveTrait (decl : TraitDecl) : Check Unit :=
  decl.methods.forM fun method => do
    let info := ((← get).traits.find? decl.name).getD {}
    if info.methods.contains method.name then
      report (.duplicateTraitMethod decl.name method.name) (some method.position)
    else
      let signature ← resolveSignature method.params method.result .nil
      modify fun analyzer =>
        let info := (analyzer.traits.find? decl.name).getD {}
        { analyzer with
          traits := analyzer.traits.insert decl.name
            { info with methods := info.methods.insert method.name signature } }

/-- Resolves a field of a struct. -/
def resolveField (decl : StructDecl Stmt) (field : FieldDecl) : Check Unit := do
  let info := ((← get).structs.find? decl.name).getD default
  if info.fields.contains field.name then
    report (.duplicateField decl.name field.name) (some field.position)
  else
    let ty ← match field.written with
      | some written => resolveType written
      | none => pure .unknown
    modify fun analyzer => analyzer.modifyStruct decl.name fun info =>
      { info with fields := info.fields.insert field.name ty }

/-- Resolves a trait that a struct lists. -/
def resolveTraitRef (decl : StructDecl Stmt) (ref : TraitRef) : Check Unit := do
  let analyzer ← get
  let info := (analyzer.structs.find? decl.name).getD default
  match analyzer.lookupType? ref.name with
  | none => report (.unknownTrait ref.name) (some ref.position)
  | some (.trait _) =>
    if info.traits.contains ref.name then report (.duplicateTrait ref.name) (some ref.position)
    else
      modify fun analyzer => analyzer.modifyStruct decl.name fun info =>
        { info with traits := info.traits ++ [ref.name] }
  | some _ => report (.notTrait ref.name) (some ref.position)

/-- Resolves the signature of a method, whose body is to be checked later. -/
def resolveMethod (decl : StructDecl Stmt) (method : FunctionDecl Stmt) : Check Unit := do
  let info := ((← get).structs.find? decl.name).getD default
  if info.methods.contains method.name || info.fields.contains method.name then
    report (.duplicateMember decl.name method.name) (some method.position)
  else
    let signature ←
      if method.name = StructInfo.initName then do
        if let some written := method.result then
          report (.initResult decl.name) (some written.position)
        resolveSignature method.params none .nil
      else resolveSignature method.params method.result .unknown
    modify fun analyzer =>
      let changed := analyzer.modifyStruct decl.name fun info =>
        { info with methods := info.methods.insert method.name signature }
      { changed with
        pending := changed.pending.insert (.method decl.name method.name) ⟨method, changed.site⟩ }

/-- Resolves a struct: its fields, its traits, its methods. -/
def resolveStruct (decl : StructDecl Stmt) : Check Unit := do
  decl.fields.forM (resolveField decl)
  decl.traits.forM (resolveTraitRef decl)
  decl.methods.forM (resolveMethod decl)

/-- Resolves what a statement declares. -/
def resolveDeclared : Stmt × Declared → Check Unit
  | (.trait decl, .trait true) => resolveTrait decl
  | (.struct decl, .struct true) => resolveStruct decl
  | (.function decl, .function (.function id)) => do
    let _ ← demand (.waiting (.function id)) ((← get).pending.find? (.function id))
    let signature ← resolveSignature decl.params decl.result .unknown
    modify fun analyzer => analyzer.modifySymbol id fun symbol => { symbol with ty := signature }
  | _ => return

/-- Declares what the statements of a list declare for all of it. -/
def hoist (statements : List Stmt) : Check (List (Stmt × Declared)) := do
  let declared ← statements.mapM fun statement => return (statement, ← declareName statement)
  declared.forM resolveDeclared
  return declared

/-! ## Conformance -/

/-- Checks one required method of a trait against a struct. -/
def checkRequired (info : StructInfo) (traitName : String) (ref : TraitRef)
    (required : String × Ty) : Check Unit := do
  let (name, signature) := required
  let analyzer ← get
  match info.methods.find? name with
  | none =>
    report (.missingTraitMethod info.decl.name name traitName signature) (some ref.position)
  | some found =>
    let fits := match found, signature with
      | .function params result, .function wanted expected =>
        decide (params = wanted) && Ty.satisfies analyzer.conforms result expected
      | _, _ => true
    if !fits then
      let position := match info.decl.methods.find? fun method => method.name = name with
        | some method => method.position
        | none => ref.position
      report (.traitMethodMismatch info.decl.name name traitName signature found) (some position)

/-- Checks that a struct has what the traits it lists require. -/
def checkConformance (structName : String) : Check Unit := do
  let decl := (((← get).structs.find? structName).getD default).decl
  decl.traits.forM fun ref => do
    let analyzer ← get
    let info := (analyzer.structs.find? structName).getD default
    match analyzer.traits.find? ref.name with
    | some traitInfo =>
      if info.traits.contains ref.name then
        traitInfo.methods.entries.forM (checkRequired info ref.name ref)
    | none => return

end Check

end FlowScript
