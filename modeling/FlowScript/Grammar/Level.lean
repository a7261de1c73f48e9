import FlowScript.Grammar.Cursor
/-!
# Nested parts

Expressions, blocks and types nest in each other.  A `Level` holds how they are read one level
further in, so that each rule of the grammar can be written down on its own and the rules are tied
together once.  The links of an assignment or of a chain of conditionals do not nest, but they are read
by rules that call themselves, so a level holds these too.
-/

namespace FlowScript

/-- How nested parts are read. -/
structure Level where
  /-- An expression. -/
  expression : Parse Expr
  /-- The operand of a unary operator. -/
  operand : Parse Expr
  /-- What an equals sign assigns, which is no deeper nested than its target. -/
  value : Parse Expr
  /-- The conditional after an `else`, which is no deeper nested than the one before it. -/
  conditional : Parse Stmt
  /-- A block; the text says in a message where it should stand. -/
  block : String → Parse (Block Stmt)
  /-- A type. -/
  type : Parse TypeExpr

namespace Level

/-! ## Types -/

/-- The type of a result, after an arrow. -/
def resultType (level : Level) : Parse (Option TypeExpr) := do
  if ← Parse.accept .arrow then return some (← level.type) else return none

/-- The type of a variable or a field, after a colon. -/
def annotation (level : Level) : Parse (Option TypeExpr) := do
  if ← Parse.accept .colon then return some (← level.type) else return none

/-- A type without the question marks after it. -/
def plainType (level : Level) : Parse TypeExpr := do
  let token ← Parse.peek
  match token.kind with
  | .identifier | .kwNil =>
    let _ ← Parse.advance
    return .named token.position token.lexeme false
  | .kwFn =>
    let _ ← Parse.advance
    let _ ← Parse.expect .leftParen "in function type"
    let params ← Parse.listed level.type
    let _ ← Parse.expect .rightParen "in function type"
    let result ← level.resultType
    return .function token.position params result false
  | .leftParen =>
    let _ ← Parse.advance
    let inner ← level.type
    let _ ← Parse.expect .rightParen "to close the parenthesized type"
    return inner
  | _ => Parse.fail (.expectedType token) token

/-- One more question mark after a type, if there is one. -/
def nextQuestion (written : TypeExpr) : Parse (Option TypeExpr) := do
  if ← Parse.accept .question then return some written.orNil else return none

/-- A type. -/
def typeBody (level : Level) : Parse TypeExpr := do
  Parse.iterate nextQuestion (← level.plainType)

/-! ## Parameters -/

/-- One parameter. -/
def param (level : Level) : Parse Param := do
  let name ← Parse.expect .identifier "as parameter name"
  let _ ← Parse.expect .colon ("after parameter '" ++ name.lexeme ++ "'")
  let written ← level.type
  return ⟨name.position, name.lexeme, written⟩

/-- A parameter list. -/
def params (level : Level) : Parse (List Param) := do
  let _ ← Parse.expect .leftParen "to open the parameter list"
  let params ← Parse.listed level.param
  let _ ← Parse.expect .rightParen "to close the parameter list"
  return params

end Level

end FlowScript
