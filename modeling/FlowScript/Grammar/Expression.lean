import FlowScript.Grammar.Level
/-!
# The grammar of expressions

From the loosest to the tightest: assignment, `or`, `and`, equality, comparison and type test, sum,
product, unary operators, and what follows a primary expression (calls, members, `!`).
-/

namespace FlowScript

namespace Level

/-- The arguments of a call, after the opening parenthesis. -/
def arguments (level : Level) : Parse (List Expr) := do
  let args ← Parse.listed level.expression
  let _ ← Parse.expect .rightParen "to close the argument list"
  return args

/-- An expression that no operator belongs to. -/
def primary (level : Level) : Parse Expr := do
  let token ← Parse.peek
  let note : Note := { position := token.position }
  match token.kind with
  | .integer | .float | .string | .kwTrue | .kwFalse | .kwNil =>
    let _ ← Parse.advance
    return .literal note token.value
  | .identifier =>
    let _ ← Parse.advance
    return .name note token.lexeme
  | .kwSelf =>
    let _ ← Parse.advance
    return .self note
  | .leftParen =>
    let _ ← Parse.advance
    let inner ← level.expression
    let _ ← Parse.expect .rightParen "to close the parenthesized expression"
    return inner
  | .kwFn =>
    let _ ← Parse.advance
    let params ← level.params
    let result ← level.resultType
    let body ← level.block "for the closure body"
    return .closure note params result body []
  | _ => Parse.fail (.expectedExpression token) token

/-- What follows an expression: a call, a member, or the test that it is not `nil`. -/
def suffix (level : Level) (expr : Expr) : Parse (Option Expr) := do
  let token ← Parse.peek
  match token.kind with
  | .leftParen =>
    let _ ← Parse.advance
    let args ← level.arguments
    return some (.call { position := expr.position } expr args)
  | .dot =>
    let _ ← Parse.advance
    let name ← Parse.expect .identifier "after '.'"
    let note : Note := { position := name.position }
    if ← Parse.accept .leftParen then
      let args ← level.arguments
      return some (.methodCall note expr name.lexeme args)
    else return some (.field note expr name.lexeme)
  | .bang =>
    let _ ← Parse.advance
    return some (.unwrap { position := token.position } expr)
  | _ => return none

/-- A primary expression with what follows it. -/
def suffixed (level : Level) : Parse Expr := do
  Parse.iterate level.suffix (← level.primary)

/-- An expression with unary operators in front of it. -/
def unary (level : Level) : Parse Expr := do
  let token ← Parse.peek
  let note : Note := { position := token.position }
  match token.kind with
  | .bang =>
    let _ ← Parse.advance
    return .unary note .not (← level.operand)
  | .minus =>
    let _ ← Parse.advance
    return .unary note .neg (← level.operand)
  | _ => level.suffixed

/-- How an operator combines its operands; its note stands at the operator. -/
abbrev Combine := Note → Expr → Expr → Expr

/-- One more operator of a rank with its right operand, if there is one. -/
def chainStep (operator? : TokenKind → Option Combine) (operand : Parse Expr) (left : Expr) :
    Parse (Option Expr) := do
  let token ← Parse.peek
  match operator? token.kind with
  | some combine =>
    let _ ← Parse.advance
    let right ← operand
    return some (combine { position := token.position } left right)
  | none => return none

/-- Operands with operators of one rank between them, grouped from the left. -/
def leftChain (operator? : TokenKind → Option Combine) (operand : Parse Expr) : Parse Expr := do
  Parse.iterate (chainStep operator? operand) (← operand)

/-- The operators of products. -/
def productOperator? : TokenKind → Option Combine
  | .star => some fun note => .binary note .mul
  | .slash => some fun note => .binary note .div
  | .percent => some fun note => .binary note .mod
  | _ => none

/-- The operators of sums. -/
def sumOperator? : TokenKind → Option Combine
  | .plus => some fun note => .binary note .add
  | .minus => some fun note => .binary note .sub
  | _ => none

/-- The ordering operators. -/
def orderingOperator? : TokenKind → Option Combine
  | .less => some fun note => .binary note .lt
  | .lessEqual => some fun note => .binary note .le
  | .greater => some fun note => .binary note .gt
  | .greaterEqual => some fun note => .binary note .ge
  | _ => none

/-- The equality operators. -/
def equalityOperator? : TokenKind → Option Combine
  | .equalEqual => some fun note => .binary note .eq
  | .notEqual => some fun note => .binary note .ne
  | _ => none

/-- The operator of conjunctions. -/
def andOperator? : TokenKind → Option Combine
  | .kwAnd => some fun note => .logical note .and
  | _ => none

/-- The operator of disjunctions. -/
def orOperator? : TokenKind → Option Combine
  | .kwOr => some fun note => .logical note .or
  | _ => none

/-- A product. -/
def product (level : Level) : Parse Expr := leftChain productOperator? level.unary

/-- A sum. -/
def sum (level : Level) : Parse Expr := leftChain sumOperator? level.product

/-- One more ordering operator with its right operand, or a type test, if there is one. -/
def comparisonStep (level : Level) (left : Expr) : Parse (Option Expr) := do
  let token ← Parse.peek
  if token.kind = .kwIs then
    let _ ← Parse.advance
    let written ← level.type
    return some (.is { position := token.position } left written none)
  else chainStep orderingOperator? level.sum left

/-- A comparison or a type test. -/
def comparison (level : Level) : Parse Expr := do
  Parse.iterate level.comparisonStep (← level.sum)

/-- An equality. -/
def equality (level : Level) : Parse Expr := leftChain equalityOperator? level.comparison

/-- A conjunction. -/
def conjunction (level : Level) : Parse Expr := leftChain andOperator? level.equality

/-- A disjunction. -/
def disjunction (level : Level) : Parse Expr := leftChain orOperator? level.conjunction

/-- The assignment of a value to a target, with the equals sign between them. A target that is no
variable and no field is reported and left out. -/
def assignTo (value : Expr) (target : Expr × Token) : Parse Expr :=
  match target with
  | (.name note ident, _) => return .assign { position := note.position } note ident value
  | (.field note object member, _) =>
    return .assignField { position := note.position } note object member value
  | (_, equal) => do
    Parse.report ⟨.invalidTarget, equal.position⟩
    return value

/-- An assignment, grouped from the right. -/
def assignment (level : Level) : Parse Expr := do
  let target ← level.disjunction
  let token ← Parse.peek
  if ← Parse.accept .equal then assignTo (← level.value) (target, token)
  else return target

end Level

end FlowScript
