import FlowScript.Grammar.Expression
/-!
# The grammar of statements

Statements, declarations and blocks.  After a problem the rest of the statement, field or trait
method is dropped, and reading goes on with the next one, so that one mistake does not hide others.
-/

namespace FlowScript

/-! ## Recovery -/

namespace TokenKind

/-- Whether a statement starts with a keyword of this kind. -/
def startsStatement : TokenKind → Bool
  | .kwVar | .kwFn | .kwStruct | .kwTrait | .kwIf | .kwWhile | .kwFor | .kwReturn => true
  | _ => false

/-- Whether a member of a struct or trait can end before a token of this kind. -/
def endsMember : TokenKind → Bool
  | .terminator | .comma | .rightBrace | .kwFn => true
  | _ => false

/-- Whether a token of this kind stands between members of a struct or trait. -/
def separatesMembers : TokenKind → Bool
  | .terminator | .comma => true
  | _ => false

end TokenKind

namespace Cursor

/-- The number of tokens to drop up to the end of a statement: past a terminator, or before a
closing brace, the start of a statement, or the end of the input. -/
def statementRest : List Token → Nat
  | [] => 0
  | token :: rest =>
    match token.kind with
    | .endOfInput | .rightBrace => 0
    | .terminator => 1
    | kind => if kind.startsStatement then 0 else statementRest rest + 1

/-- The number of tokens to drop up to the end of a member. `depth` counts the open braces, and
`progressed` tells whether a token of the member was taken, which the end of a member needs. -/
def memberRest (depth : Nat) (progressed : Bool) : List Token → Nat
  | [] => 0
  | token :: rest =>
    if token.kind = .endOfInput then 0
    else if depth = 0 ∧ progressed ∧ token.kind.endsMember then 0
    else
      match token.kind with
      | .leftBrace => memberRest (depth + 1) true rest + 1
      | .rightBrace => if depth = 0 then 0 else memberRest (depth - 1) true rest + 1
      | _ => memberRest depth true rest + 1

end Cursor

namespace Parse

/-- Takes `count` tokens and looks at the one after them. -/
def drop (count : Nat) : Parse Unit :=
  modify fun cursor => (cursor.look count).skip count

/-- Reports a problem and goes on after the statement that started at `start`. -/
def recoverStatement (start : Nat) (problem : SyntaxReport) : Parse Unit := do
  report problem
  drop (Cursor.statementRest (← get).rest)
  if (← get).consumed = start then
    let token ← peek
    if token.kind ≠ .endOfInput ∧ token.kind ≠ .rightBrace then
      let _ ← advance

/-- Reports a problem and goes on after the member that started at `start`. -/
def recoverMember (start : Nat) (problem : SyntaxReport) : Parse Unit := do
  report problem
  let cursor ← get
  drop (Cursor.memberRest 0 (start < cursor.consumed) cursor.rest)

/-- Reads an item; after a syntax problem `recover` is run, with the number of tokens taken before
the item, and there is no item. -/
def recovering {α : Type} (recover : Nat → SyntaxReport → Parse Unit) (item : Parse α) :
    Parse (Option α) := do
  let start := (← get).consumed
  tryCatch (some <$> item) fun
    | .problem problem => do
      recover start problem
      return none
    | interrupt => throw interrupt

end Parse

namespace Level

/-! ## Simple statements -/

/-- The initial value of a variable, after an equals sign. -/
def initialValue (level : Level) : Parse (Option Expr) := do
  if ← Parse.accept .equal then return some (← level.expression) else return none

/-- A variable declaration without its terminator. -/
def varDecl (level : Level) : Parse Stmt := do
  let keyword ← Parse.advance
  let name ← Parse.expect .identifier "after 'var'"
  let written ← level.annotation
  let value ← level.initialValue
  return .varDecl keyword.position name.lexeme written value none

/-- The value of a return statement, unless the statement ends here. -/
def returnedValue (level : Level) : Parse (Option Expr) := do
  match (← Parse.peek).kind with
  | .terminator | .rightBrace | .endOfInput => return none
  | _ => return some (← level.expression)

/-- A return statement. -/
def returnStmt (level : Level) : Parse Stmt := do
  let keyword ← Parse.advance
  let value ← level.returnedValue
  Parse.expectTerminator
  return .ret keyword.position value

/-- An expression as a statement. -/
def exprStmt (level : Level) : Parse Stmt := do
  let value ← level.expression
  Parse.expectTerminator
  return .expr value.position value

/-! ## Loops and conditionals -/

/-- A loop on a condition. -/
def whileStmt (level : Level) : Parse Stmt := do
  let keyword ← Parse.advance
  let condition ← level.expression
  let body ← level.block "after 'while' condition"
  return .whileLoop keyword.position condition body

/-- A loop over a range. -/
def forStmt (level : Level) : Parse Stmt := do
  let keyword ← Parse.advance
  let name ← Parse.expect .identifier "after 'for'"
  let _ ← Parse.expect .kwIn "after the loop variable"
  let start ← level.expression
  let _ ← Parse.expect .dotDot "between loop bounds"
  let stop ← level.expression
  let body ← level.block "after loop bounds"
  return .forRange keyword.position name.lexeme start stop body

/-- Takes an `else`, and the terminators before it. -/
def acceptElse : Parse Bool := do
  let terminators := (← get).leading fun kind => kind = .terminator
  if (← Parse.peekAt terminators).kind = .kwElse then
    modify fun cursor => cursor.skip (terminators + 1)
    return true
  else return false

/-- What follows the block of a conditional: nothing, another conditional or a block. -/
def alternative (level : Level) : Parse (Option Stmt) := do
  if ← acceptElse then
    if ← Parse.check .kwIf then return some (← level.conditional)
    else return some (.block (← level.block "after 'else'"))
  else return none

/-- A conditional. -/
def ifStmt (level : Level) : Parse Stmt := do
  let keyword ← Parse.advance
  let condition ← level.expression
  let body ← level.block "after 'if' condition"
  return .ifElse keyword.position condition body (← level.alternative)

/-! ## Declarations -/

/-- A named function or a method. -/
def functionDecl (level : Level) : Parse (FunctionDecl Stmt) := do
  let _ ← Parse.advance
  let name ← Parse.expect .identifier "after 'fn'"
  let params ← level.params
  let result ← level.resultType
  let body ← level.block ("for the body of '" ++ name.lexeme ++ "'")
  return { position := name.position, name := name.lexeme, params, result, body }

/-- A member of a struct. -/
inductive Member where
  | field (decl : FieldDecl)
  | method (decl : FunctionDecl Stmt)

/-- A field of a struct. -/
def fieldDecl (level : Level) : Parse FieldDecl := do
  let name ← Parse.expect .identifier "as field name"
  let written ← level.annotation
  return ⟨name.position, name.lexeme, written⟩

/-- The struct members read so far. A field counts even if its end is wrong. -/
structure Members where
  fields : Array FieldDecl := #[]
  methods : Array (FunctionDecl Stmt) := #[]

/-- Checks that a field is followed by a separator or the end of the struct. -/
def fieldEnd : Parse Unit := do
  let token ← Parse.peek
  match token.kind with
  | .terminator | .comma | .rightBrace => return
  | _ => Parse.fail (.expectedFieldEnd token) token

/-- One more struct member, if the struct does not end here. -/
def nextMember (level : Level) (members : Members) : Parse (Option Members) := do
  Parse.skipWhile TokenKind.separatesMembers
  let token ← Parse.peek
  match token.kind with
  | .rightBrace | .endOfInput => return none
  | .kwFn =>
    match ← Parse.recovering Parse.recoverMember level.functionDecl with
    | some method => return some { members with methods := members.methods.push method }
    | none => return some members
  | _ =>
    let start := (← get).consumed
    match ← Parse.recovering Parse.recoverMember level.fieldDecl with
    | some field =>
      let _ ← Parse.recovering (fun _ => Parse.recoverMember start) fieldEnd
      return some { members with fields := members.fields.push field }
    | none => return some members

/-- A trait that a struct lists. -/
def traitRef : Parse TraitRef := do
  let name ← Parse.expect .identifier "as trait name"
  return ⟨name.position, name.lexeme⟩

/-- The traits that a struct lists, after a colon. -/
def traitRefs : Parse (List TraitRef) := do
  if ← Parse.accept .colon then Parse.commaSeparated traitRef else return []

/-- A struct declaration. -/
def structDecl (level : Level) : Parse (StructDecl Stmt) := do
  let _ ← Parse.advance
  let name ← Parse.expect .identifier "after 'struct'"
  let traits ← traitRefs
  let _ ← Parse.expect .leftBrace ("to open the body of struct '" ++ name.lexeme ++ "'")
  let members ← Parse.iterate level.nextMember {}
  let _ ← Parse.expect .rightBrace ("to close struct '" ++ name.lexeme ++ "'")
  return ⟨name.position, name.lexeme, traits, members.fields.toList, members.methods.toList⟩

/-- A method that a trait requires. -/
def methodSig (level : Level) : Parse MethodSig := do
  let _ ← Parse.expect .kwFn "to start a trait method signature"
  let name ← Parse.expect .identifier "after 'fn'"
  let params ← level.params
  let result ← level.resultType
  let token ← Parse.peek
  if token.kind = .leftBrace then Parse.fail .traitMethodBody token
  else return ⟨name.position, name.lexeme, params, result⟩

/-- One more trait method, if the trait does not end here. -/
def nextMethodSig (level : Level) (methods : Array MethodSig) :
    Parse (Option (Array MethodSig)) := do
  Parse.skipWhile TokenKind.separatesMembers
  let token ← Parse.peek
  match token.kind with
  | .rightBrace | .endOfInput => return none
  | _ =>
    match ← Parse.recovering Parse.recoverMember level.methodSig with
    | some method => return some (methods.push method)
    | none => return some methods

/-- A trait declaration. -/
def traitDecl (level : Level) : Parse TraitDecl := do
  let _ ← Parse.advance
  let name ← Parse.expect .identifier "after 'trait'"
  let _ ← Parse.expect .leftBrace ("to open the body of trait '" ++ name.lexeme ++ "'")
  let methods ← Parse.iterate level.nextMethodSig #[]
  let _ ← Parse.expect .rightBrace ("to close trait '" ++ name.lexeme ++ "'")
  return ⟨name.position, name.lexeme, methods.toList⟩

/-! ## Statements and blocks -/

/-- A statement. -/
def statement (level : Level) : Parse Stmt := do
  let token ← Parse.peek
  match token.kind with
  | .kwVar =>
    let decl ← level.varDecl
    Parse.expectTerminator
    return decl
  | .kwFn =>
    if (← Parse.peekAt 1).kind = .identifier then return .function (← level.functionDecl)
    else level.exprStmt
  | .kwStruct => return .struct (← level.structDecl)
  | .kwTrait => return .trait (← level.traitDecl)
  | .kwIf => level.ifStmt
  | .kwWhile => level.whileStmt
  | .kwFor => level.forStmt
  | .kwReturn => level.returnStmt
  | .leftBrace => return .block (← level.block "")
  | _ => level.exprStmt

/-- One more statement of a block, if the block does not end here. -/
def nextStatement (level : Level) (statements : Array Stmt) : Parse (Option (Array Stmt)) := do
  let token ← Parse.peek
  match token.kind with
  | .rightBrace | .endOfInput => return none
  | _ =>
    let statement? ← Parse.recovering Parse.recoverStatement level.statement
    Parse.skipTerminators
    match statement? with
    | some statement => return some (statements.push statement)
    | none => return some statements

/-- A block. -/
def blockBody (level : Level) (context : String) : Parse (Block Stmt) := do
  let opening ← Parse.expect .leftBrace (if context = "" then "to open a block" else context)
  Parse.skipTerminators
  let statements ← Parse.iterate level.nextStatement #[]
  let _ ← Parse.expect .rightBrace
    ("to close the block opened at line " ++ toString opening.position.line)
  return ⟨opening.position, statements.toList⟩

end Level

end FlowScript
