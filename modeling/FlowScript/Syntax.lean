import FlowScript.Token
import FlowScript.Ty
/-!
# Syntax trees

The tree of a program.  Every expression carries a `Note` with its position and, once the program
is checked, its type and whether its value is widened; declarations likewise have places for what
checking finds out.  The parser leaves all of these at their defaults.
-/

namespace FlowScript

/-! ## Operators -/

/-- An operator between two evaluated operands. -/
inductive BinaryOp where
  | add | sub | mul | div | mod
  | eq | ne
  | lt | le | gt | ge
  deriving DecidableEq, Repr, Inhabited

namespace BinaryOp

/-- The spelling of an operator. -/
def text : BinaryOp → String
  | .add => "+" | .sub => "-" | .mul => "*" | .div => "/" | .mod => "%"
  | .eq => "==" | .ne => "!="
  | .lt => "<" | .le => "<=" | .gt => ">" | .ge => ">="

/-- Whether an operator computes with numbers. -/
def isArithmetic : BinaryOp → Bool
  | .add | .sub | .mul | .div | .mod => true
  | _ => false

/-- Whether an operator is one of the four orderings. -/
def isOrdering : BinaryOp → Bool
  | .lt | .le | .gt | .ge => true
  | _ => false

/-- Whether an operator tests equality. -/
def isEquality : BinaryOp → Bool
  | .eq | .ne => true
  | _ => false

end BinaryOp

/-- An operator whose right operand may stay unevaluated. -/
inductive LogicalOp where
  | and
  | or
  deriving DecidableEq, Repr, Inhabited

/-- The spelling of a logical operator. -/
def LogicalOp.text : LogicalOp → String
  | .and => "and"
  | .or => "or"

/-- An operator in front of its operand. -/
inductive UnaryOp where
  | neg
  | not
  deriving DecidableEq, Repr, Inhabited

/-- The spelling of a unary operator. -/
def UnaryOp.text : UnaryOp → String
  | .neg => "-"
  | .not => "!"

/-! ## Types as written -/

/-- A type as it is written in a program. -/
inductive TypeExpr where
  | named (position : Position) (name : String) (nilable : Bool)
  | function (position : Position) (params : List TypeExpr) (result : Option TypeExpr)
      (nilable : Bool)
  deriving Repr, Inhabited

namespace TypeExpr

/-- Where a written type starts. -/
def position : TypeExpr → Position
  | .named position .. => position
  | .function position .. => position

/-- A written type with a question mark after it. -/
def orNil : TypeExpr → TypeExpr
  | .named position name _ => .named position name true
  | .function position params result _ => .function position params result true

end TypeExpr

/-! ## Parts of declarations -/

/-- A parameter of a function. -/
structure Param where
  position : Position
  name : String
  written : TypeExpr
  deriving Repr, Inhabited

/-- A field of a struct. -/
structure FieldDecl where
  position : Position
  name : String
  written : Option TypeExpr
  deriving Repr, Inhabited

/-- A trait that a struct lists. -/
structure TraitRef where
  position : Position
  name : String
  deriving DecidableEq, Repr, Inhabited

/-- A method that a trait requires. -/
structure MethodSig where
  position : Position
  name : String
  params : List Param
  result : Option TypeExpr
  deriving Repr, Inhabited

/-- A trait declaration. -/
structure TraitDecl where
  position : Position
  name : String
  methods : List MethodSig
  deriving Repr, Inhabited

/-- Statements of type `S` between braces. -/
structure Block (S : Type) where
  position : Position
  statements : List S
  deriving Repr, Inhabited

/-- A named function or a method, with statements of type `S`. -/
structure FunctionDecl (S : Type) where
  position : Position
  name : String
  params : List Param
  result : Option TypeExpr
  body : Block S
  /-- The variables of enclosing functions and blocks that the body uses. -/
  captures : List String := []
  /-- The function's type, once it is known. -/
  signature : Option Ty := none
  deriving Repr, Inhabited

/-- A struct declaration, with statements of type `S` in its methods. -/
structure StructDecl (S : Type) where
  position : Position
  name : String
  traits : List TraitRef
  fields : List FieldDecl
  methods : List (FunctionDecl S)
  deriving Repr, Inhabited

/-! ## Expressions and statements -/

/-- What is known of an expression besides its shape. -/
structure Note where
  position : Position
  /-- The type, once the expression is checked. -/
  ty : Option Ty := none
  /-- Whether the value, if a whole number, is widened to a double. -/
  widen : Bool := false
  deriving DecidableEq, Repr, Inhabited

mutual

/-- An expression. -/
inductive Expr where
  | literal (note : Note) (value : Literal)
  | name (note : Note) (ident : String)
  /-- The receiver of the enclosing method. -/
  | self (note : Note)
  | binary (note : Note) (op : BinaryOp) (left right : Expr)
  | logical (note : Note) (op : LogicalOp) (left right : Expr)
  | unary (note : Note) (op : UnaryOp) (operand : Expr)
  /-- A type test; `target` is the tested type, once it is resolved. -/
  | is (note : Note) (value : Expr) (written : TypeExpr) (target : Option Ty)
  /-- The value without `nil`. -/
  | unwrap (note : Note) (value : Expr)
  /-- Assignment to the variable `ident`, whose own note is `target`. -/
  | assign (note : Note) (target : Note) (ident : String) (value : Expr)
  /-- Assignment to a field of `object`; the note of the field access is `target`. -/
  | assignField (note : Note) (target : Note) (object : Expr) (member : String) (value : Expr)
  | call (note : Note) (function : Expr) (args : List Expr)
  | field (note : Note) (object : Expr) (member : String)
  | methodCall (note : Note) (receiver : Expr) (method : String) (args : List Expr)
  /-- An anonymous function. -/
  | closure (note : Note) (params : List Param) (result : Option TypeExpr) (body : Block Stmt)
      (captures : List String)

/-- A statement. -/
inductive Stmt where
  | block (body : Block Stmt)
  /-- A variable; `resolved` is its type, once it is known. -/
  | varDecl (position : Position) (name : String) (written : Option TypeExpr)
      (value : Option Expr) (resolved : Option Ty)
  | expr (position : Position) (value : Expr)
  /-- A conditional; its alternative is a block or another conditional. -/
  | ifElse (position : Position) (condition : Expr) (body : Block Stmt)
      (alternative : Option Stmt)
  | whileLoop (position : Position) (condition : Expr) (body : Block Stmt)
  /-- A loop over the whole numbers from `start` up to below `stop`. -/
  | forRange (position : Position) (name : String) (start stop : Expr) (body : Block Stmt)
  | ret (position : Position) (value : Option Expr)
  | function (decl : FunctionDecl Stmt)
  | struct (decl : StructDecl Stmt)
  | trait (decl : TraitDecl)

end

/-- A program is a list of statements. -/
abbrev Program := List Stmt

namespace Expr

/-- The note of an expression. -/
def note : Expr → Note
  | .literal note .. | .name note .. | .self note | .binary note .. | .logical note ..
  | .unary note .. | .is note .. | .unwrap note .. | .assign note .. | .assignField note ..
  | .call note .. | .field note .. | .methodCall note .. | .closure note .. => note

/-- An expression with another note. -/
def withNote (note : Note) : Expr → Expr
  | .literal _ value => .literal note value
  | .name _ ident => .name note ident
  | .self _ => .self note
  | .binary _ op left right => .binary note op left right
  | .logical _ op left right => .logical note op left right
  | .unary _ op operand => .unary note op operand
  | .is _ value written target => .is note value written target
  | .unwrap _ value => .unwrap note value
  | .assign _ target ident value => .assign note target ident value
  | .assignField _ target object member value => .assignField note target object member value
  | .call _ function args => .call note function args
  | .field _ object member => .field note object member
  | .methodCall _ receiver method args => .methodCall note receiver method args
  | .closure _ params result body captures => .closure note params result body captures

/-- Where an expression is. -/
def position (e : Expr) : Position := e.note.position

/-- The type of an expression, once it is checked. -/
def ty (e : Expr) : Option Ty := e.note.ty

/-- The type of a checked expression. -/
def checkedTy (e : Expr) : Ty := e.ty.getD .unknown

/-- An expression with a type. -/
def withTy (ty : Ty) (e : Expr) : Expr := e.withNote { e.note with ty := some ty }

/-- An expression whose value is widened or not. -/
def withWiden (widen : Bool) (e : Expr) : Expr := e.withNote { e.note with widen }

@[simp] theorem note_withNote (note : Note) (e : Expr) : (e.withNote note).note = note := by
  cases e <;> rfl

@[simp] theorem ty_withWiden (widen : Bool) (e : Expr) : (e.withWiden widen).ty = e.ty := by
  simp [withWiden, Expr.ty]

/-- Whether an expression is the literal `nil`. -/
def isNil : Expr → Bool
  | .literal _ .nil => true
  | _ => false

end Expr

namespace Stmt

/-- Where a statement is. -/
def position : Stmt → Position
  | .block body => body.position
  | .varDecl position .. | .expr position .. | .ifElse position .. | .whileLoop position ..
  | .forRange position .. | .ret position .. => position
  | .function decl => decl.position
  | .struct decl => decl.position
  | .trait decl => decl.position

/-- Whether a statement only declares a function, a struct or a trait. -/
def isDeclaration : Stmt → Bool
  | .function _ | .struct _ | .trait _ => true
  | _ => false

end Stmt

end FlowScript
