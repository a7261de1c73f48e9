import FlowScript.Proofs.EveryNode
import FlowScript.Proofs.Rendering
/-!
# Trees without notes

Checking gives back the tree it was given, with types noted in it.  `Expr.bare` and `Stmt.bare` take away all
that checking notes: types and widenings, the targets of type tests, the types of variables, and the captures
and types of functions.  The parser leaves all of these out.
-/

namespace FlowScript

/-- A note of the position alone. -/
def Note.bare (note : Note) : Note := { position := note.position }

mutual

/-- An expression without what checking notes in it. -/
def Expr.bare : Expr → Expr
  | .literal note value => .literal note.bare value
  | .name note ident => .name note.bare ident
  | .self note => .self note.bare
  | .binary note op left right => .binary note.bare op left.bare right.bare
  | .logical note op left right => .logical note.bare op left.bare right.bare
  | .unary note op operand => .unary note.bare op operand.bare
  | .is note value written _ => .is note.bare value.bare written none
  | .unwrap note value => .unwrap note.bare value.bare
  | .assign note target ident value => .assign note.bare target.bare ident value.bare
  | .assignField note target object member value =>
    .assignField note.bare target.bare object.bare member value.bare
  | .call note function args => .call note.bare function.bare (Expr.bareList args)
  | .field note object member => .field note.bare object.bare member
  | .methodCall note recv method args => .methodCall note.bare recv.bare method (Expr.bareList args)
  | .closure note params res ⟨position, body⟩ _ =>
    .closure note.bare params res ⟨position, Stmt.bareList body⟩ []

/-- Expressions without what checking notes in them. -/
def Expr.bareList : List Expr → List Expr
  | [] => []
  | e :: rest => e.bare :: Expr.bareList rest

/-- A statement without what checking notes in it. -/
def Stmt.bare : Stmt → Stmt
  | .block ⟨position, body⟩ => .block ⟨position, Stmt.bareList body⟩
  | .varDecl position name written none _ => .varDecl position name written none none
  | .varDecl position name written (some value) _ =>
    .varDecl position name written (some value.bare) none
  | .expr position value => .expr position value.bare
  | .ifElse position cond ⟨place, body⟩ none =>
    .ifElse position cond.bare ⟨place, Stmt.bareList body⟩ none
  | .ifElse position cond ⟨place, body⟩ (some other) =>
    .ifElse position cond.bare ⟨place, Stmt.bareList body⟩ (some other.bare)
  | .whileLoop position cond ⟨place, body⟩ =>
    .whileLoop position cond.bare ⟨place, Stmt.bareList body⟩
  | .forRange position name start stop ⟨place, body⟩ =>
    .forRange position name start.bare stop.bare ⟨place, Stmt.bareList body⟩
  | .ret position none => .ret position none
  | .ret position (some value) => .ret position (some value.bare)
  | .function ⟨position, name, params, res, ⟨place, body⟩, _, _⟩ =>
    .function ⟨position, name, params, res, ⟨place, Stmt.bareList body⟩, [], none⟩
  | .struct ⟨position, name, traits, fields, methods⟩ =>
    .struct ⟨position, name, traits, fields, Stmt.bareMethods methods⟩
  | .trait decl => .trait decl

/-- Statements without what checking notes in them. -/
def Stmt.bareList : List Stmt → List Stmt
  | [] => []
  | s :: rest => s.bare :: Stmt.bareList rest

/-- Methods without what checking notes in them. -/
def Stmt.bareMethods : List (FunctionDecl Stmt) → List (FunctionDecl Stmt)
  | [] => []
  | ⟨position, name, params, res, ⟨place, body⟩, _, _⟩ :: rest =>
    ⟨position, name, params, res, ⟨place, Stmt.bareList body⟩, [], none⟩ :: Stmt.bareMethods rest

end

-- The equations of these long recursions are made here, once for all modules that use them.
attribute [simp] Expr.bare Stmt.bare

/-- A block without what checking notes in it. -/
def Block.bare (body : Block Stmt) : Block Stmt := ⟨body.position, Stmt.bareList body.statements⟩

/-- A function without what checking notes in it. -/
def FunctionDecl.bare (decl : FunctionDecl Stmt) : FunctionDecl Stmt :=
  { decl with body := decl.body.bare, captures := [], signature := none }

theorem Stmt.bareList_eq (stmts : List Stmt) : Stmt.bareList stmts = stmts.map Stmt.bare := by
  induction stmts with
  | nil => rfl
  | cons s rest ih => rw [Stmt.bareList, ih, List.map_cons]

theorem Stmt.bareMethods_eq (methods : List (FunctionDecl Stmt)) :
    Stmt.bareMethods methods = methods.map FunctionDecl.bare := by
  induction methods with
  | nil => rfl
  | cons method rest ih =>
    rw [Stmt.bareMethods, ih, List.map_cons]
    rfl

namespace Stmt

variable (pos : Position)

theorem bare_function (decl : FunctionDecl Stmt) : (Stmt.function decl).bare = .function decl.bare := rfl

theorem bare_block (body : Block Stmt) : (Stmt.block body).bare = .block body.bare := rfl

theorem bare_varDecl (name : String) (written : Option TypeExpr) (value : Option Expr) (resolved : Option Ty) :
    (Stmt.varDecl pos name written value resolved).bare =
      .varDecl pos name written (value.map Expr.bare) none := by
  cases value <;> rfl

theorem bare_ret (value : Option Expr) : (Stmt.ret pos value).bare = .ret pos (value.map Expr.bare) := by
  cases value <;> rfl

theorem bare_ifElse (cond : Expr) (body : Block Stmt) (alt : Option Stmt) :
    (Stmt.ifElse pos cond body alt).bare = .ifElse pos cond.bare body.bare (alt.map Stmt.bare) := by
  cases alt <;> rfl

end Stmt

/-- Only the position of a note matters. -/
theorem Expr.bare_withNote {note : Note} {e : Expr} (same : note.position = e.position) :
    (e.withNote note).bare = e.bare := by
  have eq : note.bare = e.note.bare := congrArg (fun position : Position => ({ position } : Note)) same
  cases e <;> simp only [withNote, bare, eq] <;> rfl

/-- A note as the parser leaves it is left when its type is taken away again. -/
theorem Note.bare_noted (note : Note) (plain : note.Plain) {ty : Option Ty} :
    Note.bare { note with ty } = note := by
  obtain ⟨position, ty, widen⟩ := note
  obtain ⟨rfl, rfl⟩ := plain
  rfl

end FlowScript
