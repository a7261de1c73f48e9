import FlowScript.Syntax
/-!
# Walking a tree

The nodes of a tree in pre-order (`Node.tree_eq`), and what is read off them: the names assigned somewhere,
and the names that a function assigns without declaring them.
-/

namespace FlowScript

/-- A node of a syntax tree. -/
inductive Node where
  | expr (expr : Expr)
  | stmt (stmt : Stmt)
  | field (field : FieldDecl)
  | method (method : MethodSig)

mutual

/-- The nodes of an expression, itself first. -/
def Expr.nodes : Expr → List Node
  | e@(.literal ..) | e@(.name ..) | e@(.self _) => [.expr e]
  | e@(.binary _ _ left right) => .expr e :: (left.nodes ++ right.nodes)
  | e@(.logical _ _ left right) => .expr e :: (left.nodes ++ right.nodes)
  | e@(.unary _ _ operand) => .expr e :: operand.nodes
  | e@(.is _ value _ _) => .expr e :: value.nodes
  | e@(.unwrap _ value) => .expr e :: value.nodes
  | e@(.assign _ target ident value) => .expr e :: .expr (.name target ident) :: value.nodes
  | e@(.assignField _ target object member value) =>
    .expr e :: .expr (.field target object member) :: (object.nodes ++ value.nodes)
  | e@(.call _ function args) => .expr e :: (function.nodes ++ Expr.nodesOfList args)
  | e@(.field _ object _) => .expr e :: object.nodes
  | e@(.methodCall _ receiver _ args) => .expr e :: (receiver.nodes ++ Expr.nodesOfList args)
  | e@(.closure _ _ _ ⟨position, body⟩ _) =>
    .expr e :: .stmt (.block ⟨position, body⟩) :: Stmt.nodesOfList body

/-- The nodes of a list of expressions. -/
def Expr.nodesOfList : List Expr → List Node
  | [] => []
  | e :: rest => e.nodes ++ Expr.nodesOfList rest

/-- The nodes of a statement, itself first. -/
def Stmt.nodes : Stmt → List Node
  | s@(.block ⟨_, body⟩) => .stmt s :: Stmt.nodesOfList body
  | s@(.varDecl _ _ _ none _) => [.stmt s]
  | s@(.varDecl _ _ _ (some value) _) => .stmt s :: value.nodes
  | s@(.expr _ value) => .stmt s :: value.nodes
  | s@(.ifElse _ condition ⟨position, body⟩ none) =>
    .stmt s :: (condition.nodes ++ .stmt (.block ⟨position, body⟩) :: Stmt.nodesOfList body)
  | s@(.ifElse _ condition ⟨position, body⟩ (some alternative)) =>
    .stmt s :: (condition.nodes ++
      .stmt (.block ⟨position, body⟩) :: (Stmt.nodesOfList body ++ alternative.nodes))
  | s@(.whileLoop _ condition ⟨position, body⟩) =>
    .stmt s :: (condition.nodes ++ .stmt (.block ⟨position, body⟩) :: Stmt.nodesOfList body)
  | s@(.forRange _ _ start stop ⟨position, body⟩) =>
    .stmt s :: (start.nodes ++ (stop.nodes ++
      .stmt (.block ⟨position, body⟩) :: Stmt.nodesOfList body))
  | s@(.ret _ none) => [.stmt s]
  | s@(.ret _ (some value)) => .stmt s :: value.nodes
  | s@(.function ⟨_, _, _, _, ⟨position, body⟩, _, _⟩) =>
    .stmt s :: .stmt (.block ⟨position, body⟩) :: Stmt.nodesOfList body
  | s@(.struct ⟨_, _, _, fields, methods⟩) =>
    .stmt s :: (fields.map Node.field ++ Stmt.nodesOfMethods methods)
  | s@(.trait decl) => .stmt s :: decl.methods.map Node.method

/-- The nodes of a list of statements. -/
def Stmt.nodesOfList : List Stmt → List Node
  | [] => []
  | s :: rest => s.nodes ++ Stmt.nodesOfList rest

/-- The nodes of a list of methods. -/
def Stmt.nodesOfMethods : List (FunctionDecl Stmt) → List Node
  | [] => []
  | ⟨declPosition, name, params, result, ⟨position, body⟩, captures, signature⟩ :: rest =>
    .stmt (.function ⟨declPosition, name, params, result, ⟨position, body⟩, captures, signature⟩) ::
      .stmt (.block ⟨position, body⟩) :: (Stmt.nodesOfList body ++ Stmt.nodesOfMethods rest)

end

-- The equations of these long recursions are made here, once for all modules that use them.
attribute [grind =] Expr.nodes Stmt.nodes

/-- The first node of an expression is itself. -/
theorem Expr.nodes_eq (e : Expr) : e.nodes = .expr e :: e.nodes.tail := by
  cases e <;> simp only [Expr.nodes, List.tail_cons]

/-- The first node of a statement is itself. -/
theorem Stmt.nodes_eq (s : Stmt) : s.nodes = .stmt s :: s.nodes.tail := by
  cases s with
  | varDecl position name written value resolved =>
    cases value <;> simp only [Stmt.nodes, List.tail_cons]
  | ifElse position condition body alternative =>
    cases alternative <;> simp only [Stmt.nodes, List.tail_cons]
  | ret position value => cases value <;> simp only [Stmt.nodes, List.tail_cons]
  | _ => simp only [Stmt.nodes, List.tail_cons]

theorem Expr.nodesOfList_eq (args : List Expr) :
    Expr.nodesOfList args = args.flatMap Expr.nodes := by
  induction args with
  | nil => rfl
  | cons arg rest ih => rw [Expr.nodesOfList, ih, List.flatMap_cons]

theorem Stmt.nodesOfList_eq (body : List Stmt) : Stmt.nodesOfList body = body.flatMap Stmt.nodes := by
  induction body with
  | nil => rfl
  | cons s rest ih => rw [Stmt.nodesOfList, ih, List.flatMap_cons]

namespace Stmt

theorem nodes_ifElse (position : Position) (condition : Expr) (body : Block Stmt)
    (alternative : Option Stmt) :
    (Stmt.ifElse position condition body alternative).nodes =
      .stmt (.ifElse position condition body alternative) :: (condition.nodes ++
        .stmt (.block body) :: (nodesOfList body.statements ++ alternative.elim [] nodes)) := by
  cases alternative with
  | none => rw [nodes, Option.elim_none, List.append_nil]
  | some other => rw [nodes, Option.elim_some]

end Stmt

namespace Node

/-- The nodes directly below a node. Types, parameters and listed traits are no nodes. -/
def children : Node → List Node
  | .expr e =>
    match e with
    | .literal .. | .name .. | .self _ => []
    | .binary _ _ left right | .logical _ _ left right => [.expr left, .expr right]
    | .unary _ _ operand => [.expr operand]
    | .is _ value _ _ | .unwrap _ value => [.expr value]
    | .assign _ target ident value => [.expr (.name target ident), .expr value]
    | .assignField _ target object member value =>
      [.expr (.field target object member), .expr value]
    | .call _ function args => .expr function :: args.map .expr
    | .field _ object _ => [.expr object]
    | .methodCall _ receiver _ args => .expr receiver :: args.map .expr
    | .closure _ _ _ body _ => [.stmt (.block body)]
  | .stmt s =>
    match s with
    | .block body => body.statements.map .stmt
    | .varDecl _ _ _ value _ => value.toList.map .expr
    | .expr _ value => [.expr value]
    | .ifElse _ condition body alternative =>
      .expr condition :: .stmt (.block body) :: alternative.toList.map .stmt
    | .whileLoop _ condition body => [.expr condition, .stmt (.block body)]
    | .forRange _ _ start stop body => [.expr start, .expr stop, .stmt (.block body)]
    | .ret _ value => value.toList.map .expr
    | .function decl => [.stmt (.block decl.body)]
    | .struct decl => decl.fields.map .field ++ decl.methods.map fun m => .stmt (.function m)
    | .trait decl => decl.methods.map .method
  | .field _ | .method _ => []

/-- The nodes of a tree, from its root on. -/
def tree : Node → List Node
  | .expr e => e.nodes
  | .stmt s => s.nodes
  | node => [node]

theorem tree_methods (methods : List (FunctionDecl Stmt)) :
    Stmt.nodesOfMethods methods = methods.flatMap fun m => tree (.stmt (.function m)) := by
  induction methods with
  | nil => rfl
  | cons m rest ih => simp [Stmt.nodesOfMethods, ih, tree, Stmt.nodes]

/-- The nodes of a tree are walked in pre-order: a node comes before the trees of its children. -/
theorem tree_eq (node : Node) : node.tree = node :: node.children.flatMap tree := by
  cases node with
  | expr e => cases e <;> simp [tree, children, Expr.nodes, Expr.nodesOfList_eq, Stmt.nodes, List.flatMap_map]
  | stmt s =>
    cases s with
    | varDecl _ _ _ value _ => cases value <;> simp [tree, children, Stmt.nodes]
    | ifElse _ _ _ alternative =>
      cases alternative <;> simp [tree, children, Stmt.nodes]
    | ret _ value => cases value <;> simp [tree, children, Stmt.nodes]
    | struct decl => simp [tree, children, Stmt.nodes, tree_methods, List.flatMap_map, ← List.map_eq_flatMap]
    | trait decl => simp [tree, children, Stmt.nodes, List.flatMap_map, ← List.map_eq_flatMap]
    | _ => simp [tree, children, Stmt.nodes, Stmt.nodesOfList_eq, List.flatMap_map]
  | field decl => rfl
  | method decl => rfl

/-- The name that a node assigns. -/
def assignedName? : Node → Option String
  | .expr (.assign _ _ ident _) => some ident
  | _ => none

/-- The name that a node declares as a variable or a function. -/
def declaredName? : Node → Option String
  | .stmt (.varDecl _ name _ _ _) => some name
  | .stmt (.function decl) => some decl.name
  | _ => none

end Node

/-- The names that an expression assigns anywhere, nested functions included. -/
def Expr.assignedNames (e : Expr) : List String := e.nodes.filterMap Node.assignedName?

/-- The names that a statement assigns anywhere, nested functions included. -/
def Stmt.assignedNames (s : Stmt) : List String := s.nodes.filterMap Node.assignedName?

/-- The names that statements assign anywhere, nested functions included. -/
def assignedNames (statements : List Stmt) : List String :=
  (Stmt.nodesOfList statements).filterMap Node.assignedName?

/-- The names that a function with these parameters and statements assigns but declares neither as
a parameter nor anywhere in its body. -/
def escapingNames (params : List Param) (statements : List Stmt) : List String :=
  let declared :=
    params.map Param.name ++ (Stmt.nodesOfList statements).filterMap Node.declaredName?
  (assignedNames statements).filter fun name => !declared.contains name

/-- The names that a node's own function body assigns without declaring them. -/
def Node.escapingNames : Node → List String
  | .expr (.closure _ params _ body _) => FlowScript.escapingNames params body.statements
  | .stmt (.function decl) => FlowScript.escapingNames decl.params decl.body.statements
  | _ => []

/-- The names that some function of a program assigns without declaring them. The variables of
these names can change at every call, so they are never narrowed. -/
def closureAssignedNames (program : Program) : List String :=
  (Stmt.nodesOfList program).flatMap Node.escapingNames

end FlowScript
