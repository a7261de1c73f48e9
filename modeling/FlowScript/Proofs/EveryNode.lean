import FlowScript.Syntax.Traversal
/-!
# Trees of which every node has a property

`Expr.Each p` and `Stmt.Each p` say that all nodes of a tree have the property `p`.  For each kind of node there
is a lemma that splits this into the node itself and its parts.
-/

namespace FlowScript

variable {p : Node → Prop}

/-- Whether every node of an expression has a property. -/
def Expr.Each (p : Node → Prop) (e : Expr) : Prop := ∀ node ∈ e.nodes, p node

/-- Whether every node of a statement has a property. -/
def Stmt.Each (p : Node → Prop) (s : Stmt) : Prop := ∀ node ∈ s.nodes, p node

/-- Whether every node of some statements has a property. -/
def Stmt.EachOf (p : Node → Prop) (stmts : List Stmt) : Prop :=
  ∀ node ∈ Stmt.nodesOfList stmts, p node

namespace Expr

variable {e : Expr} {note : Note} {value : Expr}

theorem Each.own (h : e.Each p) : p (.expr e) :=
  h _ (e.nodes_eq ▸ List.mem_cons_self)

theorem each_list {exprs : List Expr} :
    (∀ node ∈ Expr.nodesOfList exprs, p node) ↔ ∀ e ∈ exprs, e.Each p := by
  induction exprs with
  | nil => simp [nodesOfList]
  | cons e rest ih => simp [nodesOfList, or_imp, forall_and, ih, Each]

theorem each_leaf (leaf : e.nodes = [.expr e]) : e.Each p ↔ p (.expr e) := by
  simp [Each, leaf]

theorem each_binary {op : BinaryOp} {left right : Expr} :
    (Expr.binary note op left right).Each p ↔
      p (.expr (.binary note op left right)) ∧ left.Each p ∧ right.Each p := by
  simp only [Each, nodes, List.forall_mem_cons, List.forall_mem_append]

theorem each_logical {op : LogicalOp} {left right : Expr} :
    (Expr.logical note op left right).Each p ↔
      p (.expr (.logical note op left right)) ∧ left.Each p ∧ right.Each p := by
  simp only [Each, nodes, List.forall_mem_cons, List.forall_mem_append]

theorem each_unary {op : UnaryOp} {operand : Expr} :
    (Expr.unary note op operand).Each p ↔
      p (.expr (.unary note op operand)) ∧ operand.Each p := by
  simp only [Each, nodes, List.forall_mem_cons]

theorem each_is {written : TypeExpr} {target : Option Ty} :
    (Expr.is note value written target).Each p ↔
      p (.expr (.is note value written target)) ∧ value.Each p := by
  simp only [Each, nodes, List.forall_mem_cons]

theorem each_unwrap : (Expr.unwrap note value).Each p ↔ p (.expr (.unwrap note value)) ∧ value.Each p := by
  simp only [Each, nodes, List.forall_mem_cons]

theorem each_assign {target : Note} {ident : String} :
    (Expr.assign note target ident value).Each p ↔
      p (.expr (.assign note target ident value)) ∧ p (.expr (.name target ident)) ∧
        value.Each p := by
  simp only [Each, nodes, List.forall_mem_cons]

theorem each_assignField {target : Note} {object : Expr} {member : String} :
    (Expr.assignField note target object member value).Each p ↔
      p (.expr (.assignField note target object member value)) ∧
        p (.expr (.field target object member)) ∧ object.Each p ∧ value.Each p := by
  simp only [Each, nodes, List.forall_mem_cons, List.forall_mem_append]

theorem each_call {fn : Expr} {args : List Expr} :
    (Expr.call note fn args).Each p ↔
      p (.expr (.call note fn args)) ∧ fn.Each p ∧ ∀ arg ∈ args, arg.Each p := by
  rw [← each_list]
  simp only [Each, nodes, List.forall_mem_cons, List.forall_mem_append]

theorem each_field {object : Expr} {member : String} :
    (Expr.field note object member).Each p ↔
      p (.expr (.field note object member)) ∧ object.Each p := by
  simp only [Each, nodes, List.forall_mem_cons]

theorem each_methodCall {recv : Expr} {method : String} {args : List Expr} :
    (Expr.methodCall note recv method args).Each p ↔
      p (.expr (.methodCall note recv method args)) ∧ recv.Each p ∧
        ∀ arg ∈ args, arg.Each p := by
  rw [← each_list]
  simp only [Each, nodes, List.forall_mem_cons, List.forall_mem_append]

theorem each_closure {params : List Param} {res : Option TypeExpr} {body : Block Stmt}
    {captures : List String} :
    (Expr.closure note params res body captures).Each p ↔
      p (.expr (.closure note params res body captures)) ∧ p (.stmt (.block body)) ∧
        Stmt.EachOf p body.statements := by
  simp only [Each, Stmt.EachOf, nodes, List.forall_mem_cons]

/-- Only the note of the expression itself is replaced. -/
theorem tail_nodes_withNote (note : Note) (e : Expr) :
    (e.withNote note).nodes.tail = e.nodes.tail := by
  cases e <;> simp only [withNote, nodes, List.tail_cons]

theorem Each.withNote (h : e.Each p) (own : p (.expr (e.withNote note))) : (e.withNote note).Each p := by
  intro node mem
  rw [nodes_eq, tail_nodes_withNote] at mem
  rcases List.mem_cons.mp mem with rfl | mem
  · exact own
  · exact h node (List.mem_of_mem_tail mem)

end Expr

namespace Stmt

variable {body : Block Stmt} {pos : Position}

theorem eachOf_iff {stmts : List Stmt} :
    EachOf p stmts ↔ ∀ s ∈ stmts, s.Each p := by
  induction stmts with
  | nil => simp [EachOf, nodesOfList]
  | cons s rest ih =>
    rw [List.forall_mem_cons, ← ih]
    simp [EachOf, nodesOfList, or_imp, forall_and, Each]

theorem each_block : (Stmt.block body).Each p ↔ p (.stmt (.block body)) ∧ EachOf p body.statements := by
  simp only [Each, EachOf, nodes, List.forall_mem_cons]

theorem each_varDecl {name : String} {written : Option TypeExpr} {value : Option Expr}
    {resolved : Option Ty} :
    (Stmt.varDecl pos name written value resolved).Each p ↔
      p (.stmt (.varDecl pos name written value resolved)) ∧ ∀ e ∈ value, e.Each p := by
  cases value <;> simp [Each, Expr.Each, nodes]

theorem each_expr {value : Expr} :
    (Stmt.expr pos value).Each p ↔ p (.stmt (.expr pos value)) ∧ value.Each p := by
  simp only [Each, Expr.Each, nodes, List.forall_mem_cons]

theorem each_ifElse {cond : Expr} {alt : Option Stmt} :
    (Stmt.ifElse pos cond body alt).Each p ↔
      p (.stmt (.ifElse pos cond body alt)) ∧ cond.Each p ∧
        (Stmt.block body).Each p ∧ ∀ other ∈ alt, other.Each p := by
  cases alt with
  | none =>
    simp only [Each, Expr.Each, nodes, List.forall_mem_cons, List.forall_mem_append,
      Option.not_mem_none, false_imp_iff, implies_true, and_true]
  | some other =>
    simp only [Each, Expr.Each, nodes, List.forall_mem_cons, List.forall_mem_append, and_assoc,
      Option.mem_some_iff, forall_eq']

theorem each_whileLoop {cond : Expr} :
    (Stmt.whileLoop pos cond body).Each p ↔
      p (.stmt (.whileLoop pos cond body)) ∧ cond.Each p ∧
        (Stmt.block body).Each p := by
  simp only [Each, Expr.Each, nodes, List.forall_mem_cons, List.forall_mem_append]

theorem each_forRange {name : String} {start stop : Expr} :
    (Stmt.forRange pos name start stop body).Each p ↔
      p (.stmt (.forRange pos name start stop body)) ∧ start.Each p ∧ stop.Each p ∧
        (Stmt.block body).Each p := by
  simp only [Each, Expr.Each, nodes, List.forall_mem_cons, List.forall_mem_append]

theorem each_ret {value : Option Expr} :
    (Stmt.ret pos value).Each p ↔
      p (.stmt (.ret pos value)) ∧ ∀ e ∈ value, e.Each p := by
  cases value <;> simp [Each, Expr.Each, nodes]

theorem each_function {decl : FunctionDecl Stmt} :
    (Stmt.function decl).Each p ↔
      p (.stmt (.function decl)) ∧ (Stmt.block decl.body).Each p := by
  simp only [Each, nodes, List.forall_mem_cons]

theorem each_methods {methods : List (FunctionDecl Stmt)} :
    (∀ node ∈ Stmt.nodesOfMethods methods, p node) ↔
      ∀ method ∈ methods, (Stmt.function method).Each p := by
  induction methods with
  | nil => simp [nodesOfMethods]
  | cons method rest ih =>
    rw [List.forall_mem_cons, ← ih]
    simp only [nodesOfMethods, Each, nodes, List.forall_mem_cons, List.forall_mem_append, and_assoc]

theorem each_struct {decl : StructDecl Stmt} :
    (Stmt.struct decl).Each p ↔
      p (.stmt (.struct decl)) ∧ (∀ field ∈ decl.fields, p (.field field)) ∧
        ∀ method ∈ decl.methods, (Stmt.function method).Each p := by
  rw [← each_methods]
  simp only [Each, nodes, List.forall_mem_cons, List.forall_mem_append, List.forall_mem_map]

theorem each_trait {decl : TraitDecl} :
    (Stmt.trait decl).Each p ↔
      p (.stmt (.trait decl)) ∧ ∀ method ∈ decl.methods, p (.method method) := by
  simp only [Each, nodes, List.forall_mem_cons, List.forall_mem_map]

end Stmt

end FlowScript
