import FlowScript.Proofs.Annotation
/-!
# Properties that the rules of checking pass on

Most rules of checking only put computations together.  They read the state and report problems, and some
also narrow what is known or note captures; all else they leave to their parts.  A property of computations
that is closed under these steps (`Check.Compositional`, and `Check.Stepwise` for the latter two) holds of
such a rule as soon as it holds of the parts, whatever the property is.  The rules that do more to the state
are hypotheses here: `Checks.AdmitsPairs` lists those for expressions.

The same rules pass on what is said of two computations at once, and of the nodes that they check
(`Check.Graded`).  A property of single computations is the case in which the second one and the nodes do not
matter (`Check.single`).

Main statements: `Check.Graded.checkExpr` and `Check.Graded.checkPlaced`, by which a statement holds of all
expressions and of all statements that are no declarations if it holds of the rules that change the state.
-/

namespace FlowScript

/-- Whether a problem is one of a struct that lacks what a trait requires. -/
def CheckProblem.onConformance : CheckProblem → Bool
  | .missingTraitMethod .. | .traitMethodMismatch .. => true
  | _ => false

namespace Check

/-- A property of computations that is closed under one computation after another, reading the state, and
reports on anything but conformance. -/
structure Compositional (holds : ∀ {α : Type}, Check α → Prop) : Prop where
  pure : ∀ {α : Type} (value : α), holds (Pure.pure value : Check α)
  bind : ∀ {α β : Type} {action : Check α} {rest : α → Check β}, holds action →
    (∀ result, holds (rest result)) → holds (action >>= rest)
  get : ∀ {β : Type} {rest : Analyzer → Check β}, (∀ analyzer, holds (rest analyzer)) →
    holds (MonadState.get >>= rest)
  report : ∀ {problem : CheckProblem}, problem.onConformance = false → ∀ position,
    holds (Check.report problem position)

/-- A property that also holds where what is known changes and where a capture is noted. -/
structure Stepwise (holds : ∀ {α : Type}, Check α → Prop) : Prop extends Compositional holds where
  modifyFlow : ∀ f, holds (Check.modifyFlow f)
  noteCapture : ∀ symbol, holds (Check.noteCapture symbol)

variable {holds : ∀ {α : Type}, Check α → Prop} {α β : Type}

/-! ## Rules that leave the state -/

namespace Compositional

variable (steps : Compositional holds)

include steps

/-- A computation of which something is returned. -/
theorem last {f : α → β} {action : Check α} (h : holds action) : holds (action >>= fun res => Pure.pure (f res)) :=
  steps.bind h fun _ => steps.pure _

theorem fail {problem : CheckProblem} (other : problem.onConformance = false) (pos : Position) :
    holds (Check.fail problem pos) :=
  steps.last (steps.report other _)

theorem map {f : α → β} {action : Check α} (h : holds action) : holds (f <$> action) := by
  rw [← bind_pure_comp]
  exact steps.last h

omit steps in
theorem ite {cond : Prop} [Decidable cond] {yes no : Check α} (first : holds yes)
    (second : holds no) : holds (if cond then yes else no) := by
  split
  · exact first
  · exact second

theorem mapM {ι : Type} {f : ι → Check α} (h : ∀ item, holds (f item)) (items : List ι) :
    holds (items.mapM f) := by
  induction items with
  | nil => exact steps.pure _
  | cons item rest ih =>
    rw [List.mapM_cons]
    exact steps.bind (h item) fun _ => steps.last ih

theorem forM {ι : Type} {f : ι → Check Unit} (items : List ι) (h : ∀ item ∈ items, holds (f item)) :
    holds (items.forM f) := by
  induction items with
  | nil => exact steps.pure _
  | cons item rest ih =>
    obtain ⟨first, others⟩ := List.forall_mem_cons.mp h
    exact steps.bind first fun _ => ih others

theorem foldlM {ι : Type} {f : α → ι → Check α} (h : ∀ res item, holds (f res item))
    (items : List ι) (start : α) : holds (items.foldlM f start) := by
  induction items generalizing start with
  | nil => exact steps.pure _
  | cons item rest ih =>
    rw [List.foldlM_cons]
    exact steps.bind (h start item) ih

theorem flowInto (expr : Expr) (src target : Ty) {problem : CheckProblem}
    (other : problem.onConformance = false) : holds (Check.flowInto expr src target problem) := by
  refine steps.get fun a => ?_
  split
  · exact steps.pure _
  · exact steps.pure _
  · exact steps.last (steps.report other _)

mutual

theorem resolveType : ∀ written : TypeExpr, holds (Check.resolveType written)
  | .named pos name nilable => by
    unfold Check.resolveType
    refine steps.get fun a => ?_
    split
    · exact steps.pure _
    · exact steps.fail rfl _
  | .function pos params res nilable => by
    unfold Check.resolveType
    refine steps.bind (resolveTypes params) fun params => ?_
    cases res with
    | some res => exact steps.last (resolveType res)
    | none => exact steps.pure _

theorem resolveTypes : ∀ written : List TypeExpr, holds (Check.resolveTypes written)
  | [] => steps.pure _
  | written :: rest => by
    unfold Check.resolveTypes
    exact steps.bind (resolveType written) fun _ => steps.last (resolveTypes rest)

end

theorem resolveSignature (params : List Param) (res : Option TypeExpr) (missing : Ty) :
    holds (Check.resolveSignature params res missing) := by
  refine steps.bind (steps.resolveTypes _) fun _ => ?_
  cases res with
  | some written => exact steps.last (steps.resolveType written)
  | none => exact steps.pure _

theorem resolveWritten (written : Option TypeExpr) : holds (Checks.resolveWritten written) := by
  cases written with
  | some written => exact steps.map (steps.resolveType written)
  | none => exact steps.pure _

theorem checkInitFields (sname : String) (stmts : List Stmt) :
    holds (Checks.checkInitFields sname stmts) := by
  refine steps.get fun a => steps.forM _ fun field _ => ?_
  split
  · exact ite (steps.report rfl _) (steps.pure _)
  · exact steps.pure _

theorem warnMixed (pos : Position) (left right : Ty) :
    holds (Checks.warnMixed pos left right) :=
  ite (steps.pure _) (steps.report rfl _)

/-- The rules for all operators. -/
theorem binaryType (op : BinaryOp) (pos : Position) (left right : Ty) :
    holds (Checks.binaryType op pos left right) := by
  have warn : holds (do
      Checks.warnMixed pos left right
      return Ty.bool) := steps.last (steps.warnMixed _ _ _)
  refine ite (steps.pure _) ?_
  split
  · exact steps.get fun a => ite (steps.fail rfl _) (ite warn (steps.pure _))
  · rename_i notEquality
    split
    · exact ite warn (ite (steps.pure _) (steps.fail rfl _))
    · rename_i notOrdering
      split
      · exact ite (steps.pure _) (ite (steps.pure _) (steps.fail rfl _))
      · -- no operator is left without a rule
        rename_i notArithmetic
        cases op <;> contradiction

theorem flowArguments (name : String) (index : Nat) (args : List Expr) (params : List Ty) :
    holds (Checks.flowArguments name index args params) := by
  induction args generalizing index params with
  | nil => exact steps.pure _
  | cons arg args ih =>
    cases params with
    | nil => exact steps.pure _
    | cons param params =>
      exact steps.bind (steps.flowInto _ _ _ rfl) fun _ => steps.last (ih _ _)

/-- Applying any value to arguments. -/
theorem applyFunction (pos : Position) (name : String) (fn : Ty) (args : List Expr) :
    holds (Checks.applyFunction pos name fn args) := by
  unfold Checks.applyFunction
  dsimp only
  split
  · exact steps.pure _
  · exact steps.last (steps.fail rfl _)
  · exact steps.last (steps.fail rfl _)
  · rename_i params res
    have final (args : List Expr) : holds (if res.isUnknown = true then
          do return (args, ← Check.fail (.unknownResultType name) pos)
        else Pure.pure (args, res)) :=
      ite (steps.last (steps.fail rfl _)) (steps.pure _)
    exact ite (steps.bind (steps.flowArguments _ _ _ _) final)
      (steps.bind (steps.report rfl _) fun _ => final args)
  · exact steps.last (steps.fail rfl _)

/-- Checking conformance, if any report will do. -/
theorem checkConformance (reports : ∀ problem pos, holds (Check.report problem pos)) (sname : String) :
    holds (Check.checkConformance sname) := by
  have required (info : StructInfo) (traitName : String) (ref : TraitRef) (required : String × Ty) :
      holds (Check.checkRequired info traitName ref required) := by
    refine steps.get fun a => ?_
    split
    · exact reports _ _
    · exact ite (reports _ _) (steps.pure ())
  refine steps.get fun _ => steps.forM _ fun ref _ => steps.get fun _ => ?_
  split
  · exact ite (steps.forM _ fun entry _ => required _ _ _ entry) (steps.pure ())
  · exact steps.pure ()

theorem arriveAt (mark : ∀ position, holds (modify fun analyzer => { analyzer with topLevel := some position } :
      Check Unit)) (progress : Checks.Progress) (stmt : Stmt) : holds (Checks.arriveAt progress stmt) := by
  refine steps.get fun _ => ite (steps.bind (mark _) fun _ => ?_) ?_
  all_goals exact ite (steps.last (steps.report rfl _)) (steps.pure _)

/-! ### What a test tells -/

theorem requireBool (what : String) (expr : Expr) : holds (Checks.requireBool what expr) := by
  unfold Checks.requireBool
  split
  · exact steps.pure _
  · exact steps.pure _
  · exact steps.pure _
  · exact steps.report rfl _

theorem narrowable? (expr : Expr) : holds (Checks.narrowable? expr) := by
  refine steps.get fun a => ?_
  split
  · split
    · exact ite (steps.pure _) (steps.pure _)
    · exact steps.pure _
  · exact steps.pure _

theorem nilFacts (op : BinaryOp) (left right : Expr) : holds (Checks.nilFacts op left right) := by
  refine ite (steps.bind (steps.narrowable? _) ?_) (ite (steps.bind (steps.narrowable? _) ?_) (steps.pure _))
  all_goals
    rintro (_ | ref)
    · exact steps.pure _
    · refine steps.get fun a => ?_
      split <;> exact steps.pure _

theorem isFacts (value : Expr) (target : Option Ty) : holds (Checks.isFacts value target) := by
  refine steps.bind (steps.narrowable? _) fun symbol => ?_
  split
  · exact ite (steps.pure _) (steps.get fun a => steps.pure _)
  · exact steps.pure _

theorem testFacts (expr : Expr) : holds (Checks.testFacts expr) := by
  unfold Checks.testFacts
  split
  · exact ite (steps.nilFacts _ _ _) (steps.pure _)
  · exact steps.isFacts _ _
  · exact steps.pure _

end Compositional

end Check

namespace Check

/-- A statement on two ways of checking some nodes; a strict one says more. -/
abbrev Grading := Bool → List Node → ∀ {α : Type}, Check α → Check α → Prop

/-- A statement on pairs of computations that is closed under the same steps, where two computations one
after the other check the nodes of both.  A node that is no function makes it strict. -/
structure Graded (holds : Grading) : Prop where
  pure : ∀ {α : Type} (value : α), holds false [] (Pure.pure value : Check α) (Pure.pure value)
  bind : ∀ {α β : Type} {nodes later : List Node} {action other : Check α} {rest following : α → Check β},
    holds false nodes action other → (∀ result, holds false later (rest result) (following result)) →
    holds false (nodes ++ later) (action >>= rest) (other >>= following)
  after : ∀ {α β : Type} {strict : Bool} {nodes : List Node} {action other : Check α}
    {rest following : α → Check β}, holds false [] action other →
    (∀ result, holds strict nodes (rest result) (following result)) →
    holds strict nodes (action >>= rest) (other >>= following)
  followed : ∀ {α β : Type} {strict : Bool} {nodes : List Node} {action other : Check α}
    {rest following : α → Check β}, holds strict nodes action other →
    (∀ result, holds false [] (rest result) (following result)) →
    holds strict nodes (action >>= rest) (other >>= following)
  get : ∀ {β : Type} {strict : Bool} {nodes : List Node} {rest following : Analyzer → Check β},
    (∀ analyzer, holds strict nodes (rest analyzer) (following analyzer)) →
    holds strict nodes (MonadState.get >>= rest) (MonadState.get >>= following)
  report : ∀ {problem : CheckProblem}, problem.onConformance = false → ∀ position,
    holds false [] (Check.report problem position) (Check.report problem position)
  modifyFlow : ∀ f, holds false [] (Check.modifyFlow f) (Check.modifyFlow f)
  noteCapture : ∀ symbol, holds false [] (Check.noteCapture symbol) (Check.noteCapture symbol)
  node : ∀ {α : Type} {node : Node} {nodes : List Node} {action other : Check α},
    holds false nodes action other → node.function? = none → holds true (node :: nodes) action other
  weaken : ∀ {α : Type} {nodes : List Node} {action other : Check α},
    holds true nodes action other → holds false nodes action other
  swap : ∀ {α : Type} {first second : List Node} {action other : Check α},
    holds false (first ++ second) action other → holds false (second ++ first) action other

end Check

/-- Whether a statement holds of checking one level further in, and of the rules for expressions that do
more to the state than their parts do. -/
structure Checks.AdmitsPairs (holds : Check.Grading) (checks others : Checks) : Prop where
  expr : ∀ e, holds false e.nodes (checks.expr e) (others.expr e)
  condition : ∀ e, holds false e.nodes (checks.condition e) (others.condition e)
  settle : ∀ signature key, holds false [] (checks.settle signature key) (others.settle signature key)
  checkName : ∀ ident position, holds false [] (checks.checkName ident position)
    (others.checkName ident position)
  checkAssign : ∀ note target ident value, holds true (Expr.assign note target ident value).nodes
    (checks.checkAssign note target ident value) (others.checkAssign note target ident value)
  assignedField : ∀ object member position value, holds false []
    (assignedField object member position value) (assignedField object member position value)
  checkCall : ∀ note function args, holds true (Expr.call note function args).nodes
    (checks.checkCall note function args) (others.checkCall note function args)
  checkClosure : ∀ {captures} note params result body,
    holds true (Expr.closure note params result body captures).nodes
      (checks.checkClosure note params result body) (others.checkClosure note params result body)

/-- Whether a statement also holds of the rules for statements that do more to the state than their parts
do. -/
structure Checks.AdmitsPlaced (holds : Check.Grading) (checks others : Checks) : Prop
    extends checks.AdmitsPairs holds others where
  checkBlock : ∀ block, holds true (Stmt.block block).nodes (checks.checkBlock block)
    (others.checkBlock block)
  checkIf : ∀ position condition body alternative,
    holds true (Stmt.ifElse position condition body alternative).nodes
      (checks.checkIf position condition body alternative)
      (others.checkIf position condition body alternative)
  checkLoop : ∀ name position block, holds true (Stmt.block block).nodes
    (checks.checkBlockAfter (do let _ ← Check.declare name .int .loop position) block)
    (others.checkBlockAfter (do let _ ← Check.declare name .int .loop position) block)
  checkVarDecl : ∀ position name written value, holds false (value.elim [] Expr.nodes)
    (checks.checkVarDecl position name written value) (others.checkVarDecl position name written value)
  checkReturn : ∀ position value, holds false (value.elim [] Expr.nodes)
    (checks.checkReturn position value) (others.checkReturn position value)

namespace Check.Graded

variable {holds : Grading} (steps : Graded holds) {checks others : Checks}

/-! ## Expressions -/

include steps

/-- On a computation and itself, of no nodes, such a statement is a property of computations. -/
theorem alone : Compositional fun {_} action => holds false [] action action where
  pure := steps.pure
  bind first second := steps.bind first second
  get h := steps.get h
  report := steps.report

omit steps in
theorem ite {α : Type} {strict : Bool} {nodes : List Node} {cond : Prop} [Decidable cond]
    {yes no others otherwise : Check α} (first : holds strict nodes yes others)
    (second : holds strict nodes no otherwise) :
    holds strict nodes (if cond then yes else no) (if cond then others else otherwise) := by
  split
  · exact first
  · exact second

theorem last {α β : Type} {strict : Bool} {nodes : List Node} {action other : Check α} {f : α → β}
    (h : holds strict nodes action other) :
    holds strict nodes (action >>= fun res => Pure.pure (f res)) (other >>= fun res => Pure.pure (f res)) :=
  steps.followed h fun _ => steps.pure _

theorem checkSelf (pos : Position) : holds false [] (Checks.checkSelf pos) (Checks.checkSelf pos) := by
  refine steps.get fun a => ?_
  split
  · exact steps.alone.fail rfl _
  · exact ite (steps.last (steps.noteCapture _)) (steps.alone.fail rfl _)

theorem checkAll (expr : ∀ e, holds false e.nodes (checks.expr e) (others.expr e)) (exprs : List Expr) :
    holds false (Expr.nodesOfList exprs) (exprs.mapM checks.expr) (exprs.mapM others.expr) := by
  induction exprs with
  | nil => exact steps.pure _
  | cons e rest ih =>
    rw [List.mapM_cons, List.mapM_cons, Expr.nodesOfList]
    exact steps.bind (expr e) fun _ => steps.last ih

section Expressions

variable (h : checks.AdmitsPairs holds others)

include h

theorem checkBinary (note : Note) (op : BinaryOp) (left right : Expr) :
    holds false (left.nodes ++ right.nodes) (checks.checkBinary note op left right)
      (others.checkBinary note op left right) :=
  steps.bind (h.expr _) fun _ => steps.followed (h.expr _) fun _ =>
    steps.followed (steps.alone.binaryType _ _ _ _) fun _ => ite (steps.pure _) (steps.pure _)

theorem checkNegation (note : Note) (operand : Expr) :
    holds false operand.nodes (checks.checkNegation note operand) (others.checkNegation note operand) := by
  refine steps.followed (h.expr _) fun operand => ite (steps.pure _) (ite (steps.pure _) ?_)
  exact steps.last (steps.alone.fail rfl _)

theorem checkIs (note : Note) (value : Expr) (written : TypeExpr) :
    holds false value.nodes (checks.checkIs note value written) (others.checkIs note value written) := by
  refine steps.followed (h.expr _) fun value => steps.followed (steps.alone.resolveType _) fun target => ?_
  refine ite (steps.get fun a => ite ?_ (steps.pure _)) (steps.pure _)
  exact steps.last (steps.report rfl _)

theorem checkUnwrap (note : Note) (value : Expr) :
    holds false value.nodes (checks.checkUnwrap note value) (others.checkUnwrap note value) := by
  refine steps.followed (h.expr _) fun value => ?_
  split
  · exact steps.pure _
  · exact steps.pure _
  · exact steps.last (steps.alone.fail rfl _)
  · exact steps.last (steps.alone.fail rfl _)

theorem structMember (info : StructInfo) (member : String) (pos : Position) :
    holds false [] (checks.structMember info member pos) (others.structMember info member pos) := by
  unfold Checks.structMember
  dsimp only
  split
  · exact ite (steps.alone.fail rfl _) (steps.pure _)
  · exact ite (steps.alone.fail rfl _) (h.settle _ _)
  · exact steps.alone.fail rfl _

theorem memberType (object : Ty) (member : String) (pos : Position) :
    holds false [] (checks.memberType object member pos) (others.memberType object member pos) := by
  refine ite (steps.pure _) (ite (steps.alone.fail rfl _) (steps.get fun a => ?_))
  split
  · exact steps.structMember h _ _ _
  · split
    · exact steps.pure _
    · exact steps.alone.fail rfl _
  · exact steps.alone.fail rfl _

theorem checkMethodCall (note : Note) (recv : Expr) (method : String) (args : List Expr) :
    holds false (recv.nodes ++ Expr.nodesOfList args) (checks.checkMethodCall note recv method args)
      (others.checkMethodCall note recv method args) := by
  refine steps.bind (h.expr _) fun _ => steps.after (steps.memberType h _ _ _) fun _ => ?_
  refine steps.followed (steps.checkAll h.expr _) fun _ => ?_
  exact steps.last (steps.alone.applyFunction _ _ _ _)

theorem checkLogical (note : Note) (op : LogicalOp) (left right : Expr) :
    holds false (left.nodes ++ right.nodes) (checks.checkLogical note op left right)
      (others.checkLogical note op left right) := by
  refine steps.bind (h.condition _) fun first => steps.after (steps.alone.requireBool _ _) fun _ => ?_
  refine steps.get fun a => steps.after (steps.modifyFlow _) fun _ => ?_
  refine steps.followed (h.condition _) fun second => ?_
  refine steps.followed (steps.alone.requireBool _ _) fun _ => ?_
  exact steps.last (steps.modifyFlow _)

theorem checkNot (note : Note) (operand : Expr) :
    holds false operand.nodes (checks.checkNot note operand) (others.checkNot note operand) :=
  steps.followed (h.condition _) fun _ => steps.last (steps.alone.requireBool _ _)

/-- What holds of the rules that change the state holds of all expressions. -/
theorem checkExpr (expr : Expr) :
    holds true expr.nodes (checks.checkExpr expr) (others.checkExpr expr) := by
  cases expr with
  | assign note target ident value => exact h.checkAssign note target ident value
  | call note fn args => exact h.checkCall note fn args
  | closure note params res body captures => exact h.checkClosure note params res body
  | _ => ?_
  all_goals
    rw [Expr.nodes]
    refine steps.node ?_ rfl
  case literal => exact steps.pure _
  case name => exact steps.last (h.checkName _ _)
  case self => exact steps.last (steps.checkSelf _)
  case binary note op left right => exact steps.checkBinary h note op left right
  case logical => exact steps.last (steps.checkLogical h _ _ _ _)
  case unary note op operand =>
    cases op with
    | neg => exact steps.checkNegation h note operand
    | not =>
      refine steps.followed (steps.checkNot h note operand) fun checked => ?_
      dsimp only
      split <;> exact steps.pure _
  case «is» note value written target => exact steps.checkIs h note value written
  case unwrap note value => exact steps.checkUnwrap h note value
  case assignField note target object member value =>
    -- the value is checked before the object
    refine steps.weaken (steps.node (steps.swap ?_) rfl)
    exact steps.bind (h.expr _) fun _ => steps.followed (h.expr _) fun _ =>
      steps.last (h.assignedField _ _ _ _)
  case field =>
    exact steps.followed (h.expr _) fun _ => steps.last (steps.memberType h _ _ _)
  case methodCall note recv method args => exact steps.checkMethodCall h note recv method args

theorem checkCondition (expr : Expr) :
    holds true expr.nodes (checks.checkCondition expr) (others.checkCondition expr) := by
  unfold Checks.checkCondition
  split
  · rw [Expr.nodes]
    exact steps.node (steps.checkLogical h _ _ _ _) rfl
  · rw [Expr.nodes]
    exact steps.node (steps.checkNot h _ _) rfl
  · exact steps.followed (steps.checkExpr h _) fun _ =>
      steps.last (steps.alone.testFacts _)

theorem checkBound (bound : Expr) :
    holds false bound.nodes (checks.checkBound bound) (others.checkBound bound) :=
  steps.followed (h.expr bound) fun _ =>
    ite (steps.last (steps.report rfl _)) (steps.pure _)

end Expressions

/-! ## Statements -/

section Statements

variable (h : checks.AdmitsPlaced holds others)

include h

theorem checkWhile (pos : Position) (cond : Expr) (body : Block Stmt) :
    holds true (Stmt.whileLoop pos cond body).nodes (checks.checkWhile pos cond body)
      (others.checkWhile pos cond body) := by
  have block := steps.weaken (h.checkBlock body)
  simp only [Stmt.nodes] at block ⊢
  refine steps.node (steps.after (steps.modifyFlow _) fun _ => steps.bind (h.condition cond) fun _ => ?_) rfl
  refine steps.after (steps.alone.requireBool _ _) fun _ => steps.get fun _ => ?_
  refine steps.after (steps.modifyFlow _) fun _ => steps.followed block fun _ => ?_
  exact steps.last (steps.modifyFlow _)

theorem checkFor (pos : Position) (name : String) (start stop : Expr) (body : Block Stmt) :
    holds true (Stmt.forRange pos name start stop body).nodes (checks.checkFor pos name start stop body)
      (others.checkFor pos name start stop body) := by
  have block := steps.weaken (h.checkLoop name pos body)
  simp only [Stmt.nodes] at block ⊢
  refine steps.node (steps.bind (steps.checkBound h.toAdmitsPairs start) fun _ => ?_) rfl
  refine steps.bind (steps.checkBound h.toAdmitsPairs stop) fun _ => ?_
  refine steps.after (steps.modifyFlow _) fun _ => steps.get fun _ => steps.followed block fun _ => ?_
  exact steps.last (steps.modifyFlow _)

/-- A statement that is no declaration. -/
theorem checkPlaced {stmt : Stmt} (placed : stmt.isDeclaration = false) (declared : Declared) :
    holds true stmt.nodes (checks.checkStatement stmt declared) (others.checkStatement stmt declared) := by
  cases stmt with
  | varDecl pos name written value resolved =>
    have rest := h.checkVarDecl pos name written value
    cases value <;> (rw [Stmt.nodes]; exact steps.node (steps.last rest) rfl)
  | expr pos value =>
    rw [Stmt.nodes]
    exact steps.node (steps.last (h.expr _)) rfl
  | block body => exact steps.last (h.checkBlock _)
  | ifElse pos cond body alt => exact steps.last (h.checkIf _ _ _ _)
  | whileLoop pos cond body => exact steps.last (steps.checkWhile h _ _ _)
  | forRange pos name start stop body =>
    exact steps.last (steps.checkFor h _ _ _ _ _)
  | ret pos value =>
    have rest := h.checkReturn pos value
    cases value <;> (rw [Stmt.nodes]; exact steps.node (steps.last rest) rfl)
  | function decl | struct decl | trait decl => cases placed

end Statements

end Check.Graded

/-! ## Properties of single computations -/

namespace Check

/-- A property of computations, as a statement on pairs of them. -/
def single (holds : ∀ {α : Type}, Check α → Prop) : Grading := fun _ _ {_} action _ => holds action

end Check

/-- Whether a property holds of checking one level further in, and of the rules for expressions that do more
to the state than their parts do. -/
abbrev Checks.Admits (holds : ∀ {α : Type}, Check α → Prop) (checks : Checks) : Prop :=
  checks.AdmitsPairs (Check.single holds) checks

/-- Whether a property also holds of the rules for statements that do more to the state than their parts
do. -/
structure Checks.AdmitsStatements (holds : ∀ {α : Type}, Check α → Prop) (checks : Checks) : Prop
    extends checks.AdmitsPlaced (Check.single holds) checks where
  finish : ∀ key, holds (checks.finish key)
  mark : ∀ position, holds (modify fun analyzer => { analyzer with topLevel := some position } : Check Unit)
  checkStruct : ∀ decl, holds (checks.checkStruct decl)

namespace Check.Stepwise

open Compositional (ite)

variable {holds : ∀ {α : Type}, Check α → Prop} (steps : Stepwise holds) {checks : Checks}

include steps

theorem graded : Graded (single holds) where
  pure := steps.pure
  bind := steps.bind
  after := steps.bind
  followed := steps.bind
  get := steps.get
  report := steps.report
  modifyFlow := steps.modifyFlow
  noteCapture := steps.noteCapture
  node h _ := h
  weaken h := h
  swap h := h

theorem checkReturned (expr : ∀ e, holds (checks.expr e)) (value : Option Expr) :
    holds (checks.checkReturned value) := by
  cases value with
  | some value => exact steps.map (expr value)
  | none => exact steps.pure _

theorem checkExpr (h : checks.Admits holds) (expr : Expr) : holds (checks.checkExpr expr) :=
  steps.graded.checkExpr h expr

theorem checkCondition (h : checks.Admits holds) (expr : Expr) : holds (checks.checkCondition expr) :=
  steps.graded.checkCondition h expr

theorem checkIf (condition : ∀ e, holds (checks.condition e)) (block : ∀ b, holds (checks.checkBlock b))
    (statement : ∀ s, holds (checks.statement s)) (pos : Position) (cond : Expr) (body : Block Stmt)
    (alt : Option Stmt) : holds (checks.checkIf pos cond body alt) := by
  have other : holds (checks.checkAlternative alt) := by
    cases alt with
    | some alt => exact steps.last (statement alt)
    | none => exact steps.pure _
  refine steps.bind (condition cond) fun _ => steps.bind (steps.requireBool _ _) fun _ => ?_
  refine steps.get fun _ => steps.bind (steps.modifyFlow _) fun _ => ?_
  refine steps.bind (block body) fun _ => steps.get fun _ => ?_
  refine steps.bind (steps.modifyFlow _) fun _ => steps.bind other fun _ => steps.get fun _ => ?_
  exact steps.last (steps.modifyFlow _)

variable (h : checks.AdmitsStatements holds)

include h

theorem checkStatement (stmt : Stmt) (declared : Check.Declared) :
    holds (checks.checkStatement stmt declared) := by
  by_cases placed : stmt.isDeclaration = false
  · exact steps.graded.checkPlaced h.toAdmitsPlaced placed declared
  · unfold Checks.checkStatement
    split <;> first
      | exact absurd rfl placed
      | skip
    · exact steps.last (h.finish _)
    · exact steps.last (h.checkStruct _)
    · exact steps.pure _

theorem checkNext (progress : Checks.Progress) (next : Stmt × Check.Declared) :
    holds (checks.checkNext progress next) :=
  steps.bind (steps.arriveAt h.mark progress next.1) fun _ => steps.last (steps.checkStatement h _ _)

end Check.Stepwise

end FlowScript
