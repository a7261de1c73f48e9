import FlowScript.Proofs.RelatedRuns
/-!
# Evaluation does not depend on the numbers of cells

Two runs of a program on machines of a bridge go along with each other.  The proof follows the rules of
evaluation: each rule keeps computations related if evaluation one level further down does, and
recursion on the levels ties the rules together.

So a program that runs on related machines acts alike on both.  The host must not look at the numbers of
cells either.  `Host.Stateless` says that its functions give related results on related heaps and arguments,
whatever the host remembers, and change no cell; a function that gives what it kept of earlier calls, or that
counts the cells of the heap, is not of this kind.

Main statements: `Setup.parametric` on every bridge and `Setup.run_related` on related machines.
-/

namespace FlowScript

variable {link : Link}

namespace Eval.Related

variable {host : Host} {bridge : Bridge host} {link : Link}
variable {value other : Value}

/-! ## Operators and members -/

/-- Operators give related results for related operands. -/
theorem binary (op : BinaryOp) {left left' right right' : Value}
    (hl : Value.Related link left left') (hr : Value.Related link right right')
    (pos : Position) :
    Related bridge Values link (Eval.binary op left right pos)
      (Eval.binary op left' right' pos) := by
  have zero : right.isZero = true ↔ right'.isZero = true := by rw [hr.isZero]
  cases op with
  | add => exact plainOperation (hl.add_eq hr) (.add _ _)
  | sub => exact plainOperation (hl.sub_eq hr) (.sub _ _)
  | mul => exact plainOperation (hl.mul_eq hr) (.mul _ _)
  | div =>
    exact ite zero (fault _ _) (plainOperation (hl.div_eq hr) (.div _ _))
  | mod =>
    exact ite zero (fault _ _) (plainOperation (hl.mod_eq hr) (.mod _ _))
  | eq =>
    refine assuming fun now m n le machines => ?_
    simp only [Eval.binary, bridge.equal machines (hl.mono le) (hr.mono le)]
    exact pure fun _ _ => .bool _
  | ne =>
    refine assuming fun now m n le machines => ?_
    simp only [Eval.binary, bridge.equal machines (hl.mono le) (hr.mono le)]
    exact pure fun _ _ => .bool _
  | lt | le | gt | ge =>
    exact plainOperation (hl.ordered_eq _ hr) (.ordered _ _ _)

theorem unary (op : UnaryOp) (related : Value.Related link value other) :
    Related bridge Values link (Eval.unary op value) (Eval.unary op other) := by
  cases op with
  | neg => exact plainOperation related.neg_eq (.neg _)
  | not =>
    simp only [Eval.unary, related.isTrue]
    exact pure fun _ _ => .bool _

theorem widen (related : Value.Related link value other) :
    Related bridge Values link (Eval.operation value.widen) (Eval.operation other.widen) := by
  have kept : Related bridge Values link (Pure.pure value) (Pure.pure other) :=
    pure fun _ le => related.mono le
  cases related with
  | int n =>
    refine plainOperation rfl ?_
    simp only [Value.widen]
    generalize Value.Number.int n = number
    exact .number fun _ => trivial
  | _ => exact kept

/-- A value that is no instance is shown in the fault, which is alike on both sides. -/
theorem receiver (related : Value.Related link value other) (member : String) (pos : Position) :
    Related bridge (fun now a b => now.object a b) link (Eval.receiver value member pos)
      (Eval.receiver other member pos) := by
  have shown : Related bridge (fun now a b => now.object a b) link
      (do Eval.fault (.notStruct (← Eval.display value) member) (some pos))
      (do Eval.fault (.notStruct (← Eval.display other) member) (some pos)) := by
    refine bind (display related) fun now text same _ eq => ?_
    subst eq
    exact fault _ _
  cases related with
  | «instance» id => exact pure fun _ le => le.object _ _ id
  | nil => exact fault _ _
  | _ => exact shown

/-- Related instances have related members. -/
theorem member {a b : Nat} (objects : link.object a b) (name : String) (pos : Position) :
    Related bridge Values link (Eval.member a name pos) (Eval.member b name pos) := by
  refine get fun now m n le machines => ?_
  have pair := le.object _ _ objects
  have target := bridge.object machines pair
  have field := target.fields.find? name
  have method := target.methods.find? name
  dsimp only
  rcases hf : (m.heap.instanceAt a).fields.find? name with _ | value <;>
    rcases hf' : (n.heap.instanceAt b).fields.find? name with _ | value' <;>
    rw [hf, hf'] at field
  · rcases hm : (m.heap.instanceAt a).methods.find? name with _ | code <;>
      rcases hm' : (n.heap.instanceAt b).methods.find? name with _ | code' <;>
      rw [hm, hm'] at method
    · rw [target.decl]
      exact fault _ _
    · cases method
    · cases method
    · rcases method with ⟨method⟩
      refine bind freshStamp fun later s t further stamp => ?_
      exact pure fun final more => .method (more.stamp _ _ stamp)
        ((further.trans more).object _ _ pair) (method.mono (further.trans more))
  · cases field
  · cases field
  · rcases field with ⟨field⟩
    exact pure fun _ further => field.mono further

/-- Host functions answer alike, and write the same. -/
theorem callHost (name : String) {args others : List Value}
    (related : List.Forall₂ (Value.Related link) args others) (pos : Option Position) :
    Related bridge Values link (Eval.callHost host name args pos)
      (Eval.callHost host name others pos) := by
  unfold Eval.callHost
  cases found : host.function? name with
  | none => exact fault _ _
  | some fn =>
    dsimp only
    rw [related.length_eq]
    refine faultIf _ _ _ (getAt fun now m n le machines => ?_)
    obtain ⟨later, more, after, reply, moves⟩ := bridge.answer machines fn
      (List.mem_of_find?_eq_some found) (related.imp fun _ _ => Value.Related.mono le)
    -- the reply was given on the machines that were read
    generalize fn.behavior m.heap args = one at after reply moves ⊢
    generalize fn.behavior n.heap others = two at after reply ⊢
    unfold HostReply.Related at reply
    refine .inr ⟨later, more, ?_⟩
    rcases hl : one.result with error | value <;> rcases hr : two.result with error' | value' <;>
      rw [hl, hr] at reply
    · subst reply
      cases error <;> exact ⟨after, .error (.fault _ _), moves⟩
    · exact reply.elim
    · exact reply.elim
    · exact ⟨after, .ok reply, moves⟩

end Eval.Related

/-! ## The rules of evaluation -/

/-- Whether two evaluators act alike on machines of a bridge, one level down. -/
structure Evaluator.Parametric {host : Host} (bridge : Bridge host) (inner outer : Evaluator) : Prop where
  expr : ∀ {link : Link} {left right : Environment} (expr : Expr),
    Environment.Related link left right →
    Eval.Related bridge Eval.Related.Values link (inner.expr left expr) (outer.expr right expr)
  statement : ∀ {link : Link} {left right : Environment} (statement : Stmt),
    Environment.Related link left right →
    Eval.Related bridge Eval.Related.Anything link (inner.statement left statement)
      (outer.statement right statement)
  call : ∀ {link : Link} {left right : Closure} {receiver other : Option Nat}
    {args others : List Value} (position : Option Position), Closure.Related link left right →
    Option.Rel link.object receiver other → List.Forall₂ (Value.Related link) args others →
    Eval.Related bridge Eval.Related.Values link (inner.call left receiver args position)
      (outer.call right other others position)

namespace Evaluator.Parametric

open Eval.Related

variable {inner outer : Evaluator} {host : Host} {bridge : Bridge host} {link : Link}
variable {args others : List Value} {left right : Environment}

/-- Names with related values, as fields and parameters get them. -/
theorem zip (names : List String) (related : List.Forall₂ (Value.Related link) args others) :
    List.Forall₂ (fun p q => p.1 = q.1 ∧ Value.Related link p.2 q.2) (names.zip args)
      (names.zip others) := by
  induction related generalizing names with
  | nil => simp
  | cons value _ ih =>
    cases names with
    | nil => exact .nil
    | cons name names => exact .cons ⟨rfl, value⟩ (ih names)

variable (h : inner.Parametric bridge outer)

include h

/-- Instances are built from related arguments alike. -/
theorem construct (decl : StructDecl Stmt) {methods methods' : Table String Closure}
    (same : Table.Related (Closure.Related link) methods methods')
    (related : List.Forall₂ (Value.Related link) args others) (pos : Option Position) :
    Eval.Related bridge Values link (inner.construct decl methods args pos)
      (outer.construct decl methods' others pos) := by
  have found := same.find? "init"
  unfold Evaluator.construct
  dsimp only
  rcases hl : methods.find? "init" with _ | init <;>
    rcases hr : methods'.find? "init" with _ | init' <;> rw [hl, hr] at found
  · dsimp only
    rw [related.length_eq]
    refine faultIf _ _ _ (bind (pushInstance ⟨rfl, ?_, same⟩) ?_)
    · exact Table.Related.ofList (zip _ related)
    · exact fun later a b _ id => pure fun _ more => .instance (more.object _ _ id)
  · cases found
  · cases found
  · rcases found with ⟨found⟩
    dsimp only
    rw [related.length_eq, found.params]
    refine faultIf _ _ _ (bind (pushInstance ⟨rfl, ?_, same⟩) ?_)
    · refine Table.Related.ofList ?_
      exact List.forall₂_same.mpr fun pair mem => by
        obtain ⟨name, _, rfl⟩ := List.mem_map.mp mem
        exact ⟨rfl, .nil⟩
    · intro now a b le id
      refine bind (h.call pos (found.mono le) (.some id)
        (related.imp fun _ _ => Value.Related.mono le)) ?_
      exact fun _ _ _ more _ => pure fun _ final =>
        .instance ((more.trans final).object _ _ id)

/-- Related values are called alike. -/
theorem invoke {fn other : Value} (same : Value.Related link fn other)
    (related : List.Forall₂ (Value.Related link) args others) (pos : Option Position) :
    Eval.Related bridge Values link (inner.invoke host fn args pos)
      (outer.invoke host other others pos) := by
  have shown : Eval.Related bridge Values link
      (do Eval.fault (.notCallable (← Eval.display fn)) pos)
      (do Eval.fault (.notCallable (← Eval.display other)) pos) := by
    refine bind (display same) fun now text same _ eq => ?_
    subst eq
    exact fault _ _
  cases same with
  | closure target => exact h.call pos target .none related
  | method _ receiver target => exact h.call pos target (.some receiver) related
  | constructor decl _ methods => exact h.construct decl methods related pos
  | host name => exact callHost name related pos
  | nil => exact fault _ _
  | _ => exact shown

/-- Methods and fields of related instances are called alike. -/
theorem invokeMember {a b : Nat} (objects : link.object a b) (name : String)
    (related : List.Forall₂ (Value.Related link) args others) (pos : Position) :
    Eval.Related bridge Values link (inner.invokeMember host a name args pos)
      (outer.invokeMember host b name others pos) := by
  refine get fun now m n le machines => ?_
  have pair := le.object _ _ objects
  have found := (bridge.object machines pair).methods.find? name
  have related' := related.imp fun _ _ => Value.Related.mono le
  rcases hl : (m.heap.instanceAt a).methods.find? name with _ | method <;>
    rcases hr : (n.heap.instanceAt b).methods.find? name with _ | method' <;> rw [hl, hr] at found
  · refine bind (member pair name pos) fun later f g further value => ?_
    exact h.invoke value (related'.imp fun _ _ => Value.Related.mono further) _
  · cases found
  · cases found
  · rcases found with ⟨found⟩
    exact h.call _ found (.some pair) related'

/-! ### Expressions -/

/-- The value of an expression before it is widened. -/
theorem evaluate (environments : Environment.Related link left right) (expr : Expr) :
    Eval.Related bridge Values link (inner.evaluate host left expr) (outer.evaluate host right expr) := by
  have arguments (args : List Expr) {now : Link} (le : link.Le now) :
      Eval.Related bridge (fun now => List.Forall₂ (Value.Related now)) now
        (args.mapM (inner.expr left)) (args.mapM (outer.expr right)) := by
    refine mapM ?_ args fun arg _ => h.expr arg (environments.mono le)
    exact fun _ _ _ _ => Value.Related.mono
  cases expr with
  | literal note value => exact pure fun _ _ => .ofLiteral value
  | name note ident => exact read environments ident _
  | self note => exact read environments "self" none
  | binary note op first second =>
    refine bind (h.expr first environments) fun now a b le one => ?_
    refine bind (h.expr second (environments.mono le)) fun later c d further two => ?_
    exact binary op (one.mono further) two note.position
  | logical note op first second =>
    refine bind (h.expr first environments) fun now a b le one => ?_
    have same := one.isTrue
    have rest := h.expr second (environments.mono le)
    cases op <;> cases ha : a.isTrue <;> cases hb : b.isTrue <;> simp only [ha, hb] at same ⊢
    · exact pure fun _ _ => .bool _
    · cases same
    · cases same
    · exact rest
    · exact rest
    · cases same
    · cases same
    · exact pure fun _ _ => .bool _
  | unary note op operand =>
    exact bind (h.expr operand environments) fun _ _ _ _ value => unary op value
  | is note value written target =>
    refine bind (h.expr value environments) fun now a b le one => ?_
    refine get fun later m n further machines => ?_
    have same (ty : Ty) : a.hasType m.heap ty = b.hasType n.heap ty :=
      bridge.hasType machines (one.mono further) ty
    simp only [same]
    exact pure fun _ _ => .bool _
  | unwrap note value =>
    refine bind (h.expr value environments) fun now a b le one => ?_
    have kept : Eval.Related bridge Values now (Pure.pure a) (Pure.pure b) :=
      pure fun _ le => one.mono le
    cases one with
    | nil => exact fault _ _
    | _ => exact kept
  | assign note target ident value =>
    refine bind (h.expr value environments) fun now a b le one => ?_
    refine bind (assign (environments.mono le) ident one _) fun later _ _ further _ => ?_
    exact pure fun _ more => one.mono (further.trans more)
  | assignField note target object member value =>
    refine bind (h.expr value environments) fun now a b le one => ?_
    refine bind (h.expr object (environments.mono le)) fun later c d further two => ?_
    refine bind (receiver two member target.position) fun last x y more id => ?_
    refine bind (setField id member (one.mono (further.trans more))) fun final _ _ end' _ => ?_
    exact pure fun _ beyond => one.mono (further.trans (more.trans (end'.trans beyond)))
  | call note fn args =>
    refine bind (h.expr fn environments) fun now f g le one => ?_
    refine bind (arguments args le) fun later as bs further two => ?_
    exact h.invoke (one.mono further) two _
  | field note object member =>
    refine bind (h.expr object environments) fun now a b le one => ?_
    refine bind (receiver one member note.position) fun later x y further id => ?_
    exact Eval.Related.member id member note.position
  | methodCall note object method args =>
    refine bind (h.expr object environments) fun now a b le one => ?_
    refine bind (receiver one method note.position) fun later x y further id => ?_
    refine bind (arguments args (le.trans further)) fun last as bs more two => ?_
    exact h.invokeMember (more.object _ _ id) method two note.position
  | closure note params res body captures =>
    refine bind freshStamp fun now s t le stamp => ?_
    exact pure fun later further => .closure ⟨further.stamp _ _ stamp, rfl, rfl, rfl,
      environments.mono (le.trans further)⟩

theorem evalExpr (environments : Environment.Related link left right) (expr : Expr) :
    Eval.Related bridge Values link (inner.evalExpr host left expr) (outer.evalExpr host right expr) := by
  refine bind (h.evaluate environments expr) fun now a b le value => ?_
  exact ite Iff.rfl (widen value) (pure fun _ further => value.mono further)

/-! ### Statements -/

omit h in
theorem closureOf (environments : Environment.Related link left right) {s t : Nat} (stamp : link.stamp s t)
    (decl : FunctionDecl Stmt) :
    Closure.Related link (Eval.closureOf left s decl) (Eval.closureOf right t decl) :=
  ⟨stamp, rfl, rfl, rfl, environments⟩

omit h in
theorem hoist (environments : Environment.Related link left right) (stmt : Stmt) :
    Eval.Related bridge Anything link (Eval.hoist left stmt) (Eval.hoist right stmt) := by
  cases stmt with
  | function decl =>
    refine bind freshStamp fun now s t le stamp => ?_
    have environments' := environments.mono le
    exact define environments' decl.name (.some (.closure (closureOf environments' stamp decl)))
  | struct decl =>
    refine bind freshStamp fun now s t le stamp => ?_
    have environments' := environments.mono le
    refine define environments' decl.name (.some (.constructor decl stamp ?_))
    refine Table.Related.ofList (List.forall₂_map_left_iff.mpr (List.forall₂_map_right_iff.mpr ?_))
    exact List.forall₂_same.mpr fun method _ => ⟨rfl, closureOf environments' stamp method⟩
  | _ => exact pure fun _ _ => trivial

omit h in
theorem whileLoop {cond condition' : Eval Value} {body body' : Eval Unit}
    (tests : Eval.Related bridge Values link cond condition')
    (bodies : Eval.Related bridge Anything link body body') (patience : Nat) :
    Eval.Related bridge Anything link (Eval.whileLoop cond body patience)
      (Eval.whileLoop condition' body' patience) := by
  induction patience generalizing link with
  | zero => exact throw fun _ _ => .diverged
  | succ patience ih =>
    refine bind tests fun now a b le value => ?_
    refine ite (by rw [value.isTrue]) ?_ (pure fun _ _ => trivial)
    refine bind (bodies.mono le) fun later _ _ further _ => ?_
    exact ih (tests.mono (le.trans further)) (bodies.mono (le.trans further))

omit h in
theorem forLoop {body body' : Int → Eval Unit}
    (bodies : ∀ index, Eval.Related bridge Anything link (body index) (body' index)) (count : Nat)
    (index : Int) :
    Eval.Related bridge Anything link (Eval.forLoop body count index)
      (Eval.forLoop body' count index) := by
  induction count generalizing link index with
  | zero => exact pure fun _ _ => trivial
  | succ count ih =>
    exact bind (bodies index) fun _ _ _ le _ => ih (fun index => (bodies index).mono le) _

theorem runBlock (environments : Environment.Related link left right) (stmts : List Stmt) :
    Eval.Related bridge Anything link (inner.runBlock left stmts)
      (outer.runBlock right stmts) := by
  refine bind (forM stmts fun stmt _ => hoist environments stmt) ?_
  exact fun _ _ _ le _ =>
    forM stmts fun stmt _ => h.statement stmt (environments.mono le)

theorem runNested {bindings others : Bindings} (related : Bindings.Related link bindings others)
    (environments : Environment.Related link left right) (block : Block Stmt) :
    Eval.Related bridge Anything link (inner.runNested bindings left block)
      (outer.runNested others right block) :=
  bind (pushFrame related environments) fun _ _ _ _ inside => h.runBlock inside block.statements

/-- Statements do the same in related environments. -/
theorem runStatement (patience : Nat) (environments : Environment.Related link left right)
    (stmt : Stmt) :
    Eval.Related bridge Anything link (inner.runStatement patience left stmt)
      (outer.runStatement patience right stmt) := by
  cases stmt with
  | block body => exact h.runNested .empty environments body
  | varDecl pos name written value resolved =>
    cases value with
    | some value =>
      refine bind (h.expr value environments) fun now a b le one => ?_
      exact define (environments.mono le) name (.some one)
    | none =>
      refine define environments name ?_
      cases resolved.any Ty.isNilable
      · exact .none
      · exact .some .nil
  | expr pos value =>
    exact bind (h.expr value environments) fun _ _ _ _ _ => pure fun _ _ => trivial
  | ifElse pos cond body alt =>
    refine bind (h.expr cond environments) fun now a b le one => ?_
    refine ite (by rw [one.isTrue]) (h.runNested .empty (environments.mono le) body) ?_
    cases alt with
    | some stmt => exact h.statement stmt (environments.mono le)
    | none => exact pure fun _ _ => trivial
  | whileLoop pos cond body =>
    exact whileLoop (h.expr cond environments) (h.runNested .empty environments body) patience
  | forRange pos name start stop body =>
    refine bind (h.expr start environments) fun now a b le one => ?_
    refine bind (h.expr stop (environments.mono le)) fun later c d further two => ?_
    refine bind (operation one.index) fun next i j more first => ?_
    obtain ⟨rfl, -⟩ := first
    refine bind (operation two.index) fun last k l end' second => ?_
    obtain ⟨rfl, -⟩ := second
    have reached := le.trans (further.trans (more.trans end'))
    refine forLoop (fun index => h.runNested ?_ (environments.mono reached) body) _ _
    exact Table.Related.empty.insert name (.some (.int index))
  | ret pos value =>
    cases value with
    | some value =>
      exact bind (h.expr value environments) fun _ _ _ _ one =>
        throw fun _ le => .returned (one.mono le)
    | none => exact throw fun _ _ => .returned .nil
  | function | struct | trait => exact pure fun _ _ => trivial

/-! ### Calls -/

omit h in
/-- The variables of a call are related. -/
theorem callBindings {left right : Closure} (target : Closure.Related link left right)
    {receiver other : Option Nat} (receivers : Option.Rel link.object receiver other)
    (related : List.Forall₂ (Value.Related link) args others) :
    Bindings.Related link (Evaluator.callBindings left receiver args)
      (Evaluator.callBindings right other others) := by
  have params : List.Forall₂
      (fun p q => p.1 = q.1 ∧ Option.Rel (Value.Related link) p.2 q.2)
      ((left.params.zip args).map fun pair => (pair.1, some pair.2))
      ((right.params.zip others).map fun pair => (pair.1, some pair.2)) := by
    rw [target.params]
    refine List.forall₂_map_left_iff.mpr (List.forall₂_map_right_iff.mpr ?_)
    exact (zip right.params related).imp fun _ _ pair => ⟨pair.1, .some pair.2⟩
  cases receivers with
  | some id => exact Table.Related.ofList (.cons ⟨rfl, .some (.instance id)⟩ params)
  | none => exact Table.Related.ofList params

/-- Calls do the same, unless one goes too deep on the left. -/
theorem runCall {tight wide : Nat}
    (limits : tight = wide ∨ tight ≤ wide ∧ ∀ name pos, bridge.cut (.fault (.callDepth tight name) pos))
    (within : ∀ most ∈ bridge.limit, tight ≤ most) {left right : Closure} (target : Closure.Related link left right) {receiver other : Option Nat}
    (receivers : Option.Rel link.object receiver other)
    (related : List.Forall₂ (Value.Related link) args others) (pos : Option Position) :
    Eval.Related bridge Values link (inner.runCall tight left receiver args pos)
      (outer.runCall wide right other others pos) := by
  unfold Evaluator.runCall
  rw [related.length_eq, target.params, target.name]
  refine faultIf _ _ _ (getAt fun now m n le machines => ?_)
  refine callDepth (limits.imp_right (And.imp_right fun cut => cut _ _)) machines fun shallow => ?_
  have bindings := callBindings target receivers related
  refine enter machines (fun most mem => Nat.lt_of_lt_of_le shallow (within most mem)) (bindings.mono le)
    (target.environment.mono le) fun later outer other _ environments => ?_
  rw [target.body]
  exact returned (h.runBlock environments right.body)

/-! ## Whole programs -/

theorem step (globals : Environment.Related link Heap.globalEnvironment Heap.globalEnvironment)
    (stmt : Stmt) :
    Eval.Related bridge Values link (inner.step stmt) (outer.step stmt) := by
  have silent : Eval.Related bridge Values link
      (do inner.statement Heap.globalEnvironment stmt; return .nil)
      (do outer.statement Heap.globalEnvironment stmt; return .nil) :=
    bind (h.statement stmt globals) fun _ _ _ _ _ => pure fun _ _ => .nil
  cases stmt with
  | expr _ value => exact h.expr value globals
  | _ => exact silent

/-- The declarations and the statements of a program. -/
theorem statements (globals : Environment.Related link Heap.globalEnvironment Heap.globalEnvironment)
    (prog : Program) :
    Eval.Related bridge Values link
      (prog.forM (Eval.hoist Heap.globalEnvironment) >>= fun _ => prog.foldlM (fun _ => inner.step) .nil)
      (prog.forM (Eval.hoist Heap.globalEnvironment) >>= fun _ => prog.foldlM (fun _ => outer.step) .nil) :=
  bind (forM prog fun stmt _ => Evaluator.Parametric.hoist globals stmt) fun _ _ _ le _ =>
    foldlM prog (fun _ _ _ stmt _ more _ => h.step (globals.mono (le.trans more)) stmt) .nil
      (fun _ _ _ _ => Value.Related.mono)

theorem execute (restart : ∀ machine, bridge.moves machine { machine with depth := 0 })
    (globals : Environment.Related link Heap.globalEnvironment Heap.globalEnvironment)
    (prog : Program) :
    Eval.Related bridge Values link (inner.execute prog) (outer.execute prog) :=
  bind (modify fun _ m _ _ machines => ⟨bridge.setDepth machines 0 fun _ _ => Nat.zero_le _, restart m⟩)
    fun _ _ _ le _ => h.statements (globals.mono le) prog

end Evaluator.Parametric

namespace Setup

open Eval.Related

/-- Evaluation goes along with evaluation that is observed in another way and has another limit on calls,
however many levels are left. -/
theorem parametric_observed (setup : Setup) (bridge : Bridge setup.host) {tight wide : Nat}
    (limits : tight = wide ∨ tight ≤ wide ∧ ∀ name pos, bridge.cut (.fault (.callDepth tight name) pos))
    (within : ∀ most ∈ bridge.limit, tight ≤ most) {observe watch : Expr → Value → Eval Unit}
    (alike : ∀ link expr value other, Value.Related link value other →
      Eval.Related bridge Anything link (observe expr value) (watch expr other)) (levels : Nat) :
    Evaluator.Parametric bridge ({ setup with maxCallDepth := tight }.observed observe levels)
      ({ setup with maxCallDepth := wide }.observed watch levels) := by
  induction levels with
  | zero =>
    refine ⟨fun _ _ => ?_, fun _ _ => ?_, fun _ _ _ _ => ?_⟩ <;> exact throw fun _ _ => .failure .nesting
  | succ levels ih =>
    refine ⟨fun expr environments => ?_,
      fun stmt environments => ih.runStatement setup.patience environments stmt,
      fun pos target receivers related => ih.runCall limits within target receivers related pos⟩
    refine bind (ih.evalExpr environments expr) fun now value other le same => ?_
    refine bind (alike now expr value other same) fun later _ _ further _ => ?_
    exact pure fun _ more => same.mono (further.trans more)

/-- Evaluation goes along with evaluation that has another limit on calls. -/
theorem parametric_limits (setup : Setup) (bridge : Bridge setup.host) {tight wide : Nat}
    (limits : tight = wide ∨ tight ≤ wide ∧ ∀ name pos, bridge.cut (.fault (.callDepth tight name) pos))
    (within : ∀ most ∈ bridge.limit, tight ≤ most) :
    Evaluator.Parametric bridge { setup with maxCallDepth := tight }.evaluator
      { setup with maxCallDepth := wide }.evaluator := by
  have silent (link : Link) : Eval.Related bridge Anything link (Pure.pure () : Eval Unit)
      (Pure.pure () : Eval Unit) :=
    pure fun _ _ => trivial
  have observed := setup.parametric_observed bridge limits within (fun link _ _ _ _ => silent link) setup.levels
  rw [observed_silent, observed_silent] at observed
  exact observed

/-- Evaluation acts alike on the machines of every bridge. -/
theorem parametric (setup : Setup) (bridge : Bridge setup.host)
    (within : ∀ most ∈ bridge.limit, setup.maxCallDepth ≤ most) :
    Evaluator.Parametric bridge setup.evaluator setup.evaluator :=
  setup.parametric_limits bridge (.inl rfl) within

end Setup

/-! ## Related machines -/

/-- Every cell stays as it is while the host remembers something. -/
theorem Heap.grows_remembers (heap : Heap) (memory : HostMemory) : heap.Grows { heap with memory } :=
  ⟨Nat.le_refl _, Nat.le_refl _, fun _ _ => rfl, fun _ _ => rfl⟩

/-- Whether a call of the host changes no cell of the heap. -/
def HostReply.KeepsCells (reply : HostReply) (heap : Heap) : Prop :=
  ∃ memory, reply.change heap = { heap with memory }

theorem HostReply.KeepsCells.applied {reply : HostReply} {heap : Heap} (keeps : reply.KeepsCells heap) :
    ∃ memory, reply.applied heap = { heap with memory } := by
  obtain ⟨memory, same⟩ := keeps
  exact ⟨_, by rw [HostReply.applied, same]⟩

/-- Whether the reply of a function depends on what the cells and the arguments hold only, and changes no
cell. -/
def HostFunction.Stateless (fn : HostFunction) : Prop :=
  ∀ (link : Link) (left right : Heap) (args others : List Value), Heap.Related link left right →
    List.Forall₂ (Value.Related link) args others →
    (fn.behavior left args).written = (fn.behavior right others).written ∧
      HostReply.Related link (fn.behavior left args) (fn.behavior right others) ∧
      (fn.behavior left args).KeepsCells left ∧ (fn.behavior right others).KeepsCells right

/-- Whether the functions of a host keep no state of their own. -/
def Host.Stateless (host : Host) : Prop := ∀ fn ∈ host, fn.Stateless

/-- The course of a run that is not cut off, along which cells are only added to the heap. -/
def Course.growing : Course where
  moves before after := before.heap.Grows after.heap
  cut _ := False
  uncut _ := id
  refl machine := .refl machine.heap
  trans := .trans

/-- Related machines, whose heaps grow. -/
def Bridge.renaming {host : Host} (stateless : host.Stateless) : Bridge host where
  toCourse := .growing
  machines := Machine.Related
  depth := Machine.Related.depth
  equal machines hl hr := hl.equal_eq machines.heap.faithful hr
  display machines := machines.heap.display
  hasType machines := machines.heap.hasType
  lookup? machines environments name := machines.heap.lookup? name environments
  owner? machines environments name := machines.heap.owner? name environments
  object machines := machines.heap.object
  bind machines frames name related := ⟨machines.bind frames name related, .bind _ _ _ _⟩
  setField machines objects field related :=
    ⟨machines.setField objects field related, .setField _ field _ (machines.heap.objectsBelow objects).1⟩
  pushFrame {link} _ _ _ _ machines related :=
    ⟨_, link.le_addFrame _ _, machines.pushFrame related, .inr ⟨rfl, rfl⟩, .pushFrame _ _⟩
  pushInstance {link} _ _ _ _ machines related :=
    ⟨_, link.le_addObject _ _, machines.pushInstance related, .inr ⟨rfl, rfl⟩, .pushInstance _ _⟩
  freshStamp {link} _ _ machines :=
    ⟨_, link.le_addStamp _ _, machines.freshStamp, .inr ⟨rfl, rfl⟩, .refl _⟩
  answer {link m n} args others machines fn mem related := by
    obtain ⟨written, reply, keeps, keeps'⟩ := stateless fn mem _ _ _ _ _ machines.heap related
    obtain ⟨memory, same⟩ := keeps.applied
    obtain ⟨memory', same'⟩ := keeps'.applied
    have heaps : Heap.Related link { m.heap with memory } { n.heap with memory := memory' } :=
      ⟨machines.heap.faithful, machines.heap.framesBelow, machines.heap.objectsBelow, machines.heap.frame,
        machines.heap.object⟩
    have outputs : m.output ++ (fn.behavior m.heap args).written =
        n.output ++ (fn.behavior n.heap others).written := by
      rw [machines.output, written]
    refine ⟨link, .refl link, ⟨?_, machines.depth, outputs, machines.stampsBelow⟩, reply, ?_⟩
    · simpa only [Machine.answered, same, same'] using heaps
    · simpa only [Course.growing, Machine.answered, same] using m.heap.grows_remembers memory
  setDepth machines _ _ := ⟨machines.heap, rfl, machines.output, machines.stampsBelow⟩
  deeper grows := grows

/-! ## Results -/

/-- Results of runs that are the same but for the cells of the value. -/
structure RunResult.Related (link : Link) (left right : RunResult) : Prop where
  value : Value.Related link left.value right.value
  diagnostics : left.diagnostics = right.diagnostics
  warnings : left.warnings = right.warnings
  raised : left.raised = right.raised

theorem Heap.Related.returnedText?_eq {left right : Heap} (heaps : Heap.Related link left right)
    {value other : Value} (related : Value.Related link value other) :
    Stop.returnedText? (fun value => value.display left) value =
      Stop.returnedText? (fun value => value.display right) other := by
  have shown := heaps.display related
  cases related <;> first | rfl | exact shown

/-- Related outcomes on related heaps are alike, where what has no text is described by its contents. -/
theorem Outcome.Related.result {setup : Setup} (described : setup.describe = fun heap value => value.display heap)
    {left right : Heap} (heaps : Heap.Related link left right) {r s : Except Stop Value}
    (outcome : Outcome.Related link (Value.Related link) r s) :
    RunResult.Related link (setup.result left r) (setup.result right s) := by
  cases outcome with
  | ok value => exact ⟨value, rfl, rfl, rfl⟩
  | error stop =>
    cases stop with
    | returned value =>
      simp only [Setup.result, described, heaps.returnedText?_eq value]
      split
      · exact ⟨.nil, rfl, rfl, rfl⟩
      · exact ⟨.nil, rfl, rfl, rfl⟩
    | _ => exact ⟨.nil, rfl, rfl, rfl⟩

/-- A program that is run on related machines gives related results. -/
theorem Setup.run_related {setup : Setup} (stateless : setup.host.Stateless)
    (described : setup.describe = fun heap value => value.display heap)
    (globals : Environment.Related link Heap.globalEnvironment Heap.globalEnvironment) (prog : Program)
    {m n : Machine} (machines : Machine.Related link m n) :
    ∃ later, link.Le later ∧
      Machine.Related later (setup.run prog m).2 (setup.run prog n).2 ∧
      RunResult.Related later (setup.run prog m).1 (setup.run prog n).1 ∧
      m.heap.Grows (setup.run prog m).2.heap := by
  have related := (setup.parametric (.renaming stateless) nofun).execute (fun _ => .refl _) globals prog
  obtain ⟨later, le, after, outcome, grows⟩ :=
    (related (.refl link) machines).resolve_left fun ⟨_, _, cut⟩ => cut
  refine ⟨later, le, ⟨after.heap, rfl, after.output, after.stampsBelow⟩, ?_, grows⟩
  exact Outcome.Related.result described after.heap outcome

end FlowScript
