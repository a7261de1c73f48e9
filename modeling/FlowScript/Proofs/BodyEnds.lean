import FlowScript.Proofs.EvalLogic
import FlowScript.Syntax.ControlFlow
/-!
# How bodies end

A `return` stops the statements around it up to the call of the function that it stands in.  No `return`
leaves an expression, since a call takes the value of the `return` that ended it (`evalAt_inside`).  So the
run of a statement comes to a `return` only by one that stands in it, outside of nested functions, and it
comes to its end only if control can fall off the end of it (`runAt_ends`).

Main statement: `callAt_returns`: a call of a function off whose end control never falls gives the value of
one of the function's own `return` statements, if it gives a value at all.
-/

namespace FlowScript

/-- Whether a stop is no `return`. -/
def Stop.Inside (stop : Stop) : Prop := ∀ value, stop ≠ .returned value

/-- Whether no `return` leaves a computation. -/
abbrev Eval.Inside {α : Type} (action : Eval α) : Prop := action.Only (.to Stop.Inside nofun)

namespace Eval.Only

variable {α : Type}

theorem display (value : Value) : Inside (Eval.display value) := get fun _ => operation fun _ _ => nofun

theorem binary (op : BinaryOp) (left right : Value) (pos : Position) :
    Inside (Eval.binary op left right pos) := by
  cases op with
  | div => exact ite fault (operation fun _ _ => nofun)
  | mod => exact ite fault (operation fun _ _ => nofun)
  | eq => exact pure
  | ne => exact pure
  | _ => exact operation fun _ _ => nofun

theorem unary (op : UnaryOp) (value : Value) : Inside (Eval.unary op value) := by
  cases op with
  | neg => exact operation fun _ _ => nofun
  | not => exact pure

theorem receiver (value : Value) (member : String) (pos : Position) :
    Inside (Eval.receiver value member pos) := by
  unfold Eval.receiver
  split
  · exact pure
  · exact fault
  · exact bind (display _) fun _ => fault

theorem callHost (host : Host) (name : String) (args : List Value) (pos : Option Position) :
    Inside (Eval.callHost host name args pos) := by
  unfold Eval.callHost
  split
  · exact fault
  · refine ite (bind fault fun _ => ?_) ?_ <;>
    · refine get fun machine => bind (modifyGet fun _ _ => trivial) fun _ => ?_
      split
      · exact pure
      · exact fault
      · exact fault

/-- A call takes the value of the `return` that ends it. -/
theorem returned (body : Eval Unit) : Inside (Eval.returned body) := by
  intro start _
  unfold Meets Eval.returned
  rcases run : body start with ⟨stop | _, after⟩
  · cases stop with
    | returned value => trivial
    | _ => exact ⟨nofun, trivial⟩
  · trivial

theorem deeper {action : Eval α} (h : Inside action) : Inside (Eval.deeper action) := by
  intro start _
  have inner := h { start with depth := start.depth + 1 } trivial
  unfold Meets Eval.deeper at *
  rcases run : action { start with depth := start.depth + 1 } with ⟨_ | _, after⟩ <;> rw [run] at inner
  · exact inner
  · trivial

end Eval.Only

/-! ## Expressions and calls -/

namespace Evaluator

open Eval.Only

/-- Whether no `return` leaves an expression or a call one level down. -/
structure Inside (inner : Evaluator) : Prop where
  expr : ∀ environment e, (inner.expr environment e).Inside
  call : ∀ target receiver args position, (inner.call target receiver args position).Inside

namespace Inside

variable {inner : Evaluator}

theorem construct (h : inner.Inside) (decl : StructDecl Stmt) (methods : Table String Closure)
    (args : List Value) (pos : Option Position) :
    (inner.construct decl methods args pos).Inside := by
  unfold Evaluator.construct
  dsimp only
  split
  · exact ite (bind fault fun _ => bind (modifyGet fun _ _ => trivial) fun _ => pure) (bind (modifyGet fun _ _ => trivial) fun _ => pure)
  · have made (init : Closure) (fresh : Instance) : Eval.Inside (do
        let id ← Eval.pushInstance fresh
        let _ ← inner.call init (some id) args pos
        return Value.instance id) :=
      bind (modifyGet fun _ _ => trivial) fun _ => bind (h.call _ _ _ _) fun _ => pure
    exact ite (bind fault fun _ => made _ _) (made _ _)

theorem invoke (h : inner.Inside) (host : Host) (fn : Value) (args : List Value)
    (pos : Option Position) : (inner.invoke host fn args pos).Inside := by
  unfold Evaluator.invoke
  split
  · exact h.call _ _ _ _
  · exact h.call _ _ _ _
  · exact h.construct _ _ _ _
  · exact callHost _ _ _ _
  · exact fault
  · exact bind (display _) fun _ => fault

theorem invokeMember (h : inner.Inside) (host : Host) (id : Nat) (name : String) (args : List Value)
    (pos : Position) : (inner.invokeMember host id name args pos).Inside := by
  refine get fun machine => ?_
  split
  · exact h.call _ _ _ _
  · exact bind (member _ _ _ fun _ => trivial) fun _ => h.invoke _ _ _ _

/-- No `return` leaves an expression. -/
theorem evaluate (h : inner.Inside) (host : Host) (env : Environment) (e : Expr) :
    (inner.evaluate host env e).Inside := by
  cases e with
  | literal note value => exact pure
  | name note ident => exact read _ _ _
  | self note => exact read _ _ _
  | binary note op left right =>
    exact bind (h.expr _ _) fun _ => bind (h.expr _ _) fun _ => binary _ _ _ _
  | logical note op left right =>
    refine bind (h.expr _ _) fun left => ?_
    split
    · exact pure
    · exact pure
    · exact h.expr _ _
    · exact h.expr _ _
  | unary note op operand => exact bind (h.expr _ _) fun _ => unary _ _
  | is note value written target => exact bind (h.expr _ _) fun _ => get fun _ => pure
  | unwrap note value =>
    refine bind (h.expr _ _) fun value => ?_
    split
    · exact fault
    · exact pure
  | assign note target ident value =>
    exact bind (h.expr _ _) fun _ => bind (assign fun _ _ _ => trivial) fun _ => pure
  | assignField note target object member value =>
    exact bind (h.expr _ _) fun _ => bind (h.expr _ _) fun _ => bind (receiver _ _ _) fun _ =>
      bind (modifyGet fun _ _ => trivial) fun _ => pure
  | call note fn args =>
    exact bind (h.expr _ _) fun _ => bind (mapM (h.expr _) _) fun _ => h.invoke _ _ _ _
  | field note object name =>
    exact bind (h.expr _ _) fun _ => bind (receiver _ _ _) fun _ => member _ _ _ fun _ => trivial
  | methodCall note object method args =>
    exact bind (h.expr _ _) fun _ => bind (receiver _ _ _) fun _ => bind (mapM (h.expr _) _) fun _ =>
      h.invokeMember _ _ _ _ _
  | closure note params res body captures => exact bind (modifyGet fun _ _ => trivial) fun _ => pure

theorem evalExpr (h : inner.Inside) (host : Host) (env : Environment) (e : Expr) :
    (inner.evalExpr host env e).Inside :=
  bind (h.evaluate host env e) fun _ => ite (operation fun _ _ => nofun) pure

/-- The `return` of a body ends with its call. -/
theorem runCall (inner : Evaluator) (maxCallDepth : Nat) (target : Closure) (receiver : Option Nat)
    (args : List Value) (pos : Option Position) :
    (inner.runCall maxCallDepth target receiver args pos).Inside := by
  have entered : Eval.Inside (do
      let machine ← get
      if maxCallDepth ≤ machine.depth then
        Eval.fault (.callDepth maxCallDepth target.name) pos
      let env ← Eval.pushFrame (callBindings target receiver args) target.environment
      Eval.deeper (Eval.returned (inner.runBlock env target.body))) := by
    have body : Eval.Inside (do
        let env ← Eval.pushFrame (callBindings target receiver args) target.environment
        Eval.deeper (Eval.returned (inner.runBlock env target.body))) :=
      bind (modifyGet fun _ _ => trivial) fun _ => deeper (returned _)
    exact get fun machine => ite (bind fault fun _ => body) body
  exact ite (bind fault fun _ => entered) entered

end Inside

end Evaluator

/-- However many levels are left, no `return` leaves an expression or a call. -/
theorem evaluator_inside (setup : Setup) (levels : Nat) :
    Evaluator.Inside ⟨evalAt setup levels, runAt setup levels, callAt setup levels⟩ := by
  induction levels with
  | zero => exact ⟨fun _ _ => .throw nofun, fun _ _ _ _ => .throw nofun⟩
  | succ levels ih =>
    exact ⟨fun env e => ih.evalExpr setup.host env e,
      fun target receiver args pos =>
        Evaluator.Inside.runCall _ setup.maxCallDepth target receiver args pos⟩

/-- The literal `true` is true. -/
theorem evalAt_forever (setup : Setup) (levels : Nat) (env : Environment) {e : Expr}
    (forever : e.isForever = true) (start : Machine) :
    Eval.Meets (fun stop _ => stop.Inside) (evalAt setup levels env e) start fun value _ =>
      value.isTrue = true := by
  unfold Expr.isForever at forever
  split at forever
  · rename_i note
    cases levels with
    | zero => exact .throw nofun
    | succ levels =>
      -- widening leaves it as it is
      refine Eval.Meets.bind (Eval.Meets.pure rfl) fun value after (same : .bool true = value) => ?_
      subst same
      exact .ite (fun _ => .pure rfl) fun _ => .pure rfl
  · cases forever

/-! ## Statements -/

mutual

/-- The statements that run with a statement, itself first: those nested in it, but not the bodies of
functions. -/
def Stmt.parts : Stmt → List Stmt
  | s@(.block ⟨_, body⟩) => s :: Stmt.partsOfList body
  | s@(.ifElse _ _ ⟨_, body⟩ none) => s :: Stmt.partsOfList body
  | s@(.ifElse _ _ ⟨_, body⟩ (some alt)) => s :: (Stmt.partsOfList body ++ alt.parts)
  | s@(.whileLoop _ _ ⟨_, body⟩) => s :: Stmt.partsOfList body
  | s@(.forRange _ _ _ _ ⟨_, body⟩) => s :: Stmt.partsOfList body
  | s => [s]

/-- The statements that run with a list of statements. -/
def Stmt.partsOfList : List Stmt → List Stmt
  | [] => []
  | s :: rest => s.parts ++ Stmt.partsOfList rest

end

/-- Whether one of some statements is a `return` whose run gives a value and leaves a machine. -/
def Setup.Returns (setup : Setup) (stmts : List Stmt) (value : Value) (left : Machine) : Prop :=
  ∃ pos e, Stmt.ret pos e ∈ stmts ∧ ∃ levels env start,
    runAt setup levels env (.ret pos e) start = (.error (.returned value), left)

/-- Whether a stop, if it is by a `return`, is by one of some statements. -/
def Setup.EndsBy (setup : Setup) (stmts : List Stmt) (stop : Stop) (left : Machine) : Prop :=
  ∀ value, stop = .returned value → setup.Returns stmts value left

namespace Eval.Meets

variable {α : Type} {setup : Setup} {stmts : List Stmt} {stops : Stop → Machine → Prop} {start : Machine}
  {post : α → Machine → Prop}

theorem inside {action : Eval α} (h : action.Inside) :
    Meets (setup.EndsBy stmts) action start fun _ _ => True :=
  ((h start trivial).allow fun _ _ inside value same => absurd same (inside.1 value)).mono fun _ _ _ => trivial

theorem among {action : Eval α} {others : List Stmt}
    (h : Meets (setup.EndsBy stmts) action start post) (among : stmts ⊆ others) :
    Meets (setup.EndsBy others) action start post := by
  refine h.allow fun stop left ends value same => ?_
  obtain ⟨pos, e, mem, run⟩ := ends value same
  exact ⟨pos, e, among mem, run⟩

/-- A loop comes to its end when its condition is not true. -/
theorem whileLoop {cond : Eval Value} {body : Eval Unit} {ended : Prop}
    (diverged : ∀ machine, stops .diverged machine)
    (test : ∀ machine, Meets stops cond machine fun value _ => value.isTrue = false → ended)
    (again : ∀ machine, Meets stops body machine fun _ _ => True) (patience : Nat) :
    Meets stops (Eval.whileLoop cond body patience) start fun _ _ => ended := by
  induction patience generalizing start with
  | zero => exact .throw (diverged start)
  | succ patience ih =>
    refine bind (test start) fun value after done => ite (fun _ => ?_) fun stopped => ?_
    · exact bind (again after) fun _ _ _ => ih
    · exact pure (done (Bool.not_eq_true _ ▸ stopped))

theorem forLoop {body : Int → Eval Unit}
    (each : ∀ index machine, Meets stops (body index) machine fun _ _ => True) (count : Nat)
    (index : Int) : Meets stops (Eval.forLoop body count index) start fun _ _ => True := by
  induction count generalizing start index with
  | zero => exact pure trivial
  | succ count ih => exact bind (each index start) fun _ _ _ => ih (index + 1)

end Eval.Meets

namespace Evaluator

open Eval.Meets

variable {setup : Setup} {inner : Evaluator} {start : Machine}

/-- Whether statements end one level down as they should: by a `return` only if it is one of their own,
and at their end only if control can fall off it. -/
def Ends (setup : Setup) (inner : Evaluator) : Prop :=
  ∀ env (s : Stmt) start, Eval.Meets (setup.EndsBy s.parts) (inner.statement env s) start
    fun _ _ => s.terminates = false

namespace Ends

variable (h : Ends setup inner)

include h

theorem forM (env : Environment) (stmts : List Stmt) :
    Eval.Meets (setup.EndsBy (Stmt.partsOfList stmts))
      (stmts.forM (inner.statement env)) start fun _ _ =>
        anyTerminates stmts = false := by
  induction stmts generalizing start with
  | nil => exact pure rfl
  | cons s rest ih =>
    rw [Stmt.partsOfList]
    refine bind ((h env s start).among (List.subset_append_left _ _)) fun _ after passed => ?_
    refine (ih.among (List.subset_append_right _ _)).mono fun _ _ none => ?_
    rw [anyTerminates, passed, none, Bool.or_self]

/-- The statements of a block in its environment. -/
theorem runBlock (env : Environment) (stmts : List Stmt) :
    Eval.Meets (setup.EndsBy (Stmt.partsOfList stmts)) (inner.runBlock env stmts) start
      fun _ _ => anyTerminates stmts = false := by
  have hoisted : Eval.Meets (setup.EndsBy (Stmt.partsOfList stmts))
      (stmts.forM (Eval.hoist env)) start fun _ _ => True :=
    Eval.Meets.forM stmts (fun s _ _ _ => inside (.hoist s (fun _ => trivial) fun _ _ _ _ _ _ => trivial)) trivial
  exact bind hoisted fun _ _ _ => h.forM env stmts

/-- A nested block among the statements around it. -/
theorem runPart (bindings : Bindings) (env : Environment)
    (block : Block Stmt) {parts : List Stmt} (among : Stmt.partsOfList block.statements ⊆ parts) :
    Eval.Meets (setup.EndsBy parts) (inner.runNested bindings env block) start
      fun _ _ => anyTerminates block.statements = false :=
  bind (inside (.modifyGet fun _ _ => trivial)) fun env _ _ =>
    (h.runBlock env block.statements).among among

/-- A statement ends as it should, if those that are nested in it do and a `return` does. -/
theorem runStatement (contained : inner.Inside)
    (forever : ∀ env (e : Expr) start, e.isForever = true →
      Eval.Meets (fun stop _ => stop.Inside) (inner.expr env e) start fun value _ =>
        value.isTrue = true)
    (patience : Nat) (env : Environment)
    (returning : ∀ pos value, Eval.Meets (setup.EndsBy [.ret pos value])
      (inner.runStatement patience env (.ret pos value)) start fun _ _ => False)
    (s : Stmt) :
    Eval.Meets (setup.EndsBy s.parts) (inner.runStatement patience env s) start
      fun _ _ => s.terminates = false := by
  cases s with
  | block body =>
    simp only [Stmt.parts, Stmt.terminates]
    exact h.runPart _ env body (List.subset_cons_self _ _)
  | varDecl pos name written value resolved =>
    cases value with
    | some value =>
      refine bind (inside (contained.expr _ _)) fun _ _ _ => ?_
      exact (inside (.define fun _ _ _ _ => trivial)).mono fun _ _ _ => rfl
    | none => exact (inside (.define fun _ _ _ _ => trivial)).mono fun _ _ _ => rfl
  | expr pos value => exact bind (inside (contained.expr _ _)) fun _ _ _ => pure rfl
  | ifElse pos cond body alt =>
    refine bind (inside (contained.expr _ _)) fun value after _ => ?_
    cases alt with
    | none =>
      -- without an alternative, control may always get past the statement
      refine Eval.Meets.mono (ite (fun _ => ?_) fun _ => pure trivial) fun _ _ (_ : True) => ?_
      · simp only [Stmt.parts]
        exact (h.runPart _ env body (List.subset_cons_self _ _)).mono fun _ _ _ => trivial
      · simp only [Stmt.terminates]
    | some other =>
      simp only [Stmt.parts, Stmt.terminates, Bool.and_eq_false_iff]
      refine ite (fun _ => ?_) fun _ => ?_
      · have within := List.subset_cons_of_subset (Stmt.ifElse pos cond body (some other))
          (List.subset_append_left (Stmt.partsOfList body.statements) other.parts)
        exact (h.runPart _ env body within).mono fun _ _ => Or.inl
      · have within := List.subset_cons_of_subset (Stmt.ifElse pos cond body (some other))
          (List.subset_append_right (Stmt.partsOfList body.statements) other.parts)
        exact ((h env other after).among within).mono fun _ _ => Or.inr
  | whileLoop pos cond body =>
    simp only [Stmt.parts, Stmt.terminates]
    refine Eval.Meets.whileLoop (fun _ => nofun) (fun machine => ?_) (fun machine => ?_) patience
    · -- a condition that always holds does not let control get past the loop
      by_cases always : cond.isForever = true
      · refine ((forever env cond machine always).mono fun value _ holds fails => ?_).allow
          fun _ _ inside value same => absurd same (inside value)
        rw [holds] at fails
        cases fails
      · exact (inside (contained.expr _ _)).mono fun _ _ _ _ => Bool.not_eq_true _ ▸ always
    · exact (h.runPart _ env body (List.subset_cons_self _ _)).mono fun _ _ _ => trivial
  | forRange pos name first last body =>
    refine bind (inside (contained.expr _ _)) fun first _ _ => ?_
    refine bind (inside (contained.expr _ _)) fun last _ _ => ?_
    refine bind (inside (.operation fun _ _ => nofun)) fun low _ _ => ?_
    refine bind (inside (.operation fun _ _ => nofun)) fun high _ _ => ?_
    refine (Eval.Meets.forLoop (fun index machine => ?_) _ _).mono fun _ _ _ => rfl
    simp only [Stmt.parts]
    exact (h.runPart _ env body (List.subset_cons_self _ _)).mono fun _ _ _ => trivial
  | ret pos value => exact (returning pos value).mono fun _ _ => False.elim
  | function decl => exact pure rfl
  | struct decl => exact pure rfl
  | trait decl => exact pure rfl

end Ends

end Evaluator

/-- The run of a `return` never comes to its end. -/
theorem runAt_ret (setup : Setup) (levels : Nat) (env : Environment) (pos : Position)
    (value : Option Expr) (start : Machine) :
    Eval.Meets (setup.EndsBy [.ret pos value])
      (runAt setup levels env (.ret pos value)) start fun _ _ => False := by
  have stops : ∀ res after, runAt setup levels env (.ret pos value) start ≠
      (.ok res, after) := by
    intro res after run
    cases levels with
    | zero => cases run
    | succ levels =>
      cases value with
      | none => cases run
      | some value =>
        change (evalAt setup levels env value >>= fun value => throw (.returned value)) start =
          (.ok res, after) at run
        rw [Eval.bind_apply] at run
        split at run <;> cases run
  unfold Eval.Meets
  rcases run : runAt setup levels env (.ret pos value) start with ⟨stop | res, after⟩
  · rintro given rfl
    exact ⟨pos, value, List.mem_singleton_self _, levels, env, start, run⟩
  · exact stops res after run

/-- However many levels are left, the run of a statement comes to a `return` only by one of its own, and
to its end only if control can fall off it. -/
theorem runAt_ends (setup : Setup) (levels : Nat) :
    Evaluator.Ends setup ⟨evalAt setup levels, runAt setup levels, callAt setup levels⟩ := by
  induction levels with
  | zero => exact fun _ _ _ => .throw nofun
  | succ levels ih =>
    intro env s start
    exact ih.runStatement (evaluator_inside setup levels)
      (fun env _ start forever => evalAt_forever setup levels env forever start)
      setup.patience env
      (fun pos value => runAt_ret setup (levels + 1) env pos value start) s

/-- The run of statements off whose end control never falls does not come to its end. -/
theorem runBlock_stops (setup : Setup) (levels : Nat) (env : Environment)
    {stmts : List Stmt} (terminates : anyTerminates stmts = true) (start : Machine) :
    ∃ stop after, Evaluator.runBlock ⟨evalAt setup levels, runAt setup levels, callAt setup levels⟩
      env stmts start = (.error stop, after) := by
  have meets : Eval.Meets _ _ start _ := (runAt_ends setup levels).runBlock env stmts
  unfold Eval.Meets at meets
  split at meets
  · rw [terminates] at meets
    cases meets
  · rename_i stop after run
    exact ⟨stop, after, run⟩

/-! ## Calls -/

/-- The machine on which the body of a called function runs: one call deeper, and with a frame for the
variables of the call. -/
def Machine.enter (machine : Machine) (target : Closure) (receiver : Option Nat) (args : List Value) :
    Machine :=
  { machine with
    heap := machine.heap.pushFrame (Evaluator.callBindings target receiver args)
    depth := machine.depth + 1 }

/-- The machine after a call whose body left a machine. -/
def Machine.leave (machine : Machine) : Machine := { machine with depth := machine.depth - 1 }

/-- How a call gives a value: a `return` in the body of the function gave it, or the body came to its end
and the value is `nil`. -/
theorem Evaluator.runCall_cases (inner : Evaluator) (maxCallDepth : Nat) (target : Closure)
    (receiver : Option Nat) (args : List Value) (pos : Option Position) (before : Machine) :
    Eval.Meets (fun _ _ => True) (inner.runCall maxCallDepth target receiver args pos) before
      fun value after => ∃ left, after = left.leave ∧
        let run := inner.runBlock (before.heap.frames.size :: target.environment) target.body
          (before.enter target receiver args)
        run = (.error (.returned value), left) ∨ run = (.ok (), left) ∧ value = .nil := by
  refine .ite (fun _ => trivial) fun _ => .get (.ite (fun _ => trivial) fun _ => ?_)
  -- the frame of the call is pushed before the call counts as one deeper
  have pushed : Eval.Meets (fun _ _ => True)
      (Eval.pushFrame (callBindings target receiver args) target.environment) before
      fun env machine => env = before.heap.frames.size :: target.environment ∧
        before.enter target receiver args = { machine with depth := machine.depth + 1 } := ⟨rfl, rfl⟩
  refine pushed.bind ?_
  rintro _ machine ⟨rfl, entered⟩
  rw [entered]
  unfold Eval.Meets Eval.deeper Eval.returned
  rcases run : inner.runBlock (before.heap.frames.size :: target.environment) target.body
    { machine with depth := machine.depth + 1 } with ⟨stop | ⟨⟩, left⟩
  · cases stop with
    | returned value => exact ⟨left, rfl, .inl rfl⟩
    | _ => trivial
  · exact ⟨left, rfl, .inr ⟨rfl, rfl⟩⟩

/-- A call of a function off whose end control never falls gives a value only if the run of its body ended
with that value by one of the function's own `return` statements. -/
theorem callAt_returns (setup : Setup) (levels : Nat) {target : Closure} {receiver : Option Nat}
    {args : List Value} {pos : Option Position} {before after : Machine} {value : Value}
    (terminates : anyTerminates target.body = true)
    (call : callAt setup (levels + 1) target receiver args pos before = (.ok value, after)) :
    ∃ left, after = left.leave ∧
      Evaluator.runBlock ⟨evalAt setup levels, runAt setup levels, callAt setup levels⟩
        (before.heap.frames.size :: target.environment) target.body
        (before.enter target receiver args) = (.error (.returned value), left) ∧
      setup.Returns (Stmt.partsOfList target.body) value left := by
  have cases : Eval.Meets _ (callAt setup (levels + 1) target receiver args pos) before _ :=
    Evaluator.runCall_cases _ setup.maxCallDepth target receiver args pos before
  rw [Eval.Meets, call] at cases
  obtain ⟨left, same, run⟩ := cases
  refine ⟨left, same, ?_⟩
  have ends : Eval.Meets _ _ (before.enter target receiver args) _ :=
    (runAt_ends setup levels).runBlock (before.heap.frames.size :: target.environment) target.body
  unfold Eval.Meets at ends
  rcases run with returned | ⟨ended, -⟩
  · rw [returned] at ends
    exact ⟨returned, ends value rfl⟩
  · rw [ended] at ends
    rw [terminates] at ends
    cases ends

end FlowScript
