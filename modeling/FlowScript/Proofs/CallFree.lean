import FlowScript.Proofs.Link
import FlowScript.Proofs.ValueTyping
/-!
# Evaluation without calls

Without calls, all that evaluation does to a machine is to bind variables, to add frames and to set fields.  So
a program without calls keeps within any leeway that allows for its bindings.

Main statements: `Setup.expr_only` and `Setup.statement_only`.
-/

namespace FlowScript

/-- Leeway to do what programs without calls do, where the variables that may be bound in a frame are given:
all of them in a new frame. -/
structure Leeway.Permits (leeway : Leeway) (binds : Nat → String → Prop) : Prop where
  returned : ∀ value, leeway.stops (.returned value)
  diverged : leeway.stops .diverged
  failure : ∀ reason, reason ≠ .nesting → leeway.stops (.failure reason)
  keep : ∀ {m n : Machine}, n.heap.frames = m.heap.frames → leeway.moves m n
  push : ∀ {m : Machine} {bindings}, leeway.applies m → (∀ name, binds m.heap.frames.size name) ∧
    leeway.moves m { m with heap := m.heap.pushFrame bindings }
  bind : ∀ {m : Machine} {id name value}, leeway.applies m → binds id name →
    leeway.moves m { m with heap := m.heap.bind id name value }

/-- Whether a node calls nothing and binds only what may be bound in every frame. Access to a member shows the
value if it has no members, which may nest too deep. -/
def Leeway.Admits (leeway : Leeway) (binds : Nat → String → Prop) : Node → Prop
  | .expr (.call ..) | .expr (.methodCall ..) => False
  | .expr (.assign _ _ ident _) => ∀ id, binds id ident
  | .expr (.field ..) | .expr (.assignField ..) => leeway.stops (.failure .nesting)
  | .stmt (.ifElse _ _ _ (some (.varDecl _ name ..))) => ∀ id, binds id name
  | _ => True

/-- The variable that a statement declares where it stands. -/
def Stmt.declared? : Stmt → Option String
  | .varDecl _ name .. => some name
  | _ => none

/-! ## Operators -/

namespace Value

theorem widen_ne_nesting (value : Value) : value.widen ≠ .error .nesting := by
  intro eq
  cases widen_eq_error eq

theorem index_ne_nesting (value : Value) : value.index ≠ .error .nesting := by
  unfold index
  split <;> rintro ⟨⟩

end Value

namespace Leeway.Permits

open Eval

variable {leeway : Leeway} {binds : Nat → String → Prop} (permits : leeway.Permits binds)

include permits

theorem fresh (machine : Machine) :
    leeway.moves machine { machine with nextStamp := machine.nextStamp + 1 } := permits.keep rfl

theorem operation {α : Type} {res : Except Failure α} (other : res ≠ .error .nesting) :
    Only leeway (Eval.operation res) :=
  Only.operation fun failure failed => permits.failure failure fun same => other (same ▸ failed)

theorem settled {res : Except Failure Value} (settles : Value.Settles res) : Only leeway (Eval.operation res) :=
  permits.operation fun failed => absurd rfl (failed ▸ settles : Value.Settles (.error .nesting))

theorem whileLoop {cond : Eval Value} {body : Eval Unit} (first : Only leeway cond)
    (second : Only leeway body) (patience : Nat) : Only leeway (Eval.whileLoop cond body patience) := by
  induction patience with
  | zero => exact .throw permits.diverged
  | succ patience ih => exact .bind first fun _ => .ite (.bind second fun _ => ih) .pure

/-- Operators know nothing of levels. -/
theorem binary (op : BinaryOp) (left right : Value) (pos : Position) :
    Only leeway (Eval.binary op left right pos) := by
  cases op with
  | add => exact permits.settled (.add left right)
  | sub => exact permits.settled (.sub left right)
  | mul => exact permits.settled (.mul left right)
  | div => exact .ite .fault (permits.settled (.div left right))
  | mod => exact .ite .fault (permits.settled (.mod left right))
  | eq | ne => exact .pure
  | lt | le | gt | ge => exact permits.settled (.ordered left right _)

theorem unary (op : UnaryOp) (value : Value) : Only leeway (Eval.unary op value) := by
  cases op with
  | neg => exact permits.settled (.neg value)
  | not => exact .pure

theorem receiver (deep : leeway.stops (.failure .nesting)) (value : Value) (member : String)
    (pos : Position) : Only leeway (Eval.receiver value member pos) := by
  unfold Eval.receiver
  split
  · exact .pure
  · exact .fault
  · refine .bind (.get fun _ => .operation fun failure _ => ?_) fun _ => .fault
    by_cases same : failure = .nesting
    · exact same ▸ deep
    · exact permits.failure failure same

/-- A new frame, in which everything may be bound. -/
theorem nested {α : Type} {bindings : Bindings} {env : Environment} {rest : Environment → Eval α}
    (h : ∀ env, (∀ name, ∀ id ∈ env.head?, binds id name) → Only leeway (rest env)) :
    Only leeway (Eval.pushFrame bindings env >>= rest) := by
  intro start applies
  obtain ⟨all, pushed⟩ : _ ∧ leeway.moves start { start with heap := start.heap.pushFrame bindings } :=
    permits.push applies
  have rest := h (start.heap.frames.size :: env) (by rintro name _ ⟨⟩; exact all name) _
    (leeway.keeps applies pushed)
  exact (rest.allow fun _ _ both => ⟨both.1, leeway.trans pushed both.2⟩).mono fun _ _ => leeway.trans pushed

end Leeway.Permits

/-! ## Programs without calls -/

theorem Stmt.length_nodes_le {s : Stmt} {stmts : List Stmt} (mem : s ∈ stmts) :
    s.nodes.length ≤ (nodesOfList stmts).length := by
  induction stmts with
  | nil => cases mem
  | cons first rest ih =>
    rw [nodesOfList, List.length_append]
    rcases List.mem_cons.mp mem with rfl | mem
    · exact Nat.le_add_right _ _
    · exact Nat.le_trans (ih mem) (Nat.le_add_left _ _)

namespace Setup

variable (setup : Setup) {leeway : Leeway} {binds : Nat → String → Prop}

/-- Evaluation with `levels` levels left. -/
abbrev within (levels : Nat) : Evaluator :=
  ⟨evalAt setup levels, runAt setup levels, callAt setup levels⟩

/-- An expression without calls keeps within a leeway that admits its nodes, where the levels suffice or the
leeway is to run out of them. -/
theorem expr_only (permits : leeway.Permits binds) {levels : Nat} {env : Environment} {e : Expr}
    (admits : e.Each (leeway.Admits binds)) (room : leeway.stops (.failure .nesting) ∨ e.nodes.length ≤ levels) :
    ((setup.within levels).expr env e).Only leeway := by
  -- the induction is on the levels: each part of an expression is evaluated one level down
  induction levels generalizing e with
  | zero =>
    rw [e.nodes_eq] at room
    exact .throw (room.resolve_right nofun)
  | succ levels ih =>
    have evaluates : ((setup.within levels).evaluate setup.host env e).Only leeway := by
      cases e with
      | literal note value => exact .pure
      | name note ident => exact .read _ _ _
      | self note => exact .read _ _ _
      | binary note op left right =>
        obtain ⟨-, first, second⟩ := Expr.each_binary.mp admits
        simp only [Expr.nodes, List.length_cons, List.length_append] at room
        exact .bind (ih first (room.imp_right (by omega))) fun _ => .bind (ih second (room.imp_right (by omega))) fun _ => permits.binary _ _ _ _
      | logical note op left right =>
        obtain ⟨-, first, second⟩ := Expr.each_logical.mp admits
        simp only [Expr.nodes, List.length_cons, List.length_append] at room
        refine .bind (ih first (room.imp_right (by omega))) fun value => ?_
        split
        · exact .pure
        · exact .pure
        · exact ih second (room.imp_right (by omega))
        · exact ih second (room.imp_right (by omega))
      | unary note op operand =>
        obtain ⟨-, inner⟩ := Expr.each_unary.mp admits
        simp only [Expr.nodes, List.length_cons] at room
        exact .bind (ih inner (room.imp_right (by omega))) fun _ => permits.unary _ _
      | is note value written target =>
        obtain ⟨-, inner⟩ := Expr.each_is.mp admits
        simp only [Expr.nodes, List.length_cons] at room
        exact .bind (ih inner (room.imp_right (by omega))) fun _ => .get fun _ => .pure
      | unwrap note value =>
        obtain ⟨-, inner⟩ := Expr.each_unwrap.mp admits
        simp only [Expr.nodes, List.length_cons] at room
        refine .bind (ih inner (room.imp_right (by omega))) fun _ => ?_
        split
        · exact .fault
        · exact .pure
      | assign note target ident value =>
        obtain ⟨may, -, inner⟩ := Expr.each_assign.mp admits
        simp only [Expr.nodes, List.length_cons] at room
        exact .bind (ih inner (room.imp_right (by omega))) fun _ => .bind (.assign fun _ id applies =>
          permits.bind applies (may id)) fun _ => .pure
      | closure note params res body captures =>
        exact .bind (.modifyGet fun machine _ => permits.fresh machine) fun _ => .pure
      | field note object member =>
        -- a value that is no instance is displayed in the fault, which may go too deep
        obtain ⟨deep, inner⟩ := Expr.each_field.mp admits
        exact .bind (ih inner (.inl deep)) fun _ => .bind (permits.receiver deep _ _ _) fun _ =>
          .member _ _ _ permits.fresh
      | assignField note target object member value =>
        obtain ⟨deep, -, inner, outer⟩ := Expr.each_assignField.mp admits
        refine .bind (ih outer (.inl deep)) fun _ => .bind (ih inner (.inl deep)) fun _ => ?_
        refine .bind (permits.receiver deep _ _ _) fun _ => .bind (.modifyGet fun _ _ => ?_) fun _ => .pure
        exact permits.keep rfl
      | call => exact admits.own.elim
      | methodCall => exact admits.own.elim
    refine .bind evaluates fun value => .ite ?_ (.pure)
    exact permits.operation (Value.widen_ne_nesting value)

/-- And so does a statement, if the variable that it declares may be bound in its environment. -/
theorem statement_only (permits : leeway.Permits binds) {levels : Nat} {env : Environment} {s : Stmt}
    (admits : s.Each (leeway.Admits binds))
    (declares : ∀ name ∈ s.declared?, ∀ id ∈ env.head?, binds id name)
    (room : leeway.stops (.failure .nesting) ∨ s.nodes.length ≤ levels) :
    ((setup.within levels).statement env s).Only leeway := by
  induction levels generalizing s env with
  | zero =>
    rw [s.nodes_eq] at room
    exact .throw (room.resolve_right nofun)
  | succ levels ih =>
    -- in the new frame of a nested block every name may be bound
    have nested {bindings : Bindings} {env : Environment} {block : Block Stmt}
        (admits : (Stmt.block block).Each (leeway.Admits binds))
        (room : leeway.stops (.failure .nesting) ∨ (Stmt.nodesOfList block.statements).length ≤ levels) :
        ((setup.within levels).runNested bindings env block).Only leeway := by
      refine permits.nested fun env all => .bind (.forM fun s _ => ?_) fun _ => .forM fun s mem => ?_
      · exact .hoist s permits.fresh fun _ name _ id head applies => permits.bind applies (all name id head)
      · exact ih (Stmt.eachOf_iff.mp (Stmt.each_block.mp admits).2 s mem) (fun name _ => all name)
          (room.imp_right (Nat.le_trans (Stmt.length_nodes_le mem)))
    cases s with
    | block body =>
      simp only [Stmt.nodes, List.length_cons] at room
      exact nested admits (room.imp_right (by omega))
    | varDecl pos name written value resolved =>
      have defined (value : Option Value) : (Eval.define env name value).Only leeway :=
        .define fun _ id head applies => permits.bind applies (declares name rfl id head)
      cases value with
      | some value =>
        simp only [Stmt.nodes, List.length_cons] at room
        exact .bind (setup.expr_only permits ((Stmt.each_varDecl.mp admits).2 value rfl)
          (room.imp_right (by omega))) fun _ => defined _
      | none => exact defined _
    | expr pos value =>
      simp only [Stmt.nodes, List.length_cons] at room
      exact .bind (setup.expr_only permits (Stmt.each_expr.mp admits).2 (room.imp_right (by omega))) fun _ => .pure
    | ifElse pos cond body alt =>
      obtain ⟨own, test, block, others⟩ := Stmt.each_ifElse.mp admits
      simp only [Stmt.nodes_ifElse, List.length_cons, List.length_append] at room
      refine .bind (setup.expr_only permits test (room.imp_right (by omega))) fun _ => .ite (nested block (room.imp_right (by omega))) ?_
      cases alt with
      | some other =>
        rw [Option.elim_some] at room
        refine ih (others other rfl) ?_ (room.imp_right (by omega))
        -- an alternative runs in the environment of the whole statement, and may declare a variable there
        cases other with
        | varDecl => rintro _ ⟨⟩ id -; exact own id
        | _ => exact nofun
      | none => exact .pure
    | whileLoop pos cond body =>
      obtain ⟨-, test, block⟩ := Stmt.each_whileLoop.mp admits
      simp only [Stmt.nodes, List.length_cons, List.length_append] at room
      exact permits.whileLoop (setup.expr_only permits test (room.imp_right (by omega))) (nested block (room.imp_right (by omega))) _
    | forRange pos name first last body =>
      obtain ⟨-, low, high, block⟩ := Stmt.each_forRange.mp admits
      simp only [Stmt.nodes, List.length_cons, List.length_append] at room
      refine .bind (setup.expr_only permits low (room.imp_right (by omega))) fun _ => .bind (setup.expr_only permits high (room.imp_right (by omega))) fun _ => ?_
      refine .bind (permits.operation (Value.index_ne_nesting _)) fun _ =>
        .bind (permits.operation (Value.index_ne_nesting _)) fun _ => ?_
      exact .forLoop (fun _ => nested block (room.imp_right (by omega))) _ _
    | ret pos value =>
      cases value with
      | some value =>
        simp only [Stmt.nodes, List.length_cons] at room
        exact .bind (setup.expr_only permits ((Stmt.each_ret.mp admits).2 value rfl)
          (room.imp_right (by omega))) fun _ =>
          .throw (permits.returned _)
      | none => exact .throw (permits.returned _)
    | function decl => exact .pure
    | struct decl => exact .pure
    | trait decl => exact .pure

end Setup

end FlowScript
