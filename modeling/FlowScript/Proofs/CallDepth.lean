import FlowScript.Proofs.CallFree
import FlowScript.Proofs.CallLimit
import FlowScript.Proofs.Checkpoints
/-!
# How many calls are open

A call counts as open while its body runs, and no longer, however the body ends.  So a run leaves as many calls
open as it found, and since no call is entered where the limit is reached, never more are open than the limit.

The latter is said of evaluation that looks at the count again and again: it never finds it too high, since it
does what evaluation does, whatever it would do otherwise.

Main statement: `Setup.depth_balanced`.
-/

namespace FlowScript

/-- A computation that stops at once if too many calls are open. -/
def Eval.guarded {α : Type} (most : Nat) (trap : Stop) (action : Eval α) : Eval α := fun machine =>
  if machine.depth ≤ most then action machine else (.error trap, machine)

/-- Evaluation that stops at an expression, a statement or a call if too many calls are open. -/
def Setup.guarded (setup : Setup) (most : Nat) (trap : Stop) : Nat → Evaluator
  | 0 => setup.within 0
  | levels + 1 =>
    let inner := setup.guarded most trap levels
    { expr := fun env e => (inner.evalExpr setup.host env e).guarded most trap
      statement := fun env s => (inner.runStatement setup.patience env s).guarded most trap
      call := fun target recv args pos =>
        (inner.runCall setup.maxCallDepth target recv args pos).guarded most trap }

/-- Every machine on which no more than some calls are open goes along with itself. -/
abbrev Bridge.counting (host : Host) (most : Nat) : Bridge host :=
  @Bridge.cutting host (fun _ => False) (fun _ => id) (some most)

theorem Eval.Related.guarded {α β : Type} {host : Host} {most : Nat} {post : Link → α → β → Prop} {link : Link}
    {x : Eval α} {y : Eval β} (h : Eval.Related (.counting host most) post link x y) (trap : Stop) :
    Eval.Related (.counting host most) post link (x.guarded most trap) y := by
  intro now above m n machines
  rw [RelatedAt, Eval.guarded, if_pos (machines.2.2 most rfl)]
  exact h above machines

/-- On that bridge computations do the same, and leave as many calls open as they find. -/
theorem Eval.Related.counts {α : Type} {host : Host} {most : Nat} {post : Link → α → α → Prop} {x y : Eval α}
    (h : Eval.Related (.counting host most) post .identity x y) (equal : ∀ a b, post .identity a b → a = b)
    {machine : Machine} (shallow : machine.depth ≤ most) :
    x machine = y machine ∧ (y machine).2.depth = machine.depth := by
  have bound : ∀ other ∈ some most, machine.depth ≤ other := by
    rintro _ ⟨⟩
    exact shallow
  obtain ⟨same, balanced⟩ := (h.agree equal bound).resolve_left fun ⟨_, _, never⟩ => never
  exact ⟨same, same ▸ balanced rfl⟩

namespace Setup

variable (setup : Setup)

/-- Evaluation does not come to have too many calls open. -/
theorem guarded_parametric {most : Nat} (within : setup.maxCallDepth ≤ most) (trap : Stop) (levels : Nat) :
    Evaluator.Parametric (.counting setup.host most) (setup.guarded most trap levels) (setup.within levels) := by
  induction levels with
  | zero =>
    refine ⟨fun _ _ => ?_, fun _ _ => ?_, fun _ _ _ _ => ?_⟩ <;>
      exact Eval.Related.throw fun _ _ => .failure .nesting
  | succ levels ih =>
    have limit : ∀ other ∈ some most, setup.maxCallDepth ≤ other := by
      rintro _ ⟨⟩
      exact within
    exact ⟨fun e envs => (ih.evalExpr envs e).guarded trap,
      fun s envs => (ih.runStatement setup.patience envs s).guarded trap,
      fun pos target receivers args => (ih.runCall (.inl rfl) limit target receivers args pos).guarded trap⟩

/-- The global names and the arguments are the same on both sides. -/
theorem call_counts (trap : Stop) (name : String) (args : List Value) {machine : Machine}
    (shallow : machine.depth ≤ setup.maxCallDepth) :
    (Eval.read Heap.globalEnvironment name none >>= fun fn =>
      (setup.guarded setup.maxCallDepth trap setup.levels).invoke setup.host fn args none) machine =
        setup.call name args machine ∧ (setup.call name args machine).2.depth = machine.depth := by
  have related : Eval.Related (.counting setup.host setup.maxCallDepth) Eval.Related.Values .identity
      (Eval.read Heap.globalEnvironment name none >>= fun fn =>
        (setup.guarded setup.maxCallDepth trap setup.levels).invoke setup.host fn args none)
      (setup.call name args) := by
    refine .bind (.read (Environment.related_identity _) name none) fun now f g le same => ?_
    refine (setup.guarded_parametric (Nat.le_refl _) trap setup.levels).invoke same ?_ none
    exact List.forall₂_same.mpr fun value _ => (Value.related_identity_iff.mpr rfl).mono le
  exact related.counts (fun _ _ => Value.related_identity_iff.mp) shallow

theorem execute_counts (trap : Stop) (prog : Program) (machine : Machine) :
    (setup.guarded setup.maxCallDepth trap setup.levels).execute prog machine =
      setup.execute prog machine ∧ (setup.execute prog machine).2.depth = 0 :=
  ((setup.guarded_parametric (Nat.le_refl _) trap setup.levels).statements (Environment.related_identity _)
    prog).counts (fun _ _ => Value.related_identity_iff.mp) (Nat.zero_le setup.maxCallDepth)

/-- A command leaves no call open. -/
theorem depth_perform {history : History} (none : history.machine.depth = 0) (command : Command) :
    (history.perform setup command).machine.depth = 0 := by
  cases command with
  | run prog => rfl
  | execute prog => exact (setup.execute_counts .diverged prog history.machine).2
  | call name args =>
    have shallow : history.machine.depth ≤ setup.maxCallDepth := none ▸ Nat.zero_le _
    exact (setup.call_counts .diverged name args shallow).2.trans none
  | checkpoint => exact none
  | rollback index =>
    unfold History.perform
    dsimp only
    split <;> exact none

/-- **The count of open calls is balanced and bounded.**  However the evaluation of an expression, a statement or
a call ends, it leaves as many calls open as it finds.  Nowhere in a run are more calls open than the limit: a run
that would stop there in whatever way does what a run does, and at the limit no call is entered.  So after any
commands, failed ones included, no call is open. -/
theorem depth_balanced (setup : Setup) :
    (∀ levels machine, (∀ env e, (evalAt setup levels env e machine).2.depth = machine.depth) ∧
      (∀ env s, (runAt setup levels env s machine).2.depth = machine.depth) ∧
      ∀ target receiver args pos,
        (callAt setup levels target receiver args pos machine).2.depth = machine.depth) ∧
    (∀ trap machine,
      let guarded := setup.guarded setup.maxCallDepth trap setup.levels
      (∀ program, guarded.execute program machine = setup.execute program machine) ∧
      ∀ name args, machine.depth ≤ setup.maxCallDepth →
        (Eval.read Heap.globalEnvironment name none >>= fun function =>
          guarded.invoke setup.host function args none) machine = setup.call name args machine) ∧
    (∀ levels target receiver args pos machine, setup.maxCallDepth ≤ machine.depth →
      ∃ stop, callAt setup levels target receiver args pos machine = (.error stop, machine)) ∧
    ∀ commands : List Command, (commands.foldl (History.perform setup) (.initial setup.host)).machine.depth = 0 := by
  refine ⟨fun levels machine => ?_, fun trap machine => ⟨fun program => ?_, fun name args shallow => ?_⟩,
    fun levels target receiver args pos machine deep => ?_, fun commands => ?_⟩
  · -- more calls may be open at the start than the limit allows for
    have related := setup.guarded_parametric (Nat.le_max_left _ machine.depth) .diverged levels
    have shallow := Nat.le_max_right setup.maxCallDepth machine.depth
    refine ⟨fun env e => ?_, fun env s => ?_, fun target receiver args pos => ?_⟩
    · exact ((related.expr e (Environment.related_identity env)).counts
        (fun _ _ => Value.related_identity_iff.mp) shallow).2
    · exact ((related.statement s (Environment.related_identity env)).counts (fun _ _ _ => rfl) shallow).2
    · have same : Option.Rel Link.identity.object receiver receiver := by
        cases receiver with
        | none => exact .none
        | some id => exact .some ⟨rfl, trivial⟩
      have args' := List.forall₂_same.mpr fun value (_ : value ∈ args) => Value.related_identity_iff.mpr rfl
      exact ((related.call pos ((Closure.related_diagonal_iff _ _).mpr ⟨rfl, fun _ _ => trivial⟩) same args').counts
        (fun _ _ => Value.related_identity_iff.mp) shallow).2
  · exact (setup.execute_counts trap program machine).1
  · exact (setup.call_counts trap name args shallow).1
  · cases levels with
    | zero => exact ⟨_, rfl⟩
    | succ levels =>
      unfold callAt Evaluator.runCall
      split
      · exact ⟨_, rfl⟩
      · refine ⟨.fault (.callDepth setup.maxCallDepth target.name) pos, ?_⟩
        show (if setup.maxCallDepth ≤ machine.depth then _ else _ : Eval Value) machine = _
        rw [if_pos deep]
        rfl
  · have kept : ∀ history : History, history.machine.depth = 0 →
        (commands.foldl (History.perform setup) history).machine.depth = 0 := by
      induction commands with
      | nil => exact fun _ => id
      | cons command rest ih => exact fun history none => ih _ (setup.depth_perform none command)
    exact kept _ rfl

/-- With the limit one, `outer` is entered and the call of `inner` goes too deep. A call that is made while one
is open fails. -/
theorem depth_balanced_nestedCalls :
    let setup : Setup := { file := "script", maxCallDepth := 1, host := [tick], levels := 20 }
    let start := Machine.initial [tick]
    let commands : List Command := [.execute nestedCalls, .call "outer" [], .call "inner" []]
    (setup.run nestedCalls start).1.ok = false ∧ (setup.run nestedCalls start).2.heap.memory.calls = 1 ∧
      (callAt setup 9 ⟨0, "f", [], [], []⟩ none [] none { start with depth := 1 }).1.isOk = false ∧
      (commands.foldl (History.perform setup) (.initial setup.host)).machine.depth = 0 := by
  intro setup start commands
  obtain ⟨-, -, entered, closed⟩ := setup.depth_balanced
  obtain ⟨stop, run⟩ := entered 9 ⟨0, "f", [], [], []⟩ none [] none { start with depth := 1 } (by decide)
  exact ⟨by decide +kernel, by decide +kernel, by rw [run]; rfl, closed commands⟩

end Setup

end FlowScript
