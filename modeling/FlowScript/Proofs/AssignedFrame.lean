import FlowScript.Proofs.CallFree
/-!
# What the run of a statement leaves alone

The checker forgets what it knows of the names that a loop assigns, and only of those.  A statement without
calls binds nothing else in the frames that are there before: what it declares inside goes to frames of its
own.

Main statement: `runAt_frame`.
-/

namespace FlowScript

/-- Whether a node is no call. A conditional has a block or another conditional as its alternative, never a
variable declaration without a block. -/
def Node.callFree : Node → Bool
  | .expr (.call ..) | .expr (.methodCall ..) => false
  | .stmt (.ifElse _ _ _ (some other)) => other.declared?.isNone
  | _ => true

/-- The leeway to bind in the first `size` frames nothing but some variables. -/
def Leeway.framing (size : Nat) (binds : Nat → String → Prop) : Leeway where
  applies m := size ≤ m.heap.frames.size
  stops _ := True
  moves m n := m.heap.frames.size ≤ n.heap.frames.size ∧
    ∀ id < size, ∀ name, ¬binds id name → (n.heap.frame id).find? name = (m.heap.frame id).find? name
  fault _ _ := trivial
  refl _ := ⟨Nat.le_refl _, fun _ _ _ _ => rfl⟩
  trans one two := ⟨Nat.le_trans one.1 two.1, fun id below name not =>
    (two.2 id below name not).trans (one.2 id below name not)⟩
  keeps applies moves := Nat.le_trans applies moves.1

/-- Binding within the given variables and in new frames is allowed. -/
theorem Leeway.framing_permits {size : Nat} {binds : Nat → String → Prop}
    (new : ∀ id name, size ≤ id → binds id name) : (Leeway.framing size binds).Permits binds where
  returned _ := trivial
  diverged := trivial
  failure _ _ := trivial
  keep {m n} same := by
    refine ⟨Nat.le_of_eq (by rw [same]), fun id _ name _ => ?_⟩
    rw [Heap.frame, Heap.frame, same]
  push {m bindings} applies := by
    refine ⟨fun name => new _ name applies, ?_, fun id below name _ => ?_⟩
    · simp only [Heap.pushFrame, Array.size_push, Nat.le_add_right]
    · rw [Heap.frame_pushFrame _ _ (Nat.lt_of_lt_of_le below applies)]
  bind {m id name value} applies may := by
    refine ⟨Nat.le_of_eq (Heap.size_frames_bind ..).symm, fun other below free not => ?_⟩
    by_cases same : other = id
    · subst same
      have unlike : name ≠ free := by
        rintro rfl
        exact not may
      rw [Heap.frame_bind _ _ _ _ (Nat.lt_of_lt_of_le below applies), if_pos rfl,
        Table.find?_insert_of_ne _ _ unlike]
    · simp [Heap.bind, Heap.frame, Array.getElem?_modify, Ne.symm same]

/-- A statement without calls, however its run ends, leaves every variable of every frame that is there before
unless its name is one that the statement assigns. The variable that the statement itself declares goes to the
frame of its environment. -/
theorem runAt_frame (setup : Setup) (levels : Nat) (env : Environment) (s : Stmt) (machine : Machine)
    (callFree : s.Each fun node => node.callFree = true) :
    ∀ id < machine.heap.frames.size, ∀ name, name ∉ s.assignedNames →
      ¬(s.declared? = some name ∧ env.head? = some id) →
      ((runAt setup levels env s machine).2.heap.frame id).find? name =
        (machine.heap.frame id).find? name := by
  intro id below name unassigned undeclared
  -- what the run may bind: all names in new frames, and in the frames of before only some
  let binds (id : Nat) (name : String) : Prop := machine.heap.frames.size ≤ id ∨ name ∈ s.assignedNames ∨
    s.declared? = some name ∧ env.head? = some id
  have permits : (Leeway.framing machine.heap.frames.size binds).Permits binds :=
    Leeway.framing_permits fun _ _ => Or.inl
  have admits : s.Each ((Leeway.framing machine.heap.frames.size binds).Admits binds) := by
    intro node within
    have free := callFree node within
    unfold Leeway.Admits
    split
    · cases free
    · cases free
    · exact fun id => .inr (.inl (List.mem_filterMap.mpr ⟨_, within, rfl⟩))
    · trivial
    · trivial
    · cases free
    · trivial
  have only : (runAt setup levels env s).Only (.framing machine.heap.frames.size binds) :=
    setup.statement_only permits admits (fun name declares id head => .inr (.inr ⟨declares, head⟩))
      (.inl trivial)
  have moves : (Leeway.framing machine.heap.frames.size binds).moves machine
      (runAt setup levels env s machine).2 := by
    have meets := only machine (Nat.le_refl _)
    unfold Eval.Meets at meets
    rcases run : runAt setup levels env s machine with ⟨stop | value, after⟩ <;> rw [run] at meets
    · exact meets.2
    · exact meets
  refine moves.2 id below name ?_
  rintro (new | assigned | declared)
  · exact Nat.not_le_of_lt below new
  · exact unassigned assigned
  · exact undeclared declared

/-- The run of `{ var z = 1; x = z }` binds the global variable `x`, but not the global variable `z`: the block
has a `z` of its own. -/
theorem runAt_frame_block :
    let s := Stmt.block ⟨default, [.varDecl default "z" none (some (.literal default (.int 1))) none,
      .expr default (.assign default default "x" (.name default "z"))]⟩
    let globals : Bindings := Table.ofList [("x", some (.int 0)), ("z", some (.int 2))]
    let left := (runAt (.of {} []) 9 [1, 0] s { heap.frames := #[Table.empty, globals] }).2.heap.frame 1
    (∀ node ∈ s.nodes, node.callFree = true) ∧ left.find? "x" = some (some (.int 1)) ∧
      left.find? "z" = globals.find? "z" := by
  intro s globals left
  have callFree : ∀ node ∈ s.nodes, node.callFree = true := by decide
  exact ⟨callFree, by rfl,
    runAt_frame _ _ _ _ _ callFree 1 (by decide) "z" (by decide) (by decide)⟩

end FlowScript
