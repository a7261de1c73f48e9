import FlowScript.Proofs.Assignments
/-!
# New variables

A declaration puts a new name into the innermost frame, and running it binds the name in the frame of the
heap that stands for it.  While the initial value is checked and evaluated the name is declared but not
bound.

`Analyzer.Introduces` says that a state is like another but for one new name.  Main statements: a heap
that agrees with the state before agrees with the one after it once the name is bound
(`Analyzer.Introduces.agrees`), and as long as it is not bound if its initial value is being checked
(`Analyzer.Introduces.agrees_initializing`).
-/

namespace FlowScript

namespace Analyzer

variable {start after : Analyzer} {name : String}

/-- Whether a state is like another but for one new name, of which more may be changed than that it is
declared. -/
structure Introduces (start : Analyzer) (name : String) (after : Analyzer) : Prop where
  free : (start.frame start.scope).symbols.find? name = none
  evolves : start.Evolves true after
  consistent : after.Consistent
  declared : start.Declared name after
  count : after.symbols.size = start.symbols.size + 1
  kind : (after.symbolAt start.symbols.size).kind ≠ .function ∧
    (after.symbolAt start.symbols.size).kind ≠ .struct
  facts : after.flow.facts = start.flow.facts
  unassigned : start.flow.unassigned ⊆ after.flow.unassigned

/-- The state in which the initial value of a name is being checked, or is no longer. -/
def mark (a : Analyzer) (id : Nat) (flag : Bool) : Analyzer :=
  a.modifySymbol id fun symbol => { symbol with initializing := flag }

@[simp] theorem size_mark (a : Analyzer) (id : Nat) (flag : Bool) :
    (a.mark id flag).symbols.size = a.symbols.size := by
  simp [mark, modifySymbol]

@[simp] theorem ty_symbolAt_mark (a : Analyzer) (id : Nat) (flag : Bool) (other : Nat) :
    ((a.mark id flag).symbolAt other).ty = (a.symbolAt other).ty := by
  rw [mark, symbolAt_modifySymbol]
  split <;> rfl

namespace Introduces

variable (h : start.Introduces name after)

include h

/-- What holds of the names that there were and of the new one holds of all. -/
theorem symbols {motive : Symbol → Prop} (retyped : ∀ symbol ty, motive symbol → motive { symbol with ty })
    (old : ∀ id, motive (start.symbolAt id)) (new : motive (after.symbolAt start.symbols.size)) (id : Nat) :
    motive (after.symbolAt id) := by
  rcases Nat.lt_trichotomy id start.symbols.size with before | rfl | beyond
  · obtain ⟨ty, eq, -⟩ := h.evolves.grows.name id before
    rw [eq]
    exact retyped _ ty (old id)
  · exact new
  · have count := h.count
    -- past the end there is nothing but the default
    have same : after.symbolAt id = start.symbolAt id := by
      rw [symbolAt, symbolAt, Array.getD_eq_getD_getElem?, Array.getD_eq_getD_getElem?,
        Array.getElem?_eq_none (by omega), Array.getElem?_eq_none (by omega)]
    rw [same]
    exact old id

theorem regular (regular : start.Regular) : after.Regular := by
  refine regular.next h.evolves h.consistent ?_ ?_
  · exact h.symbols (motive := fun symbol => symbol.kind ≠ .function ∧ symbol.kind ≠ .struct)
      (fun _ _ kind => kind) regular.kinds h.kind
  · rw [h.facts]
    exact regular.facts.mono h.evolves.grows.nameCount

theorem steady (steady : start.Steady)
    (ready : (after.symbolAt start.symbols.size).initializing = false) : after.Steady :=
  ⟨h.regular steady.toRegular, h.symbols (motive := fun symbol => symbol.initializing = false)
    (fun _ _ ready => ready) steady.ready ready⟩

/-- The new name is changed. -/
theorem modify {f : Symbol → Symbol}
    (called : ∀ symbol, (f symbol).name = symbol.name) (kind : ∀ symbol, (f symbol).kind = symbol.kind)
    (consistent : (after.modifySymbol start.symbols.size f).Consistent) :
    start.Introduces name (after.modifySymbol start.symbols.size f) where
  free := h.free
  evolves := h.evolves.modifyNew (Nat.le_refl _) h.kind.1 f called kind
  consistent := consistent
  declared := h.declared
  count := by simpa [modifySymbol] using h.count
  kind := by
    rw [symbolAt_modifySymbol]
    split
    · rw [kind]
      exact h.kind
    · exact h.kind
  facts := h.facts
  unassigned := h.unassigned

theorem symbolAt_modify (f : Symbol → Symbol) :
    (after.modifySymbol start.symbols.size f).symbolAt start.symbols.size =
      f (after.symbolAt start.symbols.size) := by
  have count := h.count
  rw [symbolAt_modifySymbol, if_pos ⟨rfl, by omega⟩]

/-- The initial value of the new name is being checked, or is no longer. -/
theorem mark (flag : Bool) :
    start.Introduces name (after.mark start.symbols.size flag) := by
  have proceeds : after.Proceeds (after.mark start.symbols.size flag) :=
    h.consistent.modifySymbol _ (fun _ typed => ⟨typed.canonical, typed.known⟩) fun _ => rfl
  exact h.modify (fun _ => rfl) (fun _ => rfl) proceeds.consistent

/-- The new name gets a type. -/
theorem retype {ty : Ty} (determined : ty.Determined) :
    start.Introduces name (after.modifySymbol start.symbols.size fun symbol => { symbol with ty }) :=
  h.modify (fun _ => rfl) (fun _ => rfl) (h.consistent.setType _ determined).consistent

/-- The new name is known to be unassigned. -/
theorem unassign :
    start.Introduces name
      { after with flow := after.flow.declaredUnassigned (start.fresh name) } := by
  have proceeds : after.Proceeds { after with flow := after.flow.declaredUnassigned (start.fresh name) } :=
    h.consistent.setFlow h.consistent.typed.facts
  exact ⟨h.free, h.evolves.congr rfl rfl rfl rfl rfl rfl rfl rfl, proceeds.consistent, h.declared, h.count,
    h.kind, h.facts, List.subset_cons_of_subset _ h.unassigned⟩

end Introduces

/-- A name that is not taken is declared. -/
theorem Regular.introduces (h : start.Regular) {ty : Ty} {kind : SymbolKind} (pos : Position)
    (free : (start.frame start.scope).symbols.find? name = none) (canonical : ty.Canonical)
    (known : kind.isMutable = false → ty ≠ .unknown) (ordinary : kind ≠ .function ∧ kind ≠ .struct) :
    start.Introduces name ((start.addName name ty kind pos).bindName name start.symbols.size) := by
  have added : start.Evolves true (start.addName name ty kind pos) :=
    (Evolves.refl h.wellFormed).addName name ty kind pos (fun fn => absurd fn ordinary.1)
      fun struct => absurd struct ordinary.2
  have count : (start.addName name ty kind pos).symbols.size = start.symbols.size + 1 := by
    simp [addName]
  have proceeds : (start.addName name ty kind pos).Proceeds
      ((start.addName name ty kind pos).bindName name start.symbols.size) :=
    (h.consistent.addName name pos canonical known).consistent.modifyFrame _ fun _ types => types
  refine ⟨free, ?_, proceeds.consistent, ?_, count, ?_, rfl, List.Subset.refl _⟩
  · refine added.bindName (Nat.le_refl _) ?_ free (by omega)
    rw [symbolAt_addName_self]
  · -- the innermost frame binds one name more, and the other frames are the same
    intro frame mem wanted
    have inBounds := h.wellFormed.visible frame mem
    unfold bindName
    rw [frame_modifyFrame]
    by_cases here : frame = start.scope
    · subst here
      rw [if_pos ⟨rfl, inBounds⟩, Table.find?_insert]
      by_cases same : wanted = name
      · rw [if_pos same.symm, if_pos ⟨rfl, same⟩]
        rfl
      · rw [if_neg (Ne.symm same), if_neg fun both => same both.2]
        rfl
    · rw [if_neg fun both => here both.1.symm, if_neg fun both => here both.1]
      rfl
  · rw [symbolAt_bindName, symbolAt_addName_self]
    exact ordinary

/-- No fact is on a name that is new. -/
theorem Regular.not_visible_fresh (h : start.Regular) (name : String) :
    ¬start.Visible (start.fresh name) :=
  fun visible => absurd (h.wellFormed.lt_of_visible visible) (Nat.lt_irrefl _)

end Analyzer

/-! ## Binding new names -/

theorem Memory.bind_bind (memory : Memory) (ref : SymbolRef) (first second : Option (Option Value)) :
    (memory.bind ref first).bind ref second = memory.bind ref second := by
  simp only [bind, Memory.mk.injEq, and_true]
  funext other
  split <;> rfl

namespace Analyzer.Introduces

variable {start after : Analyzer} {name : String} {run : Run} {env : Environment}
  {memory : Memory} {heap : Heap}

/-- The new name is found in the innermost frame. -/
theorem find?_eq (h : start.Introduces name after) (regular : start.Regular) :
    (after.frame start.scope).symbols.find? name = some (start.fresh name) :=
  (h.declared start.scope regular.inside name).trans (if_pos ⟨rfl, rfl⟩)

/-- As long as its initial value is being checked, the new name is not bound. -/
theorem agrees_initializing (h : start.Introduces name after) (regular : start.Regular)
    (agrees : run.Agrees start env memory heap)
    (initializing : (after.symbolAt start.symbols.size).initializing = true) :
    run.Agrees after env (memory.bind (start.fresh name) none) heap :=
  agrees.declare regular h.evolves h.declared (by rw [h.facts]; exact List.Subset.refl _) h.unassigned
    (agrees.mirrors.declare regular.wellFormed (by rw [h.evolves.site]) h.declared h.free) initializing

/-- The new name is bound: to a value of its type, or to none if it is known to be unassigned. -/
theorem agrees (h : start.Introduces name after) (regular : start.Regular)
    (agrees : run.Agrees start env memory heap) (binding : Option Value)
    (own : match binding with
      | some value => value.Is (run.later.symbol (start.fresh name)).ty
      | none => start.fresh name ∈ after.flow.unassigned) :
    run.Agrees after env (memory.bind (start.fresh name) (some binding))
      (heap.bind (memory.place start.scope) name binding) := by
  have mirrors := agrees.mirrors.declare regular.wellFormed (by rw [h.evolves.site]) h.declared h.free
  have bound := mirrors.bind (h.regular regular) (by rw [h.evolves.site]; exact regular.inside)
    (h.find?_eq regular) binding
  rw [Memory.bind_bind] at bound
  refine agrees.declare regular h.evolves h.declared (by rw [h.facts]; exact List.Subset.refl _)
    h.unassigned bound ?_
  cases binding with
  | none => exact own
  | some value =>
    refine ⟨own, fun ty mem => ?_⟩
    rw [h.facts] at mem
    exact absurd (regular.facts _ mem).1 (Nat.lt_irrefl _)

/-- Variables that were visible before are as they were. -/
theorem keeps (_h : start.Introduces name after) (regular : start.Regular) (names : List String)
    (memory : Memory) (binding : Option (Option Value)) :
    Run.Keeps start names memory (memory.bind (start.fresh name) binding) :=
  (Run.Keeps.refl start names memory).hidden (regular.not_visible_fresh name) binding

end Analyzer.Introduces

/-- A variable is defined in the frame of the heap that stands for the innermost frame. -/
theorem Analyzer.Regular.define_meets {start : Analyzer} (h : start.Regular) {env : Environment}
    {memory : Memory} {machine : Machine} (mirrors : start.Mirrors env memory machine.heap)
    (name : String) (binding : Option Value) :
    Run.Meets (Eval.define env name binding) machine fun _ reached =>
      reached.heap = machine.heap.bind (memory.place start.scope) name binding := by
  have inside := h.inside
  have same := mirrors.environment
  unfold Analyzer.scope at inside ⊢
  cases frames : start.site.frames with
  | nil =>
    rw [frames] at inside
    cases inside
  | cons frame rest =>
    rw [frames, List.map_cons] at same
    rw [same]
    exact .modify rfl

/-- A declaration of a new name is run. -/
theorem Analyzer.Introduces.define {start after : Analyzer} {name : String}
    (h : start.Introduces name after) (regular : start.Regular) {run : Run} {env : Environment}
    {memory : Memory} {machine : Machine} (agrees : run.Agrees start env memory machine.heap)
    (binding : Option Value)
    (own : match binding with
      | some value => value.Is (run.later.symbol (start.fresh name)).ty
      | none => start.fresh name ∈ after.flow.unassigned)
    (names : List String) :
    Run.Meets (Eval.define env name binding) machine fun _ reached =>
      run.Arrives start names after env memory reached.heap := by
  refine (regular.define_meets agrees.mirrors name binding).mono ?_
  intro _ reached heap
  rw [heap]
  exact ⟨_, h.agrees regular agrees binding own, h.keeps regular names memory _⟩

/-- A new frame with one variable is an empty one in which the variable is bound. -/
theorem Heap.pushFrame_insert (heap : Heap) (name : String) (binding : Option Value) :
    heap.pushFrame (Table.empty.insert name binding) =
      (heap.pushFrame Table.empty).bind heap.frames.size name binding := by
  simp only [pushFrame, bind, Heap.mk.injEq, and_true]
  refine Array.ext (by simp) fun id inBounds _ => ?_
  simp only [Array.size_push] at inBounds
  by_cases last : id = heap.frames.size
  · simp [Array.getElem_modify, last]
  · have old : id < heap.frames.size := by omega
    simp [Array.getElem_modify, Array.getElem_push, Ne.symm last, old]

end FlowScript
