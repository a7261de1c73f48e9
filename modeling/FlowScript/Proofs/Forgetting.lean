import FlowScript.Proofs.EvolvingRules
import Mathlib.Data.List.Basic
/-!
# Undoing the check of a program

A check changes, of what earlier programs left, only the types of global names.  So a snapshot of the
global names and their types is enough to undo it.

Main statement: `Analyzer.Settled.analyze_restore`, by which the next program is checked from the same state
as if the undone one had never been checked.
-/

namespace FlowScript

namespace Analyzer

/-- Entries below the length at which an array is cut stay. -/
theorem getD_take {α : Type} [Inhabited α] (entries : Array α) {length index : Nat}
    (below : index < length) :
    (entries.take length).getD index default = entries.getD index default := by
  by_cases inBounds : index < entries.size
  · have both : index < min length entries.size := by omega
    simp [inBounds, both]
  · have outside : ¬index < min length entries.size := by omega
    simp [inBounds, outside]

theorem getD_setIfInBounds {α : Type} [Inhabited α] (entries : Array α) {pos : Nat} (value : α)
    (inBounds : pos < entries.size) (index : Nat) :
    (entries.setIfInBounds pos value).getD index default =
      if pos = index then value else entries.getD index default := by
  by_cases same : pos = index
  · subst same
    simp [inBounds]
  · simp [same]

theorem getD_mapIdx {α β : Type} [Inhabited α] [Inhabited β] (f : Nat → α → β) (entries : Array α)
    {index : Nat} (inBounds : index < entries.size) :
    (entries.mapIdx f).getD index default = f index (entries.getD index default) := by
  simp [inBounds]

/-- Arrays of one size with the same entries are equal. -/
theorem eq_of_getD_eq {α : Type} [Inhabited α] {left right : Array α} (size : left.size = right.size)
    (same : ∀ index < right.size, left.getD index default = right.getD index default) :
    left = right := by
  refine Array.ext size fun index hl hr => ?_
  simpa [hl, hr] using same index hr

/-! ## Between programs -/

/-- The state between programs: of the frames only the outermost are there, and nothing is open. -/
structure Settled (analyzer : Analyzer) : Prop where
  frames : analyzer.frames.size = globalFrame + 1
  wellFormed : analyzer.WellFormed
  contexts : analyzer.contexts = #[]
  pending : analyzer.pending = Table.empty
  active : analyzer.active = Table.empty
  deferred : analyzer.deferred = []

/-- States from which every program is checked alike. -/
def Alike (left right : Analyzer) : Prop := ∀ prog, left.begin prog = right.begin prog

variable {base after left right : Analyzer}

theorem Alike.analyze_eq (alike : left.Alike right) (config : Config) (prog : Program) :
    left.analyze config prog = right.analyze config prog := by
  simp only [analyze, analyzeWithin, alike prog]

theorem Alike.snapshot_eq (alike : left.Alike right) : left.snapshot = right.snapshot := by
  have same {α : Type} (field : Analyzer → α) :
      field (left.begin []) = field (right.begin []) := congrArg field (alike [])
  have frames : left.frames = right.frames := same fun a => a.frames
  have symbols : left.symbols = right.symbols := same fun a => a.symbols
  have structs : left.structs = right.structs := same fun a => a.structs
  have traits : left.traits = right.traits := same fun a => a.traits
  have flow : left.flow = right.flow := same fun a => a.flow
  simp only [snapshot, frame, symbol, symbolAt, frames, symbols, structs, traits, flow]

/-- The numbers of the global names. -/
def globalIds (a : Analyzer) : List Nat :=
  (a.frame globalFrame).symbols.values.map SymbolRef.id

theorem Settled.wellFormed_begin (settled : base.Settled) (prog : Program) :
    (base.begin prog).WellFormed := by
  have size := settled.frames
  refine (settled.wellFormed.setSite (?_ : ∀ id ∈ globalSite.frames, _) (by decide)).congr rfl rfl rfl
    rfl rfl rfl rfl
  intro id mem
  simp only [globalSite, List.mem_cons, List.not_mem_nil, or_false] at mem
  simp only [globalFrame, hostFrame] at mem size
  omega

/-- Of the names of earlier programs, only the types of global ones change. -/
theorem Settled.symbolAt_eq (settled : base.Settled) {prog : Program}
    (evolves : (base.begin prog).Evolves true after) {id : Nat} (old : id < base.symbols.size)
    (inner : id ∉ base.globalIds) : after.symbolAt id = base.symbolAt id := by
  obtain ⟨ty, eq, step⟩ := evolves.grows.name id old
  rcases step with rfl | waits | ⟨-, assignable, frame, ref, mem, rfl⟩
  · exact eq
  · rw [show (base.begin prog).pending = Table.empty from settled.pending] at waits
    cases waits
  · have mem : ref ∈ (base.frame frame).symbols.values := mem
    have assignable : (base.symbol ref).kind.isMutable = true := assignable
    rcases Nat.lt_trichotomy frame globalFrame with host | rfl | above
    · obtain rfl : frame = hostFrame := by
        simp only [globalFrame, hostFrame] at host ⊢
        omega
      rw [settled.wellFormed.hosts ref mem] at assignable
      cases assignable
    · exact absurd (List.mem_map.mpr ⟨ref, mem, rfl⟩) inner
    · have outside : ¬frame < base.frames.size := by
        have := settled.frames
        omega
      have empty : base.frame frame = default := by
        rw [Analyzer.frame, Array.getD_eq_getD_getElem?, Array.getElem?_eq_none (by omega)]
        rfl
      rw [empty] at mem
      cases mem

/-- Of the frames of a program the outermost stay when its check is over. -/
theorem frame_finish_of_lt {id : Nat} (outermost : id < globalFrame + 1) :
    after.finish.frame id = after.frame id :=
  getD_take _ outermost

theorem frame_finish_of_le {id : Nat} (inner : globalFrame + 1 ≤ id) :
    after.finish.frame id = default := by
  have size : after.finish.frames.size ≤ globalFrame + 1 := by
    simp only [finish, Array.take_eq_extract, Array.size_extract]
    omega
  rw [Analyzer.frame, Array.getD_eq_getD_getElem?, Array.getElem?_eq_none (by omega)]
  rfl

/-- After the check of a program the state is one between programs. -/
theorem Evolves.settled_finish (h : base.Evolves true after) : after.finish.Settled := by
  have outermost := h.wellFormed.outermost
  have size : after.finish.frames.size = globalFrame + 1 := by
    simp [finish]
    omega
  refine ⟨size, ⟨by omega, ?_, Nat.one_ne_zero, ?_, ?_, h.wellFormed.functions, by simp [finish],
    by rintro _ ⟨⟩, h.wellFormed.constructors, h.wellFormed.distinct, h.wellFormed.structs,
    h.wellFormed.traits, h.wellFormed.plain, h.wellFormed.disjoint⟩, rfl, rfl, rfl, rfl⟩
  · intro id mem
    simp only [finish, globalSite, List.mem_cons, List.not_mem_nil, or_false] at mem
    simp only [globalFrame, hostFrame] at mem size
    omega
  · intro id entry mem
    by_cases frame : id < globalFrame + 1
    · rw [frame_finish_of_lt frame] at mem
      exact h.wellFormed.names id entry mem
    · rw [frame_finish_of_le (by omega)] at mem
      cases mem
  · intro ref mem
    rw [frame_finish_of_lt (by decide)] at mem
    exact h.wellFormed.hosts ref mem

/-! ## Undoing -/

/-- Putting types back changes the types of the listed names and nothing else. -/
theorem getD_foldl_types (types : List (SymbolRef × Ty)) (type : Nat → Ty)
    (agree : ∀ pair ∈ types, pair.2 = type pair.1.id) (symbols : Array Symbol) (id : Nat) :
    (types.foldl (fun symbols pair =>
        symbols.modify pair.1.id fun symbol => { symbol with ty := pair.2 }) symbols).getD id default =
      if id ∈ types.map (fun pair => pair.1.id) ∧ id < symbols.size then
        { symbols.getD id default with ty := type id }
      else symbols.getD id default := by
  induction types generalizing symbols with
  | nil => simp
  | cons pair rest ih =>
    rw [List.foldl_cons, ih fun other mem => agree other (by simp [mem])]
    have first := agree pair (by simp)
    by_cases inBounds : id < symbols.size
    · by_cases same : pair.1.id = id
      · subst same
        simp [inBounds, first, Array.getElem_modify]
      · have kept : (symbols.modify pair.1.id fun symbol =>
            { symbol with ty := pair.2 }).getD id default = symbols.getD id default := by
          simp [inBounds, same, Array.getElem_modify]
        simp only [kept, Array.size_modify, List.map_cons, List.mem_cons, Ne.symm same, false_or]
    · simp [inBounds]

theorem size_foldl_types (types : List (SymbolRef × Ty)) (symbols : Array Symbol) :
    (types.foldl (fun symbols pair =>
      symbols.modify pair.1.id fun symbol => { symbol with ty := pair.2 }) symbols).size =
      symbols.size := by
  induction types generalizing symbols with
  | nil => rfl
  | cons pair rest ih =>
    rw [List.foldl_cons, ih, Array.size_modify]

/-- A snapshot has every struct as it was. -/
theorem WellFormed.registry_snapshot (wellFormed : base.WellFormed) :
    base.snapshot.registry = base.structs := by
  have found (entry : String × StructInfo) (mem : entry ∈ base.structs.entries) :
      (base.snapshot.structs.find? entry.1).map (fun decl =>
        (entry.1, StructInfo.mk decl entry.2.fields entry.2.methods entry.2.traits)) = some entry := by
    have bound := Table.find?_of_mem wellFormed.distinct mem
    rw [snapshot, Table.find?_map, bound]
    rfl
  have entries : base.snapshot.registry.entries = base.structs.entries := by
    simp only [Snapshot.registry, snapshot, Table.map, List.filterMap_map]
    exact (List.filterMap_congr found).trans List.filterMap_some
  cases h : base.structs with
  | mk pairs =>
    rw [h] at entries
    exact congrArg Table.mk entries

/-- Undoing a check puts back all that a later check depends on. -/
theorem Settled.restore_finish (settled : base.Settled) {prog : Program}
    (evolves : (base.begin prog).Evolves true after) :
    after.finish.restore base.snapshot =
      { base with
        site := globalSite
        finished := after.finished
        unstable := after.unstable
        topLevel := after.topLevel } := by
  have size := settled.frames
  have outermost := evolves.wellFormed.outermost
  have frames : (after.frames.take (globalFrame + 1)).setIfInBounds globalFrame
      (base.frame globalFrame) = base.frames := by
    refine eq_of_getD_eq (by simp; omega) fun id inBounds => ?_
    rw [getD_setIfInBounds _ _ (by simp; omega)]
    by_cases global : globalFrame = id
    · rw [if_pos global, ← global]
      rfl
    · rw [if_neg global, getD_take _ (by omega)]
      exact evolves.grows.frame id inBounds fun opened => global (Option.some.inj opened)
  have symbols : (base.snapshot.types.foldl (fun symbols pair =>
      symbols.modify pair.1.id fun symbol => { symbol with ty := pair.2 })
      (base.symbols.mapIdx after.finish.current)) = base.symbols := by
    refine eq_of_getD_eq (by simp [size_foldl_types]) fun id inBounds => ?_
    have agree : ∀ pair ∈ base.snapshot.types, pair.2 = (base.symbolAt pair.1.id).ty := by
      intro pair mem
      obtain ⟨ref, -, rfl⟩ := List.mem_map.mp mem
      rfl
    have ids : base.snapshot.types.map (fun pair => pair.1.id) = base.globalIds := by
      simp [snapshot, globalIds]
    -- every name of the snapshot is still there
    have kept : (base.symbols.mapIdx after.finish.current).getD id default = after.symbolAt id := by
      obtain ⟨ty, eq, -⟩ := evolves.grows.name id inBounds
      rw [getD_mapIdx _ _ inBounds, current]
      refine if_pos ?_
      change { after.symbolAt id with ty := (base.symbolAt id).ty } = base.symbolAt id
      rw [eq]
      rfl
    rw [getD_foldl_types _ (fun id => (base.symbolAt id).ty) agree, ids, kept]
    by_cases global : id ∈ base.globalIds
    · obtain ⟨ty, eq, -⟩ := evolves.grows.name id inBounds
      rw [if_pos ⟨global, by simpa using inBounds⟩]
      change { after.symbolAt id with ty := (base.symbolAt id).ty } = base.symbolAt id
      rw [eq]
      rfl
    · rw [if_neg fun both => global both.1]
      exact settled.symbolAt_eq evolves inBounds global
  rw [restore]
  simp only [finish, snapshot] at frames symbols ⊢
  have structs := settled.wellFormed.registry_snapshot
  simp only [snapshot] at structs
  rw [frames, symbols, structs, settled.contexts, settled.pending, settled.active, settled.deferred]

/-- The state evolves along the check of a program. -/
theorem Settled.evolves_check (settled : base.Settled) (levels : Nat) (prog : Program) :
    (base.begin prog).Evolves true
      (checkStatementsAt levels prog (base.begin prog)).result.2 :=
  ((Checks.evolving levels).statements prog _ (.refl (settled.wellFormed_begin prog))).after

theorem Settled.analyze (settled : base.Settled) (config : Config) (prog : Program) :
    (base.analyze config prog).2.Settled :=
  (settled.evolves_check checkLevels prog).settled_finish

/-- Undoing the check of a program leaves the state as it was, for every program that is checked
next. -/
theorem Settled.analyze_restore (settled : base.Settled) (config : Config) (prog : Program) :
    ((base.analyze config prog).2.restore base.snapshot).Settled ∧
      ((base.analyze config prog).2.restore base.snapshot).Alike base := by
  have evolves := settled.evolves_check checkLevels prog
  have eq : (base.analyze config prog).2.restore base.snapshot = _ :=
    settled.restore_finish evolves
  rw [eq]
  refine ⟨⟨settled.frames, ?_, settled.contexts, settled.pending, settled.active, settled.deferred⟩,
    fun _ => rfl⟩
  exact (settled.wellFormed_begin prog).congr rfl rfl rfl rfl rfl rfl rfl

/-- Before any program the state is one between programs. -/
theorem initial_settled (signatures : List (String × Ty)) : (initial signatures).Settled := by
  have symbolAt (id : Nat) (inBounds : id < signatures.length) :
      (initial signatures).symbolAt id =
        { name := signatures[id].1, ty := signatures[id].2, kind := .host, home := .topLevel
          position := none } := by
    simp [Analyzer.symbolAt, initial, inBounds]
  -- all names are those of host functions: the global frame is empty
  have host (id : Nat) (entry : String × SymbolRef)
      (mem : entry ∈ ((initial signatures).frame id).symbols.entries) :
      ∃ index, ∃ inBounds : index < signatures.length,
        entry = (signatures[index].1, ⟨index, signatures[index].1⟩) := by
    rcases id with _ | _ | id
    · obtain ⟨⟨⟨name, ty⟩, index⟩, indexed, rfl⟩ := List.mem_map.mp (Table.mem_entries_ofList mem)
      obtain ⟨-, inBounds, eq⟩ := List.mem_zipIdx indexed
      simp only [Nat.zero_add, Nat.sub_zero] at inBounds eq
      exact ⟨index, inBounds, by simp [← eq]⟩
    · cases mem
    · cases mem
  refine ⟨rfl, ⟨Nat.lt_add_one _, ?_, Nat.one_ne_zero, ?_, ?_, ?_, by simp [initial],
    by rintro _ ⟨⟩, ?_, List.nodup_nil, by simp [initial], by simp [initial],
    ?_, by rintro _ ⟨⟩⟩, rfl, rfl, rfl, rfl⟩
  · intro id mem
    simp only [initial, globalSite, List.mem_cons, List.not_mem_nil, or_false, globalFrame,
      hostFrame] at mem ⊢
    simp only [List.size_toArray, List.length_cons, List.length_nil]
    omega
  · intro id entry mem
    obtain ⟨index, inBounds, rfl⟩ := host id entry mem
    refine ⟨rfl, by simpa [initial] using inBounds, ?_⟩
    rw [symbol, symbolAt index inBounds]
  · intro ref mem
    obtain ⟨entry, bound, rfl⟩ := List.mem_map.mp mem
    obtain ⟨index, inBounds, rfl⟩ := host hostFrame entry bound
    rw [symbol, symbolAt index inBounds]
  · intro id inBounds fn
    rw [symbolAt id (by simpa [initial] using inBounds)] at fn
    cases fn
  · intro id inBounds struct
    rw [symbolAt id (by simpa [initial] using inBounds)] at struct
    cases struct
  · rintro name (known | known)
    · cases known
    · cases known

end Analyzer

end FlowScript
