import FlowScript.Proofs.Forgetting
/-!
# Whatever is looked up is there

The rules of checking take for granted that a struct whose name is visible is declared, that the functions
of a statement list wait when their types are resolved, that a function whose body is checked has a type
and is among those that are being checked, and that every operator has a rule.  An analyzer may be used for
one program after another, also after a program with errors or one that nests too deep, and any state of it
that was noted may be put back at any time.

A `Desk` is an analyzer with the snapshots that were taken of it and the analyses that it gave.  One use of
it leads from one settled state to another (`Desk.Sound.use`), so every run of uses does (`Desk.Sound.run`).

Main statement: `Desk.lookups_defined`, by which no use of an analyzer ever fails to find what it takes for
granted.
-/

namespace FlowScript

namespace Analyzer

variable {base a : Analyzer}

/-! ## Putting back a snapshot of another time -/

theorem symbolAt_of_le {id : Nat} (outside : a.symbols.size ≤ id) :
    a.symbolAt id = default := by
  rw [symbolAt, Array.getD_eq_getD_getElem?, Array.getElem?_eq_none outside]
  rfl

/-- A name of a snapshot as it is now differs from it in its type only. -/
theorem current_eq (a : Analyzer) (id : Nat) (saved : Symbol) :
    ∃ ty, a.current id saved = { saved with ty } ∧
      (ty = saved.ty ∨ a.symbolAt id = { saved with ty }) := by
  by_cases there : { a.symbolAt id with ty := saved.ty } = saved
  · have same : a.symbolAt id = { saved with ty := (a.symbolAt id).ty } := by
      rw [← there]
    refine ⟨(a.symbolAt id).ty, ?_, .inr same⟩
    rw [current, if_pos there]
    exact same
  · refine ⟨saved.ty, ?_, .inl rfl⟩
    rw [current, if_neg there]

/-- The names that a snapshot puts back are called as they were and stand for what they did, and their
types are those of the snapshot or of the state that is left. -/
theorem symbolAt_restore (a : Analyzer) {id : Nat} (inBounds : id < base.symbols.size) :
    ∃ ty, (a.restore base.snapshot).symbolAt id = { base.symbolAt id with ty } ∧
      (ty = (base.symbolAt id).ty ∨ a.symbolAt id = { base.symbolAt id with ty }) := by
  have agree : ∀ pair ∈ base.snapshot.types, pair.2 = (base.symbolAt pair.1.id).ty := by
    intro pair mem
    obtain ⟨ref, -, rfl⟩ := List.mem_map.mp mem
    rfl
  have found : (a.restore base.snapshot).symbolAt id =
      if id ∈ base.snapshot.types.map (fun pair => pair.1.id) ∧
          id < (base.symbols.mapIdx a.current).size then
        { a.current id (base.symbolAt id) with ty := (base.symbolAt id).ty }
      else a.current id (base.symbolAt id) := by
    have kept := getD_mapIdx a.current base.symbols inBounds
    have types := getD_foldl_types base.snapshot.types (fun id => (base.symbolAt id).ty) agree
      (base.symbols.mapIdx a.current) id
    rw [kept] at types
    exact types
  obtain ⟨ty, now, origin⟩ := current_eq a id (base.symbolAt id)
  rw [found, now]
  split
  · exact ⟨_, rfl, .inl rfl⟩
  · exact ⟨ty, rfl, origin⟩

theorem size_symbols_restore (a base : Analyzer) :
    (a.restore base.snapshot).symbols.size = base.symbols.size := by
  have size := size_foldl_types base.snapshot.types (base.symbols.mapIdx a.current)
  rw [Array.size_mapIdx] at size
  exact size

variable (settled : a.Settled)

include settled

/-- The names of functions that a snapshot puts back have function types. -/
theorem Settled.isFunction_restore (origin : base.Settled) {id : Nat} (inBounds : id < base.symbols.size)
    (kind : ((a.restore base.snapshot).symbolAt id).kind = .function) :
    ((a.restore base.snapshot).symbolAt id).ty.isFunction = true := by
  obtain ⟨ty, found, either⟩ := symbolAt_restore a inBounds
  rw [found] at kind ⊢
  rcases either with rfl | now
  · exact origin.wellFormed.functions id inBounds kind
  · have known : id < a.symbols.size := by
      apply Nat.lt_of_not_le
      intro outside
      rw [symbolAt_of_le outside] at now
      rw [← congrArg Symbol.kind now] at kind
      cases kind
    have fn := settled.wellFormed.functions id known
    rw [now] at fn
    exact fn kind

/-- A snapshot of another settled state of the same host brings the frames of that state back. -/
theorem Settled.frames_restore (origin : base.Settled)
    (hosts : a.frame hostFrame = base.frame hostFrame) :
    (a.restore base.snapshot).frames = base.frames := by
  have size := settled.frames
  have originSize := origin.frames
  have inside : globalFrame < a.frames.size := by omega
  refine eq_of_getD_eq (by simp [restore, size, originSize]) fun id inBounds => ?_
  change (a.frames.setIfInBounds globalFrame (base.frame globalFrame)).getD id default = _
  rw [getD_setIfInBounds _ _ inside]
  by_cases global : globalFrame = id
  · rw [if_pos global, ← global]
    rfl
  · have host : id = hostFrame := by
      simp only [globalFrame, hostFrame] at *
      omega
    rw [if_neg global, host]
    exact hosts

/-- Putting back a snapshot of another settled state of the same host leads to a settled state. -/
theorem Settled.restore (origin : base.Settled) (hosts : a.frame hostFrame = base.frame hostFrame) :
    (a.restore base.snapshot).Settled := by
  have frames := settled.frames_restore origin hosts
  have size := size_symbols_restore a base
  -- the state of the snapshot with the names as they are put back
  have named : WellFormed { base with symbols := (a.restore base.snapshot).symbols } := by
    refine origin.wellFormed.setSymbols (Nat.le_of_eq size.symm) (fun id inBounds => ?_)
      (fun id inBounds => ?_) fun id inBounds => ?_
    · obtain ⟨ty, found, -⟩ := symbolAt_restore a inBounds
      change ((a.restore base.snapshot).symbolAt id).name = _ ∧
        ((a.restore base.snapshot).symbolAt id).kind = _
      rw [found]
      exact ⟨rfl, rfl⟩
    · exact settled.isFunction_restore origin (size ▸ inBounds)
    · rw [size] at inBounds
      obtain ⟨ty, found, -⟩ := symbolAt_restore a inBounds
      change ((a.restore base.snapshot).symbolAt id).kind = _ →
        base.structs.contains ((a.restore base.snapshot).symbolAt id).name = true
      rw [found]
      exact origin.wellFormed.constructors id inBounds
  have sizes : a.frames.size = base.frames.size := by rw [settled.frames, origin.frames]
  have sited := named.setSite (sizes ▸ settled.wellFormed.visible) settled.wellFormed.scope
  have structs := origin.wellFormed.registry_snapshot
  refine ⟨?_, sited.congr frames rfl rfl ?_ structs rfl ?_, settled.contexts, settled.pending, settled.active,
    settled.deferred⟩
  · rw [frames]
    exact origin.frames
  · exact settled.pending.trans origin.pending.symm
  · exact settled.active.trans origin.active.symm

/-! ## Checks that find all they need -/

/-- A check from a settled state finds all that it takes for granted. -/
theorem Settled.failure_eq_none (levels : Nat) (config : Config)
    (prog : Program) : (analyzeWithin levels a config prog).1.failure = none := by
  have reached : Check.Reaches (a.begin prog) _ _ (checkStatementsAt levels prog) :=
    (Checks.evolving levels).statements prog _ (.refl (settled.wellFormed_begin prog))
  have defined := reached.defined
  unfold analyzeWithin
  rcases run : checkStatementsAt levels prog (a.begin prog) with
    ⟨⟨outcome, after⟩, reports⟩
  rw [run] at defined
  cases outcome with
  | ok res => rfl
  | error stop =>
    cases stop with
    | tooDeep => rfl
    | undefined lookup => exact absurd rfl (defined lookup)

/-- A check leaves the host functions. -/
theorem Settled.frame_analyzeWithin (levels : Nat) (config : Config) (prog : Program) :
    (analyzeWithin levels a config prog).2.frame hostFrame = a.frame hostFrame := by
  have evolves := settled.evolves_check levels prog
  have outermost := settled.frames
  have host : hostFrame < (a.begin prog).frames.size := by
    change hostFrame < a.frames.size
    rw [outermost]
    decide
  refine (frame_finish_of_lt (by decide)).trans ?_
  exact evolves.grows.frame hostFrame host fun opened => by cases opened

end Analyzer

/-! ## Uses of an analyzer -/

/-- What an analyzer is used for: to check a program that may nest `levels` deep, to take a snapshot, or to
put back the snapshot with a number. -/
inductive AnalyzerUse where
  | check (levels : Nat) (config : Config) (program : Program)
  | save
  | putBack (index : Nat)

/-- An analyzer with the snapshots that were taken of it and the analyses it gave. -/
structure Desk where
  analyzer : Analyzer
  snapshots : List Snapshot := []
  analyses : List Analysis := []

namespace Desk

/-- An analyzer that was not used yet. -/
def start (signatures : List (String × Ty)) : Desk := { analyzer := .initial signatures }

/-- One use of an analyzer. A number under which there is no snapshot changes nothing. -/
def use (desk : Desk) : AnalyzerUse → Desk
  | .check levels config prog =>
    let (analysis, after) := desk.analyzer.analyzeWithin levels config prog
    { desk with analyzer := after, analyses := desk.analyses ++ [analysis] }
  | .save => { desk with snapshots := desk.snapshots ++ [desk.analyzer.snapshot] }
  | .putBack index =>
    match desk.snapshots[index]? with
    | some saved => { desk with analyzer := desk.analyzer.restore saved }
    | none => desk

/-- One use after another. -/
def run (desk : Desk) (uses : List AnalyzerUse) : Desk := uses.foldl use desk

/-- The analyzer is settled, its snapshots are those of settled states of the same host, and no check failed
to find what it took for granted. -/
structure Sound (desk : Desk) : Prop where
  settled : desk.analyzer.Settled
  snapshots : ∀ saved ∈ desk.snapshots, ∃ base : Analyzer, base.Settled ∧ saved = base.snapshot ∧
    desk.analyzer.frame Analyzer.hostFrame = base.frame Analyzer.hostFrame
  analyses : ∀ analysis ∈ desk.analyses, analysis.failure = none

theorem start_sound (signatures : List (String × Ty)) : (start signatures).Sound :=
  ⟨Analyzer.initial_settled signatures, nofun, nofun⟩

namespace Sound

variable {desk : Desk}

variable (h : desk.Sound)

include h

theorem check (levels : Nat) (config : Config) (prog : Program) :
    (desk.use (.check levels config prog)).Sound where
  settled := (h.settled.evolves_check levels prog).settled_finish
  snapshots saved mem := by
    obtain ⟨base, settled, same, hosts⟩ := h.snapshots saved mem
    refine ⟨base, settled, same, ?_⟩
    exact (h.settled.frame_analyzeWithin levels config prog).trans hosts
  analyses analysis mem := by
    rcases List.mem_append.mp mem with old | new
    · exact h.analyses analysis old
    · rw [List.mem_singleton.mp new]
      exact h.settled.failure_eq_none levels config prog

theorem save : (desk.use .save).Sound where
  settled := h.settled
  snapshots saved mem := by
    rcases List.mem_append.mp mem with old | new
    · exact h.snapshots saved old
    · exact ⟨desk.analyzer, h.settled, List.mem_singleton.mp new, rfl⟩
  analyses := h.analyses

/-- Whichever snapshot is put back, the analyzer is settled and all snapshots are of its host. -/
theorem putBack (index : Nat) : (desk.use (.putBack index)).Sound := by
  rw [use]
  split
  · rename_i saved found
    obtain ⟨origin, settled, rfl, hosts⟩ := h.snapshots saved (List.mem_of_getElem? found)
    refine ⟨h.settled.restore settled hosts, fun other mem => ?_, h.analyses⟩
    obtain ⟨base, baseSettled, same, others⟩ := h.snapshots other mem
    refine ⟨base, baseSettled, same, ?_⟩
    have frames := h.settled.frames_restore settled hosts
    rw [Analyzer.frame, frames]
    exact hosts.symm.trans others
  · exact h

/-- One step: a use of the analyzer. -/
theorem use (next : AnalyzerUse) : (desk.use next).Sound := by
  cases next with
  | check levels config prog => exact h.check levels config prog
  | save => exact h.save
  | putBack index => exact h.putBack index

/-- A run: whatever an analyzer is used for, one use after another. -/
theorem run (uses : List AnalyzerUse) : (desk.run uses).Sound := by
  induction uses generalizing desk with
  | nil => exact h
  | cons next rest ih => exact ih (h.use next)

end Sound

/-- Whatever an analyzer is used for, in any order: every check finds what it takes for granted, and so
does putting back any of the snapshots taken so far, which finds each of its structs.  Structs and traits
have different names, none of which is that of a primitive type, and of every struct whose name is visible
the declaration is on record. -/
theorem lookups_defined (signatures : List (String × Ty)) (uses : List AnalyzerUse) :
    let desk := (start signatures).run uses
    (∀ analysis ∈ desk.analyses, analysis.failure = none) ∧
    (∀ saved ∈ desk.snapshots, ∀ name ∈ saved.members.keys,
      ∃ decl info, saved.structs.find? name = some decl ∧ info.decl = decl ∧
        (desk.analyzer.restore saved).structs.find? name = some info) ∧
    (∀ name, desk.analyzer.structs.contains name = true →
      desk.analyzer.traits.contains name = false ∧ Ty.primitive? name = none) ∧
    (∀ name, desk.analyzer.traits.contains name = true → Ty.primitive? name = none) ∧
    ∀ name ref, desk.analyzer.lookup? name = some ref → (desk.analyzer.symbol ref).kind = .struct →
      ∃ info, desk.analyzer.structs.find? name = some info ∧ info.decl.name = name := by
  intro desk
  have sound : desk.Sound := (start_sound signatures).run uses
  have wellFormed := sound.settled.wellFormed
  refine ⟨sound.analyses, fun saved listed name mem => ?_, fun name struct => ?_, fun name trait => ?_,
    fun name ref visible kind => ?_⟩
  -- a snapshot was taken of a state between programs, which knew the struct
  · obtain ⟨base, settled, rfl, -⟩ := sound.snapshots saved listed
    have known : base.structs.contains name = true := by
      rw [Table.contains_iff_mem_keys]
      simpa [Analyzer.snapshot] using mem
    obtain ⟨info, found⟩ := Option.isSome_iff_exists.mp known
    refine ⟨info.decl, info, ?_, rfl, ?_⟩
    · rw [Analyzer.snapshot, Table.find?_map, found]
      rfl
    · change base.snapshot.registry.find? name = some info
      rw [settled.wellFormed.registry_snapshot, found]
  · exact ⟨wellFormed.disjoint name struct, wellFormed.plain name (.inl struct)⟩
  · exact wellFormed.plain name (.inr trait)
  · obtain ⟨info, found⟩ := Option.isSome_iff_exists.mp (wellFormed.contains_of_lookup? visible kind)
    exact ⟨info, found, (wellFormed.structs name info found).name⟩

end Desk

end FlowScript
