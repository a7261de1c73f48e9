import FlowScript.Proofs.Consistency
import FlowScript.Proofs.ValueTyping
/-!
# Agreement of machines with the state of checking

A machine *agrees* with a state of checking if what is known at the point of the program is true of the
machine: every visible variable holds a value of its type and of every type that tests found out, and a
variable without a value is one that may be unassigned.

The types of variables are found out while a program is checked, and some of them long after the point
where the variable is first assigned.  So a `Run` has, besides the setup and the observer of a run, the
state of checking from which the types are taken: any state that the present one is refined to later on.

A `Memory` tells where each visible frame is in the heap and what each declared name is bound to, so that
what is said of names does not depend on frames.  `Analyzer.Mirrors` says that a heap shows a memory.

Main statements: a declared name is read and written where it is found (`Analyzer.Mirrors.locate`,
`Analyzer.Mirrors.bind`), and agreement is kept by assignments (`Run.Agrees.assign`), where tests found
out more (`Run.Agrees.apply`), and where a stretch of the program is run again (`Run.Agrees.again`).
-/

namespace FlowScript

/-! ## Knowing less -/

/-- Whether no more is known than before: every fact was one before, and no variable is assigned that may
have been unassigned. -/
structure Flow.Weakens (flow less : Flow) : Prop where
  facts : less.facts.entries ⊆ flow.facts.entries
  unassigned : flow.unassigned ⊆ less.unassigned

theorem Facts.mem_of_mem_common {facts other : Facts} {entry : SymbolRef × Ty}
    (mem : entry ∈ (facts.common other).entries) : entry ∈ facts.entries ∧ entry ∈ other.entries := by
  obtain ⟨known, also⟩ := List.mem_filter.mp mem
  exact ⟨known, Table.mem_of_lookup (of_decide_eq_true also)⟩

namespace Flow.Weakens

theorem refl (flow : Flow) : flow.Weakens flow := ⟨List.Subset.refl _, List.Subset.refl _⟩

theorem forget (flow : Flow) (names : List String) : flow.Weakens (flow.forget names) :=
  ⟨List.filter_sublist.subset, List.Subset.refl _⟩

theorem join_left (left right : Flow) : left.Weakens (left.join right) :=
  ⟨fun _ mem => (Facts.mem_of_mem_common mem).1, List.subset_append_left _ _⟩

theorem join_right (left right : Flow) : right.Weakens (left.join right) := by
  refine ⟨fun _ mem => (Facts.mem_of_mem_common mem).2, fun ref mem => ?_⟩
  by_cases also : ref ∈ left.unassigned
  · exact List.mem_append_left _ also
  · exact List.mem_append_right _ (List.mem_filter.mpr ⟨mem, by simpa using also⟩)

end Flow.Weakens

/-! ## States of checking -/

namespace Analyzer

variable {declares : Bool} {before after later a : Analyzer}

/-- A state in which more types are known. -/
def Refines (before later : Analyzer) : Prop :=
  ∀ id < before.symbols.size,
    (before.symbolAt id).ty = .unknown ∨ (later.symbolAt id).ty = (before.symbolAt id).ty

/-- Whether a name is declared in one of the visible frames. -/
def Visible (a : Analyzer) (ref : SymbolRef) : Prop :=
  ∃ frame ∈ a.site.frames, (a.frame frame).symbols.find? ref.name = some ref

/-- Whether facts are on names there are, and of canonical types. -/
def Fine (a : Analyzer) (facts : Facts) : Prop :=
  ∀ entry ∈ facts.entries, entry.1.id < a.symbols.size ∧ entry.2.Canonical

/-- A state on the way through a program without functions and structs in which no error was
reported. -/
structure Regular (analyzer : Analyzer) : Prop where
  wellFormed : analyzer.WellFormed
  consistent : analyzer.Consistent
  outside : analyzer.site.contexts = []
  inside : analyzer.scope ∈ analyzer.site.frames
  kinds : ∀ id, (analyzer.symbolAt id).kind ≠ .function ∧ (analyzer.symbolAt id).kind ≠ .struct
  facts : analyzer.Fine analyzer.flow.facts
  /-- No name is in two of the visible frames. -/
  separate : ∀ first ∈ analyzer.site.frames, ∀ second ∈ analyzer.site.frames, ∀ ref : SymbolRef,
    (analyzer.frame first).symbols.find? ref.name = some ref →
    (analyzer.frame second).symbols.find? ref.name = some ref → first = second

/-- The reference of the name that is declared next. -/
def fresh (a : Analyzer) (name : String) : SymbolRef := ⟨a.symbols.size, name⟩

/-- Whether the visible frames are as before, with one new name in the innermost. -/
def Declared (before : Analyzer) (name : String) (after : Analyzer) : Prop :=
  ∀ frame ∈ before.site.frames, ∀ wanted, (after.frame frame).symbols.find? wanted =
    if frame = before.scope ∧ wanted = name then some (before.fresh name)
    else (before.frame frame).symbols.find? wanted

/-- The state at a site with a new frame inside of those that are visible. -/
def entered (a : Analyzer) : Analyzer :=
  { a with
    frames := a.frames.push {}
    site := { a.site with frames := a.frames.size :: a.site.frames } }

namespace Fine

variable {facts other : Facts}

theorem empty : a.Fine Table.empty := by rintro _ ⟨⟩

theorem of_subset (h : a.Fine facts) (sub : other.entries ⊆ facts.entries) :
    a.Fine other :=
  fun entry mem => h entry (sub mem)

theorem overlay (h : a.Fine facts) (above : a.Fine other) :
    a.Fine (facts.overlay other) :=
  fun entry mem => (Table.mem_entries_overlay mem).elim (h entry) (above entry)

theorem single {ref : SymbolRef} {ty : Ty} (old : ref.id < a.symbols.size)
    (canonical : ty.Canonical) : a.Fine (Facts.single ref ty) := by
  intro entry mem
  cases List.mem_singleton.mp mem
  exact ⟨old, canonical⟩

/-- Names stay. -/
theorem mono (h : before.Fine facts) (more : before.symbols.size ≤ after.symbols.size) :
    after.Fine facts :=
  fun entry mem => ⟨Nat.lt_of_lt_of_le (h entry mem).1 more, (h entry mem).2⟩

end Fine

/-- A name that is found in a frame is called so, and there. -/
theorem WellFormed.named (h : a.WellFormed) {frame : Nat} {name : String} {ref : SymbolRef}
    (found : (a.frame frame).symbols.find? name = some ref) :
    ref.name = name ∧ ref.id < a.symbols.size := by
  obtain ⟨same, old, -⟩ := h.names frame (name, ref) (Table.mem_of_lookup found)
  exact ⟨same, old⟩

/-- What is found is visible. -/
theorem WellFormed.visible_of_lookup? (h : a.WellFormed) {name : String} {ref : SymbolRef}
    (found : a.lookup? name = some ref) : a.Visible ref := by
  obtain ⟨frame, mem, bound⟩ := List.exists_of_findSome?_eq_some found
  exact ⟨frame, mem, (h.named bound).1 ▸ bound⟩

theorem WellFormed.lt_of_visible (h : a.WellFormed) {ref : SymbolRef}
    (visible : a.Visible ref) : ref.id < a.symbols.size := by
  obtain ⟨frame, -, found⟩ := visible
  exact (h.named found).2

@[simp] theorem frame_entered (a : Analyzer) (id : Nat) :
    a.entered.frame id = a.frame id :=
  Grows.frame_push a id

/-- In the new frame nothing is declared yet. -/
@[simp] theorem find?_frame_size (a : Analyzer) (name : String) :
    (a.frame a.frames.size).symbols.find? name = none := by
  rw [frame, Array.getD_eq_getD_getElem?, Array.getElem?_size]
  rfl

theorem visible_entered {ref : SymbolRef} : a.entered.Visible ref ↔ a.Visible ref := by
  have frames : a.entered.site.frames = a.frames.size :: a.site.frames := rfl
  simp [Visible, frames]

/-- What a state is refined to, an earlier one is refined to as well. -/
theorem Refines.of_evolves (h : after.Refines later) (evolves : before.Evolves declares after)
    (regular : before.Regular) : before.Refines later := by
  intro id old
  obtain ⟨ty, eq, step⟩ := evolves.grows.name id old
  have next := h id (Nat.lt_of_lt_of_le old evolves.grows.nameCount)
  rw [eq] at next
  rcases step with rfl | waits | ⟨unknown, -⟩
  · exact next
  · obtain ⟨fn, found⟩ := Option.isSome_iff_exists.mp waits
    exact absurd (regular.wellFormed.waiting _ fn found).2.2 (regular.kinds id).1
  · exact .inl unknown

namespace Evolves

/-- A visible name stays so. -/
theorem visible (h : before.Evolves declares after) {ref : SymbolRef} (visible : before.Visible ref) :
    after.Visible ref := by
  obtain ⟨frame, mem, found⟩ := visible
  exact ⟨frame, h.site ▸ mem, h.grows.kept frame _ ref found⟩

theorem initializing_eq (h : before.Evolves declares after) {ref : SymbolRef}
    (old : ref.id < before.symbols.size) :
    (after.symbol ref).initializing = (before.symbol ref).initializing := by
  obtain ⟨ty, eq, -⟩ := h.grows.name ref.id old
  rw [symbol, eq]
  rfl

/-- Where no names are declared the visible frames stay as they are. -/
theorem frame_eq (h : before.Evolves false after) (wellFormed : before.WellFormed) {frame : Nat}
    (mem : frame ∈ before.site.frames) : after.frame frame = before.frame frame :=
  h.grows.frame frame (wellFormed.visible frame mem) (by simp [openScope])

/-- A name that was there before is in the frames in which it was. -/
theorem find?_of_old (h : before.Evolves declares after) {frame : Nat} {ref : SymbolRef}
    (old : ref.id < before.symbols.size) (wellFormed : before.WellFormed)
    (found : (after.frame frame).symbols.find? ref.name = some ref) :
    (before.frame frame).symbols.find? ref.name = some ref := by
  rcases h.grows.added frame ref (Table.mem_values_of_find? found) with mem | new
  · obtain ⟨⟨name, _⟩, entry, rfl⟩ := List.mem_map.mp mem
    obtain ⟨same, -⟩ := wellFormed.names frame _ entry
    have bound : (before.frame frame).symbols.contains name = true :=
      (Table.contains_iff_mem_keys _ _).mpr (List.mem_map.mpr ⟨_, entry, rfl⟩)
    obtain ⟨other, bound⟩ := Option.isSome_iff_exists.mp bound
    simp only at same
    subst same
    rw [h.grows.kept frame _ other bound] at found
    rw [bound, found]
  · omega

end Evolves

namespace Regular

/-- Names are declared in the innermost frame, and are new. -/
theorem separate_of_evolves (h : before.Regular) (evolves : before.Evolves declares after) :
    ∀ first ∈ after.site.frames, ∀ second ∈ after.site.frames, ∀ ref : SymbolRef,
      (after.frame first).symbols.find? ref.name = some ref →
      (after.frame second).symbols.find? ref.name = some ref → first = second := by
  intro first memFirst second memSecond ref inFirst inSecond
  rw [evolves.site] at memFirst memSecond
  by_cases old : ref.id < before.symbols.size
  · exact h.separate first memFirst second memSecond ref (evolves.find?_of_old old h.wellFormed inFirst)
      (evolves.find?_of_old old h.wellFormed inSecond)
  · -- a new name is in the frame in which names are declared
    have inScope {frame : Nat} (mem : frame ∈ before.site.frames)
        (found : (after.frame frame).symbols.find? ref.name = some ref) :
        before.openScope declares = some frame := by
      refine Classical.byContradiction fun closed => old ?_
      rw [evolves.grows.frame frame (h.wellFormed.visible frame mem) closed] at found
      exact (h.wellFormed.named found).2
    exact Option.some.inj ((inScope memFirst inFirst).symm.trans (inScope memSecond inSecond))

/-- A later state, if the names declared meanwhile are no functions and no structs. -/
theorem next (h : before.Regular) (evolves : before.Evolves declares after)
    (consistent : after.Consistent)
    (kinds : ∀ id, (after.symbolAt id).kind ≠ .function ∧ (after.symbolAt id).kind ≠ .struct)
    (facts : after.Fine after.flow.facts) : after.Regular where
  wellFormed := evolves.wellFormed
  consistent := consistent
  outside := by rw [evolves.site, h.outside]
  inside := by
    rw [scope, evolves.site]
    exact h.inside
  kinds := kinds
  facts := facts
  separate := h.separate_of_evolves evolves

theorem evolves_setFlow (h : a.Regular) (declares : Bool) (flow : Flow) :
    a.Evolves declares { a with flow } :=
  (Evolves.refl h.wellFormed).congr rfl rfl rfl rfl rfl rfl rfl rfl

/-- Something else is known. -/
theorem setFlow (h : a.Regular) {flow : Flow} (facts : a.Fine flow.facts) :
    Regular { a with flow } := by
  refine h.next (h.evolves_setFlow false flow) ?_ h.kinds facts
  refine (h.consistent.setFlow fun ty mem => ?_).consistent
  obtain ⟨entry, listed, rfl⟩ := List.mem_map.mp mem
  exact (facts entry listed).2

/-- A block is entered. -/
theorem enter (h : a.Regular) : a.entered.Regular where
  wellFormed := h.wellFormed.enter h.wellFormed.visible _
  consistent := (h.consistent.pushFrame.consistent.move _ _ _).consistent
  outside := h.outside
  inside := List.mem_cons_self
  kinds := h.kinds
  facts := h.facts
  separate first memFirst second memSecond ref inFirst inSecond := by
    -- the new frame is empty
    have old {frame : Nat} (mem : frame ∈ a.entered.site.frames)
        (found : (a.entered.frame frame).symbols.find? ref.name = some ref) :
        frame ∈ a.site.frames := by
      refine (List.mem_cons.mp mem).resolve_left ?_
      rintro rfl
      rw [frame_entered, find?_frame_size] at found
      cases found
    have memFirst := old memFirst inFirst
    have memSecond := old memSecond inSecond
    rw [frame_entered] at inFirst inSecond
    exact h.separate first memFirst second memSecond ref inFirst inSecond

end Regular

end Analyzer

/-! ## Memories -/

/-- What each declared name is bound to, and where each frame is in the heap. -/
structure Memory where
  cell : SymbolRef → Option (Option Value)
  place : Nat → Nat

/-- The memory with a name bound. -/
def Memory.bind (memory : Memory) (ref : SymbolRef) (binding : Option (Option Value)) : Memory :=
  { memory with cell := fun other => if other = ref then binding else memory.cell other }

/-- The memory with a frame at a place. -/
def Memory.put (memory : Memory) (frame id : Nat) : Memory :=
  { memory with place := fun other => if other = frame then id else memory.place other }

@[simp] theorem Memory.cell_bind_self (memory : Memory) (ref : SymbolRef)
    (binding : Option (Option Value)) : (memory.bind ref binding).cell ref = binding := by
  simp [bind]

theorem Memory.cell_bind_of_ne (memory : Memory) {ref other : SymbolRef}
    (binding : Option (Option Value)) (ne : other ≠ ref) :
    (memory.bind ref binding).cell other = memory.cell other := by
  simp [bind, ne]

namespace Analyzer

/-- A heap that shows a memory in the frames of an environment: in each the names of a visible frame,
with what they are bound to. -/
structure Mirrors (analyzer : Analyzer) (environment : Environment) (memory : Memory) (heap : Heap) :
    Prop where
  environment : environment = analyzer.site.frames.map memory.place
  apart : ∀ first ∈ analyzer.site.frames, ∀ second ∈ analyzer.site.frames,
    memory.place first = memory.place second → first = second
  bounds : ∀ frame ∈ analyzer.site.frames, memory.place frame < heap.frames.size
  shows : ∀ frame ∈ analyzer.site.frames, ∀ name, (heap.frame (memory.place frame)).find? name =
    ((analyzer.frame frame).symbols.find? name).bind memory.cell

namespace Mirrors

variable {a before after : Analyzer} {env : Environment} {memory : Memory} {heap : Heap}

variable (h : a.Mirrors env memory heap)

include h

/-- Only the names of the visible frames matter. -/
theorem congr (site : after.site.frames = a.site.frames)
    (symbols : ∀ frame ∈ a.site.frames, ∀ name,
      (after.frame frame).symbols.find? name = (a.frame frame).symbols.find? name) :
    after.Mirrors env memory heap where
  environment := by rw [site, h.environment]
  apart := by simpa only [site] using h.apart
  bounds := by simpa only [site] using h.bounds
  shows frame mem name := by
    rw [site] at mem
    rw [symbols frame mem, h.shows frame mem]

/-- A name that is found and bound is bound alike in the heap, by what stands for its frame. -/
theorem locate {name : String} {ref : SymbolRef} (found : a.lookup? name = some ref)
    {binding : Option Value} (bound : memory.cell ref = some binding) :
    heap.lookup? name env = some binding ∧
      ∃ frame ∈ a.site.frames, (a.frame frame).symbols.find? name = some ref ∧
        heap.owner? name env = some (memory.place frame) := by
  -- both searches go through the frames from the inside out, and skip the same ones
  have each (frames : List Nat) (visible : ∀ frame ∈ frames, frame ∈ a.site.frames)
      (found : frames.findSome? (fun frame => (a.frame frame).symbols.find? name) = some ref) :
      (frames.map memory.place).findSome? (fun id => (heap.frame id).find? name) = some binding ∧
        ∃ frame ∈ frames, (a.frame frame).symbols.find? name = some ref ∧
          (frames.map memory.place).find? (fun id => (heap.frame id).contains name) =
            some (memory.place frame) := by
    induction frames with
    | nil => cases found
    | cons frame rest ih =>
      rw [List.findSome?_cons] at found
      rw [List.map_cons, List.findSome?_cons, List.find?_cons, Table.contains,
        h.shows frame (visible frame (by simp))]
      cases here : (a.frame frame).symbols.find? name with
      | some other =>
        rw [here] at found
        cases found
        rw [Option.bind_some, bound]
        exact ⟨rfl, frame, by simp, here, rfl⟩
      | none =>
        rw [here] at found
        obtain ⟨same, owner, mem, holds⟩ := ih (fun other mem => visible other (by simp [mem])) found
        exact ⟨same, owner, by simp [mem], holds⟩
  rw [Heap.lookup?, Heap.owner?, h.environment]
  exact each _ (fun _ mem => mem) found

/-- A name of a visible frame is bound. -/
theorem bind (regular : a.Regular) {frame : Nat}
    {name : String} {ref : SymbolRef} (mem : frame ∈ a.site.frames)
    (found : (a.frame frame).symbols.find? name = some ref) (binding : Option Value) :
    a.Mirrors env (memory.bind ref (some binding))
      (heap.bind (memory.place frame) name binding) where
  environment := h.environment
  apart := h.apart
  bounds other memOther := by
    rw [Heap.size_frames_bind]
    exact h.bounds other memOther
  shows other memOther wanted := by
    have named := (regular.wellFormed.named found).1
    -- the name is in no other frame, and no other frame is in its place
    have same (target : SymbolRef) (holds : (a.frame other).symbols.find? wanted = some target)
        (eq : target = ref) : other = frame ∧ wanted = name := by
      have called := (regular.wellFormed.named holds).1
      subst eq
      refine ⟨regular.separate other memOther frame mem target ?_ ?_, called.symm.trans named⟩
      · rwa [called]
      · rwa [named]
    change ((heap.bind (memory.place frame) name binding).frame (memory.place other)).find? wanted = _
    rw [Heap.frame_bind heap name binding _ (h.bounds frame mem)]
    by_cases here : other = frame
    · subst here
      rw [if_pos rfl, Table.find?_insert]
      by_cases this : name = wanted
      · subst this
        rw [if_pos rfl, found, Option.bind_some, Memory.cell_bind_self]
      · rw [if_neg this, h.shows other mem]
        cases holds : (a.frame other).symbols.find? wanted with
        | none => rfl
        | some target =>
          have ne : target ≠ ref := fun eq => this (same target holds eq).2.symm
          rw [Option.bind_some, Option.bind_some, Memory.cell_bind_of_ne _ _ ne]
    · rw [if_neg fun eq => here (h.apart other memOther frame mem eq), h.shows other memOther]
      cases holds : (a.frame other).symbols.find? wanted with
      | none => rfl
      | some target =>
        have ne : target ≠ ref := fun eq => here (same target holds eq).1
        rw [Option.bind_some, Option.bind_some, Memory.cell_bind_of_ne _ _ ne]

omit h in
/-- A new name is not bound at first. -/
theorem declare (h : before.Mirrors env memory heap) (wellFormed : before.WellFormed)
    (site : after.site.frames = before.site.frames) {name : String}
    (declared : before.Declared name after) (free : (before.frame before.scope).symbols.find? name = none) :
    after.Mirrors env (memory.bind (before.fresh name) none) heap where
  environment := by rw [site]; exact h.environment
  apart := by rw [site]; exact h.apart
  bounds := by rw [site]; exact h.bounds
  shows frame mem wanted := by
    rw [site] at mem
    change (heap.frame (memory.place frame)).find? wanted = _
    rw [h.shows frame mem, declared frame mem]
    split
    · rename_i here
      rw [here.1, here.2, free, Option.bind_some, Memory.cell_bind_self]
      rfl
    · cases found : (before.frame frame).symbols.find? wanted with
      | none => rfl
      | some target =>
        have ne : target ≠ before.fresh name := by
          rintro rfl
          exact absurd (wellFormed.named found).2 (Nat.lt_irrefl _)
        rw [Option.bind_some, Option.bind_some, memory.cell_bind_of_ne _ ne]

/-- A new frame on both sides is mirrored. -/
theorem enter (wellFormed : a.WellFormed) :
    a.entered.Mirrors (heap.frames.size :: env)
      (memory.put a.frames.size heap.frames.size) (heap.pushFrame Table.empty) := by
  -- the new frame of the check is mapped to the new frame of the heap, and the others as before
  have new : (memory.put a.frames.size heap.frames.size).place a.frames.size =
      heap.frames.size := if_pos rfl
  have old {frame : Nat} (mem : frame ∈ a.site.frames) :
      (memory.put a.frames.size heap.frames.size).place frame = memory.place frame :=
    if_neg (Nat.ne_of_lt (wellFormed.visible frame mem))
  have cases {frame : Nat} (mem : frame ∈ a.entered.site.frames) :
      frame = a.frames.size ∨ frame ∈ a.site.frames := List.mem_cons.mp mem
  refine ⟨?_, fun first memFirst second memSecond => ?_, fun frame mem => ?_, fun frame mem name => ?_⟩
  · rw [entered, List.map_cons, new, h.environment]
    exact congrArg _ (List.map_congr_left fun frame mem => (old mem).symm)
  · intro same
    rcases cases memFirst with rfl | memFirst <;> rcases cases memSecond with rfl | memSecond
    · rfl
    · rw [new, old memSecond] at same
      exact absurd (h.bounds second memSecond) (same ▸ Nat.lt_irrefl _)
    · rw [new, old memFirst] at same
      exact absurd (h.bounds first memFirst) (same ▸ Nat.lt_irrefl _)
    · rw [old memFirst, old memSecond] at same
      exact h.apart first memFirst second memSecond same
  · have more : (heap.pushFrame Table.empty).frames.size = heap.frames.size + 1 := by
      simp [Heap.pushFrame]
    rw [more]
    rcases cases mem with rfl | mem
    · rw [new]
      exact Nat.lt_succ_self _
    · rw [old mem]
      exact Nat.lt_succ_of_lt (h.bounds frame mem)
  · rcases cases mem with rfl | mem
    · rw [new, Heap.frame_pushFrame_self, frame_entered, find?_frame_size]
      rfl
    · rw [old mem, Heap.frame_pushFrame heap _ (h.bounds frame mem), h.shows frame mem, frame_entered]
      rfl

omit h in
theorem leave {site : Site} {frame id : Nat} (h : a.Mirrors (id :: env) memory heap)
    (frames : a.site.frames = frame :: site.frames) :
    Mirrors { a with site } env memory heap := by
  have within {other : Nat} (mem : other ∈ site.frames) : other ∈ a.site.frames := by
    rw [frames]
    exact List.mem_cons_of_mem _ mem
  have env := h.environment
  rw [frames, List.map_cons] at env
  exact ⟨(List.cons.inj env).2,
    fun first memFirst second memSecond => h.apart first (within memFirst) second (within memSecond),
    fun other mem => h.bounds other (within mem), fun other mem => h.shows other (within mem)⟩

end Mirrors

end Analyzer

/-! ## Agreement -/

/-- A run: its setup, an observer of the values of expressions that is content with values of the types
noted for them, and the state of checking from which the types of variables are taken. -/
structure Run where
  setup : Setup
  observe : Expr → Value → Eval Unit
  content : ∀ (e : Expr) (value : Value) (ty : Ty) (machine : Machine), e.valueTy? = some ty →
    value.Is ty → observe e value machine = (.ok (), machine)
  later : Analyzer

namespace Run

/-- Evaluation with `levels` levels left. -/
def evaluator (run : Run) (levels : Nat) : Evaluator := run.setup.observed run.observe levels

/-- Whether a computation comes to a value and a machine that satisfy `post`, or to an expected stop. -/
abbrev Meets {α : Type} (action : Eval α) (start : Machine) (post : α → Machine → Prop) : Prop :=
  Eval.Meets (fun stop _ => stop.isExpected = true) action start post

/-- Whether what a name is bound to is as it is known: a value is of the type of the name and of every
type that tests found out, only a variable that may be unassigned has none, and only a name whose
initial value is being evaluated is not bound yet. -/
def Holds (run : Run) (a : Analyzer) (ref : SymbolRef) : Option (Option Value) → Prop
  | some (some value) => value.Is (run.later.symbol ref).ty ∧
      ∀ ty, (ref, ty) ∈ a.flow.facts.entries → value.Is ty
  | some none => ref ∈ a.flow.unassigned
  | none => (a.symbol ref).initializing = true

/-- A heap of which all is true that is known. -/
structure Agrees (run : Run) (analyzer : Analyzer) (environment : Environment) (memory : Memory)
    (heap : Heap) : Prop where
  mirrors : analyzer.Mirrors environment memory heap
  names : ∀ ref, analyzer.Visible ref → run.Holds analyzer ref (memory.cell ref)

/-- Whether names are bound to values of the types that facts give them. -/
def FactsHold (memory : Memory) (facts : Facts) : Prop :=
  ∀ ref ty, (ref, ty) ∈ facts.entries → ∃ value, memory.cell ref = some (some value) ∧ value.Is ty

/-- What a stretch of a program leaves as it was: all variables but those of some names, and which of
the others have a value. -/
structure Keeps (analyzer : Analyzer) (names : List String) (start after : Memory) : Prop where
  same : ∀ ref, analyzer.Visible ref → ref.name ∉ names → after.cell ref = start.cell ref
  assigned : ∀ ref, analyzer.Visible ref → after.cell ref = some none → start.cell ref = some none

variable {run : Run} {a before mid after : Analyzer} {env : Environment}
  {memory other last : Memory} {heap : Heap} {names : List String} {ref : SymbolRef} {value : Value}

namespace FactsHold

theorem empty : FactsHold memory Table.empty := by rintro _ _ ⟨⟩

theorem single {ty : Ty} (bound : memory.cell ref = some (some value)) (typed : value.Is ty) :
    FactsHold memory (Facts.single ref ty) := by
  intro other found mem
  cases List.mem_singleton.mp mem
  exact ⟨value, bound, typed⟩

theorem of_subset {facts fewer : Facts} (h : FactsHold memory facts)
    (sub : fewer.entries ⊆ facts.entries) : FactsHold memory fewer :=
  fun ref ty mem => h ref ty (sub mem)

theorem overlay {facts more : Facts} (first : FactsHold memory facts) (second : FactsHold memory more) :
    FactsHold memory (facts.overlay more) :=
  fun ref ty mem => (Table.mem_entries_overlay mem).elim (first ref ty) (second ref ty)

end FactsHold

namespace Keeps

theorem refl (a : Analyzer) (names : List String) (memory : Memory) :
    Keeps a names memory memory :=
  ⟨fun _ _ _ => rfl, fun _ _ => id⟩

theorem mono {more : List String} (h : Keeps a names memory other) (sub : names ⊆ more) :
    Keeps a more memory other :=
  ⟨fun ref visible new => h.same ref visible fun mem => new (sub mem), h.assigned⟩

/-- Less may be visible. -/
theorem of_visible (h : Keeps a names memory other)
    (visible : ∀ ref, before.Visible ref → a.Visible ref) : Keeps before names memory other :=
  ⟨fun ref seen => h.same ref (visible ref seen), fun ref seen => h.assigned ref (visible ref seen)⟩

/-- One stretch after another, at whose start all is visible that was so before. -/
theorem trans (first : Keeps before names memory other) (second : Keeps mid names other last)
    (visible : ∀ ref, before.Visible ref → mid.Visible ref) : Keeps before names memory last where
  same ref seen new :=
    (second.same ref (visible ref seen) new).trans (first.same ref seen new)
  assigned ref seen unassigned :=
    first.assigned ref seen (second.assigned ref (visible ref seen) unassigned)

/-- A name is bound to a value that was not visible, or is one of those that may change. -/
theorem bind (a : Analyzer) (names : List String) (memory : Memory)
    (allowed : a.Visible ref → ref.name ∈ names) (value : Value) :
    Keeps a names memory (memory.bind ref (some (some value))) where
  same other visible new := by
    refine memory.cell_bind_of_ne _ ?_
    rintro rfl
    exact new (allowed visible)
  assigned other visible unassigned := by
    by_cases same : other = ref
    · subst same
      rw [Memory.cell_bind_self] at unassigned
      cases unassigned
    · rwa [memory.cell_bind_of_ne _ same] at unassigned

/-- A name that is not visible does not matter. -/
theorem hidden (h : Keeps a names memory other) (hidden : ¬a.Visible ref)
    (binding : Option (Option Value)) : Keeps a names memory (other.bind ref binding) := by
  have same (target : SymbolRef) (visible : a.Visible target) :
      (other.bind ref binding).cell target = other.cell target := by
    refine other.cell_bind_of_ne _ ?_
    rintro rfl
    exact hidden visible
  refine ⟨fun target visible new => ?_, fun target visible unassigned => ?_⟩
  · rw [same target visible, h.same target visible new]
  · rw [same target visible] at unassigned
    exact h.assigned target visible unassigned

end Keeps

/-- What a name is bound to is as it is known also where less is known. -/
theorem Holds.mono {binding : Option (Option Value)} (h : run.Holds a ref binding)
    (facts : ∀ ty, (ref, ty) ∈ after.flow.facts.entries → (ref, ty) ∈ a.flow.facts.entries)
    (unassigned : ref ∈ a.flow.unassigned → ref ∈ after.flow.unassigned)
    (initializing : (a.symbol ref).initializing = true →
      (after.symbol ref).initializing = true) : run.Holds after ref binding := by
  match binding with
  | some (some value) => exact ⟨h.1, fun ty mem => h.2 ty (facts ty mem)⟩
  | some none => exact unassigned h
  | none => exact initializing h

namespace Agrees

variable (h : run.Agrees a env memory heap)

include h

/-- A visible variable that may not be unassigned has a value, which is of the type that is known. -/
theorem has_value (regular : a.Regular)
    (refines : a.Refines run.later) {name : String} (found : a.lookup? name = some ref)
    (ready : (a.symbol ref).initializing = false) (assigned : ref ∉ a.flow.unassigned)
    (known : a.typeOf ref ≠ .unknown) :
    ∃ value, memory.cell ref = some (some value) ∧ value.Is (a.typeOf ref) := by
  have visible := regular.wellFormed.visible_of_lookup? found
  have holds := h.names ref visible
  match bound : memory.cell ref with
  | none =>
    rw [bound] at holds
    exact absurd (ready.symm.trans holds) Bool.false_ne_true
  | some none =>
    rw [bound] at holds
    exact absurd holds assigned
  | some (some value) =>
    rw [bound] at holds
    refine ⟨value, rfl, ?_⟩
    unfold Analyzer.typeOf at known ⊢
    cases fact : a.flow.facts.find? ref with
    | some ty => exact holds.2 ty (Table.mem_of_lookup fact)
    | none =>
      rw [fact] at known
      have same := (refines ref.id (regular.wellFormed.lt_of_visible visible)).resolve_left known
      exact same ▸ holds.1

/-- A heap agrees with later states in which no more is known. -/
theorem evolve (wellFormed : a.WellFormed)
    (evolves : a.Evolves false after) (weakens : a.flow.Weakens after.flow) :
    run.Agrees after env memory heap where
  mirrors := h.mirrors.congr (by rw [evolves.site]) fun frame mem name => by
    rw [evolves.frame_eq wellFormed mem]
  names ref visible := by
    obtain ⟨frame, mem, found⟩ := visible
    rw [evolves.site] at mem
    rw [evolves.frame_eq wellFormed mem] at found
    have seen : a.Visible ref := ⟨frame, mem, found⟩
    refine (h.names ref seen).mono (fun ty mem => weakens.facts mem) (fun mem => weakens.unassigned mem) ?_
    rw [evolves.initializing_eq (wellFormed.named found).2]
    exact id

/-- A heap agrees also if less is known. -/
theorem setFlow {flow : Flow}
    (weakens : a.flow.Weakens flow) : run.Agrees { a with flow } env memory heap where
  mirrors := h.mirrors.congr rfl fun _ _ _ => rfl
  names ref visible := (h.names ref visible).mono (fun _ mem => weakens.facts mem)
    (fun mem => weakens.unassigned mem) id

/-- What tests found out becomes known. -/
theorem apply {facts : Facts} (hold : FactsHold memory facts) :
    run.Agrees { a with flow := a.flow.apply facts } env memory heap where
  mirrors := h.mirrors.congr rfl fun _ _ _ => rfl
  names ref visible := by
    have known := h.names ref visible
    match bound : memory.cell ref with
    | none =>
      rw [bound] at known
      exact known
    | some none =>
      rw [bound] at known
      exact known
    | some (some value) =>
      rw [bound] at known
      refine ⟨known.1, fun ty mem => ?_⟩
      rcases Table.mem_entries_overlay mem with old | new
      · exact known.2 ty old
      · obtain ⟨found, same, typed⟩ := hold ref ty new
        rw [bound] at same
        cases same
        exact typed

omit h in
/-- A visible variable is assigned a value of its type, and what was known of it before is forgotten. -/
theorem assign (h : run.Agrees before env memory heap) (regular : before.Regular)
    (evolves : before.Evolves false after) (flow : after.flow = before.flow.assigned ref) {frame : Nat}
    {name : String} (mem : frame ∈ before.site.frames)
    (found : (before.frame frame).symbols.find? name = some ref)
    (typed : value.Is (run.later.symbol ref).ty) :
    run.Agrees after env (memory.bind ref (some (some value)))
      (heap.bind (memory.place frame) name (some value)) where
  mirrors := (h.mirrors.bind regular mem found _).congr (by rw [evolves.site]) fun other mem name => by
    rw [evolves.frame_eq regular.wellFormed mem]
  names target visible := by
    obtain ⟨other, memOther, holds⟩ := visible
    rw [evolves.site] at memOther
    rw [evolves.frame_eq regular.wellFormed memOther] at holds
    -- the facts after an assignment are those of before about other names
    have left (ty : Ty) (mem : (target, ty) ∈ after.flow.facts.entries) :
        (target, ty) ∈ before.flow.facts.entries ∧ target ≠ ref := by
      rw [flow] at mem
      obtain ⟨old, ne⟩ := List.mem_filter.mp mem
      exact ⟨old, by simpa using ne⟩
    by_cases same : target = ref
    · subst same
      rw [Memory.cell_bind_self]
      exact ⟨typed, fun ty mem => absurd rfl (left ty mem).2⟩
    · rw [memory.cell_bind_of_ne _ same]
      refine (h.names target ⟨other, memOther, holds⟩).mono (fun ty mem => (left ty mem).1) ?_ ?_
      · intro unassigned
        rw [flow]
        exact List.mem_filter.mpr ⟨unassigned, by simpa using same⟩
      · rw [evolves.initializing_eq (regular.wellFormed.named holds).2]
        exact id

omit h in
/-- A new name is declared in the innermost frame. -/
theorem declare (h : run.Agrees before env memory heap) (regular : before.Regular)
    (evolves : before.Evolves true after) {name : String} (declared : before.Declared name after)
    (facts : after.flow.facts.entries ⊆ before.flow.facts.entries)
    (unassigned : before.flow.unassigned ⊆ after.flow.unassigned) {changed : Heap}
    {binding : Option (Option Value)}
    (mirrors : after.Mirrors env (memory.bind (before.fresh name) binding) changed)
    (own : run.Holds after (before.fresh name) binding) :
    run.Agrees after env (memory.bind (before.fresh name) binding) changed where
  mirrors := mirrors
  names target visible := by
    by_cases same : target = before.fresh name
    · rw [same, Memory.cell_bind_self]
      exact own
    · obtain ⟨frame, mem, found⟩ := visible
      rw [evolves.site] at mem
      rw [declared frame mem] at found
      split at found
      · exact absurd (Option.some.inj found).symm same
      · rw [memory.cell_bind_of_ne _ same]
        refine (h.names target ⟨frame, mem, found⟩).mono (fun ty mem => facts mem)
          (fun mem => unassigned mem) ?_
        rw [evolves.initializing_eq (regular.wellFormed.named found).2]
        exact id

omit h in
/-- What was known before a stretch of the program is known again after it, if nothing was known of the
variables that it assigns. -/
theorem again (start : run.Agrees before env memory heap) {changed : Heap}
    (done : run.Agrees after env other changed) (kept : Keeps before names memory other)
    (wellFormed : before.WellFormed) (evolves : before.Evolves false after)
    (forgotten : ∀ entry ∈ before.flow.facts.entries, entry.1.name ∉ names) :
    run.Agrees before env other changed where
  mirrors := done.mirrors.congr (by rw [evolves.site]) fun frame mem name => by
    rw [evolves.site] at mem
    rw [evolves.frame_eq wellFormed mem]
  names ref visible := by
    have known := start.names ref visible
    have now := done.names ref (evolves.visible visible)
    match bound : other.cell ref with
    | none =>
      rw [bound] at now
      exact (evolves.initializing_eq (wellFormed.lt_of_visible visible)).symm.trans now
    | some none =>
      rw [kept.assigned ref visible bound] at known
      exact known
    | some (some value) =>
      rw [bound] at now
      refine ⟨now.1, fun ty mem => ?_⟩
      rw [← kept.same ref visible (forgotten _ mem), bound] at known
      exact known.2 ty mem

/-! ## Blocks -/

/-- A block is entered. -/
theorem enter (wellFormed : a.WellFormed) :
    run.Agrees a.entered (heap.frames.size :: env)
      (memory.put a.frames.size heap.frames.size) (heap.pushFrame Table.empty) where
  mirrors := h.mirrors.enter wellFormed
  names ref visible := h.names ref (Analyzer.visible_entered.mp visible)

omit h in
/-- A block is left. -/
theorem leave {site : Site} {frame id : Nat} (h : run.Agrees a (id :: env) memory heap)
    (frames : a.site.frames = frame :: site.frames) :
    run.Agrees { a with site } env memory heap where
  mirrors := h.mirrors.leave frames
  names ref visible := by
    obtain ⟨other, mem, found⟩ := visible
    exact h.names ref ⟨other, by simp only [frames, List.mem_cons]; exact .inr mem, found⟩

end Agrees

end Run

end FlowScript
