import FlowScript.Proofs.ClosedHeaps
import FlowScript.Proofs.Rollback
import Mathlib.Data.List.Nodup
/-!
# Checkpoints hold the graph of the globals

`Heap.Graph` is the least set that holds the environment of the globals and, with an environment, its parent
and the values of its variables, and with a value the environments and instances it is made of.  The frame of
the host is in it as the parent of the globals, but a checkpoint neither saves that frame nor follows what
its variables hold: `Heap.Graph follows` says which frames are followed.

Between programs, whoever runs them may take checkpoints and roll back to any of those taken before, in any
order.  A `History` is a machine with the checkpoints taken on it, and `History.Leads` says which histories a
history can lead to.  Each step keeps the heap closed and removes no cell, so what a checkpoint has saved is
there to be restored.

Main statements: the search for what can be reached finds exactly the graph, however the cells refer to each
other (`Heap.mem_reachable_iff`), and rolling back restores the graph (`History.rollback_restores`).
-/

namespace FlowScript

/-! ## The graph of the globals -/

/-- What the graph of a heap is made of. -/
inductive Item where
  | environment (frames : Environment)
  | value (value : Value)

/-- The cells that an item refers to. -/
def Item.cells : Item → List Cell
  | .environment frames => frames.map .frame
  | .value found => found.cells

namespace Heap

/-- The least set that holds the environment of the globals and is closed under the parents of environments,
the values of variables in the frames that are followed, the fields of instances, the environments of
functions, the receivers and environments of bound methods, and the environments of the methods of
constructors. -/
inductive Graph (heap : Heap) (follows : Nat → Prop) : Item → Prop where
  | globals : Graph heap follows (.environment globalEnvironment)
  | parent {id : Nat} {outer : Environment} (inside : Graph heap follows (.environment (id :: outer))) :
    Graph heap follows (.environment outer)
  | binding {id : Nat} {outer : Environment} {value : Value}
    (inside : Graph heap follows (.environment (id :: outer))) (followed : follows id)
    (bound : some value ∈ (heap.frame id).values) : Graph heap follows (.value value)
  | field {id : Nat} {value : Value} (inside : Graph heap follows (.value (.instance id)))
    (bound : value ∈ (heap.instanceAt id).fields.values) : Graph heap follows (.value value)
  | closure {target : Closure} (inside : Graph heap follows (.value (.closure target))) :
    Graph heap follows (.environment target.environment)
  | receiver {stamp id : Nat} {target : Closure}
    (inside : Graph heap follows (.value (.method stamp id target))) :
    Graph heap follows (.value (.instance id))
  | method {stamp id : Nat} {target : Closure}
    (inside : Graph heap follows (.value (.method stamp id target))) :
    Graph heap follows (.environment target.environment)
  | constructor {stamp : Nat} {decl : StructDecl Stmt} {methods : Table String Closure} {method : Closure}
    (inside : Graph heap follows (.value (.constructor stamp decl methods)))
    (bound : method ∈ methods.values) : Graph heap follows (.environment method.environment)

/-- Whether a cell is in the graph: the innermost frame of one of its environments, or one of its
instances. -/
def InGraph (heap : Heap) (follows : Nat → Prop) : Cell → Prop
  | .frame id => ∃ outer, heap.Graph follows (.environment (id :: outer))
  | .instance id => heap.Graph follows (.value (.instance id))

/-- Whether a frame is not the one of the host. -/
abbrev NotHost (id : Nat) : Prop := id ≠ hostFrame

variable {heap left right : Heap} {follows : Nat → Prop} {item : Item}

/-- All frames of an environment of the graph are in the graph. -/
theorem Graph.inGraph_frame {environment : Environment}
    (inside : heap.Graph follows (.environment environment)) {id : Nat} (mem : id ∈ environment) :
    heap.InGraph follows (.frame id) := by
  induction environment with
  | nil => cases mem
  | cons first outer ih =>
    rcases List.mem_cons.mp mem with rfl | mem
    · exact ⟨outer, inside⟩
    · exact ih inside.parent mem

/-- All cells that an item of the graph refers to are in the graph. -/
theorem Graph.inGraph (inside : heap.Graph follows item) {cell : Cell} (mem : cell ∈ item.cells) :
    heap.InGraph follows cell := by
  have scope {environment : Environment} (inside : heap.Graph follows (.environment environment))
      (mem : cell ∈ environment.map .frame) : heap.InGraph follows cell := by
    obtain ⟨id, bound, rfl⟩ := List.mem_map.mp mem
    exact inside.inGraph_frame bound
  cases item with
  | environment environment => exact scope inside mem
  | value value =>
    cases value with
    | «instance» id =>
      obtain rfl := List.mem_singleton.mp mem
      exact inside
    | closure target => exact scope inside.closure mem
    | method stamp id target =>
      rcases List.mem_cons.mp mem with rfl | mem
      · exact inside.receiver
      · exact scope inside.method mem
    | constructor stamp decl methods =>
      obtain ⟨method, bound, mem⟩ := List.mem_flatMap.mp mem
      exact scope (inside.constructor bound) mem
    | nil | bool | int | float | string | host => cases mem

/-- In a closed heap all cells of the graph exist. -/
theorem Graph.covers (inside : heap.Graph follows item) (closed : heap.Closed) :
    heap.Covers item.cells := by
  induction inside with
  | globals => exact closed.globals
  | parent _ ih => exact (covers_cons.mp ih).2
  | binding _ _ bound _ => exact closed.frames _ _ bound
  | field _ bound _ => exact closed.fields _ _ bound
  | closure _ ih => exact ih
  | receiver _ ih => exact covers_cons.mpr ⟨(covers_cons.mp ih).1, covers_nil⟩
  | method _ ih => exact (covers_cons.mp ih).2
  | constructor _ bound ih => exact covers_flatMap.mp ih _ bound

theorem InGraph.has {cell : Cell} (inside : heap.InGraph follows cell) (closed : heap.Closed) :
    heap.Has cell := by
  cases cell with
  | frame id =>
    obtain ⟨outer, inside⟩ := inside
    exact (covers_cons.mp (inside.covers closed)).1
  | «instance» id => exact (covers_cons.mp (Graph.covers inside closed)).1

/-- The graph of a heap is part of that of a heap that holds the same in the cells of both graphs. -/
theorem Graph.imp
    (frames : ∀ id, left.InGraph follows (.frame id) → right.InGraph follows (.frame id) → follows id →
      left.frame id = right.frame id)
    (fields : ∀ id, left.InGraph follows (.instance id) → right.InGraph follows (.instance id) →
      (left.instanceAt id).fields = (right.instanceAt id).fields)
    (inside : left.Graph follows item) : right.Graph follows item := by
  induction inside with
  | globals => exact .globals
  | parent _ ih => exact ih.parent
  | binding inside followed bound ih =>
    rw [frames _ ⟨_, inside⟩ ⟨_, ih⟩ followed] at bound
    exact ih.binding followed bound
  | field inside bound ih =>
    rw [fields _ inside ih] at bound
    exact ih.field bound
  | closure _ ih => exact ih.closure
  | receiver _ ih => exact ih.receiver
  | method _ ih => exact ih.method
  | constructor _ bound ih => exact ih.constructor bound

/-- Heaps that hold the same in the cells of the graph of one of them have the same graph. -/
theorem graph_congr
    (frames : ∀ id, left.InGraph follows (.frame id) → follows id → right.frame id = left.frame id)
    (fields : ∀ id, left.InGraph follows (.instance id) →
      (right.instanceAt id).fields = (left.instanceAt id).fields) :
    right.Graph follows item ↔ left.Graph follows item :=
  ⟨Graph.imp (fun id _ inside followed => frames id inside followed) fun id _ inside => fields id inside,
    Graph.imp (fun id inside _ followed => (frames id inside followed).symm)
      fun id inside _ => (fields id inside).symm⟩

/-- The graph grows with the frames that are followed. -/
theorem Graph.mono {more : Nat → Prop} (le : ∀ id, follows id → more id)
    (inside : heap.Graph follows item) : heap.Graph more item := by
  induction inside with
  | globals => exact .globals
  | parent _ ih => exact ih.parent
  | binding _ followed bound ih => exact ih.binding (le _ followed) bound
  | field _ bound ih => exact ih.field bound
  | closure _ ih => exact ih.closure
  | receiver _ ih => exact ih.receiver
  | method _ ih => exact ih.method
  | constructor _ bound ih => exact ih.constructor bound

/-- Where the names of the host hold no cells, following them adds no item that refers to a cell. -/
theorem Graph.notHost_or_nil
    (plain : ∀ value, some value ∈ (heap.frame hostFrame).values → value.cells = [])
    (inside : heap.Graph follows item) : heap.Graph NotHost item ∨ item.cells = [] := by
  induction inside with
  | globals => exact .inl .globals
  | parent _ ih => exact .inl (ih.resolve_right (List.cons_ne_nil _ _)).parent
  | @binding id outer value _ _ bound ih =>
    by_cases host : id = hostFrame
    · subst host
      exact .inr (plain value bound)
    · exact .inl ((ih.resolve_right (List.cons_ne_nil _ _)).binding host bound)
  | field _ bound ih => exact .inl ((ih.resolve_right (List.cons_ne_nil _ _)).field bound)
  | closure _ ih => exact ih.imp_left fun inside => inside.closure
  | receiver _ ih => exact .inl (ih.resolve_right (List.cons_ne_nil _ _)).receiver
  | method _ ih => exact .inl (ih.resolve_right (List.cons_ne_nil _ _)).method
  | constructor _ bound ih =>
    rcases ih with inside | none
    · exact .inl (inside.constructor bound)
    · exact .inr (List.flatMap_eq_nil_iff.mp none _ bound)

/-- Where the names of the host hold no cells, the graph has the same cells if they are followed. -/
theorem inGraph_iff_notHost
    (plain : ∀ value, some value ∈ (heap.frame hostFrame).values → value.cells = []) {cell : Cell} :
    heap.InGraph (fun _ => True) cell ↔ heap.InGraph NotHost cell := by
  cases cell with
  | frame id =>
    exact exists_congr fun outer =>
      ⟨fun inside => (inside.notHost_or_nil plain).resolve_right (List.cons_ne_nil _ _),
        Graph.mono fun _ _ => trivial⟩
  | «instance» id =>
    exact ⟨fun inside => (Graph.notHost_or_nil plain inside).resolve_right (List.cons_ne_nil _ _),
      Graph.mono fun _ _ => trivial⟩

/-! ## The search -/

theorem mem_successors_frame {id : Nat} {cell : Cell} :
    cell ∈ heap.successors (.frame id) ↔
      ∃ value, some value ∈ (heap.frame id).values ∧ cell ∈ value.cells := by
  rw [successors, List.mem_flatMap]
  constructor
  · rintro ⟨found, bound, mem⟩
    cases found with
    | none => cases mem
    | some value => exact ⟨value, bound, mem⟩
  · rintro ⟨value, bound, mem⟩
    exact ⟨some value, bound, mem⟩

theorem isOpen_frame {id : Nat} :
    heap.isOpen (.frame id) = true ↔ id ≠ hostFrame ∧ id < heap.frames.size := by
  simp [isOpen]

theorem isOpen_instance {id : Nat} :
    heap.isOpen (.instance id) = true ↔ id < heap.instances.size := by
  simp [isOpen]

/-- What every step of the search keeps holds in the end, when no cell is left to be looked at. -/
theorem reach_invariant {motive : List Cell → List Cell → Prop}
    (find : ∀ cell rest seen, heap.isOpen cell = true → cell ∉ seen → motive (cell :: rest) seen →
      motive (heap.successors cell ++ rest) (cell :: seen))
    (skip : ∀ cell rest seen, (heap.isOpen cell = true → cell ∈ seen) → motive (cell :: rest) seen →
      motive rest seen)
    {pending seen : List Cell} (start : motive pending seen) : motive [] (heap.reach pending seen) := by
  fun_induction heap.reach pending seen with
  | case1 seen => exact start
  | case2 seen cell rest new ih => exact ih (find cell rest seen new.1 new.2 start)
  | case3 seen cell rest old ih =>
    refine ih (skip cell rest seen (fun isOpen => ?_) start)
    by_contra new
    exact old ⟨isOpen, new⟩

/-- No cell is found twice. -/
theorem nodup_reachable : heap.reachable.Nodup :=
  reach_invariant (motive := fun _ seen => seen.Nodup)
    (fun _ _ _ _ new once => List.nodup_cons.mpr ⟨new, once⟩) (fun _ _ _ _ once => once) List.nodup_nil

/-- What holds of the global frame, and of all that an open cell refers to if it holds of that cell, holds of
all cells that are found; and these are open. -/
theorem of_mem_reachable {holds : Cell → Prop} (globals : holds (.frame globalFrame))
    (step : ∀ cell, heap.isOpen cell = true → holds cell → ∀ other ∈ heap.successors cell, holds other)
    {cell : Cell} (found : cell ∈ heap.reachable) : holds cell ∧ heap.isOpen cell = true := by
  suffices all : (∀ cell ∈ [], holds cell) ∧
      ∀ cell ∈ heap.reachable, holds cell ∧ heap.isOpen cell = true from all.2 cell found
  refine reach_invariant (motive := fun pending seen =>
    (∀ cell ∈ pending, holds cell) ∧ ∀ cell ∈ seen, holds cell ∧ heap.isOpen cell = true) ?_ ?_ ?_
  · intro cell rest seen isOpen _ ⟨first, old⟩
    obtain ⟨here, later⟩ := List.forall_mem_cons.mp first
    exact ⟨List.forall_mem_append.mpr ⟨step cell isOpen here, later⟩,
      List.forall_mem_cons.mpr ⟨⟨here, isOpen⟩, old⟩⟩
  · intro cell rest seen _ ⟨first, old⟩
    exact ⟨(List.forall_mem_cons.mp first).2, old⟩
  · exact ⟨List.forall_mem_singleton.mpr globals, fun _ mem => absurd mem List.not_mem_nil⟩

/-- The global frame is found if it is open. -/
theorem globals_mem_reachable (isOpen : heap.isOpen (.frame globalFrame) = true) :
    Cell.frame globalFrame ∈ heap.reachable := by
  suffices either : Cell.frame globalFrame ∈ [] ∨ Cell.frame globalFrame ∈ heap.reachable from
    either.resolve_left List.not_mem_nil
  refine reach_invariant (motive := fun pending seen =>
    Cell.frame globalFrame ∈ pending ∨ Cell.frame globalFrame ∈ seen) ?_ ?_ (.inl List.mem_cons_self)
  · intro cell rest seen _ _ either
    rcases either with mem | mem
    · rcases List.mem_cons.mp mem with rfl | mem
      · exact .inr List.mem_cons_self
      · exact .inl (List.mem_append_right _ mem)
    · exact .inr (List.mem_cons_of_mem _ mem)
  · intro cell rest seen old either
    rcases either with mem | mem
    · rcases List.mem_cons.mp mem with rfl | mem
      · exact .inr (old isOpen)
      · exact .inl mem
    · exact .inr mem

/-- The open cells that a found cell refers to are found.  During the search, what a cell that was seen refers to
is seen too or still to be looked at. -/
theorem mem_reachable_of_mem_successors {cell other : Cell} (found : cell ∈ heap.reachable)
    (mem : other ∈ heap.successors cell) (isOpen : heap.isOpen other = true) : other ∈ heap.reachable := by
  suffices known : ∀ cell ∈ heap.reachable, ∀ other ∈ heap.successors cell, heap.isOpen other = true →
      other ∈ heap.reachable ∨ other ∈ [] from
    (known cell found other mem isOpen).resolve_right List.not_mem_nil
  refine reach_invariant (motive := fun pending seen => ∀ cell ∈ seen, ∀ other ∈ heap.successors cell,
    heap.isOpen other = true → other ∈ seen ∨ other ∈ pending) ?_ ?_ ?_
  · intro next rest seen _ _ known
    refine List.forall_mem_cons.mpr ⟨fun other mem _ => .inr (List.mem_append_left _ mem), ?_⟩
    intro cell old other mem isOpen
    rcases known cell old other mem isOpen with mem | mem
    · exact .inl (List.mem_cons_of_mem _ mem)
    · rcases List.mem_cons.mp mem with rfl | mem
      · exact .inl List.mem_cons_self
      · exact .inr (List.mem_append_right _ mem)
  · intro next rest seen seenIfOpen known cell old other mem isOpen
    rcases known cell old other mem isOpen with mem | mem
    · exact .inl mem
    · rcases List.mem_cons.mp mem with rfl | mem
      · exact .inl (seenIfOpen isOpen)
      · exact .inr mem
  · exact fun _ old => absurd old List.not_mem_nil

/-- What an open cell of the graph refers to is in the graph. -/
theorem InGraph.successors {cell other : Cell} (inside : heap.InGraph NotHost cell)
    (isOpen : heap.isOpen cell = true) (mem : other ∈ heap.successors cell) :
    heap.InGraph NotHost other := by
  cases cell with
  | frame id =>
    obtain ⟨outer, inside⟩ := inside
    obtain ⟨value, bound, mem⟩ := mem_successors_frame.mp mem
    exact (inside.binding (isOpen_frame.mp isOpen).1 bound).inGraph mem
  | «instance» id =>
    obtain ⟨value, bound, mem⟩ := List.mem_flatMap.mp mem
    exact (Graph.field inside bound).inGraph mem

/-- The open cells of the graph are found. -/
theorem Graph.mem_reachable (inside : heap.Graph NotHost item) {cell : Cell} (mem : cell ∈ item.cells)
    (isOpen : heap.isOpen cell = true) : cell ∈ heap.reachable := by
  induction inside generalizing cell with
  | globals =>
    -- Of the two frames of the globals, the one of the host is not open.
    rcases List.mem_cons.mp mem with rfl | mem
    · exact globals_mem_reachable isOpen
    · obtain rfl := List.mem_singleton.mp mem
      exact absurd rfl (isOpen_frame.mp isOpen).1
  | parent _ ih => exact ih (List.mem_cons_of_mem _ mem) isOpen
  | @binding id outer value _ followed bound ih =>
    have inBounds : id < heap.frames.size := by
      by_contra outside
      simp [frame, outside, Table.values, Table.empty] at bound
    have found := ih List.mem_cons_self (isOpen_frame.mpr ⟨followed, inBounds⟩)
    exact mem_reachable_of_mem_successors found (mem_successors_frame.mpr ⟨value, bound, mem⟩) isOpen
  | @field id value _ bound ih =>
    have inBounds : id < heap.instances.size := by
      by_contra outside
      simp [instanceAt, outside, Table.values, Table.empty, default] at bound
    have found := ih List.mem_cons_self (isOpen_instance.mpr inBounds)
    exact mem_reachable_of_mem_successors found (List.mem_flatMap.mpr ⟨value, bound, mem⟩) isOpen
  | closure _ ih => exact ih mem isOpen
  | receiver _ ih =>
    obtain rfl := List.mem_singleton.mp mem
    exact ih List.mem_cons_self isOpen
  | method _ ih => exact ih (List.mem_cons_of_mem _ mem) isOpen
  | constructor _ bound ih => exact ih (List.mem_flatMap.mpr ⟨_, bound, mem⟩) isOpen

/-- The search finds exactly the open cells of the graph. -/
theorem mem_reachable_iff {cell : Cell} :
    cell ∈ heap.reachable ↔ heap.InGraph NotHost cell ∧ heap.isOpen cell = true := by
  constructor
  · exact of_mem_reachable ⟨_, .globals⟩ fun cell isOpen inside other mem => inside.successors isOpen mem
  · rintro ⟨inside, isOpen⟩
    cases cell with
    | frame id =>
      obtain ⟨outer, inside⟩ := inside
      exact inside.mem_reachable List.mem_cons_self isOpen
    | «instance» id => exact Graph.mem_reachable inside List.mem_cons_self isOpen

theorem frame_mem_reachable_iff (closed : heap.Closed) {id : Nat} :
    Cell.frame id ∈ heap.reachable ↔ heap.InGraph NotHost (.frame id) ∧ id ≠ hostFrame := by
  rw [mem_reachable_iff, isOpen_frame]
  exact ⟨fun ⟨inside, other, _⟩ => ⟨inside, other⟩,
    fun ⟨inside, other⟩ => ⟨inside, other, inside.has closed⟩⟩

theorem instance_mem_reachable_iff (closed : heap.Closed) {id : Nat} :
    Cell.instance id ∈ heap.reachable ↔ heap.InGraph NotHost (.instance id) := by
  rw [mem_reachable_iff, isOpen_instance]
  exact ⟨And.left, fun inside => ⟨inside, inside.has closed⟩⟩

end Heap

/-! ## What a checkpoint holds -/

namespace Checkpoint

/-- Whether a checkpoint holds exactly the environments of the graph of a heap, but for the frame of the host,
and the instances of the graph, each once and with what it holds in the heap. -/
structure Saves (saved : Checkpoint) (heap : Heap) : Prop where
  frames : ∀ id bindings, (id, bindings) ∈ saved.frames ↔
    (∃ outer, heap.Graph Heap.NotHost (.environment (id :: outer))) ∧ id ≠ Heap.hostFrame ∧
      bindings = heap.frame id
  instances : ∀ id fields, (id, fields) ∈ saved.instances ↔
    heap.Graph Heap.NotHost (.value (.instance id)) ∧ fields = (heap.instanceAt id).fields
  framesOnce : (saved.frames.map Prod.fst).Nodup
  instancesOnce : (saved.instances.map Prod.fst).Nodup

/-- Whether all that a checkpoint holds is in a heap as it was saved. -/
structure RestoredIn (saved : Checkpoint) (heap : Heap) : Prop where
  frames : ∀ id bindings, (id, bindings) ∈ saved.frames →
    heap.Has (.frame id) ∧ heap.frame id = bindings
  instances : ∀ id fields, (id, fields) ∈ saved.instances →
    heap.Has (.instance id) ∧ (heap.instanceAt id).fields = fields

end Checkpoint

namespace Heap

variable {heap before after : Heap}

theorem mem_checkpoint_frames {id : Nat} {bindings : Bindings} :
    (id, bindings) ∈ heap.checkpoint.frames ↔
      Cell.frame id ∈ heap.reachable ∧ bindings = heap.frame id := by
  rw [checkpoint, List.mem_filterMap]
  constructor
  · rintro ⟨cell, mem, saved⟩
    cases cell <;> cases saved
    exact ⟨mem, rfl⟩
  · rintro ⟨mem, rfl⟩
    exact ⟨_, mem, rfl⟩

theorem mem_checkpoint_instances {id : Nat} {fields : Table String Value} :
    (id, fields) ∈ heap.checkpoint.instances ↔
      Cell.instance id ∈ heap.reachable ∧ fields = (heap.instanceAt id).fields := by
  rw [checkpoint, List.mem_filterMap]
  constructor
  · rintro ⟨cell, mem, saved⟩
    cases cell <;> cases saved
    exact ⟨mem, rfl⟩
  · rintro ⟨mem, rfl⟩
    exact ⟨_, mem, rfl⟩

/-- A checkpoint of a closed heap holds the graph of the globals. -/
theorem checkpoint_saves (closed : heap.Closed) : heap.checkpoint.Saves heap where
  frames id bindings := by
    rw [mem_checkpoint_frames, frame_mem_reachable_iff closed, and_assoc]
    rfl
  instances id fields := by
    rw [mem_checkpoint_instances, instance_mem_reachable_iff closed]
    rfl
  framesOnce := by
    rw [checkpoint, List.map_filterMap]
    refine List.Nodup.filterMap (fun cell other id mine yours => ?_) nodup_reachable
    cases cell <;> cases other <;> cases mine <;> cases yours
    rfl
  instancesOnce := by
    rw [checkpoint, List.map_filterMap]
    refine List.Nodup.filterMap (fun cell other id mine yours => ?_) nodup_reachable
    cases cell <;> cases other <;> cases mine <;> cases yours
    rfl

/-! ## Rolling back -/

theorem Grows.rollback : after.Grows (after.rollback before.checkpoint) where
  frames := Nat.le_of_eq (size_frames_rollback _).symm
  instances := Nat.le_of_eq (size_instances_rollback _).symm
  decl _ _ := decl_rollback
  methods _ _ := methods_rollback

/-- A heap that is rolled back to a heap it has grown out of is closed if both are. -/
theorem Closed.rollback (closed : after.Closed) (saved : before.Closed) (grows : before.Grows after) :
    (after.rollback before.checkpoint).Closed := by
  have same : after.Grows (after.rollback before.checkpoint) := .rollback
  refine ⟨closed.globals.mono same, fun id value mem => ?_, fun id value mem => ?_, fun id method mem => ?_⟩
  · rw [frame_rollback_eq_ite] at mem
    split at mem
    · exact (saved.frames id value mem).mono (grows.trans same)
    · exact (closed.frames id value mem).mono same
  · rw [instanceAt_rollback] at mem
    split at mem
    · exact (saved.fields id value mem).mono (grows.trans same)
    · exact (closed.fields id value mem).mono same
  · rw [methods_rollback] at mem
    exact (closed.methods id method mem).mono same

/-- Rolling back restores what was saved. -/
theorem restoredIn_rollback (grows : before.Grows after) :
    before.checkpoint.RestoredIn (after.rollback before.checkpoint) where
  frames id bindings mem := by
    obtain ⟨found, rfl⟩ := mem_checkpoint_frames.mp mem
    have inBounds := Nat.lt_of_lt_of_le (isOpen_frame.mp (mem_reachable_iff.mp found).2).2 grows.frames
    exact ⟨Grows.rollback.has inBounds, frame_rollback found inBounds⟩
  instances id fields mem := by
    obtain ⟨found, rfl⟩ := mem_checkpoint_instances.mp mem
    have inBounds :=
      Nat.lt_of_lt_of_le (isOpen_instance.mp (mem_reachable_iff.mp found).2) grows.instances
    exact ⟨Grows.rollback.has inBounds, fields_rollback found inBounds⟩

/-- Rolling back restores the graph of the globals. -/
theorem graph_rollback (closed : before.Closed) (grows : before.Grows after) (item : Item) :
    (after.rollback before.checkpoint).Graph NotHost item ↔ before.Graph NotHost item := by
  refine graph_congr (fun id inside other => ?_) (fun id inside => ?_)
  · have inBounds : id < after.frames.size := grows.has (inside.has closed)
    exact frame_rollback ((frame_mem_reachable_iff closed).mpr ⟨inside, other⟩) inBounds
  · have inBounds : id < after.instances.size := grows.has (inside.has closed)
    exact fields_rollback ((instance_mem_reachable_iff closed).mpr inside) inBounds

end Heap

/-! ## Histories -/

/-- What may be done between programs. -/
inductive Command where
  | run (program : Program)
  | execute (program : Program)
  | call (name : String) (args : List Value)
  | checkpoint
  /-- Back to the checkpoint with a number, counted in the order in which they were taken. -/
  | rollback (index : Nat)

/-- Whether a command refers only to cells that exist. -/
def Command.Fits (heap : Heap) : Command → Prop
  | .call _ args => heap.Covers (args.flatMap Value.cells)
  | .run _ | .execute _ | .checkpoint | .rollback _ => True

/-- A machine with the checkpoints taken on it. -/
structure History where
  machine : Machine
  checkpoints : List Checkpoint := []

namespace History

/-- The history before the first program. -/
def initial (host : Host) : History := { machine := Machine.initial host }

/-- Carries out a command. -/
def perform (setup : Setup) (history : History) : Command → History
  | .run prog => { history with machine := (setup.run prog history.machine).2 }
  | .execute prog => { history with machine := ((setup.execute prog).run history.machine).2 }
  | .call name args => { history with machine := ((setup.call name args).run history.machine).2 }
  | .checkpoint =>
    { history with checkpoints := history.checkpoints ++ [history.machine.heap.checkpoint] }
  | .rollback index =>
    match history.checkpoints[index]? with
    | some saved =>
      { history with machine := { history.machine with heap := history.machine.heap.rollback saved } }
    | none => history

/-- The histories that commands lead to. -/
inductive Leads (setup : Setup) (start : History) : History → Prop where
  | refl : Leads setup start start
  | step {history : History} (before : Leads setup start history) (command : Command)
    (fits : command.Fits history.machine.heap) : Leads setup start (history.perform setup command)

/-- Whether the heap is closed and the checkpoints are of closed heaps that it has grown out of. -/
structure Sound (history : History) : Prop where
  closed : history.machine.heap.Closed
  checkpoints : ∀ saved ∈ history.checkpoints, ∃ before : Heap,
    before.Closed ∧ before.Grows history.machine.heap ∧ saved = before.checkpoint

variable {setup : Setup} {start history later : History}

theorem sound_initial (host : Host) : (initial host).Sound :=
  ⟨Machine.closed_initial host, fun _ mem => absurd mem List.not_mem_nil⟩

/-- A history whose heap has grown and stayed closed. -/
theorem Sound.grow (sound : history.Sound) {machine : Machine} (closed : machine.heap.Closed)
    (grows : history.machine.heap.Grows machine.heap) : Sound { history with machine } := by
  refine ⟨closed, fun saved mem => ?_⟩
  obtain ⟨before, wasClosed, grew, eq⟩ := sound.checkpoints saved mem
  exact ⟨before, wasClosed, grew.trans grows, eq⟩

/-- What a command keeps: the heap grows, and no checkpoint is lost. -/
theorem Sound.perform (genuine : setup.host.Genuine) (sound : history.Sound) {command : Command}
    (fits : command.Fits history.machine.heap) :
    (history.perform setup command).Sound ∧
      history.machine.heap.Grows (history.perform setup command).machine.heap ∧
      history.checkpoints <+: (history.perform setup command).checkpoints := by
  cases command with
  | run prog =>
    obtain ⟨closed, grows⟩ := setup.execute_closes genuine sound.closed prog
    exact ⟨sound.grow closed grows, grows, List.prefix_rfl⟩
  | execute prog =>
    obtain ⟨closed, grows⟩ := setup.execute_closes genuine sound.closed prog
    exact ⟨sound.grow closed grows, grows, List.prefix_rfl⟩
  | call name args =>
    obtain ⟨closed, grows⟩ := setup.call_closes genuine sound.closed name fits
    exact ⟨sound.grow closed grows, grows, List.prefix_rfl⟩
  | checkpoint =>
    refine ⟨⟨sound.closed, fun saved mem => ?_⟩, .refl _, List.prefix_append _ _⟩
    rcases List.mem_append.mp mem with mem | mem
    · exact sound.checkpoints saved mem
    · exact ⟨_, sound.closed, .refl _, List.mem_singleton.mp mem⟩
  | rollback index =>
    simp only [History.perform]
    split
    · rename_i saved found
      obtain ⟨before, wasClosed, grew, rfl⟩ := sound.checkpoints saved (List.mem_of_getElem? found)
      exact ⟨sound.grow (sound.closed.rollback wasClosed grew) .rollback, .rollback, List.prefix_rfl⟩
    · exact ⟨sound, .refl _, List.prefix_rfl⟩

/-- What commands keep. -/
theorem Leads.keeps (leads : Leads setup start history) (genuine : setup.host.Genuine)
    (sound : start.Sound) :
    history.Sound ∧ start.machine.heap.Grows history.machine.heap ∧
      start.checkpoints <+: history.checkpoints := by
  induction leads with
  | refl => exact ⟨sound, .refl _, List.prefix_rfl⟩
  | step _ command fits ih =>
    obtain ⟨mid, grew, kept⟩ := ih
    obtain ⟨after, grows, prefix'⟩ := mid.perform genuine fits
    exact ⟨after, grew.trans grows, kept.trans prefix'⟩

/-- **Checkpoints hold the graph of the globals, and rolling back restores it.**  Take any history that commands
lead to from the start, take a checkpoint, and let any commands follow, with other checkpoints and with any
number of rollbacks, to this checkpoint too.  The checkpoint holds exactly the environments and instances of the
graph of the globals, each once and with what it held; where the names of the host hold no cells, these are also
the cells of the graph in which they are followed.  Rolling back to the checkpoint gives each environment and
instance exactly what it held and makes the graph what it was. -/
theorem rollback_restores (genuine : setup.host.Genuine)
    (reached : Leads setup (initial setup.host) history)
    (after : Leads setup (history.perform setup .checkpoint) later) :
    let heap := history.machine.heap
    let restored := (later.perform setup (.rollback history.checkpoints.length)).machine.heap
    heap.checkpoint.Saves heap ∧
      ((∀ value, some value ∈ (heap.frame Heap.hostFrame).values → value.cells = []) →
        ∀ cell, heap.InGraph (fun _ => True) cell ↔ heap.InGraph Heap.NotHost cell) ∧
      heap.checkpoint.RestoredIn restored ∧
      ∀ item, restored.Graph Heap.NotHost item ↔ heap.Graph Heap.NotHost item := by
  intro heap restored
  obtain ⟨sound, -, -⟩ := reached.keeps genuine (sound_initial setup.host)
  obtain ⟨saved, -, -⟩ := @Sound.perform setup history genuine sound .checkpoint trivial
  obtain ⟨-, grows, kept⟩ := after.keeps genuine saved
  have found : later.checkpoints[history.checkpoints.length]? = some heap.checkpoint := by
    obtain ⟨others, eq⟩ := kept
    rw [← eq]
    simp [perform, heap]
  have eq : restored = later.machine.heap.rollback heap.checkpoint := by
    simp only [restored, perform, found]
  rw [eq]
  exact ⟨Heap.checkpoint_saves sound.closed, fun plain cell => Heap.inGraph_iff_notHost plain,
    Heap.restoredIn_rollback grows, Heap.graph_rollback sound.closed grows⟩

/-- A setup with few levels. -/
def smallSetup : Setup := { file := "script", maxCallDepth := 9, host := Host.standard 0, levels := 9 }

/-- The declaration of a struct with one field. -/
def oneField : Stmt :=
  .struct { position := ⟨1, 1⟩, name := "S", traits := [], methods := []
            fields := [{ position := ⟨1, 1⟩, name := "x", written := none }] }

/-- The program that declares a struct and makes an instance that holds itself. -/
def makesRing : Program :=
  let note : Note := { position := ⟨1, 1⟩ }
  [oneField,
    .varDecl note.position "s" none (some (.call note (.name note "S") [.literal note .nil])) none,
    .expr note.position (.assignField note note (.name note "s") "x" (.name note "s"))]

/-- The program that makes the instance hold nothing. -/
def cutsRing : Program :=
  let note : Note := { position := ⟨1, 1⟩ }
  [.expr note.position (.assignField note note (.name note "s") "x" (.literal note .nil))]

/-- An instance that holds itself is saved, and it holds itself again after a rollback. -/
theorem rollback_restores_ring :
    let first := (initial smallSetup.host).perform smallSetup (.run makesRing)
    let later := (first.perform smallSetup .checkpoint).perform smallSetup (.run cutsRing)
    let heap := first.machine.heap
    let restored := (later.perform smallSetup (.rollback 0)).machine.heap
    (heap.instanceAt 0).fields.values = [.instance 0] ∧
      (later.machine.heap.instanceAt 0).fields.values = [.nil] ∧
      heap.checkpoint.Saves heap ∧ heap.checkpoint.RestoredIn restored := by
  intro first later heap restored
  have genuine : smallSetup.host.Genuine := Host.standard_genuine 0 _
  obtain ⟨saves, -, restores, -⟩ := rollback_restores genuine
    (.step .refl (.run makesRing) trivial) (.step .refl (.run cutsRing) trivial)
  exact ⟨rfl, rfl, saves, restores⟩

/-- The program that declares a struct and assigns an instance of it to the name of a host function. -/
def takesHostName : Program :=
  let note : Note := { position := ⟨1, 1⟩ }
  [oneField,
    .expr note.position
      (.assign note note "print" (.call note (.name note "S") [.literal note (.int 1)]))]

/-- An instance that only the frame of the host holds is not saved, though that frame is the parent of the
globals. -/
theorem checkpoint_misses_host_variable :
    let heap := (smallSetup.run takesHostName (Machine.initial smallSetup.host)).2.heap
    heap.Graph (fun _ => True) (.value (.instance 0)) ∧ heap.checkpoint.instances = [] := by
  intro heap
  have held : some (.instance 0) ∈ (heap.frame Heap.hostFrame).values := List.mem_cons_self
  exact ⟨(Heap.Graph.globals.parent).binding trivial held, by decide +kernel⟩

end History

end FlowScript
