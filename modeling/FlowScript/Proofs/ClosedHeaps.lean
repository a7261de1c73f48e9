import FlowScript.Proofs.Parametricity
/-!
# No cell refers to a cell that does not exist

A heap is `Heap.Closed` if every cell exists that its variables, fields and methods refer to.  Programs only
refer to the cells they were given and to those they made themselves, and no cell is ever removed, so running
a program keeps the heap closed.

A run with a closed heap goes along with itself, on the bridge `Bridge.closing` that pairs every cell of the
heap with itself: a value that stands on the bridge refers to cells that exist.

Main statements: `Setup.execute_closes` and `Setup.call_closes`.
-/

namespace FlowScript

/-! ## Closed heaps -/

namespace Heap

/-- Whether a cell exists. -/
def Has (heap : Heap) : Cell → Prop
  | .frame id => id < heap.frames.size
  | .instance id => id < heap.instances.size

/-- Whether all of some cells exist. -/
def Covers (heap : Heap) (cells : List Cell) : Prop := ∀ cell ∈ cells, heap.Has cell

/-- Whether the frames of the globals exist and all cells that variables, fields and methods refer to. -/
structure Closed (heap : Heap) : Prop where
  globals : heap.Covers (globalEnvironment.map .frame)
  frames : ∀ id value, some value ∈ (heap.frame id).values → heap.Covers value.cells
  fields : ∀ id, ∀ value ∈ (heap.instanceAt id).fields.values, heap.Covers value.cells
  methods : ∀ id, ∀ method ∈ (heap.instanceAt id).methods.values,
    heap.Covers (method.environment.map .frame)

variable {heap before after : Heap}

theorem covers_nil : heap.Covers [] := fun _ mem => nomatch mem

theorem covers_cons {cell : Cell} {cells : List Cell} :
    heap.Covers (cell :: cells) ↔ heap.Has cell ∧ heap.Covers cells :=
  List.forall_mem_cons

theorem covers_flatMap {α : Type} {items : List α} {cells : α → List Cell} :
    heap.Covers (items.flatMap cells) ↔ ∀ item ∈ items, heap.Covers (cells item) :=
  List.forall_mem_flatMap

theorem Grows.has (grows : before.Grows after) {cell : Cell} (has : before.Has cell) : after.Has cell := by
  cases cell with
  | frame id => exact Nat.lt_of_lt_of_le has grows.frames
  | «instance» id => exact Nat.lt_of_lt_of_le has grows.instances

theorem Covers.mono {cells : List Cell} (covers : before.Covers cells) (grows : before.Grows after) :
    after.Covers cells :=
  fun cell mem => grows.has (covers cell mem)

/-! ### What keeps a heap closed -/

/-- After a variable is bound, every value of a frame is the new one or stood there before. -/
theorem mem_values_bind {id other : Nat} {name : String} {value found : Option Value}
    (mem : found ∈ ((heap.bind id name value).frame other).values) :
    found = value ∨ found ∈ (heap.frame other).values := by
  by_cases inBounds : id < heap.frames.size
  · rw [heap.frame_bind name value other inBounds] at mem
    split at mem
    · rename_i same
      subst same
      exact Table.mem_values_insert mem
    · exact .inr mem
  · have same : (heap.bind id name value).frame other = heap.frame other := by
      by_cases eq : id = other
      · subst eq
        simp [Heap.bind, Heap.frame, inBounds]
      · simp [Heap.bind, Heap.frame, Array.getElem?_modify, eq]
    rw [same] at mem
    exact .inr mem

@[simp]
theorem has_bind (id : Nat) (name : String) (value : Option Value) :
    (heap.bind id name value).Has = heap.Has := by
  funext cell
  cases cell with
  | frame => simp [Has]
  | «instance» => rfl

@[simp]
theorem has_setField (id : Nat) (field : String) (value : Value) :
    (heap.setField id field value).Has = heap.Has := by
  funext cell
  cases cell with
  | frame => rfl
  | «instance» => simp [Has]

@[simp]
theorem has_remembers (memory : HostMemory) : { heap with memory }.Has = heap.Has := by
  funext cell
  cases cell <;> rfl

theorem Closed.bind (closed : heap.Closed) (id : Nat) (name : String) {value : Option Value}
    (covers : ∀ found, value = some found → heap.Covers found.cells) :
    (heap.bind id name value).Closed := by
  have grows := Grows.bind heap id name value
  refine ⟨closed.globals.mono grows, fun other found mem => ?_,
    fun other found mem => (closed.fields other found mem).mono grows,
    fun other method mem => (closed.methods other method mem).mono grows⟩
  rcases mem_values_bind mem with new | old
  · exact (covers found new.symm).mono grows
  · exact (closed.frames other found old).mono grows

/-- A field is set to a value that refers to cells of the heap. -/
theorem Closed.setField (closed : heap.Closed) {id : Nat} (inBounds : id < heap.instances.size)
    (field : String) {value : Value} (covers : heap.Covers value.cells) :
    (heap.setField id field value).Closed := by
  have grows := Grows.setField heap field value inBounds
  refine ⟨closed.globals.mono grows,
    fun other found mem => (closed.frames other found mem).mono grows,
    fun other found mem => ?_, fun other method mem => ?_⟩
  · rw [heap.instanceAt_setField_of_lt field value other inBounds] at mem
    split at mem
    · rcases Table.mem_values_insert mem with rfl | old
      · exact covers.mono grows
      · exact (closed.fields id found old).mono grows
    · exact (closed.fields other found mem).mono grows
  · rw [heap.instanceAt_setField_of_lt field value other inBounds] at mem
    split at mem
    · exact (closed.methods id method mem).mono grows
    · exact (closed.methods other method mem).mono grows

/-- Every frame of a heap with a new frame is the new one or an old one. -/
theorem frame_pushFrame_cases (bindings : Bindings) (id : Nat) :
    (heap.pushFrame bindings).frame id = bindings ∨
      (heap.pushFrame bindings).frame id = heap.frame id := by
  by_cases new : id = heap.frames.size
  · subst new
    exact .inl (heap.frame_pushFrame_self bindings)
  · right
    simp [Heap.pushFrame, Heap.frame, Array.getElem?_push, new]

theorem instanceAt_pushInstance_cases (value : Instance) (id : Nat) :
    (heap.pushInstance value).instanceAt id = value ∨
      (heap.pushInstance value).instanceAt id = heap.instanceAt id := by
  by_cases new : id = heap.instances.size
  · subst new
    exact .inl (heap.instanceAt_pushInstance_self value)
  · right
    simp [Heap.pushInstance, Heap.instanceAt, Array.getElem?_push, new]

theorem Closed.pushFrame (closed : heap.Closed) {bindings : Bindings}
    (covers : ∀ value, some value ∈ bindings.values → heap.Covers value.cells) :
    (heap.pushFrame bindings).Closed := by
  have grows := Grows.pushFrame heap bindings
  refine ⟨closed.globals.mono grows, fun id value mem => ?_,
    fun id value mem => (closed.fields id value mem).mono grows,
    fun id method mem => (closed.methods id method mem).mono grows⟩
  rcases frame_pushFrame_cases bindings id with new | old
  · rw [new] at mem
    exact (covers value mem).mono grows
  · rw [old] at mem
    exact (closed.frames id value mem).mono grows

/-- A new instance that refers to cells of the heap. -/
theorem Closed.pushInstance (closed : heap.Closed) {target : Instance}
    (fields : ∀ value ∈ target.fields.values, heap.Covers value.cells)
    (methods : ∀ method ∈ target.methods.values, heap.Covers (method.environment.map .frame)) :
    (heap.pushInstance target).Closed := by
  have grows := Grows.pushInstance heap target
  refine ⟨closed.globals.mono grows,
    fun id value mem => (closed.frames id value mem).mono grows,
    fun id value mem => ?_, fun id method mem => ?_⟩
  · rcases instanceAt_pushInstance_cases target id with new | old
    · rw [new] at mem
      exact (fields value mem).mono grows
    · rw [old] at mem
      exact (closed.fields id value mem).mono grows
  · rcases instanceAt_pushInstance_cases target id with new | old
    · rw [new] at mem
      exact (methods method mem).mono grows
    · rw [old] at mem
      exact (closed.methods id method mem).mono grows

theorem Closed.remembers (closed : heap.Closed) (memory : HostMemory) : { heap with memory }.Closed :=
  ⟨closed.globals, closed.frames, closed.fields, closed.methods⟩

/-- What a variable in scope holds stands in its frame. -/
theorem Closed.lookup? (closed : heap.Closed) {name : String} {env : Environment} {value : Value}
    (found : heap.lookup? name env = some (some value)) : heap.Covers value.cells := by
  obtain ⟨id, -, bound⟩ := List.exists_of_findSome?_eq_some found
  exact closed.frames id value (Table.mem_values_of_find? bound)

end Heap

/-! ## The host -/

/-- Whether a function gives only values whose cells exist, and changes no cell. -/
def HostFunction.Genuine (fn : HostFunction) : Prop :=
  ∀ (heap : Heap) (args : List Value), heap.Closed → heap.Covers (args.flatMap Value.cells) →
    (∀ value, (fn.behavior heap args).result = .ok value → heap.Covers value.cells) ∧
      (fn.behavior heap args).KeepsCells heap

/-- Whether the functions of a host give only values whose cells exist, and change no cell. -/
def Host.Genuine (host : Host) : Prop := ∀ fn ∈ host, fn.Genuine

theorem Host.print_genuine : Host.print.Genuine := by
  intro heap args _ _
  simp only [Host.print]
  split
  · refine ⟨?_, heap.memory, rfl⟩
    rintro value ⟨⟩
    exact Heap.covers_nil
  · exact ⟨nofun, heap.memory, rfl⟩

theorem Host.clock_genuine (start : Float) (elapsed : Nat → Float) :
    (Host.clock start elapsed).Genuine := by
  intro heap args _ _
  refine ⟨?_, heap.memory, rfl⟩
  rintro value ⟨⟩
  exact Heap.covers_nil

/-- The standard functions of the host give numbers and `nil`. -/
theorem Host.standard_genuine (start : Float) (elapsed : Nat → Float) :
    (Host.standard start elapsed).Genuine := by
  intro fn mem
  simp only [Host.standard, List.mem_cons, List.not_mem_nil, or_false] at mem
  rcases mem with rfl | rfl
  · exact Host.print_genuine
  · exact Host.clock_genuine start elapsed

/-! ## Runs with closed heaps -/

/-- A machine with a closed heap goes along with itself, and its heap grows. -/
def Bridge.closing {host : Host} (genuine : host.Genuine) : Bridge host where
  toCourse := .growing
  machines link m n := m = n ∧ m.heap.Closed ∧ link = .diagonal m.heap.Has
  depth machines := congrArg _ machines.1
  equal := by
    rintro _ m _ a b c d ⟨rfl, -, rfl⟩ first second
    rw [((Value.related_diagonal_iff a b).mp first).1, ((Value.related_diagonal_iff c d).mp second).1]
  display := by
    rintro _ m _ a b ⟨rfl, -, rfl⟩ related
    rw [((Value.related_diagonal_iff a b).mp related).1]
  hasType := by
    rintro _ m _ a b ⟨rfl, -, rfl⟩ related ty
    rw [((Value.related_diagonal_iff a b).mp related).1]
  lookup? := by
    rintro _ m _ e f ⟨rfl, closed, rfl⟩ related name
    obtain ⟨rfl, -⟩ := Environment.related_diagonal_iff.mp related
    cases found : m.heap.lookup? name e with
    | none => exact .none
    | some value =>
      refine .some ((Value.option_related_diagonal_iff _ _).mpr ⟨rfl, fun held same => ?_⟩)
      subst same
      exact closed.lookup? found
  owner? := by
    rintro _ m _ e f ⟨rfl, closed, rfl⟩ related name
    obtain ⟨rfl, inScope⟩ := Environment.related_diagonal_iff.mp related
    cases found : m.heap.owner? name e with
    | none => exact .none
    | some id => exact .some ⟨rfl, inScope _ (List.mem_map_of_mem (List.mem_of_find?_eq_some found))⟩
  object := by
    rintro _ m _ a b ⟨rfl, closed, rfl⟩ ⟨rfl, -⟩
    exact Instance.related_diagonal_iff.mpr ⟨rfl, closed.fields a, closed.methods a⟩
  bind := by
    rintro _ m _ a b v w ⟨rfl, closed, rfl⟩ ⟨rfl, -⟩ name related
    obtain ⟨rfl, covers⟩ := (Value.option_related_diagonal_iff v w).mp related
    exact ⟨⟨rfl, closed.bind a name covers, by simp⟩, .bind _ _ _ _⟩
  setField := by
    rintro _ m _ a b v w ⟨rfl, closed, rfl⟩ ⟨rfl, inBounds⟩ field related
    obtain ⟨rfl, covers⟩ := (Value.related_diagonal_iff v w).mp related
    exact ⟨⟨rfl, closed.setField inBounds field covers, by simp⟩, .setField _ _ _ inBounds⟩
  pushFrame := by
    rintro _ m _ v w ⟨rfl, closed, rfl⟩ related
    obtain ⟨rfl, covers⟩ := Bindings.related_diagonal_iff.mp related
    have grows := Heap.Grows.pushFrame m.heap v
    refine ⟨_, Link.diagonal_le fun _ => grows.has, ⟨rfl, closed.pushFrame covers, rfl⟩, ⟨rfl, ?_⟩, grows⟩
    simp [Heap.Has, Heap.pushFrame]
  pushInstance := by
    rintro _ m _ v w ⟨rfl, closed, rfl⟩ related
    obtain ⟨rfl, fields, methods⟩ := Instance.related_diagonal_iff.mp related
    have grows := Heap.Grows.pushInstance m.heap v
    refine ⟨_, Link.diagonal_le fun _ => grows.has, ⟨rfl, closed.pushInstance fields methods, rfl⟩,
      ⟨rfl, ?_⟩, grows⟩
    simp [Heap.Has, Heap.pushInstance]
  freshStamp := by
    rintro _ m _ ⟨rfl, closed, rfl⟩
    exact ⟨_, .refl _, ⟨rfl, closed, rfl⟩, rfl, .refl _⟩
  answer := by
    rintro _ m _ args others ⟨rfl, closed, rfl⟩ fn mem related
    obtain ⟨rfl, covers⟩ := (forall₂_diagonal_iff Value.related_diagonal_iff).mp related
    obtain ⟨cells, keeps⟩ := genuine fn mem m.heap args closed (Heap.covers_flatMap.mpr covers)
    obtain ⟨memory, same⟩ := keeps.applied
    refine ⟨_, .refl _, ⟨rfl, ?_, ?_⟩, ?_, ?_⟩
    · simpa only [Machine.answered, same] using closed.remembers memory
    · simp only [Machine.answered, same, Heap.has_remembers]
    · unfold HostReply.Related
      cases res : (fn.behavior m.heap args).result with
      | error failure => rfl
      | ok value => exact (Value.related_diagonal_iff _ _).mpr ⟨rfl, cells value res⟩
    · simpa only [Course.growing, Machine.answered, same] using m.heap.grows_remembers memory
  setDepth := by
    rintro _ m _ ⟨rfl, closed, rfl⟩ depth -
    exact ⟨rfl, closed, rfl⟩
  deeper grows := grows

/-- A computation that goes along with itself on closed heaps keeps them closed and lets them grow. -/
theorem Eval.Related.closes {α : Type} {host : Host} {genuine : host.Genuine} {post : Link → α → α → Prop}
    {machine : Machine} {x : Eval α} (closed : machine.heap.Closed)
    (related : Eval.Related (.closing genuine) post (.diagonal machine.heap.Has) x x) :
    (x machine).2.heap.Closed ∧ machine.heap.Grows (x machine).2.heap := by
  obtain ⟨_, -, ⟨-, after, -⟩, -, grows⟩ :=
    (related (.refl _) ⟨rfl, closed, rfl⟩).resolve_left fun ⟨_, _, cut⟩ => cut
  exact ⟨after, grows⟩

namespace Setup

variable {setup : Setup} {machine : Machine}

/-- Running a program keeps heaps closed. -/
theorem execute_closes (genuine : setup.host.Genuine) (closed : machine.heap.Closed) (prog : Program) :
    (setup.execute prog machine).2.heap.Closed ∧
      machine.heap.Grows (setup.execute prog machine).2.heap := by
  have globals := Environment.related_diagonal_iff.mpr ⟨rfl, closed.globals⟩
  exact ((setup.parametric (.closing genuine) nofun).execute (fun _ => .refl _) globals prog).closes closed

/-- Calling a global function keeps heaps closed if the cells of the arguments exist. -/
theorem call_closes (genuine : setup.host.Genuine) (closed : machine.heap.Closed) (name : String)
    {args : List Value} (covers : machine.heap.Covers (args.flatMap Value.cells)) :
    (setup.call name args machine).2.heap.Closed ∧
      machine.heap.Grows (setup.call name args machine).2.heap := by
  have globals := Environment.related_diagonal_iff.mpr ⟨rfl, closed.globals⟩
  have related := (forall₂_diagonal_iff Value.related_diagonal_iff).mpr
    ⟨rfl, Heap.covers_flatMap.mp covers⟩
  have run : Eval.Related (.closing genuine) Eval.Related.Values (.diagonal machine.heap.Has)
      (setup.call name args) (setup.call name args) := by
    refine .bind (.read globals name none) fun later f g le same => ?_
    exact (setup.parametric (.closing genuine) nofun).invoke same (related.imp fun _ _ => Value.Related.mono le) none
  exact run.closes closed

end Setup

/-- The heap before the first program is closed. -/
theorem Machine.closed_initial (host : Host) : (Machine.initial host).heap.Closed := by
  have none' (id : Nat) : (Machine.initial host).heap.instanceAt id = default := rfl
  refine ⟨?_, fun id value mem => ?_, fun id value mem => ?_, fun id method mem => ?_⟩
  · exact Heap.covers_cons.mpr ⟨Nat.one_lt_two, Heap.covers_cons.mpr ⟨Nat.zero_lt_two, Heap.covers_nil⟩⟩
  · match id with
    | 0 =>
      obtain ⟨pair, bound, eq⟩ := List.mem_map.mp (Table.mem_values_ofList mem)
      obtain ⟨fn, -, rfl⟩ := List.mem_map.mp bound
      cases eq
      exact Heap.covers_nil
    | 1 => cases mem
    | id + 2 => cases mem
  · rw [none'] at mem
    cases mem
  · rw [none'] at mem
    cases mem

end FlowScript
