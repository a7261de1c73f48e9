import FlowScript.Heap
/-!
# Checkpoints of the heap

A checkpoint holds the contents of every cell that can be reached from the global variables: through
the values of variables and fields, the environments of functions, the receivers of bound methods
and the methods of constructors.  Rolling back gives these cells their contents again.
-/

namespace FlowScript

/-- A cell of the heap. -/
inductive Cell where
  | frame (id : Nat)
  | instance (id : Nat)
  deriving DecidableEq, Repr

/-- The cells that a value refers to. -/
def Value.cells : Value → List Cell
  | .instance id => [.instance id]
  | .closure target => target.environment.map .frame
  | .method _ receiver target => .instance receiver :: target.environment.map .frame
  | .constructor _ _ methods =>
    methods.values.flatMap fun method => method.environment.map .frame
  | .nil | .bool _ | .int _ | .float _ | .string _ | .host _ => []

namespace Heap

/-- The cells that the contents of a cell refer to. -/
def successors (heap : Heap) : Cell → List Cell
  | .frame id => (heap.frame id).values.flatMap fun value =>
    match value with
    | some value => value.cells
    | none => []
  | .instance id => (heap.instanceAt id).fields.values.flatMap Value.cells

/-- Whether a cell is one that programs can change: it exists, and it is not the frame of host
functions. -/
def isOpen (heap : Heap) : Cell → Bool
  | .frame id => id ≠ hostFrame && id < heap.frames.size
  | .instance id => id < heap.instances.size

/-- The cells of a heap. -/
def cells (heap : Heap) : List Cell :=
  (List.range heap.frames.size).map .frame ++ (List.range heap.instances.size).map .instance

theorem mem_cells_of_isOpen {heap : Heap} {cell : Cell} (h : heap.isOpen cell = true) :
    cell ∈ heap.cells := by
  cases cell <;> simp_all [isOpen, cells]

end Heap

/-- The weight of some cells together. -/
def totalWeight (weight : Cell → Nat) : List Cell → Nat
  | [] => 0
  | cell :: rest => weight cell + totalWeight weight rest

theorem totalWeight_filter_le (weight : Cell → Nat) (keep : Cell → Bool) (cells : List Cell) :
    totalWeight weight (cells.filter keep) ≤ totalWeight weight cells := by
  induction cells with
  | nil => exact Nat.le_refl _
  | cons cell rest ih =>
    rw [List.filter_cons]
    split <;> simp only [totalWeight] <;> omega

/-- Leaving out a cell takes its weight off that of a list. -/
theorem totalWeight_filter_ne_le (weight : Cell → Nat) {cells : List Cell} {cell : Cell}
    (mem : cell ∈ cells) :
    totalWeight weight (cells.filter (· ≠ cell)) + weight cell ≤ totalWeight weight cells := by
  induction cells with
  | nil => cases mem
  | cons other rest ih =>
    by_cases same : other = cell
    · subst same
      have := totalWeight_filter_le weight (fun cell => decide (¬cell = other)) rest
      simp only [List.filter_cons, ne_eq, not_true_eq_false, decide_false, Bool.false_eq_true,
        if_false, totalWeight]
      omega
    · have later : cell ∈ rest := (List.mem_cons.mp mem).resolve_left (Ne.symm same)
      have := ih later
      simp only [List.filter_cons, ne_eq, same, not_false_eq_true, decide_true, if_true,
        totalWeight] at this ⊢
      omega

/-- Seeing one more of some cells takes its weight off that of the unseen ones. -/
theorem totalWeight_unseen_le (weight : Cell → Nat) {cells seen : List Cell} {cell : Cell}
    (mem : cell ∈ cells) (new : cell ∉ seen) :
    totalWeight weight (cells.filter (· ∉ cell :: seen)) + weight cell ≤
      totalWeight weight (cells.filter (· ∉ seen)) := by
  have eq : cells.filter (· ∉ cell :: seen) =
      (cells.filter (· ∉ seen)).filter (· ≠ cell) := by
    rw [List.filter_filter]
    refine List.filter_congr fun other _ => ?_
    simp [not_or]
  rw [eq]
  exact totalWeight_filter_ne_le weight (by simp [mem, new])

namespace Heap

/-- The cells in `seen` and all that can be reached from the cells in `pending`. -/
def reach (heap : Heap) (pending seen : List Cell) : List Cell :=
  match pending with
  | [] => seen
  | cell :: rest =>
    if _h : heap.isOpen cell = true ∧ cell ∉ seen then
      heap.reach (heap.successors cell ++ rest) (cell :: seen)
    else heap.reach rest seen
termination_by
  totalWeight (fun cell => (heap.successors cell).length) (heap.cells.filter (· ∉ seen)) +
    pending.length
decreasing_by
  · have := totalWeight_unseen_le (fun cell => (heap.successors cell).length)
      (mem_cells_of_isOpen _h.1) _h.2
    simp only [List.length_append, List.length_cons]
    omega
  · simp

/-- The cells that can be reached from the global variables. -/
def reachable (heap : Heap) : List Cell := heap.reach [.frame globalFrame] []

end Heap

/-- The contents of some cells. -/
structure Checkpoint where
  frames : List (Nat × Bindings)
  instances : List (Nat × Table String Value)

namespace Heap

/-- The contents of a cell, if it is a frame. -/
def savedFrame? (heap : Heap) : Cell → Option (Nat × Bindings)
  | .frame id => some (id, heap.frame id)
  | .instance _ => none

/-- The fields of a cell, if it is an instance. -/
def savedInstance? (heap : Heap) : Cell → Option (Nat × Table String Value)
  | .frame _ => none
  | .instance id => some (id, (heap.instanceAt id).fields)

/-- The contents of the cells that can be reached from the global variables. -/
def checkpoint (heap : Heap) : Checkpoint where
  frames := heap.reachable.filterMap heap.savedFrame?
  instances := heap.reachable.filterMap heap.savedInstance?

/-- Gives the cells of a checkpoint their contents again. -/
def rollback (heap : Heap) (saved : Checkpoint) : Heap where
  frames := saved.frames.foldl
    (fun frames (id, bindings) => frames.setIfInBounds id bindings) heap.frames
  instances := saved.instances.foldl
    (fun instances (id, fields) => instances.modify id fun target => { target with fields })
    heap.instances

end Heap

end FlowScript
