import FlowScript.Proofs.Renaming
/-!
# Rolling the heap back

A program can reach a cell from the names it sees through the values of variables and fields, the
environments of functions, the receivers of bound methods and the methods of constructors and of
instances: these are the cells that are `Heap.Visible`.  A checkpoint does not follow the methods of
instances, and it leaves out the frame of the host, so it may miss some of them.

Main statements: rolling back gives every cell of the checkpoint its contents again
(`Heap.frame_rollback`, `Heap.fields_rollback`), and heaps that are related stay so if only visible
cells are paired (`Heap.Related.restrict`).
-/

namespace FlowScript

/-! ## Visible cells -/

namespace Heap

/-- The cells that a cell refers to, through the methods of an instance too. -/
def references (heap : Heap) : Cell → List Cell
  | .frame id => heap.successors (.frame id)
  | .instance id => heap.successors (.instance id) ++
    (heap.instanceAt id).methods.values.flatMap fun method => method.environment.map .frame

/-- The cells that a program can reach from the names it sees. -/
inductive Visible (heap : Heap) : Cell → Prop where
  | host : Visible heap (.frame hostFrame)
  | globals : Visible heap (.frame globalFrame)
  | step {cell other : Cell} (first : Visible heap cell) (second : other ∈ heap.references cell) :
    Visible heap other

/-- Cells that hold the roots and refer to each other only are all that is visible. -/
theorem Visible.mem_of_closed {heap : Heap} {cells : List Cell} {cell : Cell}
    (roots : .frame hostFrame ∈ cells ∧ .frame globalFrame ∈ cells)
    (closed : ∀ cell ∈ cells, ∀ other ∈ heap.references cell, other ∈ cells)
    (visible : heap.Visible cell) : cell ∈ cells := by
  induction visible with
  | host => exact roots.1
  | globals => exact roots.2
  | step _ second ih => exact closed _ ih _ second

/-- Whether a cell holds in one heap what it holds in another. -/
def SameAt (before after : Heap) : Cell → Prop
  | .frame id => after.frame id = before.frame id
  | .instance id => (after.instanceAt id).fields = (before.instanceAt id).fields

/-- Whether the visible cells that a checkpoint misses hold in `after` what they held before. -/
def KeepsMissed (before after : Heap) : Prop :=
  ∀ cell, before.Visible cell → cell ∉ before.reachable → before.SameAt after cell

/-- Where the cells of a checkpoint refer to each other and to the frame of the host only, nothing
else is missed. -/
theorem keepsMissed_of_closed {before after : Heap}
    (roots : .frame globalFrame ∈ before.reachable)
    (closed : ∀ cell ∈ Cell.frame hostFrame :: before.reachable,
      ∀ other ∈ before.references cell, other ∈ Cell.frame hostFrame :: before.reachable)
    (host : after.frame hostFrame = before.frame hostFrame) : before.KeepsMissed after := by
  intro cell visible missed
  have mem := Visible.mem_of_closed ⟨List.mem_cons_self, List.mem_cons_of_mem _ roots⟩ closed visible
  obtain rfl := (List.mem_cons.mp mem).resolve_right missed
  exact host

end Heap

/-! ## Restricted links -/

/-- A link that pairs only the cells of the left side that are kept. -/
def Link.restrict (link : Link) (kept : Cell → Prop) : Link where
  frame a b := link.frame a b ∧ kept (.frame a)
  object a b := link.object a b ∧ kept (.instance a)
  stamp := link.stamp

theorem Table.Related.imp_values {κ α β : Type} {relation other : α → β → Prop}
    {left : Table κ α} {right : Table κ β} (h : Table.Related relation left right)
    (imp : ∀ a ∈ left.values, ∀ b, relation a b → other a b) : Table.Related other left right := by
  obtain ⟨entries⟩ := left
  obtain ⟨others⟩ := right
  simp only [Table.Related] at h ⊢
  induction h with
  | nil => exact .nil
  | cons pair _ ih =>
    refine .cons ⟨pair.1, imp _ (by simp [Table.values]) _ pair.2⟩ (ih fun a mem => ?_)
    exact imp a (List.mem_cons_of_mem _ mem)

section Restrict

variable {link : Link} {kept : Cell → Prop}

theorem Environment.Related.restrict {left right : Environment}
    (h : Environment.Related link left right) (inside : ∀ id ∈ left, kept (.frame id)) :
    Environment.Related (link.restrict kept) left right := by
  induction h with
  | nil => exact .nil
  | cons pair _ ih =>
    exact .cons ⟨pair, inside _ (by simp)⟩ (ih fun id mem => inside id (by simp [mem]))

theorem Closure.Related.restrict {left right : Closure} (h : Closure.Related link left right)
    (inside : ∀ id ∈ left.environment, kept (.frame id)) :
    Closure.Related (link.restrict kept) left right :=
  ⟨h.stamp, h.name, h.params, h.body, h.environment.restrict inside⟩

/-- Related methods stay related if the cells of their environments are kept. -/
theorem Table.Related.restrict_methods {left right : Table String Closure}
    (h : Table.Related (Closure.Related link) left right)
    (inside : ∀ cell ∈ left.values.flatMap fun method => method.environment.map Cell.frame,
      kept cell) :
    Table.Related (Closure.Related (link.restrict kept)) left right := by
  refine h.imp_values fun method mem other related => related.restrict fun id bound => ?_
  exact inside _ (List.mem_flatMap.mpr ⟨method, mem, List.mem_map.mpr ⟨id, bound, rfl⟩⟩)

/-- Values stay related along a link that keeps their cells. -/
theorem Value.Related.restrict {left right : Value} (h : Value.Related link left right)
    (inside : ∀ cell ∈ left.cells, kept cell) : Value.Related (link.restrict kept) left right := by
  cases h with
  | nil => exact .nil
  | bool => exact .bool _
  | int => exact .int _
  | float => exact .float _
  | string => exact .string _
  | «instance» id => exact .instance ⟨id, inside _ (by simp [Value.cells])⟩
  | closure target =>
    exact .closure (target.restrict fun id mem => inside _ (by simp [Value.cells, mem]))
  | method stamp recv target =>
    exact .method stamp ⟨recv, inside _ (by simp [Value.cells])⟩
      (target.restrict fun id mem => inside _ (by simp [Value.cells, mem]))
  | constructor decl stamp same => exact .constructor decl stamp (same.restrict_methods inside)
  | host => exact .host _

/-- Heaps stay related along the kept cells if these refer to kept cells only. -/
theorem Heap.Related.restrict {left right : Heap} (heaps : Heap.Related link left right)
    (closed : ∀ cell, kept cell → ∀ other ∈ left.references cell, kept other) :
    Heap.Related (link.restrict kept) left right where
  faithful :=
    ⟨fun _ _ _ _ first second => heaps.faithful.frame first.1 second.1,
      fun _ _ _ _ first second => heaps.faithful.object first.1 second.1, heaps.faithful.stamp⟩
  framesBelow _ _ pair := heaps.framesBelow pair.1
  objectsBelow _ _ pair := heaps.objectsBelow pair.1
  frame {a b} pair := by
    refine (heaps.frame pair.1).imp_values fun value mem other related => ?_
    cases related with
    | none => exact .none
    | some related =>
      refine .some (related.restrict fun cell bound => closed _ pair.2 cell ?_)
      exact List.mem_flatMap.mpr ⟨_, mem, bound⟩
  object {a b} pair := by
    have target := heaps.object pair.1
    refine ⟨target.decl, target.fields.imp_values fun value mem other related => ?_,
      target.methods.restrict_methods fun cell bound => closed _ pair.2 cell ?_⟩
    · refine related.restrict fun cell bound => closed _ pair.2 cell ?_
      exact List.mem_append_left _ (List.mem_flatMap.mpr ⟨value, mem, bound⟩)
    · exact List.mem_append_right _ bound

end Restrict

/-! ## Checkpoints -/

/-- Setting entries whose new contents depend on their place only. -/
theorem getD_foldl_setIfInBounds {α : Type} (changes : List (Nat × α)) (contents : Nat → α)
    (agree : ∀ change ∈ changes, change.2 = contents change.1) (entries : Array α) (id : Nat)
    (default : α) :
    (changes.foldl (fun entries (id, value) => entries.setIfInBounds id value) entries).getD id
        default =
      if id ∈ changes.map Prod.fst ∧ id < entries.size then contents id
      else entries.getD id default := by
  induction changes generalizing entries with
  | nil => simp
  | cons change rest ih =>
    obtain ⟨place, value⟩ := change
    rw [List.foldl_cons, ih fun other mem => agree other (by simp [mem])]
    have first : value = contents place := agree (place, value) (by simp)
    by_cases inBounds : id < entries.size
    · by_cases same : place = id
      · subst same
        simp [inBounds, first]
      · have kept : (entries.setIfInBounds place value).getD id default = entries.getD id default := by
          simp [inBounds, same]
        simp only [kept, Array.size_setIfInBounds, List.map_cons, List.mem_cons, Ne.symm same,
          false_or]
    · simp [inBounds]

/-- Setting the fields of instances to contents that depend on the instance only. -/
theorem getD_foldl_modify (changes : List (Nat × Table String Value))
    (contents : Nat → Table String Value)
    (agree : ∀ change ∈ changes, change.2 = contents change.1) (instances : Array Instance)
    (id : Nat) :
    (changes.foldl (fun instances (id, fields) =>
        instances.modify id fun target => { target with fields }) instances).getD id default =
      if id ∈ changes.map Prod.fst ∧ id < instances.size then
        { instances.getD id default with fields := contents id }
      else instances.getD id default := by
  induction changes generalizing instances with
  | nil => simp
  | cons change rest ih =>
    obtain ⟨place, fields⟩ := change
    rw [List.foldl_cons, ih fun other mem => agree other (by simp [mem])]
    have first : fields = contents place := agree (place, fields) (by simp)
    by_cases inBounds : id < instances.size
    · by_cases same : place = id
      · subst same
        simp [inBounds, first, Array.getElem_modify]
      · have kept : (instances.modify place fun target => { target with fields }).getD id default =
            instances.getD id default := by
          simp [inBounds, same, Array.getElem_modify]
        simp only [kept, Array.size_modify, List.map_cons, List.mem_cons, Ne.symm same, false_or]
    · simp [inBounds]

namespace Heap

variable {before after : Heap} {id : Nat}

theorem mem_frames_checkpoint :
    id ∈ before.checkpoint.frames.map Prod.fst ↔ Cell.frame id ∈ before.reachable := by
  simp only [checkpoint, List.mem_map, List.mem_filterMap]
  constructor
  · rintro ⟨_, ⟨cell, mem, saved⟩, rfl⟩
    cases cell with
    | frame id =>
      cases saved
      exact mem
    | «instance» id => cases saved
  · exact fun mem => ⟨_, ⟨_, mem, rfl⟩, rfl⟩

theorem mem_instances_checkpoint :
    id ∈ before.checkpoint.instances.map Prod.fst ↔ Cell.instance id ∈ before.reachable := by
  simp only [checkpoint, List.mem_map, List.mem_filterMap]
  constructor
  · rintro ⟨_, ⟨cell, mem, saved⟩, rfl⟩
    cases cell with
    | frame id => cases saved
    | «instance» id =>
      cases saved
      exact mem
  · exact fun mem => ⟨_, ⟨_, mem, rfl⟩, rfl⟩

/-- Rolling back changes the frames of a checkpoint only. -/
theorem frame_rollback_eq_ite (id : Nat) :
    (after.rollback before.checkpoint).frame id =
      if Cell.frame id ∈ before.reachable ∧ id < after.frames.size then before.frame id
      else after.frame id := by
  have agree : ∀ change ∈ before.checkpoint.frames, change.2 = before.frame change.1 := by
    intro change mem
    obtain ⟨cell, -, eq⟩ := List.mem_filterMap.mp mem
    cases cell <;> cases eq
    rfl
  have eq := getD_foldl_setIfInBounds _ before.frame agree after.frames id Table.empty
  simp only [mem_frames_checkpoint] at eq
  exact eq

/-- Rolling back gives the frames of a checkpoint their variables again. -/
theorem frame_rollback (saved : Cell.frame id ∈ before.reachable)
    (inBounds : id < after.frames.size) :
    (after.rollback before.checkpoint).frame id = before.frame id := by
  rw [frame_rollback_eq_ite, if_pos ⟨saved, inBounds⟩]

/-- Rolling back changes no more of an instance than its fields. -/
theorem instanceAt_rollback (id : Nat) :
    (after.rollback before.checkpoint).instanceAt id =
      if Cell.instance id ∈ before.reachable ∧ id < after.instances.size then
        { after.instanceAt id with fields := (before.instanceAt id).fields }
      else after.instanceAt id := by
  have agree : ∀ change ∈ before.checkpoint.instances,
      change.2 = (before.instanceAt change.1).fields := by
    intro change mem
    obtain ⟨cell, -, eq⟩ := List.mem_filterMap.mp mem
    cases cell <;> cases eq
    rfl
  have eq := getD_foldl_modify _ (fun id => (before.instanceAt id).fields) agree after.instances id
  simp only [mem_instances_checkpoint] at eq
  exact eq

/-- Rolling back gives the instances of a checkpoint their fields again. -/
theorem fields_rollback (saved : Cell.instance id ∈ before.reachable)
    (inBounds : id < after.instances.size) :
    ((after.rollback before.checkpoint).instanceAt id).fields = (before.instanceAt id).fields := by
  rw [instanceAt_rollback, if_pos ⟨saved, inBounds⟩]

theorem decl_rollback :
    ((after.rollback before.checkpoint).instanceAt id).decl = (after.instanceAt id).decl := by
  rw [instanceAt_rollback]
  split <;> rfl

theorem methods_rollback :
    ((after.rollback before.checkpoint).instanceAt id).methods = (after.instanceAt id).methods := by
  rw [instanceAt_rollback]
  split <;> rfl

theorem size_frames_rollback (saved : Checkpoint) :
    (after.rollback saved).frames.size = after.frames.size := by
  simp only [rollback]
  generalize after.frames = frames
  induction saved.frames generalizing frames with
  | nil => rfl
  | cons change rest ih => rw [List.foldl_cons, ih, Array.size_setIfInBounds]

theorem size_instances_rollback (saved : Checkpoint) :
    (after.rollback saved).instances.size = after.instances.size := by
  simp only [rollback]
  generalize after.instances = instances
  induction saved.instances generalizing instances with
  | nil => rfl
  | cons change rest ih => rw [List.foldl_cons, ih, Array.size_modify]

/-- A heap that a program has grown and that is rolled back is related, along the visible cells, to
every heap that the heap before was related to: unless the program changed a cell that the checkpoint
misses. -/
theorem Related.rollback {link : Link} {right : Heap} (heaps : Heap.Related link before right)
    (grows : before.Grows after) (keeps : before.KeepsMissed (after.rollback before.checkpoint)) :
    Heap.Related (link.restrict before.Visible) (after.rollback before.checkpoint) right := by
  have restricted := heaps.restrict fun cell visible other mem => Visible.step visible mem
  refine ⟨restricted.faithful, ?_, ?_, ?_, ?_⟩
  · rw [size_frames_rollback]
    exact restricted.framesBelow.mono grows.frames (Nat.le_refl _)
  · rw [size_instances_rollback]
    exact restricted.objectsBelow.mono grows.instances (Nat.le_refl _)
  · intro a b pair
    have inBounds := Nat.lt_of_lt_of_le (restricted.framesBelow pair).1 grows.frames
    -- the frame is one that the checkpoint saved, or one that it misses and the program kept
    have same : (after.rollback before.checkpoint).frame a = before.frame a := by
      by_cases saved : Cell.frame a ∈ before.reachable
      · exact frame_rollback saved inBounds
      · exact keeps _ pair.2 saved
    rw [same]
    exact restricted.frame pair
  · intro a b pair
    have old := (restricted.objectsBelow pair).1
    have inBounds := Nat.lt_of_lt_of_le old grows.instances
    have same : ((after.rollback before.checkpoint).instanceAt a).fields =
        (before.instanceAt a).fields := by
      by_cases saved : Cell.instance a ∈ before.reachable
      · exact fields_rollback saved inBounds
      · exact keeps _ pair.2 saved
    have target := restricted.object pair
    refine ⟨?_, ?_, ?_⟩
    · rw [decl_rollback, grows.decl a old]
      exact target.decl
    · rw [same]
      exact target.fields
    · rw [methods_rollback, grows.methods a old]
      exact target.methods

end Heap

end FlowScript
