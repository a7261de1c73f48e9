import FlowScript.Proofs.Link
/-!
# Machines that differ in the numbers of their cells

`Heap.Related link` says that two heaps are the same along a link: the cells that it pairs hold the
same up to the link, which pairs every cell with at most one other.  Cells that the link does not
pair may hold anything.  `Machine.Related` adds what else a program can observe.

Main statements: related values are shown alike and are of the same types
(`Heap.Related.display`, `Heap.Related.hasType`), and the primitive steps of evaluation keep machines
related (`Machine.Related.bind`, `Machine.Related.pushFrame` and their companions).
-/

namespace FlowScript

/-! ## Related heaps -/

/-- Heaps that are the same along a link. -/
structure Heap.Related (link : Link) (left right : Heap) : Prop where
  faithful : link.Faithful
  framesBelow : Link.Below link.frame left.frames.size right.frames.size
  objectsBelow : Link.Below link.object left.instances.size right.instances.size
  frame : ∀ {a b}, link.frame a b → Bindings.Related link (left.frame a) (right.frame b)
  object : ∀ {a b}, link.object a b → Instance.Related link (left.instanceAt a) (right.instanceAt b)

namespace Heap.Related

variable {link : Link} {left right : Heap}

variable (heaps : Heap.Related link left right)

include heaps

/-- Corresponding environments find a name at the same place, with related contents. -/
theorem lookup? (name : String)
    {env other : Environment} (related : Environment.Related link env other) :
    Option.Rel (Option.Rel (Value.Related link)) (left.lookup? name env)
      (right.lookup? name other) := by
  simp only [Heap.lookup?]
  induction related with
  | nil => exact .none
  | cons frames _ ih =>
    have found := (heaps.frame frames).find? name
    simp only [List.findSome?_cons]
    cases hl : (left.frame _).find? name <;> cases hr : (right.frame _).find? name <;>
      rw [hl, hr] at found
    · exact ih
    · cases found
    · cases found
    · exact found

/-- Corresponding environments have the owner of a name at the same place. -/
theorem owner? (name : String)
    {env other : Environment} (related : Environment.Related link env other) :
    Option.Rel link.frame (left.owner? name env) (right.owner? name other) := by
  simp only [Heap.owner?]
  induction related with
  | nil => exact .none
  | @cons a b _ _ frames _ ih =>
    have same : (left.frame a).contains name = (right.frame b).contains name :=
      (heaps.frame frames).contains name
    simp only [List.find?_cons, same]
    cases (right.frame b).contains name
    · exact ih
    · exact .some frames

/-- Related values are of the same types. -/
theorem hasType {value other : Value} (related : Value.Related link value other) (ty : Ty) :
    value.hasType left ty = other.hasType right ty := by
  cases ty with
  | nilable inner =>
    have ih := hasType related inner
    cases related <;> simp_all [Value.hasType]
  | struct name =>
    cases related <;> simp only [Value.hasType]
    rw [(heaps.object ‹_›).decl]
  | trait name =>
    cases related <;> simp only [Value.hasType]
    rw [(heaps.object ‹_›).decl]
  | int | float | bool | string | nil | unknown | any | error | function =>
    cases related <;> rfl

omit heaps in
/-- Fields that are related, and whose values are shown alike, are shown alike. -/
theorem displayFields {inner other : Value → Except Failure String}
    (same : ∀ a b, Value.Related link a b → inner a = other b)
    {fields others : List (String × Value)}
    (related : List.Forall₂ (fun p q => p.1 = q.1 ∧ Value.Related link p.2 q.2) fields others) :
    Value.displayFields inner fields = Value.displayFields other others := by
  induction related with
  | nil => rfl
  | @cons p q _ _ pair _ ih =>
    obtain ⟨name, a⟩ := p
    obtain ⟨_, b⟩ := q
    obtain ⟨rfl, value⟩ := pair
    have shown := same a b value
    cases value <;> simp only [Value.displayFields, ih, shown]

/-- Related values are shown alike, however deep structs may nest. -/
theorem displayAt (levels : Nat) {value other : Value} (related : Value.Related link value other) :
    value.displayAt left levels = other.displayAt right levels := by
  induction levels generalizing value other with
  | zero =>
    cases related with
    | closure target => simp only [Value.displayAt, target.name]
    | method _ recv target =>
      simp only [Value.displayAt, target.name, (heaps.object recv).decl]
    | _ => simp only [Value.displayAt]
  | succ levels ih =>
    cases related with
    | closure target => simp only [Value.displayAt, target.name]
    | method _ recv target =>
      simp only [Value.displayAt, target.name, (heaps.object recv).decl]
    | «instance» id =>
      have target := heaps.object id
      simp only [Value.displayAt, target.decl]
      rw [displayFields (fun a b value => ih value) target.fields]
    | _ => simp only [Value.displayAt]

/-- Related values are shown alike. -/
theorem display {value other : Value}
    (related : Value.Related link value other) : value.display left = other.display right :=
  displayAt heaps _ related

end Heap.Related

/-! ## Growing heaps -/

/-- What evaluation does to any heap: cells are added and none is removed, and an instance stays one
of its struct with its methods. -/
structure Heap.Grows (before after : Heap) : Prop where
  frames : before.frames.size ≤ after.frames.size
  instances : before.instances.size ≤ after.instances.size
  decl : ∀ id < before.instances.size, (after.instanceAt id).decl = (before.instanceAt id).decl
  methods : ∀ id < before.instances.size,
    (after.instanceAt id).methods = (before.instanceAt id).methods

namespace Heap.Grows

theorem refl (heap : Heap) : heap.Grows heap :=
  ⟨Nat.le_refl _, Nat.le_refl _, fun _ _ => rfl, fun _ _ => rfl⟩

theorem trans {first second third : Heap} (before : first.Grows second)
    (after : second.Grows third) : first.Grows third where
  frames := Nat.le_trans before.frames after.frames
  instances := Nat.le_trans before.instances after.instances
  decl id inBounds := by
    rw [after.decl id (Nat.lt_of_lt_of_le inBounds before.instances), before.decl id inBounds]
  methods id inBounds := by
    rw [after.methods id (Nat.lt_of_lt_of_le inBounds before.instances),
      before.methods id inBounds]

theorem bind (heap : Heap) (id : Nat) (name : String) (value : Option Value) :
    heap.Grows (heap.bind id name value) :=
  ⟨by simp, Nat.le_refl _, fun _ _ => rfl, fun _ _ => rfl⟩

theorem pushFrame (heap : Heap) (bindings : Bindings) : heap.Grows (heap.pushFrame bindings) :=
  ⟨by simp [Heap.pushFrame], Nat.le_refl _, fun _ _ => rfl, fun _ _ => rfl⟩

theorem pushInstance (heap : Heap) (value : Instance) : heap.Grows (heap.pushInstance value) where
  frames := Nat.le_refl _
  instances := by simp [Heap.pushInstance]
  decl id inBounds := by rw [heap.instanceAt_pushInstance value inBounds]
  methods id inBounds := by rw [heap.instanceAt_pushInstance value inBounds]

theorem setField (heap : Heap) {id : Nat} (field : String) (value : Value)
    (inBounds : id < heap.instances.size) : heap.Grows (heap.setField id field value) where
  frames := Nat.le_refl _
  instances := by simp
  decl other _ := by
    rw [heap.instanceAt_setField_of_lt field value other inBounds]
    split <;> simp_all
  methods other _ := by
    rw [heap.instanceAt_setField_of_lt field value other inBounds]
    split <;> simp_all

end Heap.Grows

/-! ## Related machines -/

namespace Link

/-- A link that also pairs two frames. -/
def addFrame (link : Link) (left right : Nat) : Link :=
  { link with frame := Extended link.frame left right }

/-- A link that also pairs two instances. -/
def addObject (link : Link) (left right : Nat) : Link :=
  { link with object := Extended link.object left right }

/-- A link that also pairs two stamps. -/
def addStamp (link : Link) (left right : Nat) : Link :=
  { link with stamp := Extended link.stamp left right }

theorem le_addFrame (link : Link) (left right : Nat) : link.Le (link.addFrame left right) :=
  ⟨fun _ _ => .inl, fun _ _ h => h, fun _ _ h => h⟩

theorem le_addObject (link : Link) (left right : Nat) : link.Le (link.addObject left right) :=
  ⟨fun _ _ h => h, fun _ _ => .inl, fun _ _ h => h⟩

theorem le_addStamp (link : Link) (left right : Nat) : link.Le (link.addStamp left right) :=
  ⟨fun _ _ h => h, fun _ _ h => h, fun _ _ => .inl⟩

end Link

/-- Machines in the same situation whose heaps are the same along a link. -/
structure Machine.Related (link : Link) (left right : Machine) : Prop where
  heap : Heap.Related link left.heap right.heap
  depth : left.depth = right.depth
  output : left.output = right.output
  stampsBelow : Link.Below link.stamp left.nextStamp right.nextStamp

namespace Machine.Related

variable {link : Link} {left right : Machine}

variable (machines : Machine.Related link left right)

include machines

/-- Binding a variable of corresponding frames to related contents. -/
theorem bind {a b : Nat} (frames : link.frame a b) (name : String) {value other : Option Value}
    (related : Option.Rel (Value.Related link) value other) :
    Machine.Related link { left with heap := left.heap.bind a name value }
      { right with heap := right.heap.bind b name other } := by
  obtain ⟨heaps, depth, output, stamps⟩ := machines
  obtain ⟨ha, hb⟩ := heaps.framesBelow frames
  refine ⟨⟨heaps.faithful, ?_, heaps.objectsBelow, ?_, heaps.object⟩, depth, output, stamps⟩
  · intro c d pair
    simpa using heaps.framesBelow pair
  · intro c d pair
    have same : c = a ↔ d = b := heaps.faithful.frame pair frames
    rw [Heap.frame_bind _ name value c ha, Heap.frame_bind _ name other d hb]
    by_cases hc : c = a
    · rw [if_pos hc, if_pos (same.mp hc)]
      exact (heaps.frame frames).insert name related
    · rw [if_neg hc, if_neg fun hd => hc (same.mpr hd)]
      exact heaps.frame pair

/-- Setting a field of corresponding instances to related values. -/
theorem setField {a b : Nat} (objects : link.object a b) (field : String) {value other : Value}
    (related : Value.Related link value other) :
    Machine.Related link { left with heap := left.heap.setField a field value }
      { right with heap := right.heap.setField b field other } := by
  obtain ⟨heaps, depth, output, stamps⟩ := machines
  obtain ⟨ha, hb⟩ := heaps.objectsBelow objects
  refine ⟨⟨heaps.faithful, heaps.framesBelow, ?_, heaps.frame, ?_⟩, depth, output, stamps⟩
  · intro c d pair
    simpa using heaps.objectsBelow pair
  · intro c d pair
    have same : c = a ↔ d = b := heaps.faithful.object pair objects
    rw [Heap.instanceAt_setField_of_lt _ field value c ha, Heap.instanceAt_setField_of_lt _ field other d hb]
    by_cases hc : c = a
    · rw [if_pos hc, if_pos (same.mp hc)]
      have target := heaps.object objects
      exact ⟨target.decl, target.fields.insert field related, target.methods⟩
    · rw [if_neg hc, if_neg fun hd => hc (same.mpr hd)]
      exact heaps.object pair

/-- New frames with related variables correspond. -/
theorem pushFrame {bindings others : Bindings} (related : Bindings.Related link bindings others) :
    Machine.Related (link.addFrame left.heap.frames.size right.heap.frames.size)
      { left with heap := left.heap.pushFrame bindings }
      { right with heap := right.heap.pushFrame others } := by
  obtain ⟨heaps, depth, output, stamps⟩ := machines
  have le := link.le_addFrame left.heap.frames.size right.heap.frames.size
  have faithful : (link.addFrame left.heap.frames.size right.heap.frames.size).Faithful :=
    ⟨heaps.faithful.frame.extended heaps.framesBelow, heaps.faithful.object, heaps.faithful.stamp⟩
  refine ⟨⟨faithful, ?_, heaps.objectsBelow, ?_, fun pair => (heaps.object pair).mono le⟩, depth,
    output, stamps⟩
  · simpa [Heap.pushFrame, Link.addFrame] using heaps.framesBelow.extended
  · rintro c d (pair | ⟨rfl, rfl⟩)
    · obtain ⟨hc, hd⟩ := heaps.framesBelow pair
      rw [Heap.frame_pushFrame _ _ hc, Heap.frame_pushFrame _ _ hd]
      exact (heaps.frame pair).mono le
    · simpa using related.mono le

/-- New instances that are related correspond. -/
theorem pushInstance {value other : Instance} (related : Instance.Related link value other) :
    Machine.Related (link.addObject left.heap.instances.size right.heap.instances.size)
      { left with heap := left.heap.pushInstance value }
      { right with heap := right.heap.pushInstance other } := by
  obtain ⟨heaps, depth, output, stamps⟩ := machines
  have le := link.le_addObject left.heap.instances.size right.heap.instances.size
  have faithful : (link.addObject left.heap.instances.size right.heap.instances.size).Faithful :=
    ⟨heaps.faithful.frame, heaps.faithful.object.extended heaps.objectsBelow,
      heaps.faithful.stamp⟩
  refine ⟨⟨faithful, heaps.framesBelow, ?_, fun pair => (heaps.frame pair).mono le, ?_⟩, depth,
    output, stamps⟩
  · simpa [Heap.pushInstance, Link.addObject] using heaps.objectsBelow.extended
  · rintro c d (pair | ⟨rfl, rfl⟩)
    · obtain ⟨hc, hd⟩ := heaps.objectsBelow pair
      rw [Heap.instanceAt_pushInstance _ _ hc, Heap.instanceAt_pushInstance _ _ hd]
      exact (heaps.object pair).mono le
    · simpa using related.mono le

/-- The next stamps correspond. -/
theorem freshStamp :
    Machine.Related (link.addStamp left.nextStamp right.nextStamp)
      { left with nextStamp := left.nextStamp + 1 }
      { right with nextStamp := right.nextStamp + 1 } := by
  obtain ⟨heaps, depth, output, stamps⟩ := machines
  have le := link.le_addStamp left.nextStamp right.nextStamp
  have faithful : (link.addStamp left.nextStamp right.nextStamp).Faithful :=
    ⟨heaps.faithful.frame, heaps.faithful.object, heaps.faithful.stamp.extended stamps⟩
  exact ⟨⟨faithful, heaps.framesBelow, heaps.objectsBelow, fun pair => (heaps.frame pair).mono le,
    fun pair => (heaps.object pair).mono le⟩, depth, output, stamps.extended⟩

end Machine.Related

end FlowScript
