import FlowScript.Proofs.CheckLogic
/-!
# How the state of checking evolves

While a program is checked the state only grows.  New names get new numbers and new frames hold new
names only; of a name that is known nothing changes but its type, and that only while the type is
unknown, or for a function whose body waits to be checked.  The same holds of the fields of structs.

`Analyzer.Grows` says this of two states, `Analyzer.Evolves` adds that the later state is at the same
site and well formed.  Names are declared in the innermost frame at a site, which is the only frame
that a statement changes; an expression changes none.

Main statements: both are transitive, and the primitive changes of the state keep both; what is visible
at a site stays the same outside of the frame in which names are declared (`Analyzer.Evolves.lookup?_eq`).
-/

namespace FlowScript

/-- Whether a type is that of a function. -/
def Ty.isFunction : Ty → Bool
  | .function .. => true
  | _ => false

theorem Ty.eq_unknown : ∀ {ty : Ty}, ty.isUnknown = true → ty = .unknown
  | .unknown, _ => rfl

/-! ## Well-formed states -/

/-- A struct of a name whose fields are declared once and whose methods have function types. -/
structure StructInfo.WellFormed (info : StructInfo) (name : String) : Prop where
  name : info.decl.name = name
  fields : info.fields.keys.Nodup
  methods : ∀ name signature, info.methods.find? name = some signature → signature.isFunction = true

namespace StructInfo.WellFormed

variable {info : StructInfo} {name : String}

theorem insertField (h : info.WellFormed name) (field : String) (ty : Ty) :
    StructInfo.WellFormed { info with fields := info.fields.insert field ty } name :=
  ⟨h.name, Table.nodup_keys_insert h.fields field ty, h.methods⟩

theorem insertMethod (h : info.WellFormed name) (method : String) {sig : Ty}
    (fn : sig.isFunction = true) :
    StructInfo.WellFormed { info with methods := info.methods.insert method sig } name := by
  refine ⟨h.name, h.fields, fun other found eq => ?_⟩
  rw [Table.find?_insert] at eq
  split at eq
  · cases eq
    exact fn
  · exact h.methods other found eq

end StructInfo.WellFormed

/-- What is known of a struct stays, but for fields whose type is unknown. -/
structure StructInfo.Evolves (before after : StructInfo) : Prop where
  decl : after.decl = before.decl
  traits : after.traits = before.traits
  missing : ∀ field, before.fields.find? field = none → after.fields.find? field = none
  field : ∀ field ty, before.fields.find? field = some ty →
    ∃ later, after.fields.find? field = some later ∧ (ty = .unknown ∨ later = ty)
  methods : ∀ method, before.methods.contains method = true → after.methods.contains method = true

namespace StructInfo.Evolves

variable {first second third : StructInfo}

theorem refl (info : StructInfo) : info.Evolves info :=
  ⟨rfl, rfl, fun _ none => none, fun _ ty found => ⟨ty, found, .inr rfl⟩, fun _ listed => listed⟩

theorem trans (left : first.Evolves second) (right : second.Evolves third) :
    first.Evolves third := by
  refine ⟨right.decl.trans left.decl, right.traits.trans left.traits,
    fun field none => right.missing field (left.missing field none), fun field ty found => ?_,
    fun method listed => right.methods method (left.methods method listed)⟩
  obtain ⟨mid, foundMiddle, step⟩ := left.field field ty found
  obtain ⟨later, foundLater, next⟩ := right.field field mid foundMiddle
  refine ⟨later, foundLater, ?_⟩
  rcases step with unknown | rfl
  · exact .inl unknown
  · exact next

/-- A field that has no type gets one. -/
theorem insertUnknown {info : StructInfo} {field : String}
    (unknown : info.fields.find? field = some .unknown) (ty : Ty) :
    info.Evolves { info with fields := info.fields.insert field ty } := by
  refine ⟨rfl, rfl, fun other none => ?_, fun other before found => ?_, fun _ listed => listed⟩
  · rw [Table.find?_insert_of_ne]
    · exact none
    · rintro rfl
      rw [unknown] at none
      cases none
  · rw [Table.find?_insert]
    split
    · rename_i same
      subst same
      rw [unknown] at found
      cases found
      exact ⟨ty, rfl, .inl rfl⟩
    · exact ⟨before, found, .inr rfl⟩

/-- A method gets its type. -/
theorem insertMethod (info : StructInfo) (method : String) (sig : Ty) :
    info.Evolves { info with methods := info.methods.insert method sig } := by
  refine ⟨rfl, rfl, fun _ none => none, fun _ ty found => ⟨ty, found, .inr rfl⟩, fun other listed => ?_⟩
  rw [Table.contains_insert, listed, Bool.or_true]

end StructInfo.Evolves

namespace Analyzer

/-- The frame in which names are declared. -/
def scope (a : Analyzer) : Nat := a.site.frames.headD globalFrame

/-- Whether a function with a body is declared: a named function as such, a method in its struct. -/
def Knows (a : Analyzer) : FunctionKey → Prop
  | .function id => id < a.symbols.size ∧ (a.symbolAt id).kind = .function
  | .method sname name =>
    ∃ info, a.structs.find? sname = some info ∧ info.methods.contains name = true

/-- A state in which all that is referred to exists and is what it is taken for. -/
structure WellFormed (analyzer : Analyzer) : Prop where
  outermost : globalFrame < analyzer.frames.size
  visible : ∀ id ∈ analyzer.site.frames, id < analyzer.frames.size
  /-- Names are never declared among the host functions. -/
  scope : analyzer.scope ≠ hostFrame
  names : ∀ id, ∀ entry ∈ (analyzer.frame id).symbols.entries,
    entry.2.name = entry.1 ∧ entry.2.id < analyzer.symbols.size ∧
      (analyzer.symbol entry.2).name = entry.1
  hosts : ∀ ref ∈ (analyzer.frame hostFrame).symbols.values, (analyzer.symbol ref).kind = .host
  functions : ∀ id < analyzer.symbols.size, (analyzer.symbolAt id).kind = .function →
    (analyzer.symbolAt id).ty.isFunction = true
  waiting : ∀ key function, analyzer.pending.find? key = some function →
    (∀ id ∈ function.site.frames, id < analyzer.frames.size) ∧ analyzer.Knows key
  /-- A body that is being checked does not wait any more. -/
  running : ∀ key, analyzer.active.contains key = true →
    analyzer.Knows key ∧ analyzer.pending.contains key = false
  /-- What a struct's name stands for is declared. -/
  constructors : ∀ id < analyzer.symbols.size, (analyzer.symbolAt id).kind = .struct →
    analyzer.structs.contains (analyzer.symbolAt id).name = true
  distinct : analyzer.structs.keys.Nodup
  structs : ∀ name info, analyzer.structs.find? name = some info → info.WellFormed name
  traits : ∀ name info, analyzer.traits.find? name = some info →
    ∀ method signature, info.methods.find? method = some signature → signature.isFunction = true
  /-- No type has the name of a primitive one. -/
  plain : ∀ name, analyzer.structs.contains name = true ∨ analyzer.traits.contains name = true →
    Ty.primitive? name = none
  /-- No struct has the name of a trait. -/
  disjoint : ∀ name, analyzer.structs.contains name = true → analyzer.traits.contains name = false

/-- The names whose types may change: functions whose bodies wait to be checked, and variables in
scope somewhere that have no type yet. -/
def MayRetype (a : Analyzer) (id : Nat) : Prop :=
  a.pending.contains (.function id) = true ∨
    ((a.symbolAt id).ty = .unknown ∧
      (a.symbolAt id).kind.isMutable = true ∧
      ∃ frame, ∃ ref ∈ (a.frame frame).symbols.values, ref.id = id)

/-- A later state, where names were declared in frames that are new or in the frame `scope`. -/
structure Grows (scope : Option Nat) (before after : Analyzer) : Prop where
  frameCount : before.frames.size ≤ after.frames.size
  frame : ∀ id < before.frames.size, scope ≠ some id → after.frame id = before.frame id
  kept : ∀ id name ref, (before.frame id).symbols.find? name = some ref →
    (after.frame id).symbols.find? name = some ref
  added : ∀ id, ∀ ref ∈ (after.frame id).symbols.values,
    ref ∈ (before.frame id).symbols.values ∨ before.symbols.size ≤ ref.id
  nameCount : before.symbols.size ≤ after.symbols.size
  name : ∀ id < before.symbols.size, ∃ ty,
    after.symbolAt id = { before.symbolAt id with ty } ∧
      (ty = (before.symbolAt id).ty ∨ before.MayRetype id)
  pending : ∀ id, after.pending.contains (.function id) = true →
    before.pending.contains (.function id) = true ∨ before.symbols.size ≤ id
  structs : ∀ name info, before.structs.find? name = some info →
    ∃ later, after.structs.find? name = some later ∧ info.Evolves later
  traits : ∀ name info, before.traits.find? name = some info → after.traits.find? name = some info
  active : ∀ key, after.active.find? key = before.active.find? key
  unstable : after.unstable = before.unstable

/-- The frame in which names may be declared: the one at the site, or none. -/
def openScope (a : Analyzer) (declares : Bool) : Option Nat :=
  if declares then some a.scope else none

/-- A later state at the same site; `declares` tells whether names may be declared there. -/
structure Evolves (declares : Bool) (before after : Analyzer) : Prop where
  wellFormed : after.WellFormed
  site : after.site = before.site
  grows : Grows (before.openScope declares) before after

/-- The state `inner` is at a site with a new frame inside of the frames `outer`, and else like `before`
but for what is known there and for the bodies that are being checked. -/
structure Enters (outer contexts : List Nat) (before inner : Analyzer) : Prop where
  frames : inner.frames = before.frames.push {}
  site : inner.site = ⟨before.frames.size :: outer, contexts⟩
  symbols : inner.symbols = before.symbols
  pending : inner.pending = before.pending
  structs : inner.structs = before.structs
  traits : inner.traits = before.traits
  unstable : inner.unstable = before.unstable

namespace MayRetype

variable {scope : Option Nat} {before after : Analyzer} {id : Nat}

/-- What may change later could change before. -/
theorem of_grows (grows : before.Grows scope after) (old : id < before.symbols.size)
    (may : after.MayRetype id) : before.MayRetype id := by
  obtain ⟨ty, eq, step⟩ := grows.name id old
  rcases may with waits | ⟨unknown, assignable, frame, ref, mem, rfl⟩
  · rcases grows.pending id waits with waited | new
    · exact .inl waited
    · omega
  · rcases step with rfl | may
    · rw [eq] at unknown assignable
      rcases grows.added frame ref mem with known | new
      · exact .inr ⟨unknown, assignable, frame, ref, known, rfl⟩
      · omega
    · exact may

end MayRetype

namespace Grows

variable {scope inner : Option Nat} {base before after a other : Analyzer}

theorem refl (scope : Option Nat) (a : Analyzer) : a.Grows scope a where
  frameCount := Nat.le_refl _
  frame _ _ _ := rfl
  kept _ _ _ found := found
  added _ _ mem := .inl mem
  nameCount := Nat.le_refl _
  name _ _ := ⟨_, rfl, .inl rfl⟩
  pending _ waits := .inl waits
  structs _ info found := ⟨info, found, .refl info⟩
  traits _ _ found := found
  active _ := rfl
  unstable := rfl

/-- One stretch after another, the second of which changes no old frame that the first must not. -/
theorem trans (first : base.Grows scope before) (second : before.Grows inner after)
    (within : ∀ id < base.frames.size, inner = some id → scope = some id) :
    base.Grows scope after where
  frameCount := Nat.le_trans first.frameCount second.frameCount
  frame id old closed := by
    rw [second.frame id (Nat.lt_of_lt_of_le old first.frameCount)
      fun opened => closed (within id old opened)]
    exact first.frame id old closed
  kept id name ref found := second.kept id name ref (first.kept id name ref found)
  added id ref mem := by
    rcases second.added id ref mem with mem | new
    · exact first.added id ref mem
    · exact .inr (Nat.le_trans first.nameCount new)
  nameCount := Nat.le_trans first.nameCount second.nameCount
  name id old := by
    obtain ⟨ty, eq, step⟩ := first.name id old
    obtain ⟨later, eqLater, next⟩ := second.name id (Nat.lt_of_lt_of_le old first.nameCount)
    refine ⟨later, by rw [eqLater, eq], ?_⟩
    rcases next with rfl | may
    · rw [eq]
      exact step
    · exact .inr (.of_grows first old may)
  pending id waits := by
    rcases second.pending id waits with waited | new
    · exact first.pending id waited
    · exact .inr (Nat.le_trans first.nameCount new)
  structs name info found := by
    obtain ⟨mid, foundMiddle, step⟩ := first.structs name info found
    obtain ⟨later, foundLater, next⟩ := second.structs name mid foundMiddle
    exact ⟨later, foundLater, step.trans next⟩
  traits name info found := second.traits name info (first.traits name info found)
  active key := (second.active key).trans (first.active key)
  unstable := second.unstable.trans first.unstable

variable (h : base.Grows scope a)

include h

/-- Only some parts of the state matter. -/
theorem congr (frames : other.frames = a.frames)
    (symbols : other.symbols = a.symbols) (pending : other.pending = a.pending)
    (structs : other.structs = a.structs) (traits : other.traits = a.traits)
    (active : other.active = a.active) (unstable : other.unstable = a.unstable) :
    base.Grows scope other := by
  cases a
  cases other
  cases frames
  cases symbols
  cases pending
  cases structs
  cases traits
  cases active
  cases unstable
  exact { h with }

/-- What is declared stays so. -/
theorem knows {key : FunctionKey} (known : base.Knows key) :
    a.Knows key := by
  cases key with
  | function id =>
    obtain ⟨old, kind⟩ := known
    obtain ⟨ty, eq, -⟩ := h.name id old
    refine ⟨Nat.lt_of_lt_of_le old h.nameCount, ?_⟩
    rw [eq]
    exact kind
  | method sname name =>
    obtain ⟨info, found, listed⟩ := known
    obtain ⟨later, foundLater, step⟩ := h.structs sname info found
    exact ⟨later, foundLater, step.methods name listed⟩

/-- Structs stay declared. -/
theorem contains_structs {name : String}
    (known : base.structs.contains name = true) : a.structs.contains name = true := by
  obtain ⟨info, found⟩ := Option.isSome_iff_exists.mp known
  obtain ⟨later, foundLater, -⟩ := h.structs name info found
  exact Option.isSome_iff_exists.mpr ⟨later, foundLater⟩

/-- The bodies that are being checked are others before and after, and the same ones each time. -/
theorem setActive {first last : Table FunctionKey Nat} (same : ∀ key, last.find? key = first.find? key) :
    Grows scope { base with active := first } { a with active := last } :=
  { h with active := same }

/-- A name that is new, or that may be retyped, gets another type. -/
theorem modifySymbol {id : Nat} (f : Symbol → Symbol) (allowed : base.symbols.size ≤ id ∨
      (base.MayRetype id ∧ ∀ symbol, ∃ ty, f symbol = { symbol with ty })) :
    base.Grows scope (a.modifySymbol id f) :=
  { h with
    nameCount := by simpa [Analyzer.modifySymbol] using h.nameCount
    name other old := by
      obtain ⟨ty, eq, step⟩ := h.name other old
      rw [symbolAt_modifySymbol, eq]
      split
      · rename_i same
        obtain ⟨rfl, -⟩ := same
        obtain ⟨may, retypes⟩ := allowed.resolve_left (by omega)
        obtain ⟨later, retyped⟩ := retypes { base.symbolAt id with ty }
        exact ⟨later, retyped, .inr may⟩
      · exact ⟨ty, rfl, step⟩ }

omit h in
theorem symbolAt_push (a : Analyzer) (symbol : Symbol) {id : Nat}
    (old : id < a.symbols.size) :
    symbolAt { a with symbols := a.symbols.push symbol } id =
      a.symbolAt id := by
  simp [symbolAt, Array.getElem?_push, Nat.ne_of_lt old]

/-- A name is added. -/
theorem pushSymbol (symbol : Symbol) :
    base.Grows scope { a with symbols := a.symbols.push symbol } :=
  { h with
    nameCount := by
      have := h.nameCount
      simp only [Array.size_push]
      omega
    name id old := by
      have older : id < a.symbols.size := Nat.lt_of_lt_of_le old h.nameCount
      rw [symbolAt_push _ _ older]
      exact h.name id old }

/-- The frame in which names are declared is changed: names that are there stay, and others are
new. -/
theorem modifyFrame {id : Nat} (f : Frame → Frame) (opened : scope = some id)
    (kept : ∀ name ref, (a.frame id).symbols.find? name = some ref →
      (f (a.frame id)).symbols.find? name = some ref)
    (new : ∀ ref ∈ (f (a.frame id)).symbols.values,
      base.symbols.size ≤ ref.id ∨ ref ∈ (a.frame id).symbols.values) :
    base.Grows scope (a.modifyFrame id f) :=
  { h with
    frameCount := by simpa [Analyzer.modifyFrame] using h.frameCount
    frame other old closed := by
      have ne : id ≠ other := fun same => closed (same ▸ opened)
      rw [frame_modifyFrame, if_neg fun both => ne both.1]
      exact h.frame other old closed
    kept other name ref found := by
      have found := h.kept other name ref found
      rw [frame_modifyFrame]
      split
      · rename_i same
        obtain ⟨rfl, -⟩ := same
        exact kept name ref found
      · exact found
    added other ref mem := by
      rw [frame_modifyFrame] at mem
      split at mem
      · rename_i same
        obtain ⟨rfl, -⟩ := same
        rcases new ref mem with fresh | known
        · exact .inr fresh
        · exact h.added id ref known
      · exact h.added other ref mem }

omit h in
theorem frame_push (a : Analyzer) (id : Nat) :
    Analyzer.frame { a with frames := a.frames.push {} } id = a.frame id := by
  by_cases same : id = a.frames.size
  · subst same
    simp only [Analyzer.frame, Array.getD_eq_getD_getElem?, Array.getElem?_push_size,
      Array.getElem?_size]
    rfl
  · simp [Analyzer.frame, Array.getElem?_push, same]

/-- An empty frame is added. -/
theorem pushFrame :
    base.Grows scope { a with frames := a.frames.push {} } :=
  { h with
    frameCount := by
      have := h.frameCount
      simp only [Array.size_push]
      omega
    frame id old closed := by
      rw [frame_push]
      exact h.frame id old closed
    kept id name ref found := by
      rw [frame_push]
      exact h.kept id name ref found
    added id ref mem := by
      rw [frame_push] at mem
      exact h.added id ref mem }

/-- A function waits for its body to be checked; its name is new if it has a number. -/
theorem insertPending {key : FunctionKey}
    (fn : PendingFunction) (new : ∀ id, key = .function id → base.symbols.size ≤ id) :
    base.Grows scope { a with pending := a.pending.insert key fn } :=
  { h with
    pending id waits := by
      simp only [Table.contains_insert, Bool.or_eq_true, decide_eq_true_eq] at waits
      rcases waits with same | old
      · exact .inr (new id same)
      · exact h.pending id old }

/-- A function does not wait any more. -/
theorem erasePending (key : FunctionKey) :
    base.Grows scope { a with pending := a.pending.erase key } :=
  { h with
    pending id waits := by
      simp only [Table.contains_erase, Bool.and_eq_true] at waits
      exact h.pending id waits.2 }

/-- A struct is added, or changed in a way in which structs evolve. -/
theorem insertStruct {name : String} (info : StructInfo)
    (evolves : ∀ before, base.structs.find? name = some before →
      ∃ known, a.structs.find? name = some known ∧ known.Evolves info) :
    base.Grows scope { a with structs := a.structs.insert name info } :=
  { h with
    structs other before found := by
      obtain ⟨later, foundLater, step⟩ := h.structs other before found
      rw [Table.find?_insert]
      split
      · rename_i same
        subst same
        obtain ⟨known, foundKnown, next⟩ := evolves before found
        obtain rfl : later = known := Option.some.inj (foundLater.symm.trans foundKnown)
        exact ⟨info, rfl, step.trans next⟩
      · exact ⟨later, foundLater, step⟩ }

/-- A trait that `base` does not have is added or changed. -/
theorem insertTrait {name : String} (info : TraitInfo) (new : base.traits.find? name = none) :
    base.Grows scope { a with traits := a.traits.insert name info } :=
  { h with
    traits other before found := by
      rw [Table.find?_insert_of_ne _ _ fun same => by
        subst same
        rw [new] at found
        cases found]
      exact h.traits other before found }

end Grows

/-! ## Changes that keep a state well formed -/

namespace WellFormed

variable {a other : Analyzer}

variable (h : a.WellFormed)

include h

/-- Only some parts of the state matter. -/
theorem congr (frames : other.frames = a.frames)
    (symbols : other.symbols = a.symbols) (site : other.site = a.site)
    (pending : other.pending = a.pending) (structs : other.structs = a.structs)
    (traits : other.traits = a.traits) (active : other.active = a.active) :
    other.WellFormed := by
  cases a
  cases other
  cases frames
  cases symbols
  cases site
  cases pending
  cases structs
  cases traits
  cases active
  exact { h with }

/-- Names are added, or changed but for what they are called and what they stand for. -/
theorem setSymbols {symbols : Array Symbol} (count : a.symbols.size ≤ symbols.size)
    (same : ∀ id < a.symbols.size,
      (symbolAt { a with symbols } id).name = (a.symbolAt id).name ∧
        (symbolAt { a with symbols } id).kind = (a.symbolAt id).kind)
    (functions : ∀ id < symbols.size, (symbolAt { a with symbols } id).kind = .function →
      (symbolAt { a with symbols } id).ty.isFunction = true)
    (constructors : ∀ id < symbols.size, (symbolAt { a with symbols } id).kind = .struct →
      a.structs.contains (symbolAt { a with symbols } id).name = true) :
    WellFormed { a with symbols } := by
  have known {key : FunctionKey} (known : a.Knows key) :
      Knows { a with symbols } key := by
    cases key with
    | function id =>
      obtain ⟨old, kind⟩ := known
      exact ⟨Nat.lt_of_lt_of_le old count, (same _ old).2.trans kind⟩
    | method sname name => exact known
  exact { h with
    names id entry mem := by
      obtain ⟨name, old, called⟩ := h.names id entry mem
      exact ⟨name, Nat.lt_of_lt_of_le old count, (same _ old).1.trans called⟩
    hosts ref mem := by
      obtain ⟨entry, bound, rfl⟩ := List.mem_map.mp mem
      exact (same _ (h.names _ entry bound).2.1).2.trans (h.hosts entry.2 mem)
    functions := functions
    waiting key fn found := (h.waiting key fn found).imp_right known
    running key active := (h.running key active).imp_left known
    constructors := constructors }

/-- A name is changed but for what it is called and stands for. -/
theorem modifySymbol {id : Nat} (f : Symbol → Symbol) (name : ∀ symbol, (f symbol).name = symbol.name)
    (kind : ∀ symbol, (f symbol).kind = symbol.kind)
    (fn : (a.symbolAt id).kind = .function →
      (f (a.symbolAt id)).ty.isFunction = true) :
    (a.modifySymbol id f).WellFormed := by
  have found (other : Nat) := symbolAt_modifySymbol a id other f
  have size : (a.modifySymbol id f).symbols.size = a.symbols.size := by
    simp [Analyzer.modifySymbol]
  refine h.setSymbols (Nat.le_of_eq size.symm) (fun other old => ?_) (fun other old => ?_)
    fun other old => ?_
  · change ((a.modifySymbol id f).symbolAt other).name = _ ∧
      ((a.modifySymbol id f).symbolAt other).kind = _
    rw [found]
    split
    · exact ⟨name _, kind _⟩
    · exact ⟨rfl, rfl⟩
  · change ((a.modifySymbol id f).symbolAt other).kind = _ →
      ((a.modifySymbol id f).symbolAt other).ty.isFunction = true
    rw [found]
    split
    · rename_i same
      obtain ⟨rfl, -⟩ := same
      rw [kind]
      exact fn
    · exact h.functions other (size ▸ old)
  · change ((a.modifySymbol id f).symbolAt other).kind = _ →
      a.structs.contains ((a.modifySymbol id f).symbolAt other).name = true
    rw [found]
    split
    · rw [kind, name]
      exact h.constructors other (size ▸ old)
    · exact h.constructors other (size ▸ old)

/-- A new name that is what its kind asks for. -/
theorem pushSymbol (symbol : Symbol) (fn : symbol.kind = .function → symbol.ty.isFunction = true)
    (constructor : symbol.kind = .struct → a.structs.contains symbol.name = true) :
    WellFormed { a with symbols := a.symbols.push symbol } := by
  -- a name is the new one or was there before
  have cases {motive : Symbol → Prop} (new : motive symbol)
      (old : ∀ id < a.symbols.size, motive (a.symbolAt id)) (id : Nat)
      (inBounds : id < (a.symbols.push symbol).size) :
      motive (symbolAt { a with symbols := a.symbols.push symbol } id) := by
    by_cases last : id = a.symbols.size
    · have pushed : symbolAt { a with symbols := a.symbols.push symbol } id =
          symbol := by
        simp [symbolAt, last]
      rw [pushed]
      exact new
    · have older : id < a.symbols.size := by
        simp only [Array.size_push] at inBounds
        omega
      rw [Grows.symbolAt_push _ _ older]
      exact old id older
  refine h.setSymbols (by simp) (fun id old => ?_)
    (cases (motive := fun symbol => symbol.kind = .function → symbol.ty.isFunction = true) fn
      h.functions)
    (cases (motive := fun symbol => symbol.kind = .struct →
      a.structs.contains symbol.name = true) constructor h.constructors)
  rw [Grows.symbolAt_push _ _ old]
  exact ⟨rfl, rfl⟩

/-- A frame that is not the host's is changed. -/
theorem modifyFrame {id : Nat} (notHost : id ≠ hostFrame) (f : Frame → Frame)
    (names : ∀ entry ∈ (f (a.frame id)).symbols.entries,
      entry ∈ (a.frame id).symbols.entries ∨ (entry.2.name = entry.1 ∧
        entry.2.id < a.symbols.size ∧ (a.symbol entry.2).name = entry.1)) :
    (a.modifyFrame id f).WellFormed :=
  { h with
    outermost := by simpa [Analyzer.modifyFrame] using h.outermost
    visible := by simpa [Analyzer.modifyFrame] using h.visible
    names other entry mem := by
      rw [frame_modifyFrame] at mem
      split at mem
      · rename_i same
        obtain ⟨rfl, -⟩ := same
        exact (names entry mem).elim (h.names id entry) fun named => named
      · exact h.names other entry mem
    hosts ref mem := by
      rw [frame_modifyFrame, if_neg fun both => notHost both.1] at mem
      exact h.hosts ref mem
    waiting key fn found := by
      obtain ⟨frames, known⟩ := h.waiting key fn found
      exact ⟨by simpa [Analyzer.modifyFrame] using frames, known⟩
    running := h.running }

/-- A site is chosen, in a state with an empty frame added for it. -/
theorem enter {outer : List Nat} (visible : ∀ id ∈ outer, id < a.frames.size) (contexts : List Nat) :
    WellFormed { a with
      frames := a.frames.push {}
      site := ⟨a.frames.size :: outer, contexts⟩ } := by
  have outermost := h.outermost
  -- the new frame is empty, so every frame binds what it did
  have found (id : Nat) : Analyzer.frame { a with
      frames := a.frames.push {}
      site := ⟨a.frames.size :: outer, contexts⟩ } id = a.frame id :=
    Grows.frame_push a id
  exact { h with
    outermost := by
      simp only [Array.size_push]
      omega
    visible id mem := by
      simp only [List.mem_cons, Array.size_push] at mem ⊢
      rcases mem with rfl | mem
      · omega
      · have := visible id mem
        omega
    scope := by
      simp only [Analyzer.scope, List.headD_cons]
      simp only [globalFrame, hostFrame] at outermost ⊢
      omega
    names id entry mem := h.names id entry (found id ▸ mem)
    hosts ref mem := h.hosts ref (found hostFrame ▸ mem)
    waiting key fn mem := by
      obtain ⟨frames, known⟩ := h.waiting key fn mem
      refine ⟨fun id mem => ?_, known⟩
      have := frames id mem
      simp only [Array.size_push]
      omega
    running := h.running }

/-- A site is chosen. -/
theorem setSite {site : Site} (visible : ∀ id ∈ site.frames, id < a.frames.size)
    (scope : site.frames.headD globalFrame ≠ hostFrame) : WellFormed { a with site } :=
  { h with
    visible := visible
    scope := scope }

/-- Fewer bodies are being checked. -/
theorem setActive {active : Table FunctionKey Nat}
    (fewer : ∀ key, active.contains key = true → a.active.contains key = true) :
    WellFormed { a with active } :=
  { h with
    running key running := h.running key (fewer key running) }

/-- A declared function that is not being checked waits. -/
theorem insertPending {key : FunctionKey} {fn : PendingFunction}
    (visible : ∀ id ∈ fn.site.frames, id < a.frames.size) (known : a.Knows key)
    (idle : a.active.contains key = false) :
    WellFormed { a with pending := a.pending.insert key fn } :=
  { h with
    waiting other found eq := by
      rw [Table.find?_insert] at eq
      split at eq
      · rename_i same
        subst same
        cases eq
        exact ⟨visible, known⟩
      · exact h.waiting other found eq
    running other active := by
      obtain ⟨known, started⟩ := h.running other active
      refine ⟨known, ?_⟩
      rw [Table.contains_insert, started, Bool.or_false, decide_eq_false_iff_not]
      rintro rfl
      rw [idle] at active
      cases active }

theorem erasePending (key : FunctionKey) :
    WellFormed { a with pending := a.pending.erase key } :=
  { h with
    waiting other found eq := by
      rw [Table.find?_erase] at eq
      split at eq
      · cases eq
      · exact h.waiting other found eq
    running other active := by
      obtain ⟨known, started⟩ := h.running other active
      refine ⟨known, ?_⟩
      rw [Table.contains_erase, started, Bool.and_false] }

/-- The body of a function that does not wait any more is being checked. -/
theorem insertActive {key : FunctionKey} (context : Nat)
    (known : a.Knows key) (started : a.pending.contains key = false) :
    WellFormed { a with active := a.active.insert key context } :=
  { h with
    running other active := by
      simp only [Table.contains_insert, Bool.or_eq_true, decide_eq_true_eq] at active
      rcases active with rfl | active
      · exact ⟨known, started⟩
      · exact h.running other active }

/-- A struct is added, or changed so that its methods stay. -/
theorem insertStruct {name : String} {info : StructInfo} (wellFormed : info.WellFormed name)
    (methods : ∀ before, a.structs.find? name = some before →
      ∀ method, before.methods.contains method = true → info.methods.contains method = true)
    (plain : Ty.primitive? name = none) (noTrait : a.traits.contains name = false) :
    WellFormed { a with structs := a.structs.insert name info } := by
  -- methods are only added, so what was declared still is
  have still {key : FunctionKey} (known : a.Knows key) :
      Knows { a with structs := a.structs.insert name info } key := by
    cases key with
    | function id => exact known
    | method sname method =>
      obtain ⟨before, found, listed⟩ := known
      by_cases same : name = sname
      · subst same
        exact ⟨info, Table.find?_insert_self _ _ _, methods before found method listed⟩
      · exact ⟨before, (Table.find?_insert_of_ne _ _ same).trans found, listed⟩
  exact { h with
    waiting key fn found := (h.waiting key fn found).imp_right still
    running key active := (h.running key active).imp_left still
    constructors id inBounds kind := by
      rw [Table.contains_insert]
      exact Bool.or_eq_true_iff.mpr (.inr (h.constructors id inBounds kind))
    distinct := Table.nodup_keys_insert h.distinct name info
    structs other found eq := by
      rw [Table.find?_insert] at eq
      split at eq
      · rename_i same
        cases eq
        exact same ▸ wellFormed
      · exact h.structs other found eq
    plain other known := by
      simp only [Table.contains_insert, Bool.or_eq_true, decide_eq_true_eq] at known
      rcases known with (rfl | known) | known
      · exact plain
      · exact h.plain other (.inl known)
      · exact h.plain other (.inr known)
    disjoint other known := by
      simp only [Table.contains_insert, Bool.or_eq_true, decide_eq_true_eq] at known
      rcases known with rfl | known
      · exact noTrait
      · exact h.disjoint other known }

/-- A trait is added or changed. -/
theorem insertTrait (name : String) {info : TraitInfo}
    (methods : ∀ method sig, info.methods.find? method = some sig →
      sig.isFunction = true)
    (plain : Ty.primitive? name = none) (noStruct : a.structs.contains name = false) :
    WellFormed { a with traits := a.traits.insert name info } :=
  { h with
    traits other found eq := by
      rw [Table.find?_insert] at eq
      split at eq
      · cases eq
        exact methods
      · exact h.traits other found eq
    plain other known := by
      simp only [Table.contains_insert, Bool.or_eq_true, decide_eq_true_eq] at known
      rcases known with known | rfl | known
      · exact h.plain other (.inl known)
      · exact plain
      · exact h.plain other (.inr known)
    disjoint other known := by
      rw [Table.contains_insert, h.disjoint other known, Bool.or_false, decide_eq_false_iff_not]
      rintro rfl
      rw [noStruct] at known
      cases known }

/-- What is found at a site is called so and exists. -/
theorem lookup? {name : String} {ref : SymbolRef} (found : a.lookup? name = some ref) :
    ref.name = name ∧ ref.id < a.symbols.size ∧ (a.symbol ref).name = name := by
  obtain ⟨id, -, bound⟩ := List.exists_of_findSome?_eq_some found
  exact h.names id (name, ref) (Table.mem_of_lookup bound)

/-- The struct that a name stands for is declared. -/
theorem contains_of_lookup? {name : String} {ref : SymbolRef}
    (found : a.lookup? name = some ref) (kind : (a.symbol ref).kind = .struct) :
    a.structs.contains name = true := by
  obtain ⟨-, known, called⟩ := h.lookup? found
  rw [← called]
  exact h.constructors ref.id known kind

end WellFormed

/-! ## Changes along which a state evolves -/

namespace Evolves

variable {declares : Bool} {base before after a other : Analyzer}

theorem refl (h : a.WellFormed) : a.Evolves declares a :=
  ⟨h, rfl, .refl _ _⟩

theorem openScope_eq (h : before.Evolves declares after) :
    after.openScope declares = before.openScope declares := by
  rw [openScope, openScope, Analyzer.scope, Analyzer.scope, h.site]

theorem trans (first : base.Evolves declares before) (second : before.Evolves declares after) :
    base.Evolves declares after :=
  ⟨second.wellFormed, second.site.trans first.site,
    first.grows.trans second.grows fun _ _ opened => first.openScope_eq ▸ opened⟩

variable (h : base.Evolves declares a)

include h

/-- Only some parts of the state matter. -/
theorem congr (frames : other.frames = a.frames)
    (symbols : other.symbols = a.symbols) (site : other.site = a.site)
    (pending : other.pending = a.pending) (structs : other.structs = a.structs)
    (traits : other.traits = a.traits) (active : other.active = a.active)
    (unstable : other.unstable = a.unstable) : base.Evolves declares other :=
  ⟨h.wellFormed.congr frames symbols site pending structs traits active, site.trans h.site,
    h.grows.congr frames symbols pending structs traits active unstable⟩

/-- What is not declared at first is not being checked later. -/
theorem idle (wellFormed : base.WellFormed) {key : FunctionKey}
    (new : ¬base.Knows key) : a.active.contains key = false := by
  have same : a.active.contains key = base.active.contains key := by
    rw [Table.contains, Table.contains, h.grows.active key]
  rw [same, Bool.eq_false_iff]
  exact fun active => new (wellFormed.running key active).1

/-- The kinds of names stay. -/
theorem kind_eq {id : Nat} (old : id < base.symbols.size) :
    (a.symbolAt id).kind = (base.symbolAt id).kind := by
  obtain ⟨ty, eq, -⟩ := h.grows.name id old
  rw [eq]

/-- A variable in scope that has no type gets one. -/
theorem retype {name : String} {ref : SymbolRef} (found : a.lookup? name = some ref)
    (assignable : (a.symbol ref).kind.isMutable = true)
    (unknown : (a.symbol ref).ty = .unknown) (ty : Ty) :
    base.Evolves declares (a.modifySymbol ref.id fun symbol => { symbol with ty }) := by
  obtain ⟨frame, -, bound⟩ := List.exists_of_findSome?_eq_some found
  have may : a.MayRetype ref.id :=
    .inr ⟨unknown, assignable, frame, ref, Table.mem_values_of_find? bound, rfl⟩
  refine ⟨h.wellFormed.modifySymbol _ (fun _ => rfl) (fun _ => rfl) fun fn => ?_, h.site,
    h.grows.modifySymbol _ ?_⟩
  · have kind : (a.symbol ref).kind = .function := fn
    rw [kind] at assignable
    cases assignable
  · by_cases old : ref.id < base.symbols.size
    · exact .inr ⟨.of_grows h.grows old may, fun _ => ⟨ty, rfl⟩⟩
    · exact .inl (by omega)

/-- A function that is new, or that waited to be checked, gets its type. -/
theorem setFunctionType {id : Nat} {sig : Ty} (fn : sig.isFunction = true)
    (allowed : base.symbols.size ≤ id ∨ base.pending.contains (.function id) = true) :
    base.Evolves declares
      (a.modifySymbol id fun symbol => { symbol with ty := sig }) := by
  refine ⟨h.wellFormed.modifySymbol _ (fun _ => rfl) (fun _ => rfl) fun _ => fn, h.site,
    h.grows.modifySymbol _ ?_⟩
  exact allowed.imp_right fun waits => ⟨.inl waits, fun _ => ⟨sig, rfl⟩⟩

/-- A name that is new and no function is changed. -/
theorem modifyNew {id : Nat} (new : base.symbols.size ≤ id)
    (noFunction : (a.symbolAt id).kind ≠ .function) (f : Symbol → Symbol)
    (name : ∀ symbol, (f symbol).name = symbol.name)
    (kind : ∀ symbol, (f symbol).kind = symbol.kind) :
    base.Evolves declares (a.modifySymbol id f) :=
  ⟨h.wellFormed.modifySymbol f name kind fun fn => absurd fn noFunction, h.site,
    h.grows.modifySymbol f (.inl new)⟩

/-- A struct is changed in a way in which structs evolve, or in any way in which its methods stay if it
is new. -/
theorem modifyStruct {name : String} (f : StructInfo → StructInfo)
    (change : ∀ info, a.structs.find? name = some info → info.WellFormed name →
      (f info).WellFormed name ∧
        (∀ method, info.methods.contains method = true → (f info).methods.contains method = true) ∧
        (base.structs.find? name = none ∨ info.Evolves (f info))) :
    base.Evolves declares (a.modifyStruct name f) := by
  unfold Analyzer.modifyStruct
  split
  · rename_i info found
    obtain ⟨wellFormed, methods, step⟩ := change info found (h.wellFormed.structs name info found)
    have declared : a.structs.contains name = true :=
      Option.isSome_iff_exists.mpr ⟨info, found⟩
    refine ⟨h.wellFormed.insertStruct wellFormed ?_ (h.wellFormed.plain name (.inl declared))
      (h.wellFormed.disjoint name declared), h.site, h.grows.insertStruct _ ?_⟩
    · intro before same
      rw [found] at same
      cases same
      exact methods
    · intro old known
      refine ⟨info, found, step.resolve_left fun none => ?_⟩
      rw [none] at known
      cases known
  · exact h

/-- The state after a stretch in a new frame of its own, back at the site and with the same bodies being
checked. -/
theorem leave {contexts outer : List Nat} {inner : Analyzer} {active : Table FunctionKey Nat} (enters : a.Enters outer contexts inner)
    (evolves : inner.Evolves true after)
    (fewer : ∀ key, active.contains key = true → after.active.contains key = true)
    (same : ∀ key, active.find? key = a.active.find? key) :
    base.Evolves declares { after with site := a.site, active } := by
  have entered : a.Grows (a.openScope declares)
      { inner with active := a.active } :=
    (Grows.pushFrame (.refl _ a)).congr enters.frames enters.symbols enters.pending
      enters.structs enters.traits rfl enters.unstable
  have count : a.frames.size ≤ after.frames.size :=
    Nat.le_trans entered.frameCount evolves.grows.frameCount
  have grows : a.Grows (a.openScope declares) { after with active } := by
    refine entered.trans (evolves.grows.setActive same) fun id old opened => ?_
    simp only [openScope, if_true, Analyzer.scope, enters.site, List.headD_cons,
      Option.some.injEq] at opened
    omega
  refine h.trans ⟨(evolves.wellFormed.setActive fewer).setSite (fun id mem => ?_) ?_, rfl,
    grows.congr rfl rfl rfl rfl rfl rfl rfl⟩
  · exact Nat.lt_of_lt_of_le (h.wellFormed.visible id mem) count
  · exact h.wellFormed.scope

end Evolves

end Analyzer

/-! ## Declaring a name -/

namespace Analyzer

/-- The state with a name that is in no frame yet. -/
def addName (a : Analyzer) (name : String) (ty : Ty) (kind : SymbolKind)
    (pos : Position) : Analyzer :=
  { a with
    symbols := a.symbols.push
      { name, ty, kind, home := a.home, position := some pos } }

/-- The state with a name put into the innermost frame. -/
def bindName (a : Analyzer) (name : String) (id : Nat) : Analyzer :=
  a.modifyFrame a.scope fun frame =>
    { frame with symbols := frame.symbols.insert name ⟨id, name⟩ }

variable {base a : Analyzer}

@[simp] theorem symbolAt_addName_self (a : Analyzer) (name : String) (ty : Ty)
    (kind : SymbolKind) (pos : Position) :
    (a.addName name ty kind pos).symbolAt a.symbols.size =
      { name, ty, kind, home := a.home, position := some pos } := by
  simp [addName, symbolAt]

@[simp] theorem symbols_bindName (a : Analyzer) (name : String) (id : Nat) :
    (a.bindName name id).symbols = a.symbols := rfl

@[simp] theorem symbolAt_bindName (a : Analyzer) (name : String) (id other : Nat) :
    (a.bindName name id).symbolAt other = a.symbolAt other := rfl

theorem Evolves.addName {declares : Bool} (h : base.Evolves declares a) (name : String)
    (ty : Ty) (kind : SymbolKind) (pos : Position)
    (fn : kind = .function → ty.isFunction = true)
    (constructor : kind = .struct → a.structs.contains name = true) :
    base.Evolves declares (a.addName name ty kind pos) :=
  ⟨h.wellFormed.pushSymbol _ fn constructor, h.site, h.grows.pushSymbol _⟩

/-- A new name is put into the innermost frame, where it is not taken. -/
theorem Evolves.bindName (h : base.Evolves true a) {name : String} {id : Nat}
    (new : base.symbols.size ≤ id) (known : (a.symbolAt id).name = name)
    (free : (a.frame a.scope).symbols.find? name = none)
    (inBounds : id < a.symbols.size) : base.Evolves true (a.bindName name id) := by
  refine ⟨h.wellFormed.modifyFrame h.wellFormed.scope _ ?_, h.site, h.grows.modifyFrame _ ?_ ?_ ?_⟩
  · intro entry mem
    rcases Table.mem_of_mem_bind mem with rfl | old
    · exact .inr ⟨rfl, inBounds, known⟩
    · exact .inl old
  · rw [openScope, if_pos rfl, Analyzer.scope, Analyzer.scope, h.site]
  · intro other ref bound
    rw [Table.find?_insert_of_ne]
    · exact bound
    · rintro rfl
      rw [free] at bound
      cases bound
  · intro ref mem
    rcases Table.mem_values_insert mem with rfl | old
    · exact .inl new
    · exact .inr old

end Analyzer

namespace Check

variable {a : Analyzer} {name : String}

/-- Declaring a name that the innermost frame does not have. -/
theorem declare_of_free (ty : Ty) (kind : SymbolKind) (pos : Position)
    (free : (a.frame a.scope).symbols.find? name = none) :
    declare name ty kind pos a =
      ⟨(.ok ⟨a.symbols.size, name⟩,
        (a.addName name ty kind pos).bindName name a.symbols.size), []⟩ := by
  have free : (a.frame (a.site.frames.headD Analyzer.globalFrame)).symbols.find? name =
      none := free
  simp only [declare, get_bind, modify_bind, free]
  rfl

/-- Declaring a name that is taken in the innermost frame. -/
theorem declare_of_taken (ty : Ty) (kind : SymbolKind) (pos : Position) {taken : SymbolRef}
    (found : (a.frame a.scope).symbols.find? name = some taken) :
    declare name ty kind pos a =
      ⟨(.ok ⟨a.symbols.size, name⟩, a.addName name ty kind pos),
        [⟨.duplicateName name ((a.symbol taken).position.map Position.line),
          some pos⟩]⟩ := by
  have found : (a.frame (a.site.frames.headD Analyzer.globalFrame)).symbols.find? name =
      some taken := found
  simp only [declare, get_bind, modify_bind, found]
  rfl

end Check

end FlowScript
