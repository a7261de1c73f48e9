import FlowScript.Session
import Mathlib.Data.List.Forall2
/-!
# Values that differ in their cells only

Two machines that run the same program need not number their cells in the same way.  A `Link` says
which frames, instances and stamps of one correspond to which of the other; `Value.Related` lifts it
to values, `Table.Related` to variables and fields, and `Stop.Related` to what stops a program.

Main statements: operations on related values give the same results, which hold no cell
(`Value.Related.add_eq`, `Value.Settles.add` and their companions), and where a link tells cells
apart alike on both sides, related values are equal alike (`Value.Related.equal_eq`).
-/

namespace FlowScript

variable {small large : Link}

/-! ## Tables -/

namespace Table

variable {κ α β : Type}

/-- Tables with the same keys in the same order and related entries. -/
def Related (relation : α → β → Prop) (left : Table κ α) (right : Table κ β) : Prop :=
  List.Forall₂ (fun p q => p.1 = q.1 ∧ relation p.2 q.2) left.entries right.entries

namespace Related

variable {relation : α → β → Prop} {left : Table κ α} {right : Table κ β}

theorem mono {wider : α → β → Prop} (h : Related relation left right)
    (weaken : ∀ a b, relation a b → wider a b) : Related wider left right :=
  List.Forall₂.imp (fun p q pair => ⟨pair.1, weaken p.2 q.2 pair.2⟩) h

theorem empty : Related relation (Table.empty : Table κ α) (Table.empty : Table κ β) :=
  List.Forall₂.nil

variable [DecidableEq κ]

/-- Related tables bind the same keys, to related entries. -/
theorem find? (h : Related relation left right) (key : κ) :
    Option.Rel relation (left.find? key) (right.find? key) := by
  obtain ⟨entries⟩ := left
  obtain ⟨others⟩ := right
  simp only [Related] at h
  simp only [Table.find?]
  induction h with
  | nil => exact Option.Rel.none
  | @cons p q _ _ pair _ ih =>
    obtain ⟨k, a⟩ := p
    obtain ⟨l, b⟩ := q
    obtain ⟨same, entry⟩ := pair
    simp only at same entry
    subst same
    by_cases hk : k = key
    · simpa [lookup, hk] using Option.Rel.some entry
    · simpa [lookup, hk] using ih

theorem contains (h : Related relation left right) (key : κ) :
    left.contains key = right.contains key := by
  have found := h.find? key
  simp only [Table.contains]
  cases hl : left.find? key <;> cases hr : right.find? key <;> rw [hl, hr] at found <;>
    first
      | rfl
      | cases found

/-- Related entries are inserted into related tables. -/
theorem insert (h : Related relation left right) (key : κ) {a : α} {b : β} (entry : relation a b) :
    Related relation (left.insert key a) (right.insert key b) := by
  obtain ⟨entries⟩ := left
  obtain ⟨others⟩ := right
  simp only [Related] at h
  simp only [Related, Table.insert]
  induction h with
  | nil => exact List.Forall₂.cons ⟨rfl, entry⟩ List.Forall₂.nil
  | @cons p q _ _ pair rest ih =>
    obtain ⟨k, c⟩ := p
    obtain ⟨l, d⟩ := q
    obtain ⟨same, other⟩ := pair
    simp only at same other
    subst same
    by_cases hk : k = key
    · simpa [bind, hk] using ⟨entry, rest⟩
    · simpa [bind, hk] using ⟨other, ih⟩

theorem ofList {pairs : List (κ × α)} {others : List (κ × β)}
    (h : List.Forall₂ (fun p q => p.1 = q.1 ∧ relation p.2 q.2) pairs others) :
    Related relation (Table.ofList pairs) (Table.ofList others) := by
  have general : ∀ (left : Table κ α) (right : Table κ β), Related relation left right →
      Related relation (pairs.foldl (fun table pair => table.insert pair.1 pair.2) left)
        (others.foldl (fun table pair => table.insert pair.1 pair.2) right) := by
    induction h with
    | nil => exact fun _ _ related => related
    | @cons p q _ _ pair _ ih =>
      intro left right related
      obtain ⟨same, entry⟩ := pair
      refine ih _ _ ?_
      simp only [same]
      exact related.insert q.1 entry
  exact general _ _ empty

end Related

end Table

/-! ## Links -/

/-- How the cells and the stamps of two machines correspond. -/
structure Link where
  frame : Nat → Nat → Prop
  object : Nat → Nat → Prop
  stamp : Nat → Nat → Prop

namespace Link

variable {relation : Nat → Nat → Prop} {left right : Nat}

/-- Whether a link is part of another. -/
structure Le (small large : Link) : Prop where
  frame : ∀ a b, small.frame a b → large.frame a b
  object : ∀ a b, small.object a b → large.object a b
  stamp : ∀ a b, small.stamp a b → large.stamp a b

theorem Le.refl (link : Link) : link.Le link :=
  ⟨fun _ _ h => h, fun _ _ h => h, fun _ _ h => h⟩

theorem Le.trans {small mid large : Link} (first : small.Le mid) (second : mid.Le large) :
    small.Le large :=
  ⟨fun a b h => second.frame a b (first.frame a b h),
    fun a b h => second.object a b (first.object a b h),
    fun a b h => second.stamp a b (first.stamp a b h)⟩

/-- Whether a relation pairs every number with at most one other. -/
def OneToOne (relation : Nat → Nat → Prop) : Prop :=
  ∀ ⦃a b c d⦄, relation a b → relation c d → (a = c ↔ b = d)

/-- Whether a relation pairs numbers below two bounds only. -/
def Below (relation : Nat → Nat → Prop) (left right : Nat) : Prop :=
  ∀ ⦃a b⦄, relation a b → a < left ∧ b < right

/-- A relation with one more pair. -/
def Extended (relation : Nat → Nat → Prop) (left right : Nat) : Nat → Nat → Prop :=
  fun a b => relation a b ∨ a = left ∧ b = right

/-- A pair at the bounds of a relation keeps it one to one. -/
theorem OneToOne.extended (once : OneToOne relation) (below : Below relation left right) :
    OneToOne (Extended relation left right) := by
  rintro a b c d (first | ⟨rfl, rfl⟩) (second | ⟨rfl, rfl⟩)
  · exact once first second
  · have := below first
    omega
  · have := below second
    omega
  · simp

theorem Below.extended (below : Below relation left right) :
    Below (Extended relation left right) (left + 1) (right + 1) := by
  rintro a b (pair | ⟨rfl, rfl⟩)
  · have := below pair
    omega
  · omega

theorem Below.mono {left' right' : Nat} (below : Below relation left right) (hl : left ≤ left')
    (hr : right ≤ right') : Below relation left' right' :=
  fun _ _ pair => ⟨Nat.lt_of_lt_of_le (below pair).1 hl, Nat.lt_of_lt_of_le (below pair).2 hr⟩

/-- Whether a link tells cells and stamps apart on one side as on the other. -/
structure Faithful (link : Link) : Prop where
  frame : OneToOne link.frame
  object : OneToOne link.object
  stamp : OneToOne link.stamp

end Link

/-- Environments whose frames correspond. -/
abbrev Environment.Related (link : Link) (left right : Environment) : Prop :=
  List.Forall₂ link.frame left right

theorem Environment.Related.mono (le : small.Le large) {left right : Environment}
    (h : Environment.Related small left right) : Environment.Related large left right :=
  List.Forall₂.imp le.frame h

/-- Functions with the same text in corresponding environments. -/
structure Closure.Related (link : Link) (left right : Closure) : Prop where
  stamp : link.stamp left.stamp right.stamp
  name : left.name = right.name
  params : left.params = right.params
  body : left.body = right.body
  environment : Environment.Related link left.environment right.environment

theorem Closure.Related.mono (le : small.Le large) {left right : Closure}
    (h : Closure.Related small left right) : Closure.Related large left right :=
  ⟨le.stamp _ _ h.stamp, h.name, h.params, h.body, h.environment.mono le⟩

namespace Value

variable {value left right : Value}

/-- Values that are the same but for the cells and stamps in them. -/
inductive Related (link : Link) : Value → Value → Prop where
  | nil : Related link .nil .nil
  | bool (value : Bool) : Related link (.bool value) (.bool value)
  | int (value : Int) : Related link (.int value) (.int value)
  | float (value : Float) : Related link (.float value) (.float value)
  | string (value : String) : Related link (.string value) (.string value)
  | instance {a b : Nat} (id : link.object a b) : Related link (.instance a) (.instance b)
  | closure {c d : Closure} (target : Closure.Related link c d) :
    Related link (.closure c) (.closure d)
  | method {s t a b : Nat} {c d : Closure} (stamp : link.stamp s t) (receiver : link.object a b)
    (target : Closure.Related link c d) : Related link (.method s a c) (.method t b d)
  | constructor {s t : Nat} (decl : StructDecl Stmt) {methods others : Table String Closure}
    (stamp : link.stamp s t) (same : Table.Related (Closure.Related link) methods others) :
    Related link (.constructor s decl methods) (.constructor t decl others)
  | host (name : String) : Related link (.host name) (.host name)

namespace Related

variable {link : Link} {left right other another : Value}

theorem mono {small large : Link} (le : small.Le large) (h : Related small left right) :
    Related large left right := by
  cases h with
  | nil => exact .nil
  | bool => exact .bool _
  | int => exact .int _
  | float => exact .float _
  | string => exact .string _
  | «instance» id => exact .instance (le.object _ _ id)
  | closure target => exact .closure (target.mono le)
  | method stamp recv target =>
    exact .method (le.stamp _ _ stamp) (le.object _ _ recv) (target.mono le)
  | constructor decl stamp same =>
    exact .constructor decl (le.stamp _ _ stamp) (same.mono fun _ _ => Closure.Related.mono le)
  | host => exact .host _

theorem ofLiteral (literal : Literal) : Related link (.ofLiteral literal) (.ofLiteral literal) := by
  cases literal with
  | nil => exact .nil
  | bool => exact .bool _
  | int => exact .int _
  | float => exact .float _
  | string => exact .string _

/-! ### What related values have in common -/

variable (h : Related link left right)

include h

theorem isTrue : left.isTrue = right.isTrue := by
  cases h <;> rfl

theorem kindName : left.kindName = right.kindName := by
  cases h <;> rfl

theorem number? : left.number? = right.number? := by
  cases h <;> rfl

theorem int? : left.int? = right.int? := by
  cases h <;> rfl

theorem isZero : left.isZero = right.isZero := by
  simp only [Value.isZero, h.number?]

theorem index : left.index = right.index := by
  simp only [Value.index, h.int?, h.kindName]

theorem toFloat : left.toFloat = right.toFloat := by
  simp only [Value.toFloat, h.number?, h.kindName]

end Related

/-! ## Operations -/

/-- Whether a value holds no cell and no stamp. -/
def IsPlain : Value → Prop
  | .nil | .bool _ | .int _ | .float _ | .string _ => True
  | _ => False

theorem Related.of_isPlain {link : Link} (h : value.IsPlain) : Related link value value := by
  cases value with
  | nil => exact .nil
  | bool => exact .bool _
  | int => exact .int _
  | float => exact .float _
  | string => exact .string _
  | «instance» | closure | method | constructor | host => exact h.elim

/-- Whether an operation comes to a value without cells, or fails for another reason than nesting. -/
def Settles : Except Failure Value → Prop
  | .ok value => value.IsPlain
  | .error failure => failure ≠ .nesting

namespace Settles

variable {rest : Float → Except Failure Value}

theorem bind {res : Except Failure Float} (other : res ≠ .error .nesting) (h : ∀ x, Settles (rest x)) :
    Settles (res >>= rest) := by
  cases res with
  | ok x => exact h x
  | error failure => exact fun same => other (congrArg Except.error same)

theorem number {number : Number} (h : ∀ x, Settles (rest x)) : Settles (number.toFloat >>= rest) := by
  refine bind ?_ h
  unfold Number.toFloat
  repeat' split
  all_goals nofun

theorem toFloat {value : Value} (h : ∀ x, Settles (rest x)) : Settles (value.toFloat >>= rest) := by
  unfold Value.toFloat
  split
  · exact number h
  · nofun

theorem arithmetic (whole : Int → Int → Int) (double : Float → Float → Float) (a b : Number) :
    Settles (a.arithmetic whole double b) := by
  unfold Number.arithmetic
  split
  · trivial
  · exact number fun _ => number fun _ => trivial

theorem repeatText (text : String) (count : Value) : Settles (Value.repeatText text count) := by
  unfold Value.repeatText
  repeat' split
  all_goals first | trivial | nofun

variable (left right : Value)

theorem add : Settles (left.add right) := by
  unfold Value.add
  split
  · exact arithmetic _ _ _ _
  · trivial
  · nofun
  · nofun

theorem sub : Settles (left.sub right) := by
  unfold Value.sub
  split
  · exact arithmetic _ _ _ _
  · nofun

theorem mul : Settles (left.mul right) := by
  unfold Value.mul
  split
  · exact arithmetic _ _ _ _
  · exact repeatText _ _
  · exact repeatText _ _
  · nofun

theorem div : Settles (left.div right) := by
  unfold Value.div
  split
  · exact arithmetic _ _ _ _
  · nofun

theorem mod : Settles (left.mod right) := by
  unfold Value.mod
  split
  · trivial
  · refine toFloat fun _ => toFloat fun _ => ?_
    split
    · trivial
    · nofun

theorem neg (operand : Value) : Settles operand.neg := by
  unfold Value.neg
  split
  · trivial
  · trivial
  · nofun

theorem ordered (op : BinaryOp) : Settles (left.ordered op right) := by
  unfold Value.ordered
  split
  · trivial
  · trivial
  · nofun

end Settles

namespace Related

variable {link : Link} {left right left' right' : Value}

theorem add_eq (hl : Related link left left') (hr : Related link right right') :
    left.add right = left'.add right' := by
  cases hl <;> cases hr <;> rfl

theorem sub_eq (hl : Related link left left') (hr : Related link right right') :
    left.sub right = left'.sub right' := by
  simp only [Value.sub, hl.number?, hr.number?, operandFailure, hl.kindName, hr.kindName]

theorem mul_eq (hl : Related link left left') (hr : Related link right right') :
    left.mul right = left'.mul right' := by
  cases hl <;> cases hr <;> rfl

theorem div_eq (hl : Related link left left') (hr : Related link right right') :
    left.div right = left'.div right' := by
  simp only [Value.div, hl.number?, hr.number?, operandFailure, hl.kindName, hr.kindName]

theorem mod_eq (hl : Related link left left') (hr : Related link right right') :
    left.mod right = left'.mod right' := by
  simp only [Value.mod, hl.int?, hr.int?, hl.toFloat, hr.toFloat]

theorem neg_eq (h : Related link left left') : left.neg = left'.neg := by
  simp only [Value.neg, h.number?, h.kindName]

theorem ordered_eq (op : BinaryOp) (hl : Related link left left')
    (hr : Related link right right') : left.ordered op right = left'.ordered op right' := by
  cases hl <;> cases hr <;> rfl

/-- Where a link tells cells apart alike, related values are equal on one side exactly if they are
on the other. -/
theorem equal_eq (faithful : link.Faithful) (hl : Related link left left')
    (hr : Related link right right') : left.equal right = left'.equal right' := by
  cases hl with
  | «instance» id =>
    cases hr with
    | «instance» other => simp [Value.equal, Value.number?, faithful.object id other]
    | _ => rfl
  | closure target =>
    cases hr with
    | closure other => simp [Value.equal, Value.number?, faithful.stamp target.stamp other.stamp]
    | _ => rfl
  | method stamp _ _ =>
    cases hr with
    | method other _ _ => simp [Value.equal, Value.number?, faithful.stamp stamp other]
    | _ => rfl
  | constructor _ stamp _ =>
    cases hr with
    | constructor _ other _ => simp [Value.equal, Value.number?, faithful.stamp stamp other]
    | _ => rfl
  | _ => cases hr <;> rfl

end Related

end Value

/-! ## Instances and stops -/

/-- Instances of one struct with related fields and methods. -/
structure Instance.Related (link : Link) (left right : Instance) : Prop where
  decl : left.decl = right.decl
  fields : Table.Related (Value.Related link) left.fields right.fields
  methods : Table.Related (Closure.Related link) left.methods right.methods

/-- Variables of related frames: both without a value, or with related values. -/
abbrev Bindings.Related (link : Link) (left right : Bindings) : Prop :=
  Table.Related (Option.Rel (Value.Related link)) left right

theorem Value.Related.option_mono (le : small.Le large) {left right : Option Value}
    (h : Option.Rel (Value.Related small) left right) : Option.Rel (Value.Related large) left right := by
  cases h with
  | some value => exact .some (value.mono le)
  | none => exact .none

theorem Instance.Related.mono (le : small.Le large) {left right : Instance}
    (h : Instance.Related small left right) : Instance.Related large left right :=
  ⟨h.decl, h.fields.mono fun _ _ => Value.Related.mono le,
    h.methods.mono fun _ _ => Closure.Related.mono le⟩

theorem Bindings.Related.mono (le : small.Le large) {left right : Bindings}
    (h : Bindings.Related small left right) : Bindings.Related large left right :=
  Table.Related.mono h fun _ _ => Value.Related.option_mono le

/-- Stops for the same reason; returned values are related. -/
inductive Stop.Related (link : Link) : Stop → Stop → Prop where
  | returned {left right : Value} (value : Value.Related link left right) :
    Stop.Related link (.returned left) (.returned right)
  | fault (cause : FaultCause) (position : Option Position) :
    Stop.Related link (.fault cause position) (.fault cause position)
  | failure (failure : Failure) : Stop.Related link (.failure failure) (.failure failure)
  | diverged : Stop.Related link .diverged .diverged

/-! ## Diagonals

A machine is compared with itself along a link that pairs some of its cells, each with itself. -/

/-- The link that pairs the cells that are `held` with themselves. -/
def Link.diagonal (held : Cell → Prop) : Link where
  frame a b := a = b ∧ held (.frame a)
  object a b := a = b ∧ held (.instance a)
  stamp := Eq

theorem Link.diagonal_le {held wider : Cell → Prop} (weaken : ∀ cell, held cell → wider cell) :
    (diagonal held).Le (diagonal wider) :=
  ⟨fun _ _ => And.imp_right (weaken _), fun _ _ => And.imp_right (weaken _), fun _ _ same => same⟩

theorem forall₂_diagonal_iff {α : Type} {relation : α → α → Prop} {holds : α → Prop}
    (same : ∀ a b, relation a b ↔ a = b ∧ holds a) {items others : List α} :
    List.Forall₂ relation items others ↔ items = others ∧ ∀ item ∈ items, holds item := by
  induction items generalizing others with
  | nil => cases others <;> simp
  | cons item items ih =>
    cases others with
    | nil => simp
    | cons other others =>
      rw [List.forall₂_cons, same, ih, List.cons.injEq, List.forall_mem_cons]
      tauto

theorem Table.related_diagonal_iff {κ α : Type} {relation : α → α → Prop} {holds : α → Prop}
    (same : ∀ a b, relation a b ↔ a = b ∧ holds a) {left right : Table κ α} :
    Table.Related relation left right ↔ left = right ∧ ∀ value ∈ left.values, holds value := by
  obtain ⟨entries⟩ := left
  obtain ⟨others⟩ := right
  have pairs (p q : κ × α) : p.1 = q.1 ∧ relation p.2 q.2 ↔ p = q ∧ holds p.2 := by
    rw [same, Prod.ext_iff, and_assoc]
  rw [Table.Related, forall₂_diagonal_iff pairs, Table.mk.injEq, Table.values, List.forall_mem_map]

section

variable {held : Cell → Prop}

theorem Environment.related_diagonal_iff {left right : Environment} :
    Environment.Related (.diagonal held) left right ↔
      left = right ∧ ∀ cell ∈ left.map .frame, held cell := by
  rw [List.forall_mem_map]
  exact forall₂_diagonal_iff fun _ _ => Iff.rfl

/-- On the diagonal, related closures are equal ones. -/
theorem Closure.related_diagonal_iff (left right : Closure) :
    Closure.Related (.diagonal held) left right ↔
      left = right ∧ ∀ cell ∈ left.environment.map .frame, held cell := by
  constructor
  · rintro ⟨stamp, name, params, body, env⟩
    obtain ⟨same, all⟩ := Environment.related_diagonal_iff.mp env
    obtain ⟨_, _, _, _, _⟩ := left
    obtain ⟨_, _, _, _, _⟩ := right
    cases stamp
    cases name
    cases params
    cases body
    cases same
    exact ⟨rfl, all⟩
  · rintro ⟨rfl, all⟩
    exact ⟨rfl, rfl, rfl, rfl, Environment.related_diagonal_iff.mpr ⟨rfl, all⟩⟩

/-- A value is related to itself along a diagonal if the cells in it are held, and to no other value. -/
theorem Value.related_diagonal_iff (left right : Value) :
    Value.Related (.diagonal held) left right ↔ left = right ∧ ∀ cell ∈ left.cells, held cell := by
  have tables {methods others : Table String Closure} :=
    @Table.related_diagonal_iff String Closure _ _ (@Closure.related_diagonal_iff held) methods others
  constructor
  · intro related
    cases related with
    | «instance» id => exact ⟨congrArg _ id.1, fun cell mem => List.mem_singleton.mp mem ▸ id.2⟩
    | closure target =>
      obtain ⟨rfl, all⟩ := (Closure.related_diagonal_iff _ _).mp target
      exact ⟨rfl, all⟩
    | method stamp recv target =>
      obtain ⟨rfl, all⟩ := (Closure.related_diagonal_iff _ _).mp target
      obtain ⟨rfl, one⟩ := recv
      cases stamp
      exact ⟨rfl, List.forall_mem_cons.mpr ⟨one, all⟩⟩
    | constructor decl stamp same =>
      obtain ⟨rfl, all⟩ := tables.mp same
      cases stamp
      exact ⟨rfl, List.forall_mem_flatMap.mpr all⟩
    | _ => exact ⟨rfl, fun _ mem => nomatch mem⟩
  · rintro ⟨rfl, all⟩
    cases left with
    | «instance» id => exact .instance ⟨rfl, all _ (List.mem_singleton.mpr rfl)⟩
    | closure target => exact .closure ((Closure.related_diagonal_iff _ _).mpr ⟨rfl, all⟩)
    | method stamp recv target =>
      obtain ⟨one, rest⟩ := List.forall_mem_cons.mp all
      exact .method rfl ⟨rfl, one⟩ ((Closure.related_diagonal_iff _ _).mpr ⟨rfl, rest⟩)
    | constructor stamp decl methods =>
      exact .constructor decl rfl (tables.mpr ⟨rfl, List.forall_mem_flatMap.mp all⟩)
    | host name => exact .host name
    | nil | bool | int | float | string => exact .of_isPlain trivial

theorem Value.option_related_diagonal_iff (left right : Option Value) :
    Option.Rel (Value.Related (.diagonal held)) left right ↔
      left = right ∧ ∀ value, left = some value → ∀ cell ∈ value.cells, held cell := by
  cases left <;> cases right <;> simp [Value.related_diagonal_iff, Option.rel_some_some]

theorem Bindings.related_diagonal_iff {left right : Bindings} :
    Bindings.Related (.diagonal held) left right ↔
      left = right ∧ ∀ value, some value ∈ left.values → ∀ cell ∈ value.cells, held cell := by
  rw [Bindings.Related, Table.related_diagonal_iff Value.option_related_diagonal_iff]
  exact and_congr_right fun _ => ⟨fun all value mem => all _ mem value rfl,
    fun all _ mem value same => all value (same ▸ mem)⟩

/-- On the diagonal, related instances are equal ones. -/
theorem Instance.related_diagonal_iff {left right : Instance} :
    Instance.Related (.diagonal held) left right ↔ left = right ∧
      (∀ value ∈ left.fields.values, ∀ cell ∈ value.cells, held cell) ∧
      ∀ method ∈ left.methods.values, ∀ cell ∈ method.environment.map .frame, held cell := by
  constructor
  · rintro ⟨decl, fields, methods⟩
    obtain ⟨same, one⟩ := (Table.related_diagonal_iff Value.related_diagonal_iff).mp fields
    obtain ⟨same', two⟩ := (Table.related_diagonal_iff Closure.related_diagonal_iff).mp methods
    obtain ⟨_, _, _⟩ := left
    obtain ⟨_, _, _⟩ := right
    cases decl
    cases same
    cases same'
    exact ⟨rfl, one, two⟩
  · rintro ⟨rfl, one, two⟩
    exact ⟨rfl, (Table.related_diagonal_iff Value.related_diagonal_iff).mpr ⟨rfl, one⟩,
      (Table.related_diagonal_iff Closure.related_diagonal_iff).mpr ⟨rfl, two⟩⟩

end

end FlowScript
