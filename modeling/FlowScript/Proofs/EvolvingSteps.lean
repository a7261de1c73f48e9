import FlowScript.Proofs.CheckRules
import FlowScript.Proofs.Evolution
/-!
# The state evolves along the steps of checking

`Check.Evolving declares base` says of a computation that it keeps the state one that `base` evolves
into.  It is proved here of the primitive steps and of the steps that declare the names of a statement
list before its statements are checked.  The latter come in two passes: after the first all names of the
list are declared and its functions wait (`Analyzer.Hoists`), and the second one, which resolves the
types in the declarations, takes that for granted.

Main statements: `Check.Evolving.declareThen` for a single name, `Check.Evolving.inside` for a
computation in a frame of its own, and `Check.Evolving.hoist` for a statement list.
-/

namespace FlowScript

namespace Analyzer

/-- Whether what waits and what is declared in one state does so in another. -/
structure Retains (before after : Analyzer) : Prop where
  pending : ∀ key, before.pending.contains key = true → after.pending.contains key = true
  structs : ∀ name, before.structs.contains name = true → after.structs.contains name = true
  traits : ∀ name, before.traits.contains name = true → after.traits.contains name = true

/-- Only some parts of the state matter. -/
theorem Retains.of_eq {before after : Analyzer} (pending : after.pending = before.pending)
    (structs : after.structs = before.structs) (traits : after.traits = before.traits) :
    before.Retains after :=
  ⟨fun _ waits => pending ▸ waits, fun _ known => structs ▸ known, fun _ known => traits ▸ known⟩

theorem Retains.trans {first second third : Analyzer} (left : first.Retains second)
    (right : second.Retains third) : first.Retains third :=
  ⟨fun key => right.pending key ∘ left.pending key, fun name => right.structs name ∘ left.structs name,
    fun name => right.traits name ∘ left.traits name⟩

end Analyzer

namespace Check

variable {α β : Type} {declares : Bool} {base : Analyzer} {invariant : Analyzer → Prop}

/-! ## Steps that leave the state -/

namespace Keeps

/-- Letting a value flow leaves the state. -/
theorem flowInto_apply (expr : Expr) (src target : Ty) (problem : CheckProblem)
    (a : Analyzer) : ∃ value reports,
    Check.flowInto expr src target problem a = ⟨(.ok value, a), reports⟩ := by
  rw [Check.flowInto, get_bind]
  cases a.coerce? src target with
  | none => exact ⟨_, _, rfl⟩
  | some coercion => cases coercion <;> exact ⟨_, _, rfl⟩

/-- Rules that only put computations together keep an invariant if their parts do. -/
theorem composing : Compositional (Keeps invariant Anything) where
  pure _ := pure trivial
  bind := andThen
  get h := get fun a _ => h a
  report _ pos := report _ pos

theorem resolveSignature (params : List Param) (res : Option TypeExpr) (missing : Ty) :
    Keeps invariant (fun sig => sig.isFunction = true)
      (Check.resolveSignature params res missing) := by
  refine andThen (composing.resolveTypes _) fun _ => ?_
  cases res with
  | some written => exact andThen (composing.resolveType written) fun _ => pure rfl
  | none => exact pure rfl

theorem checkConformance (sname : String) : Keeps invariant Anything (Check.checkConformance sname) :=
  composing.checkConformance report sname

end Keeps

/-! ## The primitive steps of checking -/

/-- Whether the state evolves along a computation. -/
abbrev Evolving (declares : Bool) (base : Analyzer) (action : Check α) : Prop :=
  Keeps (base.Evolves declares) Anything action

namespace Evolving

open Keeps

theorem modifyFlow (f : Flow → Flow) : Evolving declares base (Check.modifyFlow f) :=
  modify fun _ h => h.congr rfl rfl rfl rfl rfl rfl rfl rfl

/-- Along a computation from a later state. -/
theorem rebase {post : α → Prop} {action : Check α} {a : Analyzer}
    (h : Keeps (a.Evolves declares) post action) (evolves : base.Evolves declares a) :
    Reaches a (base.Evolves declares) post action := by
  obtain ⟨after, res, defined⟩ := h a (.refl evolves.wellFormed)
  exact ⟨evolves.trans after, res, defined⟩

/-- The kind of a name stays. -/
theorem withKind {post : α → Prop} {action : Check α}
    (h : ∀ base, Keeps (Analyzer.Evolves declares base) post action) (id : Nat)
    (kind : SymbolKind) :
    Keeps (fun a => base.Evolves declares a ∧ id < a.symbols.size ∧
      (a.symbolAt id).kind = kind) post action := by
  intro a ⟨evolves, known, eq⟩
  obtain ⟨after, res, defined⟩ := h a a (.refl evolves.wellFormed)
  refine ⟨⟨evolves.trans after, Nat.lt_of_lt_of_le known after.grows.nameCount, ?_⟩, res, defined⟩
  rw [after.kind_eq known, eq]

/-- Noting a capture changes nothing but the contexts. -/
theorem noteCapture_apply (symbol : Symbol) (a : Analyzer) : ∃ contexts,
    Check.noteCapture symbol a = ⟨(.ok (), { a with contexts }), []⟩ := by
  unfold Check.noteCapture
  cases symbol.home with
  | topLevel => exact ⟨a.contexts, rfl⟩
  | inside owner =>
    have captured (ids : List Nat) (a : Analyzer) : ∃ contexts,
        ids.foldl (fun a id =>
          a.modifyContext id fun context => context.capture symbol.name) a =
          { a with contexts } := by
      induction ids generalizing a with
      | nil => exact ⟨a.contexts, rfl⟩
      | cons id ids ih =>
        obtain ⟨contexts, eq⟩ := ih (a.modifyContext id fun context =>
          context.capture symbol.name)
        exact ⟨contexts, eq⟩
    obtain ⟨contexts, eq⟩ := captured (a.site.contexts.takeWhile fun id =>
      !decide (some id = owner)) a
    exact ⟨contexts, congrArg (fun after => Reported.mk (Except.ok (), after) []) eq⟩

/-- The state evolves along a change of the contexts. -/
theorem noteCapture (symbol : Symbol) : Evolving declares base (Check.noteCapture symbol) := by
  intro a h
  obtain ⟨contexts, run⟩ := noteCapture_apply symbol a
  exact .of_run run (h.congr rfl rfl rfl rfl rfl rfl rfl rfl) trivial

/-- The state evolves along rules that only put computations together if it does so along their parts. -/
theorem steps : Stepwise (Evolving declares base) :=
  { composing with modifyFlow, noteCapture }

section Inside

variable {post : α → Prop} {a inner : Analyzer} {outer contexts : List Nat}
  {action : Check α} {cleanup : Analyzer → Analyzer}

/-- A computation in a new frame of its own, after which the site is as before. -/
theorem inside (evolves : base.Evolves declares a) (wellFormed : inner.WellFormed)
    (enters : a.Enters outer contexts inner) (active : inner.active = a.active)
    (clean : ∀ after, base.Evolves declares { after with site := a.site } →
      base.Evolves declares (cleanup after))
    (h : Keeps (inner.Evolves true) post action) :
    Reaches inner (base.Evolves declares) post (ensuring cleanup action) := by
  obtain ⟨after, res, defined⟩ := h inner (.refl wellFormed)
  refine ⟨clean _ (evolves.leave enters after (fun _ listed => listed) fun key => ?_), res, defined⟩
  rw [after.grows.active key, active]

/-- The body of a function with a key is checked in a new frame of its own: it is among those that are
being checked until it is done. -/
theorem insideBody {key : FunctionKey} {context : Nat} (evolves : base.Evolves declares a)
    (wellFormed : inner.WellFormed) (enters : a.Enters outer contexts inner)
    (active : inner.active = a.active.insert key context)
    (idle : a.active.contains key = false)
    (clean : ∀ after, base.Evolves declares { after with site := a.site } →
      base.Evolves declares (cleanup after))
    (h : Keeps (inner.Evolves true) post action) :
    Reaches inner (base.Evolves declares) post (ensuring cleanup (closing (some key) action)) := by
  obtain ⟨reached, res, defined⟩ := h inner (.refl wellFormed)
  rcases run : action inner with ⟨⟨outcome, after⟩, reports⟩
  rw [run] at reached res defined
  -- whatever was begun inside has come to its end, so the list is that of before with this body
  have found (other : FunctionKey) : after.active.find? other =
      if key = other then some context else a.active.find? other := by
    rw [reached.grows.active other, active, Table.find?_insert]
  have listed : after.active.contains key = true := by
    rw [Table.contains, found, if_pos rfl, Option.isSome_some]
  have closed : ensuring cleanup (closing (some key) action) inner =
      ⟨(outcome, cleanup { after with active := after.active.erase key }), reports⟩ := by
    simp only [ensuring, closing, run, listed, if_true]
  have left : base.Evolves declares
      { after with site := a.site, active := after.active.erase key } := by
    refine evolves.leave enters reached (fun other still => ?_) fun other => ?_
    · rw [Table.contains_erase, Bool.and_eq_true] at still
      exact still.2
    · rw [Table.find?_erase, found]
      split
      · rename_i same
        subst same
        rw [Table.contains, Option.isSome_eq_false_iff, Option.isNone_iff_eq_none] at idle
        exact idle.symm
      · rfl
  constructor
  · rw [closed]
    exact clean _ left
  · rw [closed]
    exact res
  · rw [closed]
    exact defined

end Inside

/-- Declaring a name adds it, and puts it into the innermost frame if it is free there. -/
theorem declare_run {a : Analyzer} (evolves : base.Evolves true a) (name : String)
    (ty : Ty) (kind : SymbolKind) (pos : Position)
    (function : kind = .function → ty.isFunction = true)
    (constructor : kind = .struct → a.structs.contains name = true) :
    ∃ after reports, Check.declare name ty kind pos a =
        ⟨(.ok ⟨a.symbols.size, name⟩, after), reports⟩ ∧
      base.Evolves true after ∧ a.Retains after ∧ a.symbols.size < after.symbols.size ∧
      (after.symbolAt a.symbols.size).kind = kind := by
  have added := evolves.addName name ty kind pos function constructor
  cases found : (a.frame a.scope).symbols.find? name with
  | some taken =>
    exact ⟨_, _, declare_of_taken ty kind pos found, added, .of_eq rfl rfl rfl,
      by simp [Analyzer.addName], by simp⟩
  | none =>
    have bound := added.bindName evolves.grows.nameCount (by simp) found (by simp [Analyzer.addName])
    exact ⟨_, _, declare_of_free ty kind pos found, bound, .of_eq rfl rfl rfl,
      by simp [Analyzer.addName], by simp⟩

/-- A name that is new is declared in the innermost frame. -/
theorem declareThen {post : β → Prop} (name : String) (ty : Ty) (kind : SymbolKind)
    (pos : Position) (function : kind = .function → ty.isFunction = true)
    (noStruct : kind ≠ .struct) {rest : SymbolRef → Check β}
    (h : ∀ ref, base.symbols.size ≤ ref.id → Keeps (fun a => base.Evolves true a ∧
      ref.id < a.symbols.size ∧ (a.symbolAt ref.id).kind = kind) post (rest ref)) :
    Keeps (base.Evolves true) post (Check.declare name ty kind pos >>= rest) := by
  intro a evolves
  obtain ⟨after, reports, run, declared, -, known⟩ := declare_run evolves name ty kind pos function
    fun struct => absurd struct noStruct
  obtain ⟨last, res, defined⟩ := h ⟨a.symbols.size, name⟩ evolves.grows.nameCount after
    ⟨declared, known⟩
  exact .step run ⟨last.1, res, defined⟩

theorem declare (name : String) (ty : Ty) (kind : SymbolKind) (pos : Position)
    (function : kind = .function → ty.isFunction = true) (noStruct : kind ≠ .struct) :
    Evolving true base (Check.declare name ty kind pos) := by
  have h : Evolving true base (Check.declare name ty kind pos >>= Pure.pure) :=
    declareThen name ty kind pos function noStruct fun ref _ => pure trivial
  rwa [bind_pure] at h

end Evolving

end Check

/-! ## Declaring the names of a statement list -/

namespace Analyzer

/-- Whether what a statement declares is new and there: a function waits, a struct or a trait is
declared. -/
structure Hoisted (base after : Analyzer) (pair : Stmt × Check.Declared) : Prop where
  function : ∀ id, pair.2 = .function (.function id) →
    base.symbols.size ≤ id ∧ after.pending.contains (.function id) = true
  struct : ∀ decl, pair = (.struct decl, .struct true) →
    base.structs.find? decl.name = none ∧ after.structs.contains decl.name = true
  trait : ∀ decl, pair = (.trait decl, .trait true) →
    base.traits.find? decl.name = none ∧ after.traits.contains decl.name = true

namespace Hoisted

variable {base a after : Analyzer}

/-- A statement that declares nothing new. -/
theorem of_ne {stmt : Stmt} {declared : Check.Declared}
    (function : ∀ id, declared ≠ .function (.function id)) (struct : declared ≠ .struct true)
    (trait : declared ≠ .trait true) : base.Hoisted after (stmt, declared) where
  function id same := absurd same (function id)
  struct _ same := absurd (congrArg Prod.snd same) struct
  trait _ same := absurd (congrArg Prod.snd same) trait

theorem retain {pair : Stmt × Check.Declared} (h : base.Hoisted a pair)
    (retains : a.Retains after) : base.Hoisted after pair where
  function id same := (h.function id same).imp_right (retains.pending _)
  struct decl same := (h.struct decl same).imp_right (retains.structs _)
  trait decl same := (h.trait decl same).imp_right (retains.traits _)

end Hoisted

/-- A later state, in which all is there that a statement list declares. -/
structure Hoists (declared : List (Stmt × Check.Declared)) (base after : Analyzer) : Prop where
  evolves : base.Evolves true after
  hoisted : ∀ pair ∈ declared, base.Hoisted after pair

theorem Hoists.retain {declared : List (Stmt × Check.Declared)} {base a after : Analyzer}
    (h : base.Hoists declared a) (evolves : base.Evolves true after)
    (retains : a.Retains after) : base.Hoists declared after :=
  ⟨evolves, fun pair mem => (h.hoisted pair mem).retain retains⟩

end Analyzer

namespace Check

namespace Evolving

open Keeps

variable {base a : Analyzer}

/-- A type name is taken, or it is free and not that of another type. -/
theorem typeNameFree_run (name : String) (pos : Position) (a : Analyzer) :
    (∃ reports, Check.typeNameFree name pos a = ⟨(.ok false, a), reports⟩) ∨
      Check.typeNameFree name pos a = ⟨(.ok true, a), []⟩ ∧
        Ty.primitive? name = none ∧ a.structs.contains name = false ∧
        a.traits.contains name = false := by
  rw [Check.typeNameFree, get_bind]
  by_cases taken : ((Ty.primitive? name).isSome || a.structs.contains name ||
      a.traits.contains name) = true
  · rw [if_pos taken]
    exact .inl ⟨_, rfl⟩
  · rw [if_neg taken]
    simp only [Bool.or_eq_true, not_or, Bool.not_eq_true, Option.isSome_eq_false_iff,
      Option.isNone_iff_eq_none] at taken
    exact .inr ⟨rfl, taken.1.1, taken.1.2, taken.2⟩

/-- The state with a type name put into the innermost frame. -/
def boundType (a : Analyzer) (name : String) (ty : Ty) : Analyzer :=
  a.modifyFrame a.scope fun frame =>
    { frame with types := frame.types.insert name ty }

theorem bindType_bind {β : Type} (name : String) (ty : Ty) (rest : Unit → Check β)
    (a : Analyzer) :
    (Check.bindType name ty >>= rest) a = rest () (boundType a name ty) := rfl

theorem bindType (h : base.Evolves true a) (name : String) (ty : Ty) :
    base.Evolves true (boundType a name ty) := by
  refine ⟨h.wellFormed.modifyFrame h.wellFormed.scope _ ?_, h.site, h.grows.modifyFrame _ ?_ ?_ ?_⟩
  · exact fun _ mem => .inl mem
  · rw [Analyzer.openScope, if_pos rfl, Analyzer.scope, Analyzer.scope, h.site]
  · exact fun _ _ bound => bound
  · exact fun _ mem => .inr mem

/-- What is not there later was not there at first. -/
theorem find?_structs_eq_none (h : base.Evolves true a) {name : String}
    (free : a.structs.contains name = false) : base.structs.find? name = none := by
  cases found : base.structs.find? name with
  | none => rfl
  | some info =>
    rw [h.grows.contains_structs (Option.isSome_iff_exists.mpr ⟨info, found⟩)] at free
    cases free

theorem find?_traits_eq_none (h : base.Evolves true a) {name : String}
    (free : a.traits.contains name = false) : base.traits.find? name = none := by
  cases found : base.traits.find? name with
  | none => rfl
  | some info =>
    rw [Table.contains, h.grows.traits name info found] at free
    cases free

theorem declareTrait (h : base.Evolves true a) {name : String}
    (plain : Ty.primitive? name = none) (noStruct : a.structs.contains name = false)
    (noTrait : a.traits.contains name = false) :
    base.Evolves true
      (boundType { a with traits := a.traits.insert name {} } name (.trait name)) :=
  bindType ⟨h.wellFormed.insertTrait name (by simp) plain noStruct, h.site,
    h.grows.insertTrait _ (find?_traits_eq_none h noTrait)⟩ name _

/-- A struct is added under a name that is free. -/
theorem declareStruct (h : base.Evolves true a) {decl : StructDecl Stmt}
    (plain : Ty.primitive? decl.name = none) (noStruct : a.structs.contains decl.name = false)
    (noTrait : a.traits.contains decl.name = false) :
    base.Evolves true (boundType
      { a with structs := a.structs.insert decl.name { decl } } decl.name
      (.struct decl.name)) := by
  have new := find?_structs_eq_none h noStruct
  have empty : StructInfo.WellFormed { decl } decl.name := ⟨rfl, List.nodup_nil, by simp⟩
  refine bindType ⟨h.wellFormed.insertStruct empty ?_ plain noTrait, h.site,
    h.grows.insertStruct _ ?_⟩ decl.name _
  · intro before found
    rw [Table.contains, found] at noStruct
    cases noStruct
  · intro before known
    rw [new] at known
    cases known

/-- What a statement declares is there after its name is declared. -/
theorem declareName_run (wellFormed : base.WellFormed) (stmt : Stmt)
    (h : base.Evolves true a) : ∃ declared after reports,
    Check.declareName stmt a = ⟨(.ok declared, after), reports⟩ ∧
      base.Evolves true after ∧ a.Retains after ∧ base.Hoisted after (stmt, declared) := by
  cases stmt with
  | trait decl =>
    -- a name that is taken is reported, and then nothing is declared
    rcases typeNameFree_run decl.name decl.position a with
      ⟨reports, run⟩ | ⟨run, plain, noStruct, noTrait⟩
    · refine ⟨.trait false, a, reports ++ [], ?_, h, .of_eq rfl rfl rfl, ?_⟩
      · rw [Check.declareName, bind_apply, run]
        rfl
      · exact .of_ne (by simp) (by simp) (by simp)
    · refine ⟨.trait true, _, [], ?_, declareTrait h plain noStruct noTrait, ?_, ?_⟩
      · rw [Check.declareName, bind_apply, run]
        rfl
      · exact ⟨fun _ => id, fun _ => id, fun _ => Table.contains_insert_of_contains _ _⟩
      · refine ⟨by simp, by simp, ?_⟩
        rintro _ ⟨⟩
        exact ⟨find?_traits_eq_none h noTrait, Table.contains_insert_self _ _ _⟩
  | struct decl =>
    rcases typeNameFree_run decl.name decl.position a with
      ⟨reports, run⟩ | ⟨run, plain, noStruct, noTrait⟩
    · refine ⟨.struct false, a, reports ++ [], ?_, h, .of_eq rfl rfl rfl, ?_⟩
      · rw [Check.declareName, bind_apply, run]
        rfl
      · exact .of_ne (by simp) (by simp) (by simp)
    · have added := declareStruct h plain noStruct noTrait
      have known := Table.contains_insert_self a.structs decl.name { decl }
      obtain ⟨after, reports, named, evolves, retains, -⟩ := declare_run added decl.name
        (.struct decl.name) .struct decl.position (by rintro ⟨⟩) fun _ => known
      refine ⟨.struct true, after, reports ++ [], ?_, evolves, .trans ?_ retains, ?_⟩
      · rw [Check.declareName, bind_apply, run]
        simp only [if_true, modify_bind, bindType_bind]
        rw [bind_apply, named]
        rfl
      · exact ⟨fun _ => id, fun _ => Table.contains_insert_of_contains _ _, fun _ => id⟩
      · refine ⟨by simp, ?_, by simp⟩
        rintro _ ⟨⟩
        exact ⟨find?_structs_eq_none h noStruct, retains.structs _ known⟩
  | function decl =>
    obtain ⟨after, reports, run, evolves, retains, known, kind⟩ := declare_run h decl.name
      (.function [] .unknown) .function decl.position (fun _ => rfl) (by rintro ⟨⟩)
    -- the number of the function is new, so no body of that number is being checked
    have new : base.symbols.size ≤ a.symbols.size := h.grows.nameCount
    have idle : after.active.contains (.function a.symbols.size) = false :=
      evolves.idle wellFormed fun declared => by
        have := declared.1
        omega
    have waits : base.Evolves true { after with
        pending := after.pending.insert (.function a.symbols.size) ⟨decl, after.site⟩ } := by
      have known : after.Knows (.function a.symbols.size) := ⟨known, kind⟩
      refine ⟨evolves.wellFormed.insertPending evolves.wellFormed.visible known idle, evolves.site,
        evolves.grows.insertPending _ ?_⟩
      rintro id ⟨⟩
      exact new
    refine ⟨.function (.function a.symbols.size), _, reports ++ [], ?_, waits,
      .trans retains ?_, ?_⟩
    · rw [Check.declareName, bind_apply, run]
      rfl
    · exact ⟨fun _ => Table.contains_insert_of_contains _ _, fun _ => id, fun _ => id⟩
    · refine ⟨?_, by simp, by simp⟩
      rintro id ⟨⟩
      exact ⟨new, Table.contains_insert_self _ _ _⟩
  | _ => exact ⟨.nothing, a, [], rfl, h, .of_eq rfl rfl rfl, .of_ne (by simp) (by simp) (by simp)⟩

/-- All that a statement list declares is there after its names are declared. -/
theorem declareNames_run (wellFormed : base.WellFormed) (stmts : List Stmt)
    (h : base.Evolves true a) : ∃ declared after reports,
    (stmts.mapM fun stmt => return (stmt, ← Check.declareName stmt)) a =
        ⟨(.ok declared, after), reports⟩ ∧
      a.Retains after ∧ base.Hoists declared after := by
  induction stmts generalizing a with
  | nil => exact ⟨[], a, [], rfl, .of_eq rfl rfl rfl, h, nofun⟩
  | cons stmt rest ih =>
    obtain ⟨first, mid, reports, run, evolves, retains, hoisted⟩ :=
      declareName_run wellFormed stmt h
    obtain ⟨others, after, more, runRest, retainsRest, all⟩ := ih evolves
    refine ⟨(stmt, first) :: others, after, reports ++ more, ?_, retains.trans retainsRest,
      all.evolves, ?_⟩
    · rw [List.mapM_cons, bind_assoc, bind_apply, run]
      simp only [pure_bind]
      rw [bind_apply, runRest]
      exact congrArg (Reported.mk _ ) (congrArg (reports ++ ·) (List.append_nil more))
    · exact List.forall_mem_cons.mpr ⟨hoisted.retain retainsRest, all.hoisted⟩

/-! ## Resolving what is declared -/

variable {declared : List (Stmt × Check.Declared)}

/-- The methods of a trait of the list are resolved. -/
theorem resolveTrait {decl : TraitDecl} (mem : (.trait decl, .trait true) ∈ declared) :
    Keeps (base.Hoists declared) Anything (Check.resolveTrait decl) := by
  refine forM _ fun method _ => get fun a _ => ?_
  refine ite (Keeps.report _ _) (bind (Keeps.resolveSignature _ _ _) fun sig function => ?_)
  refine modify fun a h => ?_
  obtain ⟨new, known⟩ := (h.hoisted _ mem).trait decl rfl
  have wellFormed := h.evolves.wellFormed
  have noStruct : a.structs.contains decl.name = false := by
    rw [Bool.eq_false_iff]
    intro struct
    rw [wellFormed.disjoint _ struct] at known
    cases known
  refine h.retain ⟨wellFormed.insertTrait _ ?_ (wellFormed.plain _ (.inr known)) noStruct,
    h.evolves.site, h.evolves.grows.insertTrait _ new⟩ ?_
  · intro name other found
    rw [Table.find?_insert] at found
    split at found
    · cases found
      exact function
    · cases known : a.traits.find? decl.name with
      | none => simp [known] at found
      | some info =>
        rw [known] at found
        exact wellFormed.traits _ _ known _ _ found
  · exact ⟨fun _ => id, fun _ => id, fun _ => Table.contains_insert_of_contains _ _⟩

section Struct

variable {decl : StructDecl Stmt}

/-- A struct that the list declares is changed so that its methods stay. -/
theorem modifyHoisted (mem : (.struct decl, .struct true) ∈ declared) {a : Analyzer}
    (h : base.Hoists declared a) {f : StructInfo → StructInfo}
    (wellFormed : ∀ info, info.WellFormed decl.name → (f info).WellFormed decl.name)
    (methods : ∀ info method, info.methods.contains method = true →
      (f info).methods.contains method = true) :
    base.Hoists declared (a.modifyStruct decl.name f) := by
  obtain ⟨new, -⟩ := (h.hoisted _ mem).struct decl rfl
  have evolves := h.evolves.modifyStruct f fun info _ known =>
    ⟨wellFormed info known, methods info, .inl new⟩
  refine h.retain evolves ⟨fun key waits => ?_, fun name known => ?_, fun name known => ?_⟩
  · rw [Analyzer.modifyStruct]
    split <;> exact waits
  · rw [Table.contains, Analyzer.find?_modifyStruct]
    split
    · rename_i same
      rw [Option.isSome_map, same]
      exact known
    · exact known
  · rw [Analyzer.modifyStruct]
    split <;> exact known

theorem resolveField (mem : (.struct decl, .struct true) ∈ declared) (field : FieldDecl) :
    Keeps (base.Hoists declared) Anything (Check.resolveField decl field) := by
  have insert (ty : Ty) : Keeps (base.Hoists declared) Anything
      (modify fun a => a.modifyStruct decl.name fun info =>
        { info with fields := info.fields.insert field.name ty }) :=
    modify fun _ h => modifyHoisted mem h (fun _ known => known.insertField field.name ty)
      fun _ _ listed => listed
  refine get fun a _ => ite (Keeps.report _ _) ?_
  cases field.written with
  | some written => exact andThen (Keeps.composing.resolveType written) fun _ => insert _
  | none => exact insert _

theorem resolveTraitRef (mem : (.struct decl, .struct true) ∈ declared) (ref : TraitRef) :
    Keeps (base.Hoists declared) Anything (Check.resolveTraitRef decl ref) := by
  refine get fun a _ => ?_
  dsimp only
  split
  · exact Keeps.report _ _
  · refine ite (Keeps.report _ _) (modify fun _ h => modifyHoisted mem h (fun info known => ?_) ?_)
    · exact ⟨known.name, known.fields, known.methods⟩
    · exact fun _ _ listed => listed
  · exact Keeps.report _ _

/-- The type of a method is resolved, and its body waits. -/
theorem resolveMethod (wellFormed : base.WellFormed)
    (mem : (.struct decl, .struct true) ∈ declared) (method : FunctionDecl Stmt) :
    Keeps (base.Hoists declared) Anything (Check.resolveMethod decl method) := by
  refine get fun a _ => ite (Keeps.report _ _) ?_
  have waiting (sig : Ty) (function : sig.isFunction = true) :
      Keeps (base.Hoists declared) Anything (modify fun a =>
        let changed := a.modifyStruct decl.name fun info =>
          { info with methods := info.methods.insert method.name sig }
        { changed with
          pending := changed.pending.insert (.method decl.name method.name)
            ⟨method, changed.site⟩ }) := by
    refine modify fun a h => ?_
    obtain ⟨new, known⟩ := (h.hoisted _ mem).struct decl rfl
    have changed := modifyHoisted mem h (fun _ known => known.insertMethod method.name function)
      fun _ _ => Table.contains_insert_of_contains method.name sig
    have evolves := changed.evolves
    -- the struct is new, so none of its methods is being checked
    have unknown : ¬base.Knows (.method decl.name method.name) := by
      rintro ⟨info, found, -⟩
      rw [new] at found
      cases found
    have listed : Analyzer.Knows (a.modifyStruct decl.name fun info =>
        { info with methods := info.methods.insert method.name sig })
        (.method decl.name method.name) := by
      obtain ⟨info, found⟩ := Option.isSome_iff_exists.mp known
      refine ⟨{ info with methods := info.methods.insert method.name sig }, ?_,
        Table.contains_insert_self _ _ _⟩
      rw [Analyzer.find?_modifyStruct, if_pos rfl, found]
      rfl
    refine changed.retain ⟨evolves.wellFormed.insertPending evolves.wellFormed.visible listed
      (evolves.idle wellFormed unknown), evolves.site, evolves.grows.insertPending _ nofun⟩ ?_
    exact ⟨fun _ => Table.contains_insert_of_contains _ _, fun _ => id, fun _ => id⟩
  refine ite ?_ (bind (Keeps.resolveSignature _ _ _) waiting)
  cases method.result with
  | some written =>
    refine bind (Keeps.report _ _) fun _ _ => ?_
    exact bind (Keeps.resolveSignature _ _ _) waiting
  | none => exact bind (Keeps.resolveSignature _ _ _) waiting

theorem resolveStruct (wellFormed : base.WellFormed)
    (mem : (.struct decl, .struct true) ∈ declared) :
    Keeps (base.Hoists declared) Anything (Check.resolveStruct decl) := by
  refine bind (forM _ fun field _ => resolveField mem field) fun _ _ => ?_
  refine bind (forM _ fun ref _ => resolveTraitRef mem ref) fun _ _ => ?_
  exact forM _ fun method _ => resolveMethod wellFormed mem method

end Struct

/-- Resolving what a statement of the list declares. -/
theorem resolveDeclared (wellFormed : base.WellFormed) {pair : Stmt × Check.Declared}
    (mem : pair ∈ declared) :
    Keeps (base.Hoists declared) Anything (Check.resolveDeclared pair) := by
  unfold Check.resolveDeclared
  split
  · exact resolveTrait mem
  · exact resolveStruct wellFormed mem
  · rename_i decl id
    refine get fun a h => ?_
    obtain ⟨new, waits⟩ := (h.hoisted _ mem).function id rfl
    refine bind (Keeps.demand waits fun _ _ => trivial) fun _ _ => ?_
    refine bind (Keeps.resolveSignature _ _ _) fun sig function => modify fun _ h => ?_
    exact h.retain (h.evolves.setFunctionType function (.inl new)) (.of_eq rfl rfl rfl)
  · exact pure trivial

/-- The state evolves while the names of a statement list are declared. -/
theorem hoist (stmts : List Stmt) : Evolving true base (Check.hoist stmts) := by
  intro a evolves
  have wellFormed := evolves.wellFormed
  obtain ⟨declared, mid, reports, run, -, hoists⟩ :=
    declareNames_run wellFormed stmts (.refl wellFormed)
  refine .step run ?_
  have resolved : Keeps (a.Hoists declared) Anything (do
      declared.forM Check.resolveDeclared
      return declared) :=
    bind (forM declared fun pair mem => resolveDeclared wellFormed mem) fun _ _ => pure trivial
  obtain ⟨after, res, defined⟩ := resolved mid hoists
  exact ⟨evolves.trans after.evolves, res, defined⟩

end Evolving

end Check

end FlowScript
