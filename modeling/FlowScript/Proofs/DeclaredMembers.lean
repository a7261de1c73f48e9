import FlowScript.Proofs.MethodSignatures
/-!
# What the declarations of a list register

Before the statements of a list are checked, the structs and traits that it declares are registered with
their members.  Their names are new, so what is known of the structs and traits before stays as it is
(`Analyzer.Extends`), and what is registered keeps its shape: a method is a function, a trait that a struct
lists is declared, and a method that a trait requires has a known result.

Main statement: `Check.hoist_extends`.
-/

namespace FlowScript

namespace Analyzer

variable {base a after : Analyzer} {declared : List (Stmt × Check.Declared)}
variable {name : String} {info : StructInfo} {decl : StructDecl Stmt}

/-- A later state in which a list of statements has registered what it declares, and nothing else that
concerns structs and traits has changed. -/
structure Extends (base : Analyzer) (declared : List (Stmt × Check.Declared)) (after : Analyzer) :
    Prop where
  registered : after.Registered
  settles : base.Settles after
  deferred : after.deferred = base.deferred
  structs : ∀ {decl}, (.struct decl, .struct true) ∈ declared →
    base.structs.contains decl.name = false ∧
      ∃ info, after.structs.find? decl.name = some info ∧ info.decl = decl
  traits : ∀ {decl}, (.trait decl, .trait true) ∈ declared → base.traits.contains decl.name = false
  covered : ∀ {name}, after.structs.contains name = true → base.structs.contains name = true ∨
    ∃ decl, (.struct decl, .struct true) ∈ declared ∧ decl.name = name

theorem Extends.adjust (h : base.Extends declared a) (adjusts : a.Adjusts after) :
    base.Extends declared after where
  registered := h.registered.adjust adjusts
  settles := h.settles.trans adjusts.settles
  deferred := adjusts.deferred.trans h.deferred
  structs mem := by
    obtain ⟨new, info, found, decl⟩ := h.structs mem
    obtain ⟨later, foundLater, same, -, -⟩ := adjusts.interface found
    exact ⟨new, later, foundLater, same.trans decl⟩
  traits := h.traits
  covered known := h.covered (by rwa [adjusts.contains] at known)

/-- A struct that is not there in a state can be added or changed later on. -/
theorem Settles.withStruct (h : base.Settles a) (new : base.structs.contains name = false)
    (info : StructInfo) : base.Settles (a.withStruct name info) := by
  have other {known : String} {found : StructInfo} (there : base.structs.find? known = some found) :
      name ≠ known := by
    rintro rfl
    rw [Table.contains, there] at new
    cases new
  refine { h with
    structs := fun there => ?_
    order := h.order.trans (Table.keys_prefix_insert _ _ _)
    fixed := fun begun there has => ?_ }
  · rw [Table.find?_insert_of_ne _ _ (other there)]
    exact h.structs there
  · rw [Table.find?_insert_of_ne _ _ (other there)]
    exact h.fixed begun there has

/-- A struct is registered with members as they should be. -/
theorem Registered.withStruct (h : a.Registered) (named : info.decl.name = name)
    (methods : ∀ {method sig}, info.methods.find? method = some sig →
      ∃ params res, sig = .function params res)
    (listed : ∀ {traitName}, traitName ∈ info.traits → a.traits.contains traitName = true ∧
      ∃ ref ∈ info.decl.traits, ref.name = traitName) :
    (a.withStruct name info).Registered where
  named there := by
    rw [Table.find?_insert] at there
    split at there
    · rename_i same
      cases there
      exact named.trans same
    · exact h.named there
  methods there has := by
    rw [Table.find?_insert] at there
    split at there
    · cases there
      exact methods has
    · exact h.methods there has
  required := h.required
  distinct := h.distinct
  listed there mem := by
    rw [Table.find?_insert] at there
    split at there
    · cases there
      exact listed mem
    · exact h.listed there mem
  types := h.types

theorem Registered.insertMethod {sname : String} (h : a.Registered)
    (found : a.structs.find? sname = some info) (method : String) (params : List Ty)
    (res : Ty) : (a.withStruct sname
      { info with methods := info.methods.insert method (.function params res) }).Registered := by
  have listed {traitName : String} (mem : traitName ∈ info.traits) := h.listed found mem
  refine withStruct h (show info.decl.name = sname from h.named found) (fun has => ?_) listed
  dsimp only at has
  rw [Table.find?_insert] at has
  split at has
  · cases has
    exact ⟨params, res, rfl⟩
  · exact h.methods found has

/-- A trait is registered with methods as they should be. -/
theorem Registered.withTrait {info : TraitInfo} (h : a.Registered)
    (required : ∀ {method sig}, info.methods.find? method = some sig →
      ∃ params res, sig = .function params res ∧ res.IsKnown)
    (distinct : info.methods.keys.Nodup) :
    Registered { a with traits := a.traits.insert name info } where
  named := h.named
  methods := h.methods
  required there has := by
    rw [Table.find?_insert] at there
    split at there
    · cases there
      exact required has
    · exact h.required there has
  distinct there := by
    rw [Table.find?_insert] at there
    split at there
    · cases there
      exact distinct
    · exact h.distinct there
  listed there mem := (h.listed there mem).imp_left (Table.contains_insert_of_contains _ _)
  types there := (h.types there).imp_right fun isTrait traitName same =>
    Table.contains_insert_of_contains _ _ (isTrait traitName same)

theorem Settles.withTrait (h : base.Settles a) (new : base.traits.contains name = false)
    (info : TraitInfo) : base.Settles { a with traits := a.traits.insert name info } := by
  refine { h with traits := fun {other found} there => ?_ }
  rw [Table.find?_insert_of_ne _ _ ?_]
  · exact h.traits there
  · rintro rfl
    rw [Table.contains, there] at new
    cases new

/-- Structs stay with their declarations and with the traits that they are known to list. -/
def KeepsTraits (before after : Analyzer) : Prop :=
  ∀ name info, before.structs.find? name = some info →
    ∃ later, after.structs.find? name = some later ∧ later.decl = info.decl ∧ info.traits ⊆ later.traits

theorem KeepsTraits.refl (a : Analyzer) : a.KeepsTraits a :=
  fun _ info found => ⟨info, found, rfl, fun _ => id⟩

theorem KeepsTraits.trans {before mid after : Analyzer} (first : before.KeepsTraits mid)
    (second : mid.KeepsTraits after) : before.KeepsTraits after := by
  intro name info found
  obtain ⟨next, foundNext, same, kept⟩ := first name info found
  obtain ⟨later, foundLater, sameLater, keptLater⟩ := second name next foundNext
  exact ⟨later, foundLater, sameLater.trans same, List.Subset.trans kept keptLater⟩

theorem Adjusts.keepsTraits (h : a.Adjusts after) : a.KeepsTraits after := by
  intro name info found
  obtain ⟨later, foundLater, decl, -, traits⟩ := h.interface found
  exact ⟨later, foundLater, decl, traits ▸ fun _ => id⟩

theorem KeepsTraits.withStruct {later : StructInfo} (found : a.structs.find? name = some info)
    (decl : later.decl = info.decl) (traits : info.traits ⊆ later.traits) :
    a.KeepsTraits (a.withStruct name later) := by
  intro other known there
  rw [Table.find?_insert]
  split
  · rename_i same
    rw [same, there] at found
    cases found
    exact ⟨later, rfl, decl, traits⟩
  · exact ⟨known, there, rfl, fun _ => id⟩

/-- The law of runs that register the members of what a list declares. -/
def Hoisting (base : Analyzer) (declared : List (Stmt × Check.Declared)) : RunLaw :=
  fun start _ reports after => base.Extends declared start → base.Extends declared after ∧
    start.KeepsTraits after ∧ ∀ report ∈ reports, report.problem.onConformance = false

instance (base : Analyzer) (declared : List (Stmt × Check.Declared)) :
    Check.Lawful (base.Hoisting declared) where
  done a start := ⟨start, .refl a, List.forall_mem_nil _⟩
  seq first second start := by
    obtain ⟨mid, kept, quiet⟩ := first start
    obtain ⟨after, more, later⟩ := second mid
    exact ⟨after, kept.trans more, List.forall_mem_append.mpr ⟨quiet, later⟩⟩
  cut _ h := h
  tell a _ _ other start := ⟨start, .refl a, List.forall_mem_singleton.mpr other⟩
  adjust h adjusts start := by
    obtain ⟨mid, kept, quiet⟩ := h start
    exact ⟨mid.adjust adjusts, kept.trans adjusts.keepsTraits, quiet⟩

/-- A struct of the list is changed. -/
theorem Extends.withStruct (h : base.Extends declared a)
    (mem : (.struct decl, .struct true) ∈ declared) (same : info.decl = decl)
    (registered : (a.withStruct decl.name info).Registered) :
    base.Extends declared (a.withStruct decl.name info) where
  registered := registered
  settles := h.settles.withStruct (h.structs mem).1 info
  deferred := h.deferred
  structs {other} there := by
    obtain ⟨new, known, found, name⟩ := h.structs there
    refine ⟨new, ?_⟩
    rw [Table.find?_insert]
    split
    · rename_i this
      obtain ⟨-, first, foundFirst, nameFirst⟩ := h.structs mem
      rw [this, found] at foundFirst
      cases foundFirst
      exact ⟨info, rfl, same.trans (nameFirst.symm.trans name)⟩
    · exact ⟨known, found, name⟩
  traits := h.traits
  covered {name} known := by
    rw [Table.contains_insert, Bool.or_eq_true, decide_eq_true_eq] at known
    rcases known with this | known
    · exact .inr ⟨decl, mem, this⟩
    · exact h.covered known

/-- A method of a struct of the list waits. -/
theorem Extends.wait (h : base.Extends declared a) (mem : (.struct decl, .struct true) ∈ declared)
    (method : String) (waiting : PendingFunction) :
    base.Extends declared { a with
      pending := a.pending.insert (.method decl.name method) waiting } := by
  refine { h with
    registered := h.registered.congr rfl rfl rfl
    settles := { h.settles with started := fun {sname other} known begun => ?_ } }
  rw [Table.contains_insert, h.settles.started known begun, Bool.or_false, decide_eq_false_iff_not]
  rintro ⟨⟩
  rw [(h.structs mem).1] at known
  cases known

/-- A method of a struct of the list is registered, and its body waits. -/
theorem Extends.letMethodWait (h : base.Extends declared a)
    (mem : (.struct decl, .struct true) ∈ declared) (method : FunctionDecl Stmt) (params : List Ty)
    (res : Ty) :
    base.Extends declared (a.letMethodWait decl.name method (.function params res)) ∧
      a.KeepsTraits (a.letMethodWait decl.name method (.function params res)) := by
  obtain ⟨-, info, there, same⟩ := h.structs mem
  have registered := h.registered.insertMethod there method.name params res
  rw [Analyzer.letMethodWait, modifyStruct_of_find? there]
  exact ⟨(h.withStruct mem (by exact same) registered).wait mem method.name _,
    @KeepsTraits.withStruct _ _ info _ there rfl fun _ => id⟩

/-- A type name is bound in the innermost frame. -/
theorem Registered.boundType {ty : Ty} (h : a.Registered) (known : ty.IsKnown)
    (trait : ∀ traitName, ty = .trait traitName → a.traits.contains name = true) :
    (Check.Evolving.boundType a name ty).Registered where
  named := h.named
  methods := h.methods
  required := h.required
  distinct := h.distinct
  listed := h.listed
  types {id other found} there := by
    rw [Check.Evolving.boundType, frame_modifyFrame] at there
    split at there
    · dsimp only at there
      rw [Table.find?_insert] at there
      split at there
      · rename_i same
        cases there
        exact ⟨known, same ▸ trait⟩
      · exact h.types there
    · exact h.types there

/-- A statement of the list declares nothing that is new. -/
theorem Extends.skip {pair : Stmt × Check.Declared} (h : base.Extends declared a)
    (struct : pair.2 ≠ .struct true) (trait : pair.2 ≠ .trait true) :
    base.Extends (declared ++ [pair]) a := by
  have old {other : Stmt × Check.Declared} (mem : other ∈ declared ++ [pair])
      (registers : other.2 = .struct true ∨ other.2 = .trait true) : other ∈ declared := by
    rcases List.mem_append.mp mem with before | this
    · exact before
    · rw [List.mem_singleton.mp this] at registers
      exact absurd registers (not_or.mpr ⟨struct, trait⟩)
  refine { h with
    structs := fun mem => h.structs (old mem (.inl rfl))
    traits := fun mem => h.traits (old mem (.inr rfl))
    covered := fun known => (h.covered known).imp_right ?_ }
  rintro ⟨decl, mem, name⟩
  exact ⟨decl, List.mem_append_left _ mem, name⟩

/-- The name of a new struct is declared. -/
theorem Extends.declareStruct (h : base.Extends declared a) (decl : StructDecl Stmt)
    (new : a.structs.contains decl.name = false) :
    base.Extends (declared ++ [(.struct decl, .struct true)]) (Check.Evolving.boundType
      (a.withStruct decl.name { decl }) decl.name (.struct decl.name)) := by
  -- structs are never taken off the record, so a name that is new now was new before
  have fresh : base.structs.contains decl.name = false := by
    rw [Bool.eq_false_iff]
    intro known
    rw [h.settles.contains known] at new
    cases new
  have settles := h.settles.withStruct fresh { decl }
  have registered : (a.withStruct decl.name { decl }).Registered :=
    h.registered.withStruct rfl (by rintro _ _ ⟨⟩) (by rintro _ ⟨⟩)
  refine {
    registered := registered.boundType trivial (by rintro _ ⟨⟩)
    settles := { settles with }
    deferred := h.deferred
    structs := fun {other} mem => ?_
    traits := fun mem => ?_
    covered := fun {name} known => ?_ }
  · rcases List.mem_append.mp mem with before | this
    · obtain ⟨newBefore, info, found, same⟩ := h.structs before
      refine ⟨newBefore, info, ?_, same⟩
      refine (Table.find?_insert_of_ne _ _ ?_).trans found
      intro clash
      rw [Table.contains, clash, found] at new
      cases new
    · cases List.mem_singleton.mp this
      exact ⟨fresh, _, Table.find?_insert_self _ _ _, rfl⟩
  · rcases List.mem_append.mp mem with before | this
    · exact h.traits before
    · cases List.mem_singleton.mp this
  · have known : (a.structs.insert decl.name { decl }).contains name = true := known
    rw [Table.contains_insert, Bool.or_eq_true, decide_eq_true_eq] at known
    rcases known with this | known
    · exact .inr ⟨decl, List.mem_append_right _ List.mem_cons_self, this⟩
    · refine (h.covered known).imp_right ?_
      rintro ⟨other, mem, name⟩
      exact ⟨other, List.mem_append_left _ mem, name⟩

/-- The name of a new trait is declared. -/
theorem Extends.declareTrait (h : base.Extends declared a) (decl : TraitDecl)
    (new : a.traits.contains decl.name = false) :
    base.Extends (declared ++ [(.trait decl, .trait true)]) (Check.Evolving.boundType
      { a with traits := a.traits.insert decl.name {} } decl.name (.trait decl.name)) := by
  have fresh : base.traits.contains decl.name = false := by
    rw [Bool.eq_false_iff]
    intro known
    obtain ⟨info, found⟩ := Option.isSome_iff_exists.mp known
    rw [Table.contains, h.settles.traits found] at new
    cases new
  have settles := h.settles.withTrait fresh {}
  have registered := @Registered.withTrait _ decl.name {} h.registered (by rintro _ _ ⟨⟩) List.nodup_nil
  refine {
    registered := registered.boundType trivial fun _ _ => Table.contains_insert_self _ _ _
    settles := { settles with }
    deferred := h.deferred
    structs := fun mem => ?_
    traits := fun mem => ?_
    covered := fun known => (h.covered known).imp_right ?_ }
  · rcases List.mem_append.mp mem with before | this
    · exact h.structs before
    · cases List.mem_singleton.mp this
  · rcases List.mem_append.mp mem with before | this
    · exact h.traits before
    · cases List.mem_singleton.mp this
      exact fresh
  · rintro ⟨other, mem, name⟩
    exact ⟨other, List.mem_append_left _ mem, name⟩

/-- A trait of the list requires one more method. -/
theorem Extends.requireMethod {decl : TraitDecl} (h : base.Extends declared a)
    (mem : (.trait decl, .trait true) ∈ declared) {method : String} {sig : Ty}
    (known : ∃ params res, sig = .function params res ∧ res.IsKnown) :
    base.Extends declared { a with
      traits := a.traits.insert decl.name
        { (a.traits.find? decl.name).getD {} with
          methods := ((a.traits.find? decl.name).getD {}).methods.insert method sig } } := by
  have before {other : String} {ty : Ty}
      (there : ((a.traits.find? decl.name).getD {}).methods.find? other = some ty) :
      ∃ params res, ty = .function params res ∧ res.IsKnown := by
    cases found : a.traits.find? decl.name with
    | none => simp [found] at there
    | some info =>
      rw [found] at there
      exact h.registered.required found there
  have distinct : ((a.traits.find? decl.name).getD {}).methods.keys.Nodup := by
    cases found : a.traits.find? decl.name with
    | none => exact List.nodup_nil
    | some info => exact h.registered.distinct found
  refine { h with
    registered := h.registered.withTrait (fun has => ?_) (Table.nodup_keys_insert distinct _ _)
    settles := h.settles.withTrait (h.traits mem) _ }
  dsimp only at has
  rw [Table.find?_insert] at has
  split at has
  · cases has
    exact known
  · exact before has

end Analyzer

namespace Check

open Analyzer (Extends Hoisting)

variable {base : Analyzer} {declared : List (Stmt × Check.Declared)}
variable {a : Analyzer} {ty : Ty}

/-! ## Written types -/

/-- A type name stands for a known type, and for a trait only if there is one of this name. -/
theorem isKnown_of_lookupType? (registered : a.Registered) {name : String}
    (found : a.lookupType? name = some ty) :
    ty.IsKnown ∧ ∀ traitName, ty = .trait traitName → a.traits.contains name = true := by
  obtain ⟨id, -, bound⟩ := List.exists_of_findSome?_eq_some found
  exact registered.types bound

theorem isKnown_of_primitive? {name : String} (found : Ty.primitive? name = some ty) : ty.IsKnown := by
  unfold Ty.primitive? at found
  split at found <;> cases found <;> trivial

/-- A written type is known. -/
theorem resolveType_isKnown (registered : a.Registered) {written : TypeExpr}
    (run : (resolveType written a).result.1 = .ok ty) : ty.IsKnown := by
  cases written with
  | named pos name nilable =>
    rw [resolveType, get_bind] at run
    cases found : Ty.primitive? name <|> a.lookupType? name with
    | none =>
      rw [found] at run
      cases run
      trivial
    | some ty =>
      have known : ty.IsKnown := by
        cases plain : Ty.primitive? name with
        | some other =>
          rw [plain] at found
          cases found
          exact isKnown_of_primitive? plain
        | none =>
          rw [plain] at found
          exact (isKnown_of_lookupType? registered found).1
      rw [found] at run
      cases run
      split
      · exact known.orNil
      · exact known
  | function pos params res nilable =>
    rw [resolveType] at run
    obtain ⟨params, -, run⟩ := ok_of_bind run
    cases res with
    | some res =>
      obtain ⟨res, -, run⟩ := ok_of_bind run
      cases run
      split <;> trivial
    | none =>
      cases run
      split <;> trivial

/-- The type of a function as it is declared. -/
theorem resolveSignature_function {params : List Param} {res : Option TypeExpr} {missing sig : Ty}
    (run : (resolveSignature params res missing a).result.1 = .ok sig) :
    ∃ params res, sig = .function params res := by
  obtain ⟨params, -, run⟩ := ok_of_bind run
  cases res with
  | some written =>
    obtain ⟨res, -, run⟩ := ok_of_bind run
    cases run
    exact ⟨_, _, rfl⟩
  | none =>
    cases run
    exact ⟨_, _, rfl⟩

/-- The type of a method that a trait requires has a known result. -/
theorem resolveSignature_isKnown (start : base.Extends declared a) {params : List Param}
    {res : Option TypeExpr} {sig : Ty}
    (run : (resolveSignature params res .nil a).result.1 = .ok sig) :
    ∃ params res, sig = .function params res ∧ res.IsKnown := by
  have resolved : ObeysFrom (base.Hoisting declared) a (resolveTypes (params.map Param.written)) :=
    Obeys.steps.resolveTypes _ _
  have registered := (resolved start).1.registered
  obtain ⟨params, -, run⟩ := ok_of_bind run
  cases res with
  | some written =>
    obtain ⟨res, known, run⟩ := ok_of_bind run
    cases run
    exact ⟨_, _, rfl, resolveType_isKnown registered known⟩
  | none =>
    cases run
    exact ⟨_, _, rfl, trivial⟩

/-! ## Names -/

/-- Declaring a name comes to its end, and concerns neither structs nor traits. -/
theorem declare_adjusts (name : String) (ty : Ty) (kind : SymbolKind) (pos : Position)
    (a : Analyzer) : ∃ ref after reports,
    declare name ty kind pos a = ⟨(.ok ref, after), reports⟩ ∧ a.Adjusts after ∧
      ∀ report ∈ reports, report.problem.onConformance = false := by
  have added := Analyzer.Adjusts.addName a name ty kind pos
  cases found : (a.frame a.scope).symbols.find? name with
  | some taken =>
    exact ⟨_, _, _, declare_of_taken ty kind pos found, added, List.forall_mem_singleton.mpr rfl⟩
  | none =>
    exact ⟨_, _, _, declare_of_free ty kind pos found,
      added.trans (.modifyFrame _ _ fun _ => rfl), List.forall_mem_nil _⟩

theorem typeNameFree_quiet (name : String) (pos : Position) (a : Analyzer) :
    ∀ report ∈ (typeNameFree name pos a).reports,
      report.problem.onConformance = false := by
  rw [typeNameFree, get_bind]
  split
  · exact List.forall_mem_singleton.mpr rfl
  · exact List.forall_mem_nil _

/-- A statement declares its name. -/
theorem declareName_run (stmt : Stmt) (h : base.Extends declared a) : ∃ res after reports,
    declareName stmt a = ⟨(.ok res, after), reports⟩ ∧
      base.Extends (declared ++ [(stmt, res)]) after ∧
      ∀ report ∈ reports, report.problem.onConformance = false := by
  cases stmt with
  | trait decl =>
    have quiet := typeNameFree_quiet decl.name decl.position a
    rcases Evolving.typeNameFree_run decl.name decl.position a with
      ⟨reports, run⟩ | ⟨run, -, -, noTrait⟩
    · rw [run] at quiet
      refine ⟨.trait false, a, reports ++ [], ?_, h.skip (by simp) (by simp), by simpa using quiet⟩
      rw [declareName, bind_apply, run]
      rfl
    · refine ⟨.trait true, _, [], ?_, h.declareTrait decl noTrait, List.forall_mem_nil _⟩
      rw [declareName, bind_apply, run]
      rfl
  | struct decl =>
    have quiet := typeNameFree_quiet decl.name decl.position a
    rcases Evolving.typeNameFree_run decl.name decl.position a with
      ⟨reports, run⟩ | ⟨run, -, noStruct, -⟩
    · rw [run] at quiet
      refine ⟨.struct false, a, reports ++ [], ?_, h.skip (by simp) (by simp), by simpa using quiet⟩
      rw [declareName, bind_apply, run]
      rfl
    · obtain ⟨ref, after, reports, named, adjusts, quiet⟩ := declare_adjusts decl.name
        (.struct decl.name) .struct decl.position (Evolving.boundType
          (a.withStruct decl.name { decl }) decl.name (.struct decl.name))
      refine ⟨.struct true, after, reports ++ [], ?_, (h.declareStruct decl noStruct).adjust adjusts,
        by simpa using quiet⟩
      rw [declareName, bind_apply, run]
      simp only [if_true, modify_bind, Evolving.bindType_bind]
      rw [bind_apply, named]
      rfl
  | function decl =>
    obtain ⟨ref, after, reports, run, adjusts, quiet⟩ := declare_adjusts decl.name
      (.function [] .unknown) .function decl.position a
    -- a function adds no member to a struct or a trait
    have declares : base.Extends (declared ++ [(.function decl, .function (.function ref.id))]) after :=
      (h.adjust adjusts).skip (by simp) (by simp)
    refine ⟨.function (.function ref.id), { after with
      pending := after.pending.insert (.function ref.id) ⟨decl, after.site⟩ }, reports ++ [], ?_, ?_,
      by simpa using quiet⟩
    · rw [declareName, bind_apply, run]
      rfl
    · refine { declares with
        registered := declares.registered.congr rfl rfl rfl
        settles := { declares.settles with started := fun known begun => ?_ } }
      rw [Table.contains_insert, declares.settles.started known begun]
      rfl
  | _ => exact ⟨.nothing, a, [], rfl, h.skip (by simp) (by simp), List.forall_mem_nil _⟩

/-- The statements of a list declare their names. -/
theorem declareNames_run (stmts : List Stmt) (h : base.Extends declared a) :
    ∃ results after reports,
    (stmts.mapM fun stmt => return (stmt, ← declareName stmt)) a =
        ⟨(.ok results, after), reports⟩ ∧
      base.Extends (declared ++ results) after ∧
      ∀ report ∈ reports, report.problem.onConformance = false := by
  induction stmts generalizing a declared with
  | nil => exact ⟨[], a, [], rfl, (List.append_nil declared).symm ▸ h, List.forall_mem_nil _⟩
  | cons stmt rest ih =>
    obtain ⟨first, mid, reports, run, extended, quiet⟩ := declareName_run stmt h
    obtain ⟨others, after, more, runRest, all, quietRest⟩ := ih extended
    refine ⟨(stmt, first) :: others, after, reports ++ more, ?_, ?_,
      List.forall_mem_append.mpr ⟨quiet, quietRest⟩⟩
    · rw [List.mapM_cons, bind_assoc, bind_apply, run]
      simp only [pure_bind]
      rw [bind_apply, runRest]
      exact congrArg (Reported.mk _ ) (congrArg (reports ++ ·) (List.append_nil more))
    · rwa [List.append_assoc, List.singleton_append] at all

/-! ## Members -/

theorem hoisting_resolveTrait {decl : TraitDecl} (mem : (.trait decl, .trait true) ∈ declared) :
    Obeys (base.Hoisting declared) (resolveTrait decl) := by
  refine Obeys.steps.forM _ fun method _ => Obeys.get fun a => ?_
  refine Obeys.ite (Obeys.report rfl _) fun start holds => ?_
  have resolved : ObeysFrom (base.Hoisting declared) start
      (resolveSignature method.params method.result .nil) := Obeys.steps.resolveSignature _ _ _ _
  refine ObeysFrom.bind resolved (fun sig run mid => ?_) holds
  have known := resolveSignature_isKnown holds run
  exact ⟨mid.requireMethod mem known, .refl _, List.forall_mem_nil _⟩

/-- The traits that a struct lists. -/
theorem hoisting_resolveTraitRef {decl : StructDecl Stmt} {ref : TraitRef}
    (mem : (.struct decl, .struct true) ∈ declared) (listed : ref ∈ decl.traits) :
    Obeys (base.Hoisting declared) (resolveTraitRef decl ref) := by
  refine Obeys.getFrom fun a => ?_
  dsimp only
  split
  · exact Obeys.report rfl _ _
  · rename_i found
    split
    · exact Obeys.report rfl _ _
    · intro start
      obtain ⟨-, info, there, same⟩ := start.structs mem
      change base.Extends declared (a.modifyStruct decl.name _) ∧
        a.KeepsTraits (a.modifyStruct decl.name _) ∧ _
      rw [Analyzer.modifyStruct_of_find? there]
      have methods {method : String} {ty : Ty} (has : info.methods.find? method = some ty) :=
        start.registered.methods there has
      refine ⟨start.withStruct mem same (start.registered.withStruct (same ▸ rfl) methods fun has => ?_),
        @Analyzer.KeepsTraits.withStruct _ _ info _ there rfl (List.subset_append_left _ _),
        List.forall_mem_nil _⟩
      rcases List.mem_append.mp has with before | this
      · have declares := start.registered.listed there before
        exact declares
      · rw [List.mem_singleton.mp this]
        exact ⟨(isKnown_of_lookupType? start.registered found).2 _ rfl, ref, same ▸ listed, rfl⟩
  · exact Obeys.report rfl _ _

/-- The type of a method is resolved, and its body waits. -/
theorem hoisting_resolveMethod {decl : StructDecl Stmt} (mem : (.struct decl, .struct true) ∈ declared)
    (method : FunctionDecl Stmt) : Obeys (base.Hoisting declared) (resolveMethod decl method) := by
  refine Obeys.get fun a => Obeys.ite (Obeys.report rfl _) ?_
  have waiting (params : List Param) (res : Option TypeExpr) (missing : Ty) :
      Obeys (base.Hoisting declared) (do
        let sig ← resolveSignature params res missing
        modify fun a =>
          let changed := a.modifyStruct decl.name fun info =>
            { info with methods := info.methods.insert method.name sig }
          { changed with
            pending := changed.pending.insert (.method decl.name method.name)
              ⟨method, changed.site⟩ } : Check Unit) := by
    intro start
    have resolved : ObeysFrom (base.Hoisting declared) start (resolveSignature params res missing) :=
      Obeys.steps.resolveSignature _ _ _ _
    refine ObeysFrom.bind resolved fun sig run mid => ?_
    obtain ⟨params, res, rfl⟩ := resolveSignature_function run
    obtain ⟨extended, kept⟩ := mid.letMethodWait mem method params res
    exact ⟨extended, kept, List.forall_mem_nil _⟩
  refine Obeys.ite ?_ (waiting _ _ _)
  cases method.result with
  | some written => exact Obeys.bind (Obeys.report rfl _) fun _ => waiting _ _ _
  | none => exact waiting _ _ _

theorem hoisting_resolveField (decl : StructDecl Stmt) (field : FieldDecl) :
    Obeys (base.Hoisting declared) (resolveField decl field) := by
  refine Obeys.get fun a => Obeys.ite (Obeys.report rfl _) ?_
  cases field.written with
  | some written => exact Obeys.bind (Obeys.steps.resolveType _) fun _ => Obeys.modify fun _ => .setField _ _ _ _
  | none => exact Obeys.modify fun _ => .setField _ _ _ _

/-- The members of what a statement of the list declares. -/
theorem hoisting_resolveDeclared {pair : Stmt × Declared} (mem : pair ∈ declared) :
    Obeys (base.Hoisting declared) (resolveDeclared pair) := by
  unfold resolveDeclared
  split
  · exact hoisting_resolveTrait mem
  · rename_i decl
    refine Obeys.bind (Obeys.steps.forM _ fun field _ => hoisting_resolveField decl field) fun _ => ?_
    refine Obeys.bind (Obeys.steps.forM _ fun ref listed => hoisting_resolveTraitRef mem listed) fun _ => ?_
    exact Obeys.steps.forM _ fun method _ => hoisting_resolveMethod mem method
  · refine Obeys.get fun a => Obeys.bind (Obeys.demand _ _) fun _ => ?_
    refine Obeys.bind (Obeys.steps.resolveSignature _ _ _) fun sig => ?_
    exact Obeys.modify fun _ => .modifySymbol _ _ _
  · exact Obeys.pure _

/-! ## Listed traits -/

/-- Whether a struct of a list is registered with some traits. -/
def ListsAll (base : Analyzer) (declared : List (Stmt × Declared)) (decl : StructDecl Stmt)
    (refs : List TraitRef) (a : Analyzer) : Prop :=
  base.Extends declared a ∧ ∃ info, a.structs.find? decl.name = some info ∧
    info.decl = decl ∧ ∀ ref ∈ refs, ref.name ∈ info.traits

section Listed

variable {decl : StructDecl Stmt} {refs : List TraitRef} {start : Analyzer}

/-- What a struct is known to list stays. -/
theorem ensures_listsAll {α : Type} {action : Check α} (h : Obeys (base.Hoisting declared) action)
    (lists : ListsAll base declared decl refs start) :
    Ensures start action fun _ after => ListsAll base declared decl refs after := by
  rintro _ after ⟨reports, run, -⟩
  obtain ⟨extended, info, found, same, listed⟩ := lists
  obtain ⟨later, kept, -⟩ := h start extended
  rw [run] at later kept
  obtain ⟨_, foundLater, sameLater, within⟩ := kept _ _ found
  exact ⟨later, _, foundLater, sameLater.trans same, fun ref mem => within (listed ref mem)⟩

/-- A trait in the declaration of a struct is listed, or there is an error. -/
theorem ensures_resolveTraitRef (mem : (.struct decl, .struct true) ∈ declared) {ref : TraitRef}
    (written : ref ∈ decl.traits) (lists : ListsAll base declared decl refs start) :
    Ensures start (resolveTraitRef decl ref) fun _ after =>
      ListsAll base declared decl (ref :: refs) after := by
  have here : Ensures start (resolveTraitRef decl ref) fun _ after =>
      ∀ info, after.structs.find? decl.name = some info → ref.name ∈ info.traits := by
    refine .get ?_
    dsimp only
    split
    · exact fun _ _ accepted => absurd rfl (accepts_report.mp accepted).1
    · refine .ite (fun _ _ _ accepted => absurd rfl (accepts_report.mp accepted).1) fun _ => .modify ?_
      intro info found
      rw [Analyzer.find?_modifyStruct, if_pos rfl] at found
      obtain ⟨old, -, rfl⟩ := Option.map_eq_some_iff.mp found
      exact List.mem_append_right _ List.mem_cons_self
    · exact fun _ _ accepted => absurd rfl (accepts_report.mp accepted).1
  refine ((ensures_listsAll (hoisting_resolveTraitRef mem written) lists).and here).mono ?_
  rintro _ after ⟨⟨extended, info, found, same, listed⟩, this⟩
  exact ⟨extended, info, found, same, List.forall_mem_cons.mpr ⟨this info found, listed⟩⟩

/-- The traits that a struct lists are registered with it. -/
theorem ensures_resolveTraitRefs (mem : (.struct decl, .struct true) ∈ declared)
    (written : refs ⊆ decl.traits) {before : List TraitRef} (lists : ListsAll base declared decl before start) :
    Ensures start (refs.forM (resolveTraitRef decl)) fun _ after => ListsAll base declared decl refs after := by
  induction refs generalizing start before with
  | nil =>
    obtain ⟨extended, info, found, same, -⟩ := lists
    exact .pure ⟨extended, info, found, same, List.forall_mem_nil _⟩
  | cons ref rest ih =>
    obtain ⟨first, others⟩ := List.cons_subset.mp written
    refine .bind (ensures_resolveTraitRef mem first lists) fun _ mid here => ?_
    have kept := ensures_listsAll
      (Obeys.steps.forM rest fun ref listed => hoisting_resolveTraitRef mem (others listed)) here
    refine (kept.and (ih others here)).mono ?_
    rintro _ after ⟨⟨extended, info, found, same, listed⟩, ⟨-, _, foundAgain, -, more⟩⟩
    rw [found] at foundAgain
    cases foundAgain
    exact ⟨extended, info, found, same, List.forall_mem_cons.mpr ⟨listed ref List.mem_cons_self, more⟩⟩

/-- A struct is registered with all the traits in its declaration, or there is an error. -/
theorem ensures_resolveStruct (mem : (.struct decl, .struct true) ∈ declared)
    (lists : ListsAll base declared decl [] start) :
    Ensures start (resolveStruct decl) fun _ after => ListsAll base declared decl decl.traits after := by
  have fields := ensures_listsAll
    (Obeys.steps.forM decl.fields fun field _ => hoisting_resolveField decl field) lists
  refine .bind fields fun _ mid here => ?_
  refine .bind (ensures_resolveTraitRefs mem (fun _ => id) here) fun _ mid all => ?_
  exact ensures_listsAll (Obeys.steps.forM decl.methods fun method _ => hoisting_resolveMethod mem method) all

/-- The members of all declarations of a list are resolved. -/
theorem ensures_resolveDeclared {pairs : List (Stmt × Declared)} (within : pairs ⊆ declared)
    (extended : base.Extends declared start) :
    Ensures start (pairs.forM resolveDeclared) fun _ after => base.Extends declared after ∧
      ∀ {decl}, (.struct decl, .struct true) ∈ pairs → after.ListsTraits decl.name := by
  induction pairs generalizing start with
  | nil => exact .pure ⟨extended, nofun⟩
  | cons pair rest ih =>
    obtain ⟨first, others⟩ := List.cons_subset.mp within
    intro res after accepted
    obtain ⟨_, mid, checked, more⟩ := accepts_bind.mp accepted
    have resolved := @hoisting_resolveDeclared base declared pair first start extended
    have remaining : Obeys (base.Hoisting declared) (rest.forM resolveDeclared) :=
      Obeys.steps.forM rest fun pair mem => hoisting_resolveDeclared (others mem)
    have ran : (resolveDeclared pair start).result.2 = mid := by
      obtain ⟨reports, run, -⟩ := checked
      rw [run]
    obtain ⟨last, all⟩ := ih others (ran ▸ resolved.1) res after more
    refine ⟨last, fun {decl} mem => ?_⟩
    rcases List.mem_cons.mp mem with this | other
    · subst this
      obtain ⟨-, info, found, same⟩ := extended.structs first
      have lists : ListsAll base declared decl [] start :=
        ⟨extended, info, found, same, List.forall_mem_nil _⟩
      obtain ⟨-, info, found, rfl, listed⟩ := ensures_listsAll remaining
        (ensures_resolveStruct first lists _ mid checked) res after more
      exact ⟨info, found, listed⟩
    · exact all other

end Listed

/-! ## Statement lists -/

/-- What a list declares is registered before its statements are checked. -/
theorem hoist_extends (stmts : List Stmt) {start : Analyzer} (registered : start.Registered) :
    ∃ declared, start.Extends declared (hoist stmts start).result.2 ∧
      (∀ report ∈ (hoist stmts start).reports, report.problem.onConformance = false) ∧
      ∀ results after, Accepts (hoist stmts) start results after → results = declared ∧
        ∀ {decl}, (.struct decl, .struct true) ∈ declared → after.ListsTraits decl.name := by
  have refl : start.Extends [] start :=
    { registered
      settles := (Analyzer.Adjusts.refl start).settles
      deferred := rfl
      structs := nofun
      traits := nofun
      covered := .inl }
  obtain ⟨declared, mid, reports, run, extended, quiet⟩ := declareNames_run stmts refl
  rw [List.nil_append] at extended
  have resolved : ObeysFrom (start.Hoisting declared) mid (do
      declared.forM resolveDeclared
      return declared) :=
    Obeys.bind (Obeys.steps.forM _ fun pair mem => hoisting_resolveDeclared mem) (fun _ => Obeys.pure _) _
  obtain ⟨after, -, later⟩ := resolved extended
  refine ⟨declared, ?_, ?_, fun results last accepted => ?_⟩
  · rw [hoist, bind_apply, run]
    exact after
  · rw [hoist, bind_apply, run]
    exact List.forall_mem_append.mpr ⟨quiet, later⟩
  · obtain ⟨names, _, ⟨_, named, -⟩, accepted⟩ := accepts_bind.mp accepted
    rw [run] at named
    cases named
    obtain ⟨_, _, members, ⟨_, ⟨⟩, -⟩⟩ := accepts_bind.mp accepted
    exact ⟨rfl, (ensures_resolveDeclared (fun _ => id) extended _ _ members).2⟩

end Check

end FlowScript
