import FlowScript.Proofs.Annotation
import FlowScript.Proofs.RunLaws
/-!
# Signatures of methods and conformance

The type of a method has its parameters from the start, and its result too if one is written; else the
result is unknown until the body has been checked.  So a signature only ever changes from one with an
unknown result (`Ty.Refines`), and a method whose body does not wait and is not being checked keeps its
signature (`Analyzer.Settles`).

Conformance is checked when the methods of a struct have been, or at least begun: a method that is being
checked may still have an unknown result.  Main statement: `Check.checkConformance_run`.  A report that a
method does not match is about the signature that the method keeps, unless its result was unknown
(`Analyzer.Honest`), and without an error the struct has what the traits require (`Analyzer.Meets`); both
outlast the rest of the check.
-/

namespace FlowScript

namespace Ty

/-- Whether a signature is another one, or one with the same parameters whose result was unknown. -/
def Refines (before after : Ty) : Prop :=
  after = before ∨
    ∃ params res, before = .function params .unknown ∧ after = .function params res

theorem Refines.trans {first second third : Ty} (left : first.Refines second)
    (right : second.Refines third) : first.Refines third := by
  rcases left with rfl | ⟨params, res, rfl, rfl⟩
  · exact right
  · rcases right with rfl | ⟨same, later, eq, rfl⟩
    · exact .inr ⟨params, res, rfl, rfl⟩
    · cases eq
      exact .inr ⟨params, later, rfl, rfl⟩

/-- Whether a type is known, with `nil` or without. -/
def IsKnown : Ty → Prop
  | .unknown => False
  | .nilable inner => inner.IsKnown
  | _ => True

theorem IsKnown.orNil {ty : Ty} (h : ty.IsKnown) : ty.orNil.IsKnown := by
  cases ty <;> exact h

section Satisfies

variable {conforms wider : String → String → Bool}

/-- What an unknown result satisfies, every result does. -/
theorem satisfies_of_unknown : ∀ expected : Ty, expected.IsKnown →
    satisfies conforms .unknown expected = true → ∀ found, satisfies conforms found expected = true
  | .nilable inner, known, h, found => by
    rw [satisfies, if_neg (by simp [isError])] at h
    rw [satisfies]
    split
    · rfl
    · exact satisfies_of_unknown inner known h _
  | .unknown, known, _, _ => absurd known id
  | .error, _, _, _ => by simp [satisfies, isError]
  | .int, _, h, _ | .float, _, h, _ | .bool, _, h, _ | .string, _, h, _ | .nil, _, h, _
  | .any, _, h, _ | .struct _, _, h, _ | .trait _, _, h, _ | .function _ _, _, h, _ => by
    simp [satisfies, isError] at h

/-- More structs that list more traits do no harm. -/
theorem satisfies_mono (le : ∀ sname traitName, conforms sname traitName = true →
      wider sname traitName = true) {found expected : Ty}
    (h : satisfies conforms found expected = true) : satisfies wider found expected = true := by
  fun_induction satisfies conforms found expected with
  | case1 found inner same => rw [satisfies, if_pos same]
  | case2 found inner other ih => rw [satisfies, if_neg other, ih h]
  | case3 found expected plain same =>
    rw [satisfies.eq_def]
    split
    · exact absurd rfl (plain _)
    · rw [if_pos same]
  | case4 sname traitName _ other =>
    rw [satisfies, if_neg other]
    exact le sname traitName h
  | case5 => cases h

end Satisfies

/-- Whether a method of one type may stand for one of another: it takes the same parameters, and its result
satisfies the other's. -/
def Fits (conforms : String → String → Bool) (found required : Ty) : Prop :=
  ∃ params res expected, found = .function params res ∧ required = .function params expected ∧
    satisfies conforms res expected = true

end Ty

/-! ## What stays of a struct -/

/-- What is known of a struct stays but for the types of fields, and for results of methods that are
unknown. -/
structure StructInfo.Persists (info later : StructInfo) : Prop where
  decl : later.decl = info.decl
  traits : later.traits = info.traits
  methods : ∀ {method signature}, info.methods.find? method = some signature →
    ∃ next, later.methods.find? method = some next ∧ signature.Refines next

theorem StructInfo.Persists.trans {first second third : StructInfo} (left : first.Persists second)
    (right : second.Persists third) : first.Persists third := by
  refine ⟨right.decl.trans left.decl, right.traits.trans left.traits, fun found => ?_⟩
  obtain ⟨next, foundNext, step⟩ := left.methods found
  obtain ⟨last, foundLast, further⟩ := right.methods foundNext
  exact ⟨last, foundLast, step.trans further⟩

theorem StructInfo.interface_eq_iff {info later : StructInfo} :
    later.interface = info.interface ↔
      later.decl = info.decl ∧ later.methods = info.methods ∧ later.traits = info.traits := by
  simp only [StructInfo.interface, Prod.mk.injEq]

namespace Analyzer

/-- What is known of structs and traits stays, and new structs come last. -/
structure Persists (before after : Analyzer) : Prop where
  structs : ∀ {name info}, before.structs.find? name = some info →
    ∃ later, after.structs.find? name = some later ∧ info.Persists later
  traits : ∀ {name info}, before.traits.find? name = some info → after.traits.find? name = some info
  order : before.structs.keys <+: after.structs.keys

/-- Methods whose bodies do not wait, and are not being checked in between, keep their types; no body waits
again. A function whose result is known keeps it. -/
structure Settles (before after : Analyzer) : Prop extends before.Persists after where
  fixed : ∀ {structName method info signature},
    before.pending.contains (.method structName method) = false →
    before.structs.find? structName = some info → info.methods.find? method = some signature →
    ∃ later, after.structs.find? structName = some later ∧
      later.methods.find? method = some signature
  started : ∀ {structName method}, before.structs.contains structName = true →
    before.pending.contains (.method structName method) = false →
    after.pending.contains (.method structName method) = false
  contextCount : before.contexts.size ≤ after.contexts.size
  contexts : ∀ id < before.contexts.size,
    (after.context id).constructor = (before.context id).constructor ∧
      ((before.context id).result ≠ .unknown →
        (after.context id).result = (before.context id).result)

variable {before mid after : Analyzer}

theorem Persists.trans (first : before.Persists mid) (second : mid.Persists after) :
    before.Persists after := by
  refine ⟨fun found => ?_, fun found => second.traits (first.traits found), first.order.trans second.order⟩
  obtain ⟨next, foundNext, step⟩ := first.structs found
  obtain ⟨last, foundLast, further⟩ := second.structs foundNext
  exact ⟨last, foundLast, step.trans further⟩

theorem Persists.contains (h : before.Persists after) {name : String}
    (known : before.structs.contains name = true) : after.structs.contains name = true := by
  obtain ⟨info, found⟩ := Option.isSome_iff_exists.mp known
  obtain ⟨later, foundLater, -⟩ := h.structs found
  exact Option.isSome_iff_exists.mpr ⟨later, foundLater⟩

/-- A struct that is declared lists the same traits later. -/
theorem Persists.conforms_eq (h : before.Persists after) {name : String}
    (known : before.structs.contains name = true) (traitName : String) :
    after.conforms name traitName = before.conforms name traitName := by
  obtain ⟨info, found⟩ := Option.isSome_iff_exists.mp known
  obtain ⟨later, foundLater, same⟩ := h.structs found
  simp only [conforms, found, foundLater, same.traits]

theorem contains_of_conforms {a : Analyzer} {name traitName : String}
    (h : a.conforms name traitName = true) : a.structs.contains name = true := by
  unfold conforms at h
  split at h
  · rename_i info found
    exact Option.isSome_iff_exists.mpr ⟨info, found⟩
  · cases h

theorem Persists.conforms (h : before.Persists after) {name traitName : String}
    (holds : before.conforms name traitName = true) : after.conforms name traitName = true :=
  (h.conforms_eq (contains_of_conforms holds) traitName).trans holds

theorem Settles.trans (first : before.Settles mid) (second : mid.Settles after) :
    before.Settles after where
  toPersists := first.toPersists.trans second.toPersists
  fixed begun declared found := by
    have known : before.structs.contains _ = true := Option.isSome_iff_exists.mpr ⟨_, declared⟩
    obtain ⟨next, foundNext, same⟩ := first.fixed begun declared found
    exact second.fixed (first.started known begun) foundNext same
  started known begun := second.started (first.contains known) (first.started known begun)
  contextCount := Nat.le_trans first.contextCount second.contextCount
  contexts id old := by
    obtain ⟨flag, res⟩ := first.contexts id old
    obtain ⟨later, kept⟩ := second.contexts id (Nat.lt_of_lt_of_le old first.contextCount)
    refine ⟨later.trans flag, fun known => ?_⟩
    rw [kept (by rwa [res known]), res known]

theorem Adjusts.interface (h : before.Adjusts after) {name : String} {info : StructInfo}
    (found : before.structs.find? name = some info) :
    ∃ later, after.structs.find? name = some later ∧ later.decl = info.decl ∧
      later.methods = info.methods ∧ later.traits = info.traits := by
  have same := h.structs name
  rw [found, Option.map_some] at same
  obtain ⟨later, foundLater, eq⟩ := Option.map_eq_some_iff.mp same
  exact ⟨later, foundLater, StructInfo.interface_eq_iff.mp eq⟩

theorem Adjusts.symm_interface (h : before.Adjusts after) {name : String} {later : StructInfo}
    (found : after.structs.find? name = some later) :
    ∃ info, before.structs.find? name = some info ∧ later.decl = info.decl ∧
      later.methods = info.methods ∧ later.traits = info.traits := by
  have same := h.structs name
  rw [found, Option.map_some] at same
  obtain ⟨info, foundBefore, eq⟩ := Option.map_eq_some_iff.mp same.symm
  exact ⟨info, foundBefore, StructInfo.interface_eq_iff.mp eq.symm⟩

theorem Adjusts.contains (h : before.Adjusts after) (name : String) :
    after.structs.contains name = before.structs.contains name := by
  have same := congrArg Option.isSome (h.structs name)
  rwa [Option.isSome_map, Option.isSome_map] at same

theorem Adjusts.settles (h : before.Adjusts after) : before.Settles after where
  structs found := by
    obtain ⟨later, foundLater, decl, methods, traits⟩ := h.interface found
    exact ⟨later, foundLater, decl, traits, fun found => ⟨_, by rwa [methods], .inl rfl⟩⟩
  traits found := by rwa [h.traits]
  order := h.order ▸ List.prefix_rfl
  fixed _ declared found := by
    obtain ⟨later, foundLater, -, methods, -⟩ := h.interface declared
    exact ⟨later, foundLater, by rwa [methods]⟩
  started _ begun := by rwa [h.pending]
  contextCount := Nat.le_of_eq h.contextCount.symm
  contexts id _ := ⟨h.constructors id, h.results id⟩

/-- The state with what is known of a struct. -/
abbrev withStruct (a : Analyzer) (name : String) (info : StructInfo) : Analyzer :=
  { a with structs := a.structs.insert name info }

theorem modifyStruct_of_find? {a : Analyzer} {name : String} {info : StructInfo}
    (found : a.structs.find? name = some info) (f : StructInfo → StructInfo) :
    a.modifyStruct name f = a.withStruct name (f info) := by
  rw [modifyStruct, found]

/-! ## What is registered -/

/-- A state in which methods and what traits require are functions, results that traits require are known,
and what a struct lists is a trait. -/
structure Registered (analyzer : Analyzer) : Prop where
  named : ∀ {name info}, analyzer.structs.find? name = some info → info.decl.name = name
  methods : ∀ {name info method signature}, analyzer.structs.find? name = some info →
    info.methods.find? method = some signature → ∃ params result, signature = .function params result
  required : ∀ {name info method signature}, analyzer.traits.find? name = some info →
    info.methods.find? method = some signature →
    ∃ params result, signature = .function params result ∧ result.IsKnown
  distinct : ∀ {name info}, analyzer.traits.find? name = some info → info.methods.keys.Nodup
  listed : ∀ {name info traitName}, analyzer.structs.find? name = some info →
    traitName ∈ info.traits → analyzer.traits.contains traitName = true ∧
      ∃ ref ∈ info.decl.traits, ref.name = traitName
  types : ∀ {id name ty}, (analyzer.frame id).types.find? name = some ty →
    ty.IsKnown ∧ ∀ traitName, ty = .trait traitName → analyzer.traits.contains name = true

/-- What is registered stays so in an adjusted state. -/
theorem Registered.adjust (h : before.Registered) (adjusts : before.Adjusts after) :
    after.Registered where
  named found := by
    obtain ⟨info, foundBefore, decl, -, -⟩ := adjusts.symm_interface found
    rw [decl]
    exact h.named foundBefore
  methods found listed := by
    obtain ⟨info, foundBefore, -, methods, -⟩ := adjusts.symm_interface found
    rw [methods] at listed
    exact h.methods foundBefore listed
  required found := by
    rw [adjusts.traits] at found
    exact h.required found
  distinct found := by
    rw [adjusts.traits] at found
    exact h.distinct found
  listed found mem := by
    obtain ⟨info, foundBefore, decl, -, traits⟩ := adjusts.symm_interface found
    rw [traits] at mem
    rw [decl, adjusts.traits]
    exact h.listed foundBefore mem
  types found := by
    rw [adjusts.traits]
    exact h.types (adjusts.types _ _ _ found)

/-- Only structs, traits and the names of types matter, of which there may be fewer. -/
theorem Registered.narrow (h : before.Registered) (structs : after.structs = before.structs)
    (traits : after.traits = before.traits)
    (types : ∀ {id name ty}, (after.frame id).types.find? name = some ty →
      (before.frame id).types.find? name = some ty) : after.Registered := by
  refine ⟨?_, ?_, ?_, ?_, ?_, fun found => ?_⟩
  all_goals simp only [structs, traits]
  · exact h.named
  · exact h.methods
  · exact h.required
  · exact h.distinct
  · exact h.listed
  · exact h.types (types found)

theorem Registered.congr (h : before.Registered) (structs : after.structs = before.structs)
    (traits : after.traits = before.traits) (frames : after.frames = before.frames) :
    after.Registered := by
  have frame (id : Nat) : after.frame id = before.frame id := by rw [Analyzer.frame, frames]; rfl
  exact h.narrow structs traits fun found => frame _ ▸ found

/-! ## Conformance -/

/-- Whether a struct is registered with all the traits that its declaration lists. -/
def ListsTraits (a : Analyzer) (sname : String) : Prop :=
  ∃ info, a.structs.find? sname = some info ∧
    ∀ ref ∈ info.decl.traits, ref.name ∈ info.traits

theorem ListsTraits.persist {sname : String} (h : before.ListsTraits sname)
    (persists : before.Persists after) : after.ListsTraits sname := by
  obtain ⟨info, declared, listed⟩ := h
  obtain ⟨later, foundLater, step⟩ := persists.structs declared
  refine ⟨later, foundLater, fun ref mem => ?_⟩
  rw [step.traits]
  exact listed ref (step.decl ▸ mem)

/-- Whether a struct has all that the traits in its declaration require. -/
def Meets (a : Analyzer) (sname : String) : Prop :=
  ∃ info, a.structs.find? sname = some info ∧ ∀ ref ∈ info.decl.traits,
    ref.name ∈ info.traits ∧ ∃ traitInfo, a.traits.find? ref.name = some traitInfo ∧
      ∀ {method required}, traitInfo.methods.find? method = some required →
        ∃ found, info.methods.find? method = some found ∧ found.Fits a.conforms required

/-- Whether a report on a method that does not match what a trait requires is right: the trait requires
that, the method has the signature of the report, unless its result was unknown then, and the signature
does not fit, as far as the structs go that were declared when it was compared: those that come before the
struct in the order of declaration, the struct itself and maybe more. -/
def Honest (a : Analyzer) (report : CheckReport) : Prop :=
  ∀ sname method traitName required found,
    report.problem = .traitMethodMismatch sname method traitName required found →
    ∃ info traitInfo final, a.structs.find? sname = some info ∧
      traitName ∈ info.traits ∧ a.traits.find? traitName = some traitInfo ∧
      traitInfo.methods.find? method = some required ∧ info.methods.find? method = some final ∧
      found.Refines final ∧ ∃ declared, declared <+: a.structs.keys ∧ sname ∈ declared ∧
        ¬found.Fits (fun name other => declared.contains name && a.conforms name other) required

/-- A report that was right stays right. -/
theorem Honest.persist {report : CheckReport} (h : before.Honest report)
    (persists : before.Persists after) : after.Honest report := by
  intro sname method traitName required found same
  obtain ⟨info, traitInfo, final, declared, listed, trait, requires, has, refines, names, first, mem,
    misfit⟩ := h sname method traitName required found same
  obtain ⟨later, foundLater, step⟩ := persists.structs declared
  obtain ⟨next, hasNext, further⟩ := step.methods has
  refine ⟨later, traitInfo, next, foundLater, step.traits ▸ listed, persists.traits trait, requires,
    hasNext, refines.trans further, names, first.trans persists.order, mem, ?_⟩
  have same : (fun name other => names.contains name && after.conforms name other) =
      fun name other => names.contains name && before.conforms name other := by
    funext name other
    cases listed : names.contains name with
    | false => rfl
    | true =>
      have known := first.subset (List.contains_iff_mem.mp listed)
      rw [persists.conforms_eq ((Table.contains_iff_mem_keys _ name).mpr known)]
  rwa [same]

/-- What conforms goes on to, for results that are unknown satisfy only what all results do. -/
theorem Meets.persist {sname : String} (registered : before.Registered)
    (h : before.Meets sname) (persists : before.Persists after) : after.Meets sname := by
  obtain ⟨info, declared, traits⟩ := h
  obtain ⟨later, foundLater, step⟩ := persists.structs declared
  refine ⟨later, foundLater, fun ref mem => ?_⟩
  obtain ⟨listed, traitInfo, trait, methods⟩ := traits ref (step.decl ▸ mem)
  refine ⟨step.traits ▸ listed, traitInfo, persists.traits trait, fun requires => ?_⟩
  obtain ⟨found, has, fits⟩ := methods requires
  obtain ⟨next, hasNext, refines⟩ := step.methods has
  refine ⟨next, hasNext, ?_⟩
  obtain ⟨params, res, expected, rfl, rfl, satisfied⟩ := fits
  obtain ⟨_, _, eq, known⟩ := registered.required trait requires
  cases eq
  have satisfied := Ty.satisfies_mono (fun _ _ => persists.conforms) satisfied
  rcases refines with rfl | ⟨params, later, eq, rfl⟩
  · exact ⟨params, res, expected, rfl, rfl, satisfied⟩
  · cases eq
    exact ⟨params, later, expected, rfl, rfl, Ty.satisfies_of_unknown expected known satisfied later⟩

end Analyzer

namespace Check

/-- Steps that leave the state, one after another. -/
theorem forM_still {ι : Type} {f : ι → Check Unit} {a : Analyzer}
    {verdict : ι → List CheckReport → Prop} (items : List ι)
    (h : ∀ item ∈ items, ∃ reports, f item a = ⟨(.ok (), a), reports⟩ ∧
      verdict item reports) :
    ∃ reports, items.forM f a = ⟨(.ok (), a), reports⟩ ∧
      (∀ report ∈ reports, ∃ item ∈ items, ∃ part, verdict item part ∧ report ∈ part) ∧
      ∀ item ∈ items, ∃ part, verdict item part ∧ part ⊆ reports := by
  induction items with
  | nil => exact ⟨[], rfl, List.forall_mem_nil _, List.forall_mem_nil _⟩
  | cons item rest ih =>
    obtain ⟨first, others⟩ := List.forall_mem_cons.mp h
    obtain ⟨part, run, holds⟩ := first
    obtain ⟨reports, runRest, sources, parts⟩ := ih others
    refine ⟨part ++ reports, ?_, ?_, ?_⟩
    · change (f item >>= fun _ => rest.forM f) a = _
      rw [bind_apply, run]
      dsimp only
      rw [runRest]
    · intro report mem
      rcases List.mem_append.mp mem with here | there
      · exact ⟨item, List.mem_cons_self, part, holds, here⟩
      · obtain ⟨other, listed, rest⟩ := sources report there
        exact ⟨other, List.mem_cons_of_mem _ listed, rest⟩
    · refine List.forall_mem_cons.mpr ⟨⟨part, holds, List.subset_append_left _ _⟩, fun other listed => ?_⟩
      obtain ⟨piece, good, within⟩ := parts other listed
      exact ⟨piece, good, List.Subset.trans within (List.subset_append_right _ _)⟩

section Conformance

variable {a : Analyzer} {sname : String} {info : StructInfo} {traitInfo : TraitInfo}

/-- What is reported of one required method. -/
inductive Verdict (analyzer : Analyzer) (info : StructInfo) (traitName method : String) (required : Ty) :
    List CheckReport → Prop
  | fits (found : Ty) (has : info.methods.find? method = some found)
    (fits : found.Fits analyzer.conforms required) : Verdict analyzer info traitName method required []
  | missing (position : Option Position) : Verdict analyzer info traitName method required
    [⟨.missingTraitMethod info.decl.name method traitName required, position⟩]
  | misfit (found : Ty) (position : Option Position) (has : info.methods.find? method = some found)
    (misfit : ¬found.Fits analyzer.conforms required) : Verdict analyzer info traitName method required
    [⟨.traitMethodMismatch info.decl.name method traitName required found, position⟩]

/-- The verdict on one method that a trait requires. -/
theorem checkRequired_verdict (registered : a.Registered)
    (declared : a.structs.find? sname = some info) {traitName : String}
    (trait : a.traits.find? traitName = some traitInfo) (ref : TraitRef) {method : String}
    {required : Ty} (requires : traitInfo.methods.find? method = some required) :
    ∃ reports, checkRequired info traitName ref (method, required) a =
      ⟨(.ok (), a), reports⟩ ∧ Verdict a info traitName method required reports := by
  obtain ⟨wanted, expected, rfl, -⟩ := registered.required trait requires
  rw [checkRequired, get_bind]
  dsimp only
  cases has : info.methods.find? method with
  | none => exact ⟨_, rfl, .missing _⟩
  | some found =>
    obtain ⟨params, res, rfl⟩ := registered.methods declared has
    dsimp only
    split
    · rename_i differs
      refine ⟨_, rfl, .misfit _ _ has ?_⟩
      rintro ⟨_, _, _, ⟨⟩, ⟨⟩, satisfied⟩
      simp [satisfied] at differs
    · rename_i agrees
      rw [Bool.not_eq_true, Bool.not_eq_false', Bool.and_eq_true, decide_eq_true_eq] at agrees
      obtain ⟨rfl, satisfied⟩ := agrees
      exact ⟨_, rfl, .fits _ has ⟨params, res, expected, rfl, rfl, satisfied⟩⟩

/-- A report on one required method is right. -/
theorem Verdict.honest (declared : a.structs.find? sname = some info)
    (name : info.decl.name = sname) {traitName : String} (listed : traitName ∈ info.traits)
    (trait : a.traits.find? traitName = some traitInfo) {method : String} {required : Ty}
    (requires : traitInfo.methods.find? method = some required) {reports : List CheckReport}
    (verdict : Verdict a info traitName method required reports) :
    ∀ report ∈ reports, a.Honest report := by
  intro report mem
  cases verdict with
  | fits found has fits => cases mem
  | missing pos =>
    rw [List.mem_singleton.mp mem]
    rintro _ _ _ _ _ ⟨⟩
  | misfit found pos has misfit =>
    rw [List.mem_singleton.mp mem]
    rintro _ _ _ _ _ ⟨⟩
    have mem_keys : sname ∈ a.structs.keys := by
      rw [← Table.contains_iff_mem_keys, Table.contains, declared]
      rfl
    refine ⟨info, traitInfo, found, name ▸ declared, listed, trait, requires, has, .inl rfl,
      a.structs.keys, List.prefix_rfl, name ▸ mem_keys, ?_⟩
    -- only declared structs conform, so restricting the relation to them changes nothing
    have same : (fun name other => a.structs.keys.contains name && a.conforms name other) =
        a.conforms := by
      funext name other
      cases holds : a.conforms name other with
      | false => exact Bool.and_false _
      | true =>
        rw [Bool.and_true, List.contains_iff_mem, ← Table.contains_iff_mem_keys]
        exact Analyzer.contains_of_conforms holds
    rwa [same]

/-- The check of a struct against one trait that it may list leaves the state. -/
theorem checkListed_run (registered : a.Registered)
    (declared : a.structs.find? sname = some info) (ref : TraitRef) :
    ∃ reports, (do
        let a ← get
        let info := (a.structs.find? sname).getD default
        match a.traits.find? ref.name with
        | some traitInfo =>
          if info.traits.contains ref.name then
            traitInfo.methods.entries.forM (checkRequired info ref.name ref)
        | none => return : Check Unit) a = ⟨(.ok (), a), reports⟩ ∧
      (∀ report ∈ reports, a.Honest report) ∧
      ((∀ report ∈ reports, report.problem.severity ≠ .error) → ref.name ∈ info.traits →
        ∃ traitInfo, a.traits.find? ref.name = some traitInfo ∧
          ∀ {method required}, traitInfo.methods.find? method = some required →
            ∃ found, info.methods.find? method = some found ∧
              found.Fits a.conforms required) := by
  rw [get_bind, declared, Option.getD_some]
  cases trait : a.traits.find? ref.name with
  | none =>
    refine ⟨[], rfl, List.forall_mem_nil _, fun _ listed => ?_⟩
    -- a trait that a struct lists has been declared
    have known := (registered.listed declared listed).1
    rw [Table.contains, trait] at known
    cases known
  | some traitInfo =>
    dsimp only
    split
    · rename_i listed
      have listed := List.contains_iff_mem.mp listed
      have requires {entry : String × Ty} (mem : entry ∈ traitInfo.methods.entries) :=
        Table.find?_of_mem (registered.distinct trait) mem
      obtain ⟨reports, run, sources, parts⟩ := forM_still traitInfo.methods.entries
        fun entry mem => checkRequired_verdict registered declared trait ref (requires mem)
      refine ⟨reports, run, fun report mem => ?_, fun clean _ => ⟨traitInfo, rfl, fun found => ?_⟩⟩
      · obtain ⟨entry, bound, part, verdict, here⟩ := sources report mem
        exact verdict.honest declared (registered.named declared) listed trait (requires bound) report here
      · obtain ⟨part, verdict, within⟩ := parts _ (Table.mem_of_lookup found)
        cases verdict with
        | fits found has fits => exact ⟨found, has, fits⟩
        | missing pos => exact absurd rfl (clean _ (within List.mem_cons_self))
        | misfit found pos has misfit => exact absurd rfl (clean _ (within List.mem_cons_self))
    · rename_i other
      exact ⟨[], rfl, List.forall_mem_nil _, fun _ listed => absurd (List.contains_iff_mem.mpr listed) other⟩

/-- The check of a struct against the traits that it lists leaves the state; its reports are right, and if
none is an error, the struct has what the traits in its declaration require. -/
theorem checkConformance_run (registered : a.Registered) (sname : String) :
    ∃ reports, checkConformance sname a = ⟨(.ok (), a), reports⟩ ∧
      (∀ report ∈ reports, a.Honest report) ∧
      ((∀ report ∈ reports, report.problem.severity ≠ .error) →
        a.ListsTraits sname → a.Meets sname) := by
  rw [checkConformance, get_bind]
  cases declared : a.structs.find? sname with
  | none =>
    refine ⟨[], rfl, List.forall_mem_nil _, fun _ lists => ?_⟩
    obtain ⟨info, found, -⟩ := lists
    rw [declared] at found
    cases found
  | some info =>
    rw [Option.getD_some]
    obtain ⟨reports, run, sources, parts⟩ := forM_still info.decl.traits
      fun ref _ => checkListed_run registered declared ref
    refine ⟨reports, run, fun report mem => ?_, fun clean lists => ⟨info, declared, fun ref mem => ?_⟩⟩
    · obtain ⟨ref, -, part, ⟨honest, -⟩, here⟩ := sources report mem
      exact honest report here
    · obtain ⟨_, found, listed⟩ := lists
      rw [declared] at found
      cases found
      obtain ⟨part, ⟨-, meets⟩, within⟩ := parts ref mem
      exact ⟨listed ref mem, meets (fun report here => clean report (within here)) (listed ref mem)⟩

end Conformance

end Check

end FlowScript
