import FlowScript.Proofs.AcceptedPrograms
import FlowScript.Proofs.ConformingRuns
/-!
# Structs of accepted programs conform to their traits

A method may stand for one that a trait requires if it takes the same parameters and its result satisfies
the required one.  This is decided by a relation of its own, `Ty.satisfies`, which agrees with the flow of
values where nothing is widened (`Ty.satisfies_iff_coerce?`).

Structs are compared with their traits at various times, some while a method is still being checked.  In an
accepted program all of them conform in the end (`Session.accepted_structs_conform`), and each struct that the
program declares is among them (`Session.accepted_structs_registered`).  A report that a method
does not match may come too early: its result may not be known yet, or be a struct that is declared later on,
whose name only a host function can mention before.  Every other report is right about the signature that the
method has in the end (`Session.mismatch_reports`).
-/

namespace FlowScript

namespace Ty

variable {conforms narrow wide : String → String → Bool}

/-- A type without `nil`, however often it was added. -/
def core : Ty → Ty
  | .nilable inner => inner.core
  | ty => ty

theorem core_inner (ty : Ty) : ty.inner.core = ty.core := by
  cases ty <;> rfl

/-- What satisfies a result flows into it as it is. -/
theorem coerce?_of_satisfies {found expected : Ty} (h : satisfies conforms found expected = true) :
    coerce? conforms found expected = some .exact := by
  fun_induction satisfies conforms found expected with
  | case1 found inner same => rw [coerce?, if_pos same]
  | case2 found inner other ih => rw [coerce?, if_neg other, ih h]
  | case3 found expected plain same =>
    rw [coerce?.eq_def]
    split
    · exact absurd rfl (plain _)
    · rw [if_pos (by tauto)]
  | case4 sname traitName _ other =>
    rw [coerce?, if_neg (by simp [isError])]
    exact if_pos h
  | case5 => cases h

/-- The flow of values and the comparison of results agree but for what takes every value. -/
theorem satisfies_iff_coerce? {found expected : Ty} (typed : expected.core ≠ .any) :
    satisfies conforms found expected = true ↔ coerce? conforms found expected = some .exact := by
  refine ⟨coerce?_of_satisfies, fun flows => ?_⟩
  fun_induction coerce? conforms found expected with
  | case1 found inner same => rw [satisfies, if_pos same]
  | case2 found inner other ih => rw [satisfies, if_neg other, ih typed flows]
  | case3 found expected plain same =>
    rw [satisfies.eq_def]
    split
    · exact absurd rfl (plain _)
    · have kept : expected ≠ .any := by
        rintro rfl
        exact typed rfl
      rw [if_pos (by tauto)]
  | case4 => cases flows
  | case5 sname traitName conforming _ _ =>
    rw [satisfies, if_neg (by simp [isError])]
    exact conforming
  | case6 => cases flows
  | case7 => cases flows

/-- Whether more structs list a trait matters only for a struct where a trait is expected. -/
theorem satisfies_differs {found expected : Ty} (h : satisfies wide found expected = true)
    (misfit : satisfies narrow found expected ≠ true) :
    ∃ sname traitName, found.core = .struct sname ∧ expected.core = .trait traitName ∧
      wide sname traitName = true ∧ narrow sname traitName ≠ true := by
  fun_induction satisfies wide found expected with
  | case1 found inner same => rw [satisfies, if_pos same] at misfit; exact absurd rfl misfit
  | case2 found inner other ih =>
    rw [satisfies, if_neg other] at misfit
    obtain ⟨sname, traitName, struct, rest⟩ := ih h misfit
    exact ⟨sname, traitName, (core_inner found).symm.trans struct, rest⟩
  | case3 found expected plain same =>
    rw [satisfies.eq_def] at misfit
    split at misfit
    · exact absurd rfl (plain _)
    · exact absurd (if_pos same) misfit
  | case4 sname traitName _ other =>
    rw [satisfies, if_neg other] at misfit
    exact ⟨sname, traitName, rfl, rfl, h, misfit⟩
  | case5 => cases h

end Ty

/-- Only one problem has the code of methods that do not match. -/
theorem CheckProblem.exists_of_code {problem : CheckProblem}
    (code : problem.code = "E_TRAIT_METHOD_SIGNATURE") :
    ∃ sname method traitName required found,
      problem = .traitMethodMismatch sname method traitName required found := by
  unfold CheckProblem.code at code
  split at code <;> first
    | exact ⟨_, _, _, _, _, rfl⟩
    | simp at code

namespace Analyzer

variable {a before after : Analyzer}

/-! ## Between programs -/

/-- A state in which every struct has what the traits in its declaration require. -/
structure Conformed (analyzer : Analyzer) : Prop where
  registered : analyzer.Registered
  meets : ∀ {name}, analyzer.structs.contains name = true → analyzer.Meets name

theorem Conformed.congr (h : before.Conformed) (structs : after.structs = before.structs)
    (traits : after.traits = before.traits)
    (types : ∀ {id name ty}, (after.frame id).types.find? name = some ty →
      (before.frame id).types.find? name = some ty) : after.Conformed := by
  refine ⟨h.registered.narrow structs traits types, ?_⟩
  have same : after.conforms = before.conforms := by
    funext name traitName
    simp only [conforms, structs]
  simp only [Meets, structs, traits, same]
  intro name known
  exact h.meets known

theorem Conformed.begin (h : a.Conformed) (prog : Program) :
    (a.begin prog).Conformed :=
  h.congr rfl rfl id

theorem Conformed.finish (h : a.Conformed) : a.finish.Conformed := by
  refine h.congr rfl rfl fun {id name ty} found => ?_
  by_cases outermost : id < globalFrame + 1
  · rwa [frame_finish_of_lt outermost] at found
  · rw [frame_finish_of_le (by omega)] at found
    cases found

theorem initial_conformed (signatures : List (String × Ty)) : (initial signatures).Conformed := by
  refine ⟨⟨nofun, nofun, nofun, nofun, nofun, fun {id name ty} found => ?_⟩, nofun⟩
  rcases id with _ | _ | id <;> cases found

/-! ## Checking a program -/

theorem Registered.check (registered : a.Registered) (levels : Nat) (prog : Program) :
    a.ConformingRun (Check.stop? (checkStatementsAt levels prog a).result.1).isNone
      (checkStatementsAt levels prog a).reports
      (checkStatementsAt levels prog a).result.2 :=
  (@Checks.obeys Conforming _ levels).statements prog a registered

/-- After an accepted program every struct has what its traits require. -/
theorem Conformed.analyze (config : Config) {prog : Program}
    (conformed : (a.begin prog).Conformed)
    (ok : (a.analyze config prog).1.ok = true) :
    (a.analyze config prog).2.Conformed := by
  obtain ⟨res, after, ⟨reports, run, clean⟩, -, left⟩ := accepts_of_ok ok
  have conforms := conformed.registered.check checkLevels prog
  rw [run] at conforms
  have discharges := conforms.discharges rfl clean
  have finished : after.Conformed := by
    refine ⟨conforms.registered, fun {name} known => ?_⟩
    cases there : (a.begin prog).structs.contains name with
    | false => exact discharges.declared there known
    | true => exact (conformed.meets there).persist conformed.registered conforms.settles.toPersists
  rw [Analyzer.analyze, left]
  exact finished.finish

/-- What a check reports of methods that do not match is right when it is reported. -/
theorem Registered.analyze_honest (config : Config) {prog : Program}
    (registered : (a.begin prog).Registered) {diagnostic : Diagnostic}
    (mem : diagnostic ∈ (a.analyze config prog).1.diagnostics) :
    ∃ report : CheckReport, diagnostic = report.problem.diagnostic config.filename report.position ∧
      (a.analyze config prog).2.Honest report := by
  have honest := (registered.check checkLevels prog).honest
  rw [Analyzer.analyze, analyzeWithin] at mem ⊢
  rcases run : checkStatementsAt checkLevels prog (a.begin prog) with
    ⟨⟨outcome, after⟩, reports⟩
  rw [run] at mem honest
  have made {reports : List CheckReport} (right : ∀ report ∈ reports, after.Honest report)
      (mem : diagnostic ∈ (reports.map fun report =>
        report.problem.diagnostic config.filename report.position).filter Diagnostic.isError) :
      ∃ report : CheckReport, diagnostic = report.problem.diagnostic config.filename report.position ∧
        after.Honest report := by
    obtain ⟨report, listed, same⟩ := List.mem_map.mp (List.mem_filter.mp mem).1
    exact ⟨report, same.symm, right report listed⟩
  rcases outcome with stop | res
  · cases stop with
    | tooDeep =>
      refine made (List.forall_mem_append.mpr ⟨honest, ?_⟩) mem
      exact List.forall_mem_singleton.mpr (honest_of_onConformance rfl _ _)
    | undefined lookup => exact made honest mem
  · exact made honest mem

/-- Whether a struct was declared later than another one. -/
def DeclaredLater (a : Analyzer) (later earlier : String) : Prop :=
  [earlier, later].Sublist a.structs.keys

theorem DeclaredLater.of_keys {earlier later : String} {declared : List String}
    (first : declared <+: a.structs.keys) (before : earlier ∈ declared) (after : later ∉ declared)
    (known : later ∈ a.structs.keys) : a.DeclaredLater later earlier := by
  obtain ⟨rest, keys⟩ := first
  rw [← keys] at known
  have there : later ∈ rest := (List.mem_append.mp known).resolve_left after
  rw [DeclaredLater, ← keys]
  exact (List.singleton_sublist.mpr before).append (List.singleton_sublist.mpr there)

/-- Whether the result of a method was compared too early with the one that a trait requires: it was not
known, or it is a struct that was declared later than that of the method. -/
def Premature (a : Analyzer) (sname : String) (required found : Ty) : Prop :=
  (∃ params, found = .function params .unknown) ∨
    ∃ params res expected late traitName, found = .function params res ∧
      required = .function params expected ∧ res.core = .struct late ∧
      expected.core = .trait traitName ∧ a.conforms late traitName = true ∧
      a.DeclaredLater late sname

/-- Whether what is registered in the end bears out a report that a method does not match what a trait
requires: the struct lists the trait, the trait requires the signature of the report, and the method has that
of the report, or one with the same parameters if its result was unknown. This does not fit, unless it was
compared too early. -/
def BearsOut (registry : Analyzer) (sname method traitName : String) (required found : Ty) : Prop :=
  ∃ info traitInfo final, registry.structs.find? sname = some info ∧ traitName ∈ info.traits ∧
    registry.traits.find? traitName = some traitInfo ∧ traitInfo.methods.find? method = some required ∧
    info.methods.find? method = some final ∧ found.Refines final ∧
    (registry.Premature sname required found ∨
      final = found ∧ ¬final.Fits registry.conforms required)

/-- A signature that does not fit as far as the structs go that were declared first does not fit at all,
unless it was compared too early. -/
theorem premature_or_misfit {sname : String} {required found : Ty} {declared : List String}
    (first : declared <+: a.structs.keys) (before : sname ∈ declared)
    (misfit : ¬found.Fits (fun name other => declared.contains name && a.conforms name other)
      required) :
    a.Premature sname required found ∨ ¬found.Fits a.conforms required := by
  by_cases fits : found.Fits a.conforms required
  · obtain ⟨params, res, expected, rfl, rfl, satisfied⟩ := fits
    obtain ⟨late, traitName, struct, trait, conforms, not⟩ := Ty.satisfies_differs satisfied
      fun narrow => misfit ⟨params, res, expected, rfl, rfl, narrow⟩
    refine .inl (.inr ⟨params, res, expected, late, traitName, rfl, rfl, struct, trait, conforms, ?_⟩)
    refine .of_keys first before (fun known => not ?_) ?_
    · rw [conforms, Bool.and_true, List.contains_iff_mem]
      exact known
    · exact (Table.contains_iff_mem_keys _ late).mp (contains_of_conforms conforms)
  · exact .inr fits

theorem Honest.bearsOut {pos : Option Position} {sname method traitName : String}
    {required found : Ty}
    (h : a.Honest ⟨.traitMethodMismatch sname method traitName required found, pos⟩) :
    a.BearsOut sname method traitName required found := by
  obtain ⟨info, traitInfo, final, declared, listed, trait, requires, has, refines, names, first, before,
    misfit⟩ := h sname method traitName required found rfl
  refine ⟨info, traitInfo, final, declared, listed, trait, requires, has, refines, ?_⟩
  rcases premature_or_misfit first before misfit with early | misfit
  · exact .inl early
  · rcases refines with rfl | ⟨params, res, rfl, rfl⟩
    · exact .inr ⟨rfl, misfit⟩
    · exact .inl (.inl ⟨params, rfl⟩)

end Analyzer

/-! ## Sessions -/

namespace Session

open Analyzer (Conformed)

theorem start_conformed (config : Config) (host : Host) (inputs : List String) :
    ((start config host).after inputs).StartsFrom Conformed :=
  StartsFrom.after ⟨Analyzer.initial_settled _, (Analyzer.initial_conformed _).begin⟩
    (fun _ config _ _ conformed ok next => (conformed.analyze config ok).begin next) inputs

/-- In every session with a host of canonical types, and after any inputs, each struct declaration of a text on
whose program the check reports no error is registered as it stands, be it in a block, a body or a closure. -/
theorem accepted_structs_registered (config : Config) {host : Host}
    (canonical : ∀ fn ∈ host, fn.signature.Canonical) (inputs : List String) {source : String}
    {parsed : ParsedText} (read : parseText config.filename config.maxNestingDepth source = .ok parsed)
    (ok : (((start config host).after inputs).analyzer.analyze config parsed.program).1.ok = true)
    {decl : StructDecl Stmt} (mem : .stmt (.struct decl) ∈ Stmt.nodesOfList parsed.program) :
    (((start config host).after inputs).analyzer.analyze config parsed.program).2.Declares decl := by
  have consistent := ((start_consistent config canonical).after inputs).begin parsed.program
  exact (consistent.analyze_complete config (parseText_plain read) ok).2.2 _ mem

/-- In every session and after any inputs, a program on which the check reports no error leaves structs that
conform: a struct conforms to a trait exactly if its declaration lists it, and every method of the trait is a
method of the struct, with the same parameters and a result that flows into that of the trait as it is.

Results are compared by a relation that agrees with this flow, whichever structs list which traits, for all
types but the one of host parameters that take every value. -/
theorem accepted_structs_conform (config : Config) (host : Host) (inputs : List String)
    (program : Program) :
    let session := (start config host).after inputs
    let registry := (session.analyzer.analyze config program).2
    ((session.analyzer.analyze config program).1.ok = true →
      ∀ structName info, registry.structs.find? structName = some info → ∀ traitName,
        (registry.conforms structName traitName = true ↔ ∃ ref ∈ info.decl.traits, ref.name = traitName) ∧
        (registry.conforms structName traitName = true →
          ∃ traitInfo, registry.traits.find? traitName = some traitInfo ∧
            ∀ method required, traitInfo.methods.find? method = some required →
              ∃ params result expected, required = .function params expected ∧
                info.methods.find? method = some (.function params result) ∧
                Ty.coerce? registry.conforms result expected = some .exact)) ∧
    ∀ (conforms : String → String → Bool) (found expected : Ty), expected.core ≠ .any →
      (Ty.satisfies conforms found expected = true ↔
        Ty.coerce? conforms found expected = some .exact) := by
  intro session registry
  refine ⟨fun ok structName info declared traitName => ?_, fun _ _ _ typed => Ty.satisfies_iff_coerce? typed⟩
  have conformed := ((start_conformed config host inputs).begin program).analyze config ok
  obtain ⟨_, found, meets⟩ := conformed.meets (Option.isSome_iff_exists.mpr ⟨info, declared⟩)
  rw [declared] at found
  cases found
  -- what a struct conforms to is kept in a list, which the check fills from the declaration
  have listed : registry.conforms structName traitName = true ↔ traitName ∈ info.traits := by
    rw [Analyzer.conforms, declared]
    exact List.contains_iff_mem
  rw [listed]
  refine ⟨⟨fun mem => (conformed.registered.listed declared mem).2, ?_⟩, fun mem => ?_⟩
  · rintro ⟨ref, mem, rfl⟩
    exact (meets ref mem).1
  · obtain ⟨-, ref, there, rfl⟩ := conformed.registered.listed declared mem
    obtain ⟨-, traitInfo, trait, methods⟩ := meets ref there
    refine ⟨traitInfo, trait, fun method required requires => ?_⟩
    obtain ⟨_, has, params, result, expected, rfl, rfl, satisfied⟩ := methods requires
    exact ⟨params, result, expected, rfl, has, Ty.coerce?_of_satisfies satisfied⟩

/-- A struct that waits for the types of its fields, with a method whose result is inferred and one that gives
a struct where the trait, which an earlier input declared, gives a trait or `nil`. -/
theorem accepted_structs_conform_deferred :
    let source := "struct Cell: Source \x7b x; fn size() \x7b return 1 \x7d\n" ++
      "fn next() -> Cell? \x7b return Cell(self.x) \x7d \x7d\nvar c = Cell(2)"
    let session := (start {} []).after ["trait Source \x7b fn size() -> int; fn next() -> Source? \x7d"]
    ∃ parsed, parseText "<input>" 64 source = .ok parsed ∧
      let registry := (session.analyzer.analyze {} parsed.program).2
      (session.analyzer.analyze {} parsed.program).1.ok = true ∧
      ∃ info, registry.structs.find? "Cell" = some info ∧ registry.conforms "Cell" "Source" = true ∧
        ∃ traitInfo, registry.traits.find? "Source" = some traitInfo ∧ traitInfo.methods.size = 2 ∧
          ∀ method required, traitInfo.methods.find? method = some required →
            ∃ params result expected, required = .function params expected ∧
              info.methods.find? method = some (.function params result) ∧
              Ty.coerce? registry.conforms result expected = some .exact := by
  intro source session
  have accepted : ((parseText "<input>" 64 source).toOption.map fun parsed =>
      let registry := (session.analyzer.analyze {} parsed.program).2
      (session.analyzer.analyze {} parsed.program).1.ok && registry.conforms "Cell" "Source" &&
        (registry.traits.find? "Source").any fun info => info.methods.size == 2) = some true := by
    decide +kernel
  obtain ⟨parsed, read, accepted⟩ := exists_ok_of_shown accepted
  obtain ⟨both, size⟩ := Bool.and_eq_true_iff.mp accepted
  obtain ⟨ok, conforms⟩ := Bool.and_eq_true_iff.mp both
  obtain ⟨info, declared⟩ := Option.isSome_iff_exists.mp (Analyzer.contains_of_conforms conforms)
  obtain ⟨traitInfo, trait, methods⟩ := ((accepted_structs_conform {} []
    ["trait Source \x7b fn size() -> int; fn next() -> Source? \x7d"] parsed.program).1 ok "Cell" info
      declared "Source").2 conforms
  rw [trait] at size
  exact ⟨parsed, read, ok, info, declared, conforms, traitInfo, trait, eq_of_beq size, methods⟩

/-- In every session and after any inputs, whatever the check of a program reports: a report that a method
does not match what a trait requires is borne out by what is registered when the check is over. -/
theorem mismatch_reports (config : Config) (host : Host) (inputs : List String) (program : Program) :
    let session := (start config host).after inputs
    let registry := (session.analyzer.analyze config program).2
    ∀ diagnostic ∈ (session.analyzer.analyze config program).1.diagnostics,
      diagnostic.code = some "E_TRAIT_METHOD_SIGNATURE" →
      ∃ structName method traitName required found position,
        diagnostic = (CheckProblem.traitMethodMismatch structName method traitName required
          found).diagnostic config.filename position ∧
        registry.BearsOut structName method traitName required found := by
  intro session registry diagnostic mem code
  have registered := ((start_conformed config host inputs).begin program).registered
  obtain ⟨⟨problem, position⟩, rfl, honest⟩ := registered.analyze_honest config mem
  obtain ⟨structName, method, traitName, required, found, rfl⟩ :=
    CheckProblem.exists_of_code (Option.some.inj code)
  exact ⟨structName, method, traitName, required, found, position, rfl, honest.bearsOut⟩

/-- A method that gives another struct than the trait wants, which an earlier input declared. -/
theorem mismatch_reports_struct :
    let source := "struct Cell: Source \x7b fn make() \x7b return Other() \x7d \x7d"
    let session := (start {} []).after ["struct Other \x7b \x7d",
      "trait Shape \x7b \x7d; trait Source \x7b fn make() -> Shape \x7d"]
    ∃ parsed, parseText "<input>" 64 source = .ok parsed ∧
      let registry := (session.analyzer.analyze {} parsed.program).2
      ∃ diagnostic, (session.analyzer.analyze {} parsed.program).1.diagnostics = [diagnostic] ∧
        diagnostic.code = some "E_TRAIT_METHOD_SIGNATURE" ∧
        ∃ structName method traitName required found position,
          diagnostic = (CheckProblem.traitMethodMismatch structName method traitName required
            found).diagnostic "<input>" position ∧
          registry.BearsOut structName method traitName required found := by
  intro source session
  have reported : ((parseText "<input>" 64 source).toOption.map fun parsed =>
      (session.analyzer.analyze {} parsed.program).1.diagnostics.map Diagnostic.code) =
        some [some "E_TRAIT_METHOD_SIGNATURE"] := by
    decide +kernel
  obtain ⟨parsed, read, reported⟩ := exists_ok_of_shown reported
  obtain ⟨diagnostic, only, code⟩ := List.map_eq_singleton_iff.mp reported
  refine ⟨parsed, read, diagnostic, only, code, ?_⟩
  exact mismatch_reports {} [] ["struct Other \x7b \x7d",
    "trait Shape \x7b \x7d; trait Source \x7b fn make() -> Shape \x7d"] parsed.program diagnostic
    (only ▸ List.mem_singleton_self _) code

/-- A report may come too early. A construction in the method of a struct that waits for the types of its
fields has the struct compared before the result of the method is known; and the name of a struct may reach
the comparison from the host before the struct is declared. The same lines in another order are accepted. -/
theorem mismatch_reports_too_early :
    let outcome (host : Host) (source : String) :=
      (parseText "<input>" 64 source).toOption.map fun parsed =>
        let analyzed := (start {} host).analyzer.analyze {} parsed.program
        let registry := analyzed.2
        (analyzed.1.diagnostics.map Diagnostic.code,
          [(registry.structs.find? "C").bind fun info => info.methods.find? "m",
            (registry.traits.find? "T").bind fun info => info.methods.find? "m"],
          registry.conforms "G" "U")
    let trait := "trait T \x7bfn m() -> int\x7d\n"
    let cell := "struct C: T \x7bx; fn m() \x7bvar c = C(1); return c.x\x7d\x7d\n"
    let read := "fn f(c: C) \x7breturn c.m()\x7d\n"
    let made := "C(5)\n"
    let traits := "trait U \x7b\x7d; trait T \x7bfn m() -> U\x7d\n"
    let haunted := "\x7bstruct C: T \x7bfn m() \x7breturn g()\x7d\x7d\x7d\n"
    let ghost := "\x7bstruct G: U \x7b\x7d\x7d\n"
    let host : Host := [⟨"g", [], .struct "G", fun _ _ => { result := .ok (.int 5) }⟩]
    let numbers : List (Option Ty) := [some (.function [] .int), some (.function [] .int)]
    let shapes : List (Option Ty) :=
      [some (.function [] (.struct "G")), some (.function [] (.trait "U"))]
    [outcome [] (trait ++ cell ++ read ++ made), outcome [] (trait ++ cell ++ made ++ read),
        outcome host (traits ++ haunted ++ ghost), outcome host (traits ++ ghost ++ haunted)] =
      [some ([some "E_TRAIT_METHOD_SIGNATURE"], numbers, false), some ([], numbers, false),
        some ([some "E_TRAIT_METHOD_SIGNATURE"], shapes, true), some ([], shapes, true)] := by
  decide +kernel

end Session

end FlowScript
