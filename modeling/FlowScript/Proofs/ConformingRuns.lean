import FlowScript.Proofs.DeclaredMembers
/-!
# Structs conform when their check is over

A struct is checked against the traits that it lists when its methods are finished: where its declaration
stands, or, if the types of fields are not known there, after a construction gave them, and at the latest at
the end of its statement list.  So what a run of checking leaves open are the structs that wait
(`Analyzer.Discharges`): a run that comes to its end without an error leaves every struct that it declared
with all that its traits require, and every struct that waited does so still or has all of it.

Main statement: the runs of checking obey the law `Analyzer.Conforming`.
-/

namespace FlowScript

namespace Analyzer

variable {before mid after : Analyzer}

/-- What a run without an error leaves: the structs that it declared have what their traits require, and so
have those that waited for the types of fields and wait no more. -/
structure Discharges (before after : Analyzer) : Prop where
  declared : ∀ {name}, before.structs.contains name = false → after.structs.contains name = true →
    after.Meets name
  deferred : ∀ {name}, name ∈ before.deferred → before.ListsTraits name →
    name ∈ after.deferred ∨ after.Meets name

theorem Discharges.trans (first : before.Discharges mid) (second : mid.Discharges after)
    (registered : mid.Registered) (start : before.Persists mid) (persists : mid.Persists after) :
    before.Discharges after where
  declared {name} new known := by
    cases there : mid.structs.contains name with
    | false => exact second.declared there known
    | true => exact (first.declared new there).persist registered persists
  deferred waits lists := by
    rcases first.deferred waits lists with still | meets
    · exact second.deferred still (lists.persist start)
    · exact .inr (meets.persist registered persists)

/-- Nothing is declared or taken off what waits. -/
theorem Discharges.of_eq (structs : ∀ name, after.structs.contains name = before.structs.contains name)
    (deferred : before.deferred ⊆ after.deferred) : before.Discharges after where
  declared new known := by
    rw [structs, new] at known
    cases known
  deferred waits _ := .inl (deferred waits)

theorem Adjusts.discharges (h : before.Adjusts after) : before.Discharges after :=
  .of_eq h.contains (h.deferred ▸ fun _ => id)

/-- A run of checking from a state in which all is registered as it should be. -/
structure ConformingRun (start : Analyzer) (completed : Bool) (reports : List CheckReport)
    (after : Analyzer) : Prop where
  registered : after.Registered
  settles : start.Settles after
  honest : ∀ report ∈ reports, after.Honest report
  discharges : completed = true → (∀ report ∈ reports, report.problem.severity ≠ .error) →
    start.Discharges after

namespace ConformingRun

variable {completed : Bool} {first second : List CheckReport}

/-- A step without reports that leaves what is declared and what waits. -/
theorem of_step (registered : after.Registered) (settles : before.Settles after)
    (discharges : before.Discharges after) : before.ConformingRun true [] after :=
  ⟨registered, settles, List.forall_mem_nil _, fun _ _ => discharges⟩

theorem trans {ends : Bool} (left : before.ConformingRun ends first mid)
    (right : mid.ConformingRun completed second after) :
    before.ConformingRun (ends && completed) (first ++ second) after where
  registered := right.registered
  settles := left.settles.trans right.settles
  honest report mem := by
    rcases List.mem_append.mp mem with here | there
    · exact (left.honest report here).persist right.settles.toPersists
    · exact right.honest report there
  discharges both clean := by
    have both := Bool.and_eq_true_iff.mp both
    have clean := List.forall_mem_append.mp clean
    exact (left.discharges both.1 clean.1).trans (right.discharges both.2 clean.2) left.registered
      left.settles.toPersists right.settles.toPersists

/-- A step without reports after a run, which may have been broken off. -/
theorem step (run : before.ConformingRun completed first mid) (registered : after.Registered)
    (settles : before.Settles after) (persists : mid.Persists after)
    (discharges : mid.Discharges after) : before.ConformingRun completed first after where
  registered := registered
  settles := settles
  honest report mem := (run.honest report mem).persist persists
  discharges ends clean := (run.discharges ends clean).trans discharges run.registered
    run.settles.toPersists persists

end ConformingRun

theorem honest_of_onConformance {problem : CheckProblem} (other : problem.onConformance = false)
    (pos : Option Position) (a : Analyzer) : a.Honest ⟨problem, pos⟩ := by
  rintro _ _ _ _ _ rfl
  cases other

/-- The law of runs that keep the books on methods and check every struct against its traits. -/
def Conforming : RunLaw := fun start stop reports after =>
  start.Registered → start.ConformingRun stop.isNone reports after

end Analyzer

open Analyzer (Conforming ConformingRun)

namespace Check

instance : Lawful Conforming where
  done a registered :=
    .of_step registered (Analyzer.Adjusts.refl a).settles (Analyzer.Adjusts.refl a).discharges
  seq first second registered := (first registered).trans (second (first registered).registered)
  cut _ h registered := { h registered with discharges := nofun }
  tell a _ pos other registered :=
    { registered
      settles := (Analyzer.Adjusts.refl a).settles
      honest := List.forall_mem_singleton.mpr (Analyzer.honest_of_onConformance other pos a)
      discharges := fun _ _ => (Analyzer.Adjusts.refl a).discharges }
  adjust h adjusts registered :=
    (h registered).step ((h registered).registered.adjust adjusts)
      ((h registered).settles.trans adjusts.settles) adjusts.settles.toPersists adjusts.discharges

/-- The check of a body begins in a context of its own. -/
theorem conforming_enter (fn : Checks.Body) (res : Ty) (defining : Site) (a : Analyzer) :
    Conforming a none [] (Checks.entered fn res defining a) := by
  intro registered
  have pushed := Analyzer.Adjusts.pushFrame a
  refine .of_step ((registered.adjust pushed).congr rfl rfl rfl) { pushed.settles with
    contextCount := by simp [Checks.entered]
    contexts := fun id old => ?_ } (.of_eq (fun _ => rfl) fun _ => id)
  simp [Checks.entered, Analyzer.context, Array.getElem?_push, Nat.ne_of_lt old]

instance : Nests Conforming where
  enter := conforming_enter
  deep a registered :=
    ⟨registered, (Analyzer.Adjusts.refl a).settles, List.forall_mem_nil _, nofun⟩

/-! ## Function bodies -/

section Bodies

variable {checks : Checks} {a : Analyzer}

/-- A body does not wait any more. -/
theorem conforming_erase (a : Analyzer) (key : FunctionKey) :
    Conforming a none [] { a with pending := a.pending.erase key } := by
  intro registered
  have refl := (Analyzer.Adjusts.refl a).settles
  refine .of_step (registered.congr rfl rfl rfl) { refl with started := fun _ begun => ?_ }
    (.of_eq (fun _ => rfl) fun _ => id)
  rw [Table.contains_erase, begun, Bool.and_false]

/-- A checked body has the result that became known, or nil. -/
theorem afterBody_signature {fn : Checks.Body} {params : List Ty} {id : Nat}
    {checked : List Stmt × Bool} {body : Checks.CheckedBody}
    (run : (Checks.afterBody fn params id checked a).result.1 = .ok body) :
    body.signature = .function params (if (a.context id).result.isUnknown then .nil
      else (a.context id).result) := by
  obtain ⟨stmts, terminates⟩ := checked
  rw [Checks.afterBody, get_bind, modify_bind] at run
  dsimp only at run
  generalize (if (a.context id).result.isUnknown then Ty.nil
    else (a.context id).result) = final at run ⊢
  split at run
  · cases run
    rfl
  · cases run
    rfl

/-- A function has the type that it is declared with when its body has been checked, unless its result was
unknown. -/
theorem checkBody_signature (h : checks.Obeys Conforming) (fn : Checks.Body) {params : List Ty}
    {res : Ty} (defining : Site) (registered : a.Registered) {checked : Checks.CheckedBody}
    (run : (checks.checkBody fn (.function params res) defining a).result.1 = .ok checked) :
    (Ty.function params res).Refines checked.signature := by
  rw [Checks.checkBody_apply] at run
  obtain ⟨stmts, -, run⟩ := ok_of_bind run
  have inside := h.insideBody fn params a (Checks.entered fn res defining a)
    (conforming_enter fn res defining a registered).registered
  obtain ⟨-, kept⟩ := inside.settles.contexts a.contexts.size (by simp [Checks.entered])
  have context : ((Checks.entered fn res defining a).context
      a.contexts.size).result = res := by
    simp [Checks.entered, Analyzer.context]
  rw [context] at kept
  rw [afterBody_signature run]
  by_cases unknown : res = .unknown
  · rw [unknown]
    exact .inr ⟨params, _, rfl, rfl⟩
  · rw [kept unknown, if_neg fun h => unknown (Ty.eq_unknown h)]
    exact .inl rfl

variable {sname method : String} {sig final : Ty} {info : StructInfo}

/-- The type of a method is replaced by one that may stand for it. -/
theorem persists_insertMethod (found : a.structs.find? sname = some info)
    (has : info.methods.find? method = some sig) (refines : sig.Refines final) :
    a.Persists (a.withStruct sname
      { info with methods := info.methods.insert method final }) := by
  refine ⟨fun {name other} there => ?_, fun there => there, Table.keys_prefix_insert _ _ _⟩
  by_cases same : sname = name
  · subst same
    rw [found] at there
    cases there
    refine ⟨_, Table.find?_insert_self _ _ _, rfl, rfl, fun {entry old} listed => ?_⟩
    dsimp only
    by_cases this : method = entry
    · subst this
      rw [has] at listed
      cases listed
      exact ⟨final, Table.find?_insert_self _ _ _, refines⟩
    · exact ⟨old, by rwa [Table.find?_insert_of_ne _ _ this], .inl rfl⟩
  · exact ⟨other, by rwa [Table.find?_insert_of_ne _ _ same], rfl, rfl, fun listed => ⟨_, listed, .inl rfl⟩⟩

/-- A method whose body waited is given its type. In between the body was checked, and the type did not
change, since the body did not wait any more. -/
theorem settles_insertMethod {start : Analyzer}
    (waits : start.pending.contains (.method sname method) = true)
    (settles : Analyzer.Settles { start with
      pending := start.pending.erase (.method sname method) } a)
    (found : a.structs.find? sname = some info)
    (has : info.methods.find? method = some sig) (refines : sig.Refines final) :
    start.Settles (a.withStruct sname
      { info with methods := info.methods.insert method final }) where
  toPersists := .trans ⟨settles.structs, settles.traits, settles.order⟩ (persists_insertMethod found has refines)
  fixed {name entry other ty} begun declared listed := by
    have differs : FunctionKey.method sname method ≠ .method name entry := by
      intro same
      rw [← same, waits] at begun
      cases begun
    obtain ⟨later, foundLater, kept⟩ := settles.fixed
      (by rw [Table.contains_erase, begun, Bool.and_false]) declared listed
    by_cases same : sname = name
    · subst same
      rw [found] at foundLater
      cases foundLater
      have this : method ≠ entry := fun this => differs (this ▸ rfl)
      exact ⟨_, Table.find?_insert_self _ _ _, by dsimp only; rwa [Table.find?_insert_of_ne _ _ this]⟩
    · exact ⟨later, by rwa [Table.find?_insert_of_ne _ _ same], kept⟩
  started known begun := settles.started known (by rw [Table.contains_erase, begun, Bool.and_false])
  contextCount := settles.contextCount
  contexts := settles.contexts

/-- A method whose body waited and has been checked is given its type. -/
theorem conforming_setMethod {start : Analyzer} {params : List Ty} {res : Ty}
    {reports : List CheckReport}
    (waits : start.pending.contains (.method sname method) = true)
    (begun : start.ConformingRun true []
      { start with pending := start.pending.erase (.method sname method) })
    (body : ConformingRun { start with pending := start.pending.erase (.method sname method) }
      true reports a)
    (found : start.structs.find? sname = some info)
    (has : info.methods.find? method = some (.function params res))
    (refines : (Ty.function params res).Refines final) :
    start.ConformingRun true reports (a.modifyStruct sname fun info =>
      { info with methods := info.methods.insert method final }) := by
  obtain ⟨later, foundLater, hasLater⟩ := body.settles.fixed
    (by rw [Table.contains_erase, decide_eq_true rfl]; rfl) found has
  rw [Analyzer.modifyStruct_of_find? foundLater]
  have registered : Analyzer.Registered (a.withStruct sname
      { later with methods := later.methods.insert method final }) := by
    rcases refines with rfl | ⟨_, _, ⟨⟩, rfl⟩
    all_goals exact body.registered.insertMethod foundLater method params _
  refine (begun.trans body).step registered
    (settles_insertMethod waits body.settles foundLater hasLater refines)
    (persists_insertMethod foundLater hasLater refines) (.of_eq (fun name => ?_) fun _ => id)
  rw [Table.contains_insert, Bool.or_eq_right_iff_imp, decide_eq_true_eq]
  rintro rfl
  exact Option.isSome_iff_exists.mpr ⟨later, foundLater⟩

/-- The body of a method that waited is checked if the method has a type. -/
theorem signBody_method (waiting : PendingFunction) :
    checks.signBody (.method sname method) waiting a =
      match (a.structs.find? sname).bind fun info => info.methods.find? method with
      | none => ⟨(.error (.undefined (.signature (.method sname method))),
          { a with pending := a.pending.erase (.method sname method) }), []⟩
      | some sig => (do
          let checked ← checks.checkBody (Checks.bodyOf (.method sname method) waiting.decl) sig
            waiting.site
          Checks.setSignature (.method sname method) checked.signature
          return checked)
          { a with pending := a.pending.erase (.method sname method) } := by
  rw [Checks.signBody, modify_bind, Checks.signatureOf, bind_assoc, get_bind]
  dsimp only
  cases (a.structs.find? sname).bind fun info => info.methods.find? method with
  | none => rfl
  | some sig => rw [demand, pure_bind]

/-- A body that waited is checked, and its function has its type. -/
theorem conforming_signBody (h : checks.Obeys Conforming) {key : FunctionKey} {waiting : PendingFunction}
    {start : Analyzer} (waits : start.pending.find? key = some waiting) :
    ObeysFrom Conforming start (checks.signBody key waiting) := by
  have erased := conforming_erase start key
  cases key with
  | function id =>
    -- traits ask for methods only, so a function of another kind is of no account
    refine .bind erased fun _ _ => ?_
    refine .bind (Checks.Obeys.signatureOf _ _) fun sig _ => ?_
    refine .bind (h.checkBody _ _ _ _) fun checked _ => ?_
    exact Obeys.bind (Obeys.modify fun a => .modifySymbol _ _ _) (fun _ => Obeys.pure _) _
  | method sname method =>
    intro registered
    have contained : start.pending.contains (.method sname method) = true :=
      Option.isSome_iff_exists.mpr ⟨waiting, waits⟩
    rw [signBody_method]
    cases declared : (start.structs.find? sname).bind fun info => info.methods.find? method with
    | none => exact Lawful.cut _ erased registered
    | some sig =>
      obtain ⟨info, found, has⟩ := Option.bind_eq_some_iff.mp declared
      obtain ⟨params, res, rfl⟩ := registered.methods found has
      have begun := erased registered
      have body := h.checkBody (Checks.bodyOf (.method sname method) waiting.decl)
        (.function params res) waiting.site _ begun.registered
      have refines := @checkBody_signature _ _ h
        (Checks.bodyOf (.method sname method) waiting.decl) params res waiting.site
        begun.registered
      dsimp only
      rw [bind_apply]
      rcases ran : checks.checkBody (Checks.bodyOf (.method sname method) waiting.decl)
        (.function params res) waiting.site
        { start with pending := start.pending.erase (.method sname method) } with
        ⟨⟨outcome, after⟩, reports⟩
      rw [ran] at body refines
      cases outcome with
      | error stop => exact begun.trans body
      | ok checked =>
        have signed := conforming_setMethod contained begun body found has (refines rfl)
        rw [← List.append_nil reports] at signed
        exact signed

theorem conforming_finishFunction (h : checks.Obeys Conforming) (key : FunctionKey) :
    Obeys Conforming (checks.finishFunction key) := by
  intro start
  rw [ObeysFrom, Checks.finishFunction_apply]
  cases waits : start.pending.find? key with
  | none => exact Lawful.done start
  | some waiting =>
    exact (conforming_signBody h waits).bind fun checked _ => Checks.Obeys.noteFinished _ _ _ _

end Bodies

/-! ## Structs -/

section Structs

variable {checks : Checks} {start : Analyzer}

theorem finishStruct_apply (sname : String) (a : Analyzer) :
    checks.finishStruct sname a =
      (checks.finishMethods sname ((a.structs.find? sname).getD default).decl >>=
        fun _ => checkConformance sname) (a.undefer sname) := by
  rw [Checks.finishStruct, modify_bind, get_bind]
  rfl

variable (h : checks.Obeys Conforming)

include h

theorem conforming_finishMethods (sname : String)
    (decl : StructDecl Stmt) : Obeys Conforming (checks.finishMethods sname decl) := by
  have methods : Obeys Conforming
      (decl.methods.forM fun method => checks.finish (.method sname method.name)) :=
    Obeys.steps.forM _ fun method _ => h.finish _
  exact Obeys.ite (Obeys.bind (h.finish _) fun _ => methods) methods

omit h in
/-- A struct is taken off those that wait before its methods are checked. -/
theorem undefer {sname : String} {completed : Bool} {reports : List CheckReport}
    {after : Analyzer} (run : (start.undefer sname).ConformingRun completed reports after)
    (meets : completed = true → (∀ report ∈ reports, report.problem.severity ≠ .error) →
      start.ListsTraits sname → after.Meets sname) :
    start.ConformingRun completed reports after where
  registered := run.registered
  settles := { run.settles with }
  honest := run.honest
  discharges ends clean := by
    have discharges := run.discharges ends clean
    refine ⟨discharges.declared, fun {name} waits lists => ?_⟩
    by_cases this : name = sname
    · subst this
      exact .inr (meets ends clean lists)
    · exact discharges.deferred (List.mem_filter.mpr ⟨waits, by simp [this]⟩) lists

/-- Finishing a struct checks it against its traits. -/
theorem finishStruct_run (sname : String)
    (registered : start.Registered) {outcome : Except Interruption Unit} {after : Analyzer}
    {reports : List CheckReport}
    (run : checks.finishStruct sname start = ⟨(outcome, after), reports⟩) :
    start.ConformingRun (stop? outcome).isNone reports after ∧
      ((stop? outcome).isNone = true → (∀ report ∈ reports, report.problem.severity ≠ .error) →
        start.ListsTraits sname → after.Meets sname) := by
  rw [finishStruct_apply] at run
  generalize ((start.structs.find? sname).getD default).decl = decl at run
  have methods := conforming_finishMethods h sname decl (start.undefer sname)
    (registered.congr rfl rfl rfl)
  rw [bind_apply] at run
  rcases ran : checks.finishMethods sname decl (start.undefer sname) with ⟨⟨first, mid⟩, before⟩
  rw [ran] at run methods
  -- a struct is not compared with its traits if the check of a method is interrupted
  cases first with
  | error stop =>
    cases run
    exact ⟨undefer methods nofun, nofun⟩
  | ok value =>
    obtain ⟨more, conformance, honest, meets⟩ := checkConformance_run methods.registered sname
    dsimp only at run
    rw [conformance] at run
    cases run
    have compared : mid.ConformingRun true more mid :=
      { registered := methods.registered
        settles := (Analyzer.Adjusts.refl mid).settles
        honest
        discharges := fun _ _ => (Analyzer.Adjusts.refl mid).discharges }
    have conforms (clean : ∀ report ∈ before ++ more, report.problem.severity ≠ .error)
        (lists : start.ListsTraits sname) : mid.Meets sname :=
      meets (List.forall_mem_append.mp clean).2
        (lists.persist ⟨methods.settles.structs, methods.settles.traits, methods.settles.order⟩)
    exact ⟨undefer (methods.trans compared) fun _ => conforms, fun _ => conforms⟩

theorem conforming_finishStruct (sname : String) :
    Obeys Conforming (checks.finishStruct sname) := by
  intro start registered
  exact (finishStruct_run h sname registered rfl).1

/-- A struct has what its traits require once it is finished without an error. -/
theorem ensures_finishStruct {sname : String}
    (registered : start.Registered) (lists : start.ListsTraits sname) :
    Ensures start (checks.finishStruct sname) fun _ after => after.Meets sname := by
  rintro _ after ⟨reports, run, clean⟩
  exact (finishStruct_run h sname registered run).2 rfl clean lists

end Structs

/-! ## Statement lists -/

section Lists

variable {checks : Checks} {start : Analyzer} {α : Type}

theorem ensures_conforming {action : Check α} (h : Obeys Conforming action)
    (registered : start.Registered) : Ensures start action fun _ after =>
      after.Registered ∧ start.Settles after ∧ start.Discharges after := by
  rintro _ after ⟨reports, run, clean⟩
  have conforming := h start registered
  rw [run] at conforming
  exact ⟨conforming.registered, conforming.settles, conforming.discharges rfl clean⟩

/-- Whether a struct waits to be finished, or has been. -/
def Scheduled (a : Analyzer) (sname : String) : Prop :=
  sname ∈ a.deferred ∨ a.Meets sname

theorem Scheduled.run {after : Analyzer} {sname : String} (h : Scheduled start sname)
    (registered : start.Registered) (lists : start.ListsTraits sname) (settles : start.Settles after)
    (discharges : start.Discharges after) : Scheduled after sname := by
  rcases h with waits | meets
  · exact discharges.deferred waits lists
  · exact .inr (meets.persist registered settles.toPersists)

variable (h : checks.Obeys Conforming)

include h

/-- The declaration of a struct finishes it, or puts it off. -/
theorem ensures_checkStruct {decl : StructDecl Stmt}
    (registered : start.Registered) (lists : start.ListsTraits decl.name) :
    Ensures start (checks.checkStruct decl) fun _ after => Scheduled after decl.name := by
  refine .get (.ite (fun _ => .modify (.inl List.mem_cons_self)) fun _ => ?_)
  exact (ensures_finishStruct h registered lists).mono fun _ _ meets => .inr meets

theorem ensures_checkNext (progress : Checks.Progress)
    {decl : StructDecl Stmt} (registered : start.Registered) (lists : start.ListsTraits decl.name) :
    Ensures start (checks.checkNext progress (.struct decl, .struct true)) fun _ after =>
      Scheduled after decl.name := by
  refine .bind (.arriveAt progress (.struct decl)) ?_
  rintro _ _ ⟨topLevel, rfl⟩
  have adjusts : start.Adjusts { start with topLevel } := .of_eq rfl rfl rfl rfl rfl (Nat.le_refl _) rfl
  refine .bind (.bind (ensures_checkStruct h (registered.adjust adjusts)
    (lists.persist adjusts.settles.toPersists)) fun _ _ holds => .pure holds) fun _ _ holds => .pure holds

/-- Every struct that a list declares is finished or waits when the statements have been checked. -/
theorem ensures_foldlM_checkNext (steps : ∀ progress next, Obeys Conforming (checks.checkNext progress next))
    (declared : List (Stmt × Declared)) (progress : Checks.Progress) (registered : start.Registered)
    (lists : ∀ {decl}, (.struct decl, .struct true) ∈ declared → start.ListsTraits decl.name) :
    Ensures start (declared.foldlM checks.checkNext progress) fun _ after =>
      ∀ {decl}, (.struct decl, .struct true) ∈ declared → Scheduled after decl.name := by
  induction declared generalizing start progress with
  | nil => exact .pure nofun
  | cons next rest ih =>
    rw [List.foldlM_cons]
    have here : Ensures start (checks.checkNext progress next) fun _ mid =>
        ∀ {decl}, (.struct decl, .struct true) = next → Scheduled mid decl.name := by
      intro res mid accepted decl same
      subst same
      exact ensures_checkNext h progress registered (lists List.mem_cons_self) res mid accepted
    refine .bind ((ensures_conforming (steps progress next) registered).and here) ?_
    rintro later mid ⟨⟨registeredMiddle, settles, -⟩, scheduled⟩
    have listsMiddle {decl : StructDecl Stmt} (mem : (.struct decl, .struct true) ∈ next :: rest) :
        mid.ListsTraits decl.name := (lists mem).persist settles.toPersists
    have others := ih later registeredMiddle fun mem => listsMiddle (List.mem_cons_of_mem _ mem)
    refine ((ensures_conforming (Obeys.steps.foldlM steps rest later) registeredMiddle).and others).mono ?_
    rintro _ after ⟨⟨-, settlesRest, discharges⟩, all⟩ decl mem
    rcases List.mem_cons.mp mem with this | other
    · exact (scheduled this).run registeredMiddle (listsMiddle mem) settlesRest discharges
    · exact all other

theorem conforming_finishPutOff (pair : Stmt × Declared) :
    Obeys Conforming (checks.finishPutOff pair) := by
  unfold Checks.finishPutOff
  split
  · exact Obeys.get fun _ => Obeys.ite (conforming_finishStruct h _) (Obeys.pure _)
  · exact Obeys.pure _

/-- The structs that wait are finished, one after another. -/
theorem ensures_finishPutOff (declared : List (Stmt × Declared)) (registered : start.Registered)
    (known : ∀ {decl}, (.struct decl, .struct true) ∈ declared →
      start.ListsTraits decl.name ∧ Scheduled start decl.name) :
    Ensures start (declared.forM checks.finishPutOff) fun _ after =>
      ∀ {decl}, (.struct decl, .struct true) ∈ declared → after.Meets decl.name := by
  induction declared generalizing start with
  | nil => exact .pure nofun
  | cons pair rest ih =>
    have here : Ensures start (checks.finishPutOff pair) fun _ mid =>
        ∀ {decl}, (.struct decl, .struct true) = pair → mid.Meets decl.name := by
      intro res mid accepted decl same
      subst same
      obtain ⟨there, scheduled⟩ := known List.mem_cons_self
      revert accepted
      refine (Ensures.get (.ite (fun _ => ensures_finishStruct h registered there) fun waitsNot =>
        .pure ?_) : Ensures start (checks.finishPutOff (.struct decl, .struct true))
          fun _ mid => mid.Meets decl.name) res mid
      exact scheduled.resolve_left fun waits => waitsNot (List.contains_iff_mem.mpr waits)
    refine .bind ((ensures_conforming (conforming_finishPutOff h pair) registered).and here) ?_
    rintro _ mid ⟨⟨registeredMiddle, settles, discharges⟩, meets⟩
    have others := ih registeredMiddle fun mem => by
      obtain ⟨there, scheduled⟩ := known (List.mem_cons_of_mem _ mem)
      exact ⟨there.persist settles.toPersists, scheduled.run registered there settles discharges⟩
    refine ((ensures_conforming (Obeys.steps.forM rest fun pair _ => conforming_finishPutOff h pair)
      registeredMiddle).and others).mono ?_
    rintro _ after ⟨⟨-, settlesRest, -⟩, all⟩ decl mem
    rcases List.mem_cons.mp mem with this | other
    · exact (meets this).persist registeredMiddle settlesRest.toPersists
    · exact all other

/-- The law of runs that keep the books on methods, whatever else they leave open. -/
def Settling : RunLaw := fun start _ reports after =>
  start.Registered → start.ConformingRun false reports after

omit h in
theorem settling_of_conforming {stop : Option Interruption} {reports : List CheckReport}
    {after : Analyzer} (h : Conforming start stop reports after) : Settling start stop reports after :=
  fun registered => { h registered with discharges := nofun }

instance : Lawful Settling where
  done a := settling_of_conforming (Lawful.done a)
  seq first second registered := (first registered).trans (second (first registered).registered)
  cut _ h := h
  tell a _ pos other := settling_of_conforming (Lawful.tell a pos other)
  adjust h adjusts registered :=
    (h registered).step ((h registered).registered.adjust adjusts)
      ((h registered).settles.trans adjusts.settles) adjusts.settles.toPersists adjusts.discharges

omit h in
theorem settling_hoist (stmts : List Stmt) : Obeys Settling (hoist stmts) := by
  intro start registered
  obtain ⟨declared, extended, quiet, -⟩ := hoist_extends stmts registered
  exact ⟨extended.registered, extended.settles,
    fun report mem => Analyzer.honest_of_onConformance (quiet report mem) _ _, nofun⟩

theorem settling_checkStatements (steps : ∀ progress next, Obeys Conforming (checks.checkNext progress next))
    (stmts : List Stmt) : Obeys Settling (checks.checkStatements stmts) := by
  have checked (declared : List (Stmt × Declared)) : Obeys Settling
      (declared.foldlM checks.checkNext {}) :=
    fun start => settling_of_conforming (Obeys.steps.foldlM steps declared {} start)
  have finished (declared : List (Stmt × Declared)) : Obeys Settling
      (declared.forM checks.finishPutOff) := fun start =>
    settling_of_conforming (Obeys.steps.forM declared (fun pair _ => conforming_finishPutOff h pair) start)
  refine Obeys.bind (settling_hoist stmts) fun declared => ?_
  refine Obeys.bind (checked declared) fun progress => ?_
  exact Obeys.bind (finished declared) fun _ => Obeys.get fun _ => Obeys.pure _

/-- A list that is checked without an error leaves open only the structs that waited before it. -/
theorem ensures_checkStatements (steps : ∀ progress next, Obeys Conforming (checks.checkNext progress next))
    (stmts : List Stmt) (registered : start.Registered) :
    Ensures start (checks.checkStatements stmts) fun _ after => start.Discharges after := by
  intro res after accepted
  obtain ⟨declared, hoisted, hoists, accepted⟩ := accepts_bind.mp accepted
  obtain ⟨progress, checked, folds, accepted⟩ := accepts_bind.mp accepted
  obtain ⟨_, finished, finishes, accepted⟩ := accepts_bind.mp accepted
  obtain ⟨_, _, ⟨_, ⟨⟩, -⟩, ⟨_, ⟨⟩, -⟩⟩ := accepts_bind.mp accepted
  obtain ⟨_, extended, -, results⟩ := hoist_extends stmts registered
  obtain ⟨rfl, lists⟩ := results declared hoisted hoists
  obtain ⟨_, run, -⟩ := hoists
  rw [run] at extended
  obtain ⟨registeredChecked, settles, discharges⟩ :=
    ensures_conforming (Obeys.steps.foldlM steps declared {}) extended.registered progress checked folds
  have scheduled {decl : StructDecl Stmt} (mem : (.struct decl, .struct true) ∈ declared) :
      checked.ListsTraits decl.name ∧ Scheduled checked decl.name :=
    ⟨(lists mem).persist settles.toPersists, ensures_foldlM_checkNext h steps declared {}
      extended.registered lists progress checked folds mem⟩
  obtain ⟨-, settlesRest, dischargesRest⟩ := ensures_conforming
    (Obeys.steps.forM declared fun pair _ => conforming_finishPutOff h pair) registeredChecked () _ finishes
  have meets {decl : StructDecl Stmt} (mem : (.struct decl, .struct true) ∈ declared) :=
    ensures_finishPutOff h declared registeredChecked scheduled () _ finishes mem
  have rest := discharges.trans dischargesRest registeredChecked settles.toPersists
    settlesRest.toPersists
  refine ⟨fun {name} new there => ?_, fun waits listed => ?_⟩
  · cases here : hoisted.structs.contains name with
    | false => exact rest.declared here there
    | true =>
      rcases extended.covered here with old | ⟨decl, mem, rfl⟩
      · rw [new] at old
        cases old
      · exact meets mem
  · exact rest.deferred (extended.deferred ▸ waits) (listed.persist extended.settles.toPersists)

theorem conforming_checkStatements
    (steps : ∀ progress next, Obeys Conforming (checks.checkNext progress next))
    (stmts : List Stmt) : Obeys Conforming (checks.checkStatements stmts) := by
  intro start registered
  have settling := settling_checkStatements h steps stmts start registered
  refine { settling with discharges := fun ends clean => ?_ }
  rcases run : checks.checkStatements stmts start with ⟨⟨outcome, after⟩, reports⟩
  rw [run] at ends clean
  cases outcome with
  | ok res => exact ensures_checkStatements h steps stmts registered res after ⟨reports, run, clean⟩
  | error stop => cases ends

end Lists

instance : Governs Conforming where
  defer a _ registered :=
    .of_step (registered.congr rfl rfl rfl) { (Analyzer.Adjusts.refl a).settles with }
      (.of_eq (fun _ => rfl) (List.subset_cons_self _ _))
  finishFunction := conforming_finishFunction
  finishStruct := conforming_finishStruct
  checkStatements := conforming_checkStatements

end Check

end FlowScript
