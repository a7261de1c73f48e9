import FlowScript.Proofs.EvolvingSteps
/-!
# Laws of the runs of checking

A run of checking starts from a state, comes to its end or is broken off, reports problems, and leaves a
state.  A `RunLaw` is a statement on these four.  Most of what a rule does to the state concerns neither
the declarations nor the books on function bodies (`Analyzer.Adjusts`), so a law that is closed under one
run after another, and under such changes (`Check.Lawful`), holds of every rule that does not check a body.
It holds of all rules as soon as it holds of the few that do more: the declarations of a statement list, the
body of a function, and the methods of a struct (`Check.Governs`).

Main statement: `Checks.obeys`, which ties the rules together by recursion on the levels.
-/

namespace FlowScript

/-- A statement on runs of checking: the state that a run starts from, what breaks it off, if anything, what
it reports, and the state that it leaves. -/
abbrev RunLaw := Analyzer → Option Interruption → List CheckReport → Analyzer → Prop

/-- A struct apart from the types of its fields. -/
def StructInfo.interface (info : StructInfo) : StructDecl Stmt × Table String Ty × List String :=
  (info.decl, info.methods, info.traits)

namespace Analyzer

/-- A change that concerns neither the declarations nor the books on function bodies. A function whose
result is not known may get one. -/
structure Adjusts (before after : Analyzer) : Prop where
  traits : after.traits = before.traits
  pending : after.pending = before.pending
  deferred : after.deferred = before.deferred
  structs : ∀ name, (after.structs.find? name).map StructInfo.interface =
    (before.structs.find? name).map StructInfo.interface
  order : after.structs.keys = before.structs.keys
  types : ∀ id name ty, (after.frame id).types.find? name = some ty →
    (before.frame id).types.find? name = some ty
  symbols : before.symbols.size ≤ after.symbols.size
  contextCount : after.contexts.size = before.contexts.size
  bodies : ∀ id, (after.context id).body = (before.context id).body
  constructors : ∀ id, (after.context id).constructor = (before.context id).constructor
  results : ∀ id, (before.context id).result ≠ .unknown →
    (after.context id).result = (before.context id).result

namespace Adjusts

variable {before after a : Analyzer}

theorem refl (a : Analyzer) : a.Adjusts a :=
  ⟨rfl, rfl, rfl, fun _ => rfl, rfl, fun _ _ _ found => found, Nat.le_refl _, rfl, fun _ => rfl,
    fun _ => rfl, fun _ _ => rfl⟩

/-- Only some parts of the state matter. -/
theorem of_eq (traits : after.traits = before.traits) (pending : after.pending = before.pending)
    (deferred : after.deferred = before.deferred) (structs : after.structs = before.structs)
    (frames : after.frames = before.frames) (symbols : before.symbols.size ≤ after.symbols.size)
    (contexts : after.contexts = before.contexts) : before.Adjusts after := by
  have frame (id : Nat) : after.frame id = before.frame id := by rw [frame, frames]; rfl
  have context (id : Nat) : after.context id = before.context id := by rw [context, contexts]; rfl
  exact ⟨traits, pending, deferred, fun _ => by rw [structs], congrArg Table.keys structs,
    fun id _ _ found => frame id ▸ found, symbols, congrArg Array.size contexts,
    fun id => by rw [context], fun id => by rw [context], fun id _ => by rw [context]⟩

theorem pushFrame (a : Analyzer) :
    a.Adjusts { a with frames := a.frames.push {} } := by
  refine { refl a with types := fun id name ty found => ?_ }
  rwa [Grows.frame_push] at found

/-- Names are put into a frame. -/
theorem modifyFrame (a : Analyzer) (id : Nat) {f : Frame → Frame}
    (types : ∀ frame, (f frame).types = frame.types) :
    a.Adjusts (a.modifyFrame id f) := by
  refine { refl a with types := fun other name ty found => ?_ }
  rw [frame_modifyFrame] at found
  split at found
  · rwa [types] at found
  · exact found

theorem modifySymbol (a : Analyzer) (id : Nat) (f : Symbol → Symbol) :
    a.Adjusts (a.modifySymbol id f) :=
  of_eq rfl rfl rfl rfl rfl (by simp [Analyzer.modifySymbol]) rfl

theorem addName (a : Analyzer) (name : String) (ty : Ty) (kind : SymbolKind) (pos : Position) :
    a.Adjusts (a.addName name ty kind pos) :=
  of_eq rfl rfl rfl rfl rfl (by simp [Analyzer.addName]) rfl

theorem context_modifyContext (a : Analyzer) (id other : Nat)
    (f : FunctionContext → FunctionContext) :
    (a.modifyContext id f).context other =
      if id = other ∧ other < a.contexts.size then f (a.context other)
      else a.context other := by
  by_cases same : id = other
  · subst same
    by_cases inBounds : id < a.contexts.size <;>
      simp [Analyzer.modifyContext, Analyzer.context, Array.getElem_modify, inBounds]
  · simp [Analyzer.modifyContext, Analyzer.context, Array.getElem?_modify, same]

/-- A function context is changed. -/
theorem modifyContext (a : Analyzer) (id : Nat) {f : FunctionContext → FunctionContext}
    (body : ∀ context, (f context).body = context.body)
    (constructor : ∀ context, (f context).constructor = context.constructor)
    (result : (a.context id).result ≠ .unknown →
      (f (a.context id)).result = (a.context id).result) :
    a.Adjusts (a.modifyContext id f) := by
  have contexts (other : Nat) := context_modifyContext a id other f
  refine { refl a with
    contextCount := by simp [Analyzer.modifyContext]
    bodies := fun other => ?_
    constructors := fun other => ?_
    results := fun other known => ?_ }
  all_goals
    rw [contexts]
    split
  · exact body _
  · rfl
  · exact constructor _
  · rfl
  · rename_i same
    obtain ⟨rfl, -⟩ := same
    exact result known
  · rfl

theorem trans {mid : Analyzer} (first : before.Adjusts mid) (second : mid.Adjusts after) :
    before.Adjusts after where
  traits := second.traits.trans first.traits
  pending := second.pending.trans first.pending
  deferred := second.deferred.trans first.deferred
  structs name := (second.structs name).trans (first.structs name)
  order := second.order.trans first.order
  types id name ty found := first.types id name ty (second.types id name ty found)
  symbols := Nat.le_trans first.symbols second.symbols
  contextCount := second.contextCount.trans first.contextCount
  bodies id := (second.bodies id).trans (first.bodies id)
  constructors id := (second.constructors id).trans (first.constructors id)
  results id known := by rw [second.results id (by rwa [first.results id known]), first.results id known]

/-- The type of a field of a struct is set. -/
theorem setField (a : Analyzer) (sname field : String) (ty : Ty) :
    a.Adjusts (a.modifyStruct sname fun info =>
      { info with fields := info.fields.insert field ty }) := by
  have structs : ∀ name, ((a.modifyStruct sname fun info =>
      { info with fields := info.fields.insert field ty }).structs.find? name).map
        StructInfo.interface = (a.structs.find? name).map StructInfo.interface := by
    intro name
    rw [find?_modifyStruct]
    split
    · rename_i same
      subst same
      rw [Option.map_map]
      rfl
    · rfl
  cases found : a.structs.find? sname with
  | none =>
    rw [Analyzer.modifyStruct, found]
    exact refl a
  | some info =>
    rw [Analyzer.modifyStruct, found] at structs ⊢
    exact { refl a with structs, order := Table.keys_insert_of_find? found _ }

/-- Captures are noted in some function contexts. -/
theorem capture (name : String) (ids : List Nat) (a : Analyzer) :
    a.Adjusts (ids.foldl (fun a id =>
      a.modifyContext id fun context => context.capture name) a) := by
  have step (context : FunctionContext) : (context.capture name).body = context.body ∧
      (context.capture name).constructor = context.constructor ∧
      (context.capture name).result = context.result := by
    unfold FunctionContext.capture
    split
    · exact ⟨rfl, rfl, rfl⟩
    · exact ⟨rfl, rfl, rfl⟩
  induction ids generalizing a with
  | nil => exact refl a
  | cons id ids ih =>
    exact (modifyContext a id (fun context => (step context).1) (fun context => (step context).2.1)
      fun _ => (step _).2.2).trans (ih _)

end Adjusts

/-- The state in which a method of a struct waits. -/
def letMethodWait (a : Analyzer) (sname : String) (method : FunctionDecl Stmt)
    (sig : Ty) : Analyzer :=
  let changed := a.modifyStruct sname fun info =>
    { info with methods := info.methods.insert method.name sig }
  { changed with
    pending := changed.pending.insert (.method sname method.name) ⟨method, changed.site⟩ }

end Analyzer

/-! ## Laws that every rule obeys -/

namespace Check

/-- A law that is closed under one run after another, under breaking off, under reports on anything but
conformance, and under changes that concern neither declarations nor books. -/
class Lawful (law : RunLaw) : Prop where
  done : ∀ analyzer, law analyzer none [] analyzer
  seq : ∀ {start middle after stop first second}, law start none first middle →
    law middle stop second after → law start stop (first ++ second) after
  cut : ∀ {start after stop reports} lookup, law start stop reports after →
    law start (some (.undefined lookup)) reports after
  tell : ∀ analyzer {problem : CheckProblem} position, problem.onConformance = false →
    law analyzer none [⟨problem, position⟩] analyzer
  adjust : ∀ {start middle after stop reports}, law start stop reports middle →
    middle.Adjusts after → law start stop reports after

variable {law : RunLaw} {α β : Type}

/-- What breaks a run off. -/
def stop? : Except Interruption α → Option Interruption
  | .ok _ => none
  | .error stop => some stop

/-- Whether the run of a computation from a state obeys a law. -/
def ObeysFrom (law : RunLaw) (start : Analyzer) (action : Check α) : Prop :=
  law start (stop? (action start).result.1) (action start).reports (action start).result.2

/-- A computation that comes to its end comes to the end of its first part. -/
theorem ok_of_bind {start : Analyzer} {action : Check α} {rest : α → Check β} {value : β}
    (run : ((action >>= rest) start).result.1 = .ok value) :
    ∃ first, (action start).result.1 = .ok first ∧
      (rest first (action start).result.2).result.1 = .ok value := by
  rw [bind_apply] at run
  rcases here : action start with ⟨⟨outcome, mid⟩, reports⟩
  rw [here] at run
  cases outcome with
  | ok first => exact ⟨first, rfl, run⟩
  | error stop => cases run

/-- Whether all runs of a computation obey a law. -/
def Obeys (law : RunLaw) (action : Check α) : Prop := ∀ start, ObeysFrom law start action

variable [Lawful law]

open Lawful

theorem ObeysFrom.bind {start : Analyzer} {action : Check α} {rest : α → Check β}
    (first : ObeysFrom law start action)
    (second : ∀ result, (action start).result.1 = .ok result →
      ObeysFrom law (action start).result.2 (rest result)) :
    ObeysFrom law start (action >>= rest) := by
  unfold ObeysFrom at first second ⊢
  rw [bind_apply]
  rcases run : action start with ⟨⟨outcome, mid⟩, reports⟩
  rw [run] at first second
  cases outcome with
  | ok value => exact seq first (second value rfl)
  | error stop => exact first

theorem ObeysFrom.modifyThen {start : Analyzer} {change : Analyzer → Analyzer} {rest : Unit → Check β}
    (adjusts : start.Adjusts (change start)) (h : ObeysFrom law (change start) (rest ())) :
    ObeysFrom law start ((modify change : Check Unit) >>= rest) :=
  seq (adjust (done start) adjusts) h

namespace Obeys

theorem pure (result : α) : Obeys law (Pure.pure result : Check α) :=
  fun start => done start

theorem undefined (lookup : Lookup) : Obeys law (throw (.undefined lookup) : Check α) :=
  fun start => cut lookup (done start)

theorem bind {action : Check α} {rest : α → Check β} (first : Obeys law action)
    (second : ∀ result, Obeys law (rest result)) : Obeys law (action >>= rest) :=
  fun start => (first start).bind fun result _ => second result _

omit [Lawful law] in
theorem get {rest : Analyzer → Check β} (h : ∀ a, Obeys law (rest a)) :
    Obeys law (MonadState.get >>= rest) :=
  fun start => h start start

omit [Lawful law] in
/-- Reading the state: what follows starts from it. -/
theorem getFrom {rest : Analyzer → Check β} (h : ∀ a, ObeysFrom law a (rest a)) :
    Obeys law (MonadState.get >>= rest) := h

theorem modify {change : Analyzer → Analyzer}
    (h : ∀ a : Analyzer, a.Adjusts (change a)) :
    Obeys law (modify change : Check Unit) :=
  fun start => adjust (done start) (h start)

theorem report {problem : CheckProblem} (other : problem.onConformance = false)
    (pos : Option Position) : Obeys law (Check.report problem pos) :=
  fun start => tell start pos other

theorem demand (lookup : Lookup) (found : Option α) : Obeys law (Check.demand lookup found) := by
  cases found with
  | none => exact undefined lookup
  | some value => exact pure value

theorem ensuring {cleanup : Analyzer → Analyzer} {action : Check α}
    (clean : ∀ a : Analyzer, a.Adjusts (cleanup a)) (h : Obeys law action) :
    Obeys law (Check.ensuring cleanup action) :=
  fun start => adjust (h start) (clean _)

/-- After a body it is not being checked any more, however its check ended. -/
theorem closing (key : Option FunctionKey) {action : Check α} (h : Obeys law action) :
    Obeys law (Check.closing key action) := by
  intro start
  have inner := h start
  unfold ObeysFrom at inner ⊢
  rw [Check.closing]
  rcases run : action start with ⟨⟨outcome, after⟩, reports⟩
  rw [run] at inner
  cases key with
  | none => exact inner
  | some key =>
    dsimp only
    split
    · exact adjust inner (.of_eq rfl rfl rfl rfl rfl (Nat.le_refl _) rfl)
    · exact cut _ inner

omit [Lawful law] in
theorem ite {cond : Prop} [Decidable cond] {yes no : Check α} (first : Obeys law yes)
    (second : Obeys law no) : Obeys law (if cond then yes else no) := by
  split
  · exact first
  · exact second

/-! ### Primitive steps -/

theorem modifyFlow (f : Flow → Flow) : Obeys law (Check.modifyFlow f) :=
  modify fun _ => .of_eq rfl rfl rfl rfl rfl (Nat.le_refl _) rfl

theorem newFrame : Obeys law Check.newFrame :=
  get fun _ => bind (modify fun _ => .pushFrame _) fun _ => pure _

theorem declare (name : String) (ty : Ty) (kind : SymbolKind) (pos : Position) :
    Obeys law (Check.declare name ty kind pos) := by
  refine get fun a => bind (modify fun a => ?_) fun _ => ?_
  · exact .of_eq rfl rfl rfl rfl rfl (by simp) rfl
  · dsimp only
    split
    · exact bind (report rfl _) fun _ => pure _
    · exact bind (modify fun _ => .modifyFrame _ _ fun _ => rfl) fun _ => pure _

theorem noteCapture (symbol : Symbol) : Obeys law (Check.noteCapture symbol) := by
  unfold Check.noteCapture
  split
  · exact pure _
  · exact modify fun a => .capture _ _ a

/-- Rules that only put computations together obey a law if their parts do. -/
theorem steps : Stepwise (Obeys law) :=
  { pure, bind, get, report, modifyFlow, noteCapture }

end Obeys

/-- A statement on pairs of computations that also holds of what obeys all laws, and that is not spoilt by
changes which concern neither declarations nor books. -/
structure Adjusting (holds : Grading) : Prop extends Graded holds where
  free : ∀ {α : Type} {action : Check α}, (∀ law [Lawful law], Obeys law action) →
    holds false [] action action
  ensuring : ∀ {α : Type} {strict : Bool} {nodes : List Node} {action other : Check α}
    {cleanup : Analyzer → Analyzer}, (∀ analyzer : Analyzer, analyzer.Adjusts (cleanup analyzer)) →
    holds strict nodes action other →
    holds strict nodes (Check.ensuring cleanup action) (Check.ensuring cleanup other)

end Check

/-- Whether checking one level further in obeys a law. -/
structure Checks.Obeys (law : RunLaw) (checks : Checks) : Prop where
  expr : ∀ expr, Check.Obeys law (checks.expr expr)
  condition : ∀ expr, Check.Obeys law (checks.condition expr)
  statement : ∀ statement, Check.Obeys law (checks.statement statement)
  statements : ∀ statements, Check.Obeys law (checks.statements statements)
  finish : ∀ key, Check.Obeys law (checks.finish key)

/-- The state in which the body of a function is checked. -/
def Checks.entered (fn : Body) (result : Ty) (defining : Site) (a : Analyzer) : Analyzer :=
  { a with
    frames := a.frames.push {}
    contexts := a.contexts.push
      { name := fn.name, result, constructor := fn.constructor, body := fn.body }
    site := ⟨a.frames.size :: defining.frames, a.contexts.size :: defining.contexts⟩
    flow := {}
    active := match fn.key with
      | some key => a.active.insert key a.contexts.size
      | none => a.active }

namespace Check

/-- A law that also holds where the check of a body begins, and where no levels are left. -/
class Nests (law : RunLaw) : Prop extends Lawful law where
  enter : ∀ function result defining analyzer,
    law analyzer none [] (Checks.entered function result defining analyzer)
  deep : ∀ analyzer, law analyzer (some .tooDeep) [] analyzer

/-- A law that also holds where methods are put off, and of the rules that declare names, check the body of
a function or finish a struct, if checking one level further in obeys it. -/
class Governs (law : RunLaw) : Prop extends Nests law where
  defer : ∀ (analyzer : Analyzer) (name : String),
    law analyzer none [] { analyzer with deferred := name :: analyzer.deferred }
  finishFunction : ∀ {checks : Checks}, checks.Obeys law → ∀ key,
    Check.Obeys law (checks.finishFunction key)
  finishStruct : ∀ {checks : Checks}, checks.Obeys law → ∀ structName,
    Check.Obeys law (checks.finishStruct structName)
  checkStatements : ∀ {checks : Checks}, checks.Obeys law →
    (∀ progress next, Check.Obeys law (checks.checkNext progress next)) → ∀ statements,
    Check.Obeys law (checks.checkStatements statements)

end Check

namespace Checks

/-! ## The parts of the check of a body -/

/-- The check of the parameters and the statements of a body, and the way back out of it. -/
def insideBody (checks : Checks) (fn : Body) (paramTypes : List Ty) (outer : Analyzer) :
    Check (List Stmt × Bool) :=
  Check.ensuring (fun after => { after with site := outer.site, flow := outer.flow }) <|
    Check.closing fn.key do
      if let some sname := fn.receiver then
        let _ ← Check.declare "self" (.struct sname) .receiver fn.position
      (fn.params.zip paramTypes).forM fun (param, ty) => do
        let _ ← Check.declare param.name ty .param param.position
      checks.statements fn.body.statements

/-- What becomes of a function whose body has been checked in the context with a number. -/
def afterBody (fn : Body) (paramTypes : List Ty) (id : Nat) :
    List Stmt × Bool → Check CheckedBody
  | (statements, terminates) => do
    let context := (← get).context id
    let final := if context.result.isUnknown then .nil else context.result
    modify fun a => a.modifyContext id fun context => { context with result := final }
    if !terminates && !final.isNilable && !final.isError then
      Check.report (.missingReturn fn.name final) (some fn.position)
    return ⟨.function paramTypes final, { fn.body with statements }, context.captures⟩

theorem checkBody_apply (checks : Checks) (fn : Body) (params : List Ty) (result : Ty)
    (defining : Site) (a : Analyzer) :
    checks.checkBody fn (.function params result) defining a =
      (checks.insideBody fn params a >>= afterBody fn params a.contexts.size)
        (entered fn result defining a) := rfl

/-- A type that is not that of a function counts as one of which nothing is known. -/
theorem checkBody_eq_function (checks : Checks) (fn : Body) (sig : Ty) (defining : Site) :
    ∃ params result, checks.checkBody fn sig defining =
      checks.checkBody fn (.function params result) defining := by
  cases sig with
  | function params result => exact ⟨params, result, rfl⟩
  | _ => exact ⟨[], .unknown, rfl⟩

/-- The check of the body of a function that waited, up to its type. -/
def signBody (checks : Checks) (key : FunctionKey) : PendingFunction → Check CheckedBody
  | ⟨decl, site⟩ => do
    modify fun a => { a with pending := a.pending.erase key }
    let sig ← signatureOf key
    let checked ← checks.checkBody (bodyOf key decl) sig site
    setSignature key checked.signature
    return checked

/-- What is left to do for a function that has its type. -/
def noteFinished (key : FunctionKey) (decl : FunctionDecl Stmt) (checked : CheckedBody) :
    Check Unit := do
  if let .method sname name := key then
    if name = StructInfo.initName then checkInitFields sname decl.body.statements
  modify fun a =>
    { a with
      finished := a.finished.insert key
        { decl with
          body := checked.body
          captures := checked.captures
          signature := some checked.signature } }

theorem finishFunction_apply (checks : Checks) (key : FunctionKey) (a : Analyzer) :
    checks.finishFunction key a = match a.pending.find? key with
      | none => ⟨(.ok (), a), []⟩
      | some waiting => (checks.signBody key waiting >>= noteFinished key waiting.decl) a := by
  rw [finishFunction, Check.get_bind]
  cases a.pending.find? key with
  | none => rfl
  | some waiting =>
    cases key <;> simp only [signBody, noteFinished, bind_assoc, pure_bind]

open Check.Obeys

variable {law : RunLaw} {checks : Checks}

namespace Obeys

/-! ## Function bodies -/

section

variable [Check.Lawful law]

theorem insideBody (h : checks.Obeys law) (fn : Body) (paramTypes : List Ty) (outer : Analyzer) :
    Check.Obeys law (checks.insideBody fn paramTypes outer) := by
  have body : Check.Obeys law (do
      (fn.params.zip paramTypes).forM fun (param, ty) => do
        let _ ← Check.declare param.name ty .param param.position
      checks.statements fn.body.statements) :=
    bind (steps.forM _ fun pair _ => steps.last (declare _ _ _ _)) fun _ => h.statements _
  refine ensuring (fun _ => .of_eq rfl rfl rfl rfl rfl (Nat.le_refl _) rfl) (closing _ ?_)
  cases fn.receiver with
  | some sname => exact bind (declare _ _ _ _) fun _ => body
  | none => exact body

theorem afterBody (fn : Body) (paramTypes : List Ty) (id : Nat) (checked : List Stmt × Bool) :
    Check.Obeys law (afterBody fn paramTypes id checked) := by
  refine getFrom fun after => .modifyThen (.modifyContext _ _ (fun _ => rfl) (fun _ => rfl) fun known => ?_) ?_
  · exact if_neg fun unknown => known (Ty.eq_unknown unknown)
  · exact ite (steps.last (report rfl _)) (pure _) _

omit [Check.Lawful law] in
theorem checkBody [Check.Nests law] (h : checks.Obeys law) (fn : Body) (sig : Ty)
    (defining : Site) : Check.Obeys law (checks.checkBody fn sig defining) := by
  obtain ⟨params, result, eq⟩ := checks.checkBody_eq_function fn sig defining
  intro start
  rw [eq, Check.ObeysFrom, checkBody_apply]
  have inside : Check.Obeys law (checks.insideBody fn params start >>=
      Checks.afterBody fn params start.contexts.size) :=
    bind (h.insideBody fn params start) fun checked => afterBody _ _ _ _
  have both := Check.Lawful.seq (Check.Nests.enter fn result defining start) (inside _)
  exact both

theorem signatureOf (key : FunctionKey) : Check.Obeys law (Checks.signatureOf key) := by
  refine get fun a => ?_
  cases key with
  | function id => exact pure _
  | method sname name => exact demand _ _

theorem noteFinished (key : FunctionKey) (decl : FunctionDecl Stmt) (checked : CheckedBody) :
    Check.Obeys law (noteFinished key decl checked) := by
  cases key with
  | function id => exact modify fun _ => .of_eq rfl rfl rfl rfl rfl (Nat.le_refl _) rfl
  | method sname name =>
    refine ite (bind (steps.checkInitFields _ _) fun _ => ?_) ?_
    all_goals exact modify fun _ => .of_eq rfl rfl rfl rfl rfl (Nat.le_refl _) rfl

theorem settle (h : checks.Obeys law) (sig : Ty) (key : FunctionKey) :
    Check.Obeys law (checks.settle sig key) := by
  unfold Checks.settle
  split
  · refine get fun a => ite (bind (h.finish key) fun _ => signatureOf key) ?_
    split
    · exact pure _
    · exact pure _
  · exact pure _

/-! ## Members and calls -/

theorem assignedMember (info : StructInfo) (member : String) (pos : Position) (value : Expr) :
    Check.Obeys law (Checks.assignedMember info member pos value) := by
  refine ite (steps.last (steps.fail rfl _)) ?_
  split
  · exact steps.last (steps.fail rfl _)
  · exact steps.last (modify fun _ => .setField _ _ _ _)
  · exact steps.last (steps.flowInto _ _ _ rfl)

theorem assignedField (object : Ty) (member : String) (pos : Position) (value : Expr) :
    Check.Obeys law (Checks.assignedField object member pos value) := by
  refine get fun a => ite (pure _) (ite (steps.last (steps.fail rfl _)) ?_)
  split
  · exact steps.last (steps.fail rfl _)
  · exact assignedMember _ _ _ _

theorem flowFields (sname : String) (args : List Expr) (fields : List (String × Ty)) :
    Check.Obeys law (Checks.flowFields sname args fields) := by
  induction args generalizing fields with
  | nil => exact pure _
  | cons arg args ih =>
    cases fields with
    | nil => exact pure _
    | cons field fields =>
      have later (arg : Expr) : Check.Obeys law (do
          return arg :: (← Checks.flowFields sname args fields)) :=
        steps.last (ih fields)
      exact ite (bind (modify fun _ => .setField _ _ _ _) fun _ => later arg)
        (bind (steps.flowInto _ _ _ rfl) later)

theorem structInfo (sname : String) : Check.Obeys law (Checks.structInfo sname) :=
  get fun _ => demand _ _

theorem flowConstruct (sname : String) (pos : Position) (args : List Expr) :
    Check.Obeys law (Checks.flowConstruct sname pos args) := by
  refine bind (structInfo _) fun _ => ite (flowFields _ _ _) ?_
  exact steps.last (report rfl _)

omit [Check.Lawful law] in
theorem checkClosure [Check.Nests law] (h : checks.Obeys law) (note : Note) (params : List Param)
    (result : Option TypeExpr) (body : Block Stmt) :
    Check.Obeys law (checks.checkClosure note params result body) :=
  bind (steps.resolveSignature _ _ _) fun _ => get fun _ => steps.last (h.checkBody _ _ _)

end

end Obeys

end Checks

/-! ## Rules that put steps and checks together -/

/-- What the rules take from checking one level further in. -/
structure Checks.Passes (holds : Check.Grading) (checks others : Checks) : Prop where
  expr : ∀ e, holds false e.nodes (checks.expr e) (others.expr e)
  condition : ∀ e, holds false e.nodes (checks.condition e) (others.condition e)
  statements : ∀ block : Block Stmt, holds true (Stmt.block block).nodes
    (checks.statements block.statements) (others.statements block.statements)
  finish : ∀ key, holds false [] (checks.finish key) (others.finish key)
  settle : ∀ signature key, holds false [] (checks.settle signature key) (others.settle signature key)
  finishDeferred : ∀ structName, holds false [] (checks.finishDeferred structName)
    (others.finishDeferred structName)

namespace Check.Adjusting

open Check.Graded (ite)

variable {holds : Grading} (steps : Adjusting holds) {checks others : Checks}

include steps

theorem atSite {α : Type} {strict : Bool} {nodes : List Node} {action other : Check α} (site : Site)
    (h : holds strict nodes action other) :
    holds strict nodes (Check.atSite site action) (Check.atSite site other) := by
  have moved (site : Site) (a : Analyzer) : a.Adjusts { a with site } :=
    .of_eq rfl rfl rfl rfl rfl (Nat.le_refl _) rfl
  exact steps.get fun outer => steps.after (steps.free fun _ _ => .modify (moved site)) fun _ =>
    steps.ensuring (moved outer.site) h

variable (h : checks.Passes holds others)

include h

theorem checkName (ident : String) (pos : Position) :
    holds false [] (checks.checkName ident pos) (others.checkName ident pos) := by
  refine steps.get fun a => ?_
  split
  · exact steps.alone.fail rfl _
  · refine ite (steps.alone.fail rfl _) (steps.after (steps.noteCapture _) fun _ => ?_)
    split
    · exact steps.free fun _ _ => .bind (.demand _ _) fun _ => .pure _
    · exact h.settle _ _
    · exact ite (steps.alone.fail rfl _) (ite (steps.alone.fail rfl _) (steps.pure _))

/-- An assignment, which may give its variable a type. -/
theorem checkAssign (note target : Note) (ident : String) (value : Expr) :
    holds true (Expr.assign note target ident value).nodes (checks.checkAssign note target ident value)
      (others.checkAssign note target ident value) := by
  rw [Expr.nodes]
  refine steps.node (steps.weaken (steps.node (steps.followed (h.expr _) fun value => ?_) rfl)) rfl
  refine steps.get fun a => ?_
  dsimp only
  split
  · exact steps.last (steps.alone.fail rfl _)
  · refine steps.after (steps.noteCapture _) fun _ => ite ?_ (ite ?_ ?_)
    · exact steps.last (steps.alone.fail rfl _)
    · refine steps.followed (steps.alone.flowInto _ _ _ rfl) fun _ => ?_
      exact steps.last (steps.modifyFlow _)
    · refine steps.followed (steps.free fun _ _ => .modify fun _ => .modifySymbol _ _ _) fun _ => ?_
      exact steps.after (steps.pure _) fun _ => steps.last (steps.modifyFlow _)

theorem checkConstruct (note callee : Note) (sname : String) (args : List Expr) :
    holds false (Expr.nodesOfList args) (checks.checkConstruct note callee sname args)
      (others.checkConstruct note callee sname args) := by
  have info := steps.free fun _ _ => Checks.Obeys.structInfo sname
  refine steps.after info fun _ => ite ?_ ?_
  · refine steps.after (h.finish _) fun _ => steps.followed (steps.checkAll h.expr args) fun args => ?_
    exact steps.last (steps.alone.applyFunction _ _ _ _)
  · refine steps.followed (steps.checkAll h.expr args) fun args => ?_
    refine steps.followed (steps.free fun _ _ => Checks.Obeys.flowConstruct _ _ _) fun args => ?_
    exact steps.followed (h.finishDeferred _) fun _ => steps.last info

/-- A call, of a constructor or of any other value. -/
theorem checkCall (note : Note) (fn : Expr) (args : List Expr) :
    holds true (Expr.call note fn args).nodes (checks.checkCall note fn args)
      (others.checkCall note fn args) := by
  rw [Expr.nodes]
  refine steps.node (steps.get fun a => ?_) rfl
  dsimp only
  split
  · rename_i constructed
    -- only a name stands for a struct
    cases fn with
    | name callee ident =>
      rw [Expr.nodes]
      refine steps.weaken (steps.node (steps.after (steps.noteCapture _) fun _ => ?_) rfl)
      exact steps.checkConstruct h _ _ _ _
    | _ => cases constructed
  · refine steps.bind (h.expr _) fun fn => steps.followed (steps.checkAll h.expr args) fun args => ?_
    exact steps.last (steps.alone.applyFunction _ _ _ _)

theorem checkBlockAfter {before : Check Unit} (first : ∀ law [Lawful law], Obeys law before)
    (block : Block Stmt) : holds true (Stmt.block block).nodes (checks.checkBlockAfter before block)
      (others.checkBlockAfter before block) := by
  refine steps.after (steps.free fun _ _ => .newFrame) fun frame => steps.get fun a => ?_
  refine steps.followed (steps.atSite _ (steps.after (steps.free first) fun _ => h.statements block)) fun _ => ?_
  exact steps.last (steps.modifyFlow _)

theorem checkInitial (ref : SymbolRef) (declared : Option Ty) (value : Expr) :
    holds false value.nodes (checks.checkInitial ref declared value)
      (others.checkInitial ref declared value) := by
  refine steps.after (steps.free fun _ _ => .modify fun _ => .modifySymbol _ _ _) fun _ => ?_
  refine steps.followed (steps.ensuring (fun _ => .modifySymbol _ _ _) (h.expr value)) fun value => ?_
  cases declared with
  | some target => exact steps.alone.flowInto _ _ _ rfl
  | none =>
    exact steps.last (steps.free fun _ _ => .modify fun _ => .modifySymbol _ _ _)

theorem checkVarDecl (pos : Position) (name : String) (written : Option TypeExpr) (value : Option Expr) :
    holds false (value.elim [] Expr.nodes) (checks.checkVarDecl pos name written value)
      (others.checkVarDecl pos name written value) := by
  refine steps.after (steps.alone.resolveWritten written) fun declared => ?_
  refine steps.after (steps.free fun _ _ => .declare _ _ _ _) fun ref => ?_
  cases value with
  | some value => exact steps.last (steps.checkInitial h _ _ _)
  | none => exact ite (steps.last (steps.modifyFlow _)) (steps.pure _)

/-- The rules that change the state, but for those of bodies, conditionals and `return`. -/
theorem admits
    (closure : ∀ {captures} note params result body,
      holds true (Expr.closure note params result body captures).nodes
        (checks.checkClosure note params result body) (others.checkClosure note params result body))
    (conditional : ∀ pos cond body alt, holds true (Stmt.ifElse pos cond body alt).nodes
      (checks.checkIf pos cond body alt) (others.checkIf pos cond body alt))
    (ret : ∀ pos value, holds false (value.elim [] Expr.nodes) (checks.checkReturn pos value)
      (others.checkReturn pos value)) : checks.AdmitsPlaced holds others where
  expr := h.expr
  condition := h.condition
  settle := h.settle
  checkName := steps.checkName h
  checkAssign := steps.checkAssign h
  assignedField _ _ _ _ := steps.free fun _ _ => Checks.Obeys.assignedField _ _ _ _
  checkCall := steps.checkCall h
  checkClosure := closure
  checkBlock := steps.checkBlockAfter h fun _ _ => .pure _
  checkIf := conditional
  checkLoop _ _ := steps.checkBlockAfter h fun _ _ => .bind (.declare _ _ _ _) fun _ => .pure _
  checkVarDecl := steps.checkVarDecl h
  checkReturn := ret

end Check.Adjusting

namespace Checks

open Check.Obeys

variable {law : RunLaw} {checks : Checks}

namespace Obeys

section

variable [Check.Governs law]

variable (h : checks.Obeys law)

include h

theorem finishDeferred (sname : String) :
    Check.Obeys law (checks.finishDeferred sname) :=
  bind (structInfo _) fun _ => get fun _ => ite (Check.Governs.finishStruct h _) (pure _)

/-- A `return` obeys every law. -/
theorem checkReturn (pos : Position) (value : Option Expr) :
    Check.Obeys law (checks.checkReturn pos value) := by
  refine bind (steps.checkReturned h.expr value) fun value => getFrom fun a => ?_
  split
  · exact steps.last (report rfl _) _
  · rename_i id _ _
    dsimp only
    by_cases constructor : (a.context id).constructor = true
    · rw [if_pos constructor]
      exact steps.last (report rfl _) _
    rw [if_neg constructor]
    by_cases unknown : (a.context id).result.isUnknown = true
    · rw [if_pos unknown]
      refine .modifyThen (.modifyContext _ id (fun _ => rfl) (fun _ => rfl) fun known => ?_) (pure _ _)
      exact absurd (Ty.eq_unknown unknown) known
    rw [if_neg unknown]
    split
    · exact steps.last (report rfl _) _
    · exact pure _ _
    · exact pure _ _

theorem checkStruct (decl : StructDecl Stmt) :
    Check.Obeys law (checks.checkStruct decl) :=
  get fun _ => ite (fun start => Check.Governs.defer start _) (Check.Governs.finishStruct h _)

/-- The rules that change the state obey the law. -/
theorem admits : checks.AdmitsStatements (Check.Obeys law) where
  toAdmitsPlaced :=
    have adjusting : Check.Adjusting (Check.single (Check.Obeys law)) :=
      { steps.graded with free := fun h => h law, ensuring := ensuring }
    have passes : checks.Passes (Check.single (Check.Obeys law)) checks :=
      ⟨h.expr, h.condition, fun _ => h.statements _, h.finish, h.settle, h.finishDeferred⟩
    have block := adjusting.checkBlockAfter passes fun _ _ => .pure _
    adjusting.admits passes h.checkClosure (steps.checkIf h.condition block h.statement) h.checkReturn
  finish := h.finish
  mark _ := modify fun _ => .of_eq rfl rfl rfl rfl rfl (Nat.le_refl _) rfl
  checkStruct := h.checkStruct

end

end Obeys

/-- A law holds of all runs of checking if it governs, however many levels are left. -/
theorem obeys [Check.Governs law] (levels : Nat) : Checks.Obeys law (.within levels) := by
  have deep {α : Type} : Check.Obeys law (throw .tooDeep : Check α) := Check.Nests.deep
  induction levels with
  | zero => exact ⟨fun _ => deep, fun _ => deep, fun _ => deep, fun _ => deep, fun _ => deep⟩
  | succ levels ih =>
    exact ⟨steps.checkExpr ih.admits.toAdmitsPairs, steps.checkCondition ih.admits.toAdmitsPairs,
      fun stmt => steps.last (steps.checkStatement ih.admits stmt _),
      Check.Governs.checkStatements ih (steps.checkNext ih.admits), Check.Governs.finishFunction ih⟩

end Checks

end FlowScript
