import FlowScript.Proofs.EvolvingSteps
/-!
# The state evolves along the rules of checking

Along each rule of checking the state evolves, if it does so along checking one level further in.
Main statement: `Checks.evolving`, which ties the rules together by recursion on the levels.
-/

namespace FlowScript

namespace Checks

open Check.Keeps Check.Evolving

variable {declares : Bool} {base : Analyzer} {checks : Checks}

/-- Whether the state evolves along checking one level further in. -/
structure Evolving (checks : Checks) : Prop where
  expr : ∀ {declares base} expr, Check.Evolving declares base (checks.expr expr)
  condition : ∀ {declares base} expr, Check.Evolving declares base (checks.condition expr)
  statement : ∀ {base} statement, Check.Evolving true base (checks.statement statement)
  statements : ∀ {base} statements, Check.Evolving true base (checks.statements statements)
  finish : ∀ {declares base} key, Check.Evolving declares base (checks.finish key)

namespace Evolving

/-! ## Function bodies -/

/-- A body is checked in a frame of its own, inside of the frames at the site of its declaration. A
function with a key is declared and does not wait any more, and its body is not being checked. -/
theorem checkBody (h : checks.Evolving) (fn : Body) (sig : Ty) {defining : Site}
    {a : Analyzer} (outer : base.Evolves declares a)
    (visible : ∀ id ∈ defining.frames, id < a.frames.size)
    (ready : ∀ key, fn.key = some key → a.Knows key ∧
      a.pending.contains key = false ∧ a.active.contains key = false) :
    Check.Reaches a (base.Evolves declares) (fun body => body.signature.isFunction = true)
      (checks.checkBody fn sig defining) := by
  have entered := outer.wellFormed.enter visible (a.contexts.size :: defining.contexts)
  have params (params : List (Param × Ty)) (base : Analyzer) : Check.Evolving true base (do
      params.forM fun pair => do
        let _ ← Check.declare pair.1.name pair.2 .param pair.1.position
      checks.statements fn.body.statements) :=
    andThen (forM params fun pair _ =>
      steps.last (declare _ _ _ _ (by rintro ⟨⟩) (by rintro ⟨⟩))) fun _ => h.statements _
  have recv (sname : String) (paramTypes : List (Param × Ty)) (base : Analyzer) :
      Check.Evolving true base (do
        let _ ← Check.declare "self" (.struct sname) .receiver fn.position
        paramTypes.forM fun pair => do
          let _ ← Check.declare pair.1.name pair.2 .param pair.1.position
        checks.statements fn.body.statements) :=
    andThen (declare _ _ _ _ (by rintro ⟨⟩) (by rintro ⟨⟩)) fun _ => params _ _
  unfold Checks.checkBody
  refine .step rfl (.step rfl (.step rfl (.andThen ?_ fun checked => ?_)))
  · -- only a function with a key is listed among those that are being checked
    cases keyed : fn.key with
    | none =>
      refine inside outer (entered.congr rfl rfl rfl rfl rfl rfl rfl) ⟨rfl, rfl, rfl, rfl, rfl, rfl, rfl⟩
        rfl (fun after h => h.congr rfl rfl rfl rfl rfl rfl rfl rfl) ?_
      cases fn.receiver with
      | some sname => exact recv _ _ _
      | none => exact params _ _
    | some key =>
      obtain ⟨known, started, idle⟩ := ready key keyed
      have entered := entered.insertActive a.contexts.size known started
      refine insideBody outer (entered.congr rfl rfl rfl rfl rfl rfl rfl)
        ⟨rfl, rfl, rfl, rfl, rfl, rfl, rfl⟩ rfl idle
        (fun after h => h.congr rfl rfl rfl rfl rfl rfl rfl rfl) ?_
      cases fn.receiver with
      | some sname => exact recv _ _ _
      | none => exact params _ _
  · refine get fun a _ => ?_
    refine andThen (modify fun _ h => h.congr rfl rfl rfl rfl rfl rfl rfl rfl) fun _ => ?_
    exact ite (andThen (report _ _) fun _ => pure rfl) (pure rfl)

/-- A function that is declared has a type. -/
theorem signatureOf_run {key : FunctionKey} {a : Analyzer} (known : a.Knows key) :
    ∃ sig, Checks.signatureOf key a = ⟨(.ok sig, a), []⟩ := by
  cases key with
  | function id => exact ⟨_, rfl⟩
  | method sname name =>
    obtain ⟨info, found, listed⟩ := known
    obtain ⟨sig, named⟩ := Option.isSome_iff_exists.mp listed
    refine ⟨sig, ?_⟩
    rw [Checks.signatureOf, Check.get_bind]
    simp only [found, Option.bind_some, named]
    rfl

theorem signatureOf {key : FunctionKey} (known : base.Knows key) :
    Check.Evolving declares base (Checks.signatureOf key) := by
  intro a evolves
  obtain ⟨sig, run⟩ := signatureOf_run (evolves.grows.knows known)
  exact .of_run run evolves trivial

/-- Setting the type of a function that is new, or that waited to be checked. -/
theorem setSignature {key : FunctionKey} {sig : Ty} (fn : sig.isFunction = true)
    (allowed : ∀ id, key = .function id →
      base.symbols.size ≤ id ∨ base.pending.contains (.function id) = true) :
    Check.Evolving declares base (Checks.setSignature key sig) := by
  refine modify fun a h => ?_
  cases key with
  | function id => exact h.setFunctionType fn (allowed id rfl)
  | method sname name =>
    exact h.modifyStruct _ fun info _ known => ⟨known.insertMethod name fn,
      fun _ => Table.contains_insert_of_contains name sig,
      .inr (.insertMethod info name sig)⟩

/-- A body that waited is checked. -/
theorem finishFunction (h : checks.Evolving) (key : FunctionKey) :
    Check.Evolving declares base (checks.finishFunction key) := by
  refine getFrom fun a outer => ?_
  cases found : a.pending.find? key with
  | none => exact .pure outer trivial
  | some fn =>
    have wellFormed := outer.wellFormed
    obtain ⟨visible, known⟩ := wellFormed.waiting key fn found
    have waits : a.pending.contains key = true := by rw [Table.contains, found]; rfl
    have started : (a.pending.erase key).contains key = false := by
      simp [Table.contains_erase]
    -- a body that waits is not being checked
    have idle : a.active.contains key = false := by
      rw [Bool.eq_false_iff]
      intro active
      rw [(wellFormed.running key active).2] at waits
      cases waits
    have erased : base.Evolves declares { a with pending := a.pending.erase key } :=
      ⟨wellFormed.erasePending key, outer.site, outer.grows.erasePending key⟩
    have known : Analyzer.Knows { a with pending := a.pending.erase key } key := known
    obtain ⟨sig, run⟩ := signatureOf_run known
    refine .modifyThen (.step run (.bind (h.checkBody (bodyOf key fn.decl) sig erased
      visible ?_) fun checked isFunction => ?_))
    · intro other same
      obtain rfl : key = other := by cases key <;> exact Option.some.inj same
      exact ⟨known, started, idle⟩
    · refine andThen (setSignature isFunction fun id eq => ?_) fun _ => ?_
      · exact (outer.grows.pending id (eq ▸ waits)).symm
      have finished : Check.Evolving declares base (modify fun a =>
          { a with
            finished := a.finished.insert key
              { fn.decl with
                body := checked.body
                captures := checked.captures
                signature := some checked.signature } }) :=
        modify fun _ h => h.congr rfl rfl rfl rfl rfl rfl rfl rfl
      cases key with
      | function id => exact finished
      | method sname name =>
        exact ite (andThen (steps.checkInitFields _ _) fun _ => finished) finished

theorem settle (h : checks.Evolving) (sig : Ty) (key : FunctionKey) :
    Check.Evolving declares base (checks.settle sig key) := by
  unfold Checks.settle
  split
  · refine getFrom fun a evolves => ?_
    split
    · rename_i waits
      obtain ⟨fn, found⟩ := Option.isSome_iff_exists.mp waits
      obtain ⟨-, known⟩ := evolves.wellFormed.waiting key fn found
      exact rebase (andThen (h.finish key) fun _ => signatureOf known) evolves
    · split <;> exact .pure evolves trivial
  · exact pure trivial

theorem finishStruct (h : checks.Evolving) (sname : String) :
    Check.Evolving declares base (checks.finishStruct sname) := by
  refine andThen (modify fun _ h => h.congr rfl rfl rfl rfl rfl rfl rfl rfl) fun _ => ?_
  refine get fun a _ => ?_
  have methods (decl : StructDecl Stmt) : Check.Evolving declares base
      (decl.methods.forM fun method => checks.finish (.method sname method.name)) :=
    forM _ fun method _ => h.finish _
  exact andThen (ite (andThen (h.finish _) fun _ => methods _) (methods _)) fun _ => checkConformance sname

/-! ## Names, operators and members -/

theorem checkName (h : checks.Evolving) (ident : String) (pos : Position) :
    Check.Evolving declares base (checks.checkName ident pos) := by
  refine get fun a evolves => ?_
  cases found : a.lookup? ident with
  | none => exact fail _ _
  | some ref =>
    refine ite (fail _ _) (andThen (noteCapture _) fun _ => ?_)
    split
    · rename_i struct
      have known := evolves.wellFormed.contains_of_lookup? found struct
      exact steps.last (demand known fun _ _ => trivial)
    · exact h.settle _ _
    · exact ite (fail _ _) (ite (fail _ _) (pure trivial))

/-! ## Assignments -/

/-- An assignment, which may give its variable a type. -/
theorem checkAssign (h : checks.Evolving) (note target : Note) (ident : String) (value : Expr) :
    Check.Evolving declares base (checks.checkAssign note target ident value) := by
  refine andThen (h.expr value) fun value => getFrom fun a evolves => ?_
  cases found : a.lookup? ident with
  | none => exact (steps.last (fail _ _)) a evolves
  | some ref =>
    obtain ⟨contexts, run⟩ := noteCapture_apply (a.symbol ref) a
    have evolves : base.Evolves declares { a with contexts } :=
      evolves.congr rfl rfl rfl rfl rfl rfl rfl rfl
    refine .step run ?_
    by_cases assignable : (a.symbol ref).kind.isMutable = true
    · simp only [assignable, Bool.not_true, Bool.false_eq_true, if_false]
      cases unknown : (a.symbol ref).ty.isUnknown with
      | false =>
        simp only [Bool.not_false, if_true]
        refine (andThen (steps.flowInto _ _ _ rfl) fun _ => ?_) _ evolves
        exact steps.last (modifyFlow _)
      | true =>
        -- only here the type of a variable changes
        simp only [Bool.not_true, Bool.false_eq_true, if_false]
        refine .step rfl ?_
        refine (andThen (pure trivial) fun _ => ?_) _
          (evolves.retype found assignable (Ty.eq_unknown unknown) _)
        exact steps.last (modifyFlow _)
    · simp only [assignable, Bool.not_false, if_true]
      exact (steps.last (fail _ _)) _ evolves

/-- The assigned field gets a type if it has none. -/
theorem assignedMember {name : String} {info : StructInfo} (member : String) (pos : Position)
    (value : Expr) {a : Analyzer} (evolves : base.Evolves declares a)
    (found : a.structs.find? name = some info) :
    Check.Reaches a (base.Evolves declares) Check.Anything
      (Checks.assignedMember info member pos value) := by
  have failing (problem : CheckProblem) : Check.Evolving declares base
      (do return (← Check.fail problem pos, value) : Check (Ty × Expr)) :=
    steps.last (fail _ _)
  unfold Checks.assignedMember
  dsimp only
  split
  · exact failing _ a evolves
  · split
    · exact failing _ a evolves
    · rename_i unknown
      refine .step rfl (.pure (evolves.modifyStruct _ fun other same known => ?_) trivial)
      rw [(evolves.wellFormed.structs _ _ found).name, found] at same
      cases same
      exact ⟨known.insertField member _, fun _ listed => listed, .inr (.insertUnknown unknown _)⟩
    · exact (steps.last (steps.flowInto _ _ _ rfl)) a evolves

theorem assignedField (object : Ty) (member : String) (pos : Position) (value : Expr) :
    Check.Evolving declares base (Checks.assignedField object member pos value) := by
  refine getFrom fun a evolves => ?_
  split
  · exact .pure evolves trivial
  · split
    · exact (steps.last (fail _ _)) a evolves
    · split
      · exact (steps.last (fail _ _)) a evolves
      · rename_i info found
        cases object with
        | struct name => exact assignedMember member pos value evolves found
        | _ => cases found

/-! ## Calls -/

/-- Letting arguments flow into fields, each of which has no type if it had none when they were
listed. -/
theorem flowFields (sname : String) (args : List Expr) {fields : List (String × Ty)}
    (distinct : (fields.map Prod.fst).Nodup) {a : Analyzer}
    (evolves : base.Evolves declares a)
    (unknown : ∀ info, a.structs.find? sname = some info →
      ∀ field ∈ fields, field.2 = .unknown → info.fields.find? field.1 = some .unknown) :
    Check.Reaches a (base.Evolves declares) Check.Anything
      (Checks.flowFields sname args fields) := by
  induction args generalizing fields a with
  | nil => exact .pure evolves trivial
  | cons arg args ih =>
    rcases fields with _ | ⟨⟨field, ty⟩, fields⟩
    · exact .pure evolves trivial
    · obtain ⟨new, others⟩ := List.nodup_cons.mp distinct
      cases known : ty.isUnknown with
      | false =>
        obtain ⟨value, reports, run⟩ := flowInto_apply arg arg.checkedTy ty
          (.fieldArgument field sname ty arg.checkedTy) a
        rw [Checks.flowFields]
        simp only [known, Bool.false_eq_true, if_false]
        refine .step run (.andThen (ih others evolves ?_) fun _ => pure trivial)
        exact fun info found field mem => unknown info found field (by simp [mem])
      | true =>
        obtain rfl := Ty.eq_unknown known
        rw [Checks.flowFields]
        simp only [known, if_true]
        refine .modifyThen (.step rfl (.andThen (ih others ?_ ?_) fun _ => pure trivial))
        · refine evolves.modifyStruct _ fun info found wellFormed => ?_
          have untyped := unknown info found (field, .unknown) (by simp) rfl
          exact ⟨wellFormed.insertField field _, fun _ listed => listed,
            .inr (.insertUnknown untyped _)⟩
        -- fields have different names, so the later ones are as they were
        · intro info found other mem isUnknown
          rw [Analyzer.find?_modifyStruct, if_pos rfl] at found
          obtain ⟨before, foundBefore, rfl⟩ := Option.map_eq_some_iff.mp found
          rw [Table.find?_insert_of_ne]
          · exact unknown before foundBefore other (by simp [mem]) isUnknown
          · rintro rfl
            exact new (List.mem_map.mpr ⟨other, mem, rfl⟩)

section Construct

variable {sname : String} (known : base.structs.contains sname = true)

include known

theorem structInfo_run {a : Analyzer} (evolves : base.Evolves declares a) :
    ∃ info, a.structs.find? sname = some info ∧
      Checks.structInfo sname a = ⟨(.ok info, a), []⟩ := by
  obtain ⟨info, found⟩ := Option.isSome_iff_exists.mp (evolves.grows.contains_structs known)
  refine ⟨info, found, ?_⟩
  rw [Checks.structInfo, Check.get_bind, found]
  rfl

theorem structInfo : Check.Evolving declares base (Checks.structInfo sname) := by
  intro a evolves
  obtain ⟨info, -, run⟩ := structInfo_run known evolves
  exact .of_run run evolves trivial

theorem flowConstruct (pos : Position) (args : List Expr) :
    Check.Evolving declares base (Checks.flowConstruct sname pos args) := by
  intro a evolves
  obtain ⟨info, found, run⟩ := structInfo_run known evolves
  refine .step run ?_
  change Check.Reaches _ _ _ (if _ then _ else _)
  split
  · refine flowFields sname args (evolves.wellFormed.structs _ _ found).fields evolves ?_
    intro other same field mem unknown
    rw [found] at same
    cases same
    exact Table.find?_of_mem (evolves.wellFormed.structs _ _ found).fields (unknown ▸ mem)
  · exact (steps.last (report _ _)) a evolves

theorem finishDeferred (h : checks.Evolving) :
    Check.Evolving declares base (checks.finishDeferred sname) := by
  refine andThen (structInfo known) fun info => get fun a _ => ?_
  exact ite (h.finishStruct sname) (pure trivial)

theorem checkConstruct (h : checks.Evolving) (note callee : Note) (args : List Expr) :
    Check.Evolving declares base (checks.checkConstruct note callee sname args) := by
  refine andThen (structInfo known) fun info => ite ?_ ?_
  · refine andThen (h.finish _) fun _ => andThen (steps.mapM h.expr args) fun args => ?_
    exact steps.last (steps.applyFunction _ _ _ _)
  · refine andThen (steps.mapM h.expr args) fun args => ?_
    refine andThen (flowConstruct known _ _) fun args => andThen (finishDeferred known h) fun _ => ?_
    exact steps.last (structInfo known)

end Construct

/-- A call, which may have a struct finished first. -/
theorem checkCall (h : checks.Evolving) (note : Note) (fn : Expr) (args : List Expr) :
    Check.Evolving declares base (checks.checkCall note fn args) := by
  refine getFrom fun a evolves => ?_
  dsimp only
  split
  · rename_i callee sname constructed
    -- a name that stands for a struct
    have known : a.structs.contains sname = true := by
      cases fn with
      | name note ident =>
        dsimp only at constructed
        split at constructed
        · rename_i ref found
          split at constructed
          · rename_i struct
            cases constructed
            exact evolves.wellFormed.contains_of_lookup? found struct
          · cases constructed
        · cases constructed
      | _ => cases constructed
    refine rebase ?_ evolves
    exact andThen (noteCapture _) fun _ => checkConstruct known h _ _ _
  · refine rebase (andThen (h.expr fn) fun fn => ?_) evolves
    refine andThen (steps.mapM h.expr args) fun args => ?_
    exact steps.last (steps.applyFunction _ _ _ _)

theorem checkClosure (h : checks.Evolving) (note : Note) (params : List Param)
    (res : Option TypeExpr) (body : Block Stmt) :
    Check.Evolving declares base (checks.checkClosure note params res body) := by
  refine andThen (resolveSignature _ _ _).anyway fun sig => getFrom fun a evolves => ?_
  have body := h.checkBody { name := "<closure>", position := note.position, params, body } sig
    evolves evolves.wellFormed.visible nofun
  exact .bind body fun _ _ => pure trivial

/-! ## Statements -/

theorem checkBlockAfter (h : checks.Evolving) {before : Check Unit}
    (first : ∀ {base}, Check.Evolving true base before) (block : Block Stmt) :
    Check.Evolving declares base (checks.checkBlockAfter before block) := by
  intro a outer
  have entered := outer.wellFormed.enter outer.wellFormed.visible a.site.contexts
  have stmts (base : Analyzer) :
      Check.Evolving true base (do before; checks.statements block.statements) :=
    andThen first fun _ => h.statements _
  refine .step rfl (.step rfl (.andThen ?_ fun _ => ?_))
  · refine .step rfl (.step rfl ?_)
    exact inside outer entered ⟨rfl, rfl, rfl, rfl, rfl, rfl, rfl⟩ rfl (fun _ after => after)
      (stmts _)
  · exact steps.last (modifyFlow _)

theorem checkLoop (h : checks.Evolving) (name : String) (pos : Position) (block : Block Stmt) :
    Check.Evolving declares base (checks.checkBlockAfter
      (do let _ ← Check.declare name .int .loop pos) block) := by
  have first {base : Analyzer} : Check.Evolving true base
      (do let _ ← Check.declare name .int .loop pos) :=
    steps.last (declare _ _ _ _ nofun nofun)
  exact h.checkBlockAfter first block

theorem checkBlock (h : checks.Evolving) (block : Block Stmt) :
    Check.Evolving declares base (checks.checkBlock block) :=
  h.checkBlockAfter (fun {_} => pure trivial) block

/-- A variable that was declared on the way is changed. -/
theorem modifyDeclared {id : Nat} (new : base.symbols.size ≤ id) {f : Symbol → Symbol}
    (name : ∀ symbol, (f symbol).name = symbol.name)
    (kind : ∀ symbol, (f symbol).kind = symbol.kind) {a : Analyzer}
    (h : base.Evolves declares a ∧ id < a.symbols.size ∧
      (a.symbolAt id).kind = .variable) :
    base.Evolves declares (a.modifySymbol id f) ∧
      id < (a.modifySymbol id f).symbols.size ∧
      ((a.modifySymbol id f).symbolAt id).kind = .variable := by
  obtain ⟨evolves, known, isVariable⟩ := h
  refine ⟨evolves.modifyNew new ?_ f name kind, by simpa [Analyzer.modifySymbol] using known, ?_⟩
  · rw [isVariable]
    rintro ⟨⟩
  · rw [Analyzer.symbolAt_modifySymbol, if_pos ⟨rfl, known⟩, kind, isVariable]

/-- The initial value of a variable that was declared on the way. -/
theorem checkInitial (h : checks.Evolving) {ref : SymbolRef} (new : base.symbols.size ≤ ref.id)
    (declared : Option Ty) (value : Expr) :
    Check.Keeps (fun a => base.Evolves declares a ∧ ref.id < a.symbols.size ∧
      (a.symbolAt ref.id).kind = .variable) Check.Anything
      (checks.checkInitial ref declared value) := by
  have change {f : Symbol → Symbol} (name : ∀ symbol, (f symbol).name = symbol.name)
      (kind : ∀ symbol, (f symbol).kind = symbol.kind) (a : Analyzer) :=
    @modifyDeclared declares base ref.id new f name kind a
  refine andThen (modify (change (fun _ => rfl) fun _ => rfl)) fun _ => ?_
  refine andThen (Check.Keeps.ensuring (withKind (fun _ => h.expr value) _ _)
    (change (fun _ => rfl) fun _ => rfl)) fun value => ?_
  cases declared with
  | some target => exact withKind (fun _ => steps.flowInto _ _ _ rfl) _ _
  | none => exact andThen (modify (change (fun _ => rfl) fun _ => rfl)) fun _ => pure trivial

theorem checkVarDecl (h : checks.Evolving) (pos : Position) (name : String)
    (written : Option TypeExpr) (value : Option Expr) :
    Check.Evolving true base (checks.checkVarDecl pos name written value) := by
  refine andThen (steps.resolveWritten written) fun declared => ?_
  refine declareThen name _ .variable pos nofun nofun fun ref new => ?_
  cases value with
  | some value => exact andThen (h.checkInitial new declared value) fun _ => pure trivial
  | none =>
    refine ite (andThen (withKind (fun _ => modifyFlow _) _ _) fun _ => pure trivial) ?_
    exact pure trivial

theorem checkReturn (h : checks.Evolving) (pos : Position) (value : Option Expr) :
    Check.Evolving declares base (checks.checkReturn pos value) := by
  refine andThen (steps.checkReturned h.expr value) fun value => get fun a _ => ?_
  split
  · exact steps.last (report _ _)
  · refine ite (steps.last (report _ _)) (ite ?_ ?_)
    · exact steps.last (modify fun _ h => h.congr rfl rfl rfl rfl rfl rfl rfl rfl)
    · split
      · exact steps.last (report _ _)
      · exact pure trivial
      · exact pure trivial

theorem checkStruct (h : checks.Evolving) (decl : StructDecl Stmt) :
    Check.Evolving declares base (checks.checkStruct decl) := by
  refine get fun a _ => ite (modify fun _ h => ?_) (h.finishStruct _)
  exact h.congr rfl rfl rfl rfl rfl rfl rfl rfl

/-- Along the rules for expressions that change the state, it evolves. -/
theorem admits (h : checks.Evolving) : checks.Admits (Check.Evolving declares base) where
  expr := h.expr
  condition := h.condition
  settle := h.settle
  checkName := h.checkName
  checkAssign := h.checkAssign
  assignedField := assignedField
  checkCall := h.checkCall
  checkClosure := h.checkClosure

/-- And so it does along the rules for statements. -/
theorem admitsStatements (h : checks.Evolving) :
    checks.AdmitsStatements (Check.Evolving true base) where
  toAdmitsPairs := h.admits
  checkBlock := h.checkBlock
  checkIf := steps.checkIf h.condition h.checkBlock h.statement
  checkLoop := h.checkLoop
  checkVarDecl := h.checkVarDecl
  checkReturn := h.checkReturn
  finish := h.finish
  mark _ := modify fun _ h => h.congr rfl rfl rfl rfl rfl rfl rfl rfl
  checkStruct := h.checkStruct

theorem checkStatements (h : checks.Evolving) (stmts : List Stmt) :
    Check.Evolving true base (checks.checkStatements stmts) := by
  refine andThen (hoist stmts) fun declared => ?_
  refine andThen (foldlM declared (fun _ next _ => steps.checkNext h.admitsStatements _ next) _) fun progress => ?_
  refine andThen (forM declared fun pair _ => ?_) fun _ => get fun _ _ => pure trivial
  unfold finishPutOff
  split
  · exact get fun _ _ => ite (h.finishStruct _) (pure trivial)
  · exact pure trivial

end Evolving

/-- The state evolves along checking, however many levels are left. -/
theorem evolving (levels : Nat) : Checks.Evolving (.within levels) := by
  induction levels with
  | zero => exact ⟨fun _ => tooDeep, fun _ => tooDeep, fun _ => tooDeep, fun _ => tooDeep,
      fun _ => tooDeep⟩
  | succ levels ih =>
    exact ⟨steps.checkExpr ih.admits, steps.checkCondition ih.admits,
      fun stmt => steps.last (steps.checkStatement ih.admitsStatements stmt _),
      ih.checkStatements, ih.finishFunction⟩

end Checks

end FlowScript
