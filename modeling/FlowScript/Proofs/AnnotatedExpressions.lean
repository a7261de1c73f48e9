import FlowScript.Proofs.AnnotationSteps
import FlowScript.Proofs.Verdicts
/-!
# Accepted expressions are annotated

Each rule for expressions gives an annotated expression if checking one level further in does
(`Checks.Annotating`) and nothing is wrong.  The rules for function bodies come first, since a name, a
member or a construction may have to check one before its type is known.

Main statements: `Checks.Annotating.checkExpr` and `Checks.Annotating.checkCondition`, and
`Checks.Annotating.finishFunction`, that a body that waited is annotated after its check.
-/

namespace FlowScript

/-- Whether the facts of a condition are on canonical types. -/
structure Branches.Canonical (branches : Branches) : Prop where
  whenTrue : branches.whenTrue.All Ty.Canonical
  whenFalse : branches.whenFalse.All Ty.Canonical

theorem Branches.canonical_empty : Branches.Canonical {} := ⟨.empty, .empty⟩

/-- Whether the check of an expression completes it, if it is as the parser leaves it. -/
abbrev Check.Annotates (e : Expr) (action : Check Expr) : Prop :=
  e.Plain → Check.Gives (Expr.Completes · e) action e.DeclaredIn

namespace Checks

open Check (Gives Annotates Anything)
open Check.Gives

variable {start : Analyzer} {checks : Checks}

/-- Whether checking one level further in annotates what is as the parser leaves it, if nothing is
wrong. -/
structure Annotating (checks : Checks) : Prop where
  expr : ∀ {e : Expr}, Annotates e (checks.expr e)
  condition : ∀ {e : Expr}, e.Plain →
    Gives (fun checked => checked.1.Completes e ∧ checked.2.Canonical) (checks.condition e) e.DeclaredIn
  statement : ∀ {s : Stmt}, s.Plain → s.isAlternative = true →
    Gives (fun checked => checked.1.Completes s) (checks.statement s) s.DeclaredIn
  statements : ∀ {statements : List Stmt}, Stmt.EachOf Node.Plain statements →
    Gives
      (fun checked => Stmt.AllComplete checked.1 statements ∧ checked.2 = anyTerminates checked.1)
      (checks.statements statements) (Stmt.AllDeclaredIn statements)
  finish : ∀ (key : FunctionKey) {start : Analyzer}, start.Consistent →
    Check.Leads start (fun _ after => after.pending.find? key = none) (checks.finish key)

namespace Annotating

variable {sig : Ty} {note : Note} {value : Expr} {args : List Expr} {e : Expr}

/-! ## Function bodies -/

/-- What a checked body gives: a type whose result is known and given by the body, and the body with checked
statements. -/
structure Complete (body : Block Stmt) (fn : CheckedBody) : Prop where
  signature : ∃ params result, fn.signature = .function params result ∧
    (∀ ty ∈ params, ty.Canonical) ∧ result.Determined ∧ fn.body.Answers result
  checked : Stmt.EachOf Node.Checked fn.body.statements
  bare : fn.body.bare = body

theorem Complete.determined {body : Block Stmt} {checked : CheckedBody} (h : Complete body checked) :
    checked.signature.Determined := by
  obtain ⟨params, result, eq, canonical, determined, -⟩ := h.signature
  rw [eq]
  exact Ty.determined_function.mpr ⟨canonical, determined.1⟩

theorem newFrame : Gives Anything Check.newFrame := by
  refine get fun a _ => andThen (modify fun _ consistent => ?_) fun _ => pure trivial
  exact consistent.pushFrame

/-- The body of a function comes back complete. -/
theorem checkBody (h : checks.Annotating) (fn : Body)
    (plain : Stmt.EachOf Node.Plain fn.body.statements) (canonical : sig.Canonical)
    (defining : Site) : Gives (Complete fn.body) (checks.checkBody fn sig defining)
      (Stmt.AllDeclaredIn fn.body.statements) := by
  -- a type that is not that of a function counts as one of which nothing is known
  obtain ⟨paramTypes, result, eq, parts⟩ : ∃ paramTypes result,
      checks.checkBody fn sig defining =
        checks.checkBody fn (.function paramTypes result) defining ∧
      (∀ ty ∈ paramTypes, ty.Canonical) ∧ result.Canonical := by
    cases sig with
    | function params result => exact ⟨params, result, rfl, Ty.canonical_function.mp canonical⟩
    | _ => exact ⟨[], .unknown, rfl, by simp, rfl⟩
  rw [eq]
  unfold Checks.checkBody
  dsimp only
  refine get fun a outer => andThen newFrame fun frame => ?_
  have entered (active : Table FunctionKey Nat) (inner : Analyzer) (h : inner.Consistent) :
      inner.Proceeds { inner with
        contexts := inner.contexts.push
          { name := fn.name, result, constructor := fn.constructor, body := fn.body }
        site := ⟨frame :: defining.frames, a.contexts.size :: defining.contexts⟩
        flow := {}
        active } := by
    have context : inner.Proceeds { inner with
        contexts := inner.contexts.push
          { name := fn.name, result, constructor := fn.constructor, body := fn.body } } :=
      h.pushContext parts.2
    have moved := context.consistent.move
      ⟨frame :: defining.frames, a.contexts.size :: defining.contexts⟩ active inner.topLevel
    have flow := moved.consistent.setFlow (show ({} : Flow).facts.All Ty.Canonical from .empty)
    exact (context.trans moved).trans flow
  refine andThen (modify fun inner h => entered _ inner h) fun _ => ?_
  -- after the body, what is known is again what was known before it
  have left (after : Analyzer) (h : after.Consistent) :
      after.Proceeds { after with site := a.site, flow := a.flow } := by
    have moved := h.move a.site after.active after.topLevel
    exact moved.trans (moved.consistent.setFlow outer.typed.facts)
  have params : Gives
      (fun checked => Stmt.AllComplete checked.1 fn.body.statements ∧ checked.2 = anyTerminates checked.1) (do
      (fn.params.zip paramTypes).forM fun pair => do
        let _ ← Check.declare pair.1.name pair.2 .param pair.1.position
      checks.statements fn.body.statements) (Stmt.AllDeclaredIn fn.body.statements) := by
    refine andThen (composing.forM _ fun pair mem => ?_) fun _ => h.statements plain
    refine andThen (declare _ _ (parts.1 _ (List.of_mem_zip mem).2) ?_) fun _ => pure trivial
    rintro ⟨⟩
  refine gather (show Gives (fun checked : List Stmt × Bool =>
      Stmt.AllComplete checked.1 fn.body.statements ∧ checked.2 = anyTerminates checked.1) _
    (Stmt.AllDeclaredIn fn.body.statements) from Check.Gives.ensuring (closing ?_ _) left) fun checked weighed => ?_
  · cases fn.receiver with
    | some sname =>
      refine andThen (declare _ _ rfl ?_) fun _ => params
      rintro - ⟨⟩
    | none => exact params
  obtain ⟨⟨annotated, bare⟩, verdict⟩ := weighed
  refine get fun after consistent => ?_
  have result := consistent.typed.results a.contexts.size
  have final : (if (after.context a.contexts.size).result.isUnknown = true then Ty.nil
      else (after.context a.contexts.size).result).Determined := by
    split
    · exact ⟨rfl, by rintro ⟨⟩⟩
    · rename_i known
      exact result.determined (Bool.not_eq_true _ ▸ known)
  refine andThen (modify fun _ h => h.modifyContext _ fun _ _ => final.1) fun _ => ?_
  refine ite (fun _ => errorThen rfl _) fun silent =>
    done ⟨⟨_, _, rfl, parts.1, final, ?_⟩, annotated, ?_⟩ fun _ => id
  case refine_2 => exact congrArg (Block.mk fn.body.position) bare
  -- no return is missing, and the result is no problem
  simp only [final.1.ne_error, verdict, Bool.not_false, Bool.and_true, Bool.and_eq_true,
    Bool.not_eq_true', not_and, Bool.not_eq_false] at silent
  by_cases ends : anyTerminates checked.1 = true
  · exact .inr ends
  · exact .inl (silent (Bool.not_eq_true _ ▸ ends))

theorem signatureOf (key : FunctionKey) :
    Gives Ty.Canonical (Checks.signatureOf key) := by
  refine get fun a consistent => ?_
  cases key with
  | function id => exact pure (consistent.typed.names id).canonical
  | method sname name =>
    refine (demand _ _).weaken fun sig found => ?_
    obtain ⟨info, known, listed⟩ := Option.bind_eq_some_iff.mp found
    exact ((consistent.typed.structs.find? known).methods.find? listed).1

/-- The type of a declared function is determined. -/
theorem signatureOf_known {key : FunctionKey} (consistent : start.Consistent)
    (known : start.Knows key) :
    Check.Leads start (fun sig _ => sig.Determined) (Checks.signatureOf key) := by
  refine .get ?_
  cases key with
  | function id =>
    have typed := consistent.typed.names id
    exact .pure consistent ⟨typed.canonical, typed.known (by rw [known.2]; rfl)⟩
  | method sname name =>
    obtain ⟨info, found, listed⟩ := known
    refine (Check.Leads.demand consistent _ _).weaken fun sig after _ both => ?_
    rw [found] at both
    exact (consistent.typed.structs.find? found).methods.find? both.1

theorem setSignature (key : FunctionKey) (determined : sig.Determined) :
    Gives Anything (Checks.setSignature key sig) := by
  refine modify fun a consistent => ?_
  cases key with
  | function id => exact consistent.setType id determined
  | method sname name => exact consistent.setMethod sname name determined

/-- The statements of a function that waits are as the parser leaves them. -/
theorem plain_bodyOf (key : FunctionKey) {decl : FunctionDecl Stmt}
    (plain : (Stmt.function decl).Plain) :
    Stmt.EachOf Node.Plain (bodyOf key decl).body.statements := by
  have body := (Stmt.each_block.mp (Stmt.each_function.mp plain).2).2
  cases key <;> exact body

/-- A function with a checked body is annotated. -/
theorem Complete.annotated {decl : FunctionDecl Stmt} {checked : CheckedBody} (h : Complete decl.body checked)
    (plain : (Stmt.function decl).Plain) :
    (Stmt.function { decl with
      body := checked.body
      captures := checked.captures
      signature := some checked.signature }).Completes (.function decl) := by
  obtain ⟨params, result, eq, canonical, determined, answers⟩ := h.signature
  constructor
  · refine Stmt.each_function.mpr ⟨?_, Stmt.each_block.mpr ⟨⟨trivial, trivial⟩, h.checked⟩⟩
    rw [eq]
    exact ⟨⟨canonical, determined⟩, params, result, rfl, answers⟩
  · obtain ⟨captures, sig⟩ := (Stmt.each_function.mp plain).1
    rw [Stmt.bare_function, FunctionDecl.bare, h.bare]
    obtain ⟨position, name, params, result, body, _, _⟩ := decl
    cases captures
    cases sig
    rfl

theorem body_bodyOf (key : FunctionKey) (decl : FunctionDecl Stmt) : (bodyOf key decl).body = decl.body := by
  cases key <;> rfl

/-- After its check a function does not wait. If it waited, its body is done. -/
theorem finishFunction (h : checks.Annotating) (key : FunctionKey) (consistent : start.Consistent) :
    Check.Leads start (fun _ after => after.pending.find? key = none)
      (checks.finishFunction key) := by
  refine .get ?_
  cases found : start.pending.find? key with
  | none => exact .pure consistent found
  | some fn =>
    obtain ⟨plain, known, unfinished⟩ := consistent.orderly.pending found
    have begun := Analyzer.begun_erasePending known
    intro result after accepted
    -- the body is checked off the books, and then put back as done
    obtain ⟨_, _, erased, accepted⟩ := Check.accepts_bind.mp accepted
    obtain rfl := Check.accepts_modify.mp erased
    obtain ⟨sig, first, asked, accepted⟩ := Check.accepts_bind.mp accepted
    obtain ⟨toFirst, canonical, -⟩ :=
      signatureOf key _ (consistent.erasePending key) sig first asked
    obtain ⟨checked, second, body, accepted⟩ := Check.accepts_bind.mp accepted
    obtain ⟨toSecond, complete, inner⟩ := h.checkBody (bodyOf key fn.decl) (plain_bodyOf key plain)
      canonical fn.site first toFirst.consistent checked second body
    rw [body_bodyOf] at complete inner
    have annotated := complete.annotated plain
    obtain ⟨_, third, set, accepted⟩ := Check.accepts_bind.mp accepted
    obtain ⟨toThird, -⟩ :=
      setSignature key complete.determined second toSecond.consistent _ third set
    have last : ∃ last, third.Proceeds last ∧ after = last.insertFinished key
        { fn.decl with
          body := checked.body
          captures := checked.captures
          signature := some checked.signature } := by
      cases key with
      | function id => exact ⟨third, .refl toThird.consistent, Check.accepts_modify.mp accepted⟩
      | method sname name =>
        dsimp only at accepted
        split at accepted
        · obtain ⟨_, fourth, fields, accepted⟩ := Check.accepts_bind.mp accepted
          have toFourth := composing.checkInitFields _ _ third toThird.consistent _ fourth fields
          exact ⟨fourth, toFourth.1, Check.accepts_modify.mp accepted⟩
        · exact ⟨third, .refl toThird.consistent, Check.accepts_modify.mp accepted⟩
    obtain ⟨last, toLast, rfl⟩ := last
    have run := ((toFirst.trans toSecond).trans toThird).trans toLast
    have same := Stmt.function.inj annotated.bare
    have parts : (Stmt.function fn.decl).DeclaredIn last :=
      Stmt.each_function.mpr ⟨trivial, Stmt.each_block.mpr
        ⟨trivial, inner last (toThird.advances.trans toLast.advances)⟩⟩
    have done := run.insertFinished begun unfinished annotated.checked (same ▸ parts)
    exact ⟨done.finish found (Table.find?_insert_self _ _ _) same, (done.advances.begun begun).2⟩

/-- The type of a function whose return type is needed. -/
theorem settle (h : checks.Annotating) (determined : sig.Determined) (key : FunctionKey) :
    Gives Ty.Determined (checks.settle sig key) := by
  unfold Checks.settle
  split
  · rename_i params
    refine of_leads fun start consistent => .get ?_
    split
    · rename_i waits
      obtain ⟨fn, found⟩ := Option.isSome_iff_exists.mp waits
      refine (h.finish key consistent).bind fun _ after proceeds _ => ?_
      have known := (consistent.orderly.pending found).2.1
      exact signatureOf_known proceeds.consistent (proceeds.advances.knows known)
    · have canonical := (Ty.canonical_function.mp determined.1).1
      split
      · exact .pure consistent
          (Ty.determined_function.mpr ⟨canonical, consistent.typed.results _⟩)
      · exact .pure consistent determined
  · exact pure determined

/-- The check of every method of a struct has begun. -/
theorem finishMethods (h : checks.Annotating) {decl : StructDecl Stmt} (consistent : start.Consistent)
    (resolved : start.Resolved decl) :
    Check.Leads start (fun _ after => after.AllBegun decl) (checks.finishMethods decl.name decl) := by
  have methods {start : Analyzer} (consistent : start.Consistent) (resolved : start.Resolved decl) :=
    Check.Leads.forM decl.methods
      (fun method => Check.lasting_knows (.method decl.name method.name))
      (fun method => Check.lasting_begun (.method decl.name method.name)) consistent resolved.2
      fun method _ start consistent known =>
        (h.finish (.method decl.name method.name) consistent).weaken fun _ after proceeds none =>
          ⟨proceeds.advances.knows known, none⟩
  unfold Checks.finishMethods
  split
  · refine (h.finish _ consistent).bind fun _ mid proceeds _ => ?_
    exact methods proceeds.consistent (proceeds.advances.resolved resolved)
  · exact methods consistent resolved

/-- Once a struct is finished, the check of each of its methods has begun. -/
theorem finishStruct (h : checks.Annotating) {decl : StructDecl Stmt} (consistent : start.Consistent)
    (resolved : start.Resolved decl) :
    Check.Leads start (fun _ after => after.AllBegun decl) (checks.finishStruct decl.name) := by
  have undeferred := consistent.undefer decl.name
  have inner : Check.Leads (start.undefer decl.name) (fun _ after => after.AllBegun decl) (do
      let analyzer ← get
      checks.finishMethods decl.name ((analyzer.structs.find? decl.name).getD default).decl
      Check.checkConformance decl.name) := by
    refine .get ?_
    obtain ⟨info, found, same⟩ := resolved.1
    change start.structs.find? decl.name = some info at found
    rw [Analyzer.undefer, found, Option.getD_some, same]
    refine (h.finishMethods undeferred resolved).bind fun _ after proceeds begun => ?_
    have last := composing.checkConformance report decl.name after proceeds.consistent
    exact last.weaken fun _ final later _ => later.advances.allBegun begun
  intro result after accepted
  obtain ⟨_, _, changed, accepted⟩ := Check.accepts_bind.mp accepted
  obtain rfl := Check.accepts_modify.mp changed
  obtain ⟨proceeds, begun⟩ := inner result after accepted
  exact ⟨proceeds.finishStruct resolved.1 begun, begun⟩

/-! ## Names -/

/-- The type of a name is determined. -/
theorem checkName (h : checks.Annotating) (ident : String) (pos : Position) :
    Gives Ty.Determined (checks.checkName ident pos) := by
  refine get fun a consistent => ?_
  cases a.lookup? ident with
  | none => exact fail rfl _
  | some ref =>
    refine ite (fun _ => fail rfl _) fun _ => andThen (noteCapture _) fun _ => ?_
    have typed := consistent.typed.names ref.id
    split
    · refine bind (demand _ _) fun info found => ?_
      exact pure (consistent.typed.structs.find? found).constructorType
    · rename_i isFunction
      refine h.settle ⟨typed.canonical, typed.known ?_⟩ _
      rw [show (a.symbolAt ref.id).kind = .function from isFunction]
      rfl
    · refine ite (fun _ => fail rfl _) fun _ => ite (fun _ => fail rfl _) fun known => ?_
      exact pure ((consistent.typed.typeOf ref).determined (Bool.not_eq_true _ ▸ known))

theorem checkSelf (pos : Position) :
    Gives Ty.Determined (Checks.checkSelf pos) := by
  refine get fun a consistent => ?_
  cases a.lookup? "self" with
  | none => exact fail rfl _
  | some ref =>
    have typed := consistent.typed.names ref.id
    refine ite (fun isReceiver => ?_) fun _ => fail rfl _
    refine andThen (noteCapture _) fun _ => pure ⟨typed.canonical, typed.known ?_⟩
    rw [show (a.symbolAt ref.id).kind = .receiver from isReceiver]
    rfl

/-! ## Operators -/

theorem binaryType (op : BinaryOp) (pos : Position) {left right : Ty} (first : left.Canonical)
    (second : right.Canonical) :
    Gives Ty.Determined (Checks.binaryType op pos left right) := by
  have bool : Ty.Determined .bool := ⟨rfl, nofun⟩
  refine ite (fun problem => ?_) fun _ => ite (fun _ => ?_) fun _ => ite (fun _ => ?_) fun _ => ?_
  · rw [first.ne_error, second.ne_error] at problem
    cases problem
  · refine get fun a _ => ite (fun _ => fail rfl _) fun _ => ?_
    exact ite (fun _ => andThen (composing.warnMixed _ _ _) fun _ => pure bool) fun _ => pure bool
  · refine ite (fun _ => andThen (composing.warnMixed _ _ _) fun _ => pure bool) fun _ => ?_
    exact ite (fun _ => pure bool) fun _ => fail rfl _
  · refine ite (fun _ => ?_) fun _ => throw _
    refine ite (fun _ => pure ?_) fun _ => ite (fun _ => pure ⟨rfl, nofun⟩) fun _ => fail rfl _
    unfold Ty.joinNumeric
    split <;> exact ⟨rfl, nofun⟩

/-- An operator is complete, with its operands widened where one of them is a double. -/
theorem checkBinary (h : checks.Annotating) {op : BinaryOp} {left right : Expr} :
    Annotates (.binary note op left right) (checks.checkBinary note op left right) := by
  intro plain
  obtain ⟨own, first, second⟩ := Expr.each_binary.mp plain
  refine gather (h.expr first) fun one first => gather (h.expr second) fun two second => ?_
  refine bind (binaryType op _ first.determined.1 second.determined.1) fun ty determined => ?_
  have built {one two : Expr} (first : one.Completes left) (second : two.Completes right) :
      (Expr.binary { note with ty := some ty } op one two).Completes (.binary note op left right) := by
    refine ⟨Expr.each_binary.mpr ⟨⟨⟨own.1.annotated determined, trivial⟩, trivial⟩, first.checked,
      second.checked⟩, ?_⟩
    rw [Expr.bare, Note.bare_noted note own.1, first.bare, second.bare]
  have declared (later : Analyzer) (second : right.DeclaredIn later) (first : left.DeclaredIn later) :
      Expr.DeclaredIn (.binary note op left right) later := Expr.each_binary.mpr ⟨trivial, first, second⟩
  refine ite (fun _ => done ?_ declared) fun _ => done (built first second) declared
  -- next to a double only whole numbers are widened
  exact built (first.withWiden fun whole => .inl (of_decide_eq_true whole))
    (second.withWiden fun whole => .inl (of_decide_eq_true whole))

theorem checkNegation (h : checks.Annotating) {operand : Expr} :
    Annotates (.unary note .neg operand) (checks.checkNegation note operand) := by
  intro plain
  obtain ⟨own, inner⟩ := Expr.each_unary.mp plain
  refine gather (h.expr inner) fun operand annotated => ?_
  have canonical := annotated.determined
  refine ite (fun problem => ?_) fun _ => ite (fun _ => ?_) fun _ => failThen rfl _
  · rw [canonical.1.ne_error] at problem
    cases problem
  · refine done ⟨Expr.each_unary.mpr ⟨⟨⟨own.1.annotated canonical, trivial⟩, trivial⟩, annotated.checked⟩, ?_⟩
      fun _ inner => Expr.each_unary.mpr ⟨trivial, inner⟩
    rw [Expr.bare, Note.bare_noted note own.1, annotated.bare]

theorem checkIs (h : checks.Annotating) {written : TypeExpr} {target : Option Ty} :
    Annotates (.is note value written target) (checks.checkIs note value written) := by
  intro plain
  obtain ⟨own, inner⟩ := Expr.each_is.mp plain
  refine gather (h.expr inner) fun checked annotated => ?_
  refine bind (resolveType written) fun tested determined => ?_
  have result : (Expr.is { note with ty := some .bool } checked written (some tested)).Completes
      (.is note value written target) := by
    refine ⟨Expr.each_is.mpr ⟨⟨⟨own.1.annotated ⟨rfl, nofun⟩, tested, rfl, determined⟩, trivial⟩,
      annotated.checked⟩, ?_⟩
    rw [Expr.bare, Note.bare_noted note own.1, annotated.bare, own.2]
  have declared (later : Analyzer) (inner : value.DeclaredIn later) :
      Expr.DeclaredIn (.is note value written target) later := Expr.each_is.mpr ⟨trivial, inner⟩
  refine ite (fun _ => get fun a _ => ?_) fun _ => done result declared
  exact ite (fun _ => errorThen rfl _) fun _ => done result declared

/-- Unwrapping is complete, of a nilable value as of any other. -/
theorem checkUnwrap (h : checks.Annotating) :
    Annotates (.unwrap note value) (checks.checkUnwrap note value) := by
  intro plain
  obtain ⟨own, inner⟩ := Expr.each_unwrap.mp plain
  refine gather (h.expr inner) fun checked annotated => ?_
  have canonical := annotated.determined.1
  split
  · rename_i problem
    rw [problem] at canonical
    cases canonical
  · rename_i inner nilable
    rw [nilable] at canonical
    have noted := own.1.annotated canonical.determined_inner
    refine done ⟨Expr.each_unwrap.mpr ⟨⟨⟨noted, trivial⟩, trivial⟩, annotated.checked⟩, ?_⟩
      fun _ inner => Expr.each_unwrap.mpr ⟨trivial, inner⟩
    rw [Expr.bare, Note.bare_noted note own.1, annotated.bare]
  · exact failThen rfl _
  · exact failThen rfl _

/-! ## Members -/

theorem structMember (h : checks.Annotating) {info : StructInfo} (typed : info.Typed)
    (member : String) (pos : Position) :
    Gives Ty.Determined (checks.structMember info member pos) := by
  unfold Checks.structMember
  dsimp only
  split
  · rename_i ty found
    refine ite (fun _ => fail rfl _) fun known => pure ?_
    exact (typed.fields.find? found).determined (Bool.not_eq_true _ ▸ known)
  · rename_i sig _ found
    exact ite (fun _ => fail rfl _) fun _ => h.settle (typed.methods.find? found) _
  · exact fail rfl _

/-- The type of a member is determined. -/
theorem memberType (h : checks.Annotating) {object : Ty} (canonical : object.Canonical)
    (member : String) (pos : Position) :
    Gives Ty.Determined (checks.memberType object member pos) := by
  refine ite (fun problem => ?_) fun _ => ite (fun _ => fail rfl _) fun _ => ?_
  · rw [canonical.ne_error] at problem
    cases problem
  · refine get fun a consistent => ?_
    split
    · rename_i info found
      refine h.structMember ?_ _ _
      cases object with
      | struct name => exact consistent.typed.structs.find? found
      | _ => cases found
    · rename_i info _ found
      have methods : info.methods.All Ty.Determined := by
        cases object with
        | trait name => exact consistent.typed.traits.find? found
        | _ => cases found
      split
      · rename_i sig named
        exact pure (methods.find? named)
      · exact fail rfl _
    · exact fail rfl _

theorem checkField (h : checks.Annotating) {object : Expr} {member : String} :
    Annotates (.field note object member) (checks.checkField note object member) := by
  intro plain
  obtain ⟨own, inner⟩ := Expr.each_field.mp plain
  refine gather (h.expr inner) fun checked annotated => ?_
  refine bind (h.memberType annotated.determined.1 _ _) fun ty determined => ?_
  refine done ⟨Expr.each_field.mpr ⟨⟨⟨own.1.annotated determined, trivial⟩, trivial⟩, annotated.checked⟩, ?_⟩
    fun _ inner => Expr.each_field.mpr ⟨trivial, inner⟩
  rw [Expr.bare, Note.bare_noted note own.1, annotated.bare]

/-! ## Assignments -/

/-- An assignment is complete, also where it gives its variable a type. -/
theorem checkAssign (h : checks.Annotating) {target : Note} {ident : String} :
    Annotates (.assign note target ident value) (checks.checkAssign note target ident value) := by
  intro plain
  obtain ⟨own, name, inner⟩ := Expr.each_assign.mp plain
  have noted : target.Plain := name.1
  have built {ty : Ty} (determined : ty.Determined) {checked : Expr} (annotated : checked.Completes value) :
      (Expr.assign { note with ty := some ty } { target with ty := some ty } ident checked).Completes
        (.assign note target ident value) := by
    refine ⟨Expr.each_assign.mpr ⟨⟨⟨own.1.annotated determined, trivial⟩, trivial⟩,
      ⟨⟨noted.annotated determined, trivial⟩, trivial⟩, annotated.checked⟩, ?_⟩
    rw [Expr.bare, Note.bare_noted note own.1, Note.bare_noted target noted, annotated.bare]
  have declared (later : Analyzer) (inner : value.DeclaredIn later) :
      Expr.DeclaredIn (.assign note target ident value) later := Expr.each_assign.mpr ⟨trivial, trivial, inner⟩
  refine gather (h.expr inner) fun checked annotated => get fun a consistent => ?_
  have src := annotated.determined
  cases a.lookup? ident with
  | none => exact failThen rfl _
  | some ref =>
    refine andThen (noteCapture _) fun _ => ite (fun _ => failThen rfl _) fun _ => ?_
    have assigned : ∀ flow : Flow, flow.facts.All Ty.Canonical →
        (flow.assigned ref).facts.All Ty.Canonical := fun flow facts => facts.erase ref
    cases unknown : (a.symbol ref).ty.isUnknown with
    | false =>
      have known := (consistent.typed.names ref.id).canonical.determined unknown
      simp only [Bool.not_false, if_true]
      refine bind (flowInto annotated _ rfl) fun value annotated => ?_
      exact andThen (modifyFlow assigned) fun _ => done (built known annotated) declared
    | true =>
      -- the first assignment gives the variable its type
      simp only [Bool.not_true, Bool.false_eq_true, if_false]
      refine andThen (modify fun _ h => h.setType ref.id src) fun _ => ?_
      have kept : Gives (Expr.Completes · value) (Pure.pure checked) := pure annotated
      refine bind kept fun value annotated => ?_
      exact andThen (modifyFlow assigned) fun _ => done (built src annotated) declared

/-- The type of the assigned field and the assigned value. -/
theorem assignedMember {info : StructInfo} (typed : info.Typed) (member : String) (pos : Position)
    {src : Expr} (annotated : value.Completes src) :
    Gives (fun assigned => assigned.1.Determined ∧ assigned.2.Completes src)
      (Checks.assignedMember info member pos value) := by
  unfold Checks.assignedMember
  dsimp only
  split
  · exact failThen rfl _
  · split
    · exact failThen rfl _
    · refine andThen (modify fun _ h => h.setField _ _ annotated.determined.1) fun _ => ?_
      exact pure ⟨annotated.determined, annotated⟩
    · rename_i ty known found
      have determined : ty.Determined := ⟨typed.fields.find? found, known⟩
      exact bind (flowInto annotated _ rfl) fun value annotated => pure ⟨determined, annotated⟩

/-- A field that is assigned has a determined type, and the value is complete. -/
theorem assignedField {object : Ty} (canonical : object.Canonical) (member : String) (pos : Position)
    {src : Expr} (annotated : value.Completes src) :
    Gives (fun assigned => assigned.1.Determined ∧ assigned.2.Completes src)
      (Checks.assignedField object member pos value) := by
  refine get fun a consistent => ?_
  refine ite (fun problem => ?_) fun _ => ite (fun _ => failThen rfl _) fun _ => ?_
  · rw [canonical.ne_error] at problem
    cases problem
  · split
    · exact failThen rfl _
    · rename_i info found
      refine assignedMember ?_ member pos annotated
      cases object with
      | struct name => exact consistent.typed.structs.find? found
      | _ => cases found

theorem checkAssignField (h : checks.Annotating) {target : Note} {object : Expr} {member : String} :
    Annotates (.assignField note target object member value)
      (checks.checkAssignField note target object member value) := by
  intro plain
  obtain ⟨own, place, first, second⟩ := Expr.each_assignField.mp plain
  have noted : target.Plain := place.1
  refine gather (h.expr second) fun checked annotated => gather (h.expr first) fun receiver first => ?_
  refine bind (assignedField first.determined.1 _ _ annotated) ?_
  rintro ⟨ty, checked⟩ ⟨determined, annotated⟩
  refine done ⟨Expr.each_assignField.mpr ⟨⟨⟨own.1.annotated determined, trivial⟩, trivial⟩,
    ⟨⟨noted.annotated determined, trivial⟩, trivial⟩, first.checked, annotated.checked⟩, ?_⟩
    fun _ first second => Expr.each_assignField.mpr ⟨trivial, trivial, first, second⟩
  rw [Expr.bare, Note.bare_noted note own.1, Note.bare_noted target noted, first.bare, annotated.bare]

/-! ## Calls -/

/-- Whether arguments are others as a check without an error leaves them. -/
abbrev AllComplete (args sources : List Expr) : Prop := List.Forall₂ Expr.Completes args sources

theorem AllComplete.checked {sources : List Expr} (h : AllComplete args sources) : ∀ arg ∈ args, arg.Checked := by
  induction h with
  | nil => exact nofun
  | cons first _ ih => exact List.forall_mem_cons.mpr ⟨first.checked, ih⟩

theorem AllComplete.bare {sources : List Expr} (h : AllComplete args sources) : Expr.bareList args = sources := by
  induction h with
  | nil => rfl
  | cons first _ ih => rw [Expr.bareList, first.bare, ih]

theorem flowArguments (name : String) (index : Nat) {sources : List Expr} (annotated : AllComplete args sources)
    (params : List Ty) :
    Gives (AllComplete · sources) (Checks.flowArguments name index args params) := by
  induction annotated generalizing index params with
  | nil => exact pure .nil
  | cons first others ih =>
    cases params with
    | nil => exact pure (.cons first others)
    | cons param params =>
      refine bind (flowInto first _ rfl) fun arg first => bind (ih _ _) fun args others => ?_
      exact pure (.cons first others)

/-- The arguments of a call are complete, and the type of the call is determined. -/
theorem applyFunction (pos : Position) (name : String) {fn : Ty} (canonical : fn.Canonical)
    {sources : List Expr} (annotated : AllComplete args sources) :
    Gives (fun applied => AllComplete applied.1 sources ∧ applied.2.Determined)
      (Checks.applyFunction pos name fn args) := by
  unfold Checks.applyFunction
  dsimp only
  split
  · cases canonical
  · exact failThen rfl _
  · exact failThen rfl _
  · rename_i params result
    have final (args : List Expr) (annotated : AllComplete args sources) :
        Gives (fun applied => AllComplete applied.1 sources ∧ applied.2.Determined)
          (if result.isUnknown = true then
            do return (args, ← Check.fail (.unknownResultType name) pos)
          else Pure.pure (args, result)) := by
      refine ite (fun _ => failThen rfl _) fun known => pure ⟨annotated, ?_⟩
      exact (Ty.canonical_function.mp canonical).2.determined (Bool.not_eq_true _ ▸ known)
    refine ite (fun _ => ?_) fun _ => errorThen rfl _
    exact bind (flowArguments _ _ annotated _) final
  · exact failThen rfl _

theorem flowFields (sname : String) {sources : List Expr} (annotated : AllComplete args sources)
    (fields : List (String × Ty)) :
    Gives (AllComplete · sources) (Checks.flowFields sname args fields) := by
  induction annotated generalizing fields with
  | nil => exact pure .nil
  | @cons arg src args sources first others ih =>
    rcases fields with _ | ⟨⟨field, ty⟩, fields⟩
    · exact pure (.cons first others)
    · have rest (arg : Expr) (first : arg.Completes src) : Gives (AllComplete · (src :: sources))
          (do return arg :: (← Checks.flowFields sname args fields)) :=
        bind (ih fields) fun args others => pure (.cons first others)
      refine ite (fun _ => ?_) fun _ => bind (flowInto first _ rfl) rest
      exact andThen (modify fun _ h => h.setField _ _ first.determined.1) fun _ => rest arg first

theorem checkArguments (h : checks.Annotating) (plain : ∀ arg ∈ args, arg.Plain) :
    Gives (AllComplete · args) (args.mapM checks.expr) (fun later => ∀ arg ∈ args, arg.DeclaredIn later) :=
  mapM args fun arg mem => h.expr (plain arg mem)

theorem structInfo (sname : String) :
    Gives StructInfo.Typed (Checks.structInfo sname) :=
  get fun _ consistent => (demand _ _).weaken fun _ found => consistent.typed.structs.find? found

/-- The methods of a struct that waited are checked. -/
theorem finishDeferred (h : checks.Annotating) (sname : String) :
    Gives Anything (checks.finishDeferred sname) := by
  refine bind (structInfo sname) fun info _ => of_leads fun start consistent => .get ?_
  split
  · rename_i deferred
    rw [Bool.and_eq_true, List.contains_iff_mem] at deferred
    obtain ⟨decl, rfl, resolved⟩ := consistent.orderly.deferred deferred.1
    exact (h.finishStruct consistent resolved).weaken fun _ _ _ _ => trivial
  · exact .pure consistent trivial

/-- A constructor call is complete, with its arguments widened for the fields. -/
theorem checkConstruct (h : checks.Annotating) {callee : Note} (own : note.Plain) (name : callee.Plain)
    (sname : String) (plain : ∀ arg ∈ args, arg.Plain) :
    Gives (Expr.Completes · (.call note (.name callee sname) args))
      (checks.checkConstruct note callee sname args)
      (Expr.DeclaredIn (.call note (.name callee sname) args)) := by
  have built {fn : Ty} (determined : fn.Determined) {checked : List Expr}
      (annotated : AllComplete checked args) :
      (Expr.call { note with ty := some (.struct sname) }
        (.name { callee with ty := some fn } sname) checked).Completes
          (.call note (.name callee sname) args) := by
    refine ⟨Expr.each_call.mpr ⟨⟨⟨own.annotated ⟨rfl, nofun⟩, trivial⟩, trivial⟩,
      (Expr.each_leaf (by simp only [Expr.nodes])).mpr ⟨⟨name.annotated determined, trivial⟩, trivial⟩,
      annotated.checked⟩, ?_⟩
    rw [Expr.bare, Expr.bare, Note.bare_noted note own, Note.bare_noted callee name, annotated.bare]
  have declared (later : Analyzer) (arguments : ∀ arg ∈ args, arg.DeclaredIn later) :
      Expr.DeclaredIn (.call note (.name callee sname) args) later :=
    Expr.each_call.mpr ⟨trivial, (Expr.each_leaf (by simp only [Expr.nodes])).mpr trivial, arguments⟩
  refine bind (structInfo sname) fun info typed => ite (fun _ => ?_) fun _ => ?_
  · have constructor := typed.constructorType
    have finished : Gives Anything
        (checks.finish (.method sname StructInfo.initName)) :=
      of_leads fun start consistent => (h.finish _ consistent).weaken fun _ _ _ _ => trivial
    refine andThen finished fun _ => gather (h.checkArguments plain) fun args annotated => ?_
    refine bind (applyFunction _ _ constructor.1 annotated) fun applied both => ?_
    exact done (built constructor both.1) declared
  · refine gather (h.checkArguments plain) fun args annotated => ?_
    refine bind (bind (structInfo sname) fun info _ => ite (fun _ => flowFields sname annotated _)
      fun _ => errorThen rfl _) fun args annotated => ?_
    refine andThen (h.finishDeferred sname) fun _ => ?_
    exact bind (structInfo sname) fun info typed => done (built typed.constructorType annotated) declared

/-- A call is complete, of a constructor as of a function. -/
theorem checkCall (h : checks.Annotating) {fn : Expr} :
    Annotates (.call note fn args) (checks.checkCall note fn args) := by
  intro plain
  obtain ⟨own, callee, arguments⟩ := Expr.each_call.mp plain
  refine get fun a _ => ?_
  dsimp only
  split
  · rename_i name sname constructed
    refine andThen (noteCapture _) fun _ => ?_
    obtain rfl : fn = .name name sname := by
      cases fn with
      | name note ident =>
        dsimp only at constructed
        split at constructed
        · split at constructed
          · cases constructed
            rfl
          · cases constructed
        · cases constructed
      | _ => cases constructed
    exact h.checkConstruct own.1 callee.own.1 sname arguments
  · refine gather (h.expr callee) fun checked annotated => ?_
    refine gather (h.checkArguments arguments) fun _ others => ?_
    refine bind (applyFunction _ _ annotated.determined.1 others) ?_
    rintro ⟨applied, ty⟩ ⟨others, determined⟩
    refine done ⟨Expr.each_call.mpr ⟨⟨⟨own.1.annotated determined, trivial⟩, trivial⟩, annotated.checked,
      others.checked⟩, ?_⟩ fun _ arguments callee => Expr.each_call.mpr ⟨trivial, callee, arguments⟩
    rw [Expr.bare, Note.bare_noted note own.1, annotated.bare, others.bare]

theorem checkMethodCall (h : checks.Annotating) {recv : Expr} {method : String} :
    Annotates (.methodCall note recv method args) (checks.checkMethodCall note recv method args) := by
  intro plain
  obtain ⟨own, object, arguments⟩ := Expr.each_methodCall.mp plain
  refine gather (h.expr object) fun checked annotated => ?_
  refine bind (h.memberType annotated.determined.1 _ _) fun fn determined => ?_
  refine gather (h.checkArguments arguments) fun _ others => ?_
  refine bind (applyFunction _ _ determined.1 others) ?_
  rintro ⟨applied, ty⟩ ⟨others, determined⟩
  refine done ⟨Expr.each_methodCall.mpr ⟨⟨⟨own.1.annotated determined, trivial⟩, trivial⟩, annotated.checked,
    others.checked⟩, ?_⟩ fun _ arguments object => Expr.each_methodCall.mpr ⟨trivial, object, arguments⟩
  rw [Expr.bare, Note.bare_noted note own.1, annotated.bare, others.bare]

theorem checkClosure (h : checks.Annotating) {params : List Param} {result : Option TypeExpr}
    {body : Block Stmt} {captures : List String} :
    Annotates (.closure note params result body captures) (checks.checkClosure note params result body) := by
  intro plain
  obtain ⟨own, -, stmts⟩ := Expr.each_closure.mp plain
  refine bind (resolveSignature _ _ rfl) fun sig determined => get fun a _ => ?_
  refine gather (h.checkBody _ stmts determined.1 _) fun checked complete => ?_
  obtain ⟨paramTypes, res, eq, -, -, answers⟩ := complete.signature
  refine done ⟨Expr.each_closure.mpr ⟨⟨⟨own.1.annotated complete.determined, trivial⟩,
    paramTypes, res, congrArg some eq, answers⟩, ⟨trivial, trivial⟩, complete.checked⟩, ?_⟩
    fun _ inner => Expr.each_closure.mpr ⟨trivial, trivial, inner⟩
  rw [Expr.bare, Note.bare_noted note own.1, own.2]
  exact congrArg (Expr.closure note params result · []) complete.bare

/-! ## Conditions -/

/-- What is required to be a `bool` is one. -/
theorem requireBool (what : String) (annotated : e.Checked) :
    Gives (fun _ => e.ty = some .bool) (Checks.requireBool what e) := by
  have noted := annotated.ty_eq
  have determined := annotated.determined
  unfold Checks.requireBool
  split
  · rename_i missing
    rw [missing] at noted
    cases noted
  · rename_i bool
    exact pure bool
  · rename_i problem
    rw [problem] at noted
    rw [← Option.some.inj noted] at determined
    cases determined.1
  · exact error rfl _

/-- What a comparison with `nil` tells of a variable. -/
theorem comparedFacts (op : BinaryOp) (symbol : Option SymbolRef) :
    Gives Branches.Canonical (match symbol with
      | none => return {}
      | some ref => do
        match ((← get) : Analyzer).typeOf ref with
        | .nilable inner =>
          let notNil := Facts.single ref inner
          let isNil := Facts.single ref .nil
          return if op = .ne then ⟨notNil, isNil⟩ else ⟨isNil, notNil⟩
        | _ => return {}) := by
  cases symbol with
  | none => exact pure Branches.canonical_empty
  | some ref =>
    refine get fun a consistent => ?_
    have canonical := consistent.typed.typeOf ref
    split
    · rename_i inner nilable
      rw [nilable] at canonical
      have inner : (Facts.single ref inner).All Ty.Canonical :=
        .single ref canonical.determined_inner.1
      have nil : (Facts.single ref .nil).All Ty.Canonical := .single ref rfl
      refine pure ?_
      split
      · exact ⟨inner, nil⟩
      · exact ⟨nil, inner⟩
    · exact pure Branches.canonical_empty

theorem nilFacts (op : BinaryOp) (left right : Expr) :
    Gives Branches.Canonical (Checks.nilFacts op left right) := by
  refine ite (fun _ => andThen (composing.narrowable? _) (comparedFacts op)) fun _ => ?_
  refine ite (fun _ => andThen (composing.narrowable? _) (comparedFacts op)) fun _ => ?_
  exact pure Branches.canonical_empty

/-- A type test tells canonical types. -/
theorem isFacts (value : Expr) {target : Ty} (determined : target.Determined) :
    Gives Branches.Canonical (Checks.isFacts value (some target)) := by
  refine andThen (composing.narrowable? value) fun symbol => ?_
  cases symbol with
  | none => exact pure Branches.canonical_empty
  | some ref =>
    refine ite (fun _ => pure Branches.canonical_empty) fun _ => get fun a consistent => ?_
    have canonical := consistent.typed.typeOf ref
    refine pure ⟨?_, ?_⟩
    · dsimp only
      split
      · exact .empty
      · exact .single ref determined.1
    · dsimp only
      split
      · rename_i inner nilable
        rw [nilable] at canonical
        split
        · exact .single ref rfl
        · split
          · exact .single ref canonical.determined_inner.1
          · exact .empty
      · exact .empty

theorem testFacts (annotated : e.Checked) : Gives Branches.Canonical (Checks.testFacts e) := by
  unfold Checks.testFacts
  split
  · exact ite (fun _ => nilFacts _ _ _) fun _ => pure Branches.canonical_empty
  · obtain ⟨-, target, noted, determined⟩ := annotated.own.annotated
    cases noted
    exact isFacts _ determined
  · exact pure Branches.canonical_empty

/-- A connective is complete, and what it tells are canonical types. -/
theorem checkLogical (h : checks.Annotating) {op : LogicalOp} {left right : Expr}
    (plain : (Expr.logical note op left right).Plain) :
    Gives (fun checked => checked.1.Completes (.logical note op left right) ∧ checked.2.Canonical)
      (checks.checkLogical note op left right) (Expr.DeclaredIn (.logical note op left right)) := by
  obtain ⟨own, first, second⟩ := Expr.each_logical.mp plain
  refine gather (h.condition first) ?_
  rintro ⟨one, first⟩ ⟨annotatedLeft, canonicalLeft⟩
  refine bind (requireBool _ annotatedLeft.checked) fun _ _ => get fun a consistent => ?_
  refine andThen (modifyFlow fun flow facts => facts.overlay ?_) fun _ => ?_
  · split
    · exact canonicalLeft.whenTrue
    · exact canonicalLeft.whenFalse
  · refine gather (h.condition second) ?_
    rintro ⟨two, second⟩ ⟨annotatedRight, canonicalRight⟩
    refine bind (requireBool _ annotatedRight.checked) fun _ _ => ?_
    refine andThen (modifyFlow fun flow _ => consistent.typed.facts.filter _) fun _ =>
      done ⟨⟨?_, ?_⟩, ?_⟩ fun _ second first => Expr.each_logical.mpr ⟨trivial, first, second⟩
    · exact Expr.each_logical.mpr ⟨⟨⟨own.1.annotated ⟨rfl, nofun⟩, trivial⟩, trivial⟩, annotatedLeft.checked,
        annotatedRight.checked⟩
    · rw [Expr.bare, Note.bare_noted note own.1, annotatedLeft.bare, annotatedRight.bare]
    · cases op with
      | and => exact ⟨canonicalLeft.whenTrue.overlay canonicalRight.whenTrue,
          canonicalLeft.whenFalse.filter _⟩
      | or => exact ⟨canonicalLeft.whenTrue.filter _,
          canonicalLeft.whenFalse.overlay canonicalRight.whenFalse⟩

/-- A negated condition, whose operand is a `bool`. -/
theorem checkNot (h : checks.Annotating) {operand : Expr} (plain : (Expr.unary note .not operand).Plain) :
    Gives
      (fun checked => (checked.1.Completes (.unary note .not operand) ∧ checked.2.Canonical) ∧
        ∃ note operand, checked.1 = .unary note .not operand ∧ operand.ty = some .bool)
      (checks.checkNot note operand) (Expr.DeclaredIn (.unary note .not operand)) := by
  obtain ⟨own, inner⟩ := Expr.each_unary.mp plain
  refine gather (h.condition inner) ?_
  rintro ⟨checked, facts⟩ ⟨annotated, canonical⟩
  refine bind (requireBool _ annotated.checked) fun _ bool => done ⟨⟨⟨?_, ?_⟩, ?_⟩, _, _, rfl, bool⟩
    fun _ inner => Expr.each_unary.mpr ⟨trivial, inner⟩
  · exact Expr.each_unary.mpr ⟨⟨⟨own.1.annotated ⟨rfl, nofun⟩, trivial⟩, trivial⟩, annotated.checked⟩
  · rw [Expr.bare, Note.bare_noted note own.1, annotated.bare]
  · exact ⟨canonical.whenFalse, canonical.whenTrue⟩

/-! ## All expressions -/

/-- An expression that is accepted is annotated. -/
theorem checkExpr (h : checks.Annotating) : Annotates e (checks.checkExpr e) := by
  intro plain
  have leaf (alone : e.nodes = [.expr e]) (later : Analyzer) : e.DeclaredIn later :=
    (Expr.each_leaf alone).mpr trivial
  cases e with
  | literal note value =>
    have own : note.Plain := Expr.Each.own plain |>.1
    refine done ⟨(Expr.each_leaf (by simp only [Expr.nodes])).mpr ⟨⟨own.annotated ?_, trivial⟩, trivial⟩, ?_⟩
      (leaf (by simp only [Expr.nodes]))
    · cases value <;> exact ⟨rfl, by rintro ⟨⟩⟩
    · rw [Expr.bare, Note.bare_noted note own]
  | name note ident =>
    have own : note.Plain := Expr.Each.own plain |>.1
    refine bind (h.checkName ident _) fun ty determined => done ⟨?_, ?_⟩ (leaf (by simp only [Expr.nodes]))
    · exact (Expr.each_leaf (by simp only [Expr.nodes])).mpr ⟨⟨own.annotated determined, trivial⟩, trivial⟩
    · rw [Expr.bare, Note.bare_noted note own]
  | self note =>
    have own : note.Plain := Expr.Each.own plain |>.1
    refine bind (checkSelf _) fun ty determined => done ⟨?_, ?_⟩ (leaf (by simp only [Expr.nodes]))
    · exact (Expr.each_leaf (by simp only [Expr.nodes])).mpr ⟨⟨own.annotated determined, trivial⟩, trivial⟩
    · rw [Expr.bare, Note.bare_noted note own]
  | binary note op left right => exact h.checkBinary plain
  | logical note op left right => exact gather (h.checkLogical plain) fun _ both => done both.1 fun _ => id
  | unary note op operand =>
    cases op with
    | neg => exact h.checkNegation plain
    | not =>
      refine gather (h.checkNot plain) ?_
      rintro ⟨_, facts⟩ ⟨⟨annotated, -⟩, note, operand, rfl, bool⟩
      refine done ?_ fun _ => id
      rw [if_pos bool]
      exact annotated
  | is note value written target => exact h.checkIs plain
  | unwrap note value => exact h.checkUnwrap plain
  | assign note target ident value => exact h.checkAssign plain
  | assignField note target object member value => exact h.checkAssignField plain
  | call note fn args => exact h.checkCall plain
  | field note object member => exact h.checkField plain
  | methodCall note recv method args => exact h.checkMethodCall plain
  | closure note params result body captures => exact h.checkClosure plain

/-- A condition that is accepted is annotated, and its facts are on canonical types. -/
theorem checkCondition (h : checks.Annotating) (plain : e.Plain) :
    Gives (fun checked => checked.1.Completes e ∧ checked.2.Canonical)
      (checks.checkCondition e) e.DeclaredIn := by
  unfold Checks.checkCondition
  split
  · exact h.checkLogical plain
  · exact (h.checkNot plain).weaken fun _ both => both.1
  · refine gather (h.checkExpr plain) fun e annotated => ?_
    exact bind (testFacts annotated.checked) fun facts canonical => done ⟨annotated, canonical⟩ fun _ => id

end Annotating

end Checks

end FlowScript
