import FlowScript.Proofs.AnnotationLogic
/-!
# Steps on the way to an accepted program

What the primitive steps of checking give if nothing is wrong, and the steps that declare the names of a
statement list before its statements are checked.

Main statement: `Check.Leads.hoist`, that after these every function and method of the list is on the
books.
-/

namespace FlowScript

/-! ## Primitive steps -/

namespace Check

variable {start : Analyzer}

namespace Gives

theorem modifyFlow {f : Flow → Flow}
    (facts : ∀ flow : Flow, flow.facts.All Ty.Canonical → (f flow).facts.All Ty.Canonical) :
    Gives Anything (Check.modifyFlow f) :=
  modify fun a h => h.setFlow (facts a.flow h.typed.facts)

/-- Noting a capture leaves the return types of the functions around. -/
theorem noteCapture (symbol : Symbol) : Gives Anything (Check.noteCapture symbol) := by
  unfold Check.noteCapture
  cases symbol.home with
  | topLevel => exact pure trivial
  | inside owner =>
    refine modify fun a consistent => ?_
    have captured (ids : List Nat) (a : Analyzer) (h : a.Consistent) :
        a.Proceeds (ids.foldl (fun a id =>
          a.modifyContext id fun context => context.capture symbol.name) a) := by
      induction ids generalizing a with
      | nil => exact .refl h
      | cons id ids ih =>
        have first := h.modifyContext id (fun context : FunctionContext =>
          show context.result.Canonical → (context.capture symbol.name).result.Canonical by
            unfold FunctionContext.capture
            split <;> exact fun canonical => canonical)
        exact first.trans (ih _ first.consistent)
    exact captured _ a consistent

/-- A value flows into a type: it is still annotated, also if it is widened. -/
theorem flowInto {e src : Expr} (completes : e.Completes src) (target : Ty) {problem : CheckProblem}
    (severity : problem.severity = .error) :
    Gives (Expr.Completes · src) (Check.flowInto e e.checkedTy target problem) := by
  refine get fun a _ => ?_
  split
  · exact pure completes
  · rename_i widening
    exact pure (completes.withWiden fun _ => completes.determined.1.of_widening widening)
  · exact errorThen severity _

end Gives

namespace Leads

/-- A name is declared if it is free. -/
theorem declare (consistent : start.Consistent) (name : String) {ty : Ty} {kind : SymbolKind}
    (pos : Position) (canonical : ty.Canonical) (known : kind.isMutable = false → ty ≠ .unknown) :
    Leads start (fun ref after => ref = ⟨start.symbols.size, name⟩ ∧
      after = (start.addName name ty kind pos).bindName name start.symbols.size)
      (Check.declare name ty kind pos) := by
  rintro res after ⟨reports, run, silent⟩
  have added := consistent.addName name pos canonical known
  cases found : (start.frame start.scope).symbols.find? name with
  | some taken =>
    rw [declare_of_taken ty kind pos found] at run
    cases run
    exact absurd rfl (silent _ (List.mem_singleton_self _))
  | none =>
    rw [declare_of_free ty kind pos found] at run
    cases run
    exact ⟨added.trans (added.consistent.modifyFrame _ fun _ types => types), rfl, rfl⟩

end Leads

theorem Gives.declare (name : String) {ty : Ty} {kind : SymbolKind} (pos : Position)
    (canonical : ty.Canonical) (known : kind.isMutable = false → ty ≠ .unknown) :
    Gives Anything (Check.declare name ty kind pos) :=
  of_leads fun _ consistent => (Leads.declare consistent name pos canonical known).weaken
    fun _ _ _ _ => trivial

/-! ## Written types -/

namespace Leads

mutual

/-- A written type is resolved to a determined one, which changes nothing. -/
theorem resolveType (consistent : start.Consistent) : ∀ written : TypeExpr,
    Leads start (fun ty after => start = after ∧ ty.Determined) (Check.resolveType written)
  | .named pos name nilable => by
    unfold Check.resolveType
    refine get ?_
    split
    · rename_i ty found
      -- built-in types are determined, and so are those that a consistent state binds
      have determined : ty.Determined := by
        cases primitive : Ty.primitive? name with
        | some builtin =>
          rw [primitive] at found
          cases found
          exact Ty.canonical_primitive primitive
        | none =>
          rw [primitive] at found
          exact consistent.typed.lookupType? found
      refine pure consistent ⟨rfl, ?_⟩
      cases nilable
      · exact determined
      · exact determined.orNil
    · exact errorThen rfl _
  | .function pos params res nilable => by
    unfold Check.resolveType
    refine (resolveTypes consistent params).bind ?_
    rintro params _ - ⟨rfl, canonical⟩
    have final (res : Ty) (determined : res.Determined) : Leads start
        (fun ty after => start = after ∧ ty.Determined)
        (Pure.pure (if nilable then (Ty.function params res).orNil
          else .function params res)) := by
      have fn : (Ty.function params res).Determined :=
        Ty.determined_function.mpr ⟨canonical, determined.1⟩
      refine pure consistent ⟨rfl, ?_⟩
      cases nilable
      · exact fn
      · exact fn.orNil
    cases res with
    | some res =>
      refine (resolveType consistent res).bind ?_
      rintro res _ - ⟨rfl, determined⟩
      exact final res determined
    | none => exact final .nil ⟨rfl, nofun⟩

theorem resolveTypes (consistent : start.Consistent) : ∀ written : List TypeExpr,
    Leads start (fun types after => start = after ∧ ∀ ty ∈ types, ty.Canonical)
      (Check.resolveTypes written)
  | [] => pure consistent ⟨rfl, nofun⟩
  | written :: rest => by
    unfold Check.resolveTypes
    refine (resolveType consistent written).bind ?_
    rintro ty _ - ⟨rfl, determined⟩
    refine (resolveTypes consistent rest).bind ?_
    rintro types _ - ⟨rfl, canonical⟩
    exact pure consistent ⟨rfl, List.forall_mem_cons.mpr ⟨determined.1, canonical⟩⟩

end

/-- The type of a function is resolved; its result may have to be found out. -/
theorem resolveSignature (consistent : start.Consistent) (params : List Param)
    (res : Option TypeExpr) {missing : Ty} (canonical : missing.Canonical) :
    Leads start (fun sig after => start = after ∧ sig.Determined)
      (Check.resolveSignature params res missing) := by
  refine (resolveTypes consistent _).bind ?_
  rintro types _ - ⟨rfl, params⟩
  cases res with
  | some written =>
    refine (resolveType consistent written).bind ?_
    rintro res _ - ⟨rfl, determined⟩
    exact pure consistent ⟨rfl, Ty.determined_function.mpr ⟨params, determined.1⟩⟩
  | none => exact pure consistent ⟨rfl, Ty.determined_function.mpr ⟨params, canonical⟩⟩

end Leads

theorem Gives.resolveType (written : TypeExpr) : Gives Ty.Determined (Check.resolveType written) :=
  of_leads fun _ consistent => (Leads.resolveType consistent written).weaken fun _ _ _ h => h.2

theorem Gives.resolveSignature (params : List Param) (res : Option TypeExpr) {missing : Ty}
    (canonical : missing.Canonical) :
    Gives Ty.Determined (Check.resolveSignature params res missing) :=
  of_leads fun _ consistent => (Leads.resolveSignature consistent params res canonical).weaken
    fun _ _ _ h => h.2

end Check

/-! ## Declarations on the books -/

namespace Analyzer

/-- Whether the name of what a statement declares is on the books. -/
def Announces (a : Analyzer) : Stmt × Check.Declared → Prop
  | (.function decl, declared) =>
    ∃ id, declared = .function (.function id) ∧ a.Holds (.function id) decl
  | (.struct decl, declared) => declared = .struct true ∧ a.Declares decl
  | _ => True

/-- Whether all of what a statement declares is on the books: a function, and the methods of a
struct. -/
def Registers (a : Analyzer) : Stmt × Check.Declared → Prop
  | (.function decl, declared) =>
    ∃ id, declared = .function (.function id) ∧ a.Holds (.function id) decl
  | (.struct decl, declared) =>
    declared = .struct true ∧ a.Resolved decl ∧
      ∀ method ∈ decl.methods, a.Holds (.method decl.name method.name) method
  | _ => True

theorem lasting_announces (pair : Stmt × Check.Declared) :
    Check.Lasting fun a => a.Announces pair := by
  obtain ⟨stmt, declared⟩ := pair
  intro before after advances announced
  cases stmt with
  | function decl =>
    obtain ⟨id, same, held⟩ := announced
    exact ⟨id, same, advances.holds held⟩
  | struct decl => exact ⟨announced.1, advances.declares announced.2⟩
  | _ => trivial

theorem lasting_registers (pair : Stmt × Check.Declared) :
    Check.Lasting fun a => a.Registers pair := by
  obtain ⟨stmt, declared⟩ := pair
  intro before after advances registered
  cases stmt with
  | function decl =>
    obtain ⟨id, same, held⟩ := registered
    exact ⟨id, same, advances.holds held⟩
  | struct decl =>
    obtain ⟨same, resolved, held⟩ := registered
    exact ⟨same, advances.resolved resolved, fun method mem => advances.holds (held method mem)⟩
  | _ => trivial

end Analyzer

namespace Check

variable {start : Analyzer}

/-! ## Names of declarations -/

namespace Leads

variable (consistent : start.Consistent)

include consistent

theorem typeNameFree (name : String) (pos : Position) :
    Leads start (fun free after => start = after ∧ free = true ∧ start.structs.find? name = none)
      (Check.typeNameFree name pos) := by
  refine get ?_
  split
  · exact errorThen rfl _
  · rename_i taken
    refine pure consistent ⟨rfl, rfl, ?_⟩
    cases found : start.structs.find? name with
    | none => rfl
    | some info => simp [Table.contains, found] at taken

theorem bindType (name : String) {ty : Ty}
    (determined : ty.Determined) : Leads start (fun _ _ => True) (Check.bindType name ty) :=
  modify (consistent.modifyFrame _ fun _ types => types.insert name determined) trivial

/-- A function is declared, and its body waits. -/
theorem declareFunction {decl : FunctionDecl Stmt} (plain : (Stmt.function decl).Plain) :
    Leads start (fun declared after => after.Announces (.function decl, declared))
      (Check.declareName (.function decl)) := by
  intro res final accepted
  obtain ⟨ref, after, named, rest⟩ := accepts_bind.mp accepted
  obtain ⟨_, last, changed, returned⟩ := accepts_bind.mp rest
  obtain rfl := accepts_modify.mp changed
  obtain ⟨rfl, rfl⟩ := accepts_pure.mp returned
  obtain ⟨proceeds, rfl, rfl⟩ := declare consistent decl.name decl.position
    (show (Ty.function [] .unknown).Canonical from rfl) (fun _ => nofun) ref after named
  -- the number is the next one, so that no function had it
  have new : ¬start.Knows (.function start.symbols.size) := fun known => Nat.lt_irrefl _ known.1
  have known : Analyzer.Knows ((start.addName decl.name (.function [] .unknown) .function
      decl.position).bindName decl.name start.symbols.size) (.function start.symbols.size) := by
    refine ⟨by simp [Analyzer.addName], ?_⟩
    rw [Analyzer.symbolAt_bindName, Analyzer.symbolAt_addName_self]
  refine ⟨proceeds.register new known plain rfl rfl consistent, start.symbols.size, rfl, .inl ?_⟩
  exact ⟨_, Table.find?_insert_self _ _ _, rfl⟩

/-- A declared name is announced for the statement that declares it. -/
theorem declareName {stmt : Stmt} (plain : stmt.Plain) :
    Leads start (fun declared after => after.Announces (stmt, declared))
      (Check.declareName stmt) := by
  cases stmt with
  | function decl => exact declareFunction consistent plain
  | struct decl =>
    refine (typeNameFree consistent _ _).bind ?_
    rintro free _ - ⟨rfl, rfl, new⟩
    have inserted := consistent.insertStruct new
    have declares : Analyzer.Declares
        { start with structs := start.structs.insert decl.name { decl } } decl :=
      ⟨_, Table.find?_insert_self _ _ _, rfl⟩
    refine modifyThen inserted ?_
    have named : (Ty.struct decl.name).Determined := ⟨rfl, nofun⟩
    refine (bindType inserted.consistent decl.name named).bind fun _ bound first _ => ?_
    refine (declare first.consistent decl.name decl.position named.1 fun _ => named.2).bind ?_
    intro ref after second _
    exact pure second.consistent ⟨rfl, (first.trans second).advances.declares declares⟩
  | trait decl =>
    refine (typeNameFree consistent _ _).bind ?_
    rintro free _ - ⟨rfl, rfl, -⟩
    have inserted := consistent.insertTrait decl.name
      (show ({} : TraitInfo).methods.All Ty.Determined from .empty)
    refine modifyThen inserted ?_
    have named : (Ty.trait decl.name).Determined := ⟨rfl, nofun⟩
    refine (bindType inserted.consistent decl.name named).bind fun _ bound first _ => ?_
    exact pure first.consistent trivial
  | _ => exact pure consistent trivial

end Leads

/-! ## Types of declarations -/

namespace Gives

theorem resolveTrait (decl : TraitDecl) : Gives Anything (Check.resolveTrait decl) := by
  refine composing.forM _ fun method _ => get fun a _ => ?_
  refine ite (fun _ => error rfl _) fun _ => ?_
  refine bind (resolveSignature _ _ rfl) fun sig determined => ?_
  refine modify fun a consistent => consistent.insertTrait decl.name ?_
  have methods : ((a.traits.find? decl.name).getD {}).methods.All Ty.Determined :=
    consistent.typed.traits.getD decl.name (show ({} : TraitInfo).methods.All Ty.Determined from .empty)
  exact methods.insert method.name determined

theorem resolveField (decl : StructDecl Stmt) (field : FieldDecl) :
    Gives Anything (Check.resolveField decl field) := by
  refine get fun a _ => ite (fun _ => error rfl _) fun _ => ?_
  cases field.written with
  | some written =>
    refine bind (resolveType written) fun ty determined => ?_
    exact modify fun _ consistent => consistent.setField _ _ determined.1
  | none => exact modify fun _ consistent => consistent.setField _ _ rfl

theorem resolveTraitRef (decl : StructDecl Stmt) (ref : TraitRef) :
    Gives Anything (Check.resolveTraitRef decl ref) := by
  refine get fun a _ => ?_
  dsimp only
  split
  · exact error rfl _
  · refine ite (fun _ => error rfl _) fun _ => modify fun a consistent => ?_
    exact consistent.modifyStruct decl.name (fun _ typed => ⟨typed.fields, typed.methods⟩)
      (fun _ => rfl) fun _ _ listed => listed
  · exact error rfl _

end Gives

namespace Leads

variable (consistent : start.Consistent)

include consistent

/-- A method of a struct is declared and waits for its check, unless it is there already. -/
theorem resolveMethod {decl : StructDecl Stmt}
    {method : FunctionDecl Stmt} (plain : (Stmt.function method).Plain)
    (declared : start.Declares decl) :
    Leads start (fun _ after => after.Knows (.method decl.name method.name) ∧
        after.Holds (.method decl.name method.name) method)
      (Check.resolveMethod decl method) := by
  obtain ⟨info, found, -⟩ := declared
  refine get ?_
  dsimp only
  split
  · exact error rfl _
  · rename_i free
    simp only [found, Option.getD_some, Bool.or_eq_true, not_or, Bool.not_eq_true] at free
    split
    · cases method.result with
      | some written => exact errorThen rfl _
      | none =>
        refine (resolveSignature consistent _ _ rfl).bind ?_
        rintro sig _ - ⟨rfl, determined⟩
        obtain ⟨proceeds, known, held⟩ :=
          consistent.registerMethod plain found free.1 determined
        exact modify proceeds ⟨known, held⟩
    · refine (resolveSignature consistent _ _ rfl).bind ?_
      rintro sig _ - ⟨rfl, determined⟩
      obtain ⟨proceeds, known, held⟩ := consistent.registerMethod plain found free.1 determined
      exact modify proceeds ⟨known, held⟩

/-- A struct is resolved, and all its methods wait. -/
theorem resolveStruct {decl : StructDecl Stmt} (plain : ∀ method ∈ decl.methods, (Stmt.function method).Plain)
    (declared : start.Declares decl) :
    Leads start (fun _ after => after.Resolved decl ∧
        ∀ method ∈ decl.methods, after.Holds (.method decl.name method.name) method)
      (Check.resolveStruct decl) := by
  refine (Gives.composing.forM _ (fun field _ => Gives.resolveField decl field) start consistent).bind ?_
  intro _ fields first _
  refine (Gives.composing.forM _ (fun ref _ => Gives.resolveTraitRef decl ref) fields first.consistent).bind ?_
  intro _ traits second _
  have declared := (first.trans second).advances.declares declared
  have methods := forM decl.methods (fun _ => lasting_declares decl)
    (fun _ _ _ advances both => ⟨advances.knows both.1, advances.holds both.2⟩) second.consistent
    (fun _ _ => declared)
    fun method mem start consistent declared => resolveMethod consistent (plain method mem) declared
  refine methods.weaken fun _ after proceeds all => ⟨⟨?_, ?_⟩, ?_⟩
  · exact proceeds.advances.declares declared
  · exact fun method mem => (all method mem).1
  · exact fun method mem => (all method mem).2

/-- Resolving what a statement declares. -/
theorem resolveDeclared {pair : Stmt × Declared} (plain : pair.1.Plain) (announced : start.Announces pair) :
    Leads start (fun _ after => after.Registers pair) (Check.resolveDeclared pair) := by
  obtain ⟨stmt, declared⟩ := pair
  cases stmt with
  | function decl =>
    obtain ⟨id, rfl, held⟩ := announced
    refine get ((demand consistent _ _).bind ?_)
    rintro _ _ - ⟨-, rfl⟩
    refine (resolveSignature consistent _ _ rfl).bind ?_
    rintro sig _ - ⟨rfl, determined⟩
    have changed := consistent.setType id determined
    exact modify changed ⟨id, rfl, changed.advances.holds held⟩
  | struct decl =>
    obtain ⟨rfl, declared⟩ := announced
    have methods := (Stmt.each_struct.mp plain).2.2
    exact (resolveStruct consistent methods declared).weaken fun _ _ _ registered => ⟨rfl, registered⟩
  | trait decl =>
    unfold Check.resolveDeclared
    split
    · exact (Gives.resolveTrait _ start consistent).weaken fun _ _ _ _ => trivial
    · rename_i impossible
      cases impossible
    · rename_i impossible
      cases impossible
    · exact pure consistent trivial
  | _ => exact pure consistent trivial

/-- After the names of a statement list are declared, what it declares is on the books. -/
theorem hoist {stmts : List Stmt} (plain : ∀ stmt ∈ stmts, stmt.Plain) :
    Leads start (fun declared after => ∀ pair ∈ declared, pair.1.Plain ∧ after.Registers pair)
      (Check.hoist stmts) := by
  have names := mapM stmts (fun pair : Stmt × Declared =>
      show Lasting fun a => pair.1.Plain ∧ a.Announces pair from
        fun advances both => ⟨both.1, Analyzer.lasting_announces pair advances both.2⟩) consistent
    fun stmt mem start consistent =>
      show Leads start _ (do return (stmt, ← Check.declareName stmt)) from
      (declareName consistent (plain stmt mem)).bind fun declared after proceeds announced =>
        pure proceeds.consistent ⟨plain stmt mem, announced⟩
  refine names.bind fun declared after first announced => ?_
  have types := forM declared
    (fun pair => show Lasting fun a => pair.1.Plain ∧ a.Announces pair from
      fun advances both => ⟨both.1, Analyzer.lasting_announces pair advances both.2⟩)
    (fun pair => show Lasting fun a => pair.1.Plain ∧ a.Registers pair from
      fun advances both => ⟨both.1, Analyzer.lasting_registers pair advances both.2⟩)
    first.consistent announced fun pair _ start consistent both =>
      (resolveDeclared consistent both.1 both.2).weaken fun _ _ _ registered =>
        ⟨both.1, registered⟩
  refine types.bind fun _ final second registered => ?_
  exact pure second.consistent registered

end Leads

end Check

end FlowScript
