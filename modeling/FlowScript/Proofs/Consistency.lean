import FlowScript.Proofs.Annotation
import FlowScript.Proofs.Evolution
/-!
# States on the way to an accepted program

As long as no error is reported, all types that the state of checking holds are canonical
(`Analyzer.Typed`), and its books on function bodies are in order (`Analyzer.Orderly`): a body that
waits is as the parser left it, a body that is done is annotated, and no body is both.

Bodies are checked out of order.  `Analyzer.Advances` says what is never undone whatever is checked in
between: a function that was declared is still waiting or done, once its check has begun it does not
wait again, and a struct whose methods were put off is on the list of such structs until the check of
each of them has begun.  When a statement list ends, nothing of it waits, so all of it is done.

Main statements: `Analyzer.Proceeds.trans`, and one lemma for each primitive change of the state;
`Analyzer.Proceeds.finish` and `Analyzer.Proceeds.finishStruct` close the two steps that take something
off the books first and put it back in another place at their end.
-/

namespace FlowScript

/-! ## Tables of which every value has a property -/

namespace Table

variable {κ α : Type} [DecidableEq κ] {p : α → Prop} {table : Table κ α}

/-- Whether every bound value has a property. -/
def All (p : α → Prop) (table : Table κ α) : Prop := ∀ value ∈ table.values, p value

namespace All

omit [DecidableEq κ] in
theorem empty : (Table.empty : Table κ α).All p := nofun

variable (h : table.All p)

include h

theorem find? {key : κ} {value : α} (found : table.find? key = some value) :
    p value :=
  h value (mem_values_of_find? found)

/-- What is found, or else something that has the property. -/
theorem getD (key : κ) {missing : α} (other : p missing) :
    p ((table.find? key).getD missing) := by
  cases found : table.find? key with
  | none => exact other
  | some value => exact h.find? found

theorem insert (key : κ) {value : α} (new : p value) :
    (table.insert key value).All p := by
  intro other mem
  rcases mem_values_insert mem with rfl | old
  · exact new
  · exact h other old

omit [DecidableEq κ] in
theorem filter (keep : κ → α → Bool) : (table.filter keep).All p := by
  intro value mem
  obtain ⟨entry, kept, rfl⟩ := List.mem_map.mp mem
  exact h _ (List.mem_map.mpr ⟨entry, (List.mem_filter.mp kept).1, rfl⟩)

theorem erase (key : κ) : (table.erase key).All p :=
  h.filter fun other _ => !decide (other = key)

theorem overlay {other : Table κ α} (above : other.All p) :
    (table.overlay other).All p := by
  intro value mem
  exact (mem_values_overlay mem).elim (h value) (above value)

omit h in
theorem single (key : κ) {value : α} (h : p value) : (Table.empty.insert key value).All p :=
  empty.insert key h

end All

end Table

/-! ## Canonical types in the state -/

/-- A name of canonical type. Only what can be assigned may have to wait for its type. -/
structure Symbol.Typed (symbol : Symbol) : Prop where
  canonical : symbol.ty.Canonical
  known : symbol.kind.isMutable = false → symbol.ty ≠ .unknown

/-- A struct whose fields and methods have canonical types. Fields may have to wait for theirs. -/
structure StructInfo.Typed (info : StructInfo) : Prop where
  fields : info.fields.All Ty.Canonical
  methods : info.methods.All Ty.Determined

/-- The type of a struct's name used as a function is determined. -/
theorem StructInfo.Typed.constructorType {info : StructInfo} (h : info.Typed) :
    info.constructorType.Determined := by
  unfold StructInfo.constructorType
  split
  · rename_i sig found
    exact Ty.determined_function.mpr ⟨(h.methods.find? found).1.params, rfl⟩
  · exact Ty.determined_function.mpr ⟨h.fields, rfl⟩

/-- Whether a struct is declared by a declaration. -/
def Analyzer.Declares (a : Analyzer) (decl : StructDecl Stmt) : Prop :=
  ∃ info, a.structs.find? decl.name = some info ∧ info.decl = decl

/-- Whether the struct that a node declares, if it is a declaration, is declared. -/
def Node.DeclaredIn (a : Analyzer) : Node → Prop
  | .stmt (.struct decl) => a.Declares decl
  | _ => True

/-- Whether the structs that an expression declares are declared. -/
abbrev Expr.DeclaredIn (e : Expr) (a : Analyzer) : Prop := e.Each (Node.DeclaredIn a)

/-- Whether the structs that a statement declares are declared. -/
abbrev Stmt.DeclaredIn (s : Stmt) (a : Analyzer) : Prop := s.Each (Node.DeclaredIn a)

/-- Whether the structs that statements declare are declared. -/
abbrev Stmt.AllDeclaredIn (stmts : List Stmt) (a : Analyzer) : Prop := Stmt.EachOf (Node.DeclaredIn a) stmts

namespace Analyzer

/-- A state in which all types are canonical. -/
structure Typed (analyzer : Analyzer) : Prop where
  names : ∀ id, (analyzer.symbolAt id).Typed
  facts : analyzer.flow.facts.All Ty.Canonical
  results : ∀ id, (analyzer.context id).result.Canonical
  types : ∀ id, (analyzer.frame id).types.All Ty.Determined
  structs : analyzer.structs.All StructInfo.Typed
  traits : analyzer.traits.All fun info => info.methods.All Ty.Determined

namespace Typed

variable {a : Analyzer}

theorem typeOf (h : a.Typed) (ref : SymbolRef) : (a.typeOf ref).Canonical :=
  h.facts.getD ref (h.names ref.id).canonical

theorem lookupType? (h : a.Typed) {name : String} {ty : Ty}
    (found : a.lookupType? name = some ty) : ty.Determined := by
  obtain ⟨id, -, found⟩ := List.exists_of_findSome?_eq_some found
  exact (h.types id).find? found

end Typed

/-! ## The books on function bodies -/

/-- Whether a struct is declared with its methods. -/
def Resolved (a : Analyzer) (decl : StructDecl Stmt) : Prop :=
  a.Declares decl ∧ ∀ method ∈ decl.methods, a.Knows (.method decl.name method.name)

/-- Whether a function is declared whose body does not wait to be checked. -/
def Begun (a : Analyzer) (key : FunctionKey) : Prop :=
  a.Knows key ∧ a.pending.find? key = none

/-- Whether the body of a function waits or is done. What is done is the function as it was declared, with
what was noted in it. -/
def Holds (a : Analyzer) (key : FunctionKey) (src : FunctionDecl Stmt) : Prop :=
  (∃ fn, a.pending.find? key = some fn ∧ fn.decl = src) ∨
    ∃ decl, a.finished.find? key = some decl ∧ decl.bare = src

/-- Whether none of the methods of a struct waits to be checked. -/
def AllBegun (a : Analyzer) (decl : StructDecl Stmt) : Prop :=
  ∀ method ∈ decl.methods, a.Begun (.method decl.name method.name)

/-- Whether a struct is on the list of those whose methods were put off, unless none waits. -/
def Scheduled (a : Analyzer) (decl : StructDecl Stmt) : Prop :=
  decl.name ∈ a.deferred ∨ a.AllBegun decl

/-- A state whose books on function bodies are in order. -/
structure Orderly (analyzer : Analyzer) : Prop where
  pending : ∀ {key function}, analyzer.pending.find? key = some function →
    (Stmt.function function.decl).Plain ∧ analyzer.Knows key ∧ analyzer.finished.find? key = none
  finished : ∀ {key decl}, analyzer.finished.find? key = some decl →
    (Stmt.function decl).Checked ∧ analyzer.Knows key ∧
      (Stmt.function decl.bare).DeclaredIn analyzer
  deferred : ∀ {name}, name ∈ analyzer.deferred → ∃ decl : StructDecl Stmt,
    decl.name = name ∧ analyzer.Resolved decl

/-- What is on the books stays there, and only moves on. -/
structure Advances (before after : Analyzer) : Prop where
  knows : ∀ {key}, before.Knows key → after.Knows key
  declares : ∀ {decl}, before.Declares decl → after.Declares decl
  begun : ∀ {key}, before.Begun key → after.Begun key
  holds : ∀ {key src}, before.Holds key src → after.Holds key src
  scheduled : ∀ {decl}, before.Declares decl → before.Scheduled decl → after.Scheduled decl

/-- A state with canonical types whose books are in order. -/
structure Consistent (analyzer : Analyzer) : Prop where
  typed : analyzer.Typed
  orderly : analyzer.Orderly

/-- Whether a consistent state is reached along which the books advance. -/
structure Proceeds (before after : Analyzer) : Prop where
  consistent : after.Consistent
  advances : before.Advances after

variable {before mid after : Analyzer}

theorem declaredIn_of_declares (declares : ∀ {decl}, before.Declares decl → after.Declares decl) (node : Node)
    (h : node.DeclaredIn before) : node.DeclaredIn after := by
  unfold Node.DeclaredIn at h ⊢
  split
  · exact declares h
  · trivial

theorem Advances.refl (a : Analyzer) : a.Advances a :=
  ⟨id, id, id, id, fun _ => id⟩

theorem Advances.trans (first : before.Advances mid) (second : mid.Advances after) :
    before.Advances after where
  knows known := second.knows (first.knows known)
  declares declared := second.declares (first.declares declared)
  begun begun := second.begun (first.begun begun)
  holds held := second.holds (first.holds held)
  scheduled declared scheduled :=
    second.scheduled (first.declares declared) (first.scheduled declared scheduled)

theorem Advances.resolved (h : before.Advances after) {decl : StructDecl Stmt}
    (resolved : before.Resolved decl) : after.Resolved decl :=
  ⟨h.declares resolved.1, fun method mem => h.knows (resolved.2 method mem)⟩

theorem Advances.allBegun (h : before.Advances after) {decl : StructDecl Stmt}
    (begun : before.AllBegun decl) : after.AllBegun decl :=
  fun method mem => h.begun (begun method mem)

theorem Proceeds.refl {a : Analyzer} (h : a.Consistent) : a.Proceeds a :=
  ⟨h, .refl a⟩

theorem Proceeds.trans (first : before.Proceeds mid) (second : mid.Proceeds after) :
    before.Proceeds after :=
  ⟨second.consistent, first.advances.trans second.advances⟩

/-- What is on the books is declared. -/
theorem Orderly.knows_of_holds (h : before.Orderly) {key : FunctionKey} {src : FunctionDecl Stmt}
    (held : before.Holds key src) : before.Knows key := by
  rcases held with ⟨fn, found, -⟩ | ⟨decl, found, -⟩
  · exact (h.pending found).2.1
  · exact (h.finished found).2.1

/-- A body that is on the books and does not wait is done. -/
theorem Begun.finished {key : FunctionKey} {src : FunctionDecl Stmt} (begun : before.Begun key)
    (held : before.Holds key src) :
    ∃ decl, before.finished.find? key = some decl ∧ decl.bare = src := by
  rcases held with ⟨fn, found, -⟩ | done
  · rw [begun.2] at found
    cases found
  · exact done

/-! ## Changes that leave the books -/

namespace Consistent

variable {a : Analyzer}

/-- A change after which the same bodies wait and are done. -/
theorem carry (h : before.Consistent) (typed : after.Typed)
    (knows : ∀ {key}, before.Knows key → after.Knows key)
    (declares : ∀ {decl}, before.Declares decl → after.Declares decl)
    (pending : after.pending = before.pending) (finished : after.finished = before.finished)
    (deferred : after.deferred = before.deferred) : before.Proceeds after := by
  have begun {key : FunctionKey} (begun : before.Begun key) : after.Begun key :=
    ⟨knows begun.1, pending ▸ begun.2⟩
  refine ⟨⟨typed, ?_, ?_, ?_⟩, knows, declares, begun, ?_, ?_⟩
  · intro key fn found
    rw [pending] at found
    obtain ⟨plain, known, unfinished⟩ := h.orderly.pending found
    exact ⟨plain, knows known, finished ▸ unfinished⟩
  · intro key decl found
    rw [finished] at found
    obtain ⟨annotated, known, parts⟩ := h.orderly.finished found
    exact ⟨annotated, knows known, fun node mem => declaredIn_of_declares declares node (parts node mem)⟩
  · intro name mem
    rw [deferred] at mem
    obtain ⟨decl, named, declared, methods⟩ := h.orderly.deferred mem
    exact ⟨decl, named, declares declared, fun method mem => knows (methods method mem)⟩
  · intro key src held
    rwa [Holds, pending, finished]
  · intro decl declared scheduled
    rw [Scheduled, deferred]
    exact scheduled.imp_right fun all method mem => begun (all method mem)

variable (h : a.Consistent)

include h

/-- A change of the site, of the functions being checked and of the place in the program. -/
theorem move (site : Site) (active : Table FunctionKey Nat)
    (topLevel : Option Position) : a.Proceeds { a with site, active, topLevel } :=
  h.carry { h.typed with } id id rfl rfl rfl

theorem setFlow {flow : Flow} (facts : flow.facts.All Ty.Canonical) :
    a.Proceeds { a with flow } :=
  h.carry { h.typed with facts } id id rfl rfl rfl

theorem setContexts {contexts : Array FunctionContext}
    (results : ∀ id, (contexts.getD id default).result.Canonical) :
    a.Proceeds { a with contexts } :=
  h.carry { h.typed with results } id id rfl rfl rfl

theorem modifyContext (id : Nat) {f : FunctionContext → FunctionContext}
    (canonical : ∀ context : FunctionContext, context.result.Canonical →
      (f context).result.Canonical) : a.Proceeds (a.modifyContext id f) := by
  refine h.setContexts fun other => ?_
  have old := h.typed.results other
  rw [context, Array.getD_eq_getD_getElem?] at old
  rw [Array.getD_eq_getD_getElem?, Array.getElem?_modify]
  split
  · cases found : a.contexts[other]? with
    | none => rfl
    | some context =>
      rw [found] at old
      exact canonical context old
  · exact old

theorem pushContext {context : FunctionContext} (canonical : context.result.Canonical) :
    a.Proceeds { a with contexts := a.contexts.push context } := by
  refine h.setContexts fun other => ?_
  have old := h.typed.results other
  rw [Analyzer.context, Array.getD_eq_getD_getElem?] at old
  rw [Array.getD_eq_getD_getElem?, Array.getElem?_push]
  split
  · exact canonical
  · exact old

theorem pushFrame :
    a.Proceeds { a with frames := a.frames.push {} } := by
  refine h.carry { h.typed with types := fun id => ?_ } id id rfl rfl rfl
  rw [Grows.frame_push]
  exact h.typed.types id

/-- A frame is changed in which no type is bound that is not determined. -/
theorem modifyFrame (number : Nat) {f : Frame → Frame}
    (types : ∀ frame : Frame, frame.types.All Ty.Determined → (f frame).types.All Ty.Determined) :
    a.Proceeds (a.modifyFrame number f) := by
  refine h.carry { h.typed with types := fun other => ?_ } id id rfl rfl rfl
  rw [frame_modifyFrame]
  split
  · exact types _ (h.typed.types other)
  · exact h.typed.types other

/-- A name is changed that keeps its kind. -/
theorem modifySymbol (number : Nat) {f : Symbol → Symbol}
    (typed : ∀ symbol : Symbol, symbol.Typed → (f symbol).Typed)
    (kind : ∀ symbol : Symbol, (f symbol).kind = symbol.kind) :
    a.Proceeds (a.modifySymbol number f) := by
  refine h.carry { h.typed with names := fun other => ?_ } ?_ id rfl rfl rfl
  · rw [symbolAt_modifySymbol]
    split
    · exact typed _ (h.typed.names other)
    · exact h.typed.names other
  · intro key known
    cases key with
    | method sname name => exact known
    | function other =>
      obtain ⟨inBounds, isFunction⟩ := known
      refine ⟨by simpa [Analyzer.modifySymbol] using inBounds, ?_⟩
      rw [symbolAt_modifySymbol]
      split
      · rw [kind, isFunction]
      · exact isFunction

/-- A name of a canonical type, which is known unless it may be assigned. -/
theorem addName (name : String) {ty : Ty} {kind : SymbolKind}
    (pos : Position) (canonical : ty.Canonical) (known : kind.isMutable = false → ty ≠ .unknown) :
    a.Proceeds (a.addName name ty kind pos) := by
  refine h.carry { h.typed with names := fun id => ?_ } ?_ id rfl rfl rfl
  · rcases Nat.lt_trichotomy id a.symbols.size with old | rfl | beyond
    · rw [Analyzer.addName, Grows.symbolAt_push _ _ old]
      exact h.typed.names id
    · rw [symbolAt_addName_self]
      exact ⟨canonical, known⟩
    · -- past the end there is nothing but the default
      rw [Analyzer.addName, symbolAt, Array.getD_eq_getD_getElem?,
        Array.getElem?_eq_none (by simp only [Array.size_push]; omega)]
      exact ⟨rfl, fun fixed => absurd fixed (by decide)⟩
  · intro key known
    cases key with
    | method sname name => exact known
    | function id =>
      obtain ⟨inBounds, isFunction⟩ := known
      refine ⟨by simpa [Analyzer.addName] using Nat.lt_succ_of_lt inBounds, ?_⟩
      rw [Analyzer.addName, Grows.symbolAt_push _ _ inBounds, isFunction]

theorem insertTrait (name : String) {info : TraitInfo} (methods : info.methods.All Ty.Determined) :
    a.Proceeds { a with traits := a.traits.insert name info } :=
  h.carry { h.typed with traits := h.typed.traits.insert name methods } id id rfl rfl rfl

/-- A struct of a new name is declared. -/
theorem insertStruct {decl : StructDecl Stmt} (new : a.structs.find? decl.name = none) :
    a.Proceeds { a with structs := a.structs.insert decl.name { decl } } := by
  have kept {name : String} {info : StructInfo} (found : a.structs.find? name = some info) :
      (a.structs.insert decl.name { decl }).find? name = some info := by
    rw [Table.find?_insert_of_ne, found]
    rintro rfl
    rw [new] at found
    cases found
  refine h.carry { h.typed with structs := h.typed.structs.insert _ ⟨.empty, .empty⟩ } ?_ ?_ rfl rfl rfl
  · intro key known
    cases key with
    | function id => exact known
    | method sname name =>
      obtain ⟨info, found, method⟩ := known
      exact ⟨info, kept found, method⟩
  · rintro other ⟨info, found, same⟩
    exact ⟨info, kept found, same⟩

/-- A struct is changed that keeps its declaration and its methods. -/
theorem modifyStruct (name : String) {f : StructInfo → StructInfo}
    (typed : ∀ info : StructInfo, info.Typed → (f info).Typed)
    (decl : ∀ info : StructInfo, (f info).decl = info.decl)
    (methods : ∀ (info : StructInfo) (method : String), info.methods.contains method = true →
      (f info).methods.contains method = true) :
    a.Proceeds (a.modifyStruct name f) := by
  cases found : a.structs.find? name with
  | none =>
    rw [Analyzer.modifyStruct, found]
    exact .refl h
  | some info =>
    -- the other structs are as before, and this one keeps its declaration and its methods
    have kept {other : String} {before : StructInfo}
        (known : a.structs.find? other = some before) :
        ∃ after, (a.modifyStruct name f).structs.find? other = some after ∧
          after.decl = before.decl ∧ ∀ method, before.methods.contains method = true →
            after.methods.contains method = true := by
      rw [find?_modifyStruct]
      split
      · rename_i same
        subst same
        rw [known]
        exact ⟨f before, rfl, decl before, methods before⟩
      · exact ⟨before, known, rfl, fun _ => id⟩
    rw [Analyzer.modifyStruct, found] at kept ⊢
    refine h.carry { h.typed with
      structs := h.typed.structs.insert _ (typed info (h.typed.structs.find? found)) } ?_ ?_ rfl rfl rfl
    · intro key known
      cases key with
      | function id => exact known
      | method sname method =>
        obtain ⟨before, known, listed⟩ := known
        obtain ⟨after, later, -, kept⟩ := kept known
        exact ⟨after, later, kept method listed⟩
    · rintro other ⟨before, known, same⟩
      obtain ⟨after, later, declared, -⟩ := kept known
      exact ⟨after, later, declared.trans same⟩

/-- A field of a struct gets a type. -/
theorem setField (sname field : String) {ty : Ty} (canonical : ty.Canonical) :
    a.Proceeds (a.modifyStruct sname fun info =>
      { info with fields := info.fields.insert field ty }) :=
  h.modifyStruct sname (fun _ typed => ⟨typed.fields.insert field canonical, typed.methods⟩)
    (fun _ => rfl) fun _ _ listed => listed

/-- A method of a struct gets a type. -/
theorem setMethod (sname method : String) {sig : Ty} (determined : sig.Determined) :
    a.Proceeds (a.modifyStruct sname fun info =>
      { info with methods := info.methods.insert method sig }) :=
  h.modifyStruct sname
    (fun _ typed => ⟨typed.fields, typed.methods.insert method determined⟩) (fun _ => rfl)
    fun _ name listed => by rw [Table.contains_insert, listed, Bool.or_true]

/-- A name gets a type that is determined. -/
theorem setType (number : Nat) {ty : Ty} (determined : ty.Determined) :
    a.Proceeds (a.modifySymbol number fun symbol => { symbol with ty }) :=
  h.modifySymbol number (fun _ _ => ⟨determined.1, fun _ => determined.2⟩) fun _ => rfl

/-! ## Changes of the books -/

/-- The methods of a struct are put off. -/
theorem defer {decl : StructDecl Stmt} (resolved : a.Resolved decl) :
    a.Proceeds { a with deferred := decl.name :: a.deferred } := by
  refine ⟨⟨{ h.typed with }, h.orderly.pending, h.orderly.finished, ?_⟩, id, id, id, id, ?_⟩
  · intro name mem
    rcases List.mem_cons.mp mem with rfl | mem
    · exact ⟨decl, rfl, resolved⟩
    · exact h.orderly.deferred mem
  · exact fun _ scheduled => scheduled.imp_left (List.mem_cons_of_mem _)

end Consistent

/-- A function that was not declared before waits for its body to be checked. -/
theorem Proceeds.register (h : before.Proceeds after) {key : FunctionKey}
    {fn : PendingFunction} (new : ¬before.Knows key) (known : after.Knows key)
    (plain : (Stmt.function fn.decl).Plain)
    (finished : after.finished = before.finished) (deferred : after.deferred = before.deferred)
    (consistent : before.Consistent) :
    before.Proceeds { after with pending := after.pending.insert key fn } := by
  -- what was declared before is not the new function
  have others {other : FunctionKey} (old : before.Knows other) :
      (after.pending.insert key fn).find? other = after.pending.find? other := by
    refine Table.find?_insert_of_ne _ _ ?_
    rintro rfl
    exact new old
  have begun {other : FunctionKey} (begun : before.Begun other) :
      Begun { after with pending := after.pending.insert key fn } other :=
    ⟨(h.advances.begun begun).1, (others begun.1).trans (h.advances.begun begun).2⟩
  refine ⟨⟨{ h.consistent.typed with }, ?_,
    h.consistent.orderly.finished, h.consistent.orderly.deferred⟩, h.advances.knows,
    h.advances.declares, begun, ?_, ?_⟩
  · intro other found waits
    dsimp only at waits
    rw [Table.find?_insert] at waits
    split at waits
    · rename_i same
      subst same
      cases waits
      refine ⟨plain, known, ?_⟩
      cases done : before.finished.find? key with
      | none => exact finished ▸ done
      | some decl => exact absurd (consistent.orderly.finished done).2.1 new
    · exact h.consistent.orderly.pending waits
  · intro other src held
    have old := consistent.orderly.knows_of_holds held
    have held := h.advances.holds held
    rwa [Holds, ← others old] at held
  · intro decl _ scheduled
    rcases scheduled with listed | all
    · exact .inl (deferred ▸ listed)
    · exact .inr fun method mem => begun (all method mem)

theorem finished_modifyStruct (a : Analyzer) (name : String) (f : StructInfo → StructInfo) :
    (a.modifyStruct name f).finished = a.finished := by
  unfold modifyStruct
  split <;> rfl

theorem deferred_modifyStruct (a : Analyzer) (name : String) (f : StructInfo → StructInfo) :
    (a.modifyStruct name f).deferred = a.deferred := by
  unfold modifyStruct
  split <;> rfl

/-- A method that a struct does not have is declared, and its body waits. -/
theorem Consistent.registerMethod (h : before.Consistent) {sname : String}
    {method : FunctionDecl Stmt} (plain : (Stmt.function method).Plain) {info : StructInfo}
    (found : before.structs.find? sname = some info)
    (free : info.methods.contains method.name = false) {sig : Ty}
    (determined : sig.Determined) :
    let changed := before.modifyStruct sname fun info =>
      { info with methods := info.methods.insert method.name sig }
    let key := FunctionKey.method sname method.name
    let after := { changed with pending := changed.pending.insert key ⟨method, changed.site⟩ }
    before.Proceeds after ∧ after.Knows key ∧ after.Holds key method := by
  intro changed key after
  have new : ¬before.Knows key := by
    rintro ⟨other, same, listed⟩
    rw [found] at same
    cases same
    rw [free] at listed
    cases listed
  have known : changed.Knows key := by
    refine ⟨{ info with methods := info.methods.insert method.name sig }, ?_, ?_⟩
    · rw [find?_modifyStruct, if_pos rfl, found]
      rfl
    · rw [Table.contains_insert, decide_eq_true rfl, Bool.true_or]
  have proceeds := h.setMethod sname method.name determined
  refine ⟨proceeds.register new known plain (finished_modifyStruct _ _ _)
    (deferred_modifyStruct _ _ _) h, known, .inl ?_⟩
  exact ⟨⟨method, changed.site⟩, Table.find?_insert_self _ _ _, rfl⟩

/-- The state in which a function does not wait. -/
def erasePending (a : Analyzer) (key : FunctionKey) : Analyzer :=
  { a with pending := a.pending.erase key }

/-- The state in which a function is done. -/
def insertFinished (a : Analyzer) (key : FunctionKey) (decl : FunctionDecl Stmt) : Analyzer :=
  { a with finished := a.finished.insert key decl }

theorem Consistent.erasePending (h : before.Consistent) (key : FunctionKey) :
    (before.erasePending key).Consistent := by
  refine ⟨{ h.typed with }, ?_, h.orderly.finished, h.orderly.deferred⟩
  intro other fn found
  rw [Analyzer.erasePending, Table.find?_erase] at found
  split at found
  · cases found
  · exact h.orderly.pending found

theorem begun_erasePending {key : FunctionKey} (known : before.Knows key) :
    (before.erasePending key).Begun key := by
  refine ⟨known, ?_⟩
  rw [Analyzer.erasePending, Table.find?_erase, if_pos rfl]

/-- A function whose check has begun is done. -/
theorem Proceeds.insertFinished (h : before.Proceeds after) {key : FunctionKey}
    {decl : FunctionDecl Stmt} (begun : before.Begun key) (unfinished : before.finished.find? key = none)
    (annotated : (Stmt.function decl).Checked) (parts : (Stmt.function decl.bare).DeclaredIn after) :
    before.Proceeds (after.insertFinished key decl) := by
  have begunAfter := h.advances.begun begun
  refine ⟨⟨{ h.consistent.typed with }, ?_, ?_,
    h.consistent.orderly.deferred⟩, h.advances.knows, h.advances.declares, h.advances.begun, ?_,
    h.advances.scheduled⟩
  · intro other fn waits
    obtain ⟨plain, known, none⟩ := h.consistent.orderly.pending waits
    refine ⟨plain, known, ?_⟩
    rw [Analyzer.insertFinished, Table.find?_insert_of_ne, none]
    rintro rfl
    rw [Analyzer.insertFinished, begunAfter.2] at waits
    cases waits
  · intro other found done
    rw [Analyzer.insertFinished, Table.find?_insert] at done
    split at done
    · rename_i same
      subst same
      cases done
      exact ⟨annotated, begunAfter.1, parts⟩
    · exact h.consistent.orderly.finished done
  · intro other src held
    -- the function itself was on no side of the books
    have ne : key ≠ other := by
      rintro rfl
      rcases held with ⟨fn, found, -⟩ | ⟨decl, found, -⟩
      · rw [begun.2] at found
        cases found
      · rw [unfinished] at found
        cases found
    refine (h.advances.holds held).imp_right ?_
    rintro ⟨decl, found, there⟩
    exact ⟨decl, by rwa [Analyzer.insertFinished, Table.find?_insert_of_ne _ _ ne], there⟩

/-- A function that waited is done after a check that began with taking it off the books. -/
theorem Proceeds.finish {key : FunctionKey} {fn : PendingFunction}
    {decl : FunctionDecl Stmt} (h : (before.erasePending key).Proceeds after)
    (waited : before.pending.find? key = some fn)
    (done : after.finished.find? key = some decl) (same : decl.bare = fn.decl) :
    before.Proceeds after := by
  have others {other : FunctionKey} (ne : key ≠ other) :
      (before.erasePending key).pending.find? other = before.pending.find? other := by
    rw [Analyzer.erasePending, Table.find?_erase, if_neg ne]
  -- taking one function off the books makes no other wait
  have begun {other : FunctionKey} (begun : before.Begun other) : after.Begun other := by
    refine h.advances.begun ⟨begun.1, ?_⟩
    rw [Analyzer.erasePending, Table.find?_erase]
    split
    · rfl
    · exact begun.2
  refine ⟨h.consistent, h.advances.knows, h.advances.declares, begun, ?_, ?_⟩
  · intro other src held
    by_cases eq : key = other
    · subst eq
      rcases held with ⟨waiting, found, there⟩ | ⟨before, found, there⟩
      · rw [waited] at found
        cases found
        exact .inr ⟨decl, done, same.trans there⟩
      · exact h.advances.holds (.inr ⟨before, found, there⟩)
    · refine h.advances.holds (held.imp_left ?_)
      rintro ⟨waiting, found, there⟩
      exact ⟨waiting, (others eq).trans found, there⟩
  · intro decl declared scheduled
    rcases scheduled with listed | all
    · exact h.advances.scheduled declared (.inl listed)
    · exact .inr fun method mem => begun (all method mem)

theorem Consistent.undefer (h : before.Consistent) (sname : String) :
    (before.undefer sname).Consistent :=
  ⟨{ h.typed with },
    h.orderly.pending, h.orderly.finished,
    fun mem => h.orderly.deferred (List.mem_filter.mp mem).1⟩

/-- None of the methods of a struct waits after a check that began with taking it off the list of
structs whose methods were put off. -/
theorem Proceeds.finishStruct {decl : StructDecl Stmt}
    (h : (before.undefer decl.name).Proceeds after) (declared : before.Declares decl)
    (all : after.AllBegun decl) : before.Proceeds after := by
  refine ⟨h.consistent, h.advances.knows, h.advances.declares, h.advances.begun, h.advances.holds, ?_⟩
  intro other known scheduled
  rcases scheduled with listed | begun
  · by_cases same : other.name = decl.name
    · -- a name belongs to one declaration
      obtain ⟨info, found, rfl⟩ := declared
      obtain ⟨info', found', rfl⟩ := known
      rw [same, found] at found'
      cases found'
      exact .inr all
    · exact h.advances.scheduled known (.inl (List.mem_filter.mpr ⟨listed, by simpa using same⟩))
  · exact .inr (h.advances.allBegun begun)

end Analyzer

end FlowScript
