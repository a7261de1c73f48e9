import FlowScript.Proofs.SpendingRules
/-!
# What statement lists spend

At the start of a list its functions and methods start to wait, under keys that are new.  At its end none
of them waits: each function and each struct was reached by then, and the structs that were put off are
checked last.  So a list, like an expression, leaves only what waited before it.
-/

namespace FlowScript

/-- Whether a declaration lets the function with a key wait. -/
def Check.Owns : Stmt × Declared → FunctionKey → Prop
  | (.function _, .function key), other => other = key
  | (.struct decl, .struct true), other => ∃ name, other = .method decl.name name
  | _, _ => False

namespace Analyzer

/-- Whether a struct is among those that there are. -/
def Lists (a : Analyzer) : Stmt × Check.Declared → Prop
  | (.struct decl, declared) =>
    declared = .struct true ∧ ∃ info, a.structs.find? decl.name = some info ∧ info.decl = decl
  | _ => True

/-- Only what some declarations own starts to wait. -/
structure LetsWait (pairs : List (Stmt × Check.Declared)) (before after : Analyzer) : Prop where
  waiting : ∀ key, after.pending.contains key = true →
    before.pending.contains key = true ∨ ∃ pair ∈ pairs, Check.Owns pair key
  deferred : after.deferred = before.deferred
  keys : before.KeepsKeys after

variable {before mid after : Analyzer} {pairs others : List (Stmt × Check.Declared)}

theorem Quiet.letsWait (h : before.Quiet after) : before.LetsWait pairs after :=
  ⟨fun _ waits => .inl (h.pending ▸ waits), h.deferred, h.keys⟩

theorem KeepsKeys.lists (h : before.KeepsKeys after) {pair : Stmt × Check.Declared}
    (lists : before.Lists pair) : after.Lists pair := by
  obtain ⟨s, declared⟩ := pair
  cases s with
  | struct decl =>
    obtain ⟨registered, info, found, same⟩ := lists
    obtain ⟨later, foundLater, kept, -⟩ := h.structs decl.name info found
    exact ⟨registered, later, foundLater, kept.trans same⟩
  | _ => trivial

namespace LetsWait

theorem trans (first : before.LetsWait pairs mid) (second : mid.LetsWait pairs after) :
    before.LetsWait pairs after := by
  refine ⟨fun key waits => ?_, second.deferred.trans first.deferred, first.keys.trans second.keys⟩
  rcases second.waiting key waits with waits | owned
  · exact first.waiting key waits
  · exact .inr owned

theorem mono (h : before.LetsWait pairs after) (subset : pairs ⊆ others) : before.LetsWait others after := by
  refine ⟨fun key waits => ?_, h.deferred, h.keys⟩
  exact (h.waiting key waits).imp_right fun ⟨pair, mem, owns⟩ => ⟨pair, subset mem, owns⟩

/-- A function starts to wait that a declaration owns. -/
theorem insert {a : Analyzer} {key : FunctionKey} (fn : PendingFunction)
    {pair : Stmt × Check.Declared} (owns : Check.Owns pair key) :
    a.LetsWait [pair] { a with pending := a.pending.insert key fn } := by
  refine ⟨fun other waits => ?_, rfl, .of_eq (Nat.le_refl _) rfl⟩
  rw [Table.contains_insert, Bool.or_eq_true, decide_eq_true_eq] at waits
  rcases waits with rfl | waits
  · exact .inr ⟨pair, List.mem_singleton_self pair, owns⟩
  · exact .inl waits

end LetsWait

end Analyzer

namespace Check.Hoisting

open Check.Accounts (get ite refused quiet quietThen quietly)

variable {p : Block Stmt → Bool} {plain : Prop} {levels : Nat} {start : Analyzer}

/-! ## Names of declarations -/

/-- A type name is free in a program without an error. -/
theorem typeNameFree (name : String) (pos : Position) :
    Accounts p plain levels 0 0
      (fun free after => free = true ∧ after = start ∧ start.structs.contains name = false) start
      (Check.typeNameFree name pos) (Check.typeNameFree name pos) := by
  refine get (ite (fun _ => ?_) fun free => ?_)
  · refine refused (.bind (.report _ _) fun _ _ => .pure _) fun _ res after accepted => ?_
    obtain ⟨_, _, reported, -⟩ := accepts_bind.mp accepted
    exact (accepts_report.mp reported).1 rfl
  · refine ⟨Nat.le_refl _, Nat.le_refl _, fun _ => ⟨nofun, rfl⟩, fun _ books res after accepted => ?_⟩
    obtain ⟨rfl, rfl⟩ := accepts_pure.mp accepted
    simp only [Bool.or_eq_true, not_or, Bool.not_eq_true] at free
    exact ⟨books, rfl, rfl, rfl, free.1.2⟩

/-- The name of a function gets a number that no name had before. -/
theorem declare (name : String) (ty : Ty) (kind : SymbolKind) (pos : Position) :
    Accounts p plain levels 0 0
      (fun ref after => start.Quiet after ∧ ref.id = start.symbols.size ∧
        after.symbols.size = start.symbols.size + 1) start
      (Check.declare name ty kind pos) (Check.declare name ty kind pos) := by
  have quiet : Still start (Check.declare name ty kind pos) := Obeys.declare name ty kind pos start
  refine ⟨Nat.le_of_eq (quiet.quiet.charge_eq p), Nat.le_of_eq quiet.quiet.work_eq,
    fun _ => ⟨quiet.shallow, rfl⟩, fun _ books res after accepted => ?_⟩
  obtain ⟨reports, run, -⟩ := accepted
  have quiet := quiet.quiet
  rw [run] at quiet
  refine ⟨quiet.books books, quiet.charge_eq p, quiet, ?_⟩
  cases found : (start.frame start.scope).symbols.find? name with
  | some taken =>
    rw [declare_of_taken ty kind pos found] at run
    cases run
    exact ⟨rfl, by simp [Analyzer.addName]⟩
  | none =>
    rw [declare_of_free ty kind pos found] at run
    cases run
    exact ⟨rfl, by simp [Analyzer.addName, Analyzer.bindName, Analyzer.modifyFrame]⟩

/-- A function starts to wait as soon as its name is declared, and a struct is known by then. -/
theorem declareName {s : Stmt} (given : plain → s.Plain) :
    Accounts p plain levels (tally p s.functionNodes) (2 * s.functionNodes.length)
      (fun declared after => start.LetsWait [(s, declared)] after ∧ after.Lists (s, declared)) start
      (Check.declareName s) (Check.declareName s) := by
  cases s with
  | function decl =>
    refine .assuming ((declare decl.name _ _ _).freeThen fun ref mid => ?_)
    refine .modifyThen 0 (Analyzer.charge_insert_le _ p mid _) (Analyzer.work_insert_le _ mid _) ?_
      (.pure ?_)
    · rintro ⟨⟨proper, before⟩, quiet, same, size⟩ books
      have new : mid.pending.contains (.function ref.id) = false := by
        rw [Bool.eq_false_iff, quiet.pending]
        intro waits
        have earlier : ref.id < start.symbols.size := before.known _ waits
        omega
      have known : mid.HasKey (.function ref.id) := Nat.lt_of_le_of_lt (Nat.le_of_eq same) (by omega)
      exact ⟨books.insert known (given proper), Analyzer.charge_insert _ p new⟩
    · rintro ⟨⟨-, quiet, -⟩, -⟩
      exact ⟨quiet.letsWait.trans (.insert _ rfl), trivial⟩
  | struct decl =>
    refine (typeNameFree decl.name decl.position).freeThen fun free mid => ite (fun _ => ?_) fun taken => ?_
    · refine .modifyThen 0 (Nat.le_refl _) (Nat.le_refl _) ?_ ?_
      · rintro ⟨-, -, rfl, new⟩ books
        have keys := Analyzer.KeepsKeys.insertStruct new { decl }
        exact ⟨⟨books.distinct, fun key waits => keys.hasKey (books.known key waits), books.plain⟩, rfl⟩
      · refine (quiet (.bindType _ _)).freeThen fun _ last =>
          (quiet (Obeys.declare _ _ _ _ _)).freeThen fun _ after => .pure ?_
        rintro ⟨⟨⟨⟨-, -, rfl, new⟩, -⟩, first⟩, second⟩
        have later := first.trans second
        have keys := (Analyzer.KeepsKeys.insertStruct new { decl }).trans later.keys
        obtain ⟨info, found, same, -⟩ := later.keys.structs decl.name { decl } (by simp)
        exact ⟨⟨fun _ waits => .inl (later.pending ▸ waits), later.deferred, keys⟩, rfl, info, found, same⟩
    · exact refused (.pure _) fun both => absurd both.2.1 taken
  | trait decl =>
    refine .still ?_ fun _ _ quiet => ⟨quiet.letsWait, trivial⟩
    refine .bind (.get (.ite (fun _ => .bind (.report _ _) fun _ _ => .pure _) fun _ => .pure _)) ?_
    refine fun _ mid => .ite (fun _ => .bind (.modify ?_) fun _ _ => ?_) fun _ => .pure _
    · exact .of_eq rfl rfl rfl (Nat.le_refl _) rfl
    · exact .bind (.bindType _ _) fun _ _ => .pure _
  | _ => exact .still (.pure _) fun _ _ quiet => ⟨quiet.letsWait, trivial⟩

/-- The functions of a list start to wait. -/
theorem declareNames {stmts : List Stmt} (given : plain → ∀ s ∈ stmts, s.Plain) :
    Accounts p plain levels (tally p (stmts.flatMap Stmt.functionNodes))
      (2 * (stmts.flatMap Stmt.functionNodes).length)
      (fun declared after => start.LetsWait declared after ∧ ∀ pair ∈ declared, after.Lists pair) start
      (stmts.mapM fun s => do return (s, ← Check.declareName s))
      (stmts.mapM fun s => do return (s, ← Check.declareName s)) := by
  induction stmts generalizing start plain with
  | nil => exact .pure fun _ => ⟨Analyzer.Quiet.letsWait (.refl start), nofun⟩
  | cons s rest ih =>
    rw [List.mapM_cons, List.flatMap_cons, tally_append, List.length_append, Nat.mul_add]
    have first : Accounts p plain levels (tally p s.functionNodes) (2 * s.functionNodes.length)
        (fun pair after => start.LetsWait [pair] after ∧ after.Lists pair) start
        (do return (s, ← Check.declareName s)) (do return (s, ← Check.declareName s)) := by
      refine (declareName fun proper => given proper s List.mem_cons_self).thenFree fun _ _ => ?_
      exact .pure And.right
    refine first.bind fun pair mid => (ih ?_).bind fun pairs after => .pure ?_
    · exact fun both other mem => given both.1 other (List.mem_cons_of_mem s mem)
    · rintro ⟨⟨-, head, listed⟩, tail, others⟩
      refine ⟨(head.mono ?_).trans (tail.mono ?_), List.forall_mem_cons.mpr ⟨tail.keys.lists listed, others⟩⟩
      · exact List.cons_subset_cons pair (List.nil_subset pairs)
      · exact List.subset_cons_self pair pairs

/-! ## Types of declarations -/

/-- A method starts to wait as soon as its type is resolved. -/
theorem resolveMethod {decl : StructDecl Stmt} {method : FunctionDecl Stmt}
    (given : plain → start.Lists (.struct decl, .struct true) ∧ method ∈ decl.methods ∧
      (Stmt.function method).Plain) :
    Accounts p plain levels (tally p (Stmt.function method).nodes)
      (2 * (Stmt.function method).nodes.length)
      (fun _ after => start.LetsWait [(.struct decl, .struct true)] after) start
      (Check.resolveMethod decl method) (Check.resolveMethod decl method) := by
  refine .assuming (get (ite (fun _ => refused (.report _ _) ?_) fun free => ?_))
  · exact fun _ _ _ accepted => (accepts_report.mp accepted).1 rfl
  let key := FunctionKey.method decl.name method.name
  -- what waits for a struct is one of its methods, so a new method does not wait
  have new (books : start.Books) : start.pending.contains key = false := by
    rw [Bool.eq_false_iff]
    intro waits
    obtain ⟨info, found, listed, -⟩ := books.known key waits
    rw [found] at free
    simp [listed] at free
  -- resolving types leaves the books, so the method is still new after it
  have waits (sig : Ty) (mid : Analyzer) :
      Accounts p ((plain ∧ start.Books) ∧ start.Quiet mid) levels
        (tally p (Stmt.function method).nodes) (2 * (Stmt.function method).nodes.length)
        (fun _ after => start.LetsWait [(.struct decl, .struct true)] after) mid
        (modify fun a => a.letMethodWait decl.name method sig)
        (modify fun a => a.letMethodWait decl.name method sig) := by
    have changed : mid.Quiet (mid.modifyStruct decl.name fun info =>
        { info with methods := info.methods.insert method.name sig }) :=
      .modifyStruct mid decl.name (fun _ => rfl) fun _ _ => Table.contains_insert_of_contains _ _
    refine .modify ?_ ?_ ?_
    · rw [← changed.charge_eq p]
      exact Analyzer.charge_insert_le _ p _ key
    · rw [← changed.work_eq]
      exact Analyzer.work_insert_le _ _ key
    · rintro ⟨⟨proper, before⟩, quiet⟩ books
      obtain ⟨lists, mem, method⟩ := given proper
      obtain ⟨-, info, found, same⟩ := quiet.keys.lists lists
      rw [← changed.charge_eq p]
      refine ⟨(changed.books books).insert ?_ method, Analyzer.charge_insert _ p ?_, ?_⟩
      · refine ⟨{ info with methods := info.methods.insert _ sig }, ?_,
          Table.contains_insert_self _ _ _, _, same ▸ mem, rfl⟩
        rw [Analyzer.find?_modifyStruct, if_pos rfl, found]
        rfl
      · rw [changed.pending, quiet.pending]
        exact new before
      · exact (quiet.trans changed).letsWait.trans (.insert _ ⟨_, rfl⟩)
  have resolved (res : Option TypeExpr) (missing : Ty) (mid : Analyzer) :
      Accounts p ((plain ∧ start.Books) ∧ start.Quiet mid) levels
        (tally p (Stmt.function method).nodes) (2 * (Stmt.function method).nodes.length)
        (fun _ after => start.LetsWait [(.struct decl, .struct true)] after) mid
        (do
          let sig ← Check.resolveSignature method.params res missing
          modify fun a => a.letMethodWait decl.name method sig)
        (do
          let sig ← Check.resolveSignature method.params res missing
          modify fun a => a.letMethodWait decl.name method sig) :=
    quietThen (Obeys.steps.resolveSignature _ _ _ _) waits
  -- a constructor gives `nil`, and a result that is written for it is reported
  refine quietly (ite (fun _ => ?_) fun _ => resolved _ _ start)
  cases method.result with
  | some written => exact quietThen (.report _ _) fun _ mid => resolved none .nil mid
  | none => exact resolved none .nil start

/-- Each method that is declared is paid for by its own nodes. -/
theorem resolveMethods {decl : StructDecl Stmt} {methods : List (FunctionDecl Stmt)}
    (given : plain → start.Lists (.struct decl, .struct true) ∧ ∀ method ∈ methods,
      method ∈ decl.methods ∧ (Stmt.function method).Plain) :
    Accounts p plain levels (tally p (Stmt.nodesOfMethods methods))
      (2 * (Stmt.nodesOfMethods methods).length)
      (fun _ after => start.LetsWait [(.struct decl, .struct true)] after) start
      (methods.forM (Check.resolveMethod decl)) (methods.forM (Check.resolveMethod decl)) := by
  induction methods generalizing start plain with
  | nil => exact .pure fun _ => Analyzer.Quiet.letsWait (.refl start)
  | cons method rest ih =>
    rw [nodesOfMethods_cons, tally_append, List.length_append, Nat.mul_add]
    have first := fun proper => ((given proper).2 method List.mem_cons_self)
    refine (resolveMethod fun proper => ⟨(given proper).1, first proper⟩).bind fun _ mid =>
      (ih ?_).weaken fun both _ _ later => both.2.trans later
    rintro ⟨proper, earlier⟩
    exact ⟨earlier.keys.lists (given proper).1, fun other mem =>
      (given proper).2 other (List.mem_cons_of_mem method mem)⟩

/-- The methods of a struct start to wait when what it declares is resolved. -/
theorem resolveDeclared {pair : Stmt × Declared} (given : plain → start.Lists pair ∧ pair.1.Plain) :
    Accounts p plain levels (tally p pair.1.methodNodes) (2 * pair.1.methodNodes.length)
      (fun _ after => start.LetsWait [pair] after) start
      (Check.resolveDeclared pair) (Check.resolveDeclared pair) := by
  obtain ⟨s, declared⟩ := pair
  cases s with
  | struct decl =>
    by_cases registered : declared = .struct true
    · subst registered
      have methods := fun proper => (Stmt.each_struct.mp (given proper).2).2.2
      refine (quiet (Obeys.steps.forM _ (fun field _ _ => Still.resolveField decl field) _)).freeThen fun _ mid => ?_
      refine (quiet (Obeys.steps.forM _ (fun ref _ _ => Still.resolveTraitRef decl ref) _)).freeThen fun _ last => ?_
      refine (resolveMethods ?_).weaken ?_
      · rintro ⟨⟨proper, first⟩, second⟩
        exact ⟨(first.trans second).keys.lists (given proper).1, fun method mem =>
          ⟨mem, methods proper method mem⟩⟩
      · rintro ⟨⟨-, first⟩, second⟩ _ after later
        exact (first.trans second).letsWait.trans later
    · -- nothing is resolved of a struct whose name was refused
      have nothing : Check.resolveDeclared (.struct decl, declared) = Pure.pure () := by
        unfold Check.resolveDeclared
        split <;> simp_all
      rw [nothing]
      exact refused (.pure ()) fun proper => absurd (given proper).1.1 registered
  | function decl =>
    refine .still ?_ fun _ _ quiet => quiet.letsWait
    unfold Check.resolveDeclared
    split
    · rename_i same
      cases same
    · rename_i same
      cases same
    · refine .get (.bind (Obeys.demand _ _ _) fun _ mid => .bind (Obeys.steps.resolveSignature _ _ _ _) fun _ last => ?_)
      exact .modify (.of_eq rfl rfl rfl (by simp [Analyzer.modifySymbol]) rfl)
    · exact .pure ()
  | trait decl =>
    refine .still ?_ fun _ _ quiet => quiet.letsWait
    unfold Check.resolveDeclared
    split
    · exact .resolveTrait _
    · rename_i same
      cases same
    · rename_i same
      cases same
    · exact .pure ()
  | _ => exact .still (.pure ()) fun _ _ quiet => quiet.letsWait

/-- All declarations of a list are resolved for what their methods cost. -/
theorem resolveAll {declared : List (Stmt × Declared)}
    (given : plain → ∀ pair ∈ declared, start.Lists pair ∧ pair.1.Plain) :
    Accounts p plain levels (tally p ((declared.map Prod.fst).flatMap Stmt.methodNodes))
      (2 * ((declared.map Prod.fst).flatMap Stmt.methodNodes).length)
      (fun _ after => start.LetsWait declared after) start
      (declared.forM Check.resolveDeclared) (declared.forM Check.resolveDeclared) := by
  induction declared generalizing start plain with
  | nil => exact .pure fun _ => Analyzer.Quiet.letsWait (.refl start)
  | cons pair rest ih =>
    rw [List.map_cons, List.flatMap_cons, tally_append, List.length_append, Nat.mul_add]
    refine (resolveDeclared fun proper => given proper pair List.mem_cons_self).bind fun _ mid =>
      (ih ?_).weaken ?_
    · rintro ⟨proper, earlier⟩ other mem
      obtain ⟨lists, plain⟩ := given proper other (List.mem_cons_of_mem pair mem)
      exact ⟨earlier.keys.lists lists, plain⟩
    · rintro ⟨-, earlier⟩ _ after later
      refine (earlier.mono ?_).trans (later.mono (List.subset_cons_self pair rest))
      exact List.cons_subset_cons pair (List.nil_subset rest)

/-- The functions and the methods of a list start to wait. -/
theorem hoist {stmts : List Stmt} (given : plain → ∀ s ∈ stmts, s.Plain) :
    Accounts p plain levels
      (tally p (stmts.flatMap Stmt.functionNodes) + tally p (stmts.flatMap Stmt.methodNodes))
      (2 * (stmts.flatMap Stmt.functionNodes).length +
        2 * (stmts.flatMap Stmt.methodNodes).length)
      (fun declared after => start.LetsWait declared after) start
      (Check.hoist stmts) (Check.hoist stmts) := by
  have declares (s : Stmt) : Yields (fun pair => pair.1 = s) (do return (s, ← Check.declareName s)) :=
    .andThen fun _ => .pure rfl
  refine .bind_yields (.mapM declares stmts) (declareNames given) fun declared same mid => ?_
  rw [← same]
  refine (resolveAll ?_).thenFree fun _ after => .pure fun both => both.1.2.1.trans both.2
  rintro ⟨proper, -, lists⟩ pair mem
  refine ⟨lists pair mem, given proper pair.1 ?_⟩
  rw [← same]
  exact List.mem_map_of_mem mem

end Check.Hoisting

namespace Checks.Spending

open Check.Accounts (get ite quietThen quietly)
open Check.Spends

variable {p : Block Stmt → Bool} {plain : Prop} {levels : Nat} {checks others : Checks}
  {start : Analyzer}

/-! ## Statement lists -/

variable (h : checks.Spending p levels others)

include h

theorem checkNext (progress : Progress) {next : Stmt × Check.Declared} (given : plain → next.1.Plain) :
    Check.Accounts p plain levels (tally p next.1.placedNodes) (2 * next.1.placedNodes.length)
      (fun _ after => start.Drains after ∧ after.Done next) start
      (checks.checkNext progress next) (others.checkNext progress next) := by
  have arrives : Check.Still start (arriveAt progress next.1) :=
    Check.Obeys.steps.arriveAt (fun _ _ => Check.Still.modify (.of_eq rfl rfl rfl (Nat.le_refl _) rfl))
      progress next.1 start
  refine quietly (quietThen arrives fun _ mid => ?_)
  have checked := h.checkStatement (fun both : plain ∧ start.Quiet mid => given both.1) next.2 mid
  refine (checked.within rfl (by omega)).thenFree fun _ after => .pure ?_
  rintro ⟨⟨-, quiet⟩, drains, done⟩
  exact ⟨quiet.drains.trans drains, done⟩

/-- The statements of a list pay one after another. -/
theorem checkEach {declared : List (Stmt × Check.Declared)}
    (given : plain → ∀ pair ∈ declared, pair.1.Plain) (progress : Progress) :
    Check.Accounts p plain levels (tally p ((declared.map Prod.fst).flatMap Stmt.placedNodes))
      (2 * ((declared.map Prod.fst).flatMap Stmt.placedNodes).length)
      (fun _ after => start.Drains after ∧ ∀ pair ∈ declared, after.Done pair) start
      (declared.foldlM checks.checkNext progress) (declared.foldlM others.checkNext progress) := by
  induction declared generalizing start plain progress with
  | nil => exact .pure fun _ => ⟨.refl start, nofun⟩
  | cons next rest ih =>
    rw [List.foldlM_cons, List.foldlM_cons, List.map_cons, List.flatMap_cons, tally_append,
      List.length_append, Nat.mul_add]
    refine (h.checkNext progress fun proper => given proper next List.mem_cons_self).bind
      fun progress mid => (ih ?_ progress).weaken ?_
    · exact fun both other mem => given both.1 other (List.mem_cons_of_mem next mem)
    · rintro ⟨-, drains, done⟩ _ after ⟨later, remaining⟩
      exact ⟨drains.trans later, List.forall_mem_cons.mpr ⟨later.done done, remaining⟩⟩

/-- At the end of a list a struct that was put off is checked, and so what was reached does not wait any
more. -/
theorem finishPutOff {pair : Stmt × Check.Declared} (given : plain → start.Done pair) :
    Check.Accounts p plain levels 0 0
      (fun _ after => start.Drains after ∧ ∀ key, Check.Owns pair key →
        after.pending.contains key = false) start
      (checks.finishPutOff pair) (others.finishPutOff pair) := by
  obtain ⟨s, declared⟩ := pair
  cases s with
  | struct decl =>
    cases declared with
    | struct registered =>
      cases registered with
      | true =>
        refine get (ite (fun _ => (h.finishStruct decl.name start).weaken ?_) fun checked => .pure ?_)
        · rintro - _ after ⟨drains, clear⟩
          refine ⟨drains, ?_⟩
          rintro _ ⟨name, rfl⟩
          exact clear name
        · intro proper
          refine ⟨.refl start, ?_⟩
          rintro _ ⟨name, rfl⟩
          exact (given proper).resolve_left (by simpa using checked) name
      | false => exact .pure fun _ => ⟨.refl start, nofun⟩
    | _ => exact .pure fun _ => ⟨.refl start, nofun⟩
  | function decl =>
    cases declared with
    | function key => exact .pure fun proper => ⟨.refl start, fun _ owns => owns ▸ given proper⟩
    | _ => exact .pure fun _ => ⟨.refl start, nofun⟩
  | _ => exact .pure fun _ => ⟨.refl start, nofun⟩

/-- At the end of a list nothing that it declares waits. -/
theorem finishAllPutOff
    {declared : List (Stmt × Check.Declared)} (given : plain → ∀ pair ∈ declared, start.Done pair) :
    Check.Accounts p plain levels 0 0
      (fun _ after => start.Drains after ∧ ∀ pair ∈ declared, ∀ key, Check.Owns pair key →
        after.pending.contains key = false) start
      (declared.forM checks.finishPutOff) (declared.forM others.finishPutOff) := by
  induction declared generalizing start plain with
  | nil => exact .pure fun _ => ⟨.refl start, nofun⟩
  | cons pair rest ih =>
    refine (h.finishPutOff fun proper => given proper pair List.mem_cons_self).freeThen fun _ mid =>
      (ih ?_).weaken ?_
    · rintro ⟨proper, drains, -⟩ other mem
      exact drains.done (given proper other (List.mem_cons_of_mem pair mem))
    · rintro ⟨-, drains, none⟩ _ after ⟨later, remaining⟩
      refine ⟨drains.trans later, List.forall_mem_cons.mpr ⟨fun key owns => ?_, remaining⟩⟩
      exact later.not_waiting (none key owns)

/-- A list spends what its nodes have, and after it only what waited before it waits. -/
theorem checkStatements {stmts : List Stmt} (given : plain → Stmt.EachOf Node.Plain stmts) :
    Check.Spends p plain levels (tally p (Stmt.nodesOfList stmts))
      (2 * (Stmt.nodesOfList stmts).length) start (checks.checkStatements stmts)
      (others.checkStatements stmts) := by
  have parts := fun proper => Stmt.eachOf_iff.mp (given proper)
  have length := Stmt.length_nodesOfList stmts
  have spends : Check.Spends p plain levels
      (tally p (stmts.flatMap Stmt.functionNodes) + tally p (stmts.flatMap Stmt.methodNodes) +
        tally p (stmts.flatMap Stmt.placedNodes))
      (2 * (stmts.flatMap Stmt.functionNodes).length +
          2 * (stmts.flatMap Stmt.methodNodes).length +
        2 * (stmts.flatMap Stmt.placedNodes).length) start
      (checks.checkStatements stmts) (others.checkStatements stmts) := by
    refine .bind_yields (Weighing.hoist stmts) (Check.Hoisting.hoist parts)
      fun declared same mid => ?_
    subst same
    have members (proper : plain) (pair) (mem : pair ∈ declared) : pair.1.Plain :=
      parts proper pair.1 (List.mem_map_of_mem mem)
    refine (h.checkEach (fun both => members both.1) {}).thenFree fun progress last => ?_
    refine (h.finishAllPutOff ?_).thenFree fun _ after => get (.pure ?_)
    · exact fun given => given.2.2
    · rintro ⟨⟨⟨-, hoisted⟩, drains, -⟩, later, none⟩
      have drains := drains.trans later
      constructor
      · intro key waits
        refine (hoisted.waiting key (drains.waiting key waits)).resolve_right ?_
        rintro ⟨pair, mem, owns⟩
        rw [none pair mem key owns] at waits
        cases waits
      · intro sname mem
        exact drains.deferred sname (hoisted.deferred ▸ mem)
  rw [Stmt.tally_nodesOfList]
  exact spends.within (by omega) (by omega)

end Checks.Spending

end FlowScript
