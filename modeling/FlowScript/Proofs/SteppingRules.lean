import FlowScript.Proofs.RunningStatements
/-!
# Checking statements without functions

One rule for each kind of statement that has no function in it: if checking one level further in shows of
its parts what `Checks.Stepping` says, then as much is shown of the statement.  For a loop this rests on what
is forgotten before its body is checked, for a conditional on what is known where its branches meet, and for a
declaration on the name being new in the innermost frame.

Main statement: `Checks.stepping`, that it is shown however many levels are left.
-/

namespace FlowScript

open Check (Ensures)

/-! ## Declarations -/

namespace Check.Ensures

variable {start : Analyzer}

/-- A name is declared if it is free. -/
theorem declare (regular : start.Regular) (name : String) {ty : Ty} {kind : SymbolKind}
    (pos : Position) (canonical : ty.Canonical) (known : kind.isMutable = false → ty ≠ .unknown)
    (ordinary : kind ≠ .function ∧ kind ≠ .struct) :
    Ensures start (Check.declare name ty kind pos) fun ref after => ref = start.fresh name ∧
      start.Introduces name after ∧ (after.symbolAt start.symbols.size).ty = ty ∧
      (after.symbolAt start.symbols.size).initializing = false := by
  rintro ref after ⟨reports, run, silent⟩
  cases found : (start.frame start.scope).symbols.find? name with
  | some taken =>
    rw [declare_of_taken ty kind pos found] at run
    cases run
    exact absurd rfl (silent _ (List.mem_singleton_self _))
  | none =>
    rw [declare_of_free ty kind pos found] at run
    cases run
    refine ⟨rfl, regular.introduces pos found canonical known ordinary, ?_, ?_⟩
    all_goals rw [Analyzer.symbolAt_bindName, Analyzer.symbolAt_addName_self]

theorem resolveWritten (regular : start.Regular) (written : Option TypeExpr) :
    Ensures start (Checks.resolveWritten written) fun declared after => after = start ∧
      ∀ ty ∈ declared, ty.Determined := by
  cases written with
  | none => exact .pure ⟨rfl, by rintro _ ⟨⟩⟩
  | some written =>
    rintro declared after accepted
    obtain ⟨ty, resolved, rfl⟩ := accepts_map.mp accepted
    obtain ⟨-, rfl, determined⟩ := Leads.resolveType regular.consistent written ty after resolved
    refine ⟨rfl, ?_⟩
    rintro _ ⟨⟩
    exact determined

/-- Nothing is done for any item of a list. -/
theorem forM_idle {ι : Type} {f : ι → Check Unit} {items : List ι} (idle : ∀ item ∈ items, f item = Pure.pure ()) :
    Ensures start (items.forM f) fun _ after => after = start := by
  induction items with
  | nil => exact .pure rfl
  | cons item rest ih =>
    rw [List.forM_eq_forM, List.forM_cons, idle item List.mem_cons_self, pure_bind]
    exact ih fun other mem => idle other (List.mem_cons_of_mem _ mem)

/-- No name is declared for a whole list without functions and structs. -/
theorem hoist {stmts : List Stmt} (simple : allFirstOrder stmts = true) :
    Ensures start (Check.hoist stmts) fun declared after =>
      declared = stmts.map (·, .nothing) ∧ after = start := by
  have names : Ensures start
      (stmts.mapM fun stmt => return (stmt, ← declareName stmt)) fun declared after =>
        declared = stmts.map (·, .nothing) ∧ after = start := by
    induction stmts with
    | nil => exact .pure ⟨rfl, rfl⟩
    | cons s rest ih =>
      obtain ⟨first, others⟩ := Bool.and_eq_true_iff.mp simple
      have idle : declareName s = Pure.pure .nothing := by
        cases s <;> first | rfl | cases first
      rw [List.mapM_cons, idle, pure_bind, pure_bind]
      refine .bind (ih others) ?_
      rintro _ _ ⟨rfl, rfl⟩
      exact .pure ⟨rfl, rfl⟩
  refine .bind names ?_
  rintro _ _ ⟨rfl, rfl⟩
  refine .bind (.forM_idle fun pair mem => ?_) ?_
  · obtain ⟨s, -, rfl⟩ := List.mem_map.mp mem
    cases s <;> rfl
  rintro _ _ rfl
  exact .pure ⟨rfl, rfl⟩

end Check.Ensures

theorem Checks.complete_nothing (a : Analyzer) (s : Stmt) : complete a (s, .nothing) = s := by
  cases s <;> rfl

namespace Analyzer

variable {start mid after later : Analyzer} {name : String}

/-- Where no names are declared they might have been. -/
theorem Evolves.declaring (h : start.Evolves false after) : start.Evolves true after :=
  ⟨h.wellFormed, h.site, { h.grows with frame := fun id old _ => h.grows.frame id old (by rintro ⟨⟩) }⟩

/-- A state is refined by what another is refined by, if their names differ in a type that is not known. -/
theorem Refines.of_types (h : after.Refines later) (count : mid.symbols.size = after.symbols.size)
    (types : ∀ id, (mid.symbolAt id).ty = .unknown ∨ (after.symbolAt id).ty = (mid.symbolAt id).ty) :
    mid.Refines later := by
  intro id old
  rcases types id with unknown | same
  · exact .inl unknown
  · rw [← same]
    exact h id (count ▸ old)

end Analyzer

namespace Stmt.Steps

variable {start after : Analyzer} {name : String}

/-- A variable with an initial value. -/
theorem varDecl {value : Expr} (introduced : start.Introduces name after) (regular : start.Regular)
    (operates : value.Each Node.Operates)
    (sound : ∀ run : Run, after.Refines run.later → ∀ levels env memory machine,
      run.Agrees start env memory machine.heap →
      Run.Meets ((run.evaluator levels).expr env value) machine fun v reached =>
        reached = machine ∧ v.Is (after.symbolAt start.symbols.size).ty)
    (pos : Position) (written : Option TypeExpr) (resolved : Analyzer → Option Ty)
    (names : List String) :
    Steps (fun last => .varDecl pos name written (some value) (resolved last)) false start names
      after := by
  refine .of_rule (by rintro _ _ _ ⟨⟩) (fun _ => each_varDecl.mpr ⟨trivial, ?_⟩) (fun _ _ => rfl)
    fun run last evolves refines => ?_
  · rintro _ ⟨⟩
    exact operates
  · have refines := refines.of_evolves evolves (introduced.regular regular)
    intro levels env memory machine agrees
    refine .bind (sound run refines levels env memory machine agrees) ?_
    rintro v machine ⟨rfl, is⟩
    have count := introduced.count
    have own : v.Is (run.later.symbol (start.fresh name)).ty := by
      rcases refines start.symbols.size (by omega) with unknown | same
      · exact absurd unknown is.ne_unknown
      · exact same ▸ is
    refine (introduced.define regular agrees (some v) own names).mono ?_
    exact fun _ _ arrives => ⟨rfl, arrives⟩

/-- A variable without an initial value is `nil` if its type allows that, and else has no value. -/
theorem varDecl_empty (introduced : start.Introduces name after) (regular : start.Regular)
    (unassigned : (after.symbolAt start.symbols.size).ty.isNilable = true ∨
      start.fresh name ∈ after.flow.unassigned)
    (pos : Position) (written : Option TypeExpr) (names : List String) :
    Steps (fun last => .varDecl pos name written none (some (last.symbol (start.fresh name)).ty)) false
      start names after := by
  refine .of_rule (by rintro _ _ _ ⟨⟩) (fun _ => each_varDecl.mpr ⟨trivial, by rintro _ ⟨⟩⟩)
    (fun _ _ => rfl) fun run last evolves refines => ?_
  intro levels env memory machine agrees
  have new : start.symbols.size < after.symbols.size := by
    have count := introduced.count
    omega
  have old := Nat.lt_of_lt_of_le new evolves.grows.nameCount
  -- what the variable is bound to depends on the type that is noted for it in the end
  have defined : Run.Meets (Eval.define env name
      (if (last.symbol (start.fresh name)).ty.isNilable then some .nil else none)) machine fun _ reached =>
        run.Arrives start names after env memory reached.heap := by
    cases nilable : (last.symbol (start.fresh name)).ty.isNilable with
    | true =>
      refine introduced.define regular agrees (some .nil) (.nil ?_) names
      rcases refines start.symbols.size old with unknown | same
      · exact absurd ((congrArg Ty.isNilable unknown).symm.trans nilable) Bool.false_ne_true
      · exact same ▸ nilable
    | false =>
      refine introduced.define regular agrees none (unassigned.resolve_left fun written => ?_) names
      have same : last.Refines last := fun _ _ => .inr rfl
      rcases same.of_evolves evolves (introduced.regular regular) start.symbols.size new
        with unknown | same
      · exact absurd ((congrArg Ty.isNilable unknown).symm.trans written) Bool.false_ne_true
      · exact absurd (nilable.symm.trans (same ▸ written)) Bool.false_ne_true
  exact defined.mono fun _ _ arrives => ⟨rfl, arrives⟩

end Stmt.Steps

namespace Checks.Stepping

variable {checks : Checks} {start : Analyzer}

variable (h : checks.Stepping)

include h

/-- The initial value of a new variable. -/
theorem checkInitial {mid : Analyzer} {name : String} {declared : Option Ty}
    {value : Expr} (regular : start.Regular) (introduced : start.Introduces name mid)
    (typed : (mid.symbolAt start.symbols.size).ty = declared.getD .unknown)
    (determined : ∀ ty ∈ declared, ty.Determined) (isPure : value.isPure = true) (plain : value.Plain) :
    Ensures mid (checks.checkInitial (start.fresh name) declared value) fun value after =>
      start.Introduces name after ∧ (after.symbolAt start.symbols.size).initializing = false ∧
      value.Each Node.Operates ∧
      ∀ run : Run, after.Refines run.later → ∀ levels env memory machine,
        run.Agrees start env memory machine.heap →
        Run.Meets ((run.evaluator levels).expr env value) machine fun v reached =>
          reached = machine ∧ v.Is (after.symbolAt start.symbols.size).ty := by
  -- the variable is marked as long as its initial value is checked
  have marked := introduced.mark true
  have own : ((mid.mark start.symbols.size true).symbolAt start.symbols.size).initializing = true := by
    rw [Analyzer.mark, introduced.symbolAt_modify]
  have last := marked.mark false
  have inner : Ensures (mid.mark start.symbols.size true)
      (Check.ensuring (fun a => a.mark start.symbols.size false) (checks.expr value))
      fun checked after => after = (mid.mark start.symbols.size true).mark start.symbols.size false ∧
        checked.Checked ∧ checked.Told (mid.mark start.symbols.size true) {} := by
    refine .ensuring (h.expr isPure plain (marked.regular regular)) ?_
    rintro checked _ ⟨rfl, told⟩
    exact ⟨rfl, told⟩
  refine .modifyThen (.bind inner ?_)
  rintro e _ ⟨rfl, checked, told⟩
  -- at run time the expression leaves the machine, and its value is of whatever type it flows into
  have evaluates {wide : Expr} {target : Ty} (sound : wide.Sound (mid.mark start.symbols.size true) {})
      (noted : wide.ty = some wide.checkedTy)
      (flows : ∀ (v : Value) (src : Ty), wide.valueTy? = some src → v.Is src → v.Is target)
      (run : Run) (refines : (mid.mark start.symbols.size true).Refines run.later) (levels : Nat)
      (env : Environment) (memory : Memory) (machine : Machine)
      (agrees : run.Agrees start env memory machine.heap) :
      Run.Meets ((run.evaluator levels).expr env wide) machine fun v reached =>
        reached = machine ∧ v.Is target := by
    refine (sound.eval noted refines (marked.agrees_initializing regular agrees own)).mono ?_
    rintro v _ ⟨rfl, src, valueTy, is⟩
    exact ⟨rfl, flows v src valueTy is⟩
  cases declared with
  | some target =>
    -- the value may be widened on its way into the written type
    refine (Ensures.flowInto rfl checked told.plain (determined target rfl).1).mono ?_
    rintro wide _ ⟨rfl, same, flows⟩
    have sound : wide.Sound (mid.mark start.symbols.size true) {} ∧ wide.Each Node.Operates ∧
        wide.ty = some wide.checkedTy := by
      rcases same with rfl | rfl
      · exact ⟨told.sound, told.operates, checked.ty_eq⟩
      · refine ⟨told.sound.withWiden true,
          told.operates.withNote ((Expr.operates_withWiden true e).mpr told.operates.own), ?_⟩
        rw [Expr.checkedTy, Expr.ty_withWiden, checked.ty_eq]
        rfl
    refine ⟨last, ?_, sound.2.1, fun run refines => ?_⟩
    · rw [Analyzer.mark, marked.symbolAt_modify]
    · rw [Analyzer.ty_symbolAt_mark, Analyzer.ty_symbolAt_mark, typed]
      exact evaluates sound.1 sound.2.2 flows run (refines.of_types (by simp) fun id => .inr (by simp))
  | none =>
    -- the variable takes the type of the value, and had none before
    refine .modifyThen (.pure ⟨last.retype checked.determined, ?_, told.operates, fun run refines => ?_⟩)
    all_goals
      have number : (start.fresh name).id = start.symbols.size := rfl
      rw [number]
    · rw [last.symbolAt_modify, Analyzer.mark, marked.symbolAt_modify]
    · rw [last.symbolAt_modify]
      refine evaluates told.sound checked.ty_eq ?_ run (refines.of_types ?_ fun id => ?_)
      · intro v src valueTy is
        rw [Expr.valueTy?, told.plain, checked.ty_eq] at valueTy
        cases valueTy
        exact is
      · simp [Analyzer.modifySymbol]
      · rw [Analyzer.symbolAt_modifySymbol]
        split
        · rename_i same
          rw [← same.1, Analyzer.ty_symbolAt_mark]
          exact .inl typed
        · exact .inr (by simp)

/-- A checked declaration binds a value of the type that is noted. -/
theorem checkVarDecl {name : String} {value : Option Expr}
    (isPure : value.all Expr.isPure = true) (plain : ∀ e ∈ value, e.Plain) (steady : start.Steady)
    (pos : Position) (written : Option TypeExpr) :
    Ensures start (checks.checkVarDecl pos name written value) fun checked after =>
      (after.Steady ∧ start.Evolves true after) ∧
        Stmt.Steps (fun last => complete last checked) false start [] after := by
  refine .bind (.resolveWritten steady.toRegular written) ?_
  rintro declared _ ⟨rfl, determined⟩
  have canonical : (declared.getD .unknown).Canonical := by
    cases declared with
    | none => rfl
    | some ty => exact (determined ty rfl).1
  refine .bind (.declare steady.toRegular name pos canonical (by rintro ⟨⟩) ⟨by rintro ⟨⟩, by rintro ⟨⟩⟩) ?_
  rintro _ mid ⟨rfl, introduced, typed, ready⟩
  cases value with
  | some value =>
    refine .bind (h.checkInitial steady.toRegular introduced typed determined isPure (plain value rfl)) ?_
    rintro value after ⟨introduced, ready, operates, sound⟩
    refine .pure ⟨⟨introduced.steady steady ready, introduced.evolves⟩, ?_⟩
    exact .varDecl introduced steady.toRegular operates sound pos written _ []
  | none =>
    refine .ite (fun _ => .modifyThen (.pure ?_)) fun nilable => .pure ?_
    · have unassigned := introduced.unassign
      refine ⟨⟨unassigned.steady steady ready, unassigned.evolves⟩, ?_⟩
      exact .varDecl_empty unassigned steady.toRegular (.inr List.mem_cons_self) pos written []
    · refine ⟨⟨introduced.steady steady ready, introduced.evolves⟩, ?_⟩
      refine .varDecl_empty introduced steady.toRegular (.inl ?_) pos written []
      rw [typed]
      cases declared with
      | none => exact absurd rfl nilable
      | some ty => simpa using nilable

/-! ## Conditionals -/

/-- The alternative of a conditional, or none. -/
theorem checkAlternative {alt : Option Stmt} {names : List String}
    (simple : ∀ s ∈ alt, s.isFirstOrder = true)
    (plain : ∀ s ∈ alt, s.Plain ∧ s.isAlternative = true)
    (assigned : ∀ s ∈ alt, s.assignedNames ⊆ names) (steady : start.Steady) :
    Ensures start (checks.checkAlternative alt) fun checked after =>
      (∀ s ∈ checked.1, s.Each Node.Operates) ∧
        Part (fun _ evaluator env => checked.1.elim (pure ()) (evaluator.statement env))
          checked.2 start names after := by
  cases alt with
  | none =>
    refine .pure ⟨by rintro _ ⟨⟩, steady, .refl steady.wellFormed, fun run _ => ?_⟩
    exact .skip run start names
  | some other =>
    refine .bind (h.statement (simple other rfl) (plain other rfl).1 (plain other rfl).2 steady) ?_
    rintro ⟨kept, ends⟩ after ⟨⟨steady, evolves⟩, steps⟩
    refine .pure ⟨?_, steady, evolves, fun run refines => ?_⟩
    · rintro _ ⟨⟩
      exact steps.operates after
    · exact (steps.sound run after (.refl steady.wellFormed) refines).mono (assigned other rfl)

/-- A checked conditional runs as checking found out, whichever branch is taken. -/
theorem checkIf {pos : Position} {cond : Expr} {body : Block Stmt} {alt : Option Stmt}
    (simple : (Stmt.ifElse pos cond body alt).isFirstOrder = true)
    (plain : (Stmt.ifElse pos cond body alt).Plain) (steady : start.Steady) :
    Ensures start (checks.checkIf pos cond body alt) fun checked after =>
      (after.Steady ∧ start.Evolves false after) ∧
        Stmt.Steps (fun _ => checked.1) checked.2 start
          (Stmt.ifElse pos cond body alt).assignedNames after := by
  obtain ⟨isPure, simpleBody, simple⟩ := Stmt.isFirstOrder_ifElse.mp simple
  obtain ⟨own, test, block, others⟩ := Stmt.each_ifElse.mp plain
  have assignedBody : assignedNames body.statements ⊆
      (Stmt.ifElse pos cond body alt).assignedNames :=
    List.filterMap_subset _ fun node mem => by simp [Stmt.nodes_ifElse, mem]
  have assigned : ∀ s ∈ alt,
      s.assignedNames ⊆ (Stmt.ifElse pos cond body alt).assignedNames := by
    rintro s ⟨⟩
    exact List.filterMap_subset _ fun node mem => by simp [Stmt.nodes_ifElse, mem]
  have others : ∀ other ∈ alt, other.Plain ∧ other.isAlternative = true := by
    rintro other ⟨⟩
    exact ⟨others other rfl, own⟩
  generalize (Stmt.ifElse pos cond body alt).assignedNames = names at *
  refine .bind (h.condition isPure test steady.toRegular) ?_
  rintro ⟨cond, facts⟩ _ ⟨rfl, checked, told⟩
  refine .bind (Telling.requireBool _ checked steady.toRegular) ?_
  rintro _ start ⟨rfl, -⟩
  have whenFalse := steady.know (told.fine false)
  refine .get (.modifyThen (.bind (h.checkBlock simpleBody (Stmt.each_block.mp block).2
    (steady.know (told.fine true))) ?_))
  rintro ⟨body, ends⟩ mid ⟨operatesBody, yes⟩
  have evolves : start.Evolves false mid := (steady.evolves_setFlow false _).trans yes.evolves
  have otherwise : Analyzer.Steady { mid with flow := (start.knowing facts.whenFalse).flow } :=
    yes.steady.setFlow (whenFalse.facts.mono evolves.grows.nameCount)
  refine .get (.modifyThen (.bind (h.checkAlternative simple others assigned otherwise) ?_))
  rintro ⟨alt, stops⟩ last ⟨operatesLast, no⟩
  have between : mid.Evolves false last := (yes.steady.evolves_setFlow false _).trans no.evolves
  -- the alternative is checked after the body, but run where only the condition was evaluated
  have moves : (start.knowing facts.whenFalse).Evolves false
      { mid with flow := (start.knowing facts.whenFalse).flow } :=
    ((whenFalse.evolves_setFlow false start.flow).trans evolves).trans (yes.steady.evolves_setFlow false _)
  have no := no.of_later moves whenFalse.wellFormed (.refl _)
  -- what is known at the end was known at the end of each branch that has one
  have final (flow : Flow) (fine : last.Fine flow.facts) (first : ends = false → mid.flow.Weakens flow)
      (second : stops = false → last.flow.Weakens flow) :
      (Analyzer.Steady { last with flow } ∧ start.Evolves false { last with flow }) ∧
        Stmt.Steps (fun _ => .ifElse pos cond body alt) (ends && stops) start names
          { last with flow } := by
    have steadyFinal : Analyzer.Steady { last with flow } := no.steady.setFlow fine
    have next := no.steady.evolves_setFlow false flow
    have part := Part.ite told checked steady
      ((yes.mono assignedBody).until_later (between.trans next) steadyFinal first)
      (no.until_later next steadyFinal second)
    refine ⟨⟨part.steady, part.evolves⟩, .of_part ?_ (by rintro _ _ ⟨⟩) (Stmt.each_ifElse.mpr ⟨trivial,
      told.operates, Stmt.each_block.mpr ⟨trivial, operatesBody⟩, operatesLast⟩) fun _ => rfl⟩
    cases alt <;> exact part
  have fineBody : last.Fine mid.flow.facts := yes.steady.facts.mono between.grows.nameCount
  refine .get (.modifyThen (.pure (final _ ?_ ?_ ?_)))
  · cases ends <;> cases stops
    · exact fineBody.of_subset fun _ mem => (Facts.mem_of_mem_common mem).1
    · exact fineBody
    · exact no.steady.facts
    · exact fineBody
  · rintro rfl
    cases stops
    · exact .join_left _ _
    · exact .refl _
  · rintro rfl
    cases ends
    · exact .join_right _ _
    · exact .refl _

/-! ## Loops -/

/-- A checked loop runs so as long as it goes on. -/
theorem checkWhile {pos : Position} {cond : Expr} {body : Block Stmt}
    (isPure : cond.isPure = true) (simple : allFirstOrder body.statements = true)
    (plain : (Stmt.whileLoop pos cond body).Plain) (steady : start.Steady) :
    Ensures start (checks.checkWhile pos cond body) fun checked after =>
      (after.Steady ∧ start.Evolves false after) ∧
        Stmt.Steps (fun _ => checked.1) checked.2 start (assignedNames body.statements) after := by
  obtain ⟨-, test, block⟩ := Stmt.each_whileLoop.mp plain
  have entering := steady.loop (assignedNames body.statements)
  refine .modifyThen (.bind (h.condition isPure test entering.toRegular) ?_)
  rintro ⟨cond, facts⟩ _ ⟨rfl, checked, told⟩
  refine .bind (Telling.requireBool _ checked entering.toRegular) ?_
  rintro _ _ ⟨rfl, -⟩
  refine .get (.modifyThen (.bind (h.checkBlock simple (Stmt.each_block.mp block).2
    (entering.know (told.fine true))) ?_))
  rintro ⟨inner, ends⟩ mid ⟨operates, round⟩
  -- where the loop ends no more is known than where it starts, but for what the condition tells
  have final (flow : Flow) (fine : mid.Fine flow.facts)
      (weakens : (start.looping (assignedNames body.statements)).flow.Weakens flow) :
      (Analyzer.Steady { mid with flow := flow.apply facts.whenFalse } ∧
        start.Evolves false { mid with flow := flow.apply facts.whenFalse }) ∧
        Stmt.Steps (fun _ => .whileLoop pos cond inner) cond.isForever start
          (assignedNames body.statements) { mid with flow := flow.apply facts.whenFalse } := by
    have part := (Part.whileLoop told checked entering round (fun _ => Analyzer.not_mem_of_looping)
      (round.steady.evolves_setFlow false flow) (round.steady.setFlow fine) weakens).of_looping steady
    exact ⟨⟨part.steady, part.evolves⟩, .of_part part (by rintro _ _ ⟨⟩) (Stmt.each_whileLoop.mpr ⟨trivial,
      told.operates, Stmt.each_block.mpr ⟨trivial, operates⟩⟩) fun _ => rfl⟩
  have evolves := (entering.evolves_setFlow false _).trans round.evolves
  have fineBody : mid.Fine (start.looping (assignedNames body.statements)).flow.facts :=
    entering.facts.mono evolves.grows.nameCount
  refine .modifyThen (.pure (final _ ?_ ?_)) <;> cases ends
  · exact fineBody.of_subset fun _ mem => (Facts.mem_of_mem_common mem).1
  · exact fineBody
  · exact .join_left _ _
  · exact .refl _

theorem checkBound {bound : Expr} (isPure : bound.isPure = true)
    (plain : bound.Plain) (regular : start.Regular) :
    Ensures start (checks.checkBound bound) fun checked after => after = start ∧
      checked.Each Node.Operates ∧ checked.Counts start := by
  refine .bind (h.expr isPure plain regular) ?_
  rintro bound _ ⟨rfl, checked, told⟩
  refine .ite (fun _ => .errorThen rfl) fun whole => .pure ⟨rfl, told.operates, ?_⟩
  have whole : bound.checkedTy = .int := by
    simpa [checked.determined.1.ne_error] using whole
  intro run refines levels env memory machine agrees
  refine (told.sound.decide told.plain checked.ty_eq refines agrees).mono ?_
  rintro value _ ⟨rfl, is, -⟩
  rw [whole] at is
  exact ⟨rfl, is.index⟩

omit h in
/-- The variable of a loop is declared. -/
theorem declareIndex (steady : start.Steady) (name : String) (pos : Position) :
    Ensures start (Check.declare name .int .loop pos >>= fun _ => pure ()) fun _ inner =>
      (inner.Steady ∧ start.Evolves true inner) ∧
        start.Introduces name inner ∧ (inner.symbolAt start.symbols.size).ty = .int := by
  refine .bind (.declare steady.toRegular name pos rfl (by rintro _ ⟨⟩)
    ⟨by rintro ⟨⟩, by rintro ⟨⟩⟩) ?_
  rintro _ inner ⟨-, introduced, typed, ready⟩
  exact .pure ⟨⟨introduced.steady steady ready, introduced.evolves⟩, introduced, typed⟩

/-- A checked counting loop runs so in every round. -/
theorem checkFor {pos : Position} {name : String} {first last : Expr}
    {body : Block Stmt} (pureFirst : first.isPure = true) (pureLast : last.isPure = true)
    (simple : allFirstOrder body.statements = true)
    (plain : (Stmt.forRange pos name first last body).Plain) (steady : start.Steady) :
    Ensures start (checks.checkFor pos name first last body) fun checked after =>
      (after.Steady ∧ start.Evolves false after) ∧
        Stmt.Steps (fun _ => checked) false start (assignedNames body.statements) after := by
  obtain ⟨-, plainFirst, plainLast, block⟩ := Stmt.each_forRange.mp plain
  refine .bind (h.checkBound pureFirst plainFirst steady.toRegular) ?_
  rintro first _ ⟨rfl, operatesFirst, low⟩
  refine .bind (h.checkBound pureLast plainLast steady.toRegular) ?_
  rintro last start ⟨rfl, operatesLast, high⟩
  have entering := steady.loop (assignedNames body.statements)
  have evolving {base : Analyzer} : Check.Evolving true base
      (Check.declare name .int .loop pos >>= fun _ => pure ()) :=
    .andThen (Check.Evolving.declare _ _ _ _ (by rintro ⟨⟩) (by rintro ⟨⟩)) fun _ => .pure trivial
  refine .modifyThen (.get (.bind (h.checkBlockAfter
    (declareIndex ⟨entering.toRegular.enter, entering.ready⟩ name pos) evolving simple
    (Stmt.each_block.mp block).2 entering) ?_))
  rintro ⟨inside, ends⟩ mid ⟨inner, ⟨introduced, typed⟩, nests⟩
  have rounds (index : Int) : Part (fun _ evaluator env =>
      evaluator.runNested (Table.empty.insert name (some (.int index))) env inside) ends
      (start.looping (assignedNames body.statements)) (assignedNames body.statements) mid := by
    refine ⟨nests.steady, nests.evolves, fun run refines => nests.sound run _ refines fun refines => ?_⟩
    refine Run.opens_introduced entering.toRegular introduced ?_
    have count := introduced.count
    -- the type of the variable is known where it is declared, so it is the one that is found out
    rcases refines (start.looping (assignedNames body.statements)).entered.symbols.size (by omega)
      with unknown | same
    · rw [typed] at unknown
      cases unknown
    · exact (same.trans typed) ▸ .int index
  have final (flow : Flow) (fine : mid.Fine flow.facts)
      (weakens : (start.looping (assignedNames body.statements)).flow.Weakens flow) :
      (Analyzer.Steady { mid with flow } ∧ start.Evolves false { mid with flow }) ∧
        Stmt.Steps (fun _ => .forRange pos name first last inside) false start
          (assignedNames body.statements) { mid with flow } := by
    have part := Part.forRange pos low high steady rounds (nests.steady.evolves_setFlow false flow)
      (nests.steady.setFlow fine) weakens
    exact ⟨⟨part.steady, part.evolves⟩, .of_part part (by rintro _ _ ⟨⟩) (Stmt.each_forRange.mpr ⟨trivial,
      operatesFirst, operatesLast, Stmt.each_block.mpr ⟨trivial, nests.operates⟩⟩) fun _ => rfl⟩
  have fineBody : mid.Fine (start.looping (assignedNames body.statements)).flow.facts :=
    entering.facts.mono nests.evolves.grows.nameCount
  refine .modifyThen (.pure (final _ ?_ ?_)) <;> cases ends
  · exact fineBody.of_subset fun _ mem => (Facts.mem_of_mem_common mem).1
  · exact fineBody
  · exact .join_left _ _
  · exact .refl _

/-! ## All statements -/

/-- A checked statement without functions runs as checking found out. -/
theorem checkStatement {s : Stmt} (simple : s.isFirstOrder = true) (plain : s.Plain) (steady : start.Steady) :
    Ensures start (checks.checkStatement s .nothing) fun checked after =>
      (after.Steady ∧ start.Evolves true after) ∧
        (s.isAlternative = true → start.Evolves false after ∧ checked.2.1 = .nothing) ∧
        Stmt.Steps (fun last => complete last (checked.1, checked.2.1)) checked.2.2 start s.assignedNames
          after := by
  -- but for variables nothing is noted later
  have noted {s : Stmt} {ends : Bool} {names : List String} {after : Analyzer}
      (sub : names ⊆ s.assignedNames) {kept : Stmt}
      (reached : (after.Steady ∧ start.Evolves false after) ∧
        Stmt.Steps (fun _ => kept) ends start names after) :
      (after.Steady ∧ start.Evolves true after) ∧
        (s.isAlternative = true → start.Evolves false after ∧ Check.Declared.nothing = .nothing) ∧
        Stmt.Steps (fun last => complete last (kept, .nothing)) ends start s.assignedNames after := by
    have same : (fun last => complete last (kept, .nothing)) = fun _ => kept :=
      funext fun last => complete_nothing last kept
    rw [same]
    exact ⟨⟨reached.1.1, reached.1.2.declaring⟩, fun _ => ⟨reached.1.2, rfl⟩, reached.2.mono sub⟩
  cases s with
  | varDecl pos name written value resolved =>
    refine .bind (h.checkVarDecl simple (Stmt.each_varDecl.mp plain).2 steady pos written) ?_
    rintro ⟨kept, declared⟩ after ⟨reached, steps⟩
    exact .pure ⟨reached, by rintro ⟨⟩, steps.mono (List.nil_subset _)⟩
  | expr pos value =>
    refine .bind (h.chain simple (Stmt.each_expr.mp plain).2 steady) ?_
    rintro value after ⟨reached, checked, unwidened, assigns⟩
    refine .pure (noted ?_ ⟨reached, .expr checked unwidened assigns reached.1.toRegular pos⟩)
    rw [Stmt.assignedNames, Stmt.nodes, List.filterMap_cons_none rfl]
    exact List.Subset.refl _
  | block body =>
    refine .bind (h.checkBlock simple (Stmt.each_block.mp plain).2 steady) ?_
    rintro ⟨body, ends⟩ after ⟨operates, part⟩
    refine .pure (noted ?_ ⟨⟨part.steady, part.evolves⟩, .of_part part (by rintro _ _ ⟨⟩)
      (Stmt.each_block.mpr ⟨trivial, operates⟩) fun _ => rfl⟩)
    exact List.filterMap_subset _ fun node mem => by simp [Stmt.nodes, mem]
  | ifElse pos cond body alt =>
    refine .bind (h.checkIf simple plain steady) ?_
    rintro ⟨kept, ends⟩ after reached
    exact .pure (noted (List.Subset.refl _) reached)
  | whileLoop pos cond body =>
    obtain ⟨isPure, simple⟩ := Bool.and_eq_true_iff.mp simple
    refine .bind (h.checkWhile isPure simple plain steady) ?_
    rintro ⟨kept, ends⟩ after reached
    exact .pure (noted (List.filterMap_subset _ fun node mem => by simp [Stmt.nodes, mem]) reached)
  | forRange pos name first last body =>
    obtain ⟨pureFirst, simple⟩ := Bool.and_eq_true_iff.mp simple
    obtain ⟨pureLast, simple⟩ := Bool.and_eq_true_iff.mp simple
    refine .bind (h.checkFor pureFirst pureLast simple plain steady) ?_
    rintro kept after reached
    exact .pure (noted (List.filterMap_subset _ fun node mem => by simp [Stmt.nodes, mem]) reached)
  | _ => cases simple

/-! ## Lists of statements -/

/-- One more statement, from where the ones before it came to. -/
theorem checkNext {progress : Progress} {s : Stmt} (simple : s.isFirstOrder = true)
    (plain : s.Plain) (steady : start.Steady) :
    Ensures start (checks.checkNext progress (s, .nothing)) fun next after =>
      (after.Steady ∧ start.Evolves true after) ∧
        ∃ checked ends, next.checked = progress.checked.push checked ∧
          next.terminates = (progress.terminates || ends) ∧
          Stmt.Steps (fun last => complete last checked) ends start s.assignedNames after := by
  have wellFormed := steady.wellFormed
  refine .bind (.arriveAt progress s) ?_
  rintro _ _ ⟨topLevel, rfl⟩
  have evolves : start.Evolves false { start with topLevel } :=
    (Analyzer.Evolves.refl wellFormed).congr rfl rfl rfl rfl rfl rfl rfl rfl
  have arrived := steady.next evolves rfl (steady.consistent.move _ _ topLevel).consistent steady.facts
  refine .bind (h.checkStatement simple plain arrived) ?_
  rintro ⟨kept, declared, ends⟩ after ⟨⟨steadyAfter, later⟩, -, steps⟩
  refine .pure ⟨⟨steadyAfter, evolves.declaring.trans later⟩, (kept, declared), ends, rfl, rfl, ?_⟩
  exact steps.of_agrees (fun agrees => agrees.evolve wellFormed evolves (.refl _)) fun _ => evolves.visible

/-- The statements of a list, one after another. -/
theorem foldNext {base : Analyzer} {stmts : List Stmt} {names : List String}
    (simple : allFirstOrder stmts = true) (plain : Stmt.EachOf Node.Plain stmts)
    (assigned : ∀ s ∈ stmts, s.assignedNames ⊆ names) {progress : Progress} (steady : start.Steady)
    (evolves : base.Evolves true start)
    (steps : Stmt.AllStep (fun last => progress.checked.toList.map (complete last)) progress.terminates base
      names start) :
    Ensures start ((stmts.map (·, .nothing)).foldlM checks.checkNext progress) fun progress after =>
      (after.Steady ∧ base.Evolves true after) ∧
        Stmt.AllStep (fun last => progress.checked.toList.map (complete last)) progress.terminates base
          names after := by
  induction stmts generalizing start progress with
  | nil => exact .pure ⟨⟨steady, evolves⟩, steps⟩
  | cons s rest ih =>
    obtain ⟨first, others⟩ := Bool.and_eq_true_iff.mp simple
    obtain ⟨plainFirst, plainRest⟩ := List.forall_mem_cons.mp (Stmt.eachOf_iff.mp plain)
    refine .bind (h.checkNext first plainFirst steady) ?_
    rintro ⟨_, _, warned⟩ mid ⟨⟨steadyMiddle, next⟩, checked, ends, rfl, rfl, step⟩
    have more := steps.snoc (step.mono (assigned s List.mem_cons_self)) next fun _ => evolves.visible
    refine ih others (Stmt.eachOf_iff.mpr plainRest) (fun s mem => assigned s (List.mem_cons_of_mem _ mem))
      steadyMiddle (evolves.trans next) ?_
    simpa using more

/-- A checked list runs as its statements do, one after another. -/
theorem checkStatements {stmts : List Stmt}
    (simple : allFirstOrder stmts = true) (plain : Stmt.EachOf Node.Plain stmts)
    (steady : start.Steady) :
    Ensures start (checks.checkStatements stmts) fun checked after =>
      (after.Steady ∧ start.Evolves true after) ∧
        Stmt.AllStep (fun _ => checked.1) checked.2 start (assignedNames stmts) after := by
  have assigned (s : Stmt) (mem : s ∈ stmts) : s.assignedNames ⊆ assignedNames stmts := by
    have within : ∀ node ∈ s.nodes, node ∈ Stmt.nodesOfList stmts :=
      Stmt.eachOf_iff.mp (fun _ mem => mem) s mem
    exact List.filterMap_subset _ within
  refine .bind (.hoist simple) ?_
  rintro _ _ ⟨rfl, rfl⟩
  refine .bind (h.foldNext simple plain assigned steady (.refl steady.wellFormed) (.nil _ _)) ?_
  rintro progress last ⟨reached, steps⟩
  refine .bind (.forM_idle fun pair mem => ?_) ?_
  · obtain ⟨s, -, rfl⟩ := List.mem_map.mp mem
    cases s <;> rfl
  rintro _ _ rfl
  exact .get (.pure ⟨reached, steps.fix reached.1.toRegular⟩)

end Checks.Stepping

/-- What checking shows of statements without functions, however many levels are left. -/
theorem Checks.stepping (levels : Nat) : Stepping (.within levels) := by
  induction levels with
  | zero => exact ⟨assigning 0, evolving 0, fun _ _ _ _ => .throw _, fun _ _ _ => .throw _⟩
  | succ levels ih =>
    refine ⟨assigning (levels + 1), evolving (levels + 1), fun simple plain allowed steady => ?_,
      fun simple plain steady => ih.checkStatements simple plain steady⟩
    refine .bind (ih.checkStatement simple plain steady) ?_
    rintro ⟨kept, declared, ends⟩ after ⟨reached, alt, steps⟩
    obtain ⟨evolves, rfl⟩ := alt allowed
    simp only [complete_nothing] at steps
    exact .pure ⟨⟨reached.1, evolves⟩, steps⟩

end FlowScript
