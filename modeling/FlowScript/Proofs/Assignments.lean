import FlowScript.Proofs.TellingRules
/-!
# Assignments

A variable is assigned by an expression that is a statement of its own, and a chain of assignments
`a = b = e` assigns several.  The check of such a chain leads from one state to another, in which a
variable that had no type has got one and what was known of the variables is forgotten.

`Expr.Assigns` says what a check without an error shows of a chain: it comes to a value of the type noted
for it, on a machine that agrees with the later state.  Main statement: `Checks.assigning`.
-/

namespace FlowScript

/-- Whether an expression is an expression without effects that is assigned to any number of variables. -/
def Expr.isChain : Expr → Bool
  | .assign _ _ _ value => value.isChain
  | e => e.isPure

namespace Analyzer

variable {declares : Bool} {before after a : Analyzer}

/-- A state between two statements: no initial value is being checked. -/
structure Steady (analyzer : Analyzer) : Prop extends analyzer.Regular where
  ready : ∀ id, (analyzer.symbolAt id).initializing = false

namespace Steady

/-- A later state with the same names. -/
theorem next (h : before.Steady) (evolves : before.Evolves declares after)
    (count : after.symbols.size = before.symbols.size) (consistent : after.Consistent)
    (facts : after.Fine after.flow.facts) : after.Steady := by
  -- a number without a name stands for a default
  have symbols (id : Nat) : ∃ ty, after.symbolAt id = { before.symbolAt id with ty } := by
    by_cases old : id < before.symbols.size
    · obtain ⟨ty, eq, -⟩ := evolves.grows.name id old
      exact ⟨ty, eq⟩
    · refine ⟨(before.symbolAt id).ty, ?_⟩
      rw [symbolAt, symbolAt, Array.getD_eq_getD_getElem?, Array.getD_eq_getD_getElem?,
        Array.getElem?_eq_none (by omega), Array.getElem?_eq_none (by omega)]
  refine ⟨h.toRegular.next evolves consistent (fun id => ?_) facts, fun id => ?_⟩
  all_goals
    obtain ⟨ty, eq⟩ := symbols id
    rw [eq]
  · exact h.kinds id
  · exact h.ready id

theorem setFlow (h : a.Steady) {flow : Flow} (facts : a.Fine flow.facts) :
    Steady { a with flow } :=
  ⟨h.toRegular.setFlow facts, h.ready⟩

/-- A variable that has no type gets one. -/
theorem retype (h : a.Steady) {name : String} {ref : SymbolRef}
    (found : a.lookup? name = some ref) (assignable : (a.symbol ref).kind.isMutable = true)
    (unknown : (a.symbol ref).ty = .unknown) {ty : Ty} (determined : ty.Determined) :
    a.Evolves false (a.modifySymbol ref.id fun symbol => { symbol with ty }) ∧
      (a.modifySymbol ref.id fun symbol => { symbol with ty }).Steady := by
  have evolves : a.Evolves false (a.modifySymbol ref.id fun symbol => { symbol with ty }) :=
    (Evolves.refl h.wellFormed).retype found assignable unknown ty
  have count : (a.modifySymbol ref.id fun symbol => { symbol with ty }).symbols.size =
      a.symbols.size := by simp [modifySymbol]
  exact ⟨evolves, h.next evolves count (h.consistent.setType ref.id determined).consistent
    (h.facts.mono (Nat.le_of_eq count.symm))⟩

end Steady

end Analyzer

/-- Whether a run has come from one state of checking to another: its heap agrees with the later one, and
only variables of some names were assigned meanwhile. -/
def Run.Arrives (run : Run) (before : Analyzer) (names : List String) (after : Analyzer)
    (env : Environment) (memory : Memory) (heap : Heap) : Prop :=
  ∃ other, run.Agrees after env other heap ∧ Run.Keeps before names memory other

/-- What a check without an error shows of a chain of assignments, between two states. -/
structure Expr.Assigns (e : Expr) (before : Analyzer) (names : List String) (after : Analyzer) :
    Prop where
  operates : e.Each Node.Operates
  sound : ∀ run : Run, after.Refines run.later → ∀ levels environment memory machine,
    run.Agrees before environment memory machine.heap →
    Run.Meets ((run.evaluator levels).evaluate run.setup.host environment e) machine
      fun value reached => value.Is e.checkedTy ∧
        run.Arrives before names after environment memory reached.heap

namespace Expr.Assigns

variable {before mid after : Analyzer} {e value : Expr} {names : List String} {ref : SymbolRef}

theorem withWiden (h : e.Assigns before names after) (widen : Bool) :
    (e.withWiden widen).Assigns before names after := by
  refine ⟨h.operates.withNote ((operates_withWiden widen e).mpr h.operates.own), ?_⟩
  intro run refines levels env memory machine agrees
  rw [evaluate_withWiden, checkedTy, ty_withWiden]
  exact h.sound run refines levels env memory machine agrees

/-- An expression without effects assigns nothing. -/
theorem of_told {facts : Branches} (told : e.Told before facts) : e.Assigns before names before := by
  refine ⟨told.operates, fun run refines levels env memory machine agrees => ?_⟩
  refine (told.sound run refines levels env memory machine agrees).mono ?_
  rintro value _ ⟨rfl, is, -⟩
  exact ⟨is, memory, agrees, .refl before names memory⟩

/-- A value that flows into the type of a visible variable is assigned to it. -/
theorem assign {note target : Note} {ident : String} {ty : Ty} (h : value.Assigns before names mid)
    (noted : value.ty = some value.checkedTy) (steady : mid.Steady) (evolves : mid.Evolves false after)
    (visible : ∀ ref, before.Visible ref → mid.Visible ref)
    (flow : after.flow = mid.flow.assigned ref) (found : mid.lookup? ident = some ref)
    (typed : (after.symbol ref).ty = ty)
    (flows : ∀ (v : Value) (src : Ty), value.valueTy? = some src → v.Is src → v.Is ty)
    (own : note.ty = some ty) :
    (Expr.assign note target ident value).Assigns before (ident :: names) after := by
  have seen := steady.wellFormed.visible_of_lookup? found
  refine ⟨each_assign.mpr ⟨trivial, trivial, h.operates⟩, ?_⟩
  intro run refines levels env memory machine agrees
  rw [checkedTy_eq (e := .assign note target ident value) own]
  refine .bind (eval_widened noted (fun _ _ holds => holds.1) fun levels =>
    h.sound run (refines.of_evolves evolves steady.toRegular) levels env memory machine agrees) ?_
  rintro v machine ⟨⟨_, -, other, agrees, kept⟩, src, valueTy, is⟩
  have is := flows v src valueTy is
  -- no variable is without a binding between two statements
  obtain ⟨binding, bound⟩ : ∃ binding, other.cell ref = some binding := by
    have holds := agrees.names ref seen
    cases bound : other.cell ref with
    | some binding => exact ⟨binding, rfl⟩
    | none =>
      rw [bound] at holds
      exact absurd ((steady.ready ref.id).symm.trans holds) Bool.false_ne_true
  obtain ⟨frame, mem, holds, owner⟩ := (agrees.mirrors.locate found bound).2
  have own : v.Is (run.later.symbol ref).ty := by
    have old := Nat.lt_of_lt_of_le (steady.wellFormed.lt_of_visible seen) evolves.grows.nameCount
    rcases refines ref.id old with unknown | same
    · exact absurd (typed.symm.trans unknown) is.ne_unknown
    · exact (same.trans typed) ▸ is
  have assigned : Run.Meets (Eval.assign env ident v (some target.position)) machine
      fun _ reached => run.Arrives before (ident :: names) after env memory reached.heap := by
    refine .get ?_
    rw [owner]
    refine .modify ⟨_, agrees.assign steady.toRegular evolves flow mem holds own, ?_⟩
    refine (kept.mono (List.subset_cons_self _ _)).trans (.bind mid _ other (fun _ => ?_) v) visible
    rw [(steady.wellFormed.named holds).1]
    exact List.mem_cons_self
  refine .bind assigned fun _ reached arrives => .pure ⟨is, arrives⟩

end Expr.Assigns

/-! ## Checking chains -/

namespace Check

variable {start : Analyzer}

/-- A value flows into a type as it is, or widened. -/
theorem Ensures.flowInto {e : Expr} {target : Ty} {problem : CheckProblem}
    (severity : problem.severity = .error) (checked : e.Checked) (plain : e.note.widen = false)
    (canonical : target.Canonical) :
    Ensures start (Check.flowInto e e.checkedTy target problem) fun value after => after = start ∧
      (value = e ∨ value = e.withWiden true) ∧
      ∀ (v : Value) (src : Ty), value.valueTy? = some src → v.Is src → v.Is target := by
  refine .get ?_
  split
  · rename_i flows
    refine .pure ⟨rfl, .inl rfl, fun v src valueTy is => .coerce flows canonical ?_⟩
    rw [Expr.valueTy?, plain, checked.ty_eq] at valueTy
    cases valueTy
    exact is
  · rename_i flows
    refine .pure ⟨rfl, .inr rfl, fun v src valueTy is => .coerce flows canonical ?_⟩
    have widened : (e.withWiden true).valueTy? = some e.checkedTy.widened := by
      rw [Expr.valueTy?, Expr.ty_withWiden, checked.ty_eq]
      simp [Expr.withWiden]
    rw [widened] at valueTy
    cases valueTy
    exact is
  · exact .errorThen severity

end Check

namespace Checks

open Check (Ensures)

variable {checks : Checks} {start : Analyzer}

/-- What is shown of chains of assignments one level further in. -/
structure Assigning (checks : Checks) : Prop extends checks.Telling where
  chain : ∀ {e : Expr} {start : Analyzer}, e.isChain = true → e.Plain → start.Steady →
    Ensures start (checks.expr e) fun checked after => (after.Steady ∧ start.Evolves false after) ∧
      checked.Checked ∧ checked.note.widen = false ∧ checked.Assigns start e.assignedNames after

namespace Assigning

/-- A checked assignment gives a value of its type, and its variable keeps to its own. -/
theorem checkAssign (h : checks.Assigning) {note target : Note} {ident : String} {value : Expr}
    (plain : (Expr.assign note target ident value).Plain) (isChain : value.isChain = true)
    (steady : start.Steady) :
    Ensures start (checks.checkAssign note target ident value) fun checked after =>
      (after.Steady ∧ start.Evolves false after) ∧ checked.note.widen = false ∧
        checked.Assigns start (ident :: value.assignedNames) after := by
  obtain ⟨own, -, inner⟩ := Expr.each_assign.mp plain
  refine .bind (h.chain isChain inner steady) ?_
  rintro given mid ⟨⟨steady, evolves⟩, checked, unwidened, assigns⟩
  have visible (ref : SymbolRef) : start.Visible ref → mid.Visible ref := evolves.visible
  refine .get ?_
  cases found : mid.lookup? ident with
  | none => exact .failThen rfl
  | some ref =>
    have old := steady.wellFormed.lt_of_visible (steady.wellFormed.visible_of_lookup? found)
    have forgotten : mid.Fine (mid.flow.assigned ref).facts :=
      steady.facts.of_subset List.filter_sublist.subset
    refine .bind (Telling.noteCapture steady.toRegular _) ?_
    rintro _ mid rfl
    refine .ite (fun _ => .failThen rfl) fun assignable => ?_
    cases unknown : (mid.symbol ref).ty.isUnknown with
    | false =>
      simp only [Bool.not_false, if_true]
      refine .bind (.flowInto rfl checked unwidened (steady.consistent.typed.names ref.id).canonical) ?_
      rintro wide mid ⟨rfl, same, flows⟩
      have assigns : wide.Assigns start value.assignedNames mid ∧ wide.ty = some wide.checkedTy := by
        rcases same with rfl | rfl
        · exact ⟨assigns, checked.ty_eq⟩
        · refine ⟨assigns.withWiden true, ?_⟩
          rw [Expr.checkedTy, Expr.ty_withWiden, checked.ty_eq]
          rfl
      have next := steady.evolves_setFlow false (mid.flow.assigned ref)
      refine .modifyThen (.pure ⟨⟨steady.setFlow forgotten, evolves.trans next⟩, own.1.2, ?_⟩)
      exact assigns.1.assign assigns.2 steady next visible rfl found rfl flows rfl
    | true =>
      simp only [Bool.not_true, Bool.false_eq_true, if_false]
      -- the first assignment gives the variable its type
      have assignable : (mid.symbol ref).kind.isMutable = true := by simpa using assignable
      obtain ⟨retypes, typed⟩ := steady.retype found assignable (Ty.eq_unknown unknown) checked.determined
      have next := typed.evolves_setFlow false (mid.flow.assigned ref)
      refine .modifyThen ?_
      rw [pure_bind]
      refine .modifyThen (.pure ⟨⟨typed.setFlow ?_, (evolves.trans retypes).trans next⟩, own.1.2, ?_⟩)
      · exact typed.facts.of_subset List.filter_sublist.subset
      · refine assigns.assign checked.ty_eq steady (retypes.trans next) visible rfl found ?_ ?_ rfl
        · exact congrArg Symbol.ty ((Analyzer.symbolAt_modifySymbol ..).trans (if_pos ⟨rfl, old⟩))
        · intro v src valueTy is
          rw [Expr.valueTy?, unwidened, checked.ty_eq] at valueTy
          cases valueTy
          exact is

end Assigning

/-- Checking of chains of assignments shows what they come to, however many levels are left. -/
theorem assigning (levels : Nat) : Assigning (.within levels) := by
  induction levels with
  | zero => exact ⟨telling 0, fun _ _ _ => .throw _⟩
  | succ levels ih =>
    refine ⟨telling (levels + 1), fun {e start} isChain plain steady => ?_⟩
    have pureCase (isPure : e.isPure = true) : Ensures start (checkExprAt (levels + 1) e)
        fun checked after => (after.Steady ∧ start.Evolves false after) ∧
          checked.Checked ∧ checked.note.widen = false ∧ checked.Assigns start e.assignedNames after := by
      refine ((telling (levels + 1)).expr isPure plain steady.toRegular).mono ?_
      rintro checked _ ⟨rfl, annotated, told⟩
      exact ⟨⟨steady, .refl steady.wellFormed⟩, annotated, told.plain, .of_told told⟩
    cases e with
    | assign note target ident value =>
      intro checked after accepted
      obtain ⟨reached, unwidened, assigns⟩ := ih.checkAssign plain isChain steady checked after accepted
      have complete := (((annotating (levels + 1)).expr plain).leads steady.consistent checked after accepted).2.1
      refine ⟨reached, complete.checked, unwidened, ?_⟩
      rw [Expr.assignedNames, Expr.nodes]
      exact assigns
    | _ => exact pureCase isChain

end Checks

end FlowScript
