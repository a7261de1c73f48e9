import FlowScript.Proofs.AcceptedPrograms
import FlowScript.Proofs.CutRuns
import FlowScript.Proofs.NestingBound
import FlowScript.Proofs.SteppingRules
/-!
# Type soundness

Programs of variables, blocks, conditionals and loops on which the check reports no error do nothing that the
check is there to prevent: no variable is read before it has a value, no operator meets values that it does
not apply to, and every expression has a value of the type noted for it.

Main statement: `Setup.execute_sound`.
-/

namespace FlowScript

/-! ## Before the first statement -/

namespace Analyzer

variable {host : Host}

/-- The names before any program are those of the host. -/
theorem symbolAt_initial (host : Host) (id : Nat) :
    (∃ fn ∈ host, (initial host.signatures).symbolAt id =
      { name := fn.name, ty := fn.signature, kind := .host, home := .topLevel
        position := none }) ∨
    (initial host.signatures).symbols.size ≤ id ∧ (initial host.signatures).symbolAt id = default := by
  by_cases inBounds : id < host.length
  · refine .inl ⟨host[id], List.getElem_mem inBounds, ?_⟩
    simp [symbolAt, initial, Host.signatures, inBounds]
  · refine .inr ⟨?_, ?_⟩
    · simpa [initial, Host.signatures] using inBounds
    · simp [symbolAt, initial, Host.signatures, inBounds]

/-- Checking starts from a steady state. -/
theorem initial_steady (canonical : ∀ fn ∈ host, fn.signature.Canonical) (prog : Program) :
    ((initial host.signatures).begin prog).Steady where
  wellFormed := (initial_settled host.signatures).wellFormed_begin prog
  consistent := by
    refine (initial_consistent ?_).begin prog
    intro sig mem
    obtain ⟨fn, listed, rfl⟩ := List.mem_map.mp mem
    exact ⟨canonical fn listed, by rintro ⟨⟩⟩
  outside := rfl
  inside := List.mem_cons_self
  kinds id := by
    have kinds : ((initial host.signatures).symbolAt id).kind ≠ .function ∧
        ((initial host.signatures).symbolAt id).kind ≠ .struct := by
      rcases symbolAt_initial host id with ⟨fn, -, eq⟩ | ⟨-, eq⟩ <;> rw [eq] <;>
        exact ⟨by rintro ⟨⟩, by rintro ⟨⟩⟩
    exact kinds
  facts := .empty
  separate first memFirst second memSecond ref inFirst inSecond := by
    -- the frame of global names is empty
    have isHost {frame : Nat} (mem : frame ∈ [globalFrame, hostFrame])
        (found : ((initial host.signatures).frame frame).symbols.find? ref.name = some ref) :
        frame = hostFrame := by
      rcases List.mem_cons.mp mem with rfl | mem
      · cases found
      · exact List.mem_singleton.mp mem
    rw [isHost memFirst inFirst, isHost memSecond inSecond]
  ready id := by
    have ready : ((initial host.signatures).symbolAt id).initializing = false := by
      rcases symbolAt_initial host id with ⟨fn, -, eq⟩ | ⟨-, eq⟩
      · rw [eq]
      · rw [eq]
        rfl
    exact ready

/-- The memory of a machine on which nothing was run: every name stands for the function of the host. -/
def hostMemory : Memory := ⟨fun ref => some (some (.host ref.name)), id⟩

/-- The names of the host are bound to its functions. -/
theorem initial_shows (host : Host) (name : String) :
    ((Machine.initial host).heap.frame hostFrame).find? name =
      (((initial host.signatures).frame hostFrame).symbols.find? name).bind hostMemory.cell := by
  have related : Table.Related (fun ref binding => binding = some (.host ref.name))
      ((initial host.signatures).frame hostFrame).symbols
      ((Machine.initial host).heap.frame hostFrame) := by
    have each (host : Host) (number : Nat) : List.Forall₂
        (fun (entry : String × SymbolRef) (other : String × Option Value) =>
          entry.1 = other.1 ∧ other.2 = some (.host entry.2.name))
        ((host.signatures.zipIdx number).map fun sig => (sig.1.1, ⟨sig.2, sig.1.1⟩))
        (host.map fun fn => (fn.name, some (.host fn.name))) := by
      induction host generalizing number with
      | nil => exact .nil
      | cons fn rest ih => exact .cons ⟨rfl, rfl⟩ (ih (number + 1))
    exact .ofList (each host 0)
  have found := related.find? name
  cases left : ((initial host.signatures).frame hostFrame).symbols.find? name <;>
    cases right : ((Machine.initial host).heap.frame hostFrame).find? name <;> rw [left, right] at found
  · rfl
  · cases found
  · cases found
  · cases found with
    | some eq => rw [eq]; rfl

/-- The machine of a new session is what its analyzer takes it for. -/
theorem initial_agrees (host : Host) (prog : Program) {run : Run}
    (refines : ((initial host.signatures).begin prog).Refines run.later) :
    run.Agrees ((initial host.signatures).begin prog) Heap.globalEnvironment hostMemory
      (Machine.initial host).heap where
  mirrors := {
    environment := rfl
    apart := fun _ _ _ _ same => same
    bounds := by
      intro frame mem
      rcases List.mem_cons.mp mem with rfl | mem
      · exact Nat.lt_succ_self _
      · rw [List.mem_singleton.mp mem]
        exact Nat.succ_pos _
    shows := by
      intro frame mem name
      rcases List.mem_cons.mp mem with rfl | mem
      · rfl
      · rw [List.mem_singleton.mp mem]
        exact initial_shows host name }
  names ref visible := by
    have old := ((initial_settled host.signatures).wellFormed_begin prog).lt_of_visible visible
    refine ⟨?_, by rintro _ ⟨⟩⟩
    -- at first there are only the names of the host, whose types are all known
    rcases symbolAt_initial host ref.id with ⟨fn, -, eq⟩ | ⟨beyond, -⟩
    · rcases refines ref.id old with unknown | same
      · have unknown : ((initial host.signatures).symbolAt ref.id).ty = .unknown := unknown
        rw [eq] at unknown
        cases unknown
      · have same : (run.later.symbolAt ref.id).ty = ((initial host.signatures).symbolAt ref.id).ty := same
        rw [symbol, same, eq]
        exact .host _ _ _
    · exact absurd old (Nat.not_lt.mpr beyond)

end Analyzer

/-! ## Whole programs -/

/-- A run of a list of statements that was checked without an error, from a machine that agrees with what
was known at first, comes to its end or to an expected stop. -/
theorem Stmt.AllStep.execute {checked : List Stmt} {ends : Bool} {before after : Analyzer}
    {names : List String} (h : AllStep (fun _ => checked) ends before names after) (regular : after.Regular)
    {run : Run} (refines : after.Refines run.later) {memory : Memory} {machine : Machine}
    (agrees : run.Agrees before Heap.globalEnvironment memory machine.heap) (levels : Nat) :
    Run.Meets ((run.evaluator levels).execute checked) machine fun _ _ => True := by
  have reset : Run.Meets (modify fun machine => { machine with depth := 0 }) machine fun _ reached =>
      reached.heap = machine.heap := .modify rfl
  refine .bind reset ?_
  intro _ reached same
  rw [← same] at agrees
  rw [h.hoists after, pure_bind]
  exact (h.top run after (.refl regular.wellFormed) refines levels .nil memory reached agrees).mono
    fun _ _ _ => trivial

/-- The observer that demands the noted types is content with them. -/
theorem Eval.demandType_content (trap : Stop) {e : Expr} {value : Value} {ty : Ty} (machine : Machine)
    (noted : e.valueTy? = some ty) (is : value.Is ty) :
    demandType trap e value machine = (.ok (), machine) := by
  refine admitting_demandType trap e value machine ?_
  rw [Expr.admits, noted]
  exact is.typed machine.heap

/-- If the check of a program of variables, blocks, conditionals and loops from the initial state reports no
error, then running it comes to its end, or to a stop that is expected: a division by zero, an unwrapped
`nil`, a whole number to be widened that has no double near it, the remainder of an infinite double, or a
limit of the machine.  It does not run out of levels if there are as many as the program has nodes.

Every expression that is evaluated has a value of the type noted for it, widened if that is noted, since a run
that would stop at a value of a wrong type, in whatever way, is the same; and operators on operands of the noted
types come to a value of their noted type or to a stop of their own. -/
theorem Setup.execute_sound (config : Config) (host : Host)
    (canonical : ∀ function ∈ host, function.signature.Canonical) (program : Program)
    (plain : program.Plain) (simple : allFirstOrder program = true)
    (ok : ((Analyzer.initial host.signatures).analyze config program).1.ok = true) (setup : Setup) :
    let checked := ((Analyzer.initial host.signatures).analyze config program).1.program
    let machine := Machine.initial host
    (∀ node ∈ Stmt.nodesOfList checked, node.Operates) ∧
      (∀ trap, (setup.observed (Eval.demandType trap) setup.levels).execute checked machine =
        setup.execute checked machine) ∧
      ∀ stop after, setup.execute checked machine = (.error stop, after) → stop.isExpected = true ∧
        (stop = .failure .nesting → setup.levels < (Stmt.nodesOfList checked).length) := by
  intro checked machine
  obtain ⟨result, last, accepted, same, -⟩ := Analyzer.accepts_of_ok ok
  obtain ⟨⟨steady, evolves⟩, steps⟩ := (Checks.stepping checkLevels).statements simple plain
    (Analyzer.initial_steady canonical program) result last accepted
  have same : checked = result.1 := same
  rw [same]
  -- a value of a wrong type would end the run that is watched in a way that is not expected
  let unexpected : Stop := .fault .nilCall none
  let run : Run := ⟨setup, Eval.demandType unexpected,
    fun _ _ _ machine => Eval.demandType_content unexpected machine, last⟩
  have refines : last.Refines run.later := fun _ _ => .inr rfl
  have agrees := Analyzer.initial_agrees host program
    (refines.of_evolves evolves (Analyzer.initial_steady canonical program).toRegular)
  have expected {stop : Stop} {after : Machine}
      (stops : (setup.observed (Eval.demandType unexpected) setup.levels).execute result.1 machine =
        (.error stop, after)) : stop.isExpected = true :=
    (steps.execute steady.toRegular refines agrees setup.levels).stops_of_error stops
  have outside (value : Value) : Stop.returned value ≠ unexpected := nofun
  have watched (observe : Expr → Value → Eval Unit) (admitting : Eval.Admitting observe) :=
    setup.watched_eq result.1 machine outside admitting fun after stops =>
      absurd (expected stops) (by rintro ⟨⟩)
  have silent := watched (fun _ _ => pure ()) fun _ _ _ _ => rfl
  rw [setup.observed_silent] at silent
  refine ⟨steps.operates last, fun trap => ?_, fun stop after stops => ⟨expected (silent.trans stops), ?_⟩⟩
  · exact (watched _ (Eval.admitting_demandType trap)).symm.trans silent
  rintro rfl
  refine Nat.lt_of_not_le fun room => ?_
  exact (setup.execute_fits (steps.operates last) room machine).stops_of_error stops rfl

/-- A loop that narrows a variable and takes what it knows away, a loop over a range, and numbers that are
widened. -/
theorem Setup.execute_sound_loops :
    let source := "var n: int? = 3; var total: float = 0; " ++
      "while n != nil and n > 0 \x7b total = total + n; if n == 1 \x7b n = nil \x7d else \x7b n = n - 1 \x7d \x7d; " ++
      "for i in 0..2 \x7b total = total - i / 2 \x7d; total / (0 - 1)"
    ∃ parsed, parseText "<input>" 64 source = .ok parsed ∧ parsed.ok = true ∧
      allFirstOrder parsed.program = true ∧
      ((Analyzer.initial (Host.signatures [Host.print])).analyze {} parsed.program).1.ok = true ∧
      ∀ setup : Setup, ∀ stop after, setup.execute
        ((Analyzer.initial (Host.signatures [Host.print])).analyze {} parsed.program).1.program
        (Machine.initial [Host.print]) = (.error stop, after) → stop.isExpected = true := by
  intro source
  have accepted : ((parseText "<input>" 64 source).toOption.map fun parsed =>
      parsed.ok && (allFirstOrder parsed.program &&
        ((Analyzer.initial (Host.signatures [Host.print])).analyze {} parsed.program).1.ok)) = some true := by
    decide +kernel
  obtain ⟨parsed, read, accepted⟩ := exists_ok_of_shown accepted
  obtain ⟨clean, rest⟩ := Bool.and_eq_true_iff.mp accepted
  obtain ⟨simple, ok⟩ := Bool.and_eq_true_iff.mp rest
  refine ⟨parsed, read, clean, simple, ok, fun setup stop after stops => ?_⟩
  exact ((Setup.execute_sound {} [Host.print] (by simp; decide) parsed.program (parseText_plain read)
    simple ok setup).2.2 stop after stops).1

end FlowScript
