import FlowScript.Evaluation.Program
/-!
# What evaluation comes to

`Eval.Meets stops action start post` says that a computation on the machine, run from `start`, comes to
a value and a machine that satisfy `post`, or else to one of the allowed `stops`.  There is a rule for
each way in which the rules of evaluation are put together.

`Setup.observed` ties the rules of evaluation together with an observer that sees the value of every
expression.  An observer that does nothing gives evaluation itself (`Setup.observed_silent`), and the
observer `Eval.demandType` stops at every value that is not of the type noted for its expression.
-/

namespace FlowScript

namespace Eval

variable {α β : Type} {stops : Stop → Machine → Prop} {start : Machine} {post : α → Machine → Prop}

/-- Whether a computation comes to a value and a machine that satisfy `post`, or to an allowed
stop. -/
def Meets (stops : Stop → Machine → Prop) (action : Eval α) (start : Machine)
    (post : α → Machine → Prop) : Prop :=
  match action start with
  | (.ok value, after) => post value after
  | (.error stop, after) => stops stop after

theorem bind_apply (action : Eval α) (rest : α → Eval β) (machine : Machine) :
    (action >>= rest) machine = match action machine with
      | (.ok value, after) => rest value after
      | (.error stop, after) => (.error stop, after) := by
  simp only [Bind.bind, ExceptT.bind, ExceptT.mk, StateT.bind]
  rcases action machine with ⟨_ | _, after⟩ <;> rfl

namespace Meets

theorem pure {value : α} (h : post value start) :
    Meets stops (Pure.pure value : Eval α) start post := h

theorem throw {stop : Stop} (h : stops stop start) :
    Meets stops (MonadExcept.throw stop : Eval α) start post := h

theorem fault {cause : FaultCause} {pos : Option Position} (h : stops (.fault cause pos) start) :
    Meets stops (Eval.fault cause pos : Eval α) start post := h

theorem get {rest : Machine → Eval α} (h : Meets stops (rest start) start post) :
    Meets stops (MonadState.get >>= rest) start post := h

theorem modify {change : Machine → Machine} {post : Unit → Machine → Prop}
    (h : post () (change start)) : Meets stops (modify change : Eval Unit) start post := h

theorem mono {next : α → Machine → Prop} {action : Eval α} (h : Meets stops action start post)
    (imp : ∀ value after, post value after → next value after) :
    Meets stops action start next := by
  unfold Meets at h ⊢
  rcases run : action start with ⟨stop | value, after⟩ <;> rw [run] at h
  · exact h
  · exact imp value after h

/-- More stops may be allowed. -/
theorem allow {wider : Stop → Machine → Prop} {action : Eval α} (h : Meets stops action start post)
    (imp : ∀ stop after, stops stop after → wider stop after) : Meets wider action start post := by
  unfold Meets at h ⊢
  rcases run : action start with ⟨stop | value, after⟩ <;> rw [run] at h
  · exact imp stop after h
  · exact h

/-- What stops the computation is allowed to. -/
theorem stops_of_error {action : Eval α} (h : Meets stops action start post) {stop : Stop} {after : Machine}
    (stopped : action start = (.error stop, after)) : stops stop after := by
  rw [Meets, stopped] at h
  exact h

theorem bind {next : β → Machine → Prop} {action : Eval α} {rest : α → Eval β}
    (first : Meets stops action start post)
    (second : ∀ value after, post value after → Meets stops (rest value) after next) :
    Meets stops (action >>= rest) start next := by
  unfold Meets at first
  rw [Meets, bind_apply]
  rcases run : action start with ⟨stop | value, after⟩ <;> rw [run] at first
  · exact first
  · exact second value after first

/-- An operation on values: it gives a result, or one of the allowed failures. -/
theorem operation {res : Except Failure α}
    (value : ∀ value, res = .ok value → post value start)
    (failure : ∀ failure, res = .error failure → stops (.failure failure) start) :
    Meets stops (Eval.operation res) start post := by
  cases res with
  | ok found => exact value found rfl
  | error reason => exact failure reason rfl

theorem ite {cond : Prop} [Decidable cond] {yes no : Eval α}
    (first : cond → Meets stops yes start post)
    (second : ¬cond → Meets stops no start post) :
    Meets stops (if cond then yes else no) start post := by
  split
  · exact first ‹_›
  · exact second ‹_›

/-- A computation that keeps an invariant is repeated for every item of a list. -/
theorem forM {ι : Type} {invariant : Machine → Prop} {f : ι → Eval Unit} (items : List ι)
    (h : ∀ item ∈ items, ∀ machine, invariant machine →
      Meets stops (f item) machine fun _ after => invariant after)
    (holds : invariant start) : Meets stops (items.forM f) start fun _ after => invariant after := by
  induction items generalizing start with
  | nil => exact pure holds
  | cons item rest ih =>
    refine bind (h item (by simp) start holds) fun _ after kept => ?_
    exact ih (fun other mem => h other (by simp [mem])) kept

end Meets

end Eval

/-! ## What a computation may do -/

/-- What a computation may do on some machines: the ways in which it may stop, faults among them, and what may
become of the machine. -/
structure Leeway where
  applies : Machine → Prop
  stops : Stop → Prop
  moves : Machine → Machine → Prop
  fault : ∀ cause position, stops (.fault cause position)
  refl : ∀ machine, moves machine machine
  trans : ∀ {first second third}, moves first second → moves second third → moves first third
  keeps : ∀ {first second}, applies first → moves first second → applies second

/-- The leeway to do anything but stop in other ways than some. -/
abbrev Leeway.to (stops : Stop → Prop) (fault : ∀ cause position, stops (.fault cause position)) : Leeway :=
  ⟨fun _ => True, stops, fun _ _ => True, fault, fun _ => trivial, fun _ _ => trivial, fun _ _ => trivial⟩

namespace Eval

variable {α β : Type} {leeway : Leeway}

/-- Whether a computation does only what it may do. -/
def Only (leeway : Leeway) (action : Eval α) : Prop :=
  ∀ start, leeway.applies start → Meets (fun stop after => leeway.stops stop ∧ leeway.moves start after)
    action start fun _ after => leeway.moves start after

namespace Only

theorem pure {value : α} : Only leeway (Pure.pure value) := fun start _ => Meets.pure (leeway.refl start)

theorem throw {stop : Stop} (allowed : leeway.stops stop) :
    Only leeway (MonadExcept.throw stop : Eval α) :=
  fun start _ => Meets.throw ⟨allowed, leeway.refl start⟩

theorem fault {cause : FaultCause} {pos : Option Position} :
    Only leeway (Eval.fault cause pos : Eval α) := throw (leeway.fault cause pos)

theorem bind {action : Eval α} {rest : α → Eval β} (first : Only leeway action)
    (second : ∀ value, Only leeway (rest value)) : Only leeway (action >>= rest) := by
  intro start applies
  have one := first start applies
  unfold Meets at one ⊢
  rw [bind_apply]
  rcases run : action start with ⟨stop | value, after⟩ <;> rw [run] at one
  · exact one
  · have two := second value after (leeway.keeps applies one)
    exact (two.allow fun _ _ both => ⟨both.1, leeway.trans one both.2⟩).mono fun _ _ => leeway.trans one

theorem get {rest : Machine → Eval α} (h : ∀ machine, Only leeway (rest machine)) :
    Only leeway (MonadState.get >>= rest) := fun start applies => Meets.get (h start start applies)

theorem modifyGet {change : Machine → α × Machine}
    (h : ∀ machine, leeway.applies machine → leeway.moves machine (change machine).2) :
    Only leeway (modifyGet change : Eval α) := fun start applies => h start applies

theorem ite {cond : Prop} [Decidable cond] {yes no : Eval α} (first : Only leeway yes)
    (second : Only leeway no) : Only leeway (if cond then yes else no) :=
  fun start applies => Meets.ite (fun _ => first start applies) fun _ => second start applies

theorem operation {res : Except Failure α}
    (allowed : ∀ failure, res = .error failure → leeway.stops (.failure failure)) :
    Only leeway (Eval.operation res) := by
  cases res with
  | ok value => exact pure
  | error failure => exact throw (allowed failure rfl)

theorem mapM {ι : Type} {f : ι → Eval α} (h : ∀ item, Only leeway (f item)) (items : List ι) :
    Only leeway (items.mapM f) := by
  induction items with
  | nil => exact pure
  | cons item rest ih =>
    rw [List.mapM_cons]
    exact bind (h item) fun _ => bind ih fun _ => pure

theorem read (env : Environment) (name : String) (pos : Option Position) :
    Only leeway (Eval.read env name pos) := by
  refine get fun machine => ?_
  split
  · exact pure
  · exact fault
  · exact fault

theorem assign {env : Environment} {name : String} {value : Value} {pos : Option Position}
    (bind : ∀ machine id, leeway.applies machine →
      leeway.moves machine { machine with heap := machine.heap.bind id name (some value) }) :
    Only leeway (Eval.assign env name value pos) := by
  refine get fun machine => ?_
  split
  · exact modifyGet fun machine => bind machine _
  · exact fault

theorem define {env : Environment} {name : String} {value : Option Value}
    (bind : ∀ machine, ∀ id ∈ env.head?, leeway.applies machine →
      leeway.moves machine { machine with heap := machine.heap.bind id name value }) :
    Only leeway (Eval.define env name value) := by
  unfold Eval.define
  split
  · exact pure
  · exact modifyGet fun machine => bind machine _ rfl

theorem hoist {env : Environment} (s : Stmt)
    (fresh : ∀ machine, leeway.moves machine { machine with nextStamp := machine.nextStamp + 1 })
    (bind : ∀ machine name value, ∀ id ∈ env.head?, leeway.applies machine →
      leeway.moves machine { machine with heap := machine.heap.bind id name value }) :
    Only leeway (Eval.hoist env s) := by
  unfold Eval.hoist
  split
  · exact Only.bind (modifyGet fun machine _ => fresh machine) fun _ => define fun machine => bind machine _ _
  · exact Only.bind (modifyGet fun machine _ => fresh machine) fun _ => define fun machine => bind machine _ _
  · exact pure

theorem member (id : Nat) (name : String) (pos : Position)
    (fresh : ∀ machine, leeway.moves machine { machine with nextStamp := machine.nextStamp + 1 }) :
    Only leeway (Eval.member id name pos) := by
  refine get fun machine => ?_
  dsimp only
  split
  · exact pure
  · exact bind (modifyGet fun machine _ => fresh machine) fun _ => pure
  · exact fault

theorem forM {ι : Type} {f : ι → Eval Unit} {items : List ι} (h : ∀ item ∈ items, Only leeway (f item)) :
    Only leeway (items.forM f) := by
  induction items with
  | nil => exact pure
  | cons item rest ih =>
    exact bind (h item List.mem_cons_self) fun _ => ih fun other mem => h other (List.mem_cons_of_mem _ mem)

theorem foldlM {ι : Type} {f : α → ι → Eval α} {items : List ι}
    (h : ∀ value, ∀ item ∈ items, Only leeway (f value item)) (value : α) :
    Only leeway (items.foldlM f value) := by
  induction items generalizing value with
  | nil => exact pure
  | cons item rest ih =>
    exact bind (h value item List.mem_cons_self) fun value =>
      ih (fun value other mem => h value other (List.mem_cons_of_mem _ mem)) value

theorem forLoop {body : Int → Eval Unit} (h : ∀ index, Only leeway (body index)) (count : Nat) (index : Int) :
    Only leeway (Eval.forLoop body count index) := by
  induction count generalizing index with
  | zero => exact pure
  | succ count ih => exact bind (h index) fun _ => ih (index + 1)

end Only

end Eval

/-! ## Observed evaluation -/

/-- Evaluation with `levels` levels left, where `observe` is run on the value of every expression. -/
def Setup.observed (setup : Setup) (observe : Expr → Value → Eval Unit) :
    (levels : Nat) → Evaluator
  | 0 => ⟨fun _ _ => throw (.failure .nesting), fun _ _ => throw (.failure .nesting),
      fun _ _ _ _ => throw (.failure .nesting)⟩
  | levels + 1 =>
    let inner := setup.observed observe levels
    { expr := fun env expr => do
        let value ← inner.evalExpr setup.host env expr
        observe expr value
        return value
      statement := inner.runStatement setup.patience
      call := inner.runCall setup.maxCallDepth }

/-- An observer that does nothing leaves evaluation as it is. -/
theorem Setup.observed_silent (setup : Setup) (levels : Nat) :
    setup.observed (fun _ _ => pure ()) levels =
      ⟨evalAt setup levels, runAt setup levels, callAt setup levels⟩ := by
  induction levels with
  | zero => rfl
  | succ levels ih =>
    simp only [observed, ih, pure_bind, bind_pure]
    rfl

/-- A type with its whole numbers widened to doubles. -/
def Ty.widened : Ty → Ty
  | .int => .float
  | .nilable inner => .nilable inner.widened
  | ty => ty

/-- The type that the value of a checked expression is noted to have. -/
def Expr.valueTy? (expr : Expr) : Option Ty :=
  if expr.note.widen then expr.ty.map Ty.widened else expr.ty

/-- Whether a value is of the type noted for its expression. -/
def Expr.admits (expr : Expr) (value : Value) (heap : Heap) : Bool :=
  expr.valueTy?.any fun ty => value.hasType heap ty

/-- Stops with a trap if a value is not of the type noted for its expression. -/
def Eval.demandType (trap : Stop) (expr : Expr) (value : Value) : Eval Unit := fun machine =>
  (if expr.admits value machine.heap then .ok () else .error trap, machine)

end FlowScript
