import FlowScript.Proofs.Parametricity
/-!
# Runs that are cut off

`Eval.CutBy stops x y` says that a computation does what another one does unless it ends by one of some stops.
Evaluation that is interrupted for a reason of its own goes along with evaluation up to that point, on a
bridge from every machine to itself.  None of the stops is a `return`, since a call takes the value of a
`return`.

Evaluation that stops at every value which is not of the type noted for its expression is of this kind.

Main statements: `Evaluator.Parametric.cutBy`, on whole programs, and `Setup.watched_eq`, that a watched run
that finds no value of a wrong type is a run of evaluation itself.
-/

namespace FlowScript

/-- Whether a computation does what another one does, unless it ends by one of some stops. -/
def Eval.CutBy {α : Type} (stops : Stop → Prop) (x y : Eval α) : Prop :=
  ∀ machine, (∃ stop, (x machine).1 = .error stop ∧ stops stop) ∨ x machine = y machine

/-- The link of every cell with itself. -/
abbrev Link.identity : Link := .diagonal fun _ => True

theorem Value.related_identity_iff {left right : Value} :
    Value.Related .identity left right ↔ left = right := by
  simp [Value.related_diagonal_iff]

theorem Environment.related_identity (env : Environment) :
    Environment.Related .identity env env :=
  Environment.related_diagonal_iff.mpr ⟨rfl, fun _ _ => trivial⟩

/-- Every machine goes along with itself, where some stops cut the left run off. If there is a limit on the calls
that are open, they are as many after a run as before it. -/
def Bridge.cutting (host : Host) {stops : Stop → Prop} (outside : ∀ value, ¬stops (.returned value))
    (limit : Option Nat) : Bridge host where
  machines link m n := m = n ∧ link = .identity ∧ ∀ most ∈ limit, m.depth ≤ most
  limit := limit
  moves m after := limit.isSome → after.depth = m.depth
  cut := stops
  uncut := outside
  refl _ _ := rfl
  trans one two some := (two some).trans (one some)
  depth machines := congrArg _ machines.1
  bounded machines := machines.2.2
  equal := by
    rintro _ m _ a b c d ⟨rfl, rfl, bound⟩ first second
    rw [Value.related_identity_iff.mp first, Value.related_identity_iff.mp second]
  display := by
    rintro _ m _ a b ⟨rfl, rfl, bound⟩ related
    rw [Value.related_identity_iff.mp related]
  hasType := by
    rintro _ m _ a b ⟨rfl, rfl, bound⟩ related ty
    rw [Value.related_identity_iff.mp related]
  lookup? := by
    rintro _ m _ e f ⟨rfl, rfl, bound⟩ related name
    obtain ⟨rfl, -⟩ := Environment.related_diagonal_iff.mp related
    cases m.heap.lookup? name e with
    | none => exact .none
    | some value => exact .some ((Value.option_related_diagonal_iff _ _).mpr ⟨rfl, by simp⟩)
  owner? := by
    rintro _ m _ e f ⟨rfl, rfl, bound⟩ related name
    obtain ⟨rfl, -⟩ := Environment.related_diagonal_iff.mp related
    cases m.heap.owner? name e with
    | none => exact .none
    | some id => exact .some ⟨rfl, trivial⟩
  object := by
    rintro _ m _ a b ⟨rfl, rfl, bound⟩ ⟨rfl, -⟩
    exact Instance.related_diagonal_iff.mpr ⟨rfl, by simp⟩
  bind := by
    rintro _ m _ a b v w ⟨rfl, rfl, bound⟩ ⟨rfl, -⟩ name related
    obtain ⟨rfl, -⟩ := (Value.option_related_diagonal_iff v w).mp related
    exact ⟨⟨rfl, rfl, bound⟩, fun _ => rfl⟩
  setField := by
    rintro _ m _ a b v w ⟨rfl, rfl, bound⟩ ⟨rfl, -⟩ field related
    rw [Value.related_identity_iff.mp related]
    exact ⟨⟨rfl, rfl, bound⟩, fun _ => rfl⟩
  pushFrame := by
    rintro _ m _ v w ⟨rfl, rfl, bound⟩ related
    rw [(Bindings.related_diagonal_iff.mp related).1]
    exact ⟨_, .refl _, ⟨rfl, rfl, bound⟩, ⟨rfl, trivial⟩, fun _ => rfl⟩
  pushInstance := by
    rintro _ m _ v w ⟨rfl, rfl, bound⟩ related
    rw [(Instance.related_diagonal_iff.mp related).1]
    exact ⟨_, .refl _, ⟨rfl, rfl, bound⟩, ⟨rfl, trivial⟩, fun _ => rfl⟩
  freshStamp := by
    rintro _ m _ ⟨rfl, rfl, bound⟩
    exact ⟨_, .refl _, ⟨rfl, rfl, bound⟩, rfl, fun _ => rfl⟩
  answer := by
    rintro _ m _ args others ⟨rfl, rfl, bound⟩ fn - related
    obtain ⟨rfl, -⟩ := (forall₂_diagonal_iff Value.related_diagonal_iff).mp related
    refine ⟨_, .refl _, ⟨rfl, rfl, bound⟩, ?_, fun _ => rfl⟩
    unfold HostReply.Related
    cases (fn.behavior m.heap args).result with
    | error failure => rfl
    | ok value => exact Value.related_identity_iff.mpr rfl
  setDepth := by
    rintro _ m _ ⟨rfl, rfl, -⟩ depth within
    exact ⟨rfl, rfl, within⟩
  deeper moves some := congrArg (· - 1) (moves some)

section

variable {α : Type} {host : Host} {stops : Stop → Prop} {outside : ∀ value, ¬stops (.returned value)}

/-- Computations that go along on that bridge end alike, unless the left one is cut off. -/
theorem Eval.Related.agree {post : Link → α → α → Prop} {limit : Option Nat} {x y : Eval α}
    (related : Eval.Related (.cutting host outside limit) post .identity x y)
    (equal : ∀ a b, post .identity a b → a = b) {machine : Machine}
    (bound : ∀ most ∈ limit, machine.depth ≤ most) :
    (∃ stop, (x machine).1 = .error stop ∧ stops stop) ∨
      x machine = y machine ∧ (limit.isSome → (x machine).2.depth = machine.depth) := by
  refine (related (.refl _) ⟨rfl, rfl, bound⟩).imp_right ?_
  rintro ⟨_, -, ⟨same, rfl, -⟩, outcome, moves⟩
  refine ⟨Prod.ext ?_ same, moves⟩
  generalize (x machine).1 = one at outcome
  generalize (y machine).1 = two at outcome
  cases outcome with
  | ok value => rw [equal _ _ value]
  | error stop =>
    cases stop with
    | returned value => rw [Value.related_identity_iff.mp value]
    | fault | failure | diverged => rfl

theorem Evaluator.Parametric.cutBy {inner outer : Evaluator}
    (h : inner.Parametric (.cutting host outside none) outer) (prog : Program) :
    Eval.CutBy stops (inner.execute prog) (outer.execute prog) := fun _ =>
  ((h.execute (fun _ => nofun) (Environment.related_identity _) prog).agree
    (fun _ _ => Value.related_identity_iff.mp) nofun).imp_right And.left

end

/-! ## Watched runs -/

/-- Whether an observer lets every value pass that is of the type noted for its expression. -/
def Eval.Admitting (observe : Expr → Value → Eval Unit) : Prop :=
  ∀ expr value machine, Expr.admits expr value machine.heap = true → observe expr value machine = (.ok (), machine)

theorem Eval.admitting_demandType (trap : Stop) : Admitting (demandType trap) := by
  intro expr value machine admitted
  rw [demandType, if_pos admitted]

variable {trap : Stop} {observe : Expr → Value → Eval Unit}

/-- A value of a wrong type is all that tells the observer that demands types from an admitting one. -/
theorem Eval.related_demandType (host : Host) (outside : ∀ value, Stop.returned value ≠ trap)
    (admitting : Admitting observe) (link : Link) (expr : Expr) (value other : Value)
    (same : Value.Related link value other) :
    Eval.Related (@Bridge.cutting host (· = trap) outside none) Eval.Related.Anything link
      (demandType trap expr value) (observe expr other) := by
  rintro now le machine _ ⟨rfl, rfl, -⟩
  obtain rfl := Value.related_identity_iff.mp (same.mono le)
  by_cases admitted : expr.admits value machine.heap = true
  · rw [RelatedAt, admitting_demandType trap expr value machine admitted, admitting expr value machine admitted]
    have unbounded : ∀ most ∈ (none : Option Nat), machine.depth ≤ most := by simp
    exact .inr ⟨_, .refl _, ⟨rfl, rfl, unbounded⟩, .ok trivial, fun limit => absurd limit Bool.false_ne_true⟩
  · rw [RelatedAt, demandType, if_neg admitted]
    exact .inl ⟨_, rfl, rfl⟩

/-- A run that stops at values of wrong types, and finds none, is a run with any admitting observer. -/
theorem Setup.watched_eq (setup : Setup) (prog : Program) (machine : Machine)
    (outside : ∀ value, Stop.returned value ≠ trap) (admitting : Eval.Admitting observe)
    (typed : ∀ after, (setup.observed (Eval.demandType trap) setup.levels).execute prog machine ≠
      (.error trap, after)) :
    (setup.observed (Eval.demandType trap) setup.levels).execute prog machine =
      (setup.observed observe setup.levels).execute prog machine := by
  have watched := setup.parametric_observed (@Bridge.cutting setup.host (· = trap) outside none)
    (.inl (Eq.refl setup.maxCallDepth)) nofun (Eval.related_demandType setup.host outside admitting) setup.levels
  refine (watched.cutBy prog machine).resolve_left ?_
  rintro ⟨_, stopped, rfl⟩
  exact typed _ (Prod.ext stopped rfl)

end FlowScript
