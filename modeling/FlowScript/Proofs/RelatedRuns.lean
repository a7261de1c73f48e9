import FlowScript.Proofs.EvalLogic
import FlowScript.Proofs.Renaming
/-!
# Computations that go along with each other

Two runs may be compared for many reasons: because their machines number their cells differently, because one
of them is cut off early, or, a run with itself, because of what it keeps.  A `Bridge` says what is the same
on both sides at each moment.  Its laws are on the primitive steps of evaluation only.

Run on machines of a bridge, two computations that are `Eval.Related` end alike, with related results, on
machines of the bridge again along a larger link, unless the left one is cut off.  The link grows as cells are
made, so a computation is related to another *from a link on*: on all machines related along a larger one.

Main statements: the ways of putting computations together keep them related
(`Eval.Related.bind`, `Eval.Related.get`, `Eval.Related.mapM` and their companions), and so do the
primitive computations (`Eval.Related.read`, `Eval.Related.assign` and their companions).
-/

namespace FlowScript

/-- Replies of the host with related results. -/
def HostReply.Related (link : Link) (left right : HostReply) : Prop :=
  match left.result, right.result with
  | .ok value, .ok other => Value.Related link value other
  | .error failure, .error other => failure = other
  | _, _ => False

/-- What a run may do to its machine, and what may cut it off. -/
structure Course where
  moves : Machine → Machine → Prop
  cut : Stop → Prop
  /-- A call takes the value of a `return`, so none of the stops that cut the run off is a `return`. -/
  uncut : ∀ value, ¬cut (.returned value)
  refl : ∀ machine, moves machine machine
  trans : ∀ {first second third}, moves first second → moves second third → moves first third

/-- A way in which two runs with the same host go along with each other, the left one on a course. -/
structure Bridge (host : Host) extends Course where
  /-- What two machines have in common. -/
  machines : Link → Machine → Machine → Prop
  /-- How many calls are open at most, if that is bounded. -/
  limit : Option Nat := none
  -- what programs can see is the same on both sides
  depth : ∀ {link m n}, machines link m n → m.depth = n.depth
  bounded : ∀ {link m n}, machines link m n → ∀ most ∈ limit, m.depth ≤ most := by exact fun _ _ => nofun
  equal : ∀ {link m n a b c d}, machines link m n → Value.Related link a b → Value.Related link c d →
    a.equal c = b.equal d
  display : ∀ {link m n a b}, machines link m n → Value.Related link a b →
    a.display m.heap = b.display n.heap
  hasType : ∀ {link m n a b}, machines link m n → Value.Related link a b → ∀ ty,
    a.hasType m.heap ty = b.hasType n.heap ty
  lookup? : ∀ {link m n e f}, machines link m n → Environment.Related link e f → ∀ name,
    Option.Rel (Option.Rel (Value.Related link)) (m.heap.lookup? name e) (n.heap.lookup? name f)
  owner? : ∀ {link m n e f}, machines link m n → Environment.Related link e f → ∀ name,
    Option.Rel link.frame (m.heap.owner? name e) (n.heap.owner? name f)
  object : ∀ {link m n a b}, machines link m n → link.object a b →
    Instance.Related link (m.heap.instanceAt a) (n.heap.instanceAt b)
  -- the primitive steps keep it so
  bind : ∀ {link m n a b v w}, machines link m n → link.frame a b → ∀ name,
    Option.Rel (Value.Related link) v w →
    machines link { m with heap := m.heap.bind a name v } { n with heap := n.heap.bind b name w } ∧
      moves m { m with heap := m.heap.bind a name v }
  setField : ∀ {link m n a b v w}, machines link m n → link.object a b → ∀ field,
    Value.Related link v w →
    machines link { m with heap := m.heap.setField a field v } { n with heap := n.heap.setField b field w } ∧
      moves m { m with heap := m.heap.setField a field v }
  pushFrame : ∀ {link m n v w}, machines link m n → Bindings.Related link v w → ∃ later, link.Le later ∧
    machines later { m with heap := m.heap.pushFrame v } { n with heap := n.heap.pushFrame w } ∧
      later.frame m.heap.frames.size n.heap.frames.size ∧ moves m { m with heap := m.heap.pushFrame v }
  pushInstance : ∀ {link m n v w}, machines link m n → Instance.Related link v w → ∃ later,
    link.Le later ∧
    machines later { m with heap := m.heap.pushInstance v } { n with heap := n.heap.pushInstance w } ∧
      later.object m.heap.instances.size n.heap.instances.size ∧
      moves m { m with heap := m.heap.pushInstance v }
  freshStamp : ∀ {link m n}, machines link m n → ∃ later, link.Le later ∧
    machines later { m with nextStamp := m.nextStamp + 1 } { n with nextStamp := n.nextStamp + 1 } ∧
      later.stamp m.nextStamp n.nextStamp ∧ moves m { m with nextStamp := m.nextStamp + 1 }
  answer : ∀ {link m n args others}, machines link m n → ∀ function ∈ host,
    List.Forall₂ (Value.Related link) args others → ∃ later, link.Le later ∧
      machines later (m.answered (function.behavior m.heap args))
        (n.answered (function.behavior n.heap others)) ∧
      HostReply.Related later (function.behavior m.heap args) (function.behavior n.heap others) ∧
      moves m (m.answered (function.behavior m.heap args))
  setDepth : ∀ {link m n}, machines link m n → ∀ depth, (∀ most ∈ limit, depth ≤ most) →
    machines link { m with depth } { n with depth }
  deeper : ∀ {m after : Machine}, moves { m with depth := m.depth + 1 } after →
    moves m { after with depth := after.depth - 1 }

/-- Outcomes of the same kind, with related results or stops. -/
inductive Outcome.Related {α β : Type} (link : Link) (result : α → β → Prop) :
    Except Stop α → Except Stop β → Prop where
  | ok {a : α} {b : β} (h : result a b) : Outcome.Related link result (.ok a) (.ok b)
  | error {s t : Stop} (h : Stop.Related link s t) : Outcome.Related link result (.error s) (.error t)

namespace Eval

variable {α β γ δ : Type} {host : Host}

/-- Computations that act alike on two machines, unless the left one is cut off. Their results are related by
`post`. -/
abbrev RelatedAt (bridge : Bridge host) (post : Link → α → β → Prop) (now : Link) (x : Eval α) (m : Machine)
    (y : Eval β) (n : Machine) : Prop :=
  (∃ stop, (x m).1 = .error stop ∧ bridge.cut stop) ∨
    ∃ later, now.Le later ∧ bridge.machines later (x m).2 (y n).2 ∧
      Outcome.Related later (post later) (x m).1 (y n).1 ∧ bridge.moves m (x m).2

/-- Computations that act alike on all machines of a bridge along `link` or a larger link. -/
def Related (bridge : Bridge host) (post : Link → α → β → Prop) (link : Link) (x : Eval α) (y : Eval β) :
    Prop :=
  ∀ ⦃now⦄, link.Le now → ∀ ⦃m n⦄, bridge.machines now m n → RelatedAt bridge post now x m y n

variable {bridge : Bridge host} {post : Link → α → β → Prop} {next : Link → γ → δ → Prop} {link : Link}

namespace Related

variable {x : Eval α} {y : Eval β} {f : α → Eval γ} {g : β → Eval δ} {ι : Type}
  {left right : Environment}

/-! ## Putting computations together -/

theorem mono (h : Related bridge post link x y) {later : Link} (le : link.Le later) :
    Related bridge post later x y :=
  fun _ above _ _ machines => h (le.trans above) machines

theorem pure {a : α} {b : β} (h : ∀ now, link.Le now → post now a b) :
    Related bridge post link (Pure.pure a : Eval α) (Pure.pure b : Eval β) :=
  fun now above _ _ machines => .inr ⟨now, .refl now, machines, .ok (h now above), bridge.refl _⟩

theorem throw {s t : Stop} (h : ∀ now, link.Le now → Stop.Related now s t) :
    Related bridge post link (MonadExcept.throw s : Eval α) (MonadExcept.throw t : Eval β) :=
  fun now above _ _ machines => .inr ⟨now, .refl now, machines, .error (h now above), bridge.refl _⟩

theorem fault (cause : FaultCause) (pos : Option Position) :
    Related bridge post link (Eval.fault cause pos : Eval α) (Eval.fault cause pos : Eval β) :=
  throw fun _ _ => .fault cause pos

/-- One computation after another, along links that grow. -/
theorem bind (first : Related bridge post link x y)
    (rest : ∀ now a b, link.Le now → post now a b → Related bridge next now (f a) (g b)) :
    Related bridge next link (x >>= f) (y >>= g) := by
  intro now above m n machines
  rw [RelatedAt, bind_apply, bind_apply]
  rcases first above machines with ⟨stop, stopped, cut⟩ | ⟨later, le, after, outcome, moves⟩
  · rcases hx : x m with ⟨r, m'⟩
    rw [hx] at stopped
    cases stopped
    exact .inl ⟨stop, rfl, cut⟩
  · rcases hx : x m with ⟨r, m'⟩
    rcases hy : y n with ⟨s, n'⟩
    rw [hx, hy] at after outcome
    rw [hx] at moves
    cases outcome with
    | ok res =>
      refine (rest later _ _ (above.trans le) res (.refl later) after).imp_right ?_
      rintro ⟨final, further, ended, second, more⟩
      exact ⟨final, le.trans further, ended, second, bridge.trans moves more⟩
    | error stop => exact .inr ⟨later, le, after, .error stop, moves⟩

/-- What follows may use that the machines are related. -/
theorem assuming (h : ∀ now m n, link.Le now → bridge.machines now m n → Related bridge post now x y) :
    Related bridge post link x y :=
  fun now above m n machines => h now m n above machines (.refl now) machines

/-- Reading the machine: what follows starts on the machines that are read. -/
theorem getAt {f : Machine → Eval γ} {g : Machine → Eval δ}
    (h : ∀ now m n, link.Le now → bridge.machines now m n → RelatedAt bridge next now (f m) m (g n) n) :
    Related bridge next link (MonadState.get >>= f) (MonadState.get >>= g) :=
  fun now above m n machines => h now m n above machines

/-- Reading the machine: what follows may use that the machines are related. -/
theorem get {f : Machine → Eval γ} {g : Machine → Eval δ}
    (h : ∀ now m n, link.Le now → bridge.machines now m n → Related bridge next now (f m) (g n)) :
    Related bridge next link (MonadState.get >>= f) (MonadState.get >>= g) :=
  getAt fun now m n above machines => h now m n above machines (.refl now) machines

theorem modify {f g : Machine → Machine}
    (h : ∀ now m n, link.Le now → bridge.machines now m n →
      bridge.machines now (f m) (g n) ∧ bridge.moves m (f m)) :
    Related bridge (fun _ _ _ => True) link (modify f : Eval Unit) (modify g : Eval Unit) := by
  intro now above m n machines
  obtain ⟨after, moves⟩ := h now m n above machines
  exact .inr ⟨now, .refl now, after, .ok trivial, moves⟩

theorem ite {cond other : Prop} [Decidable cond] [Decidable other] (same : cond ↔ other)
    {x' : Eval α} {y' : Eval β} (yes : Related bridge post link x y) (no : Related bridge post link x' y') :
    Related bridge post link (if cond then x else x') (if other then y else y') := by
  by_cases h : cond
  · rw [if_pos h, if_pos (same.mp h)]
    exact yes
  · rw [if_neg h, if_neg fun h' => h (same.mpr h')]
    exact no

/-- A check that stops both computations, or neither, before what follows. -/
theorem faultIf (cond : Prop) [Decidable cond] (cause : FaultCause) (pos : Option Position)
    {x : Eval γ} {y : Eval δ} (rest : Related bridge next link x y) :
    Related bridge next link (if cond then Eval.fault cause pos >>= f else x)
      (if cond then Eval.fault cause pos >>= g else y) :=
  ite Iff.rfl (throw fun _ _ => .fault cause pos) rest

/-! ## Lists -/

/-- Computations on the members of one list, with related results. -/
theorem mapM {f : ι → Eval α} {g : ι → Eval β}
    (mono : ∀ small large a b, Link.Le small large → post small a b → post large a b) (items : List ι)
    (h : ∀ item ∈ items, Related bridge post link (f item) (g item)) :
    Related bridge (fun now => List.Forall₂ (post now)) link (items.mapM f) (items.mapM g) := by
  induction items generalizing link with
  | nil => exact pure fun _ _ => .nil
  | cons item rest ih =>
    rw [List.mapM_cons, List.mapM_cons]
    refine bind (h item (by simp)) fun now a b le first => ?_
    refine bind (ih fun other mem => (h other (by simp [mem])).mono le) ?_
    intro later as bs further others
    exact pure fun final end' => .cons (mono _ _ _ _ (further.trans end') first)
      (others.imp fun _ _ => mono _ _ _ _ end')

theorem forM {f g : ι → Eval Unit} (items : List ι)
    (h : ∀ item ∈ items, Related bridge (fun _ _ _ => True) link (f item) (g item)) :
    Related bridge (fun _ _ _ => True) link (items.forM f) (items.forM g) := by
  induction items generalizing link with
  | nil => exact pure fun _ _ => trivial
  | cons item rest ih =>
    exact bind (h item (by simp)) fun now _ _ le _ =>
      ih fun other mem => (h other (by simp [mem])).mono le

/-- A computation on each member of a list that starts from the result on the one before. -/
theorem foldlM {f : α → ι → Eval α} {g : β → ι → Eval β} (items : List ι)
    (step : ∀ now a b, ∀ item ∈ items, link.Le now → post now a b →
      Related bridge post now (f a item) (g b item)) {a : α} {b : β} (start : post link a b)
    (mono : ∀ small large a b, Link.Le small large → post small a b → post large a b) :
    Related bridge post link (items.foldlM f a) (items.foldlM g b) := by
  induction items generalizing link a b with
  | nil => exact pure fun now le => mono _ _ _ _ le start
  | cons item rest ih =>
    rw [List.foldlM_cons, List.foldlM_cons]
    refine bind (step link a b item (by simp) (.refl link) start) fun now c d le res => ?_
    exact ih (fun later c d other mem further =>
      step later c d other (by simp [mem]) (le.trans further)) res

/-! ## Primitive computations -/

/-- Related values, as what holds of the results of two computations. -/
abbrev Values : Link → Value → Value → Prop := Value.Related

/-- Corresponding environments, as what holds of the results of two computations. -/
abbrev Environments : Link → Environment → Environment → Prop := Environment.Related

/-- No statement on the results of two computations. -/
abbrev Anything : Link → α → β → Prop := fun _ _ _ => True

/-- An operation with equal outcomes. -/
theorem operation {x y : Except Failure α} (same : x = y) :
    Related bridge (fun _ a b => a = b ∧ x = .ok a) link (Eval.operation x) (Eval.operation y) := by
  subst same
  cases x with
  | ok value => exact pure fun _ _ => ⟨rfl, rfl⟩
  | error failure => exact throw fun _ _ => .failure failure

/-- An operation with equal outcomes, which hold no cells. -/
theorem plainOperation {x y : Except Failure Value} (same : x = y) (settles : Value.Settles x) :
    Related bridge Values link (Eval.operation x) (Eval.operation y) := by
  subst same
  cases x with
  | ok value => exact pure fun _ _ => .of_isPlain settles
  | error failure => exact throw fun _ _ => .failure failure

theorem display {a b : Value} (value : Value.Related link a b) :
    Related bridge (fun _ s t => s = t) link (Eval.display a) (Eval.display b) := by
  refine get fun now m n le machines => ?_
  rw [bridge.display machines (value.mono le)]
  cases b.display n.heap with
  | ok text => exact pure fun _ _ => rfl
  | error failure => exact throw fun _ _ => .failure failure

theorem freshStamp : Related bridge (fun now s t => now.stamp s t) link Eval.freshStamp Eval.freshStamp := by
  intro now _ m n machines
  obtain ⟨later, le, after, stamp, moves⟩ := bridge.freshStamp machines
  exact .inr ⟨later, le, after, .ok stamp, moves⟩

theorem pushFrame {left right : Bindings} (bindings : Bindings.Related link left right)
    {outer other : Environment} (environments : Environment.Related link outer other) :
    Related bridge Environments link (Eval.pushFrame left outer) (Eval.pushFrame right other) := by
  intro now above m n machines
  obtain ⟨later, le, after, frame, moves⟩ := bridge.pushFrame machines (bindings.mono above)
  exact .inr ⟨later, le, after, .ok (.cons frame (environments.mono (above.trans le))), moves⟩

theorem pushInstance {left right : Instance} (related : Instance.Related link left right) :
    Related bridge (fun now a b => now.object a b) link (Eval.pushInstance left)
      (Eval.pushInstance right) := by
  intro now above m n machines
  obtain ⟨later, le, after, object, moves⟩ := bridge.pushInstance machines (related.mono above)
  exact .inr ⟨later, le, after, .ok object, moves⟩

/-- Binding a variable of corresponding frames. -/
theorem bindVariable {a b : Nat} (frames : link.frame a b) (name : String)
    {value other : Option Value} (related : Option.Rel (Value.Related link) value other) :
    Related bridge Anything link (Eval.modifyHeap fun heap => heap.bind a name value)
      (Eval.modifyHeap fun heap => heap.bind b name other) :=
  modify fun _ _ _ le machines =>
    bridge.bind machines (le.frame _ _ frames) name (Value.Related.option_mono le related)

theorem define (environments : Environment.Related link left right) (name : String)
    {value other : Option Value} (related : Option.Rel (Value.Related link) value other) :
    Related bridge Anything link (Eval.define left name value) (Eval.define right name other) := by
  cases environments with
  | nil => exact pure fun _ _ => trivial
  | cons frames _ => exact bindVariable frames name related

theorem setField {a b : Nat} (objects : link.object a b) (field : String) {value other : Value}
    (related : Value.Related link value other) :
    Related bridge Anything link (Eval.modifyHeap fun heap => heap.setField a field value)
      (Eval.modifyHeap fun heap => heap.setField b field other) :=
  modify fun _ _ _ le machines => bridge.setField machines (le.object _ _ objects) field (related.mono le)

theorem read (environments : Environment.Related link left right) (name : String)
    (pos : Option Position) :
    Related bridge Values link (Eval.read left name pos) (Eval.read right name pos) := by
  refine get fun now m n le machines => ?_
  have found := bridge.lookup? machines (environments.mono le) name
  rcases hl : m.heap.lookup? name left with _ | _ | a <;>
    rcases hr : n.heap.lookup? name right with _ | _ | b <;> rw [hl, hr] at found
  case none.none => exact fault _ _
  case some.none.some.none => exact fault _ _
  case some.some.some.some =>
    rcases found with ⟨⟨value⟩⟩
    exact pure fun _ further => value.mono further
  all_goals rcases found with ⟨⟨_⟩⟩

theorem assign (environments : Environment.Related link left right) (name : String) {value other : Value}
    (related : Value.Related link value other) (pos : Option Position) :
    Related bridge Anything link (Eval.assign left name value pos)
      (Eval.assign right name other pos) := by
  refine get fun now m n le machines => ?_
  have found := bridge.owner? machines (environments.mono le) name
  cases hl : m.heap.owner? name left <;> cases hr : n.heap.owner? name right <;>
    rw [hl, hr] at found <;> cases found
  · exact fault _ _
  · exact bindVariable ‹_› name (.some (related.mono le))

/-- The inside of a call, where one more may be open. -/
theorem deeper (h : Related bridge post link x y) {m n : Machine} (machines : bridge.machines link m n)
    (room : ∀ most ∈ bridge.limit, m.depth < most) :
    RelatedAt bridge post link (Eval.deeper x) m (Eval.deeper y) n := by
  have inside := bridge.setDepth machines (m.depth + 1) room
  have same := bridge.depth machines
  rw [RelatedAt, Eval.deeper, Eval.deeper, ← same]
  refine (h (.refl _) inside).imp_right ?_
  rintro ⟨later, le, after, outcome, moves⟩
  have outside := bridge.setDepth after ((x { m with depth := m.depth + 1 }).2.depth - 1) fun most mem =>
    Nat.le_trans (Nat.sub_le _ _) (bridge.bounded after most mem)
  refine ⟨later, le, ?_, outcome, bridge.deeper moves⟩
  show bridge.machines later _ { (y { n with depth := m.depth + 1 }).2 with depth := _ }
  rw [← bridge.depth after]
  exact outside

/-- A call in a frame of its own. -/
theorem enter {now : Link} {m n : Machine} (machines : bridge.machines now m n)
    (room : ∀ most ∈ bridge.limit, m.depth < most) {left right : Bindings}
    (bindings : Bindings.Related now left right) {outer other : Environment}
    (environments : Environment.Related now outer other) {f : Environment → Eval α} {g : Environment → Eval β}
    (inside : ∀ later e e', now.Le later → Environment.Related later e e' →
      Related bridge post later (f e) (g e')) :
    RelatedAt bridge post now (Eval.pushFrame left outer >>= fun env => Eval.deeper (f env)) m
      (Eval.pushFrame right other >>= fun env => Eval.deeper (g env)) n := by
  obtain ⟨later, le, after, frame, moves⟩ := bridge.pushFrame machines bindings
  refine ((inside later _ _ le (.cons frame (environments.mono le))).deeper after room).imp_right ?_
  rintro ⟨last, further, after, outcome, more⟩
  exact ⟨last, le.trans further, after, outcome, bridge.trans moves more⟩

/-- What a body returns. A body that is cut off does not return. -/
theorem returned {x y : Eval Unit} (h : Related bridge Anything link x y) :
    Related bridge Values link (Eval.returned x) (Eval.returned y) := by
  intro now above m n machines
  simp only [RelatedAt, Eval.returned]
  rcases h above machines with ⟨stop, stopped, cut⟩ | ⟨later, le, after, outcome, moves⟩
  · rcases hx : x m with ⟨r, m'⟩
    rw [hx] at stopped
    cases stopped
    cases stop with
    | returned value => exact absurd cut (bridge.uncut value)
    | _ => exact .inl ⟨_, rfl, cut⟩
  · rcases hx : x m with ⟨r, m'⟩
    rcases hy : y n with ⟨s, n'⟩
    rw [hx, hy] at after outcome
    rw [hx] at moves
    refine .inr ?_
    cases outcome with
    | ok _ => exact ⟨later, le, after, .ok .nil, moves⟩
    | error stop =>
      cases stop with
      | returned value => exact ⟨later, le, after, .ok value, moves⟩
      | fault cause pos => exact ⟨later, le, after, .error (.fault cause pos), moves⟩
      | failure failure => exact ⟨later, le, after, .error (.failure failure), moves⟩
      | diverged => exact ⟨later, le, after, .error .diverged, moves⟩

/-- The check of the limits on calls, of which the left one may be tighter. -/
theorem callDepth {tight wide : Nat} {name : String} {pos : Option Position}
    (limits : tight = wide ∨ tight ≤ wide ∧ bridge.cut (.fault (.callDepth tight name) pos)) {now : Link}
    {m n : Machine} (machines : bridge.machines now m n) {x : Eval γ} {y : Eval δ}
    (rest : m.depth < tight → RelatedAt bridge next now x m y n) :
    RelatedAt bridge next now
      (if tight ≤ m.depth then Eval.fault (.callDepth tight name) pos >>= f else x) m
      (if wide ≤ n.depth then Eval.fault (.callDepth wide name) pos >>= g else y) n := by
  rw [← bridge.depth machines]
  by_cases deep : tight ≤ m.depth
  · rw [if_pos deep]
    rcases limits with rfl | ⟨-, cut⟩
    · rw [if_pos deep]
      exact throw (fun _ _ => .fault _ _) (.refl now) machines
    · exact .inl ⟨_, rfl, cut⟩
  · have shallow := Nat.lt_of_not_le deep
    have wider : tight ≤ wide := limits.elim Nat.le_of_eq And.left
    rw [if_neg deep, if_neg (Nat.not_le_of_lt (Nat.lt_of_lt_of_le shallow wider))]
    exact rest shallow

end Related

end Eval

end FlowScript
