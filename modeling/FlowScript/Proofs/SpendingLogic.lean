import FlowScript.Proofs.BodyBooks
import FlowScript.Proofs.Verdicts
/-!
# What a check may spend

`Check.Accounts` bounds what a computation does to the books on function bodies: how many bodies of a
kind it adds to those that are checked or wait, and how much work it adds to what waits.  Where no error
is reported the first bound is attained, and something can be said of the state that is reached; mostly
that what waits got less (`Check.Spends`).

It also says how many levels are enough.  With more levels than the work that waits and the size of what
is checked, a computation is not broken off as too deep, and then one with another level to spare does
the same.  So the size of a program bounds how deep its check nests, whatever bodies are checked from
within others.
-/

namespace FlowScript

namespace Check

variable {α β : Type}

/-- Whether a computation from a state adds at most `count` bodies of a kind and at most `size` to the
work that waits; whether `levels` levels are enough for it, and then `other` does the same; and whether,
if it accepts what is plain, it adds `count` bodies, keeps the books, and comes to a state that is
`reached`. -/
structure Accounts (p : Block Stmt → Bool) (plain : Prop) (levels count size : Nat)
    (reached : α → Analyzer → Prop) (start : Analyzer) (action other : Check α) : Prop where
  charge : (action start).result.2.charge p ≤ start.charge p + count
  work : (action start).result.2.work ≤ start.work + size
  enough : start.work + size < levels →
    (action start).result.1 ≠ .error .tooDeep ∧ other start = action start
  exact : plain → start.Books → ∀ result after, Accepts action start result after →
    after.Books ∧ after.charge p = start.charge p + count ∧ reached result after

/-- Whether a computation spends `count` bodies and `size`, and what waits gets less. -/
abbrev Spends (p : Block Stmt → Bool) (plain : Prop) (levels count size : Nat) (start : Analyzer)
    (action other : Check α) : Prop :=
  Accounts p plain levels count size (fun _ after => start.Drains after) start action other

/-- Whether two ways of checking some nodes spend what the nodes have, their bodies and two for each of
them, or less if that is strict. -/
def Pays (p : Block Stmt → Bool) (levels : Nat) : Grading := fun strict nodes {_} action other =>
  ∀ start, Spends p (∀ node ∈ nodes, node.Plain) levels (tally p nodes) (2 * nodes.length - strict.toNat)
    start action other

variable {p : Block Stmt → Bool} {plain : Prop} {levels count size more further : Nat}
  {start : Analyzer}

/-! ## Rules for all states that may be reached -/

namespace Accounts

variable {reached wider : α → Analyzer → Prop} {final : β → Analyzer → Prop}
variable {action other : Check α} {rest others : α → Check β} {change : Analyzer → Analyzer}

theorem still (h : Still start action) (quiet : ∀ value after, start.Quiet after → reached value after) :
    Accounts p plain levels 0 0 reached start action action where
  charge := Nat.le_of_eq (h.quiet.charge_eq p)
  work := Nat.le_of_eq h.quiet.work_eq
  enough _ := ⟨h.shallow, rfl⟩
  exact _ books res after accepted := by
    obtain ⟨reports, run, -⟩ := accepted
    have unchanged := h.quiet
    rw [run] at unchanged
    exact ⟨unchanged.books books, unchanged.charge_eq p, quiet res after unchanged⟩

/-- A step that does not touch the books. -/
theorem quiet (h : Still start action) :
    Accounts p plain levels 0 0 (fun _ after => start.Quiet after) start action action :=
  still h fun _ _ => id

theorem weaken (h : Accounts p plain levels count size reached start action other)
    (imp : plain → ∀ value after, reached value after → wider value after) :
    Accounts p plain levels count size wider start action other where
  charge := h.charge
  work := h.work
  enough := h.enough
  exact given books res after accepted := by
    obtain ⟨kept, same, holds⟩ := h.exact given books res after accepted
    exact ⟨kept, same, imp given res after holds⟩

theorem under {narrower : Prop} (h : Accounts p plain levels count size reached start action other)
    (imp : narrower → plain) :
    Accounts p narrower levels count size reached start action other where
  charge := h.charge
  work := h.work
  enough := h.enough
  exact given := h.exact (imp given)

/-- Where something is said of plain programs, the books are in order at the start. -/
theorem assuming (h : Accounts p (plain ∧ start.Books) levels count size reached start action other) :
    Accounts p plain levels count size reached start action other where
  charge := h.charge
  work := h.work
  enough := h.enough
  exact given books := h.exact ⟨given, books⟩ books

/-- The same bodies, and no more work. -/
theorem within (h : Accounts p plain levels count size reached start action other) (same : count = more)
    (le : size ≤ further) : Accounts p plain levels more further reached start action other where
  charge := same ▸ h.charge
  work := Nat.le_trans h.work (Nat.add_le_add_left le _)
  enough room := h.enough (by omega)
  exact given books res after accepted := same ▸ h.exact given books res after accepted

/-- A rule may use one level more than the parts it checks. -/
theorem deeper (h : Accounts p plain levels count size reached start action other) (same : count = more)
    (lt : size < further) :
    Accounts p plain (levels + 1) more further reached start action other where
  charge := same ▸ h.charge
  work := Nat.le_trans h.work (Nat.add_le_add_left (Nat.le_of_lt lt) _)
  enough room := h.enough (by omega)
  exact given books res after accepted := same ▸ h.exact given books res after accepted

/-- A step that does not touch the books, where nothing that is plain is accepted. -/
theorem refused (h : Still start action)
    (never : plain → ∀ res after, ¬Accepts action start res after) :
    Accounts p plain levels count size reached start action action where
  charge := Nat.le_trans (Nat.le_of_eq (h.quiet.charge_eq p)) (Nat.le_add_right _ _)
  work := Nat.le_trans (Nat.le_of_eq h.quiet.work_eq) (Nat.le_add_right _ _)
  enough _ := ⟨h.shallow, rfl⟩
  exact given _ res after accepted := absurd accepted (never given res after)

/-- One computation after another. What is said of the second one may use what results of the first one
are like, and where something is said of plain programs what the first one reached. -/
theorem bind_yields {post : α → Prop} (yields : Yields post action)
    (first : Accounts p plain levels count size reached start action other)
    (second : ∀ value, post value → ∀ mid, Accounts p (plain ∧ reached value mid) levels more
      further final mid (rest value) (others value)) :
    Accounts p plain levels (count + more) (size + further) final start (action >>= rest)
      (other >>= others) := by
  obtain ⟨charge, work, enough, exact⟩ := first
  rcases run : action start with ⟨⟨outcome, mid⟩, reports⟩
  rw [run] at charge work enough
  cases outcome with
  | error stop =>
    -- what stops the first computation stops the whole, before the second one is charged
    have same : (action >>= rest) start = ⟨(.error stop, mid), reports⟩ := by rw [bind_apply, run]
    refine ⟨?_, ?_, fun room => ?_, fun _ _ res after accepted => ?_⟩
    · rw [same]
      exact Nat.le_trans charge (by omega)
    · rw [same]
      exact Nat.le_trans work (by omega)
    · obtain ⟨shallow, alike⟩ := enough (by omega)
      rw [same, bind_apply, alike]
      exact ⟨fun deep => shallow (by cases deep; rfl), rfl⟩
    · obtain ⟨reports, broken, -⟩ := accepted
      rw [same] at broken
      cases broken
  | ok value =>
    have same : (action >>= rest) start =
        ⟨(rest value mid).result, reports ++ (rest value mid).reports⟩ := by rw [bind_apply, run]
    have next := second value (yields start value (by rw [run])) mid
    dsimp only at charge work
    refine ⟨?_, ?_, fun room => ?_, fun given books res after accepted => ?_⟩
    · rw [same]
      exact Nat.le_trans next.charge (by omega)
    · rw [same]
      exact Nat.le_trans next.work (by omega)
    · obtain ⟨-, alike⟩ := enough (by omega)
      obtain ⟨shallow, alikeNext⟩ := next.enough (by omega)
      rw [same, bind_apply, alike]
      exact ⟨shallow, by dsimp only; rw [alikeNext]⟩
    · obtain ⟨value, between, head, tail⟩ := accepts_bind.mp accepted
      obtain ⟨kept, exactly, reached⟩ := exact given books value between head
      obtain ⟨reports, ran, -⟩ := head
      cases run.symm.trans ran
      obtain ⟨keptAfter, exactlyAfter, holds⟩ := next.exact ⟨given, reached⟩ kept res after tail
      exact ⟨keptAfter, by omega, holds⟩

theorem bind (first : Accounts p plain levels count size reached start action other)
    (second : ∀ value mid, Accounts p (plain ∧ reached value mid) levels more further final
      mid (rest value) (others value)) :
    Accounts p plain levels (count + more) (size + further) final start (action >>= rest)
      (other >>= others) :=
  have yields : Yields Anything action := fun _ _ _ => trivial
  bind_yields yields first fun value _ => second value

/-- What spends nothing comes first. -/
theorem freeThen (first : Accounts p plain levels 0 0 reached start action other)
    (second : ∀ value mid, Accounts p (plain ∧ reached value mid) levels count size final mid
      (rest value) (others value)) :
    Accounts p plain levels count size final start (action >>= rest) (other >>= others) :=
  (first.bind second).within (Nat.zero_add _) (by omega)

/-- What spends nothing comes last. -/
theorem thenFree (first : Accounts p plain levels count size reached start action other)
    (second : ∀ value mid, Accounts p (plain ∧ reached value mid) levels 0 0 final mid
      (rest value) (others value)) :
    Accounts p plain levels count size final start (action >>= rest) (other >>= others) :=
  first.bind second

/-- Steps that do not touch the books come first. -/
theorem quietThen {mid : Analyzer} (first : Still mid action)
    (second : ∀ value last, Accounts p (plain ∧ start.Quiet last) levels count size final last
      (rest value) (others value)) :
    Accounts p (plain ∧ start.Quiet mid) levels count size final mid (action >>= rest)
      (action >>= others) :=
  (quiet first).freeThen fun value last =>
    (second value last).under fun both => ⟨both.1.1, both.1.2.trans both.2⟩

theorem quietly (h : Accounts p (plain ∧ start.Quiet start) levels count size reached start action other) :
    Accounts p plain levels count size reached start action other :=
  h.under fun given => ⟨given, .refl start⟩

theorem get {rest others : Analyzer → Check β}
    (h : Accounts p plain levels count size final start (rest start) (others start)) :
    Accounts p plain levels count size final start (MonadState.get >>= rest)
      (MonadState.get >>= others) :=
  ⟨h.charge, h.work, h.enough, h.exact⟩

/-- A change of the state comes first, by which bodies and work come, or go away for what follows.  Where
work goes away, what follows may have fewer levels. -/
theorem modifyThen (lift : Nat) {rest others : Unit → Check β}
    (charge : (change start).charge p + more ≤ start.charge p + count)
    (work : (change start).work + (further + lift) ≤ start.work + size)
    (keeps : plain → start.Books →
      (change start).Books ∧ (change start).charge p + more = start.charge p + count)
    (h : Accounts p (plain ∧ start.Books) levels more further final (change start) (rest ()) (others ())) :
    Accounts p plain (levels + lift) count size final start (modify change >>= rest)
      (modify change >>= others) where
  charge := Nat.le_trans h.charge charge
  work := Nat.le_trans h.work (by omega)
  enough room := h.enough (by omega)
  exact given books res after accepted := by
    obtain ⟨changed, spent⟩ := keeps given books
    obtain ⟨_, mid, head, tail⟩ := accepts_bind.mp accepted
    obtain rfl := accepts_modify.mp head
    obtain ⟨kept, same, holds⟩ := h.exact ⟨given, books⟩ changed res after tail
    exact ⟨kept, same.trans spent, holds⟩

/-- A change of the state, by which work may go away and bodies may come. -/
theorem modify {reached : Unit → Analyzer → Prop}
    (charge : (change start).charge p ≤ start.charge p + count)
    (work : (change start).work ≤ start.work + size) (keeps : plain → start.Books → (change start).Books ∧
      (change start).charge p = start.charge p + count ∧ reached () (change start)) :
    Accounts p plain levels count size reached start (modify change) (modify change) where
  charge := charge
  work := work
  enough _ := ⟨nofun, rfl⟩
  exact given books res after accepted := by
    obtain rfl := accepts_modify.mp accepted
    exact keeps given books

theorem pure {value : α} (h : plain → reached value start) :
    Accounts p plain levels 0 0 reached start (Pure.pure value) (Pure.pure value) where
  charge := Nat.le_refl _
  work := Nat.le_refl _
  enough _ := ⟨nofun, rfl⟩
  exact given books res after accepted := by
    obtain ⟨rfl, rfl⟩ := accepts_pure.mp accepted
    exact ⟨books, rfl, h given⟩

/-- Without a level left nothing is checked, and no size is small enough. -/
theorem tooDeep :
    Accounts p plain 0 count size reached start (throw .tooDeep) other where
  charge := Nat.le_add_right _ _
  work := Nat.le_add_right _ _
  enough room := absurd room (Nat.not_lt_zero _)
  exact _ _ _ _ accepted := absurd accepted accepts_throw

theorem ite {cond : Prop} [Decidable cond] {yes no others otherwise : Check α}
    (first : cond → Accounts p plain levels count size reached start yes others)
    (second : ¬cond → Accounts p plain levels count size reached start no otherwise) :
    Accounts p plain levels count size reached start (if cond then yes else no)
      (if cond then others else otherwise) := by
  by_cases h : cond
  · rw [if_pos h, if_pos h]
    exact first h
  · rw [if_neg h, if_neg h]
    exact second h

end Accounts

/-! ## Rules where what waits gets less -/

namespace Spends

variable {action other : Check α} {rest others : α → Check β}

theorem still (h : Still start action) : Spends p plain levels 0 0 start action action :=
  Accounts.still h fun _ _ quiet => quiet.drains

theorem pure (value : α) : Spends p plain levels 0 0 start (Pure.pure value) (Pure.pure value) :=
  still (.pure value)

theorem under {narrower : Prop} (h : Spends p plain levels count size start action other)
    (imp : narrower → plain) : Spends p narrower levels count size start action other :=
  Accounts.under h imp

theorem bind (first : Spends p plain levels count size start action other)
    (second : ∀ value mid, Spends p plain levels more further mid (rest value) (others value)) :
    Spends p plain levels (count + more) (size + further) start (action >>= rest)
      (other >>= others) := by
  refine Accounts.bind first fun value mid => ((second value mid).under And.left).weaken ?_
  exact fun given _ _ later => given.2.trans later

theorem freeThen (first : Spends p plain levels 0 0 start action other)
    (second : ∀ value mid, Spends p plain levels count size mid (rest value) (others value)) :
    Spends p plain levels count size start (action >>= rest) (other >>= others) :=
  (first.bind second).within (Nat.zero_add _) (by omega)

/-- What spends nothing comes last. -/
theorem thenFree (first : Spends p plain levels count size start action other)
    (second : ∀ value mid, Spends p plain levels 0 0 mid (rest value) (others value)) :
    Spends p plain levels count size start (action >>= rest) (other >>= others) :=
  first.bind second

/-- A step that does not touch the books comes first. -/
theorem after (first : Still start action)
    (second : ∀ value mid, Spends p plain levels count size mid (rest value) (others value)) :
    Spends p plain levels count size start (action >>= rest) (action >>= others) :=
  (still first).freeThen second

/-- Steps that do not touch the books come last. -/
theorem followed (first : Spends p plain levels count size start action other)
    (second : ∀ value mid, Still mid (rest value)) :
    Spends p plain levels count size start (action >>= rest) (other >>= rest) :=
  first.thenFree fun value mid => still (second value mid)

/-- A change of the state by which bodies of a kind are added to those that were checked. -/
theorem modifyThen {change : Analyzer → Analyzer} {rest others : Unit → Check β}
    (charge : (change start).charge p = start.charge p + count)
    (work : (change start).work = start.work)
    (keeps : start.Books → (change start).Books ∧ start.Drains (change start))
    (h : ∀ mid, Spends p plain levels more size mid (rest ()) (others ())) :
    Spends p plain levels (count + more) size start (modify change >>= rest)
      (modify change >>= others) := by
  have changed : Spends p plain levels count 0 start (modify change) (modify change) :=
    .modify (Nat.le_of_eq charge) (Nat.le_of_eq work) fun _ books =>
      ⟨(keeps books).1, charge, (keeps books).2⟩
  exact (changed.bind fun _ mid => h mid).within rfl (by omega)

theorem map {f : α → β} (h : Spends p plain levels count size start action other) :
    Spends p plain levels count size start (f <$> action) (f <$> other) := by
  rw [← bind_pure_comp, ← bind_pure_comp]
  exact h.followed fun _ _ => .pure _

theorem ensuring {cleanup : Analyzer → Analyzer} (h : Spends p plain levels count size start action other)
    (clean : ∀ a : Analyzer, a.Quiet (cleanup a)) :
    Spends p plain levels count size start (ensuring cleanup action) (ensuring cleanup other) where
  charge := Nat.le_trans (Nat.le_of_eq ((clean _).charge_eq p)) h.charge
  work := Nat.le_trans (Nat.le_of_eq (clean _).work_eq) h.work
  enough room := by
    obtain ⟨shallow, alike⟩ := h.enough room
    exact ⟨shallow, by rw [Check.ensuring, Check.ensuring, alike]⟩
  exact given books res after accepted := by
    obtain ⟨mid, inner, rfl⟩ := accepts_ensuring.mp accepted
    obtain ⟨kept, same, drains⟩ := h.exact given books res mid inner
    exact ⟨(clean mid).books kept, ((clean mid).charge_eq p).trans same,
      drains.trans (clean mid).drains⟩

/-- At the end of a body only what is being checked changes. -/
theorem quiet_closing (start : Analyzer) (key : Option FunctionKey) (action : Check α) :
    (action start).result.2.Quiet (closing key action start).result.2 ∧
      ((action start).result.1 ≠ .error .tooDeep →
        (closing key action start).result.1 ≠ .error .tooDeep) := by
  unfold closing
  rcases action start with ⟨⟨outcome, after⟩, reports⟩
  cases key with
  | none => exact ⟨.refl after, id⟩
  | some key =>
    dsimp only
    split
    · exact ⟨.of_eq rfl rfl rfl (Nat.le_refl _) rfl, id⟩
    · exact ⟨.refl after, fun _ deep => by cases deep⟩

theorem closing (h : Spends p plain levels count size start action other) (key : Option FunctionKey) :
    Spends p plain levels count size start (closing key action) (closing key other) := by
  obtain ⟨quiet, shallow⟩ := quiet_closing start key action
  refine ⟨?_, ?_, fun room => ?_, fun given books res after accepted => ?_⟩
  · rw [quiet.charge_eq p]
    exact h.charge
  · rw [quiet.work_eq]
    exact h.work
  · obtain ⟨inner, alike⟩ := h.enough room
    exact ⟨shallow inner, by rw [Check.closing, Check.closing, alike]⟩
  · obtain ⟨mid, active, inner, rfl⟩ := accepts_closing accepted
    obtain ⟨kept, same, drains⟩ := h.exact given books res mid inner
    have quiet : mid.Quiet { mid with active } := .of_eq rfl rfl rfl (Nat.le_refl _) rfl
    exact ⟨quiet.books kept, (quiet.charge_eq p).trans same, drains.trans quiet.drains⟩

end Spends

/-- What rules pay is what their parts pay. -/
theorem Pays.adjusting (p : Block Stmt → Bool) (levels : Nat) : Adjusting (Pays p levels) where
  pure value _ := Spends.pure value
  bind {_ _ nodes later _ _ _ _} first second start := by
    refine Accounts.within (Spends.bind ((first start).under fun plain => ?_)
      fun value mid => (second value mid).under fun plain => ?_) (tally_append p nodes later).symm ?_
    · exact (List.forall_mem_append.mp plain).1
    · exact (List.forall_mem_append.mp plain).2
    · simp only [List.length_append, Bool.toNat_false]
      omega
  after first second start := Spends.freeThen ((first start).under fun _ => nofun) second
  followed first second start :=
    Spends.thenFree (first start) fun value mid => (second value mid).under fun _ => nofun
  get h start := .get (h start start)
  report other pos start := .still (Obeys.report other pos start)
  modifyFlow f start := .still (Obeys.modifyFlow f start)
  noteCapture symbol start := .still (Obeys.noteCapture symbol start)
  node {_ _ nodes _ _} h other start := by
    refine ((h start).under fun plain => (List.forall_mem_cons.mp plain).2).within
      (tally_cons_of_none p other nodes).symm ?_
    simp only [List.length_cons, Bool.toNat_false, Bool.toNat_true]
    omega
  weaken h start := (h start).within rfl (Nat.sub_le _ _)
  swap {_ first second _ _} h start := by
    refine ((h start).under fun plain => ?_).within ?_ ?_
    · exact List.forall_mem_append.mpr (List.forall_mem_append.mp plain).symm
    · rw [tally_append, tally_append, Nat.add_comm]
    · simp only [List.length_append]
      omega
  free h start := .still (h Untouched start)
  ensuring clean h start := (h start).ensuring fun a => (clean a).quiet

/-- A rule may use one level more than the parts it checks. -/
theorem Pays.deeper {p : Block Stmt → Bool} {levels : Nat} {nodes : List Node} {α : Type}
    {action other : Check α} (h : Pays p levels true nodes action other) (some : nodes ≠ []) :
    Pays p (levels + 1) false nodes action other := by
  intro start
  refine Accounts.deeper (h start) rfl ?_
  have := List.length_pos_iff.mpr some
  simp only [Bool.toNat_true, Bool.toNat_false]
  omega

end Check

end FlowScript
