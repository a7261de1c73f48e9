import FlowScript.Proofs.CheckRules
import FlowScript.Proofs.Consistency
/-!
# Invariants of checking without errors

`Check.Gives post` says of a computation that whenever it comes to its end without an error from a
consistent state, it proceeds to a consistent state with a result that satisfies `post`.  Where an error
is reported there is nothing to show, so a rule of checking has to be followed only along the ways on
which nothing is wrong.  `Check.Leads` says the same of one state to start from, and of the state that is
reached.
-/

namespace FlowScript

namespace Check

variable {α β : Type} {start : Analyzer} {post : α → Prop} {next : β → Prop}

/-- Whether a computation from a state, if it comes to its end without an error, proceeds to a result
and a state of which `post` holds. -/
def Leads (start : Analyzer) (post : α → Analyzer → Prop) (action : Check α) : Prop :=
  ∀ res after, Accepts action start res after → start.Proceeds after ∧ post res after

/-- Whether a computation from any consistent state, if it comes to its end without an error, proceeds
to a result that satisfies `post` and to a state from which on `also` holds. -/
def Gives (post : α → Prop) (action : Check α) (also : Analyzer → Prop := fun _ => True) : Prop :=
  ∀ start : Analyzer, start.Consistent → Leads start
    (fun res after => post res ∧ ∀ later, after.Advances later → also later) action

/-- Whether a property of states stays while the books advance. -/
def Lasting (p : Analyzer → Prop) : Prop :=
  ∀ {before after : Analyzer}, before.Advances after → p before → p after

theorem lasting_knows (key : FunctionKey) : Lasting fun a => a.Knows key :=
  fun advances => advances.knows

theorem lasting_begun (key : FunctionKey) : Lasting fun a => a.Begun key :=
  fun advances => advances.begun

theorem lasting_declares (decl : StructDecl Stmt) : Lasting fun a => a.Declares decl :=
  fun advances => advances.declares

/-! ## From one state -/

namespace Leads

variable {reached : α → Analyzer → Prop} {final : β → Analyzer → Prop}
variable {action : Check α} {ι : Type}

theorem weaken {wider : α → Analyzer → Prop} (h : Leads start reached action)
    (imp : ∀ res after, start.Proceeds after → reached res after → wider res after) :
    Leads start wider action := by
  intro res after accepted
  obtain ⟨proceeds, holds⟩ := h res after accepted
  exact ⟨proceeds, imp res after proceeds holds⟩

theorem pure {value : α} (consistent : start.Consistent) (h : reached value start) :
    Leads start reached (Pure.pure value) := by
  intro res after accepted
  obtain ⟨rfl, rfl⟩ := accepts_pure.mp accepted
  exact ⟨.refl consistent, h⟩

theorem bind {rest : α → Check β} (first : Leads start reached action)
    (second : ∀ res mid, start.Proceeds mid → reached res mid →
      Leads mid final (rest res)) : Leads start final (action >>= rest) := by
  intro res after accepted
  obtain ⟨value, mid, head, tail⟩ := accepts_bind.mp accepted
  obtain ⟨proceeds, holds⟩ := first value mid head
  obtain ⟨later, reached⟩ := second value mid proceeds holds res after tail
  exact ⟨proceeds.trans later, reached⟩

theorem get {rest : Analyzer → Check β} (h : Leads start final (rest start)) :
    Leads start final (MonadState.get >>= rest) :=
  h

/-- What is taken for granted is there. -/
theorem demand (consistent : start.Consistent) (lookup : Lookup) (found : Option α) :
    Leads start (fun value after => found = some value ∧ start = after)
      (demand lookup found) := by
  intro res after accepted
  obtain ⟨there, rfl⟩ := accepts_demand accepted
  exact ⟨.refl consistent, there, rfl⟩

theorem modifyThen {change : Analyzer → Analyzer} {rest : Unit → Check β}
    (proceeds : start.Proceeds (change start)) (h : Leads (change start) final (rest ())) :
    Leads start final ((modify change : Check Unit) >>= rest) := by
  intro res after accepted
  obtain ⟨_, mid, head, tail⟩ := accepts_bind.mp accepted
  obtain rfl := accepts_modify.mp head
  obtain ⟨later, holds⟩ := h res after tail
  exact ⟨proceeds.trans later, holds⟩

theorem modify {change : Analyzer → Analyzer} {holds : Unit → Analyzer → Prop}
    (proceeds : start.Proceeds (change start)) (h : holds () (change start)) :
    Leads start holds (modify change : Check Unit) := by
  intro res after accepted
  obtain rfl := accepts_modify.mp accepted
  exact ⟨proceeds, h⟩

/-- An error ends what there is to show. -/
theorem error {problem : CheckProblem} (severity : problem.severity = .error)
    (pos : Option Position) {holds : Unit → Analyzer → Prop} :
    Leads start holds (report problem pos) :=
  fun _ _ accepted => absurd severity (accepts_report.mp accepted).1

theorem errorThen {problem : CheckProblem} (severity : problem.severity = .error)
    (pos : Option Position) {rest : Unit → Check β} :
    Leads start final (report problem pos >>= rest) := by
  have first : Leads start (fun _ _ => False) (report problem pos) := error severity pos
  exact bind first fun _ _ _ => False.elim

theorem ensuring {wider : α → Analyzer → Prop} {cleanup : Analyzer → Analyzer}
    (h : Leads start reached action) (clean : ∀ res after, start.Proceeds after → reached res after →
      after.Proceeds (cleanup after) ∧ wider res (cleanup after)) :
    Leads start wider (ensuring cleanup action) := by
  intro res after accepted
  obtain ⟨mid, inner, rfl⟩ := accepts_ensuring.mp accepted
  obtain ⟨proceeds, holds⟩ := h res mid inner
  obtain ⟨cleaned, wide⟩ := clean res mid proceeds holds
  exact ⟨proceeds.trans cleaned, wide⟩

/-- A property that stays is kept along a computation. -/
theorem frame {p : Analyzer → Prop} (lasting : Lasting p) (holds : p start) (h : Leads start reached action) :
    Leads start (fun res after => reached res after ∧ p after) action :=
  h.weaken fun _ _ proceeds holds' => ⟨holds', lasting proceeds.advances holds⟩

/-- A loop in which each item turns what held of it before into what holds of it after. -/
theorem forM {f : ι → Check Unit} {before after : ι → Analyzer → Prop} (items : List ι)
    (first : ∀ item, Lasting (before item)) (last : ∀ item, Lasting (after item))
    (consistent : start.Consistent) (holds : ∀ item ∈ items, before item start)
    (h : ∀ item ∈ items, ∀ start : Analyzer, start.Consistent → before item start →
      Leads start (fun _ => after item) (f item)) :
    Leads start (fun _ final => ∀ item ∈ items, after item final) (items.forM f) := by
  induction items generalizing start with
  | nil => exact pure consistent nofun
  | cons item rest ih =>
    refine bind (h item (by simp) start consistent (holds item (by simp))) ?_
    intro _ mid proceeds done
    have remaining : ∀ other ∈ rest, before other mid := fun other mem =>
      first other proceeds.advances (holds other (by simp [mem]))
    have tail := ih proceeds.consistent remaining fun other mem => h other (by simp [mem])
    refine weaken (frame (last item) done tail) ?_
    rintro _ after - ⟨others, this⟩
    exact List.forall_mem_cons.mpr ⟨this, others⟩

theorem mapM {f : ι → Check α} (items : List ι) (last : ∀ value, Lasting (reached value))
    (consistent : start.Consistent)
    (h : ∀ item ∈ items, ∀ start : Analyzer, start.Consistent → Leads start reached (f item)) :
    Leads start (fun results final => ∀ value ∈ results, reached value final) (items.mapM f) := by
  induction items generalizing start with
  | nil => exact pure consistent nofun
  | cons item rest ih =>
    rw [List.mapM_cons]
    refine bind (h item (by simp) start consistent) fun value mid proceeds done => ?_
    have tail := ih proceeds.consistent fun other mem => h other (by simp [mem])
    refine bind (frame (last value) done tail) fun results after later both => ?_
    exact pure later.consistent (List.forall_mem_cons.mpr ⟨both.2, both.1⟩)

/-- A loop over a list, of which `holds` may speak with the items that are done. -/
theorem foldlM {f : α → ι → Check α} {before : ι → Analyzer → Prop} {holds : List ι → α → Analyzer → Prop}
    (items : List ι) (first : ∀ item, Lasting (before item)) (consistent : start.Consistent)
    (given : ∀ item ∈ items, before item start) {done : List ι} {value : α} (initial : holds done value start)
    (h : ∀ done value, ∀ item ∈ items, ∀ start : Analyzer, start.Consistent → before item start →
      holds done value start → Leads start (holds (done ++ [item])) (f value item)) :
    Leads start (holds (done ++ items)) (items.foldlM f value) := by
  induction items generalizing start done value with
  | nil => exact pure consistent (by rwa [List.append_nil])
  | cons item rest ih =>
    rw [List.foldlM_cons, List.append_cons]
    refine bind (h done value item (by simp) start consistent (given item (by simp)) initial) ?_
    intro next mid proceeds reached
    refine ih proceeds.consistent (fun other mem => ?_) reached fun done value other mem =>
      h done value other (by simp [mem])
    exact first other proceeds.advances (given other (by simp [mem]))

end Leads

/-! ## From all consistent states -/

namespace Gives

variable {action : Check α} {problem : CheckProblem} {also early : Analyzer → Prop}

theorem weaken {wider : α → Prop} (h : Gives post action also) (imp : ∀ res, post res → wider res) :
    Gives wider action also :=
  fun start consistent => (h start consistent).weaken fun res _ _ both => ⟨imp res both.1, both.2⟩

/-- What is reached from one state. -/
theorem leads (h : Gives post action also) (consistent : start.Consistent) :
    Leads start (fun res after => post res ∧ also after) action :=
  (h start consistent).weaken fun _ after _ both => ⟨both.1, both.2 after (.refl after)⟩

theorem leaving (h : Gives post action early) (imp : ∀ later, early later → also later) :
    Gives post action also :=
  fun start consistent => (h start consistent).weaken fun _ _ _ both =>
    ⟨both.1, fun later advances => imp later (both.2 later advances)⟩

/-- A result after which nothing is left to show but what follows from what was reached before. -/
theorem done {value : α} (h : post value) (left : ∀ later, also later) : Gives post (Pure.pure value) also :=
  fun _ consistent => .pure consistent ⟨h, fun later _ => left later⟩

theorem pure {value : α} (h : post value) : Gives post (Pure.pure value) :=
  done h fun _ => trivial

theorem throw (stop : Interruption) : Gives post (MonadExcept.throw stop : Check α) also :=
  fun _ _ _ _ accepted => absurd accepted accepts_throw

/-- One computation after another, where what the first leaves is of use in the end. -/
theorem gather {rest : α → Check β} (first : Gives post action early)
    (second : ∀ res, post res → Gives next (rest res) fun later => early later → also later) :
    Gives next (action >>= rest) also := by
  intro start consistent
  refine (first start consistent).bind fun res mid proceeds holds => ?_
  refine (second res holds.1 mid proceeds.consistent).weaken fun _ after further both => ⟨both.1, ?_⟩
  exact fun later advances => both.2 later advances (holds.2 later (further.advances.trans advances))

theorem bind {rest : α → Check β} (first : Gives post action early)
    (second : ∀ res, post res → Gives next (rest res) also) : Gives next (action >>= rest) also :=
  fun start consistent => (first start consistent).bind fun res mid proceeds holds =>
    second res holds.1 mid proceeds.consistent

/-- One computation after another, where nothing is known of the result of the first. -/
theorem andThen {rest : α → Check β} (first : Gives Anything action)
    (second : ∀ res, Gives next (rest res) also) : Gives next (action >>= rest) also :=
  bind first fun res _ => second res

/-- Reading the state: what follows may use that it is consistent. -/
theorem get {rest : Analyzer → Check β}
    (h : ∀ a : Analyzer, a.Consistent → Gives next (rest a) also) :
    Gives next (MonadState.get >>= rest) also :=
  fun start consistent => .get (h start consistent start consistent)

theorem of_leads (h : ∀ start : Analyzer, start.Consistent → Leads start (fun res _ => post res) action) :
    Gives post action :=
  fun start consistent => (h start consistent).weaken fun _ _ _ holds => ⟨holds, fun _ _ => trivial⟩

theorem demand (lookup : Lookup) (found : Option α) :
    Gives (fun value => found = some value) (demand lookup found) :=
  of_leads fun _ consistent => (Leads.demand consistent lookup found).weaken fun _ _ _ both => both.1

theorem modify {change : Analyzer → Analyzer}
    (h : ∀ a : Analyzer, a.Consistent → a.Proceeds (change a)) :
    Gives Anything (modify change : Check Unit) :=
  of_leads fun start consistent => .modify (h start consistent) trivial

theorem map {f : α → β} (h : Gives post action also) (image : ∀ res, post res → next (f res)) :
    Gives next (f <$> action) also := by
  rw [← bind_pure_comp]
  exact gather h fun res holds => done (image res holds) fun _ => id

theorem ensuring {cleanup : Analyzer → Analyzer} (h : Gives post action also)
    (clean : ∀ a : Analyzer, a.Consistent → a.Proceeds (cleanup a)) :
    Gives post (ensuring cleanup action) also :=
  fun start consistent => (h start consistent).ensuring fun _ after proceeds holds =>
    have cleaned := clean after proceeds.consistent
    ⟨cleaned, holds.1, fun later advances => holds.2 later (cleaned.advances.trans advances)⟩

theorem closing (h : Gives post action also) (key : Option FunctionKey) :
    Gives post (closing key action) also := by
  intro start consistent res after accepted
  obtain ⟨mid, active, inner, rfl⟩ := accepts_closing accepted
  obtain ⟨proceeds, holds, left⟩ := h start consistent res mid inner
  have moved := proceeds.consistent.move mid.site active mid.topLevel
  exact ⟨proceeds.trans moved, holds, fun later advances => left later (moved.advances.trans advances)⟩

theorem ite {cond : Prop} [Decidable cond] {yes no : Check α}
    (first : cond → Gives post yes also) (second : ¬cond → Gives post no also) :
    Gives post (if cond then yes else no) also := by
  by_cases h : cond
  · rw [if_pos h]
    exact first h
  · rw [if_neg h]
    exact second h

/-- A report that may be a warning. -/
theorem report (problem : CheckProblem) (pos : Option Position) :
    Gives Anything (report problem pos) := by
  refine of_leads fun start consistent _ after accepted => ?_
  obtain ⟨-, rfl⟩ := accepts_report.mp accepted
  exact ⟨.refl consistent, trivial⟩

/-- An error ends what there is to show. -/
theorem error (severity : problem.severity = .error) (pos : Option Position) {post : Unit → Prop} :
    Gives post (Check.report problem pos) also :=
  fun _ _ => .error severity pos

theorem errorThen (severity : problem.severity = .error) (pos : Option Position)
    {rest : Unit → Check β} : Gives next (Check.report problem pos >>= rest) also :=
  fun _ _ => .errorThen severity pos

theorem fail (severity : problem.severity = .error) (pos : Position) {post : Ty → Prop} :
    Gives post (fail problem pos) also :=
  errorThen severity _

theorem failThen (severity : problem.severity = .error) (pos : Position) {rest : Ty → Check β} :
    Gives next (Check.fail problem pos >>= rest) also := by
  have first : Gives (fun _ => False) (Check.fail problem pos) := fail severity pos
  exact bind first fun _ => False.elim

/-- Results that belong to the items of a list one by one. -/
theorem mapM {ι : Type} {f : ι → Check α} {made : α → ι → Prop} {left : ι → Analyzer → Prop} (items : List ι)
    (h : ∀ item ∈ items, Gives (made · item) (f item) (left item)) :
    Gives (List.Forall₂ made · items) (items.mapM f) fun later => ∀ item ∈ items, left item later := by
  induction items with
  | nil => exact done .nil fun _ => nofun
  | cons item rest ih =>
    rw [List.mapM_cons]
    refine gather (h item (by simp)) fun res first => ?_
    refine gather (ih fun other mem => h other (by simp [mem])) fun results others => ?_
    exact done (.cons first others) fun _ rest first => List.forall_mem_cons.mpr ⟨first, rest⟩

/-- Where nothing is asked of the results, the rules that leave the state as it is are all right. -/
theorem composing : Compositional fun {_} action => Gives Anything action where
  pure _ := pure trivial
  bind := andThen
  get h := get fun a _ => h a
  report _ := report _

end Gives

end Check

end FlowScript
