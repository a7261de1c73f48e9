import FlowScript.Proofs.CheckLogic
/-!
# The verdict on the end of statements

Checking walks over statements with what is known at each of them, and says of every list whether
control never falls off its end.  The same is said by `anyTerminates`, which looks at the statements
alone.  The two agree on all lists, whatever is wrong with them, and checking does not change the answer:
it notes types, but keeps every statement and every literal condition.

`Check.Yields` speaks of the results of a computation only.  A rule is followed backwards from what it
returns, and what comes before is passed over (`Check.Yields.andThen`).

Main statement: `Checks.weighing`, which ties the rules together by recursion on the levels.
-/

namespace FlowScript

namespace Check

variable {α β : Type} {post : α → Prop} {next : β → Prop}

/-- Whether the results of a computation satisfy `post`, whatever it starts from and whatever it
reports. -/
def Yields (post : α → Prop) (action : Check α) : Prop :=
  ∀ start res, (action start).result.1 = .ok res → post res

namespace Yields

theorem pure {value : α} (h : post value) : Yields post (Pure.pure value : Check α) := by
  rintro start res ⟨⟩
  exact h

theorem throw (stop : Interruption) : Yields post (MonadExcept.throw stop : Check α) := by
  rintro start res ⟨⟩

theorem bind {action : Check α} {rest : α → Check β} (first : Yields post action)
    (second : ∀ res, post res → Yields next (rest res)) : Yields next (action >>= rest) := by
  intro start res
  rw [bind_apply]
  rcases run : action start with ⟨⟨outcome, mid⟩, reports⟩
  cases outcome with
  | error stop => rintro ⟨⟩
  | ok value => exact second value (first start value (by rw [run])) mid res

/-- Only what comes last counts. -/
theorem andThen {action : Check α} {rest : α → Check β} (last : ∀ res, Yields next (rest res)) :
    Yields next (action >>= rest) :=
  have first : Yields Anything action := fun _ _ _ => trivial
  bind first fun res _ => last res

theorem weaken {wider : α → Prop} {action : Check α} (h : Yields post action)
    (imp : ∀ res, post res → wider res) : Yields wider action :=
  fun start res run => imp res (h start res run)

theorem ite {cond : Prop} [Decidable cond] {yes no : Check α} (first : Yields post yes)
    (second : Yields post no) : Yields post (if cond then yes else no) := by
  split
  · exact first
  · exact second

theorem atSite (site : Site) {action : Check α} (h : Yields post action) :
    Yields post (Check.atSite site action) :=
  andThen fun _ => andThen fun _ start res run => h start res run

/-- Results that tell the items they were made from. -/
theorem mapM {ι : Type} {f : ι → Check α} {src : α → ι}
    (h : ∀ item, Yields (fun res => src res = item) (f item)) (items : List ι) :
    Yields (fun results => results.map src = items) (items.mapM f) := by
  induction items with
  | nil => exact pure rfl
  | cons item rest ih =>
    rw [List.mapM_cons]
    refine bind (h item) fun res first => bind ih fun results others => pure ?_
    rw [List.map_cons, first, others]

/-- A loop over a list: `reached` tells what holds after the items so far. -/
theorem foldlM {ι : Type} {f : α → ι → Check α} {reached : List ι → α → Prop}
    (h : ∀ before value item, reached before value → Yields (reached (before ++ [item])) (f value item))
    (items before : List ι) {value : α} (start : reached before value) :
    Yields (reached (before ++ items)) (items.foldlM f value) := by
  induction items generalizing before value with
  | nil =>
    rw [List.append_nil]
    exact pure start
  | cons item rest ih =>
    rw [List.foldlM_cons, List.append_cons]
    exact bind (h before value item start) fun next => ih (before ++ [item])

end Yields

end Check

namespace Checks

open Check (Yields)
open Check.Yields

variable {checks : Checks}

/-- What is noted at the end of a list leaves the ends of its statements as they are. -/
theorem terminates_complete (a : Analyzer) (pair : Stmt × Check.Declared) :
    (complete a pair).terminates = pair.1.terminates := by
  unfold complete
  split <;> rfl

/-- Whether checking one level further in is right on the ends of statements, and keeps them: of each
statement and each list it says what the syntax says, and gives back one of which the same holds. -/
structure Weighing (checks : Checks) : Prop where
  condition : ∀ e, Yields (fun checked => checked.1.isForever = e.isForever) (checks.condition e)
  statement : ∀ s : Stmt, Yields
    (fun checked => checked.2 = s.terminates ∧ checked.1.terminates = s.terminates)
    (checks.statement s)
  statements : ∀ statements, Yields
    (fun checked => checked.2 = anyTerminates statements ∧
      anyTerminates checked.1 = anyTerminates statements)
    (checks.statements statements)

namespace Weighing

/-! ## Conditions -/

theorem checkCall (note : Note) (fn : Expr) (args : List Expr) :
    Yields (fun checked => checked.isForever = false) (checks.checkCall note fn args) := by
  refine andThen fun a => ?_
  dsimp only
  split
  · refine andThen fun _ => andThen fun info => ite ?_ ?_
    · exact andThen fun _ => andThen fun _ => andThen fun _ => pure rfl
    · exact andThen fun _ => andThen fun _ => andThen fun _ => andThen fun _ => pure rfl
  · exact andThen fun _ => andThen fun _ => andThen fun _ => pure rfl

theorem checkAssign (note target : Note) (ident : String) (value : Expr) :
    Yields (fun checked => checked.isForever = false)
      (checks.checkAssign note target ident value) := by
  refine andThen fun _ => andThen fun a => ?_
  dsimp only
  split
  · exact andThen fun _ => pure rfl
  · refine andThen fun _ => ite (andThen fun _ => pure rfl) (ite ?_ ?_)
    · exact andThen fun _ => andThen fun _ => pure rfl
    · exact andThen fun _ => andThen fun _ => andThen fun _ => pure rfl

theorem checkLogical (note : Note) (op : LogicalOp) (left right : Expr) :
    Yields (fun checked => checked.1.isForever = false)
      (checks.checkLogical note op left right) :=
  andThen fun _ => andThen fun _ => andThen fun _ => andThen fun _ => andThen fun _ =>
    andThen fun _ => andThen fun _ => pure rfl

theorem checkNot (note : Note) (operand : Expr) :
    Yields (fun checked => ∃ note operand, checked.1 = .unary note .not operand)
      (checks.checkNot note operand) :=
  andThen fun _ => andThen fun _ => pure ⟨_, _, rfl⟩

/-- An expression stays what it is, and so does a literal. -/
theorem checkExpr (e : Expr) :
    Yields (fun checked => checked.isForever = e.isForever) (checks.checkExpr e) := by
  cases e with
  | literal note value =>
    refine pure ?_
    rcases value with _ | (_ | _) | _ | _ | _ <;> rfl
  | name note ident => exact andThen fun _ => pure rfl
  | self note => exact andThen fun _ => pure rfl
  | binary note op left right =>
    exact andThen fun _ => andThen fun _ => andThen fun _ => ite (pure rfl) (pure rfl)
  | logical note op left right =>
    exact bind (checkLogical note op left right) fun _ kept => pure kept
  | unary note op operand =>
    cases op with
    | neg =>
      refine andThen fun operand => ?_
      dsimp only
      exact ite (andThen fun _ => pure rfl) (ite (andThen fun _ => pure rfl) (andThen fun _ => pure rfl))
    | not =>
      refine bind (checkNot note operand) ?_
      rintro ⟨_, facts⟩ ⟨note, operand, rfl⟩
      refine pure ?_
      split <;> rfl
  | is note value written target =>
    refine andThen fun _ => andThen fun _ => ite ?_ (pure rfl)
    exact andThen fun _ => ite (andThen fun _ => pure rfl) (pure rfl)
  | unwrap note value =>
    refine andThen fun value => ?_
    dsimp only
    split <;> exact andThen fun _ => pure rfl
  | assign note target ident value => exact checkAssign note target ident value
  | assignField note target object member value =>
    exact andThen fun _ => andThen fun _ => andThen fun _ => pure rfl
  | call note fn args => exact checkCall note fn args
  | field note object member => exact andThen fun _ => andThen fun _ => pure rfl
  | methodCall note recv method args =>
    exact andThen fun _ => andThen fun _ => andThen fun _ => andThen fun _ => pure rfl
  | closure note params res body captures =>
    exact andThen fun _ => andThen fun _ => andThen fun _ => pure rfl

theorem checkCondition (e : Expr) :
    Yields (fun checked => checked.1.isForever = e.isForever) (checks.checkCondition e) := by
  unfold Checks.checkCondition
  split
  · exact checkLogical _ _ _ _
  · refine (checkNot _ _).weaken ?_
    rintro ⟨_, facts⟩ ⟨note, operand, rfl⟩
    rfl
  · exact bind (checkExpr _) fun checked kept => andThen fun _ => pure kept

/-! ## Statements -/

theorem checkBlockAfter (h : checks.Weighing) (before : Check Unit) (block : Block Stmt) :
    Yields (fun checked => checked.2 = anyTerminates block.statements ∧
        anyTerminates checked.1.statements = anyTerminates block.statements)
      (checks.checkBlockAfter before block) := by
  refine andThen fun frame => andThen fun a => ?_
  refine bind (atSite _ (andThen fun _ => h.statements block.statements)) fun checked weighed => ?_
  exact andThen fun _ => pure weighed

/-- A conditional ends control if both of its branches do. -/
theorem checkIf (h : checks.Weighing) (pos : Position) (cond : Expr) (body : Block Stmt)
    (alt : Option Stmt) :
    Yields
      (fun checked =>
        checked.2 = (Stmt.ifElse pos cond body alt).terminates ∧
          checked.1.terminates = (Stmt.ifElse pos cond body alt).terminates)
      (checks.checkIf pos cond body alt) := by
  refine andThen fun test => andThen fun _ => andThen fun entry => andThen fun _ => ?_
  refine bind (h.checkBlockAfter _ body) fun first weighed => andThen fun _ => andThen fun _ => ?_
  cases alt with
  | none =>
    have absent : Yields (fun checked => checked = (none, false)) (checks.checkAlternative none) :=
      pure rfl
    refine bind absent ?_
    rintro _ rfl
    refine andThen fun _ => andThen fun _ => pure ?_
    simp only [Stmt.terminates, Bool.and_false, and_self]
  | some other =>
    have branch : Yields (fun checked => ∃ kept, checked = (some kept, other.terminates) ∧
        kept.terminates = other.terminates) (checks.checkAlternative (some other)) := by
      refine bind (h.statement other) fun checked weighed => pure ⟨checked.1, ?_, weighed.2⟩
      rw [weighed.1]
    refine bind branch ?_
    rintro _ ⟨kept, rfl, same⟩
    refine andThen fun _ => andThen fun _ => pure ?_
    simp only [Stmt.terminates, weighed.1, weighed.2, same, and_self]

theorem checkReturn (pos : Position) (value : Option Expr) :
    Yields (fun checked => checked.terminates = true) (checks.checkReturn pos value) := by
  refine andThen fun value => andThen fun a => ?_
  dsimp only
  split
  · exact andThen fun _ => pure rfl
  · refine ite (andThen fun _ => pure rfl) (ite (andThen fun _ => pure rfl) ?_)
    split
    · exact andThen fun _ => pure rfl
    · exact pure rfl
    · exact pure rfl

/-- After its check a statement ends as before, and the verdict says so. -/
theorem checkStatement (h : checks.Weighing) (s : Stmt) (declared : Check.Declared) :
    Yields (fun checked => checked.2.2 = s.terminates ∧ checked.1.terminates = s.terminates)
      (checks.checkStatement s declared) := by
  cases s with
  | varDecl pos name written value resolved =>
    have kept : Yields (fun checked => checked.1.terminates = false)
        (checks.checkVarDecl pos name written value) := by
      refine andThen fun _ => andThen fun ref => ?_
      cases value with
      | some value => exact andThen fun _ => pure rfl
      | none => exact ite (andThen fun _ => pure rfl) (pure rfl)
    exact bind kept fun _ same => pure ⟨rfl, same⟩
  | expr pos value => exact andThen fun _ => pure ⟨rfl, rfl⟩
  | block body =>
    refine bind (h.checkBlockAfter _ body) fun checked weighed => pure ?_
    simp only [Stmt.terminates, weighed.1, weighed.2, and_self]
  | ifElse pos cond body alt =>
    exact bind (h.checkIf pos cond body alt) fun _ weighed => pure weighed
  | whileLoop pos cond body =>
    -- control gets past a loop unless its condition is the literal `true`, which a check does not change
    have loop : Yields
        (fun checked => checked.2 = checked.1.terminates ∧ checked.1.terminates = cond.isForever)
        (checks.checkWhile pos cond body) := by
      refine andThen fun _ => bind (h.condition cond) fun checked kept => ?_
      refine andThen fun _ => andThen fun _ => andThen fun _ => andThen fun _ => andThen fun _ => ?_
      refine pure ⟨rfl, ?_⟩
      simpa only [Stmt.terminates] using kept
    refine bind loop fun checked weighed => pure ?_
    simp only [Stmt.terminates, weighed.1, weighed.2, and_self]
  | forRange pos name start stop body =>
    have kept : Yields (fun checked => checked.terminates = false)
        (checks.checkFor pos name start stop body) :=
      andThen fun _ => andThen fun _ => andThen fun _ => andThen fun _ => andThen fun _ =>
        andThen fun _ => pure rfl
    exact bind kept fun _ same => pure ⟨rfl, same⟩
  | ret pos value =>
    exact bind (checkReturn pos value) fun _ same => pure ⟨rfl, same⟩
  | function decl =>
    cases declared with
    | function key => exact andThen fun _ => pure ⟨rfl, rfl⟩
    | _ => exact pure ⟨rfl, rfl⟩
  | struct decl =>
    cases declared with
    | struct declares =>
      cases declares with
      | true => exact andThen fun _ => pure ⟨rfl, rfl⟩
      | false => exact pure ⟨rfl, rfl⟩
    | _ => exact pure ⟨rfl, rfl⟩
  | trait decl => exact pure ⟨rfl, rfl⟩

/-! ## Statement lists -/

/-- The statements of a list come back with what they declare. -/
theorem hoist (stmts : List Stmt) :
    Yields (fun declared => declared.map Prod.fst = stmts) (Check.hoist stmts) := by
  have declares (s : Stmt) : Yields (fun pair => pair.1 = s)
      (do return (s, ← Check.declareName s)) := andThen fun _ => pure rfl
  exact bind (mapM declares stmts) fun declared same => andThen fun _ => pure same

/-- What holds after the first statements of a list: the verdict so far is on them, and each of them
ends as before. -/
structure Weighed (before : List (Stmt × Check.Declared)) (progress : Progress) : Prop where
  verdict : progress.terminates = (before.map Prod.fst).any Stmt.terminates
  kept : progress.checked.toList.map (fun pair => pair.1.terminates) =
    before.map fun pair => pair.1.terminates

theorem checkNext (h : checks.Weighing) (before : List (Stmt × Check.Declared)) (progress : Progress)
    (next : Stmt × Check.Declared) (weighed : Weighed before progress) :
    Yields (Weighed (before ++ [next])) (checks.checkNext progress next) := by
  refine andThen fun _ => bind (h.checkStatement next.1 next.2) fun checked ends => pure ⟨?_, ?_⟩
  · simp [weighed.verdict, ends.1]
  · simp [weighed.kept, ends.2]

/-- A list ends control if one of its statements does. -/
theorem checkStatements (h : checks.Weighing) (stmts : List Stmt) :
    Yields (fun checked => checked.2 = anyTerminates stmts ∧
        anyTerminates checked.1 = anyTerminates stmts) (checks.checkStatements stmts) := by
  refine bind (hoist stmts) ?_
  rintro declared rfl
  have loop := Check.Yields.foldlM h.checkNext declared [] (show Weighed [] {} from ⟨rfl, rfl⟩)
  rw [List.nil_append] at loop
  refine bind loop fun progress weighed => andThen fun _ => andThen fun a => pure ?_
  simp only [anyTerminates_eq_any]
  refine ⟨weighed.verdict, ?_⟩
  calc (progress.checked.toList.map (complete a)).any Stmt.terminates
      = (progress.checked.toList.map fun pair => pair.1.terminates).any id := by
        simp only [List.any_map, Function.comp_def, terminates_complete, id]
    _ = (declared.map Prod.fst).any Stmt.terminates := by
        rw [weighed.kept]
        simp only [List.any_map, Function.comp_def, id]

end Weighing

/-- The verdict of checking on the end of statements is right, however many levels are left. -/
theorem weighing (levels : Nat) : Checks.Weighing (.within levels) := by
  induction levels with
  | zero => exact ⟨fun _ => throw _, fun _ => throw _, fun _ => throw _⟩
  | succ levels ih =>
    refine ⟨Weighing.checkCondition, fun s => ?_, ih.checkStatements⟩
    exact bind (ih.checkStatement s .nothing) fun _ weighed => pure weighed

end Checks

end FlowScript
