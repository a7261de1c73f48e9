import FlowScript.Proofs.SpendingLogic
/-!
# What the rules of checking spend

One lemma for each rule: what it spends is what its parts spend, and a body that waited spends what it
had while it waited.  So checking it early, from within another body, changes nothing in the account.
-/

namespace FlowScript

/-- Whether two ways of checking the parts of a program, the second with a level to spare, spend what
the parts have.  The check of a waiting body is free, and after it the body does not wait any more. -/
structure Checks.Spending (p : Block Stmt → Bool) (levels : Nat) (checks others : Checks) : Prop where
  expr : ∀ e, Check.Pays p levels false e.nodes (checks.expr e) (others.expr e)
  condition : ∀ e, Check.Pays p levels false e.nodes (checks.condition e) (others.condition e)
  statement : ∀ (s : Stmt) start, Check.Spends p (s.Plain ∧ s.isAlternative = true) levels (tally p s.nodes)
    (2 * s.nodes.length) start (checks.statement s) (others.statement s)
  statements : ∀ stmts start, Check.Spends p (Stmt.EachOf Node.Plain stmts) levels
    (tally p (Stmt.nodesOfList stmts)) (2 * (Stmt.nodesOfList stmts).length + 1) start
    (checks.statements stmts) (others.statements stmts)
  finish : ∀ {plain : Prop} key start,
    Check.Accounts p plain levels 0 0
      (fun _ after => start.Drains after ∧ after.pending.contains key = false) start
      (checks.finish key) (others.finish key)

namespace Checks.Spending

open Check.Spends
open Check.Accounts (get ite)
open Check.Pays (adjusting)

variable {p : Block Stmt → Bool} {plain : Prop} {levels : Nat} {checks others : Checks}
  {start : Analyzer}
variable {body : Block Stmt} {s : Stmt}

/-! ## Bodies -/

variable (h : checks.Spending p levels others)

include h

/-- The check of a body counts it, and spends what its statements have. -/
theorem checkBody (fn : Body) (sig : Ty)
    (defining : Site) :
    Check.Spends p (Stmt.EachOf Node.Plain fn.body.statements) levels
      ((if p fn.body then 1 else 0) + tally p (Stmt.nodesOfList fn.body.statements))
      (2 * (Stmt.nodesOfList fn.body.statements).length + 1) start
      (checks.checkBody fn sig defining)
      (others.checkBody fn sig defining) := by
  refine get (after (Check.Obeys.newFrame _) fun frame mid => ?_)
  refine modifyThen ?_ rfl (fun books => ?_) fun _ => followed (.ensuring (.closing ?_ _) ?_) ?_
  · simp only [Analyzer.charge, Analyzer.visited, Array.toList_push, List.map_append, List.map_cons,
      List.map_nil, List.countP_append, List.countP_singleton]
    omega
  · exact ⟨⟨books.distinct, books.known, books.plain⟩, fun _ => id, fun _ => .inl⟩
  · have declared (pairs : List (Param × Ty)) (mid : Analyzer) :
        Check.Still mid (pairs.forM fun pair => do
          let _ ← Check.declare pair.1.name pair.2 .param pair.1.position) :=
      Check.Obeys.steps.forM pairs (fun _ _ => Check.Obeys.bind (Check.Obeys.declare _ _ _ _) fun _ =>
        Check.Obeys.pure ()) mid
    cases fn.receiver with
    | some sname =>
      refine after (Check.Obeys.declare _ _ _ _ _) fun _ mid => after (declared _ mid) fun _ last => ?_
      exact h.statements _ last
    | none => exact after (declared _ _) fun _ last => h.statements _ last
  · exact fun _ => .of_eq rfl rfl rfl (Nat.le_refl _) rfl
  · rintro ⟨stmts, terminates⟩ mid
    refine .get (.bind (.modify (.modifyContext mid _ fun _ => rfl)) fun _ last => ?_)
    exact .ite (fun _ => .bind (.report _ _) fun _ _ => .pure _) fun _ => .pure _

/-- The check of a waiting body from within a rule. -/
theorem finishFree (key : FunctionKey) (start : Analyzer) :
    Check.Spends p plain levels 0 0 start (checks.finish key) (others.finish key) :=
  (h.finish key start).weaken fun _ _ _ both => both.1

/-- The type of a function is asked for: its body may be checked first. -/
theorem settle (sig : Ty) (key : FunctionKey) :
    Check.Spends p plain levels 0 0 start (checks.settle sig key)
      (others.settle sig key) := by
  unfold Checks.settle
  split
  · refine get (ite (fun _ => ?_) fun _ => still ?_)
    · exact (h.finishFree key start).followed fun _ _ => Obeys.signatureOf key _
    · split
      · exact .pure _
      · exact .pure _
  · exact pure _

/-- The check of a waiting body spends what the function had while it waited, so all in all nothing; and
then it does not wait any more. -/
theorem finishFunction (key : FunctionKey) (start : Analyzer) :
    Check.Accounts p plain (levels + 1) 0 0
      (fun _ after => start.Drains after ∧ after.pending.contains key = false) start
      (checks.finishFunction key) (others.finishFunction key) := by
  refine get ?_
  split
  · rename_i none
    refine .still (.pure ()) fun _ after quiet => ⟨quiet.drains, ?_⟩
    rw [quiet.pending, Table.contains, none]
    rfl
  · rename_i decl site found
    have charge := Analyzer.charge_erase_le p found
    have work := Analyzer.work_erase_le found
    rw [length_nodes_function] at work
    -- the function itself pays for the level at which its body is checked
    have less : Analyzer.work { start with pending := start.pending.erase key } +
        (2 * (Stmt.nodesOfList decl.body.statements).length + 1) < start.work := by
      dsimp only at work
      omega
    refine .modifyThen 1 charge less (fun _ books => ?_) ?_
    · exact ⟨books.erase key, Analyzer.charge_erase p books found⟩
    refine (?_ : Check.Spends p (plain ∧ start.Books) levels _ _ _ _ _).weaken fun _ _ _ drains =>
      ⟨(Analyzer.drains_erase start key).trans drains, drains.not_waiting ?_⟩
    · dsimp only
      rw [tally_function]
      refine after (Obeys.signatureOf key _) fun sig mid => ?_
      have same : (bodyOf key decl).body = decl.body := by cases key <;> rfl
      have checked : Check.Spends p (plain ∧ start.Books) levels _ _ mid _ _ :=
        (h.checkBody (bodyOf key decl) sig site).under fun given => by
          have waited := given.2.plain _ (Table.mem_values_of_find? found)
          exact same ▸ (Stmt.each_block.mp (Stmt.each_function.mp waited).2).2
      rw [same] at checked
      refine checked.followed fun checked mid => .bind (Check.Still.setSignature key _) fun _ mid => ?_
      have noted (mid : Analyzer) (finished : Table FunctionKey (FunctionDecl Stmt)) :
          mid.Quiet { mid with finished } :=
        .of_eq rfl rfl rfl (Nat.le_refl _) rfl
      cases key with
      | function id => exact .modify (noted mid _)
      | method sname name =>
        refine .ite (fun _ => ?_) fun _ => .modify (noted mid _)
        exact .bind (Check.Obeys.steps.checkInitFields _ _ _) fun _ last => .modify (noted last _)
    · simp [Table.contains_erase]

/-- Some methods of a struct are checked, and then none of them waits. -/
theorem finishEach (sname : String) (methods : List (FunctionDecl Stmt)) :
    Check.Accounts p plain levels 0 0
      (fun _ after => start.Drains after ∧ ∀ method ∈ methods,
        after.pending.contains (.method sname method.name) = false) start
      (methods.forM fun method => checks.finish (.method sname method.name))
      (methods.forM fun method => others.finish (.method sname method.name)) := by
  induction methods generalizing start plain with
  | nil => exact .still (.pure ()) fun _ _ quiet => ⟨quiet.drains, nofun⟩
  | cons method rest ih =>
    refine (h.finish (.method sname method.name) start).bind fun _ mid => ih.weaken ?_
    rintro ⟨-, drains, done⟩ _ after ⟨later, remaining⟩
    exact ⟨drains.trans later, List.forall_mem_cons.mpr ⟨later.not_waiting done, remaining⟩⟩

/-- The methods of a declaration are checked, and then none of them waits. -/
theorem finishMethods (sname : String) (decl : StructDecl Stmt) :
    Check.Accounts p plain levels 0 0
      (fun _ after => start.Drains after ∧ ∀ method ∈ decl.methods,
        after.pending.contains (.method sname method.name) = false) start
      (checks.finishMethods sname decl) (others.finishMethods sname decl) := by
  refine ite (fun _ => ?_) fun _ => h.finishEach sname decl.methods
  refine (h.finish (.method sname StructInfo.initName) start).bind fun _ mid =>
    (h.finishEach sname decl.methods).weaken ?_
  rintro ⟨-, first, -⟩ _ after ⟨later, done⟩
  exact ⟨first.trans later, done⟩

/-- All methods of a struct are checked, and then none of them waits. -/
theorem finishStruct (sname : String) (start : Analyzer) :
    Check.Accounts p plain levels 0 0
      (fun _ after => start.Drains after ∧ after.Clear sname) start
      (checks.finishStruct sname) (others.finishStruct sname) := by
  -- the struct leaves the list of those that are put off before its methods are checked
  refine .modifyThen 0 (Nat.le_refl _) (Nat.le_refl _)
    (fun _ books => ⟨⟨books.distinct, books.known, books.plain⟩, rfl⟩) (get ?_)
  refine (h.finishMethods sname _).freeThen fun _ last => (still (.checkConformance sname)).weaken ?_
  rintro ⟨⟨-, books⟩, first, done⟩ _ after later
  have drains := first.trans later
  have clear : after.Clear sname := by
    intro name
    rw [Bool.eq_false_iff]
    intro waits
    -- a method that waits is one of those that were checked
    obtain ⟨info, found, -, method, mem, rfl⟩ := books.known (.method sname name) (drains.waiting _ waits)
    have checked := done method (by rw [Analyzer.undefer, found]; exact mem)
    rw [later.not_waiting checked] at waits
    cases waits
  refine ⟨⟨drains.waiting, fun other mem => ?_⟩, clear⟩
  by_cases own : other = sname
  · rw [own]
    exact .inr clear
  · exact drains.deferred other (List.mem_filter.mpr ⟨mem, by simp [own]⟩)

theorem finishDeferred (sname : String) :
    Check.Spends p plain levels 0 0 start (checks.finishDeferred sname)
      (others.finishDeferred sname) := by
  refine after (Obeys.structInfo sname _) fun info mid => get (ite (fun _ => ?_) fun _ => pure ())
  exact (h.finishStruct sname mid).weaken fun _ _ _ both => both.1

/-! ## Expressions and statements -/

/-- What the rules take from checking one level further in is paid. -/
theorem passes : checks.Passes (Check.Pays p levels) others where
  expr := h.expr
  condition := h.condition
  statements block start := by
    have nodes : (Stmt.block block).nodes = .stmt (.block block) :: Stmt.nodesOfList block.statements := by
      rw [Stmt.nodes]
    rw [nodes]
    refine ((h.statements block.statements start).under fun plain => ?_).within
      (tally_cons_of_none p rfl _).symm ?_
    · exact (List.forall_mem_cons.mp plain).2
    · rw [List.length_cons, Bool.toNat_true]
      omega
  finish key start := h.finishFree key start
  settle sig key _ := h.settle sig key
  finishDeferred sname _ := h.finishDeferred sname

theorem checkClosure {captures : List String} (note : Note) (params : List Param) (res : Option TypeExpr)
    (body : Block Stmt) :
    Check.Pays p levels true (Expr.closure note params res body captures).nodes
      (checks.checkClosure note params res body) (others.checkClosure note params res body) := by
  intro start
  rw [Expr.nodes]
  refine after (Check.Obeys.steps.resolveSignature _ _ _ _) fun sig mid => get ?_
  refine (((h.checkBody _ sig mid.site).under fun plain => ?_).followed fun _ _ => .pure _).within ?_ ?_
  · exact (List.forall_mem_cons.mp (List.forall_mem_cons.mp plain).2).2
  · rw [tally_cons_of_some p rfl, tally_cons_of_none p rfl]
  · simp only [List.length_cons, Bool.toNat_true]
    omega

theorem checkAlternative (alt : Option Stmt) :
    Check.Spends p (∀ s ∈ alt, s.Plain ∧ s.isAlternative = true) levels (tally p (alt.elim [] Stmt.nodes))
      (2 * (alt.elim [] Stmt.nodes).length) start (checks.checkAlternative alt)
      (others.checkAlternative alt) := by
  cases alt with
  | some s => exact ((h.statement s start).under fun given => given s rfl).followed fun _ _ => .pure _
  | none => exact pure _

/-- Each branch pays for its own nodes. -/
theorem checkIf (pos : Position) (cond : Expr) (body : Block Stmt) (alt : Option Stmt) :
    Check.Pays p levels true (Stmt.ifElse pos cond body alt).nodes (checks.checkIf pos cond body alt)
      (others.checkIf pos cond body alt) := by
  intro start
  have steps := adjusting p levels
  have block := steps.weaken (steps.checkBlockAfter h.passes (fun _ _ => .pure ()) body)
  have spends : Check.Spends p (Stmt.ifElse pos cond body alt).Plain levels
      (tally p cond.nodes + (tally p (Stmt.block body).nodes + tally p (alt.elim [] Stmt.nodes)))
      (2 * cond.nodes.length + (2 * (Stmt.block body).nodes.length + 2 * (alt.elim [] Stmt.nodes).length))
      start (checks.checkIf pos cond body alt) (others.checkIf pos cond body alt) := by
    refine .bind ((h.condition cond start).under fun plain => (Stmt.each_ifElse.mp plain).2.1) ?_
    rintro ⟨cond, facts⟩ mid
    refine after (Check.Obeys.steps.requireBool _ _ _) fun _ mid => get ?_
    refine after (Check.Obeys.modifyFlow _ _) fun _ mid => ?_
    refine .bind ((block mid).under fun plain => (Stmt.each_ifElse.mp plain).2.2.1) ?_
    rintro ⟨body, terminates⟩ mid
    refine get (after (Check.Obeys.modifyFlow _ _) fun _ mid => ?_)
    refine ((h.checkAlternative alt).under fun plain s same => ?_).followed ?_
    · cases same
      exact ⟨(Stmt.each_ifElse.mp plain).2.2.2 s rfl, (Stmt.each_ifElse.mp plain).1⟩
    rintro ⟨alt, terminates⟩ mid
    exact .get (.bind (Check.Obeys.modifyFlow _ _) fun _ _ => .pure _)
  refine spends.within ?_ ?_
  all_goals
    rw [Stmt.nodes_ifElse]
    simp only [Stmt.nodes]
  · rw [tally_cons_of_none p rfl, tally_cons_of_none p rfl, tally_append, tally_cons_of_none p rfl,
      tally_append]
  · simp only [List.length_cons, List.length_append, Bool.toNat_true]
    omega

/-- A `return` pays for its value. -/
theorem checkReturn (pos : Position) (value : Option Expr) :
    Check.Pays p levels false (value.elim [] Expr.nodes) (checks.checkReturn pos value)
      (others.checkReturn pos value) := by
  have returned : Check.Pays p levels false (value.elim [] Expr.nodes) (checks.checkReturned value)
      (others.checkReturned value) := by
    intro start
    cases value with
    | some value => exact (h.expr value start).map
    | none => exact pure _
  refine (adjusting p levels).followed returned fun value mid => still (.get ?_)
  split
  · exact .bind (.report _ _) fun _ _ => .pure _
  · refine .ite (fun _ => .bind (.report _ _) fun _ _ => .pure _) fun _ => .ite (fun _ => ?_) fun _ => ?_
    · exact .bind (.modify (.modifyContext mid _ fun _ => rfl)) fun _ _ => .pure _
    · split
      · exact .bind (.report _ _) fun _ _ => .pure _
      · exact .pure _
      · exact .pure _

/-- The rules that change the state pay for what they check. -/
theorem admits : checks.AdmitsPlaced (Check.Pays p levels) others :=
  (adjusting p levels).admits h.passes h.checkClosure h.checkIf h.checkReturn

/-- The methods of a struct are checked or put off. -/
theorem checkStruct (decl : StructDecl Stmt) (start : Analyzer) :
    Check.Accounts p plain levels 0 0
      (fun _ after => start.Drains after ∧ after.Covers decl.name) start (checks.checkStruct decl)
      (others.checkStruct decl) := by
  refine get (ite (fun _ => ?_) fun _ => ?_)
  · refine .modify (Nat.le_refl _) (Nat.le_refl _) fun _ books => ⟨?_, rfl, ⟨fun _ => id, ?_⟩, ?_⟩
    · exact ⟨books.distinct, books.known, books.plain⟩
    · exact fun _ mem => .inl (List.mem_cons_of_mem _ mem)
    · exact .inl List.mem_cons_self
  · refine (h.finishStruct decl.name start).weaken fun _ _ after both => ⟨both.1, .inr both.2⟩

/-- A statement that is no declaration spends what its nodes have. -/
theorem checkPlaced (placed : s.isDeclaration = false) (declared : Check.Declared) :
    Check.Pays p levels true s.nodes (checks.checkStatement s declared)
      (others.checkStatement s declared) :=
  (adjusting p levels).checkPlaced h.admits placed declared

/-- The alternative of a conditional, which declares nothing, is checked by itself. -/
theorem checkOther (s : Stmt) (start : Analyzer) :
    Check.Spends p (s.Plain ∧ s.isAlternative = true) (levels + 1) (tally p s.nodes) (2 * s.nodes.length)
      start
      (do
        let (stmt, _, terminates) ← checks.checkStatement s .nothing
        return (stmt, terminates))
      (do
        let (stmt, _, terminates) ← others.checkStatement s .nothing
        return (stmt, terminates)) := by
  cases kind : s.isDeclaration with
  | false =>
    have nonempty : 0 < s.nodes.length := by
      rw [s.nodes_eq]
      exact Nat.zero_lt_succ _
    refine (((h.checkPlaced kind .nothing start).under And.left).followed fun _ _ => .pure _).deeper rfl ?_
    rw [Bool.toNat_true]
    omega
  | true =>
    -- the parser never puts a declaration there
    cases s with
    | function decl | struct decl | trait decl =>
      exact .refused (.bind (.pure _) fun _ _ => .pure _) fun both => nomatch both.2
    | _ => cases kind

/-- A statement spends the nodes that are checked where it stands, and then what it declares does not wait
any more. -/
theorem checkStatement (given : plain → s.Plain) (declared : Check.Declared) (start : Analyzer) :
    Check.Accounts p plain levels (tally p s.placedNodes) (2 * s.placedNodes.length - 1)
      (fun _ after => start.Drains after ∧ after.Done (s, declared)) start
      (checks.checkStatement s declared) (others.checkStatement s declared) := by
  cases s with
  | function decl =>
    cases declared with
    | function key =>
      refine (h.finish key start).bind fun _ mid => (pure _).weaken ?_
      rintro ⟨-, drains, done⟩ _ after later
      exact ⟨drains.trans later, later.not_waiting done⟩
    | _ => exact (pure _).weaken fun _ _ _ drains => ⟨drains, trivial⟩
  | struct decl =>
    cases declared with
    | struct registered =>
      cases registered with
      | true =>
        refine (h.checkStruct decl start).bind fun _ mid => (pure _).weaken ?_
        rintro ⟨-, drains, covered⟩ _ after later
        exact ⟨drains.trans later, later.covers covered⟩
      | false => exact (pure _).weaken fun _ _ _ drains => ⟨drains, trivial⟩
    | _ => exact (pure _).weaken fun _ _ _ drains => ⟨drains, trivial⟩
  | trait decl => exact (pure _).weaken fun _ _ _ drains => ⟨drains, trivial⟩
  | _ => exact ((h.checkPlaced rfl declared start).under given).weaken fun _ _ _ drains => ⟨drains, trivial⟩

end Checks.Spending

end FlowScript
