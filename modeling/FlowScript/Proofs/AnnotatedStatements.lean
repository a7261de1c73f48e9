import FlowScript.Proofs.AnnotatedExpressions
/-!
# Accepted statements are annotated

Most statements are annotated as soon as they are checked.  A function and the methods of a struct are
annotated when their bodies are done, which may be earlier or later, and a variable gets its type at the
end of its statement list.  `Analyzer.Visited` says what holds of a statement after it was checked, and
`Analyzer.Visited.complete` that it is annotated at the end of the list, when no function of the list
waits.

Main statement: `Checks.annotating`, which ties the rules together by recursion on the levels.
-/

namespace FlowScript

namespace Check.Gives

theorem atSite {α : Type} {post : α → Prop} {also : Analyzer → Prop} (site : Site) {action : Check α}
    (h : Gives post action also) : Gives post (Check.atSite site action) also := by
  refine get fun a _ => ?_
  refine andThen (modify fun inner consistent => ?_) fun _ => h.ensuring fun after consistent => ?_
  · exact consistent.move site inner.active inner.topLevel
  · exact consistent.move a.site after.active after.topLevel

end Check.Gives

/-- What holds of the results of a computation in any case. -/
theorem Check.Leads.yields {α : Type} {start : Analyzer} {reached : α → Analyzer → Prop} {also : α → Prop}
    {action : Check α} (h : Leads start reached action) (anyway : Yields also action) :
    Leads start (fun res after => reached res after ∧ also res) action := by
  intro res after accepted
  obtain ⟨proceeds, holds⟩ := h res after accepted
  obtain ⟨reports, run, -⟩ := accepted
  exact ⟨proceeds, holds, anyway start res (by rw [run])⟩

/-! ## Statements that were checked -/

/-- What holds of a statement after it was checked: a function does not wait, the methods of a struct do
not wait or are put off, and any other statement has declared its structs and is complete once its list
is. -/
def Analyzer.Visited (a : Analyzer) (source : Stmt) : Stmt × Check.Declared → Prop
  | (.function decl, .function key) => source = .function decl ∧ a.Begun key
  | (.struct decl, .struct true) => source = .struct decl ∧ a.Scheduled decl
  | pair => source.DeclaredIn a ∧
    ∀ later : Analyzer, later.Consistent → (Checks.complete later pair).Completes source

theorem Analyzer.lasting_visited (source : Stmt) (pair : Stmt × Check.Declared) :
    Check.Lasting fun a => a.Registers pair ∧ a.Visited source pair := by
  rintro before after advances ⟨registered, visited⟩
  refine ⟨lasting_registers pair advances registered, ?_⟩
  obtain ⟨statement, declared⟩ := pair
  cases statement with
  | function decl =>
    obtain ⟨id, rfl, -⟩ := registered
    exact ⟨visited.1, advances.begun visited.2⟩
  | struct decl =>
    obtain ⟨rfl, resolved, -⟩ := registered
    exact ⟨visited.1, advances.scheduled resolved.1 visited.2⟩
  | _ => exact ⟨fun node mem => declaredIn_of_declares advances.declares node (visited.1 node mem), visited.2⟩

/-- At the end of its list, when no method of a struct of the list is put off, a statement is
complete. -/
theorem Analyzer.Visited.complete {a : Analyzer} {source : Stmt} {pair : Stmt × Check.Declared}
    (visited : a.Visited source pair) (registered : a.Registers pair)
    (consistent : a.Consistent)
    (begun : ∀ decl, pair = (.struct decl, .struct true) → a.AllBegun decl) :
    (Checks.complete a pair).Completes source ∧ source.DeclaredIn a := by
  obtain ⟨statement, declared⟩ := pair
  cases statement with
  | function decl =>
    obtain ⟨id, rfl, held⟩ := registered
    obtain ⟨rfl, visited⟩ := visited
    obtain ⟨done, found, same⟩ := Begun.finished visited held
    rw [Checks.complete, found, Option.getD_some]
    obtain ⟨checked, -, parts⟩ := consistent.orderly.finished found
    exact ⟨⟨checked, congrArg Stmt.function same⟩, same ▸ parts⟩
  | struct decl =>
    obtain ⟨rfl, resolved, held⟩ := registered
    obtain ⟨rfl, -⟩ := visited
    -- each finished method is the one that stands here
    have finished : ∀ written ∈ decl.methods, ∃ done,
        a.finished.find? (.method decl.name written.name) = some done ∧
          done.position = written.position ∧ done.bare = written := by
      intro written listed
      obtain ⟨done, found, same⟩ := (begun decl rfl written listed).finished (held written listed)
      exact ⟨done, found, same ▸ rfl, same⟩
    refine ⟨⟨?_, ?_⟩, ?_⟩
    · refine Stmt.each_struct.mpr ⟨⟨trivial, trivial⟩, fun _ _ => ⟨trivial, trivial⟩, fun method mem => ?_⟩
      obtain ⟨written, listed, rfl⟩ := List.mem_map.mp mem
      obtain ⟨done, found, here, -⟩ := finished written listed
      rw [found]
      dsimp only
      rw [if_pos here]
      exact (consistent.orderly.finished found).1
    · rw [Checks.complete, Stmt.bare, Stmt.bareMethods_eq, List.map_map]
      refine congrArg (fun methods => Stmt.struct { decl with methods }) ?_
      rw [List.map_congr_left, List.map_id]
      intro written listed
      obtain ⟨done, found, here, same⟩ := finished written listed
      rw [Function.comp_apply, found]
      dsimp only
      rw [if_pos here, same, id]
    · refine Stmt.each_struct.mpr ⟨resolved.1, fun _ _ => trivial, fun written listed => ?_⟩
      obtain ⟨done, found, -, same⟩ := finished written listed
      exact same ▸ (consistent.orderly.finished found).2.2
  | _ => exact ⟨visited.2 a consistent, visited.1⟩

namespace Checks

open Check (Gives Anything)
open Check.Gives

variable {start : Analyzer} {checks : Checks}

namespace Annotating

/-! ## Blocks -/

variable (h : checks.Annotating)
variable {pos : Position} {value : Option Expr} {body : Block Stmt}

include h

theorem checkBlockAfter {before : Check Unit} (first : Gives Anything before) {block : Block Stmt}
    (plain : (Stmt.block block).Plain) :
    Gives (fun checked => (Stmt.block checked.1).Completes (.block block))
      (checks.checkBlockAfter before block) (Stmt.DeclaredIn (.block block)) := by
  have stmts := (Stmt.each_block.mp plain).2
  refine andThen newFrame fun frame => get fun a consistent => ?_
  refine gather (atSite _ (andThen first fun _ => h.statements stmts)) fun checked complete => ?_
  refine andThen (modifyFlow fun _ _ => consistent.typed.facts.filter _) fun _ => done ⟨?_, ?_⟩
    fun _ inner => Stmt.each_block.mpr ⟨trivial, inner⟩
  · exact Stmt.each_block.mpr ⟨⟨trivial, trivial⟩, complete.1.checked⟩
  · rw [Stmt.bare_block, Block.bare, complete.1.bare]

theorem checkBlock {block : Block Stmt} (plain : (Stmt.block block).Plain) :
    Gives (fun checked => (Stmt.block checked.1).Completes (.block block)) (checks.checkBlock block)
      (Stmt.DeclaredIn (.block block)) :=
  h.checkBlockAfter (pure trivial) plain

/-! ## Single statements -/

omit h in
theorem resolveWritten (written : Option TypeExpr) :
    Gives (fun declared => ∀ ty ∈ declared, ty.Determined) (Checks.resolveWritten written) := by
  cases written with
  | some written =>
    refine map (resolveType written) fun ty determined other same => ?_
    cases same
    exact determined
  | none => exact pure nofun

/-- The initial value of a variable. -/
theorem checkInitial (ref : SymbolRef) (declared : Option Ty) {value : Expr}
    (plain : value.Plain) :
    Gives (Expr.Completes · value) (checks.checkInitial ref declared value) value.DeclaredIn := by
  have initializing (flag : Bool) (a : Analyzer) (consistent : a.Consistent) :
      a.Proceeds (a.modifySymbol ref.id fun symbol =>
        { symbol with initializing := flag }) :=
    consistent.modifySymbol ref.id (fun _ typed => ⟨typed.canonical, typed.known⟩) fun _ => rfl
  refine andThen (modify (initializing true)) fun _ => ?_
  refine gather ((h.expr plain).ensuring (initializing false)) fun value annotated => ?_
  cases declared with
  | some target => exact (flowInto annotated _ rfl).leaving fun _ _ => id
  | none =>
    refine andThen (modify fun _ consistent => ?_) fun _ => done annotated fun _ => id
    exact consistent.setType ref.id annotated.determined

/-- A variable is complete once its list is. -/
theorem checkVarDecl {name : String} {written : Option TypeExpr} {resolved : Option Ty}
    (plain : (Stmt.varDecl pos name written value resolved).Plain) :
    Gives
      (fun checked => (∃ value ref, checked = (.varDecl pos name written value none, .variable ref)) ∧
        ∀ later : Analyzer, later.Consistent →
          (complete later checked).Completes (.varDecl pos name written value resolved))
      (checks.checkVarDecl pos name written value)
      (Stmt.DeclaredIn (.varDecl pos name written value resolved)) := by
  obtain ⟨own, inner⟩ := Stmt.each_varDecl.mp plain
  obtain rfl : resolved = none := own
  have completed (checked : Option Expr) (annotated : Option.Rel Expr.Completes checked value) (ref : SymbolRef)
      (later : Analyzer) (consistent : later.Consistent) :
      (complete later (.varDecl pos name written checked none, .variable ref)).Completes
        (.varDecl pos name written value none) := by
    obtain ⟨annotated, bare⟩ := Expr.completes_option annotated
    refine ⟨Stmt.each_varDecl.mpr ⟨⟨⟨_, rfl, (consistent.typed.names ref.id).canonical⟩, trivial⟩, annotated⟩, ?_⟩
    rw [complete, Stmt.bare_varDecl, bare]
  refine bind (resolveWritten written) fun declared determined => ?_
  have canonical : (declared.getD .unknown).Canonical := by
    cases declared with
    | none => rfl
    | some ty => exact (determined ty rfl).1
  refine andThen (declare name pos canonical nofun) fun ref => ?_
  cases value with
  | some value =>
    refine gather (h.checkInitial ref declared (inner value rfl)) fun value annotated => ?_
    exact done ⟨⟨_, _, rfl⟩, completed (some value) (.some annotated) ref⟩ fun _ inner =>
      Stmt.each_varDecl.mpr ⟨trivial, by simpa using inner⟩
  | none =>
    have final := completed none .none ref
    have declared (later : Analyzer) : Stmt.DeclaredIn (.varDecl pos name written none none) later :=
      Stmt.each_varDecl.mpr ⟨trivial, nofun⟩
    refine ite (fun _ => ?_) fun _ => done ⟨⟨_, _, rfl⟩, final⟩ declared
    exact andThen (modifyFlow fun _ facts => facts) fun _ => done ⟨⟨_, _, rfl⟩, final⟩ declared

theorem checkAlternative {alt : Option Stmt}
    (plain : ∀ other ∈ alt, other.Plain ∧ other.isAlternative = true) :
    Gives (fun checked => Option.Rel Stmt.Completes checked.1 alt)
      (checks.checkAlternative alt) (fun later => ∀ other ∈ alt, other.DeclaredIn later) := by
  cases alt with
  | some alt =>
    obtain ⟨plain, allowed⟩ := plain alt rfl
    exact gather (h.statement plain allowed) fun checked annotated => done (.some annotated) fun _ => by simp
  | none => exact done .none fun _ => nofun

/-- A conditional is complete in both branches. -/
theorem checkIf {cond : Expr} {alt : Option Stmt}
    (plain : (Stmt.ifElse pos cond body alt).Plain) :
    Gives (fun checked => (∃ cond body alt, checked.1 = .ifElse pos cond body alt) ∧
        checked.1.Completes (.ifElse pos cond body alt))
      (checks.checkIf pos cond body alt) (Stmt.DeclaredIn (.ifElse pos cond body alt)) := by
  obtain ⟨own, test, block, others⟩ := Stmt.each_ifElse.mp plain
  have others : ∀ other ∈ alt, other.Plain ∧ other.isAlternative = true := by
    intro other same
    cases same
    exact ⟨others other rfl, own⟩
  refine gather (h.condition test) ?_
  rintro ⟨tested, facts⟩ ⟨annotated, canonical⟩
  refine bind (requireBool _ annotated.checked) fun _ _ => get fun entry consistent => ?_
  have known := consistent.typed.facts
  refine andThen (modifyFlow fun _ _ => known.overlay canonical.whenTrue) fun _ => ?_
  refine gather (h.checkBlock block) fun first inner => get fun afterBody consistentBody => ?_
  refine andThen (modifyFlow fun _ _ => known.overlay canonical.whenFalse) fun _ => ?_
  refine gather (h.checkAlternative others) fun second alternative => get fun after consistent => ?_
  obtain ⟨checked, bare⟩ := Stmt.completes_option alternative
  refine andThen (modifyFlow fun _ _ => ?_) fun _ => done ⟨⟨_, _, _, rfl⟩, ?_, ?_⟩
    fun _ others block test => Stmt.each_ifElse.mpr ⟨trivial, test, block, others⟩
  · have facts := consistentBody.typed.facts
    split
    · exact facts.filter _
    · exact facts
    · exact consistent.typed.facts
    · exact facts
  · exact Stmt.each_ifElse.mpr ⟨⟨trivial, trivial⟩, annotated.checked, inner.checked, checked⟩
  · rw [Stmt.bare_ifElse, annotated.bare, inner.body, bare]

/-- A loop is complete. -/
theorem checkWhile {cond : Expr} (plain : (Stmt.whileLoop pos cond body).Plain) :
    Gives (fun checked => (∃ cond body, checked.1 = .whileLoop pos cond body) ∧
        checked.1.Completes (.whileLoop pos cond body))
      (checks.checkWhile pos cond body) (Stmt.DeclaredIn (.whileLoop pos cond body)) := by
  obtain ⟨-, test, block⟩ := Stmt.each_whileLoop.mp plain
  refine andThen (modifyFlow fun _ facts => facts.filter _) fun _ => ?_
  refine gather (h.condition test) ?_
  rintro ⟨tested, facts⟩ ⟨annotated, canonical⟩
  refine bind (requireBool _ annotated.checked) fun _ _ => get fun entry consistent => ?_
  have known := consistent.typed.facts
  refine andThen (modifyFlow fun _ _ => known.overlay canonical.whenTrue) fun _ => ?_
  refine gather (h.checkBlock block) fun checked inner => ?_
  refine andThen (modifyFlow fun _ _ => ?_) fun _ => done ⟨⟨_, _, rfl⟩, ?_, ?_⟩
    fun _ block test => Stmt.each_whileLoop.mpr ⟨trivial, test, block⟩
  · refine Table.All.overlay ?_ canonical.whenFalse
    split
    · exact known
    · exact known.filter _
  · exact Stmt.each_whileLoop.mpr ⟨⟨trivial, trivial⟩, annotated.checked, inner.checked⟩
  · change Stmt.whileLoop pos (Expr.bare _) (Block.bare _) = _
    rw [annotated.bare, inner.body]

theorem checkBound {bound : Expr} (plain : bound.Plain) :
    Gives (Expr.Completes · bound) (checks.checkBound bound) bound.DeclaredIn := by
  refine gather (h.expr plain) fun bound annotated => ?_
  exact ite (fun _ => errorThen rfl _) fun _ => done annotated fun _ => id

/-- A counting loop is complete, with its variable a whole number. -/
theorem checkFor {name : String} {start stop : Expr}
    (plain : (Stmt.forRange pos name start stop body).Plain) :
    Gives (fun checked => (∃ start stop body, checked = .forRange pos name start stop body) ∧
        checked.Completes (.forRange pos name start stop body))
      (checks.checkFor pos name start stop body) (Stmt.DeclaredIn (.forRange pos name start stop body)) := by
  obtain ⟨-, first, last, block⟩ := Stmt.each_forRange.mp plain
  refine gather (h.checkBound first) fun _ annotatedStart => ?_
  refine gather (h.checkBound last) fun _ annotatedStop => ?_
  refine andThen (modifyFlow fun _ facts => facts.filter _) fun _ => get fun entry consistent => ?_
  have known := consistent.typed.facts
  have loop : Gives Anything (do let _ ← Check.declare name .int .loop pos) :=
    andThen (declare name pos rfl fun _ => nofun) fun _ => pure trivial
  refine gather (h.checkBlockAfter loop block) fun checked inner => ?_
  refine andThen (modifyFlow fun _ _ => ?_) fun _ => done ⟨⟨_, _, _, rfl⟩, ?_, ?_⟩
    fun _ block last first => Stmt.each_forRange.mpr ⟨trivial, first, last, block⟩
  · split
    · exact known
    · exact known.filter _
  · exact Stmt.each_forRange.mpr ⟨⟨trivial, trivial⟩, annotatedStart.checked, annotatedStop.checked,
      inner.checked⟩
  · change Stmt.forRange pos name (Expr.bare _) (Expr.bare _) (Block.bare _) = _
    rw [annotatedStart.bare, annotatedStop.bare, inner.body]

theorem checkReturned (plain : ∀ e ∈ value, e.Plain) :
    Gives (Option.Rel Expr.Completes · value) (checks.checkReturned value)
      (fun later => ∀ e ∈ value, e.DeclaredIn later) := by
  cases value with
  | some value =>
    refine (map (h.expr (plain value rfl)) fun e annotated => .some annotated).leaving fun _ parts => ?_
    simpa using parts
  | none => exact done .none fun _ => nofun

omit h in
/-- The type of what is returned, which is `nil` if nothing is. -/
theorem returned_canonical (value : Option Expr) : (∀ e ∈ value, e.Checked) →
    Ty.Canonical (match value with
      | some value => value.checkedTy
      | none => .nil) := by
  intro annotated
  cases value with
  | some value => exact (annotated value rfl).determined.1
  | none => rfl

/-- A `return` is complete, also where it gives a function its result. -/
theorem checkReturn (plain : (Stmt.ret pos value).Plain) :
    Gives (fun checked => (∃ value, checked = .ret pos value) ∧ checked.Completes (.ret pos value))
      (checks.checkReturn pos value) (Stmt.DeclaredIn (.ret pos value)) := by
  have inner := (Stmt.each_ret.mp plain).2
  have declared (later : Analyzer) (inner : ∀ e ∈ value, e.DeclaredIn later) :
      Stmt.DeclaredIn (.ret pos value) later := Stmt.each_ret.mpr ⟨trivial, inner⟩
  refine gather (h.checkReturned inner) fun returned annotated => get fun a _ => ?_
  have final {returned : Option Expr} (annotated : Option.Rel Expr.Completes returned value) :
      (∃ other, Stmt.ret pos returned = .ret pos other) ∧ (Stmt.ret pos returned).Completes (.ret pos value) := by
    obtain ⟨checked, bare⟩ := Expr.completes_option annotated
    refine ⟨⟨returned, rfl⟩, Stmt.each_ret.mpr ⟨⟨trivial, trivial⟩, checked⟩, ?_⟩
    rw [Stmt.bare_ret, bare]
  have src := returned_canonical returned (Expr.completes_option annotated).1
  split
  · exact errorThen rfl _
  · refine ite (fun _ => errorThen rfl _) fun _ => ite (fun _ => ?_) fun _ => ?_
    · refine andThen (modify fun _ h => h.modifyContext _ fun _ _ => ?_) fun _ => ?_
      · exact src
      · exact done (final annotated) declared
    · split
      · exact errorThen rfl _
      · rename_i widening
        refine done (final ?_) declared
        cases annotated with
        | none => exact .none
        | some annotated => exact .some (annotated.withWiden fun _ => src.of_widening widening)
      · exact done (final annotated) declared

/-- The check of a struct's methods has begun or is put off. -/
theorem checkStruct {decl : StructDecl Stmt} (consistent : start.Consistent)
    (resolved : start.Resolved decl) :
    Check.Leads start (fun _ after => after.Scheduled decl) (checks.checkStruct decl) := by
  refine .get ?_
  dsimp only
  split
  · exact .modify (consistent.defer resolved) (.inl List.mem_cons_self)
  · exact (h.finishStruct consistent resolved).weaken fun _ _ _ begun => .inr begun

/-- A statement that can be the alternative of a conditional. -/
theorem checkOther {s : Stmt} (plain : s.Plain) (allowed : s.isAlternative = true) :
    Gives (fun checked => checked.1.Completes s) (checks.checkStatement s .nothing) s.DeclaredIn := by
  cases s with
  | block body => exact gather (h.checkBlock plain) fun _ annotated => done annotated fun _ => id
  | ifElse pos cond body alt =>
    exact gather (h.checkIf plain) fun _ both => done both.2 fun _ => id
  | _ => cases allowed

/-- After its check a statement is visited. What it declares is still on the books. -/
theorem checkStatement {statement : Stmt} {declared : Check.Declared}
    (plain : statement.Plain) (consistent : start.Consistent)
    (registered : start.Registers (statement, declared)) :
    Check.Leads start
      (fun checked after =>
        (after.Registers (checked.1, checked.2.1) ∧ after.Visited statement (checked.1, checked.2.1)) ∧
          (statement.isDeclaration = true → (checked.1, checked.2.1) = (statement, declared)))
      (checks.checkStatement statement declared) := by
  cases statement with
  | varDecl pos name written value resolved =>
    refine ((h.checkVarDecl plain).leads consistent).bind ?_
    rintro _ after proceeds ⟨⟨⟨value, ref, rfl⟩, completed⟩, parts⟩
    exact .pure proceeds.consistent ⟨⟨trivial, parts, completed⟩, nofun⟩
  | expr pos value =>
    have inner := (Stmt.each_expr.mp plain).2
    refine ((h.expr inner).leads consistent).bind ?_
    rintro value after proceeds ⟨annotated, parts⟩
    refine .pure proceeds.consistent ⟨⟨trivial, Stmt.each_expr.mpr ⟨trivial, parts⟩, fun _ _ => ?_⟩, nofun⟩
    exact ⟨Stmt.each_expr.mpr ⟨⟨trivial, trivial⟩, annotated.checked⟩, congrArg (Stmt.expr pos) annotated.bare⟩
  | block body =>
    refine ((h.checkBlock plain).leads consistent).bind ?_
    rintro checked after proceeds ⟨annotated, parts⟩
    exact .pure proceeds.consistent ⟨⟨trivial, parts, fun _ _ => annotated⟩, nofun⟩
  | ifElse pos cond body alt =>
    refine ((h.checkIf plain).leads consistent).bind ?_
    rintro ⟨_, terminates⟩ after proceeds ⟨⟨⟨cond, body, alt, rfl⟩, annotated⟩, parts⟩
    exact .pure proceeds.consistent ⟨⟨trivial, parts, fun _ _ => annotated⟩, nofun⟩
  | whileLoop pos cond body =>
    refine ((h.checkWhile plain).leads consistent).bind ?_
    rintro ⟨_, terminates⟩ after proceeds ⟨⟨⟨cond, body, rfl⟩, annotated⟩, parts⟩
    exact .pure proceeds.consistent ⟨⟨trivial, parts, fun _ _ => annotated⟩, nofun⟩
  | forRange pos name first last body =>
    refine ((h.checkFor plain).leads consistent).bind ?_
    rintro _ after proceeds ⟨⟨⟨first, last, body, rfl⟩, annotated⟩, parts⟩
    exact .pure proceeds.consistent ⟨⟨trivial, parts, fun _ _ => annotated⟩, nofun⟩
  | ret pos value =>
    refine ((h.checkReturn plain).leads consistent).bind ?_
    rintro _ after proceeds ⟨⟨⟨value, rfl⟩, annotated⟩, parts⟩
    exact .pure proceeds.consistent ⟨⟨trivial, parts, fun _ _ => annotated⟩, nofun⟩
  | function decl =>
    -- the body is checked now, unless a use of the function has led to its check before
    obtain ⟨id, rfl, held⟩ := registered
    refine (h.finish (.function id) consistent).bind fun _ after proceeds none => ?_
    have known := proceeds.advances.knows (consistent.orderly.knows_of_holds held)
    exact .pure proceeds.consistent
      ⟨⟨⟨id, rfl, proceeds.advances.holds held⟩, rfl, known, none⟩, fun _ => rfl⟩
  | struct decl =>
    -- the methods are checked now, or put off until the end of the list
    have all := registered
    obtain ⟨rfl, resolved, held⟩ := registered
    refine (h.checkStruct consistent resolved).bind fun _ after proceeds scheduled => ?_
    have still := Analyzer.lasting_registers (.struct decl, .struct true) proceeds.advances all
    exact .pure proceeds.consistent ⟨⟨still, rfl, scheduled⟩, fun _ => rfl⟩
  | trait decl =>
    have annotated : (Stmt.trait decl).Checked :=
      Stmt.each_trait.mpr ⟨⟨trivial, trivial⟩, fun _ _ => ⟨trivial, trivial⟩⟩
    have parts : (Stmt.trait decl).DeclaredIn start := Stmt.each_trait.mpr ⟨trivial, fun _ _ => trivial⟩
    exact .pure consistent ⟨⟨trivial, parts, fun _ _ => ⟨annotated, rfl⟩⟩, fun _ => rfl⟩

/-! ## Statement lists -/

/-- What holds of the statements of a list that were checked so far: each was visited, and those that
declare something stand as they were. -/
def Visits (done : List (Stmt × Check.Declared)) (progress : Progress) (a : Analyzer) : Prop :=
  List.Forall₂ (fun next pair => (a.Registers pair ∧ a.Visited next.1 pair) ∧
    (next.1.isDeclaration = true → pair = next)) done progress.checked.toList

/-- One more statement is visited. -/
theorem checkNext {done : List (Stmt × Check.Declared)}
    {progress : Progress} {next : Stmt × Check.Declared}
    (plain : next.1.Plain) (consistent : start.Consistent) (registered : start.Registers next)
    (visits : Visits done progress start) :
    Check.Leads start (Visits (done ++ [next])) (checks.checkNext progress next) := by
  have arrives : Gives Anything (Checks.arriveAt progress next.1) :=
    composing.arriveAt (fun _ => modify fun _ consistent => consistent.move _ _ _) progress next.1
  refine (arrives start consistent).bind fun _ mid reached _ => ?_
  have registered := Analyzer.lasting_registers _ reached.advances registered
  refine (h.checkStatement plain reached.consistent registered).bind ?_
  rintro ⟨checked, declares, terminates⟩ after proceeds ⟨visited, same⟩
  have before := visits.imp fun next pair both =>
    And.imp_left (Analyzer.lasting_visited next.1 pair (reached.trans proceeds).advances) both
  refine .pure proceeds.consistent ?_
  rw [Visits, Array.toList_push]
  exact List.rel_append before (.cons ⟨visited, same⟩ .nil)

/-- At the end of a list the methods of its structs that were put off are checked. -/
theorem finishPutOff {declared : List (Stmt × Check.Declared)}
    {progress : Progress} (consistent : start.Consistent)
    (registered : ∀ pair ∈ declared, start.Registers pair) (visits : Visits declared progress start) :
    Check.Leads start
      (fun _ after => ∀ pair ∈ declared, ∀ decl, pair = (.struct decl, .struct true) → after.AllBegun decl)
      (declared.forM checks.finishPutOff) := by
  have visited : ∀ pair ∈ declared, ∀ decl, pair = (.struct decl, .struct true) → start.Scheduled decl := by
    have each : List.Forall₂ (fun next _ =>
        (∀ decl, next = (.struct decl, .struct true) → start.Scheduled decl) ∧ True)
        declared progress.checked.toList := by
      refine visits.imp fun next pair both => ⟨?_, trivial⟩
      rintro decl rfl
      obtain rfl := both.2 rfl
      exact both.1.2.2
    exact ((List.forall₂_and_left _ _).mp each).1
  refine Check.Leads.forM declared
    (fun pair => show Check.Lasting fun a => a.Registers pair ∧
        ∀ decl, pair = (.struct decl, .struct true) → a.Scheduled decl from ?_)
    (fun pair => show Check.Lasting fun a => ∀ decl, pair = (.struct decl, .struct true) → a.AllBegun decl from
      fun advances before decl same => advances.allBegun (before decl same))
    consistent (fun pair mem => ⟨registered pair mem, visited pair mem⟩) ?_
  · rintro before after advances ⟨registered, visited⟩
    refine ⟨Analyzer.lasting_registers pair advances registered, ?_⟩
    rintro decl rfl
    exact advances.scheduled registered.2.1.1 (visited decl rfl)
  rintro pair - start consistent ⟨registered, visited⟩
  unfold Checks.finishPutOff
  split
  · rename_i decl
    obtain ⟨-, resolved, -⟩ := registered
    refine .get ?_
    split
    · refine (h.finishStruct consistent resolved).weaken fun _ after _ begun other same => ?_
      cases same
      exact begun
    · -- a struct that was visited and is not on the list has no method that waits
      rename_i listed
      rw [List.contains_iff_mem] at listed
      refine .pure consistent fun other same => ?_
      cases same
      exact Or.resolve_left (visited decl rfl) listed
  · rename_i other
    exact .pure consistent fun decl same => absurd same (other decl)

/-- The statements of an accepted list are the given ones, annotated. -/
theorem checkStatements {stmts : List Stmt} (plain : Stmt.EachOf Node.Plain stmts) :
    ∀ start : Analyzer, start.Consistent → Check.Leads start
      (fun checked after => Stmt.AllComplete checked.1 stmts ∧ Stmt.AllDeclaredIn stmts after)
      (checks.checkStatements stmts) := by
  intro start consistent
  have hoists := Check.Leads.hoist consistent (Stmt.eachOf_iff.mp plain)
  refine (hoists.yields (Weighing.hoist stmts)).bind ?_
  rintro declared hoisted first ⟨registered, rfl⟩
  have loop := Check.Leads.foldlM declared
    (fun pair => show Check.Lasting fun a => pair.1.Plain ∧ a.Registers pair from
      fun advances both => ⟨both.1, Analyzer.lasting_registers pair advances both.2⟩)
    first.consistent registered (show Visits [] {} hoisted from .nil)
    fun done progress pair _ start consistent both visits =>
      h.checkNext both.1 consistent both.2 visits
  refine loop.bind fun progress checked second visits => ?_
  have registered : ∀ pair ∈ declared, checked.Registers pair := fun pair mem =>
    Analyzer.lasting_registers pair second.advances (registered pair mem).2
  refine (h.finishPutOff second.consistent registered visits).bind fun _ final third begun => ?_
  -- what was visited is completed from the final state, in which every body is checked
  have each : List.Forall₂ (fun next pair => next.1.DeclaredIn final ∧ (complete final pair).Completes next.1)
      declared progress.checked.toList := by
    refine ((List.forall₂_and_left _ _).mpr ⟨begun, visits⟩).imp ?_
    rintro next pair ⟨begun, both, same⟩
    obtain ⟨registered, visited⟩ := Analyzer.lasting_visited next.1 pair third.advances both
    refine And.symm (visited.complete registered third.consistent fun decl struct => begun decl ?_)
    obtain ⟨declares, -⟩ : next.1 = .struct decl ∧ final.Scheduled decl := by
      rw [struct] at visited
      exact visited
    rw [← same (by rw [declares]; rfl), struct]
  obtain ⟨parts, complete⟩ := (List.forall₂_and_left _ _).mp each
  refine .get (.pure third.consistent ⟨Stmt.allComplete_iff.mpr ?_, Stmt.eachOf_iff.mpr ?_⟩)
  · rw [List.forall₂_map_left_iff, List.forall₂_map_right_iff]
    exact complete.flip
  · exact List.forall_mem_map.mpr parts

end Annotating

/-- Checking annotates what it accepts, however many levels are left. -/
theorem annotating (levels : Nat) : Checks.Annotating (.within levels) := by
  induction levels with
  | zero =>
    exact ⟨fun _ => throw _, fun _ => throw _, fun _ _ => throw _, fun _ => throw _,
      fun _ _ _ _ _ accepted => absurd accepted Check.accepts_throw⟩
  | succ levels ih =>
    refine ⟨fun plain => ih.checkExpr plain, fun plain => ih.checkCondition plain,
      fun plain allowed => gather (ih.checkOther plain allowed) fun _ annotated => done annotated fun _ => id,
      fun {stmts} plain => ?_, fun key _ consistent => ih.finishFunction key consistent⟩
    -- the verdict is right in any case
    intro start consistent
    refine ((ih.checkStatements plain start consistent).yields ((weighing (levels + 1)).statements stmts)).weaken ?_
    rintro _ after - ⟨⟨complete, parts⟩, weighed⟩
    refine ⟨⟨complete, weighed.1.trans weighed.2.symm⟩, fun later advances node mem => ?_⟩
    exact Analyzer.declaredIn_of_declares advances.declares node (parts node mem)

end Checks

end FlowScript
