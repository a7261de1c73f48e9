import FlowScript.Typing.Flow
import FlowScript.Typing.Problem
/-!
# The state of checking

A program point is in a *site*: the frames whose names are visible, innermost first, and the
functions around it.  Frames, symbols and function contexts have numbers, since the body of a
function may be checked long after its name was declared, when its frames hold more names.

The first frame holds the host functions and the second one the global names, which stay from one
program to the next.
-/

namespace FlowScript

/-! ## Names -/

/-- What a name stands for. -/
inductive SymbolKind where
  | variable
  | param
  | function
  | struct
  /-- The receiver of a method. -/
  | receiver
  /-- The variable of a loop over a range. -/
  | loop
  /-- A function of the host. -/
  | host
  deriving DecidableEq, Repr, Inhabited

namespace SymbolKind

/-- Whether names of a kind can be assigned. -/
def isMutable : SymbolKind → Bool
  | .variable | .param => true
  | _ => false

/-- How messages call a name of a kind. -/
def text : SymbolKind → String
  | .function => "function"
  | .struct => "struct"
  | .receiver => "receiver"
  | .loop => "loop variable"
  | .host => "host function"
  | .variable | .param => "binding"

end SymbolKind

/-- Where a name is declared: among the global and host names, or further in, within the function
context with the given number if there is one. -/
inductive Home where
  | topLevel
  | inside (owner : Option Nat)
  deriving DecidableEq, Repr, Inhabited

/-- A declared name. -/
structure Symbol where
  name : String
  ty : Ty
  kind : SymbolKind
  home : Home
  position : Option Position
  /-- Whether its own initial value is being checked. -/
  initializing : Bool := false
  deriving DecidableEq, Repr, Inhabited

/-- The names of one scope. -/
structure Frame where
  symbols : Table String SymbolRef := Table.empty
  types : Table String Ty := Table.empty
  deriving Repr, Inhabited

/-- The scopes and the functions around a program point, innermost first. -/
structure Site where
  frames : List Nat
  contexts : List Nat
  deriving DecidableEq, Repr, Inhabited

/-- What is known of a function while its body is checked. -/
structure FunctionContext where
  name : String
  /-- The return type; unknown until the first `return` if none is written. -/
  result : Ty
  /-- Whether it is the constructor of a struct. -/
  constructor : Bool
  /-- The body, as it is written. -/
  body : Block Stmt
  /-- The captured variables, in the order of their first use. -/
  captures : List String := []
  deriving Inhabited

namespace FunctionContext

/-- Notes that a variable is captured. -/
def capture (context : FunctionContext) (name : String) : FunctionContext :=
  if context.captures.contains name then context
  else { context with captures := context.captures ++ [name] }

end FunctionContext

/-! ## Declarations -/

/-- A declared struct. The type of a field without a written one is unknown until its first
construction or assignment. -/
structure StructInfo where
  decl : StructDecl Stmt
  fields : Table String Ty := Table.empty
  methods : Table String Ty := Table.empty
  traits : List String := []
  deriving Inhabited

namespace StructInfo

/-- The name of the optional constructor method. -/
def initName : String := "init"

/-- Whether a struct has a method called like the constructor. -/
def hasInit (decl : StructDecl Stmt) : Bool := decl.methods.any fun m => m.name = initName

/-- Whether the type of some field is unknown. -/
def hasUnknownField (info : StructInfo) : Bool := info.fields.values.any Ty.isUnknown

/-- The type of a struct's name used as a function. -/
def constructorType (info : StructInfo) : Ty :=
  match info.methods.find? initName with
  | some signature => .function signature.params (.struct info.decl.name)
  | none => .function info.fields.values (.struct info.decl.name)

end StructInfo

/-- A declared trait: its methods with their types. -/
structure TraitInfo where
  methods : Table String Ty := Table.empty
  deriving Repr, Inhabited

/-- A function with a body: a named function by the number of its symbol, or a method by its struct
and its name. -/
inductive FunctionKey where
  | function (symbol : Nat)
  | method (structName name : String)
  deriving DecidableEq, Repr, Inhabited

/-- A function whose body is not checked yet. -/
structure PendingFunction where
  decl : FunctionDecl Stmt
  site : Site
  deriving Inhabited

/-! ## The state -/

/-- The state of checking. -/
structure Analyzer where
  frames : Array Frame
  symbols : Array Symbol
  contexts : Array FunctionContext := #[]
  structs : Table String StructInfo := Table.empty
  traits : Table String TraitInfo := Table.empty
  flow : Flow := {}
  site : Site
  /-- The functions whose bodies are not checked yet. -/
  pending : Table FunctionKey PendingFunction := Table.empty
  /-- The functions whose bodies are being checked, with the numbers of their contexts. -/
  active : Table FunctionKey Nat := Table.empty
  /-- The functions whose bodies are checked. -/
  finished : Table FunctionKey (FunctionDecl Stmt) := Table.empty
  /-- The structs whose methods wait for the types of fields. -/
  deferred : List String := []
  /-- The names that functions assign without declaring them. -/
  unstable : List String := []
  /-- Where the current statement of the program is. -/
  topLevel : Option Position := none
  deriving Inhabited

namespace Analyzer

/-- The number of the frame of host functions. -/
def hostFrame : Nat := 0

/-- The number of the frame of global names. -/
def globalFrame : Nat := 1

/-- The site of the statements of a program. -/
def globalSite : Site := ⟨[globalFrame, hostFrame], []⟩

/-- The name with a number. -/
def symbolAt (analyzer : Analyzer) (id : Nat) : Symbol := analyzer.symbols.getD id default

/-- The name that a reference stands for. -/
def symbol (analyzer : Analyzer) (ref : SymbolRef) : Symbol := analyzer.symbolAt ref.id

/-- The frame with a number. -/
def frame (analyzer : Analyzer) (id : Nat) : Frame := analyzer.frames.getD id default

/-- The function context with a number. -/
def context (analyzer : Analyzer) (id : Nat) : FunctionContext :=
  analyzer.contexts.getD id default

/-- The name visible at a site. -/
def lookupAt? (analyzer : Analyzer) (site : Site) (name : String) : Option SymbolRef :=
  site.frames.findSome? fun id => (analyzer.frame id).symbols.find? name

/-- The name visible at the current site. -/
def lookup? (analyzer : Analyzer) (name : String) : Option SymbolRef :=
  analyzer.lookupAt? analyzer.site name

/-- The type whose name is visible at the current site. -/
def lookupType? (analyzer : Analyzer) (name : String) : Option Ty :=
  analyzer.site.frames.findSome? fun id => (analyzer.frame id).types.find? name

/-- Whether a struct lists a trait. -/
def conforms (analyzer : Analyzer) (structName traitName : String) : Bool :=
  match analyzer.structs.find? structName with
  | some info => info.traits.contains traitName
  | none => false

/-- The struct that a type denotes. -/
def structOf? (analyzer : Analyzer) : Ty → Option StructInfo
  | .struct name => analyzer.structs.find? name
  | _ => none

/-- The trait that a type denotes. -/
def traitOf? (analyzer : Analyzer) : Ty → Option TraitInfo
  | .trait name => analyzer.traits.find? name
  | _ => none

/-- How a value of one type flows into a place of another. -/
def coerce? (analyzer : Analyzer) (source target : Ty) : Option Ty.Coercion :=
  Ty.coerce? analyzer.conforms source target

/-- The type of a variable at the current point. -/
def typeOf (analyzer : Analyzer) (ref : SymbolRef) : Ty :=
  (analyzer.flow.facts.find? ref).getD (analyzer.symbol ref).ty

/-- Where a name declared at the current site is at home. -/
def home (analyzer : Analyzer) : Home :=
  match analyzer.site.frames with
  | id :: _ =>
    if id = hostFrame ∨ id = globalFrame then .topLevel
    else .inside analyzer.site.contexts.head?
  | [] => .topLevel

/-- The state with a frame changed. -/
def modifyFrame (analyzer : Analyzer) (id : Nat) (f : Frame → Frame) : Analyzer :=
  { analyzer with frames := analyzer.frames.modify id f }

/-- The state with a name changed. -/
def modifySymbol (analyzer : Analyzer) (id : Nat) (f : Symbol → Symbol) : Analyzer :=
  { analyzer with symbols := analyzer.symbols.modify id f }

/-- The state in which the methods of a struct are not put off. -/
def undefer (analyzer : Analyzer) (structName : String) : Analyzer :=
  { analyzer with deferred := analyzer.deferred.filter fun name => !decide (name = structName) }

theorem frame_modifyFrame (analyzer : Analyzer) (id other : Nat) (f : Frame → Frame) :
    (analyzer.modifyFrame id f).frame other =
      if id = other ∧ other < analyzer.frames.size then f (analyzer.frame other)
      else analyzer.frame other := by
  by_cases same : id = other
  · subst same
    by_cases inBounds : id < analyzer.frames.size <;>
      simp [modifyFrame, frame, Array.getElem_modify, inBounds]
  · simp [modifyFrame, frame, Array.getElem?_modify, same]

theorem symbolAt_modifySymbol (analyzer : Analyzer) (id other : Nat) (f : Symbol → Symbol) :
    (analyzer.modifySymbol id f).symbolAt other =
      if id = other ∧ other < analyzer.symbols.size then f (analyzer.symbolAt other)
      else analyzer.symbolAt other := by
  by_cases same : id = other
  · subst same
    by_cases inBounds : id < analyzer.symbols.size <;>
      simp [modifySymbol, symbolAt, Array.getElem_modify, inBounds]
  · simp [modifySymbol, symbolAt, Array.getElem?_modify, same]

/-- The state with a function context changed. -/
def modifyContext (analyzer : Analyzer) (id : Nat) (f : FunctionContext → FunctionContext) :
    Analyzer :=
  { analyzer with contexts := analyzer.contexts.modify id f }

/-- The state with a struct changed. -/
def modifyStruct (analyzer : Analyzer) (name : String) (f : StructInfo → StructInfo) :
    Analyzer :=
  match analyzer.structs.find? name with
  | some info => { analyzer with structs := analyzer.structs.insert name (f info) }
  | none => analyzer

/-- Only the struct of that name is changed. -/
theorem find?_modifyStruct (analyzer : Analyzer) (name other : String)
    (f : StructInfo → StructInfo) :
    (analyzer.modifyStruct name f).structs.find? other =
      if name = other then (analyzer.structs.find? name).map f
      else analyzer.structs.find? other := by
  unfold modifyStruct
  split
  · rename_i info found
    rw [Table.find?_insert, found]
    rfl
  · rename_i none
    split
    · rename_i same
      rw [← same, none]
      rfl
    · rfl

/-- The state before any program, with the functions of a host. -/
def initial (signatures : List (String × Ty)) : Analyzer :=
  let hosts := signatures.zipIdx
  { frames := #[
      { symbols := Table.ofList (hosts.map fun ((name, _), id) => (name, ⟨id, name⟩)) }, {}]
    symbols := (hosts.map fun ((name, ty), _) =>
      { name, ty, kind := .host, home := .topLevel, position := none : Symbol }).toArray
    site := globalSite }

end Analyzer

/-! ## Computations -/

/-- What a rule takes for granted of the state or of the program. -/
inductive Lookup where
  /-- A name that stands for a struct has a declared struct. -/
  | struct (name : String)
  /-- A function of the current statement list waits for the check of its body. -/
  | waiting (key : FunctionKey)
  /-- A function whose body is to be checked has a type. -/
  | signature (key : FunctionKey)
  /-- A function whose body has been checked is among those that are being checked. -/
  | active (key : FunctionKey)
  /-- An operator has a rule. -/
  | operator (op : BinaryOp)
  deriving DecidableEq, Repr

/-- Why checking is broken off. -/
inductive Interruption where
  /-- The program nests too deep. -/
  | tooDeep
  /-- What a rule takes for granted is not there. -/
  | undefined (lookup : Lookup)
  deriving DecidableEq, Repr

/-- A result, with the problems that were reported on the way to it. -/
structure Reported (α : Type) where
  result : α
  reports : List CheckReport

instance : Monad Reported where
  pure result := ⟨result, []⟩
  bind first rest :=
    let second := rest first.result
    ⟨second.result, first.reports ++ second.reports⟩

instance : LawfulMonad Reported := LawfulMonad.mk' _
  (fun ⟨_, _⟩ => by simp [Functor.map])
  (fun _ _ => rfl)
  (fun _ _ _ => by simp [bind])

/-- A computation on the state of checking. -/
abbrev Check := ExceptT Interruption (StateT Analyzer Reported)

namespace Check

/-- Reports a problem. -/
def report (problem : CheckProblem) (position : Option Position) : Check Unit :=
  fun analyzer => ⟨(.ok (), analyzer), [⟨problem, position⟩]⟩

/-- Reports a problem of an expression, whose type is then an error. -/
def fail (problem : CheckProblem) (position : Position) : Check Ty := do
  report problem (some position)
  return .error

/-- What a rule takes for granted, if it is there. -/
def demand {α : Type} (lookup : Lookup) : Option α → Check α
  | some found => return found
  | none => throw (.undefined lookup)

/-- Runs `action` and then changes the state by `cleanup`, also if `action` is interrupted. -/
def ensuring {α : Type} (cleanup : Analyzer → Analyzer) (action : Check α) : Check α :=
  fun analyzer =>
    let ⟨(outcome, after), reports⟩ := action analyzer
    ⟨(outcome, cleanup after), reports⟩

/-- Runs `action` and then takes a function off those that are being checked, also if `action` is
interrupted. -/
def closing {α : Type} (key : Option FunctionKey) (action : Check α) : Check α := fun analyzer =>
  let ⟨(outcome, after), reports⟩ := action analyzer
  match key with
  | none => ⟨(outcome, after), reports⟩
  | some key =>
    if after.active.contains key then
      ⟨(outcome, { after with active := after.active.erase key }), reports⟩
    else ⟨(.error (.undefined (.active key)), after), reports⟩

/-- Adds a frame and gives its number. -/
def newFrame : Check Nat := do
  let id := (← get).frames.size
  modify fun analyzer => { analyzer with frames := analyzer.frames.push {} }
  return id

/-- Runs `action` at another site. -/
def atSite {α : Type} (site : Site) (action : Check α) : Check α := do
  let outer := (← get).site
  modify fun analyzer => { analyzer with site }
  ensuring (fun analyzer => { analyzer with site := outer }) action

/-- Declares a name in the innermost frame. A name that is taken there is reported and stays. -/
def declare (name : String) (ty : Ty) (kind : SymbolKind) (position : Position) :
    Check SymbolRef := do
  let analyzer ← get
  let ref : SymbolRef := ⟨analyzer.symbols.size, name⟩
  let symbol : Symbol := { name, ty, kind, home := analyzer.home, position := some position }
  modify fun analyzer => { analyzer with symbols := analyzer.symbols.push symbol }
  let id := analyzer.site.frames.headD Analyzer.globalFrame
  match (analyzer.frame id).symbols.find? name with
  | some taken =>
    let previous := (analyzer.symbol taken).position.map Position.line
    report (.duplicateName name previous) (some position)
  | none =>
    modify fun analyzer => analyzer.modifyFrame id fun frame =>
      { frame with symbols := frame.symbols.insert name ref }
  return ref

/-- Notes the use of a variable in every function between here and the one that declares it. -/
def noteCapture (symbol : Symbol) : Check Unit :=
  match symbol.home with
  | .topLevel => return
  | .inside owner =>
    modify fun analyzer =>
      let between := analyzer.site.contexts.takeWhile fun id => !decide (some id = owner)
      between.foldl
        (fun analyzer id => analyzer.modifyContext id fun context => context.capture symbol.name)
        analyzer

/-- Lets the value of an expression flow from one type into another: widens it, or reports a
problem. -/
def flowInto (expr : Expr) (source target : Ty) (problem : CheckProblem) : Check Expr := do
  match (← get).coerce? source target with
  | some .exact => return expr
  | some .widening => return expr.withWiden true
  | none =>
    report problem (some expr.position)
    return expr

/-- Changes what is known at the current point. -/
def modifyFlow (f : Flow → Flow) : Check Unit :=
  modify fun analyzer => { analyzer with flow := f analyzer.flow }

end Check

end FlowScript
