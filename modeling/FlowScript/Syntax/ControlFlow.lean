import FlowScript.Syntax
/-!
# What statements certainly do

Two judgements on statement lists that need no types: whether control can fall off the end, and
whether every way through assigns a given field of the receiver.
-/

namespace FlowScript

/-- Whether an expression is the literal `true`, on which a loop never ends by itself. -/
def Expr.isForever : Expr → Bool
  | .literal _ (.bool true) => true
  | _ => false

mutual

/-- Whether control never falls off the end of a statement. There is no way to break out of a loop. -/
def Stmt.terminates : Stmt → Bool
  | .ret .. => true
  | .block ⟨_, body⟩ => anyTerminates body
  | .ifElse _ _ ⟨_, body⟩ (some alternative) => anyTerminates body && alternative.terminates
  | .whileLoop _ condition _ => condition.isForever
  | _ => false

/-- Whether control never falls off the end of a list of statements. -/
def anyTerminates : List Stmt → Bool
  | [] => false
  | s :: rest => s.terminates || anyTerminates rest

end

theorem anyTerminates_eq_any (statements : List Stmt) :
    anyTerminates statements = statements.any Stmt.terminates := by
  induction statements with
  | nil => rfl
  | cons s rest ih => rw [anyTerminates, ih, List.any_cons]

/-- Whether an expression is a chain of assignments with one to the receiver's field `field`. -/
def Expr.assignsField (field : String) : Expr → Bool
  | .assign _ _ _ value => value.assignsField field
  | .assignField _ _ (.self _) target value => target = field || value.assignsField field
  | .assignField _ _ _ _ value => value.assignsField field
  | _ => false

mutual

/-- Whether every way through a statement assigns the receiver's field `field`. A loop may not run
at all, so what it assigns does not count. -/
def Stmt.assignsField (field : String) : Stmt → Bool
  | .expr _ value => value.assignsField field
  | .block ⟨_, body⟩ => FlowScript.assignsField field body
  | .ifElse _ _ ⟨_, body⟩ (some alternative) =>
    FlowScript.assignsField field body && alternative.assignsField field
  | _ => false

/-- Whether every way through a list of statements assigns the receiver's field `field`. -/
def assignsField (field : String) : List Stmt → Bool
  | [] => false
  | s :: rest => s.assignsField field || assignsField field rest

end

end FlowScript
