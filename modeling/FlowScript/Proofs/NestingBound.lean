import FlowScript.Proofs.CallFree
/-!
# How deep evaluation nests

Without calls, evaluation nests no deeper than the program does.

Main statement: `Setup.execute_fits`, that a program without calls and members never runs out of levels if
there are as many as it has nodes.
-/

namespace FlowScript

/-- The leeway not to run out of levels. -/
abbrev Leeway.nesting : Leeway := .to (· ≠ .failure .nesting) nofun

theorem Leeway.nesting_permits : Leeway.nesting.Permits fun _ _ => True where
  returned _ := nofun
  diverged := nofun
  failure _ other same := other (Stop.failure.inj same)
  keep _ := trivial
  push _ := ⟨fun _ => trivial, trivial⟩
  bind _ _ := trivial

theorem Node.Operates.admits {node : Node} (operates : node.Operates) :
    Leeway.nesting.Admits (fun _ _ => True) node := by
  unfold Leeway.Admits
  split
  · exact operates
  · exact operates
  · exact fun _ => trivial
  · exact operates.elim
  · exact operates.elim
  · exact fun _ => trivial
  · trivial

namespace Setup

variable (setup : Setup)

/-- A program without calls does not run out of levels if there are as many as it has nodes. -/
theorem execute_fits {prog : Program} (operates : Stmt.EachOf Node.Operates prog)
    (room : (Stmt.nodesOfList prog).length ≤ setup.levels) (machine : Machine) :
    Eval.Meets (fun stop _ => stop ≠ .failure .nesting) (setup.execute prog) machine fun _ _ => True := by
  suffices fits : (setup.execute prog).Only .nesting from
    (fits machine trivial).allow fun _ _ => And.left
  refine .bind (.modifyGet fun _ _ => trivial) fun _ => .bind (.forM fun s _ => ?_) fun _ => ?_
  · exact .hoist s (fun _ => trivial) fun _ _ _ _ _ _ => trivial
  refine .foldlM (fun _ s mem => ?_) Value.nil
  have each : s.Each (Leeway.nesting.Admits fun _ _ => True) := fun node within =>
    (Stmt.eachOf_iff.mp operates s mem node within).admits
  have room := Nat.le_trans (Stmt.length_nodes_le mem) room
  cases s with
  | expr pos value =>
    simp only [Stmt.nodes, List.length_cons] at room
    exact setup.expr_only Leeway.nesting_permits (Stmt.each_expr.mp each).2 (.inr (by omega))
  | _ =>
    exact .bind (setup.statement_only Leeway.nesting_permits each (fun _ _ _ _ => trivial) (.inr room)) fun _ =>
      .pure

end Setup

end FlowScript
