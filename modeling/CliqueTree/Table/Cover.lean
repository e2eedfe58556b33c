import CliqueTree.Table.Walk

/-!
# Covering orders

A breadth-first order of a whole list of vertices. One walk covers the component of the first vertex only;
whether that is an error, or the walk starts again at each vertex not met, is the caller's choice. The
question is put by count: a walk that meets as many vertices as the list has entries is taken to cover it.
-/

set_option autoImplicit false

namespace CliqueTree

/-- What to do when the walk from the first vertex leaves vertices out. -/
inductive Disconnected where
  /-- Refuse. -/
  | reject
  /-- Start again from the next vertex that was not met, component by component. -/
  | perComponent
  deriving DecidableEq, Repr

/-- The name by which the choice is shown. -/
def Disconnected.name : Disconnected → String
  | .reject => "reject"
  | .perComponent => "per_component"

namespace Rows

/-- A breadth-first order of `vertices`. -/
def cover (r : Rows) (vertices : List Nat) (disconnected : Disconnected) :
    Except GraphError (List Nat) :=
  match vertices with
  | [] => .ok []
  | first :: _ =>
    let reached := r.breadthFirst first
    if reached.length < vertices.length then
      match disconnected with
      | .reject => .error (.disconnected reached.length vertices.length)
      | .perComponent => .ok ((r.forest vertices).map (·.vertex))
    else .ok reached

end Rows
end CliqueTree
