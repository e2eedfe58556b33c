import CliqueTree.Digraph.Basic
import CliqueTree.Table.Marriage

/-!
# Moral graphs

Marrying the parents of every vertex and forgetting the directions puts each vertex and its parents into
one complete set.
-/

set_option autoImplicit false

namespace CliqueTree
namespace Digraph
variable {K : Type} [VertexKey K]

/-- Marries the parents of each vertex, in the order of insertion. -/
def moralize (g : Digraph K) : Except GraphError (Growth (Digraph K)) := marry g g.arena.ids

/-- The moral graph. -/
def moralGraph (g : Digraph K) : Except GraphError (Graph K) := do
  return (← g.moralize).graph.toGraph

end Digraph
end CliqueTree
