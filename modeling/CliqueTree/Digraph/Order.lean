import CliqueTree.Digraph.Basic
import CliqueTree.Table.TopologicalOrder
import CliqueTree.Table.Walk

/-!
# Ancestors and topological order of a directed graph

The ancestors of a vertex are what a depth-first walk along the parents meets from it. A topological order
lists every vertex before its children, and there is one exactly when no directed cycle exists; otherwise
the error names a vertex on one.
-/

set_option autoImplicit false

namespace CliqueTree
namespace Digraph
variable {K : Type} [VertexKey K]

/-- The vertices with a directed path to `v`, which comes first, as a depth-first walk along the parents
meets them. -/
def ancestors (g : Digraph K) (v : K) : Except GraphError (List K) := do
  return g.arena.keysOf (g.parentRows.depthFirst (← g.arena.id v))

/-- The children of every vertex. -/
def childRows (g : Digraph K) : Rows := .ofLists (g.arena.ids.map g.childIds)

/-- The error that names the vertex with an id as one on a cycle. -/
def cyclicAt (g : Digraph K) (v : Nat) : GraphError :=
  match g.arena.key? v with
  | some k => .cyclic (describe k)
  | none => .noSuchId v

/-- The vertices in an order in which each comes before its children. A directed cycle is an error. -/
def topologicalOrder (g : Digraph K) : Except GraphError (List K) :=
  match g.childRows.topologicalOrder with
  | .ok order => .ok (g.arena.keysOf order)
  | .error v => .error (g.cyclicAt v)

end Digraph
end CliqueTree
