import CliqueTree.Digraph.Moral
import CliqueTree.JunctionTree.Basic

/-!
# From a directed graph to its junction tree
-/

set_option autoImplicit false

namespace CliqueTree

/-- Marries the parents, fills in the moral graph and joins its maximal cliques, all under one policy. The
directed graph itself is only read. -/
def Digraph.junctionTree {K : Type} [VertexKey K] (g : Digraph K) (p : OrderPolicy) :
    Except GraphError (JunctionTree K) := do
  let chordal := (← (← g.moralGraph).triangulate p).graph
  chordal.junctionTree p

end CliqueTree
