import CliqueTree.Graph.Basic
import CliqueTree.Key.Clique
import CliqueTree.Policy
import CliqueTree.Table.Extraction
import CliqueTree.Table.Fill

/-!
# Triangulation and cliques of a graph

`triangulate` fills a graph in once and for all, in the order that a policy chooses; `fillIn` tells which
edges that would add. The cliques of a triangulated graph are listed as the vertices find them, in the
order of a policy of their own, followed by those that only the order of elimination finds. The clique
graph joins the cliques that share a member.
-/

set_option autoImplicit false

namespace CliqueTree
namespace Graph
variable {K : Type} [VertexKey K]

/-- The order in which a policy takes the vertices. -/
def resolve (g : Graph K) (p : OrderPolicy) : Except GraphError (List Nat) :=
  p.resolve g.neighbourRows g.arena.ids

/-- Makes the graph chordal. A graph that is triangulated already is refused before its order is asked for. -/
def triangulate (g : Graph K) (p : OrderPolicy) : Except GraphError (Growth (Graph K)) := do
  if g.triangulated then throw .alreadyTriangulated
  let order ← g.resolve p
  let filled ← fill g order
  return { filled with graph.elimination := some order }

/-- The edges that filling in would add, tried on a copy of the neighbours. -/
def fillIn (g : Graph K) (p : OrderPolicy) : Except GraphError (List (K × K)) := do
  return g.arena.edgesOf (← fill g.neighbourRows (← g.resolve p)).added

/-- The maximal cliques of a triangulated graph, as lists of ids. -/
def maximalCliqueIds (g : Graph K) (p : OrderPolicy) : Except GraphError (List (List Nat)) := do
  let some elimination := g.elimination | throw .notTriangulated
  let found ← g.neighbourRows.greedy (← g.resolve p)
  return found ++ (← g.neighbourRows.missing elimination found)

/-- The maximal cliques of a triangulated graph. -/
def maximalCliques (g : Graph K) (p : OrderPolicy) : Except GraphError (List (Clique K)) := do
  return (← g.maximalCliqueIds p).map fun ids => Clique.ofList (g.arena.keysOf ids)

/-- The positions of every two cliques that share a member, the earlier position first. -/
def overlapping (cliques : List (Clique K)) : List Edge :=
  ((pairs cliques.zipIdx).filter fun p => 0 < p.1.1.overlap p.2.1).map fun p => (p.1.2, p.2.2)

/-- The graph of the maximal cliques, in which those that share a member are joined. -/
def cliqueGraph (g : Graph K) (p : OrderPolicy) : Except GraphError (Graph (Clique K)) := do
  let cliques ← g.maximalCliques p
  return .ofEdgeIds (.ofKeys cliques) (overlapping cliques)

end Graph
end CliqueTree
