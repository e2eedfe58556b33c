import CliqueTree.Graph.Chordal
import CliqueTree.JunctionTree.Layout
import CliqueTree.Table.SpanningForest

/-!
# Junction trees

A junction tree joins the maximal cliques of a chordal graph by the edges of a spanning forest of greatest
total overlap. What the two ends of an edge share is the edge's separator. The tree is laid out so that the
same graph and policies always give the same lists, and its fingerprint is the digest of the policy, the
cliques and the edges.
-/

set_option autoImplicit false

namespace CliqueTree

/-- A forest of cliques, laid out. -/
structure JunctionTree (K : Type) where
  /-- The cliques and the edges between them. -/
  graph : Graph (Clique K)
  /-- The digest of the policy under which the cliques were listed. -/
  paramsHash : String

namespace JunctionTree
variable {K : Type} [VertexKey K]

/-- The cliques, in the order of the layout. -/
def cliques (t : JunctionTree K) : List (Clique K) := t.graph.vertices

/-- The edges, from parent to child. -/
def edges (t : JunctionTree K) : List (Clique K × Clique K) := t.graph.edges

def size (t : JunctionTree K) : Nat := t.graph.vertexCount

def edgeCount (t : JunctionTree K) : Nat := t.graph.edgeCount

/-- The cliques next to a clique. -/
def neighbours (t : JunctionTree K) (c : Clique K) : Except GraphError (List (Clique K)) :=
  t.graph.neighbours c

/-- What the ends of each edge share, in the order of the edges. -/
def separators (t : JunctionTree K) : List (List K) := t.edges.map fun e => e.1.shared e.2

/-- The ids of the cliques that contain a key. -/
def holders (t : JunctionTree K) (k : K) : List Nat :=
  t.graph.arena.ids.filter fun i => (t.graph.arena.key? i).any (·.contains k)

/-- Whether a walk through the cliques that contain the key, from the first of them, meets them all. -/
def holdsTogether (t : JunctionTree K) (k : K) : Bool :=
  let holders := t.holders k
  match holders with
  | [] => true
  | first :: _ =>
    ((t.graph.neighbourRows.restrict (· ∈ holders)).breadthFirst first).length = holders.length

/-- Whether the cliques that contain a key are connected in the tree, for every key. -/
def runningIntersection (t : JunctionTree K) : Bool :=
  (distinct (t.cliques.flatMap (·.members))).all t.holdsTogether

def outline (t : JunctionTree K) : Outline (Clique K) := t.graph.outline

section Json
variable [JsonCodec K]

def toJson (t : JunctionTree K) : Json :=
  .obj [("cliques", encode t.cliques), ("edges", encode t.edges), ("separators", encode t.separators),
    ("params_hash", encode t.paramsHash)]

/-- What identifies a tree: its policy, its cliques and its edges. -/
def identity (t : JunctionTree K) : Json :=
  .arr [encode t.paramsHash, encode t.cliques, encode t.edges]

/-- The digest of what identifies the tree. -/
def fingerprint (t : JunctionTree K) : String := t.identity.digestHex

end Json
end JunctionTree

/-- The edges of a clique graph with their weights. An edge is the lighter the more members its ends share. -/
def overlapWeights {K : Type} [VertexKey K] (g : Graph (Clique K)) : List (Int × Edge) :=
  g.edgeIds.toList.map fun e => (-(sharedAt g.arena.keys e : Int), e)

/-- The junction tree of a triangulated graph. -/
def Graph.junctionTree {K : Type} [VertexKey K] (g : Graph K) (p : OrderPolicy) :
    Except GraphError (JunctionTree K) := do
  let cliqueGraph ← g.cliqueGraph p
  let selected ← spanningForest cliqueGraph.vertexCount (overlapWeights cliqueGraph)
  return ⟨layout cliqueGraph.arena.keys selected, p.paramsHash⟩

end CliqueTree
