import CliqueTree.Key.Arena
import CliqueTree.Key.Instances
import CliqueTree.Key.Outline
import CliqueTree.Table.Growth

/-!
# Undirected graphs

Edges between keys in the order of insertion, repeats and loops included, with the neighbours of each vertex
in the same order. A triangulated graph remembers the order in which its vertices were eliminated, and
takes no further edge from a caller.
-/

set_option autoImplicit false

namespace CliqueTree

/-- An undirected graph over keys. -/
structure Graph (K : Type) where
  arena : Arena K
  edgeIds : Array Edge
  neighbourRows : Rows
  /-- The order of elimination, once the graph is triangulated. `FlaggedGraph` has a flag and a list in its place. -/
  elimination : Option (List Nat)

namespace Graph
variable {K : Type}

/-- Adds the edge between two ids. -/
def link (g : Graph K) (u v : Nat) : Graph K :=
  { g with
    edgeIds := g.edgeIds.push (u, v)
    neighbourRows := (g.neighbourRows.add u v).add v u }

instance : NeighbourLinks (Graph K) where
  neighbours := neighbourRows
  link := link
  neighbours_link _ _ _ := rfl

variable [VertexKey K]

/-- A graph without edges. -/
def blank (arena : Arena K) : Graph K := ⟨arena, #[], .blank arena.size, none⟩

/-- The graph with the given edges. -/
def ofEdgeIds (arena : Arena K) (edges : List Edge) : Graph K :=
  edges.foldl (fun g e => g.link e.1 e.2) (blank arena)

/-- The graph with the given vertices and edges. An end of an edge that is no vertex is an error. -/
def ofEdges (vertices : List K) (edges : List (K × K)) : Except GraphError (Graph K) := do
  let arena := Arena.ofKeys vertices
  return ofEdgeIds arena (← arena.edgeIds edges)

def vertices (g : Graph K) : List K := g.arena.keys.toList

def edges (g : Graph K) : List (K × K) := g.arena.edgesOf g.edgeIds

def vertexCount (g : Graph K) : Nat := g.arena.size

def edgeCount (g : Graph K) : Nat := g.edgeIds.size

def triangulated (g : Graph K) : Bool := g.elimination.isSome

/-- The ids in the order of elimination, none before the graph is triangulated. -/
def eliminationIds (g : Graph K) : List Nat := g.elimination.getD []

/-- The keys in the order of elimination. -/
def eliminationOrder (g : Graph K) : List K := g.arena.keysOf g.eliminationIds

/-- Adds an edge. An unknown end is reported before a graph that takes no edge. -/
def addEdge (g : Graph K) (u v : K) : Except GraphError (Graph K) := do
  let (u, v) ← g.arena.edgeId (u, v)
  if g.triangulated then throw .alreadyTriangulated
  return g.link u v

/-- Whether an edge joins `u` and `v`. -/
def hasEdge (g : Graph K) (u v : K) : Except GraphError Bool := do
  let (u, v) ← g.arena.edgeId (u, v)
  return v ∈ g.neighbourRows.get u

/-- The neighbours of `v`, one for each edge at it. -/
def neighbours (g : Graph K) (v : K) : Except GraphError (List K) := do
  return g.arena.keysOf (g.neighbourRows.get (← g.arena.id v))

def outline (g : Graph K) : Outline K := ⟨g.vertices, g.edges⟩

def toJson [JsonCodec K] (g : Graph K) : Json :=
  .obj (g.outline.fields ++ [("triangulated", .bool g.triangulated)])

end Graph
end CliqueTree
