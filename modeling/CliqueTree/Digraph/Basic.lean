import CliqueTree.Graph.Basic

/-!
# Directed graphs

Edges from parent to child, by key, in the order of insertion, repeats and loops included, with the parents
of each vertex in the same order. Edges are only ever added, so the parents of a vertex are the sources of
the edges into it.
-/

set_option autoImplicit false

namespace CliqueTree

/-- A directed graph over keys. -/
structure Digraph (K : Type) where
  arena : Arena K
  edgeIds : Array Edge
  parentRows : Rows

namespace Digraph
variable {K : Type}

/-- Adds the edge from `u` to `v`. -/
def link (g : Digraph K) (u v : Nat) : Digraph K :=
  { g with
    edgeIds := g.edgeIds.push (u, v)
    parentRows := g.parentRows.add v u }

instance : ParentLinks (Digraph K) where
  parents := parentRows
  link := link
  parents_link _ _ _ := rfl

variable [VertexKey K]

/-- A graph without edges. -/
def blank (arena : Arena K) : Digraph K := ⟨arena, #[], .blank arena.size⟩

/-- The graph with the given vertices and edges. An end of an edge that is no vertex is an error. -/
def ofEdges (vertices : List K) (edges : List (K × K)) : Except GraphError (Digraph K) := do
  let arena := Arena.ofKeys vertices
  return (← arena.edgeIds edges).foldl (fun g e => g.link e.1 e.2) (blank arena)

def vertices (g : Digraph K) : List K := g.arena.keys.toList

def edges (g : Digraph K) : List (K × K) := g.arena.edgesOf g.edgeIds

def vertexCount (g : Digraph K) : Nat := g.arena.size

def edgeCount (g : Digraph K) : Nat := g.edgeIds.size

/-- Adds an edge. -/
def addEdge (g : Digraph K) (u v : K) : Except GraphError (Digraph K) := do
  let (u, v) ← g.arena.edgeId (u, v)
  return g.link u v

/-- Whether an edge joins `u` and `v`, in either direction. -/
def adjacent (g : Digraph K) (u v : K) : Except GraphError Bool := do
  let (u, v) ← g.arena.edgeId (u, v)
  return u ∈ g.parentRows.get v ∨ v ∈ g.parentRows.get u

/-- The parents of `v`, one for each edge into it. -/
def parents (g : Digraph K) (v : K) : Except GraphError (List K) := do
  return g.arena.keysOf (g.parentRows.get (← g.arena.id v))

/-- The ids of the children of `v`, one for each edge out of it. -/
def childIds (g : Digraph K) (v : Nat) : List Nat := (g.edgeIds.toList.filter (·.1 = v)).map (·.2)

/-- The children of `v`, one for each edge out of it. -/
def children (g : Digraph K) (v : K) : Except GraphError (List K) := do
  return g.arena.keysOf (g.childIds (← g.arena.id v))

/-- The same vertices and edges, without their directions. -/
def toGraph (g : Digraph K) : Graph K := .ofEdgeIds g.arena g.edgeIds.toList

def outline (g : Digraph K) : Outline K := ⟨g.vertices, g.edges⟩

def toJson [JsonCodec K] (g : Digraph K) : Json := .obj g.outline.fields

end Digraph
end CliqueTree
