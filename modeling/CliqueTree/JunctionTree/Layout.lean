import CliqueTree.Graph.Basic
import CliqueTree.Key.Clique
import CliqueTree.Table.Walk

/-!
# Layout of a junction tree

The cliques that a forest of selected edges joins are listed breadth-first. Each tree of the forest starts
at the clique whose edges share most members in total, trees come in descending order of that number, and
the earlier clique goes first where numbers are equal. An edge runs from the clique that is listed earlier
to the one that was met from it, and edges come in the order in which cliques are met.
-/

set_option autoImplicit false

namespace CliqueTree
variable {K : Type} [VertexKey K]

/-- How many members the cliques at the ends of an edge share. -/
def sharedAt (cliques : Array (Clique K)) (e : Edge) : Nat :=
  match cliques[e.1]?, cliques[e.2]? with
  | some c, some d => c.overlap d
  | _, _ => 0

/-- How many members clique `i` shares with its neighbours, in total. -/
def totalShared (cliques : Array (Clique K)) (selected : List Edge) (i : Nat) : Nat :=
  selected.foldl
    (fun total e =>
      total + (if e.1 = i then sharedAt cliques e else 0) + (if e.2 = i then sharedAt cliques e else 0))
    0

/-- The positions of the cliques by descending total; equal totals stay in their order. -/
def rootOrder (cliques : Array (Clique K)) (selected : List Edge) : List Nat :=
  let totals := (List.range cliques.size).map fun i => (totalShared cliques selected i, i)
  (totals.mergeSort fun a b => b.1 ≤ a.1).map (·.2)

/-- The neighbours of each of `n` vertices along the edges, in the order of the edges. -/
def adjacencyOf (n : Nat) (edges : List Edge) : Rows :=
  edges.foldl (fun r e => NeighbourLinks.link r e.1 e.2) (Rows.blank n)

/-- The walk through the forest of the selected edges. -/
def layoutVisits (cliques : Array (Clique K)) (selected : List Edge) : List Visit :=
  (adjacencyOf cliques.size selected).forest (rootOrder cliques selected)

/-- The graph of the cliques in the order of the walk, with an edge from each clique to those that were met
from it. -/
def layout (cliques : Array (Clique K)) (selected : List Edge) : Graph (Clique K) :=
  let visits := layoutVisits cliques selected
  let order := visits.map (·.vertex)
  let steps := visits.filterMap fun visit => visit.parent.map (·, visit.vertex)
  .ofEdgeIds (.ofKeys (order.filterMap (cliques[·]?)))
    (steps.map fun e => (order.idxOf e.1, order.idxOf e.2))

end CliqueTree
