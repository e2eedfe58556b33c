import CliqueTree.Proofs.Graph.Triangulation
import CliqueTree.Proofs.Parts

/-!
# Components

Two vertices are connected when a way along the edges leads from one to the other, and the components of a graph are
its parts under that. Filling in changes none of them: an edge that it adds joins two neighbours of one vertex, and
these were connected before (`components_triangulate`).
-/

set_option autoImplicit false

namespace CliqueTree
open Relation (ReflTransGen)

namespace Graph
variable {K : Type} [VertexKey K] {g : Graph K}

/-- A way along the edges leads from one vertex to the other. -/
def Connected (g : Graph K) : K → K → Prop := ReflTransGen g.Adjacent

/-- The sets of the vertices that are connected with each other. -/
def components (g : Graph K) : Set (Set K) := parts g.Connected g.vertices

/-- A way between ids is one between their keys. -/
theorem connected_of_linked (wf : g.WellFormed) {i j : Nat} (way : ReflTransGen g.neighbourRows.Linked i j) {u v : K}
    (hi : g.arena.key? i = some u) (hj : g.arena.key? j = some v) : g.Connected u v := by
  induction way generalizing v with
  | refl =>
    obtain rfl := Option.some.inj (hi.symm.trans hj)
    exact .refl
  | tail _ step ih =>
    obtain ⟨w, hw⟩ := Arena.exists_key? (wf.size ▸ step.lt_size)
    exact (ih hw).tail ((adjacent_iff hw hj).2 step)

variable {p : OrderPolicy} {s : Growth (Graph K)}

/-- Filling in connects just what was connected. -/
theorem connected_triangulate (wf : g.WellFormed) (filled : g.triangulate p = .ok s) :
    s.graph.Connected = g.Connected := by
  funext u v
  refine propext ⟨ReflTransGen.lift' id (fun a b step => ?_) u v, ReflTransGen.mono (fun a b step => ?_) u v⟩
  · obtain ⟨arena, _⟩ := triangulate_spec wf filled
    obtain ⟨_, _, _, filledIn⟩ := triangulate_filledIn wf filled
    obtain ⟨i, j, hi, hj, linked⟩ := step.exists_linked
    rw [arena] at hi hj
    exact connected_of_linked wf ((filledIn.only i j linked).connected wf.symm) hi hj
  · exact adjacent_of_triangulate wf filled step

theorem components_triangulate (wf : g.WellFormed) (filled : g.triangulate p = .ok s) :
    s.graph.components = g.components := by
  obtain ⟨arena, _⟩ := triangulate_spec wf filled
  rw [components, components, connected_triangulate wf filled, vertices, vertices, arena]

end Graph
end CliqueTree
