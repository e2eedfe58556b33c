import CliqueTree.JunctionTree.Layout
import CliqueTree.Proofs.Graph.WellFormed
import CliqueTree.Proofs.Table.WalkTree

/-!
# What the layout keeps

The layout lists every clique once, and its edges are the steps of the walk under the new numbers
(`mem_edges_layout`). The steps are selected edges, and they join whatever the selected edges join. When these
form a forest nothing else can stand in for one of them, so each selected edge is an edge of the layout, in one
of its two directions (`touching_layout`).
-/

set_option autoImplicit false

namespace CliqueTree

section Walk
variable {K : Type} [VertexKey K] {cliques : Array (Clique K)} {selected : List Edge}

theorem rootOrder_perm (cliques : Array (Clique K)) (selected : List Edge) :
    (rootOrder cliques selected).Perm (List.range cliques.size) := by
  unfold rootOrder
  refine ((List.mergeSort_perm _ _).map _).trans (.of_eq ?_)
  rw [List.map_map]
  exact List.map_id _

/-- The walk meets every clique once, and its steps join the ends of every selected edge. -/
theorem layoutVisits_spec (cliques : Array (Clique K))
    (inside : ∀ e ∈ selected, e.1 < cliques.size ∧ e.2 < cliques.size) :
    ((layoutVisits cliques selected).map (·.vertex)).Perm (List.range cliques.size) ∧
      (∀ e ∈ stepsOf (layoutVisits cliques selected), Touching selected e.1 e.2) ∧
        ∀ e ∈ selected, Joined (stepsOf (layoutVisits cliques selected)) e.1 e.2 := by
  obtain ⟨size, symm, linked⟩ := Rows.linked_foldl_link_blank inside
  have symm : (adjacencyOf cliques.size selected).Symmetric := symm
  have roots : (rootOrder cliques selected).Perm (List.range (adjacencyOf cliques.size selected).size) := by
    rw [adjacencyOf, size]
    exact rootOrder_perm cliques selected
  obtain ⟨planted, perm⟩ := Rows.forest_spec symm roots
  rw [adjacencyOf, size] at perm
  refine ⟨perm, fun e he => (linked e.1 e.2).1 (planted.steps e he).2, fun e he => ?_⟩
  have member : e.1 ∈ (layoutVisits cliques selected).map (·.vertex) :=
    perm.mem_iff.2 (List.mem_range.2 (inside e he).1)
  exact planted.joined e.1 member e.2 ((linked e.1 e.2).2 (.inl he))

/-- The steps are a forest, whatever is selected. -/
theorem isForest_steps (cliques : Array (Clique K))
    (inside : ∀ e ∈ selected, e.1 < cliques.size ∧ e.2 < cliques.size) :
    IsForest (stepsOf (layoutVisits cliques selected)) :=
  (Rows.parentsEarlier_forest _ _).isForest_stepsOf
    ((layoutVisits_spec cliques inside).1.nodup_iff.2 List.nodup_range)

/-- The steps touch what the edges of a selected forest touch. -/
theorem touching_steps_iff (cliques : Array (Clique K))
    (inside : ∀ e ∈ selected, e.1 < cliques.size ∧ e.2 < cliques.size) (forest : IsForest selected) {u v : Nat} :
    Touching (stepsOf (layoutVisits cliques selected)) u v ↔ Touching selected u v := by
  obtain ⟨_, steps, joined⟩ := layoutVisits_spec cliques inside
  have part : ∀ u v, Touching (stepsOf (layoutVisits cliques selected)) u v → Touching selected u v := by
    intro u v step
    rcases step with forth | back
    · exact steps _ forth
    · exact (steps _ back).symm
  refine ⟨part u v, fun edge => ?_⟩
  rcases edge with forth | back
  · exact forest.touching_of_joined part forth (joined _ forth)
  · exact (forest.touching_of_joined part back (joined _ back)).symm

end Walk

section Keys
variable {K : Type} [VertexKey K] {a : Arena (Clique K)} {selected : List Edge}

/-- The ids of the cliques in the order of the walk. -/
def layoutOrder (a : Arena (Clique K)) (selected : List Edge) : List Nat :=
  (layoutVisits a.keys selected).map (·.vertex)

theorem layoutOrder_perm (inside : ∀ e ∈ selected, e.1 < a.size ∧ e.2 < a.size) :
    (layoutOrder a selected).Perm a.ids := (layoutVisits_spec a.keys inside).1

theorem nodup_layoutOrder (inside : ∀ e ∈ selected, e.1 < a.size ∧ e.2 < a.size) : (layoutOrder a selected).Nodup :=
  (layoutOrder_perm inside).nodup_iff.2 List.nodup_range

/-- The arena of the layout holds the cliques in the order of the walk. -/
theorem keys_layout (inside : ∀ e ∈ selected, e.1 < a.size ∧ e.2 < a.size) :
    (layout a.keys selected).arena.keys = (a.keysOf (layoutOrder a selected)).toArray := by
  rw [layout, Graph.ofEdgeIds_eq]
  exact Arena.keys_ofKeys (Arena.nodup_keysOf (nodup_layoutOrder inside))

/-- The layout lists every clique once. -/
theorem vertices_layout_perm (inside : ∀ e ∈ selected, e.1 < a.size ∧ e.2 < a.size) :
    (layout a.keys selected).vertices.Perm a.keys.toList := by
  rw [Graph.vertices, keys_layout inside, ← a.keysOf_ids]
  exact (layoutOrder_perm inside).filterMap a.key?

/-- The number of a clique is its place in the order of the walk. -/
theorem key?_layout (inside : ∀ e ∈ selected, e.1 < a.size ∧ e.2 < a.size) {i : Nat} (hi : i < a.size) :
    (layout a.keys selected).arena.key? ((layoutOrder a selected).idxOf i) = a.key? i := by
  have perm := layoutOrder_perm inside
  have all : ∀ i ∈ layoutOrder a selected, ∃ c, a.key? i = some c := fun i hi =>
    Arena.exists_key? (List.mem_range.1 (perm.mem_iff.1 hi))
  rw [Arena.key?, keys_layout inside, List.getElem?_toArray, Arena.keysOf, getElem?_filterMap all,
    List.getElem?_idxOf (perm.mem_iff.2 (List.mem_range.2 hi))]
  rfl

theorem steps_inside (inside : ∀ e ∈ selected, e.1 < a.size ∧ e.2 < a.size) :
    ∀ e ∈ stepsOf (layoutVisits a.keys selected), e.1 < a.size ∧ e.2 < a.size := by
  intro e he
  rcases (layoutVisits_spec a.keys inside).2.1 e he with forth | back
  · exact inside _ forth
  · exact (inside _ back).symm

theorem edgeIds_layout (a : Arena (Clique K)) (selected : List Edge) : (layout a.keys selected).edgeIds.toList =
    (stepsOf (layoutVisits a.keys selected)).map
      (Prod.map (layoutOrder a selected).idxOf (layoutOrder a selected).idxOf) := by
  rw [layout, Graph.ofEdgeIds_eq]
  rfl

theorem edgeIds_layout_inside (inside : ∀ e ∈ selected, e.1 < a.size ∧ e.2 < a.size) :
    ∀ e ∈ (layout a.keys selected).edgeIds.toList,
      e.1 < (layout a.keys selected).arena.size ∧ e.2 < (layout a.keys selected).arena.size := by
  have placed : ∀ i < a.size, (layoutOrder a selected).idxOf i < (layout a.keys selected).arena.size := by
    intro i hi
    obtain ⟨c, hc⟩ := Arena.exists_key? hi
    exact Arena.lt_size ((key?_layout inside hi).trans hc)
  rw [edgeIds_layout]
  intro f hf
  obtain ⟨e, he, rfl⟩ := List.mem_map.1 hf
  exact ⟨placed e.1 (steps_inside inside e he).1, placed e.2 (steps_inside inside e he).2⟩

/-- The edges of the layout are the steps of the walk, in their order. -/
theorem map_edges_layout (inside : ∀ e ∈ selected, e.1 < a.size ∧ e.2 < a.size) :
    (layout a.keys selected).edges.map (Prod.map some some) =
      (stepsOf (layoutVisits a.keys selected)).map (Prod.map a.key? a.key?) := by
  rw [Graph.edges, Arena.map_edgesOf (edgeIds_layout_inside inside), edgeIds_layout, List.map_map]
  refine List.map_congr_left fun e he => ?_
  obtain ⟨first, second⟩ := steps_inside inside e he
  rw [Function.comp_apply, Prod.map_map, Prod.map, Prod.map, Function.comp_apply, Function.comp_apply,
    key?_layout inside first, key?_layout inside second]

/-- No edge of the layout lacks an end. -/
theorem length_edges_layout (inside : ∀ e ∈ selected, e.1 < a.size ∧ e.2 < a.size) :
    (layout a.keys selected).edges.length = (layout a.keys selected).edgeCount :=
  Arena.length_edgesOf (edgeIds_layout_inside inside)

theorem mem_edges_layout (inside : ∀ e ∈ selected, e.1 < a.size ∧ e.2 < a.size) {c d : Clique K} :
    (c, d) ∈ (layout a.keys selected).edges ↔
      ∃ e ∈ stepsOf (layoutVisits a.keys selected), a.key? e.1 = some c ∧ a.key? e.2 = some d := by
  have through : (c, d) ∈ (layout a.keys selected).edges ↔
      (some c, some d) ∈ (layout a.keys selected).edges.map (Prod.map some some) := by simp
  rw [through, map_edges_layout inside]
  simp [Prod.map]

/-- The layout of any selected edges is a forest. -/
theorem isForest_layout (inside : ∀ e ∈ selected, e.1 < a.size ∧ e.2 < a.size) :
    IsForest (layout a.keys selected).edges := by
  apply IsForest.of_map (f := some)
  rw [map_edges_layout inside]
  refine (isForest_steps a.keys inside).map (P := (· < a.size)) (fun i j hi hj same => ?_) (steps_inside inside)
  obtain ⟨c, hc⟩ := Arena.exists_key? hi
  exact Arena.key?_inj hc (same ▸ hc)

/-- Every edge of a selected forest is an edge of the layout, in one of its two directions. -/
theorem touching_layout (inside : ∀ e ∈ selected, e.1 < a.size ∧ e.2 < a.size) (forest : IsForest selected)
    {e : Edge} (he : e ∈ selected) {c d : Clique K} (hc : a.key? e.1 = some c) (hd : a.key? e.2 = some d) :
    Touching (layout a.keys selected).edges c d := by
  rcases (touching_steps_iff a.keys inside forest).2 (.inl he) with forth | back
  · exact .inl ((mem_edges_layout inside).2 ⟨_, forth, hc, hd⟩)
  · exact .inr ((mem_edges_layout inside).2 ⟨_, back, hd, hc⟩)

end Keys
end CliqueTree
