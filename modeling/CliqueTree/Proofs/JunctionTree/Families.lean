import CliqueTree.JunctionTree.Build
import CliqueTree.Proofs.Digraph.Moral
import CliqueTree.Proofs.JunctionTree.Tree

/-!
# Families

A vertex and its parents are complete in the moral graph, whatever marriages came before its turn and whether its
edges close a cycle or not (`JoinsFamilies.complete_family`). Filling in takes no edge away, and a complete set lies
in one of the cliques. So each family has a clique that holds it whole, and the cliques hold the vertices of the
directed graph and nothing else (`junctionTree_holds_families`).
-/

set_option autoImplicit false

namespace CliqueTree
namespace Digraph
variable {K : Type} [VertexKey K] {g : Digraph K}

theorem exists_parents (wf : g.WellFormed) {v : K} (hv : v ∈ g.vertices) :
    ∃ parents, g.parents v = .ok parents ∧ ∀ u ∈ parents, g.Arc u v := by
  obtain ⟨j, hj⟩ := Arena.mem_keys_iff.1 hv
  refine ⟨g.arena.keysOf (g.parentRows.get j), ?_, fun u hu => ?_⟩
  · rw [parents, Arena.id_eq_ok_iff.2 hj]
    rfl
  · obtain ⟨i, listed, hi⟩ := Arena.mem_keysOf.1 hu
    exact (arc_iff wf hi hj).2 listed

/-- A vertex and its parents are joined to each other. -/
theorem JoinsFamilies.complete_family {m : Graph K} (h : g.JoinsFamilies m) (wf : g.WellFormed) {v : K}
    {parents : List K} (into : ∀ u ∈ parents, g.Arc u v) : Complete m.Adjacent (v :: parents) := by
  intro a ha b hb ne
  apply h.adjacent_of_moral wf ne
  rcases List.mem_cons.1 ha with rfl | parentA <;> rcases List.mem_cons.1 hb with rfl | parentB
  · exact absurd rfl ne
  · exact .inr (.inl (into b parentB))
  · exact .inl (into a parentA)
  · exact .inr (.inr ⟨v, into a parentA, into b parentB⟩)

/-- **Families.** Whatever directed graph a junction tree was made from and under whatever policy, some clique holds
a vertex together with all its parents, and the cliques hold the vertices of the graph and nothing else. -/
theorem junctionTree_holds_families (built : g.Built) {p : OrderPolicy} {t : JunctionTree K}
    (made : g.junctionTree p = .ok t) :
    (∀ v ∈ g.vertices, ∃ parents, g.parents v = .ok parents ∧
      ∃ c ∈ t.cliques, v ∈ c.members ∧ ∀ u ∈ parents, u ∈ c.members) ∧
        ∀ k, k ∈ g.vertices ↔ ∃ c ∈ t.cliques, k ∈ c.members := by
  have wf := built.wellFormed
  obtain ⟨m, moral, made⟩ := bind_eq_ok.1 made
  obtain ⟨s, filled, joined⟩ := bind_eq_ok.1 made
  obtain ⟨_, again, families⟩ := exists_moralGraph wf
  obtain rfl := Except.ok.inj (moral.symm.trans again)
  obtain ⟨arena, _, order, _, triangular⟩ := Graph.triangulate_spec (wf.moralGraph moral) filled
  have tree := triangular.joins joined
  have := triangular.adjacent_symm
  have vertices : s.graph.vertices = g.vertices := congrArg (·.keys.toList) (arena.trans families.arena)
  refine ⟨fun v hv => ?_, fun k => ?_⟩
  · obtain ⟨parents, listed, into⟩ := exists_parents wf hv
    have complete : Complete s.graph.Adjacent (v :: parents) := fun a ha b hb ne =>
      Graph.adjacent_of_triangulate (wf.moralGraph moral) filled (families.complete_family wf into a ha b hb ne)
    have inside : ∀ k ∈ v :: parents, k ∈ s.graph.vertices := by
      rw [vertices]
      exact List.forall_mem_cons.2 ⟨hv, fun u hu => (into u hu).mem_vertices⟩
    obtain ⟨c, hc, within⟩ := tree.exists_clique (List.cons_ne_nil v parents) inside complete
    exact ⟨parents, listed, c, hc, List.forall_mem_cons.1 within⟩
  · rw [← vertices]
    exact tree.mem_vertices_iff

/-- A graph with a cycle, a loop and a repeated edge: its two cliques hold the five families. -/
theorem cyclic_holds_families : ∃ (g : Digraph Char) (t : JunctionTree Char),
    Digraph.ofEdges ['d', 'a', 'b', 'c', 'e'] [('a', 'c'), ('b', 'c'), ('b', 'c'), ('c', 'd'), ('d', 'a'), ('e', 'd'),
      ('d', 'd')] = .ok g ∧ g.parents 'c' = .ok ['a', 'b', 'b'] ∧ g.junctionTree .standard = .ok t ∧
        t.cliques = [⟨['a', 'c', 'd', 'e']⟩, ⟨['a', 'b', 'c', 'e']⟩] ∧
          (∀ v ∈ g.vertices, ∃ parents, g.parents v = .ok parents ∧
            ∃ c ∈ t.cliques, v ∈ c.members ∧ ∀ u ∈ parents, u ∈ c.members) ∧
              ∀ k, k ∈ g.vertices ↔ ∃ c ∈ t.cliques, k ∈ c.members := by
  have ran : (do
      let g ← Digraph.ofEdges ['d', 'a', 'b', 'c', 'e'] [('a', 'c'), ('b', 'c'), ('b', 'c'), ('c', 'd'), ('d', 'a'),
        ('e', 'd'), ('d', 'd')]
      let parents ← g.parents 'c'
      let t ← g.junctionTree .standard
      return (parents, t.cliques)) = .ok (['a', 'b', 'b'], [⟨['a', 'c', 'd', 'e']⟩, ⟨['a', 'b', 'c', 'e']⟩]) := by
    simp only [junctionTree, Graph.junctionTree, spanningForest_overlapWeights]
    generalize OrderPolicy.paramsHash _ = digest
    cbv
  obtain ⟨g, built, ran⟩ := bind_eq_ok.1 ran
  obtain ⟨parents, listed, ran⟩ := bind_eq_ok.1 ran
  obtain ⟨t, made, shown⟩ := bind_eq_ok.1 ran
  obtain ⟨rfl, cliques⟩ := Prod.mk.inj (Except.ok.inj shown)
  exact ⟨g, t, built, listed, made, cliques, junctionTree_holds_families (.ofEdges built) made⟩

end Digraph
end CliqueTree
