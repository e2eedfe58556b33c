import CliqueTree.Proofs.JunctionTree.Tree
import CliqueTree.Proofs.Subtrees

/-!
# Separators do not depend on the policy

A tree that joins the maximal cliques of a graph is a forest in which the holders of each vertex are connected. So
how many of its separators include a set of vertices is told by the number of cliques that hold the set, and the
separators of two such trees are the same, each as often (`Joins.separators_perm`), although the trees may have
different edges. The product of the tables on the cliques over those on the separators is therefore one and the same,
whatever policy lists the cliques.
-/

set_option autoImplicit false

namespace CliqueTree
variable {K : Type} [VertexKey K] {g : Graph K} {t t' : JunctionTree K}

namespace JunctionTree.Joins

/-- What the ends of an edge share, as sets. -/
theorem toFinset_shared (h : t.Joins g) {e : Clique K × Clique K} (he : e ∈ t.edges) :
    (e.1.shared e.2).toFinset = e.1.members.toFinset ∩ e.2.members.toFinset := by
  obtain ⟨first, second⟩ := h.ends e he
  ext x
  simp [Clique.mem_shared (h.isCanonical first) (h.isCanonical second)]

/-- A separator lists a set in ascending order. -/
theorem separators_eq (h : t.Joins g) : t.separators =
    (t.edges.map fun e => e.1.members.toFinset ∩ e.2.members.toFinset).map fun s => ascending s.toList := by
  rw [JunctionTree.separators, List.map_map]
  refine List.map_congr_left fun e he => ?_
  have ascends : IsAscending (e.1.shared e.2) := IsAscending.common (h.isCanonical (h.ends e he).1) _
  rw [Function.comp_apply, ← h.toFinset_shared he]
  apply ascends.ext (isAscending_ascending _)
  simp [mem_ascending]

theorem nonempty_shared (h : t.Joins g) :
    ∀ s ∈ t.edges.map (fun e => e.1.members.toFinset ∩ e.2.members.toFinset), s.Nonempty := by
  intro s hs
  obtain ⟨e, he, rfl⟩ := List.mem_map.1 hs
  obtain ⟨x, first, second⟩ := h.shares e he
  exact ⟨x, by simp [first, second]⟩

theorem cliques_perm (h : t.Joins g) (h' : t'.Joins g) : t.cliques.Perm t'.cliques := by
  apply (List.perm_ext_iff_of_nodup h.lists.nodup h'.lists.nodup).2
  intro c
  rw [h.lists.mem_iff, h'.lists.mem_iff]

/-- Two trees on the cliques of one graph have the same separators, each as often. -/
theorem separators_perm (h : t.Joins g) (h' : t'.Joins g) : t.separators.Perm t'.separators := by
  rw [h.separators_eq, h'.separators_eq]
  apply List.Perm.map
  apply perm_of_countP_superset h.nonempty_shared h'.nonempty_shared
  intro s some
  rw [h.forest.countP_shared h.lists.nodup h.ends h.holders some,
    h'.forest.countP_shared h'.lists.nodup h'.ends h'.holders some, (h.cliques_perm h').countP_eq]

end JunctionTree.Joins

namespace Graph

/-- **Factorisation.** Whatever policy fills a graph in, and whatever two policies list the cliques of the filled
graph, the two trees have the same cliques and the same separators, each as often. -/
theorem junctionTree_factorisation (built : g.Built) {p : OrderPolicy} {s : Growth (Graph K)}
    (filled : g.triangulate p = .ok s) {q q' : OrderPolicy} (joined : s.graph.junctionTree q = .ok t)
    (joined' : s.graph.junctionTree q' = .ok t') :
    t.cliques.Perm t'.cliques ∧ t.separators.Perm t'.separators := by
  obtain ⟨_, _, order, _, triangular⟩ := triangulate_spec built.wellFormed.1 filled
  have tree := triangular.joins joined
  have tree' := triangular.joins joined'
  exact ⟨tree.cliques_perm tree', tree.separators_perm tree'⟩

/-- Two leaves at the end of a path: one policy joins the leaves to each other, the other joins both to the path. -/
theorem broom_factorisation : ∃ (g : Graph Char) (s : Growth (Graph Char)) (t t' : JunctionTree Char),
    Graph.ofEdges ['x', 'a', 'b', 'h', 'y'] [('x', 'y'), ('y', 'h'), ('h', 'a'), ('h', 'b')] = .ok g ∧
      g.triangulate .inOrder = .ok s ∧ s.graph.junctionTree .inOrder = .ok t ∧
        s.graph.junctionTree .standard = .ok t' ∧ (⟨['a', 'h']⟩, ⟨['b', 'h']⟩) ∈ t.edges ∧
          (⟨['h', 'y']⟩, ⟨['b', 'h']⟩) ∈ t'.edges ∧ t.separators = [['h'], ['h'], ['y']] ∧
            t'.separators = [['y'], ['h'], ['h']] ∧
              t.cliques.Perm t'.cliques ∧ t.separators.Perm t'.separators := by
  have ran : (do
      let g ← Graph.ofEdges ['x', 'a', 'b', 'h', 'y'] [('x', 'y'), ('y', 'h'), ('h', 'a'), ('h', 'b')]
      let s ← g.triangulate .inOrder
      let t ← s.graph.junctionTree .inOrder
      let t' ← s.graph.junctionTree .standard
      return ((t.edges, t.separators), t'.edges, t'.separators)) = .ok ((
        [(⟨['a', 'h']⟩, ⟨['b', 'h']⟩), (⟨['a', 'h']⟩, ⟨['h', 'y']⟩), (⟨['h', 'y']⟩, ⟨['x', 'y']⟩)],
          [['h'], ['h'], ['y']]),
        [(⟨['h', 'y']⟩, ⟨['x', 'y']⟩), (⟨['h', 'y']⟩, ⟨['a', 'h']⟩), (⟨['h', 'y']⟩, ⟨['b', 'h']⟩)],
          [['y'], ['h'], ['h']]) := by
    simp only [junctionTree, spanningForest_overlapWeights]
    generalize OrderPolicy.paramsHash .inOrder = digest
    generalize OrderPolicy.paramsHash .standard = digest'
    cbv
  obtain ⟨g, made, ran⟩ := bind_eq_ok.1 ran
  obtain ⟨s, filled, ran⟩ := bind_eq_ok.1 ran
  obtain ⟨t, joined, ran⟩ := bind_eq_ok.1 ran
  obtain ⟨t', joined', shown⟩ := bind_eq_ok.1 ran
  obtain ⟨first, second⟩ := Prod.mk.inj (Except.ok.inj shown)
  obtain ⟨edges, separators⟩ := Prod.mk.inj first
  obtain ⟨edges', separators'⟩ := Prod.mk.inj second
  refine ⟨g, s, t, t', made, filled, joined, joined', ?_, ?_, separators, separators',
    junctionTree_factorisation (.ofEdges made) filled joined joined'⟩
  · rw [edges]
    exact List.mem_cons_self
  · rw [edges']
    simp

end Graph
end CliqueTree
