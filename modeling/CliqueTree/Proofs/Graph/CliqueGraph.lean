import CliqueTree.Proofs.Graph.Cliques

/-!
# The clique graph

The edges of the clique graph are found as pairs of places in the list of the cliques, and are then read as pairs of
ids of an arena that is made of the same list. The two agree because no clique is listed twice: the arena keeps every
clique at its place (`key?_ofKeys`). Two places are joined exactly when their cliques share a member, the earlier place
comes first, and the edges stand in lexicographic order (`mem_overlapping_iff`, `pairwise_overlapping`). So the list of
the maximal cliques determines the clique graph (`cliqueGraph_joinsSharing`).
-/

set_option autoImplicit false

namespace CliqueTree

section Overlapping
variable {K : Type} [VertexKey K] {cs : List (Clique K)} {i j : Nat}

/-- Places ascend along a list. -/
theorem pairwise_zipIdx {α : Type} (l : List α) : l.zipIdx.Pairwise fun a b => a.2 < b.2 := by
  rw [← List.pairwise_map, List.zipIdx_map_snd]
  exact List.pairwise_lt_range'

/-- Two places are joined when their cliques share a member, the earlier one first. -/
theorem mem_overlapping_iff : (i, j) ∈ Graph.overlapping cs ↔
    i < j ∧ ∃ c d, cs[i]? = some c ∧ cs[j]? = some d ∧ 0 < c.overlap d := by
  have paired : ∀ {a b : Clique K × Nat}, (a, b) ∈ pairs cs.zipIdx ↔ (a ∈ cs.zipIdx ∧ b ∈ cs.zipIdx) ∧ a.2 < b.2 :=
    mem_pairs_iff_of_pairwise (fun _ _ => Nat.lt_asymm) (pairwise_zipIdx cs)
  simp only [Graph.overlapping, List.mem_map, List.mem_filter, decide_eq_true_eq, Prod.exists, Prod.mk.injEq, paired,
    List.mem_zipIdx_iff_getElem?]
  constructor
  · rintro ⟨c, i, d, j, ⟨⟨⟨hc, hd⟩, less⟩, shared⟩, rfl, rfl⟩
    exact ⟨less, c, d, hc, hd, shared⟩
  · rintro ⟨less, c, d, hc, hd, shared⟩
    exact ⟨c, i, d, j, ⟨⟨⟨hc, hd⟩, less⟩, shared⟩, rfl, rfl⟩

/-- The joined places come in lexicographic order. -/
theorem pairwise_overlapping (cs : List (Clique K)) : (Graph.overlapping cs).Pairwise (Prod.Lex (· < ·) (· < ·)) := by
  refine List.pairwise_map.2 (((pairwise_pairs (pairwise_zipIdx cs)).filter _).imp fun {p q} lex => ?_)
  cases lex with
  | left _ _ less => exact .left _ _ less
  | right _ less => exact .right _ less

/-- An edge of the clique graph joins two different places whose cliques share a member. -/
theorem of_mem_overlapping {e : Edge} (h : e ∈ Graph.overlapping cs) :
    e.1 ≠ e.2 ∧ ∃ c d, cs[e.1]? = some c ∧ cs[e.2]? = some d ∧ 0 < c.overlap d :=
  (mem_overlapping_iff.1 h).imp_left Nat.ne_of_lt

/-- Two cliques that share a member are joined, in the order of their places. -/
theorem mem_overlapping {c d : Clique K} (hi : cs[i]? = some c) (hj : cs[j]? = some d) (ne : i ≠ j)
    (forth : 0 < c.overlap d) (back : 0 < d.overlap c) :
    (i, j) ∈ Graph.overlapping cs ∨ (j, i) ∈ Graph.overlapping cs := by
  rcases Nat.lt_or_gt_of_ne ne with less | more
  · exact .inl (mem_overlapping_iff.2 ⟨less, c, d, hi, hj, forth⟩)
  · exact .inr (mem_overlapping_iff.2 ⟨more, d, c, hj, hi, back⟩)

/-- Different keys are interned at their places. -/
theorem key?_ofKeys (nodup : cs.Nodup) (i : Nat) : (Arena.ofKeys cs).key? i = cs[i]? := by
  rw [Arena.key?, Arena.keys_ofKeys nodup, List.getElem?_toArray]

end Overlapping

namespace Graph
variable {K : Type} [VertexKey K] {cs : List (Clique K)}

/-- The ends of the edges between cliques are places in the list. -/
theorem overlapping_inside (nodup : cs.Nodup) :
    ∀ e ∈ overlapping cs, e.1 < (Arena.ofKeys cs).size ∧ e.2 < (Arena.ofKeys cs).size := by
  intro e he
  obtain ⟨_, c, d, hc, hd, _⟩ := of_mem_overlapping he
  rw [← key?_ofKeys nodup] at hc hd
  exact ⟨Arena.lt_size hc, Arena.lt_size hd⟩

/-- The graph has the cliques of a list as its vertices, in their order, and for every two of them that share a member
one edge from the earlier to the later, in the order of the places. -/
structure JoinsSharing (h : Graph (Clique K)) (cs : List (Clique K)) : Prop where
  vertices : h.vertices = cs
  /-- The ids at the ends of the edges are places in the list. -/
  places : h.edges.map (Prod.map some some) = h.edgeIds.toList.map (Prod.map (cs[·]?) (cs[·]?))
  mem_iff : ∀ i j, (i, j) ∈ h.edgeIds.toList ↔
    i < j ∧ ∃ c d, cs[i]? = some c ∧ cs[j]? = some d ∧ ∃ k ∈ c.members, k ∈ d.members
  ordered : h.edgeIds.toList.Pairwise (Prod.Lex (· < ·) (· < ·))

/-- Different canonical cliques are kept apart and joined where they share a member. -/
theorem joinsSharing_ofEdgeIds (nodup : cs.Nodup) (canonical : ∀ c ∈ cs, c.IsCanonical) :
    (ofEdgeIds (.ofKeys cs) (overlapping cs)).JoinsSharing cs := by
  have ends : ((Arena.ofKeys cs).edgesOf (overlapping cs).toArray).map (Prod.map some some) = _ :=
    Arena.map_edgesOf (overlapping_inside nodup)
  rw [funext (key?_ofKeys nodup)] at ends
  rw [ofEdgeIds_eq]
  refine ⟨?_, ends, fun i j => ?_, pairwise_overlapping cs⟩
  · rw [vertices, Arena.keys_ofKeys nodup]
  · have shared : ∀ {c d : Clique K}, cs[j]? = some d → (0 < c.overlap d ↔ ∃ k ∈ c.members, k ∈ d.members) :=
      fun hd => Clique.overlap_pos_iff (canonical _ (List.mem_of_getElem? hd))
    rw [mem_overlapping_iff]
    refine and_congr_right fun _ => exists₂_congr fun c d => and_congr_right fun _ => and_congr_right fun hd => ?_
    exact shared hd

/-- **The clique graph.** Whatever policy fills a graph in, the clique graph of the filled graph is refused when its
maximal cliques are, for the same reason. Otherwise its vertices are the maximal cliques as they are listed, and its
edges lead from the earlier to the later of every two that share a member, each once and in the order of their
places. -/
theorem cliqueGraph_joinsSharing {g : Graph K} (built : g.Built) {p : OrderPolicy} {s : Growth (Graph K)}
    (filled : g.triangulate p = .ok s) (q : OrderPolicy) :
    (∀ e, s.graph.cliqueGraph q = .error e ↔ s.graph.maximalCliques q = .error e) ∧
      ∀ h, s.graph.cliqueGraph q = .ok h → ∃ cs, s.graph.maximalCliques q = .ok cs ∧ h.JoinsSharing cs := by
  obtain ⟨_, _, order, _, triangular⟩ := triangulate_spec built.wellFormed.1 filled
  refine ⟨fun e => ?_, fun h made => ?_⟩
  · rw [cliqueGraph, bind_eq_error]
    simp [pure, Except.pure]
  · obtain ⟨cs, extracted, made⟩ := bind_eq_ok.1 made
    obtain rfl := Except.ok.inj made
    have lists := triangular.lists_maximalCliques extracted
    exact ⟨cs, extracted, joinsSharing_ofEdgeIds lists.nodup fun c hc => ((lists.mem_iff c).1 hc).1⟩

/-- Three triangles around a fourth, which only the second pass lists, and an edge that shares a member with one of
them. -/
theorem fourTriangles_joinsSharing : ∃ (g : Graph Char) (s : Growth (Graph Char)) (h : Graph (Clique Char)),
    Graph.ofEdges ['x', 'd', 'e', 'f', 'a', 'b', 'c'] [('a', 'd'), ('b', 'd'), ('b', 'e'), ('c', 'e'), ('c', 'f'),
      ('a', 'f'), ('a', 'b'), ('b', 'c'), ('a', 'c'), ('d', 'x')] = .ok g ∧ g.triangulate .inOrder = .ok s ∧
        s.graph.cliqueGraph .standard = .ok h ∧ ∃ cs, s.graph.maximalCliques .standard = .ok cs ∧
          cs = [⟨['d', 'x']⟩, ⟨['a', 'b', 'd']⟩, ⟨['a', 'c', 'f']⟩, ⟨['b', 'c', 'e']⟩, ⟨['a', 'b', 'c']⟩] ∧
            h.edgeIds.toList = [(0, 1), (1, 2), (1, 3), (1, 4), (2, 3), (2, 4), (3, 4)] ∧ h.JoinsSharing cs := by
  have ran : (do
      let g ← Graph.ofEdges ['x', 'd', 'e', 'f', 'a', 'b', 'c'] [('a', 'd'), ('b', 'd'), ('b', 'e'), ('c', 'e'),
        ('c', 'f'), ('a', 'f'), ('a', 'b'), ('b', 'c'), ('a', 'c'), ('d', 'x')]
      let s ← g.triangulate .inOrder
      let h ← s.graph.cliqueGraph .standard
      return (h.vertices, h.edgeIds.toList)) = .ok
        ([⟨['d', 'x']⟩, ⟨['a', 'b', 'd']⟩, ⟨['a', 'c', 'f']⟩, ⟨['b', 'c', 'e']⟩, ⟨['a', 'b', 'c']⟩],
          [(0, 1), (1, 2), (1, 3), (1, 4), (2, 3), (2, 4), (3, 4)]) := by decide +kernel
  obtain ⟨g, made, ran⟩ := bind_eq_ok.1 ran
  obtain ⟨s, filled, ran⟩ := bind_eq_ok.1 ran
  obtain ⟨h, joined, ran⟩ := bind_eq_ok.1 ran
  obtain ⟨cliques, edges⟩ := Prod.mk.inj (Except.ok.inj ran)
  obtain ⟨cs, extracted, exact⟩ := (cliqueGraph_joinsSharing (.ofEdges made) filled .standard).2 h joined
  exact ⟨g, s, h, made, filled, joined, cs, extracted, exact.vertices.symm.trans cliques, edges, exact⟩

end Graph
end CliqueTree
