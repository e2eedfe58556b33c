import CliqueTree.Proofs.Graph.Components
import CliqueTree.Proofs.JunctionTree.Tree

/-!
# The trees of a junction tree

Two cliques are joined in the tree when a way in the graph leads from a member of one to a member of the other, and
only then (`Joins.joined_iff`): an edge of the graph lies in a clique, the holders of a vertex are joined, and an edge
of the tree joins cliques that share a member. So each tree of the forest holds the vertices of one component, and as
a forest it has as many edges as it has cliques, less the number of components (`Joins.edgeCount_add_components`).
-/

set_option autoImplicit false

namespace CliqueTree
open Relation (ReflTransGen)
variable {K : Type} [VertexKey K] {g : Graph K} {t : JunctionTree K}

namespace JunctionTree.Joins
variable {c d : Clique K} {u v : K}

theorem connected_of_mem (h : t.Joins g) (hc : c ∈ t.cliques) (hu : u ∈ c.members) (hv : v ∈ c.members) :
    g.Connected u v := by
  by_cases same : u = v
  · rw [same]
    exact .refl
  · exact .single ((h.isMaximalClique hc).complete u hu v hv same)

theorem connected_of_joined (h : t.Joins g) (hc : c ∈ t.cliques) (way : Joined t.edges c d) (hu : u ∈ c.members)
    (hv : v ∈ d.members) : g.Connected u v := by
  induction way generalizing v with
  | refl => exact h.connected_of_mem hc hu hv
  | tail _ step ih =>
    obtain ⟨⟨_, hd⟩, x, xb, xd⟩ := h.of_touching step
    exact ReflTransGen.trans (ih xb) (h.connected_of_mem hd xd hv)

/-- Different trees have different members. -/
theorem injOn_membersOf (h : t.Joins g) : Set.InjOn Clique.membersOf (parts (Joined t.edges) t.cliques) := by
  rintro _ ⟨c, hc, rfl⟩ _ ⟨d, hd, rfl⟩ same
  obtain ⟨u, uc⟩ := List.exists_mem_of_ne_nil _ (h.isMaximalClique hc).nonempty
  have member : u ∈ Clique.membersOf {b | Joined t.edges c b} := ⟨c, .refl _ c, uc⟩
  rw [same] at member
  obtain ⟨b, toB, ub⟩ := member
  have hb : b ∈ t.cliques := toB.closed h.ends hd
  have joined : Joined t.edges d c := toB.trans (h.joined_of_share hb hc ub uc)
  ext b
  exact ⟨joined.trans, joined.symm.trans⟩

variable [Std.Symm g.Adjacent]

/-- A way in the graph from a member of a clique leads to a member of a clique that is joined to it. -/
theorem exists_joined (h : t.Joins g) (hc : c ∈ t.cliques) (hu : u ∈ c.members) (way : g.Connected u v) :
    ∃ d ∈ t.cliques, Joined t.edges c d ∧ v ∈ d.members := by
  induction way with
  | refl => exact ⟨c, hc, .refl _ c, hu⟩
  | tail _ step ih =>
    obtain ⟨b, hb, joined, wb⟩ := ih
    obtain ⟨d, hd, wd, vd⟩ := h.exists_clique_of_adjacent step
    exact ⟨d, hd, joined.trans (h.joined_of_share hb hd wb wd), vd⟩

theorem joined_iff (h : t.Joins g) (hc : c ∈ t.cliques) (hd : d ∈ t.cliques) (hu : u ∈ c.members)
    (hv : v ∈ d.members) : Joined t.edges c d ↔ g.Connected u v := by
  constructor
  · exact fun way => h.connected_of_joined hc way hu hv
  · intro way
    obtain ⟨b, hb, joined, vb⟩ := h.exists_joined hc hu way
    exact joined.trans (h.joined_of_share hb hd vb hv)

/-- The members of the cliques that are joined to a clique are the vertices connected to a member of it. -/
theorem membersOf_joined (h : t.Joins g) (hc : c ∈ t.cliques) (hu : u ∈ c.members) :
    Clique.membersOf {d | Joined t.edges c d} = {v | g.Connected u v} := by
  ext v
  constructor
  · rintro ⟨d, way, hv⟩
    exact h.connected_of_joined hc way hu hv
  · intro way
    obtain ⟨d, _, joined, hv⟩ := h.exists_joined hc hu way
    exact ⟨d, joined, hv⟩

/-- The components are the sets of the members of a tree each. -/
theorem components_eq_image (h : t.Joins g) :
    g.components = Clique.membersOf '' parts (Joined t.edges) t.cliques := by
  ext part
  constructor
  · rintro ⟨u, hu, rfl⟩
    obtain ⟨c, hc, uc⟩ := h.mem_vertices_iff.1 hu
    exact ⟨_, ⟨c, hc, rfl⟩, h.membersOf_joined hc uc⟩
  · rintro ⟨_, ⟨c, hc, rfl⟩, rfl⟩
    obtain ⟨u, uc⟩ := List.exists_mem_of_ne_nil _ (h.isMaximalClique hc).nonempty
    exact ⟨u, h.mem_vertices_iff.2 ⟨c, hc, uc⟩, h.membersOf_joined hc uc⟩

/-- The edges and the components are together as many as the cliques. -/
theorem edgeCount_add_components (h : t.Joins g) : t.edgeCount + g.components.ncard = t.size := by
  have count := h.forest.ncard_parts h.lists.nodup h.ends
  rw [h.components_eq_image, h.injOn_membersOf.ncard_image, ← h.counted, count]
  exact Array.length_toList

end JunctionTree.Joins

namespace Graph

/-- **The forest.** Whatever policies fill a graph in and join its cliques, the tree lists each maximal clique once,
its edges form a forest, they are fewer than the cliques by the number of components, which filling in does not change,
and two cliques are joined if and only if their members are connected in the graph. -/
theorem junctionTree_forest (built : g.Built) {p : OrderPolicy} {s : Growth (Graph K)}
    (filled : g.triangulate p = .ok s) {q : OrderPolicy} (joined : s.graph.junctionTree q = .ok t) :
    (t.cliques.Nodup ∧ ∀ c, c ∈ t.cliques ↔
      c.IsCanonical ∧ IsMaximalClique s.graph.Adjacent s.graph.vertices c.members) ∧
      (∀ e ∈ t.edges, e.1 ∈ t.cliques ∧ e.2 ∈ t.cliques) ∧ IsForest t.edges ∧
        s.graph.components = g.components ∧ t.edgeCount + g.components.ncard = t.size ∧
          ∀ c ∈ t.cliques, ∀ d ∈ t.cliques, ∀ u ∈ c.members, ∀ v ∈ d.members,
            (Joined t.edges c d ↔ g.Connected u v) := by
  have wf := built.wellFormed.1
  obtain ⟨_, _, order, _, triangular⟩ := triangulate_spec wf filled
  have tree := triangular.joins joined
  have := triangular.adjacent_symm
  have same := components_triangulate wf filled
  refine ⟨⟨tree.lists.nodup, tree.lists.mem_iff⟩, tree.ends, tree.forest, same, ?_, fun c hc d hd u hu v hv => ?_⟩
  · rw [← same]
    exact tree.edgeCount_add_components
  · rw [← connected_triangulate wf filled]
    exact tree.joined_iff hc hd hu hv

/-- A square, an edge that is named twice and a vertex alone make three components and a tree of one edge. -/
theorem three_components_forest : ∃ (g : Graph Char) (s : Growth (Graph Char)) (t : JunctionTree Char),
    Graph.ofEdges ['g', 'a', 'b', 'c', 'd', 'e', 'f'] [('a', 'b'), ('b', 'c'), ('c', 'd'), ('d', 'a'), ('e', 'f'),
      ('f', 'e')] = .ok g ∧ g.triangulate .inOrder = .ok s ∧ s.graph.junctionTree .standard = .ok t ∧
        t.cliques = [⟨['a', 'b', 'd']⟩, ⟨['b', 'c', 'd']⟩, ⟨['g']⟩, ⟨['e', 'f']⟩] ∧
          t.edges = [(⟨['a', 'b', 'd']⟩, ⟨['b', 'c', 'd']⟩)] ∧ g.components.ncard = 3 ∧
            g.Connected 'a' 'c' ∧ ¬ g.Connected 'a' 'g' := by
  have ran : (do
      let g ← Graph.ofEdges ['g', 'a', 'b', 'c', 'd', 'e', 'f'] [('a', 'b'), ('b', 'c'), ('c', 'd'), ('d', 'a'),
        ('e', 'f'), ('f', 'e')]
      let s ← g.triangulate .inOrder
      let t ← s.graph.junctionTree .standard
      return (t.cliques, t.edges, t.edgeCount, t.size)) =
        .ok ([⟨['a', 'b', 'd']⟩, ⟨['b', 'c', 'd']⟩, ⟨['g']⟩, ⟨['e', 'f']⟩],
          [(⟨['a', 'b', 'd']⟩, ⟨['b', 'c', 'd']⟩)], 1, 4) := by
    simp only [junctionTree, spanningForest_overlapWeights]
    generalize OrderPolicy.paramsHash _ = digest
    cbv
  obtain ⟨g, made, ran⟩ := bind_eq_ok.1 ran
  obtain ⟨s, filled, ran⟩ := bind_eq_ok.1 ran
  obtain ⟨t, joined, shown⟩ := bind_eq_ok.1 ran
  obtain ⟨cliques, shown⟩ := Prod.mk.inj (Except.ok.inj shown)
  obtain ⟨edges, shown⟩ := Prod.mk.inj shown
  obtain ⟨edgeCount, size⟩ := Prod.mk.inj shown
  obtain ⟨_, _, _, _, count, connected⟩ := junctionTree_forest (.ofEdges made) filled joined
  rw [edgeCount, size] at count
  rw [cliques, edges] at connected
  refine ⟨g, s, t, made, filled, joined, cliques, edges, by omega, ?_, ?_⟩
  · refine (connected ⟨['a', 'b', 'd']⟩ ?_ ⟨['b', 'c', 'd']⟩ ?_ 'a' ?_ 'c' ?_).1 (.of_mem List.mem_cons_self) <;> decide
  · intro way
    have joined := (connected ⟨['a', 'b', 'd']⟩ (by decide) ⟨['g']⟩ (by decide) 'a' (by decide) 'g' (by decide)).2 way
    have stays := joined.closed (P := ('b' ∈ ·.members)) (by decide) (by decide)
    revert stays
    decide

end Graph
end CliqueTree
