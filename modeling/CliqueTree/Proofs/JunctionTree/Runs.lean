import CliqueTree.JunctionTree.Build
import CliqueTree.Proofs.Digraph.States
import CliqueTree.Proofs.Graph.DryRun
import CliqueTree.Proofs.Graph.FixedPoint
import CliqueTree.Proofs.JunctionTree.Spanning

/-!
# What a junction tree is made of

The way from a directed graph to its junction tree goes over ids until the cliques are listed: their number, the
edges and the policy decide which cliques come in which place (`Digraph.junctionTree_eq`). Keys come in only when the
listed ids become cliques, and the tree is then made from the list alone (`treeOf`).
-/

set_option autoImplicit false

namespace CliqueTree
variable {K : Type}

/-! ### From a list of cliques to a tree -/

section Tree
variable [VertexKey K]

/-- The edges between cliques that are selected for the tree. -/
def selectedOf (cs : List (Clique K)) : List Edge :=
  selectJoining (.singletons cs.length) ((byWeight (overlapEdges cs)).map (·.2))

/-- The tree of a list of cliques. -/
def treeOf (cs : List (Clique K)) (p : OrderPolicy) : JunctionTree K :=
  ⟨layout cs.toArray (selectedOf cs), p.paramsHash⟩

variable {cs : List (Clique K)}

theorem size_ofKeys (nodup : cs.Nodup) : (Arena.ofKeys cs).size = cs.length := by
  rw [Arena.size, Arena.keys_ofKeys nodup]
  rfl

/-- The ends of the edges are places in the list, so the selection does not fail. -/
theorem spanningForest_overlapEdges (nodup : cs.Nodup) :
    spanningForest (Arena.ofKeys cs).size (overlapEdges cs) = .ok (selectedOf cs) := by
  rw [spanningForest_of_inside, selectedOf, size_ofKeys nodup]
  intro ⟨w, e⟩ he
  obtain ⟨_, c, d, hc, hd, _⟩ := of_mem_overlapEdges nodup he
  exact ⟨Arena.lt_size hc, Arena.lt_size hd⟩

theorem spanningForest_eq_treeOf (nodup : cs.Nodup) (p : OrderPolicy) : (do
    let selected ← spanningForest (Arena.ofKeys cs).size (overlapEdges cs)
    return (⟨layout (Arena.ofKeys cs).keys selected, p.paramsHash⟩ : JunctionTree K)) = .ok (treeOf cs p) := by
  rw [spanningForest_overlapEdges nodup, Arena.keys_ofKeys nodup]
  rfl

theorem spanned_selectedOf (canonical : ∀ c ∈ cs, c.IsCanonical) (nodup : cs.Nodup) : Spanned cs (selectedOf cs) :=
  ⟨canonical, nodup, spanningForest_overlapEdges nodup⟩

/-- The walk by which the tree of a list of cliques is laid out. -/
def visitsOf (cs : List (Clique K)) : List Visit := layoutVisits cs.toArray (selectedOf cs)

theorem key?_ofKeys_eq (nodup : cs.Nodup) : (Arena.ofKeys cs).key? = (cs[·]?) := funext (key?_ofKeys nodup)

/-- The cliques stand in the order of the walk. -/
theorem cliques_treeOf (canonical : ∀ c ∈ cs, c.IsCanonical) (nodup : cs.Nodup) (p : OrderPolicy) :
    (treeOf cs p).cliques = ((visitsOf cs).map (·.vertex)).filterMap (cs[·]?) := by
  have keys := keys_layout (spanned_selectedOf canonical nodup).inside
  rw [Arena.keysOf, layoutOrder, key?_ofKeys_eq nodup, Arena.keys_ofKeys nodup] at keys
  rw [JunctionTree.cliques, Graph.vertices, treeOf, keys, visitsOf]

/-- The edges are the steps of the walk. -/
theorem edges_treeOf (canonical : ∀ c ∈ cs, c.IsCanonical) (nodup : cs.Nodup) (p : OrderPolicy) :
    (treeOf cs p).edges.map (Prod.map some some) =
      (stepsOf (visitsOf cs)).map (Prod.map (cs[·]?) (cs[·]?)) := by
  have edges := map_edges_layout (spanned_selectedOf canonical nodup).inside
  rw [key?_ofKeys_eq nodup, Arena.keys_ofKeys nodup] at edges
  rw [JunctionTree.edges, treeOf, edges, visitsOf]

end Tree

/-! ### From a graph to its cliques -/

namespace Graph
variable {g : Graph K}

variable {order : List Nat}

/-- What a triangulated graph lists is told by its rows. -/
theorem Triangular.maximalCliqueIds_eq (h : g.Triangular order) (q : OrderPolicy) : g.maximalCliqueIds q = (do
    let seeds ← g.resolve q
    return g.neighbourRows.cliqueIds order seeds) := by
  have small : ∀ {l : List Nat}, l.Perm g.arena.ids → ∀ v ∈ l, v < g.neighbourRows.size := by
    intro l perm v hv
    rw [h.size]
    exact List.mem_range.1 (perm.mem_iff.1 hv)
  rw [maximalCliqueIds, h.recorded]
  cases resolved : g.resolve q with
  | error e => rfl
  | ok seeds => exact Rows.cliqueIds_eq h.symm (small h.perm) (small (h.resolve_perm resolved))

variable [VertexKey K]

theorem Triangular.maximalCliques_eq (h : g.Triangular order) (q : OrderPolicy) : g.maximalCliques q = (do
    let seeds ← g.resolve q
    return (g.neighbourRows.cliqueIds order seeds).map g.cliqueOf) := by
  rw [maximalCliques, h.maximalCliqueIds_eq]
  cases g.resolve q <;> rfl

/-- The tree of a triangulated graph is made from the list of its cliques. -/
theorem Triangular.junctionTree_eq (h : g.Triangular order) (q : OrderPolicy) : g.junctionTree q = (do
    let seeds ← g.resolve q
    return treeOf ((g.neighbourRows.cliqueIds order seeds).map g.cliqueOf) q) := by
  have listed := h.maximalCliques_eq q
  rw [junctionTree, cliqueGraph, listed]
  cases resolved : g.resolve q with
  | error e => rfl
  | ok seeds =>
    rw [resolved] at listed
    have nodup := (h.lists_maximalCliques listed).nodup
    simp only [bind, Except.bind, pure, Except.pure, ofEdgeIds_eq]
    exact spanningForest_eq_treeOf nodup q

/-- When the policy has an order, it fills the graph in, lists the cliques and makes their tree. -/
theorem exists_chordal (wf : g.WellFormed) (state : g.elimination = none) {p : OrderPolicy}
    (resolved : g.resolve p = .ok order) : ∃ s, g.triangulate p = .ok s ∧ s.graph.Triangular order ∧
      s.graph.ListsCliques ((g.neighbourRows.chordalIds order).map g.cliqueOf) ∧
        s.graph.junctionTree p = .ok (treeOf ((g.neighbourRows.chordalIds order).map g.cliqueOf) p) := by
  obtain ⟨s, filled⟩ : ∃ s, g.triangulate p = .ok s := by
    rw [triangulate_eq wf state, resolved]
    exact ⟨_, rfl⟩
  obtain ⟨arena, _, _, again, triangular⟩ := triangulate_spec wf filled
  obtain rfl := Except.ok.inj (resolved.symm.trans again)
  have cliqueOf : s.graph.cliqueOf = g.cliqueOf := by
    funext ids
    rw [Graph.cliqueOf, Graph.cliqueOf, arena]
  have rows : s.graph.neighbourRows = _ := congrArg Growth.graph (onRows_triangulate wf state filled resolved)
  have cliques := triangular.maximalCliques_eq p
  have tree := triangular.junctionTree_eq p
  rw [resolve_again wf filled resolved, rows, cliqueOf] at cliques tree
  exact ⟨s, filled, triangular, triangular.lists_maximalCliques cliques, tree⟩

/-- Filled in and listed by one policy, a graph gives the tree of the cliques that its rows tell. -/
theorem triangulate_junctionTree_eq (wf : g.WellFormed) (state : g.elimination = none) (p : OrderPolicy) : (do
    let filled ← g.triangulate p
    filled.graph.junctionTree p) = (do
      let order ← g.resolve p
      return treeOf ((g.neighbourRows.chordalIds order).map g.cliqueOf) p) := by
  cases resolved : g.resolve p with
  | error e =>
    rw [triangulate_eq wf state, resolved]
    rfl
  | ok order =>
    obtain ⟨s, filled, _, _, tree⟩ := exists_chordal wf state resolved
    simp only [filled, bind, Except.bind]
    exact tree

end Graph

/-! ### From a directed graph to its moral graph -/

namespace Digraph
variable {g : Digraph K}

/-- Moralization adds the marriages to the edges and forgets the directions. -/
theorem moralGraph_eq (wf : g.WellFormed) (lists : g.ListsParents) :
    g.moralGraph = .ok (.ofEdgeIds g.arena (Rows.moralEdges g.arena.size g.edgeIds.toList)) := by
  have married : marry g g.arena.ids = .ok (g.arena.ids.foldl Growth.joinParents ⟨g, #[]⟩) :=
    marry_eq wf.inside fun v hv => by
      rw [show (ParentLinks.parents g).size = g.arena.size from wf.size]
      exact List.mem_range.1 hv
  obtain ⟨s, folded⟩ : ∃ s, g.arena.ids.foldl Growth.joinParents ⟨g, #[]⟩ = s := ⟨_, rfl⟩
  have recorded : Growth.Recorded g s := folded ▸ Growth.Recorded.foldl_joinParents g.arena.ids rfl
  have rows : Rows.marriages g.arena.size g.edgeIds.toList = s.onParents := by
    rw [Rows.marriages, ← lists, ← folded]
    exact Growth.onParents_foldl_joinParents g.arena.ids ⟨g, #[]⟩
  have graph : s.graph = _ := recorded.trans (foldl_link s.added.toList g)
  rw [moralGraph, moralize, married, folded]
  show Except.ok (Graph.ofEdgeIds s.graph.arena s.graph.edgeIds.toList) = _
  rw [graph, Rows.moralEdges, rows]
  simp [Growth.onParents]

variable [VertexKey K]

/-- The clique of the keys with the given ids. -/
def cliqueOf (g : Digraph K) (ids : List Nat) : Clique K := Clique.ofList (g.arena.keysOf ids)

/-- The neighbours in the moral graph. -/
def moralRows (g : Digraph K) : Rows := adjacencyOf g.arena.size (Rows.moralEdges g.arena.size g.edgeIds.toList)

theorem exists_openMoralGraph (built : g.Built) : ∃ m, g.moralGraph = .ok m ∧ m.WellFormed ∧ m.elimination = none ∧
    m.arena = g.arena ∧ m.neighbourRows = g.moralRows := by
  have moral := moralGraph_eq built.wellFormed built.listsParents
  refine ⟨_, moral, built.wellFormed.moralGraph moral, ?_⟩
  rw [Graph.ofEdgeIds_eq]
  exact ⟨rfl, rfl, rfl⟩

/-- The junction tree is the tree of the cliques that the rows of the moral graph tell. -/
theorem junctionTree_eq (built : g.Built) (p : OrderPolicy) : g.junctionTree p = (do
    let order ← p.resolve g.moralRows g.arena.ids
    return treeOf ((g.moralRows.chordalIds order).map g.cliqueOf) p) := by
  obtain ⟨m, moral, wf, state, arena, rows⟩ := exists_openMoralGraph built
  have cliqueOf : m.cliqueOf = g.cliqueOf := by
    funext ids
    rw [Graph.cliqueOf, cliqueOf, arena]
  have tree := Graph.triangulate_junctionTree_eq wf state p
  rw [Graph.resolve, rows, arena, cliqueOf] at tree
  rw [junctionTree, moral]
  exact tree

/-- The cliques of which the tree is made are different, and their members are vertices. -/
theorem nodup_map_cliqueOf (built : g.Built) {p : OrderPolicy} {order : List Nat}
    (resolved : p.resolve g.moralRows g.arena.ids = .ok order) :
    ((g.moralRows.chordalIds order).map g.cliqueOf).Nodup := by
  obtain ⟨m, moral, wf, state, arena, rows⟩ := exists_openMoralGraph built
  rw [← rows, ← arena] at resolved
  obtain ⟨s, _, _, lists, _⟩ := Graph.exists_chordal wf state resolved
  have cliqueOf : m.cliqueOf = g.cliqueOf := by
    funext ids
    rw [Graph.cliqueOf, cliqueOf, arena]
  rw [rows, cliqueOf] at lists
  exact lists.nodup

theorem mem_vertices_of_mem_cliqueOf {ids : List Nat} {k : K} (h : k ∈ (g.cliqueOf ids).members) : k ∈ g.vertices :=
  Arena.keysOf_subset _ _ k (Clique.mem_ofList.1 h)

end Digraph
end CliqueTree
