import CliqueTree.Graph.Chordal
import CliqueTree.Proofs.Key.Arena
import CliqueTree.Proofs.Table.Walk

/-!
# Well-formed graphs

A graph that callers build from vertices and edges has a row for each vertex, and its rows are symmetric
(`Built.wellFormed`). Adjacency of keys is then linkage of their ids, and every order that a policy chooses
lists each vertex once (`WellFormed.resolve_perm`).
-/

set_option autoImplicit false

namespace CliqueTree
namespace Graph
variable {K : Type}

/-- There is a row for each vertex, and every neighbour names back. -/
structure WellFormed (g : Graph K) : Prop where
  size : g.neighbourRows.size = g.arena.size
  symm : g.neighbourRows.Symmetric

theorem foldl_link (edges : List Edge) (g : Graph K) : edges.foldl (fun g e => g.link e.1 e.2) g =
    { g with
      edgeIds := g.edgeIds ++ edges.toArray
      neighbourRows := edges.foldl (fun r e => NeighbourLinks.link r e.1 e.2) g.neighbourRows } := by
  induction edges generalizing g with
  | nil => simp
  | cons e edges ih =>
    have ids : g.edgeIds.push e ++ edges.toArray = g.edgeIds ++ (e :: edges).toArray := by simp
    rw [List.foldl_cons, ih, ← ids]
    rfl

theorem WellFormed.link {g : Graph K} (h : g.WellFormed) {u v : Nat} (hu : u < g.arena.size) (hv : v < g.arena.size) :
    (g.link u v).WellFormed := by
  rw [← h.size] at hu hv
  have grown : Rows.Grown g.neighbourRows (g.link u v).neighbourRows (fun _ _ => True) :=
    .link h.symm hu hv trivial trivial
  exact ⟨grown.size.trans h.size, grown.symm⟩

theorem ofEdgeIds_eq (arena : Arena K) (edges : List Edge) : ofEdgeIds arena edges =
    ⟨arena, edges.toArray, edges.foldl (fun r e => NeighbourLinks.link r e.1 e.2) (.blank arena.size), none⟩ := by
  rw [ofEdgeIds, foldl_link]
  simp [blank]

/-- An edge list with ends inside makes a graph whose rows link the ends of the edges. -/
theorem ofEdgeIds_wellFormed {arena : Arena K} {edges : List Edge}
    (inside : ∀ e ∈ edges, e.1 < arena.size ∧ e.2 < arena.size) : (ofEdgeIds arena edges).WellFormed ∧
      ∀ u v, (ofEdgeIds arena edges).neighbourRows.Linked u v ↔ Touching edges u v := by
  obtain ⟨size, symm, linked⟩ := Rows.linked_foldl_link_blank inside
  rw [ofEdgeIds_eq]
  exact ⟨⟨size, symm⟩, linked⟩

/-- Every policy orders all vertices, each once. -/
theorem WellFormed.resolve_perm {g : Graph K} (wf : g.WellFormed) {p : OrderPolicy} {order : List Nat}
    (h : g.resolve p = .ok order) : order.Perm g.arena.ids := by
  unfold resolve OrderPolicy.resolve Arena.ids at h
  rw [← wf.size] at h
  split at h
  · rw [Arena.ids, ← wf.size]
    exact Rows.cover_perm wf.symm (.refl _) h
  · obtain rfl := Except.ok.inj h
    rw [Arena.ids, wf.size]

theorem WellFormed.inside_of_resolve {g : Graph K} (wf : g.WellFormed) {p : OrderPolicy} {order : List Nat}
    (h : g.resolve p = .ok order) : ∀ v ∈ order, v < g.neighbourRows.size := by
  intro v hv
  rw [wf.size]
  exact List.mem_range.1 ((wf.resolve_perm h).mem_iff.1 hv)

variable [VertexKey K]

/-- The graphs that callers build: from vertices and edges, and by adding edges. -/
inductive Built : Graph K → Prop where
  | ofEdges {vertices : List K} {edges : List (K × K)} {g : Graph K} (made : Graph.ofEdges vertices edges = .ok g) :
    Built g
  | addEdge {g g' : Graph K} {u v : K} (built : Built g) (made : g.addEdge u v = .ok g') : Built g'

/-- An edge that is added joins two vertices of a graph that is not triangulated. -/
theorem addEdge_eq_ok {g g' : Graph K} {u v : K} (h : g.addEdge u v = .ok g') :
    g.elimination = none ∧ ∃ i j, g.arena.key? i = some u ∧ g.arena.key? j = some v ∧ g' = g.link i j := by
  unfold addEdge at h
  obtain ⟨e, ends, h⟩ := bind_eq_ok.1 h
  obtain ⟨hu, hv⟩ := Arena.edgeId_eq_ok_iff.1 ends
  cases state : g.elimination with
  | none =>
    simp only [triangulated, state] at h
    exact ⟨rfl, e.1, e.2, hu, hv, (Except.ok.inj h).symm⟩
  | some order =>
    simp only [triangulated, state] at h
    cases h

theorem Built.wellFormed {g : Graph K} (h : Built g) : g.WellFormed ∧ g.elimination = none := by
  induction h with
  | ofEdges made =>
    obtain ⟨ids, ends, made⟩ := bind_eq_ok.1 made
    obtain rfl := Except.ok.inj made
    refine ⟨(ofEdgeIds_wellFormed (Arena.edgeIds_inside ends)).1, ?_⟩
    rw [ofEdgeIds_eq]
  | addEdge _ made ih =>
    obtain ⟨_, i, j, hi, hj, rfl⟩ := addEdge_eq_ok made
    exact ⟨ih.1.link (Arena.lt_size hi) (Arena.lt_size hj), ih.2⟩

section Adjacent

/-- An edge joins the two keys. -/
def Adjacent (g : Graph K) (u v : K) : Prop := g.hasEdge u v = .ok true

variable {g : Graph K} {u v : K} {i j : Nat}

theorem hasEdge_eq (hi : g.arena.key? i = some u) (hj : g.arena.key? j = some v) :
    g.hasEdge u v = .ok (decide (j ∈ g.neighbourRows.get i)) := by
  have ends : g.arena.edgeId (u, v) = .ok (i, j) := Arena.edgeId_eq_ok_iff.2 ⟨hi, hj⟩
  rw [hasEdge, ends]
  rfl

theorem adjacent_iff (hi : g.arena.key? i = some u) (hj : g.arena.key? j = some v) :
    g.Adjacent u v ↔ g.neighbourRows.Linked i j := by
  rw [Adjacent, hasEdge_eq hi hj, Except.ok.injEq, decide_eq_true_eq]
  rfl

theorem Adjacent.exists_linked (h : g.Adjacent u v) :
    ∃ i j, g.arena.key? i = some u ∧ g.arena.key? j = some v ∧ g.neighbourRows.Linked i j := by
  obtain ⟨e, ends, _⟩ := bind_eq_ok.1 h
  obtain ⟨hi, hj⟩ := Arena.edgeId_eq_ok_iff.1 ends
  exact ⟨e.1, e.2, hi, hj, (adjacent_iff hi hj).1 h⟩

theorem WellFormed.adjacent_symm (wf : g.WellFormed) : Std.Symm g.Adjacent where
  symm u v h := by
    obtain ⟨i, j, hi, hj, linked⟩ := h.exists_linked
    exact (adjacent_iff hj hi).2 (wf.symm _ _ linked)

end Adjacent

end Graph
end CliqueTree
