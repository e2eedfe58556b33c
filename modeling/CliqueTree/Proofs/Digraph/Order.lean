import CliqueTree.Proofs.Digraph.States
import CliqueTree.Proofs.Table.TopologicalOrder

/-!
# The topological order of a directed graph

The order is the one of the recursive sort of the vertices and edges, and so is the vertex that an error names
(`topologicalOrder_eq_recursiveSort`): the stack works on ids, which are other names for the vertices. With that, the
order exists exactly when no vertex reaches itself, it is a topological order, and an error names a vertex on a cycle
(`topologicalOrder_sound_and_complete`).
-/

set_option autoImplicit false

namespace CliqueTree
open Relation (TransGen)

namespace Digraph
variable {K : Type} {g : Digraph K} {i : Nat} {k : K} {order : List K}

theorem size_childRows (g : Digraph K) : g.childRows.size = g.arena.size := by
  simp [childRows, Rows.ofLists, Rows.size, Arena.ids]

/-- The rows of the children list the targets of the edges. -/
theorem listsTargets_childRows (inside : ∀ e ∈ g.edgeIds.toList, e.1 < g.arena.size ∧ e.2 < g.arena.size) :
    g.childRows.ListsTargets g.edgeIds.toList where
  rows v hv := by
    rw [size_childRows] at hv
    have listed : g.childRows.lists[v]? = some (g.childIds v) := by
      simp [childRows, Rows.ofLists, Arena.ids, hv]
    rw [Rows.get, listed]
    rfl
  inside e he := (size_childRows g).symm ▸ (inside e he).2

theorem topologicalOrder_childRows (inside : ∀ e ∈ g.edgeIds.toList, e.1 < g.arena.size ∧ e.2 < g.arena.size) :
    g.childRows.topologicalOrder = recursiveSort g.arena.ids g.edgeIds.toList := by
  rw [Rows.topologicalOrder_eq (listsTargets_childRows inside), size_childRows, Arena.ids]

section Names
variable [VertexKey K]

theorem cyclicAt_eq (hi : g.arena.key? i = some k) : g.cyclicAt i = .cyclic (describe k) := by
  rw [cyclicAt, hi]

/-- The vertices and edges under the names of ids and under their own are the same. -/
theorem renamed_recursiveSort (wf : g.WellFormed) :
    renamed g.arena.key? (recursiveSort g.arena.ids g.edgeIds.toList) =
      renamed some (recursiveSort g.vertices g.edges) := by
  have inside := wf.edgeIds_inside
  have inj : OneToOne g.arena.key? g.arena.ids := by
    intro i hi j hj same
    obtain ⟨k, hk⟩ := Arena.exists_key? (List.mem_range.1 hi)
    exact Arena.key?_inj hk (same ▸ hk)
  have ids : g.arena.ids.map g.arena.key? = g.vertices.map some := by
    have known : ∀ i ∈ g.arena.ids, i < g.arena.size := fun i => List.mem_range.1
    rw [vertices, ← Arena.keysOf_ids, Arena.map_keysOf known]
  rw [← recursiveSort_map inj, ← recursiveSort_map fun _ _ _ _ => Option.some.inj, ids, edges,
    Arena.map_edgesOf inside]
  · exact fun e he => mem_vertices_of_mem_edges he
  · exact fun e he => (inside e he).imp List.mem_range.2 List.mem_range.2

/-- An order of the recursive sort is the topological order. -/
theorem topologicalOrder_of_ok (wf : g.WellFormed) (sorted : recursiveSort g.vertices g.edges = .ok order) :
    g.topologicalOrder = .ok order := by
  have same := renamed_recursiveSort wf
  rw [topologicalOrder, topologicalOrder_childRows wf.edgeIds_inside]
  cases ran : recursiveSort g.arena.ids g.edgeIds.toList with
  | error i =>
    rw [ran, sorted] at same
    cases same
  | ok ids =>
    rw [ran, sorted] at same
    have named : ids.map g.arena.key? = order.map some := Except.ok.inj same
    have keys : g.arena.keysOf ids = order := by
      calc g.arena.keysOf ids = (ids.map g.arena.key?).filterMap id := by rw [Arena.keysOf, List.filterMap_map]; rfl
        _ = (order.map some).filterMap id := by rw [named]
        _ = order := by simp
    exact congrArg Except.ok keys

/-- The vertex that the recursive sort meets again is the one that the error names. -/
theorem topologicalOrder_of_error (wf : g.WellFormed) (fails : recursiveSort g.vertices g.edges = .error k) :
    g.topologicalOrder = .error (.cyclic (describe k)) := by
  have same := renamed_recursiveSort wf
  rw [topologicalOrder, topologicalOrder_childRows wf.edgeIds_inside]
  cases ran : recursiveSort g.arena.ids g.edgeIds.toList with
  | ok ids =>
    rw [ran, fails] at same
    cases same
  | error i =>
    rw [ran, fails] at same
    exact congrArg Except.error (cyclicAt_eq (Except.error.inj same))

/-- **The stack sorts as the recursion does.** The topological order, or the vertex that the error names, is that of
the recursive depth-first sort. -/
theorem topologicalOrder_eq_recursiveSort (built : g.Built) :
    g.topologicalOrder = (recursiveSort g.vertices g.edges).mapError fun k => .cyclic (describe k) := by
  cases sorted : recursiveSort g.vertices g.edges with
  | ok order => exact topologicalOrder_of_ok built.wellFormed sorted
  | error k => exact topologicalOrder_of_error built.wellFormed sorted

/-- A doubled edge is looked at twice, and from 1 the walk meets 2 before 3. In the second graph the cycle through 2 is
found before the edge from 1 to itself is looked at. -/
theorem topologicalOrder_eq_recursiveSort_doubled : ∃ g h : Digraph Int64,
    Digraph.ofEdges [1, 2, 3, 4, 5] [(1, 2), (1, 3), (1, 2), (3, 2), (4, 1)] = .ok g ∧
      recursiveSort g.vertices g.edges = .ok [5, 4, 1, 3, 2] ∧ g.topologicalOrder = .ok [5, 4, 1, 3, 2] ∧
      Digraph.ofEdges [1, 2, 3] [(1, 1), (1, 2), (2, 3), (3, 2)] = .ok h ∧
      recursiveSort h.vertices h.edges = .error 2 ∧ h.topologicalOrder = .error (.cyclic "2") := by
  have ran : (do
      let g ← Digraph.ofEdges [1, 2, 3, 4, 5] [((1 : Int64), 2), (1, 3), (1, 2), (3, 2), (4, 1)]
      return recursiveSort g.vertices g.edges) = .ok (.ok [5, 4, 1, 3, 2]) := by cbv
  have met : (do
      let h ← Digraph.ofEdges [1, 2, 3] [((1 : Int64), 1), (1, 2), (2, 3), (3, 2)]
      return recursiveSort h.vertices h.edges) = .ok (.error 2) := by cbv
  obtain ⟨g, made, ran⟩ := bind_eq_ok.1 ran
  obtain ⟨h, made', met⟩ := bind_eq_ok.1 met
  have sorted := Except.ok.inj ran
  have cyclic := Except.ok.inj met
  refine ⟨g, h, made, sorted, ?_, made', cyclic, ?_⟩
  · rw [topologicalOrder_eq_recursiveSort (.ofEdges made), sorted]
    rfl
  · rw [topologicalOrder_eq_recursiveSort (.ofEdges made'), cyclic]
    exact congrArg (Except.error ∘ GraphError.cyclic) (by cbv)

/-- **A topological order is sound and complete.** There is one exactly when no vertex reaches itself along edges. It
lists every vertex once and every edge has its source before its target; an error names a vertex that reaches itself. -/
theorem topologicalOrder_sound_and_complete (built : g.Built) :
    ((∃ order, g.topologicalOrder = .ok order) ↔ ∀ v, ¬ TransGen g.Arc v v) ∧
    (∀ order, g.topologicalOrder = .ok order → order.Nodup ∧ order.Perm g.vertices ∧
      ∀ u v, g.Arc u v → order.idxOf u < order.idxOf v) ∧
    ∀ error, g.topologicalOrder = .error error →
      ∃ v ∈ g.vertices, error = .cyclic (describe v) ∧ TransGen g.Arc v v := by
  have ends : ∀ e ∈ g.edges, e.1 ∈ g.vertices ∧ e.2 ∈ g.vertices := fun e he => mem_vertices_of_mem_edges he
  have nodup : g.vertices.Nodup := g.arena.nodup
  cases sorted : recursiveSort g.vertices g.edges with
  | ok order =>
    have ran := topologicalOrder_of_ok built.wellFormed sorted
    obtain ⟨perm, before⟩ := recursiveSort_sound ends nodup sorted
    rw [ran]
    refine ⟨⟨fun _ => acyclic_of_recursiveSort ends sorted, fun _ => ⟨order, rfl⟩⟩, ?_, by simp⟩
    intro order' same
    obtain rfl := Except.ok.inj same
    exact ⟨perm.nodup_iff.2 nodup, perm, fun u v arc => before (u, v) arc⟩
  | error k =>
    have fails := topologicalOrder_of_error built.wellFormed sorted
    obtain ⟨member, cycle⟩ := recursiveSort_cyclic ends sorted
    rw [fails]
    refine ⟨⟨by simp, fun acyclic => absurd cycle (acyclic k)⟩, by simp, ?_⟩
    intro error same
    obtain rfl := Except.error.inj same
    exact ⟨k, member, rfl, cycle⟩

/-- Two edges lead from 1 to 2 and no way leads back. With an edge from 2 to itself there is no order. -/
theorem topologicalOrder_sound_and_complete_loop : ∃ g h : Digraph Int64,
    Digraph.ofEdges [3, 2, 1] [(1, 2), (2, 3), (1, 2)] = .ok g ∧ g.topologicalOrder = .ok [1, 2, 3] ∧
      (∀ v, ¬ TransGen g.Arc v v) ∧
      Digraph.ofEdges [3, 2, 1] [(1, 2), (2, 3), (2, 2)] = .ok h ∧ h.topologicalOrder = .error (.cyclic "2") ∧
      (∃ v ∈ h.vertices, GraphError.cyclic "2" = .cyclic (describe v) ∧ TransGen h.Arc v v) ∧
      ¬ ∀ v, ¬ TransGen h.Arc v v := by
  have ran : (do (← Digraph.ofEdges [3, 2, 1] [((1 : Int64), 2), (2, 3), (1, 2)]).topologicalOrder) =
      .ok [1, 2, 3] := by cbv
  have met : (do
      let h ← Digraph.ofEdges [3, 2, 1] [((1 : Int64), 2), (2, 3), (2, 2)]
      return h.topologicalOrder) = .ok (.error (.cyclic "2")) := by cbv
  obtain ⟨g, made, sorted⟩ := bind_eq_ok.1 ran
  obtain ⟨h, made', met⟩ := bind_eq_ok.1 met
  have fails := Except.ok.inj met
  obtain ⟨complete, _, _⟩ := topologicalOrder_sound_and_complete (.ofEdges made)
  obtain ⟨complete', _, named⟩ := topologicalOrder_sound_and_complete (.ofEdges made')
  refine ⟨g, h, made, sorted, complete.1 ⟨_, sorted⟩, made', fails, named _ fails, fun acyclic => ?_⟩
  obtain ⟨order, ok⟩ := complete'.2 acyclic
  rw [fails] at ok
  cases ok

end Names

end Digraph
end CliqueTree
