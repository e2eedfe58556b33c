import CliqueTree.JunctionTree.Basic
import CliqueTree.Proofs.Graph.WellFormed
import CliqueTree.Proofs.Table.FillLinks

/-!
# Triangulated graphs

A graph that was filled in has an order of all its vertices that is perfect, and so it has no cycle of four or
more vertices without a chord. It keeps that through whatever is called afterwards: a triangulated graph takes
no further edge and is not triangulated again, and all other calls only read it.
-/

set_option autoImplicit false

namespace CliqueTree
namespace Graph
variable {K : Type}

/-- The graph remembers an order of all its vertices that is perfect. -/
structure Triangular (g : Graph K) (order : List Nat) : Prop extends WellFormed g where
  recorded : g.elimination = some order
  perm : order.Perm g.arena.ids
  perfect : PerfectOrder g.neighbourRows.Linked order

/-- In the order of a policy the game on the graph does not fail. -/
theorem WellFormed.fill_eq {g : Graph K} (wf : g.WellFormed) {p : OrderPolicy} {order : List Nat}
    (resolved : g.resolve p = .ok order) : fill g order = .ok (Growth.eliminate [] ⟨g, #[]⟩ order) :=
  CliqueTree.fill_eq wf.symm (wf.inside_of_resolve resolved)

/-- Nor does the game on its rows alone. -/
theorem WellFormed.fill_neighbourRows {g : Graph K} (wf : g.WellFormed) {p : OrderPolicy} {order : List Nat}
    (resolved : g.resolve p = .ok order) :
    fill g.neighbourRows order = .ok (Growth.eliminate [] ⟨g.neighbourRows, #[]⟩ order) :=
  CliqueTree.fill_eq wf.symm (wf.inside_of_resolve resolved)

/-- A graph is filled in by the elimination game in the order of the policy, which it remembers. -/
theorem triangulate_eq_ok {g : Graph K} (wf : g.WellFormed) {p : OrderPolicy} {s : Growth (Graph K)}
    (h : g.triangulate p = .ok s) : ∃ order, g.resolve p = .ok order ∧ order.Perm g.arena.ids ∧
      s.graph = { (Growth.eliminate [] ⟨g, #[]⟩ order).graph with elimination := some order } := by
  unfold triangulate at h
  split at h
  · cases h
  next state =>
  obtain ⟨order, resolved, h⟩ := bind_eq_ok.1 h
  rw [wf.fill_eq resolved] at h
  obtain rfl := Except.ok.inj h
  exact ⟨order, resolved, wf.resolve_perm resolved, rfl⟩

/-- An open graph is filled in by the game in the order of the policy. -/
theorem triangulate_eq {g : Graph K} (wf : g.WellFormed) (state : g.elimination = none) (p : OrderPolicy) :
    g.triangulate p = (do
      let order ← g.resolve p
      let filled := Growth.eliminate [] ⟨g, #[]⟩ order
      return { filled with graph.elimination := some order }) := by
  have opened : g.triangulated = false := by
    rw [triangulated, state]
    rfl
  rw [triangulate, opened]
  cases resolved : g.resolve p with
  | error e => rfl
  | ok order =>
    simp only [bind, Except.bind, wf.fill_eq resolved]
    rfl

/-- The edges that filling in would add are those that the game on the rows alone adds. -/
theorem WellFormed.fillIn_eq {g : Graph K} (wf : g.WellFormed) (p : OrderPolicy) : g.fillIn p = (do
    let order ← g.resolve p
    return g.arena.edgesOf (Growth.eliminate [] ⟨g.neighbourRows, #[]⟩ order).added) := by
  rw [fillIn]
  cases resolved : g.resolve p with
  | error e => rfl
  | ok order => simp only [bind, Except.bind, wf.fill_neighbourRows resolved]

/-- Filling in adds edges between the vertices and makes the order of the policy perfect. -/
theorem triangulate_spec {g : Graph K} (wf : g.WellFormed) {p : OrderPolicy} {s : Growth (Graph K)}
    (h : g.triangulate p = .ok s) : s.graph.arena = g.arena ∧
      Rows.Grown g.neighbourRows s.graph.neighbourRows (Growth.Staying []) ∧
        ∃ order, g.resolve p = .ok order ∧ s.graph.Triangular order := by
  obtain ⟨order, resolved, perm, made⟩ := triangulate_eq_ok wf h
  have symm : (Growth.rows ⟨g, #[]⟩).Symmetric := wf.symm
  obtain ⟨grown, perfect⟩ := Growth.eliminate_spec order symm (perm.nodup_iff.2 List.nodup_range)
    fun v _ (left : v ∈ []) => List.not_mem_nil left
  have arena : (Growth.eliminate [] ⟨g, #[]⟩ order).graph.arena = g.arena :=
    Growth.eliminate_induction (P := fun g' : Graph K => g'.arena = g.arena) (fun _ _ _ same => same) order rfl
  rw [made]
  refine ⟨arena, grown, order, resolved, ⟨?_, grown.symm⟩, rfl, ?_, perfect⟩
  · exact (grown.size.trans wf.size).trans (congrArg Arena.size arena.symm)
  · exact arena.symm ▸ perm

/-- What is filled in comes from the order of the policy. -/
theorem triangulate_filledIn {g : Graph K} (wf : g.WellFormed) {p : OrderPolicy} {s : Growth (Graph K)}
    (h : g.triangulate p = .ok s) : ∃ order, g.resolve p = .ok order ∧ s.graph.elimination = some order ∧
      Rows.FilledIn g.neighbourRows s.graph.neighbourRows order := by
  obtain ⟨order, resolved, _, made⟩ := triangulate_eq_ok wf h
  have symm : (Growth.rows ⟨g, #[]⟩).Symmetric := wf.symm
  rw [made]
  exact ⟨order, resolved, rfl, Growth.eliminate_filledIn symm order⟩

/-- Filling in takes no edge away. -/
theorem adjacent_of_triangulate [VertexKey K] {g : Graph K} (wf : g.WellFormed) {p : OrderPolicy}
    {s : Growth (Graph K)} (h : g.triangulate p = .ok s) {u v : K} (linked : g.Adjacent u v) :
    s.graph.Adjacent u v := by
  obtain ⟨arena, grown, _⟩ := triangulate_spec wf h
  obtain ⟨i, j, hi, hj, linked⟩ := linked.exists_linked
  rw [← arena] at hi hj
  exact (adjacent_iff hi hj).2 (grown.mono linked)

namespace Triangular
variable {g : Graph K} {order : List Nat}

theorem order_perm (h : g.Triangular order) : g.eliminationOrder.Perm g.vertices := by
  rw [eliminationOrder, eliminationIds, h.recorded, vertices, ← Arena.keysOf_ids]
  exact h.perm.filterMap _

variable [VertexKey K]

theorem perfect_keys (h : g.Triangular order) : PerfectOrder g.Adjacent g.eliminationOrder := by
  rw [eliminationOrder, eliminationIds, h.recorded]
  exact h.perfect.filterMap fun hx hy => adjacent_iff hx hy

theorem chordal (h : g.Triangular order) : Chordal g.Adjacent := by
  have symm := h.adjacent_symm
  apply h.perfect_keys.chordal
  intro u v linked
  obtain ⟨i, _, hi, _⟩ := linked.exists_linked
  exact h.order_perm.mem_iff.2 (Arena.mem_keys_iff.2 ⟨i, hi⟩)

end Triangular

section Calls
variable [VertexKey K]

/-- What callers can do with a graph. -/
inductive Call (K : Type) where
  | addEdge (u v : K)
  | triangulate (p : OrderPolicy)
  | fillIn (p : OrderPolicy)
  | maximalCliques (p : OrderPolicy)
  | cliqueGraph (p : OrderPolicy)
  | junctionTree (p : OrderPolicy)

/-- The graph that a call leaves when it succeeds. -/
def Call.run (g : Graph K) : Call K → Except GraphError (Graph K)
  | .addEdge u v => g.addEdge u v
  | .triangulate p => return (← g.triangulate p).graph
  | .fillIn p => do
    let _ ← g.fillIn p
    return g
  | .maximalCliques p => do
    let _ ← g.maximalCliques p
    return g
  | .cliqueGraph p => do
    let _ ← g.cliqueGraph p
    return g
  | .junctionTree p => do
    let _ ← g.junctionTree p
    return g

/-- The graph after a call, which is the same graph when the call is refused. -/
def Call.after (g : Graph K) (c : Call K) : Graph K :=
  match c.run g with
  | .ok g' => g'
  | .error _ => g

theorem Call.after_of_run {g : Graph K} {c : Call K} (h : ∀ g', c.run g = .ok g' → g' = g) : c.after g = g := by
  unfold after
  split
  next g' ran => exact h g' ran
  · rfl

/-- No call changes a triangulated graph. -/
theorem Call.after_eq {g : Graph K} {order : List Nat} (state : g.elimination = some order) (c : Call K) :
    c.after g = g := by
  apply after_of_run
  intro g' ran
  cases c with
  | addEdge u v =>
    obtain ⟨none, _⟩ := addEdge_eq_ok ran
    rw [state] at none
    cases none
  | triangulate p =>
    obtain ⟨s, filled, _⟩ := bind_eq_ok.1 ran
    simp only [Graph.triangulate, triangulated, state] at filled
    cases filled
  | fillIn p =>
    obtain ⟨_, _, same⟩ := bind_eq_ok.1 ran
    exact (Except.ok.inj same).symm
  | maximalCliques p =>
    obtain ⟨_, _, same⟩ := bind_eq_ok.1 ran
    exact (Except.ok.inj same).symm
  | cliqueGraph p =>
    obtain ⟨_, _, same⟩ := bind_eq_ok.1 ran
    exact (Except.ok.inj same).symm
  | junctionTree p =>
    obtain ⟨_, _, same⟩ := bind_eq_ok.1 ran
    exact (Except.ok.inj same).symm

theorem foldl_after_eq {g : Graph K} {order : List Nat} (state : g.elimination = some order) (calls : List (Call K)) :
    calls.foldl Call.after g = g := by
  induction calls with
  | nil => rfl
  | cons c calls ih => rw [List.foldl_cons, Call.after_eq state, ih]

/-- **Triangulation.** Once a graph is triangulated, then whatever is called, it has the vertices and at least
the edges that it had, its order of elimination lists every vertex once, the later neighbours of each vertex
are adjacent to each other, and every cycle of four or more vertices has a chord. -/
theorem chordal_after_calls {g : Graph K} (built : g.Built) {p : OrderPolicy} {s : Growth (Graph K)}
    (filled : g.triangulate p = .ok s) (calls : List (Call K)) :
    let t := calls.foldl Call.after s.graph
    t.triangulated = true ∧ t.vertices = g.vertices ∧ (∀ u v, g.Adjacent u v → t.Adjacent u v) ∧
      t.eliminationOrder.Perm t.vertices ∧ PerfectOrder t.Adjacent t.eliminationOrder ∧ Chordal t.Adjacent := by
  obtain ⟨arena, grown, order, _, triangular⟩ := triangulate_spec built.wellFormed.1 filled
  rw [foldl_after_eq triangular.recorded]
  refine ⟨?_, congrArg (·.keys.toList) arena, fun u v linked => ?_, triangular.order_perm,
    triangular.perfect_keys, triangular.chordal⟩
  · rw [triangulated, triangular.recorded]
    rfl
  · obtain ⟨i, j, hi, hj, linked⟩ := linked.exists_linked
    rw [← arena] at hi hj
    exact (adjacent_iff hi hj).2 (grown.mono linked)

/-- A square with a repeated edge and a loop gets one diagonal and keeps it. -/
theorem square_chordal_after_calls : ∃ (g : Graph Char) (s : Growth (Graph Char)),
    Graph.ofEdges ['a', 'b', 'c', 'd'] [('a', 'b'), ('b', 'c'), ('c', 'd'), ('d', 'a'), ('b', 'a'), ('c', 'c')] = .ok g ∧
      g.triangulate .standard = .ok s ∧ s.added = #[(1, 3)] ∧
        let t := [Call.addEdge 'a' 'c', .triangulate .inOrder, .fillIn .strict].foldl Call.after s.graph
        t.triangulated = true ∧ t.vertices = g.vertices ∧ (∀ u v, g.Adjacent u v → t.Adjacent u v) ∧
          t.eliminationOrder.Perm t.vertices ∧ PerfectOrder t.Adjacent t.eliminationOrder ∧ Chordal t.Adjacent := by
  have ran : (do
      let g ← Graph.ofEdges ['a', 'b', 'c', 'd']
        [('a', 'b'), ('b', 'c'), ('c', 'd'), ('d', 'a'), ('b', 'a'), ('c', 'c')]
      let s ← g.triangulate .standard
      return s.added) = .ok #[(1, 3)] := by decide +kernel
  obtain ⟨g, made, ran⟩ := bind_eq_ok.1 ran
  obtain ⟨s, filled, added⟩ := bind_eq_ok.1 ran
  exact ⟨g, s, made, filled, Except.ok.inj added, chordal_after_calls (.ofEdges made) filled _⟩

end Calls
end Graph
end CliqueTree
