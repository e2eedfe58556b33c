import CliqueTree.Proofs.Graph.Triangulation
import CliqueTree.Proofs.Table.Replay

/-!
# Filling in reaches a fixed point

A policy that has filled a graph in chooses the same order for the graph it leaves, although a breadth-first search
then walks the new edges too (`resolve_again`). In that order the graph is perfect, so filling in once more would add
nothing.
-/

set_option autoImplicit false

namespace CliqueTree
namespace Graph
variable {K : Type} {g : Graph K}

/-- The policy chooses for the filled graph the order that it chose for the graph before. -/
theorem resolve_again (wf : g.WellFormed) {p : OrderPolicy} {s : Growth (Graph K)} (filled : g.triangulate p = .ok s)
    {order : List Nat} (resolved : g.resolve p = .ok order) : s.graph.resolve p = .ok order := by
  obtain ⟨arena, _⟩ := triangulate_spec wf filled
  obtain ⟨_, again, _, filledIn⟩ := triangulate_filledIn wf filled
  obtain rfl := Except.ok.inj (resolved.symm.trans again)
  unfold resolve OrderPolicy.resolve at resolved ⊢
  rw [arena, Arena.ids, ← wf.size] at *
  split
  next reorder =>
    rw [if_pos reorder] at resolved
    rw [← filledIn.size]
    exact filledIn.cover_eq wf.symm resolved
  next keep =>
    rw [if_neg keep] at resolved
    exact resolved

/-- Filling in along the order that a triangulated graph remembers adds nothing. -/
theorem Triangular.fillIn_eq {order : List Nat} (h : g.Triangular order) {p : OrderPolicy}
    (resolved : g.resolve p = .ok order) : g.fillIn p = .ok [] := by
  have listed : ∀ v < g.neighbourRows.size, v ∈ order := by
    intro v hv
    rw [h.size] at hv
    exact h.perm.mem_iff.2 (List.mem_range.2 hv)
  have idle : Growth.eliminate [] ⟨g.neighbourRows, #[]⟩ order = ⟨g.neighbourRows, #[]⟩ :=
    Growth.eliminate_idle order h.perfect fun v a link => .inr (listed a (h.symm.lt_size link))
  rw [h.toWellFormed.fillIn_eq, resolved]
  show Except.ok (g.arena.edgesOf (Growth.eliminate [] ⟨g.neighbourRows, #[]⟩ order).added) = .ok []
  rw [idle]
  rfl

variable [VertexKey K]

/-- **Fixed point.** Whatever policy fills a graph in, it succeeds on the filled graph again, resolves to the order
that the graph remembers, and would add no edge. -/
theorem triangulate_fixedPoint (built : g.Built) {p : OrderPolicy} {s : Growth (Graph K)}
    (filled : g.triangulate p = .ok s) : ∃ order, g.resolve p = .ok order ∧ s.graph.elimination = some order ∧
      s.graph.resolve p = .ok order ∧ s.graph.fillIn p = .ok [] := by
  have wf := built.wellFormed.1
  obtain ⟨_, _, order, resolved, triangular⟩ := triangulate_spec wf filled
  have again := resolve_again wf filled resolved
  exact ⟨order, resolved, triangular.recorded, again, triangular.fillIn_eq again⟩

/-- A ring of six vertices gets three edges that a second search walks too, and a part of its own gets none. -/
theorem ring_fixedPoint : ∃ (g : Graph Char) (s : Growth (Graph Char)),
    Graph.ofEdges ['a', 'b', 'c', 'd', 'e', 'f', 'x', 'y'] [('a', 'd'), ('d', 'b'), ('b', 'e'), ('e', 'c'), ('c', 'f'),
      ('f', 'a'), ('y', 'x')] = .ok g ∧ g.triangulate .standard = .ok s ∧ s.added = #[(3, 5), (1, 5), (2, 1)] ∧
        ∃ order, g.resolve .standard = .ok order ∧ s.graph.elimination = some order ∧
          s.graph.resolve .standard = .ok order ∧ s.graph.fillIn .standard = .ok [] := by
  have ran : (do
      let g ← Graph.ofEdges ['a', 'b', 'c', 'd', 'e', 'f', 'x', 'y'] [('a', 'd'), ('d', 'b'), ('b', 'e'), ('e', 'c'),
        ('c', 'f'), ('f', 'a'), ('y', 'x')]
      let s ← g.triangulate .standard
      return s.added) = .ok #[(3, 5), (1, 5), (2, 1)] := by decide +kernel
  obtain ⟨g, made, ran⟩ := bind_eq_ok.1 ran
  obtain ⟨s, filled, added⟩ := bind_eq_ok.1 ran
  exact ⟨g, s, made, filled, Except.ok.inj added, triangulate_fixedPoint (.ofEdges made) filled⟩

end Graph
end CliqueTree
