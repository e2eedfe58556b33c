import CliqueTree.Proofs.JunctionTree.Spanning
import Mathlib.Data.List.Permutation

/-!
# Running intersection

The maximal cliques of a triangulated graph cover every complete set, so they reduce to nothing along the order
of elimination (`Triangular.reducible`). Since the tree connects them widely, the cliques that hold a vertex are
connected in it through cliques that hold it.
-/

set_option autoImplicit false

namespace CliqueTree
open Relation (ReflTransGen)

/-- A step along an edge of the tree between two of its cliques that hold the key. -/
def JunctionTree.StepWith {K : Type} [VertexKey K] (t : JunctionTree K) (x : K) (c d : Clique K) : Prop :=
  c ∈ t.cliques ∧ d ∈ t.cliques ∧ Touching t.edges c d ∧ x ∈ c.members ∧ x ∈ d.members

namespace Graph
variable {K : Type} [VertexKey K] {g : Graph K}

/-- The maximal cliques, when there are any, cover every complete set. -/
theorem Triangular.cliqueCover {order : List Nat} (h : g.Triangular order) {cs : List (Clique K)}
    (lists : g.ListsCliques cs) (some : cs ≠ []) :
    CliqueCover g.Adjacent g.eliminationOrder cs.toFinset (fun c => c.members.toFinset) where
  inside c hc k hk := by
    have maximal := ((lists.mem_iff c).1 (List.mem_toFinset.1 hc)).2
    exact h.order_perm.mem_iff.2 (maximal.inside k (List.mem_toFinset.1 hk))
  complete c hc k hk l hl := by
    have maximal := ((lists.mem_iff c).1 (List.mem_toFinset.1 hc)).2
    exact maximal.complete k (List.mem_toFinset.1 hk) l (List.mem_toFinset.1 hl)
  covers s inside complete := by
    by_cases none : s = ∅
    · obtain ⟨c, hc⟩ := List.exists_mem_of_ne_nil cs some
      exact ⟨c, List.mem_toFinset.2 hc, none ▸ Finset.empty_subset _⟩
    · have := h.adjacent_symm
      have listed : ∀ k ∈ s.toList, k ∈ g.vertices := fun k hk =>
        h.order_perm.mem_iff.1 (inside k (Finset.mem_toList.1 hk))
      have linked : Complete g.Adjacent s.toList := fun k hk l hl =>
        complete k (Finset.mem_toList.1 hk) l (Finset.mem_toList.1 hl)
      obtain ⟨keys, maximal, within⟩ := exists_isMaximalClique (mt Finset.toList_eq_nil.1 none) listed linked
      refine ⟨Clique.ofList keys, List.mem_toFinset.2 ((lists.mem_iff _).2 ⟨Clique.isCanonical_ofList _, ?_⟩),
        fun k hk => List.mem_toFinset.2 (Clique.mem_ofList.2 (within k (Finset.mem_toList.2 hk)))⟩
      exact maximal.congr fun _ => Clique.mem_ofList.symm

theorem Triangular.reducible {order : List Nat} (h : g.Triangular order) {cs : List (Clique K)}
    (lists : g.ListsCliques cs) (some : cs ≠ []) : Reducible cs.toFinset (fun c : Clique K => c.members.toFinset) := by
  have := h.adjacent_symm
  exact h.perfect_keys.reducible (h.order_perm.nodup_iff.2 g.arena.nodup) (h.cliqueCover lists some)

/-- **Running intersection.** Whatever policies fill a graph in and join its cliques, every two cliques of the
tree that hold a vertex are connected along edges of the tree between cliques that hold it. -/
theorem junctionTree_runningIntersection {g : Graph K} (built : g.Built) {p : OrderPolicy} {s : Growth (Graph K)}
    (filled : g.triangulate p = .ok s) {q : OrderPolicy} {t : JunctionTree K}
    (joined : s.graph.junctionTree q = .ok t) {x : K} {c d : Clique K} (hc : c ∈ t.cliques) (hd : d ∈ t.cliques)
    (xc : x ∈ c.members) (xd : x ∈ d.members) : ReflTransGen (t.StepWith x) c d := by
  obtain ⟨_, _, order, _, triangular⟩ := triangulate_spec built.wellFormed.1 filled
  obtain ⟨cs, selected, lists, spanned, perm, edges⟩ := triangular.junctionTree_spec joined
  have wide := spanned.widelyConnected
  rw [← edges] at wide
  have reducible := triangular.reducible lists (List.ne_nil_of_mem (perm.mem_iff.1 hc))
  have way := reducible.runningIntersection _ wide x c (List.mem_toFinset.2 (perm.mem_iff.1 hc))
    d (List.mem_toFinset.2 (perm.mem_iff.1 hd)) (List.mem_toFinset.2 xc) (List.mem_toFinset.2 xd)
  refine ReflTransGen.mono (fun a b step => ?_) _ _ way
  obtain ⟨ha, hb, touching, xa, xb⟩ := step
  exact ⟨perm.mem_iff.2 (List.mem_toFinset.1 ha), perm.mem_iff.2 (List.mem_toFinset.1 hb), touching,
    List.mem_toFinset.1 xa, List.mem_toFinset.1 xb⟩

/-- The first and the last triangle of a fan share its hub, and the tree connects them through the middle one. -/
theorem fan_runningIntersection : ∃ (g : Graph Char) (s : Growth (Graph Char)) (t : JunctionTree Char),
    Graph.ofEdges ['a', 'b', 'c', 'd', 'h'] [('h', 'a'), ('h', 'd'), ('h', 'b'), ('h', 'c'), ('a', 'b'), ('b', 'c'),
      ('c', 'd')] = .ok g ∧ g.triangulate .inOrder = .ok s ∧ s.graph.junctionTree .standard = .ok t ∧
        t.edges = [(⟨['b', 'c', 'h']⟩, ⟨['a', 'b', 'h']⟩), (⟨['b', 'c', 'h']⟩, ⟨['c', 'd', 'h']⟩)] ∧
          ReflTransGen (t.StepWith 'h') ⟨['a', 'b', 'h']⟩ ⟨['c', 'd', 'h']⟩ := by
  have ran : (do
      let g ← Graph.ofEdges ['a', 'b', 'c', 'd', 'h'] [('h', 'a'), ('h', 'd'), ('h', 'b'), ('h', 'c'), ('a', 'b'),
        ('b', 'c'), ('c', 'd')]
      let s ← g.triangulate .inOrder
      let t ← s.graph.junctionTree .standard
      return (t.cliques, t.edges)) =
        .ok ([⟨['b', 'c', 'h']⟩, ⟨['a', 'b', 'h']⟩, ⟨['c', 'd', 'h']⟩],
          [(⟨['b', 'c', 'h']⟩, ⟨['a', 'b', 'h']⟩), (⟨['b', 'c', 'h']⟩, ⟨['c', 'd', 'h']⟩)]) := by
    -- nothing that is shown depends on the digest of the policy
    simp only [junctionTree, spanningForest_overlapWeights]
    generalize OrderPolicy.paramsHash _ = digest
    cbv
  obtain ⟨g, made, ran⟩ := bind_eq_ok.1 ran
  obtain ⟨s, filled, ran⟩ := bind_eq_ok.1 ran
  obtain ⟨t, joined, shown⟩ := bind_eq_ok.1 ran
  obtain ⟨cliques, edges⟩ := Prod.mk.inj (Except.ok.inj shown)
  refine ⟨g, s, t, made, filled, joined, edges, ?_⟩
  apply junctionTree_runningIntersection (.ofEdges made) filled joined
  · rw [cliques]
    decide
  · rw [cliques]
    decide
  · decide
  · decide

end Graph
end CliqueTree
