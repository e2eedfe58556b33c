import CliqueTree.Proofs.JunctionTree.Tree

/-!
# Separators

Taking an edge away leaves two sides of its tree. The cliques that hold a vertex are connected through each other, so
a vertex that has holders on both sides lies in the cliques at both ends of the edge (`Joins.mem_of_mem_sides`). An
edge of the graph lies in a clique, and so none leads out of a side except from what these two share
(`Joins.mem_side_of_adjacent`): what the ends of an edge share separates the sides.
-/

set_option autoImplicit false

namespace CliqueTree
open Relation (ReflTransGen)

namespace JunctionTree
section Sides
variable {K : Type} {t : JunctionTree K}

/-- The members of the cliques that are still joined to a clique when the edge at a position is taken away. -/
def side (t : JunctionTree K) (k : Nat) (c : Clique K) : Set K := Clique.membersOf {d | Joined (t.edges.eraseIdx k) c d}

/-- The edge at the position joins the two, in either direction. -/
def EndsAt (t : JunctionTree K) (k : Nat) (a b : Clique K) : Prop :=
  t.edges[k]? = some (a, b) ∨ t.edges[k]? = some (b, a)

namespace EndsAt
variable {k : Nat} {a b c d : Clique K}

theorem symm (h : t.EndsAt k a b) : t.EndsAt k b a := Or.symm h

theorem touching (h : t.EndsAt k a b) : Touching t.edges a b := h.imp List.mem_of_getElem? List.mem_of_getElem?

/-- A step that is no step between the two ends is one along another edge. -/
theorem step_cases (h : t.EndsAt k a b) (step : Touching t.edges c d) :
    Touching (t.edges.eraseIdx k) c d ∨ (c = a ∧ d = b) ∨ (c = b ∧ d = a) := by
  rcases h with forth | back
  · exact step.eraseIdx forth
  · exact (step.eraseIdx back).imp_right Or.symm

end EndsAt
end Sides

namespace Joins
variable {K : Type} [VertexKey K] {g : Graph K} {t : JunctionTree K} {k : Nat} {a b c d : Clique K} {x : K}

theorem not_joined (h : t.Joins g) (ends : t.EndsAt k a b) : ¬ Joined (t.edges.eraseIdx k) a b := by
  rcases ends with forth | back
  · exact h.forest.not_joined_eraseIdx forth
  · exact fun way => h.forest.not_joined_eraseIdx back way.symm

/-- The cliques that hold a vertex are on one side, unless both ends of the edge hold it. -/
theorem joined_of_mem (h : t.Joins g) (ends : t.EndsAt k a b) (outside : ¬ (x ∈ a.members ∧ x ∈ b.members))
    (hc : c ∈ t.cliques) (hd : d ∈ t.cliques) (xc : x ∈ c.members) (xd : x ∈ d.members) :
    Joined (t.edges.eraseIdx k) c d := by
  refine ReflTransGen.mono (fun u v step => ?_) _ _ (h.holders_connected hc hd xc xd)
  obtain ⟨_, _, step, xu, xv⟩ := step
  rcases ends.step_cases step with other | ⟨rfl, rfl⟩ | ⟨rfl, rfl⟩
  · exact other
  · exact absurd ⟨xu, xv⟩ outside
  · exact absurd ⟨xv, xu⟩ outside

theorem mem_cliques_of_joined (h : t.Joins g) (hc : c ∈ t.cliques) (way : Joined (t.edges.eraseIdx k) c d) :
    d ∈ t.cliques :=
  way.closed (fun e he => h.ends e (List.mem_of_mem_eraseIdx he)) hc

/-- What has holders on both sides is held at both ends. -/
theorem mem_of_mem_sides (h : t.Joins g) (ends : t.EndsAt k a b) (onA : x ∈ t.side k a) (onB : x ∈ t.side k b) :
    x ∈ a.members ∧ x ∈ b.members := by
  apply Classical.byContradiction
  intro outside
  obtain ⟨ha, hb⟩ := (h.of_touching ends.touching).1
  obtain ⟨c, toC, xc⟩ := onA
  obtain ⟨d, toD, xd⟩ := onB
  have across := h.joined_of_mem ends outside (h.mem_cliques_of_joined ha toC) (h.mem_cliques_of_joined hb toD) xc xd
  exact h.not_joined ends ((toC.trans across).trans toD.symm)

/-- Each end of an edge has a member that the other one lacks. -/
theorem exists_notMem (h : t.Joins g) (ends : t.EndsAt k a b) : ∃ x ∈ a.members, x ∉ b.members := by
  apply Classical.byContradiction
  intro none
  have within : ∀ x ∈ a.members, x ∈ b.members := fun x xa =>
    Classical.byContradiction fun lacks => none ⟨x, xa, lacks⟩
  obtain ⟨ha, hb⟩ := (h.of_touching ends.touching).1
  have largest := h.isMaximalClique hb
  have same := (h.isMaximalClique ha).of_subset largest.inside largest.complete within
  obtain rfl : a = b := Clique.ext ((h.isCanonical ha).ext (h.isCanonical hb) same)
  exact h.not_joined ends (.refl _ a)

variable [Std.Symm g.Adjacent] {u v : K}

/-- An edge of the graph leads out of a side only from what both ends hold. -/
theorem mem_side_of_adjacent (h : t.Joins g) (ends : t.EndsAt k a b) (onA : u ∈ t.side k a)
    (outside : ¬ (u ∈ a.members ∧ u ∈ b.members)) (adjacent : g.Adjacent u v) : v ∈ t.side k a := by
  obtain ⟨ha, _⟩ := (h.of_touching ends.touching).1
  obtain ⟨c, toC, uc⟩ := onA
  obtain ⟨d, hd, ud, vd⟩ := h.exists_clique_of_adjacent adjacent
  exact ⟨d, toC.trans (h.joined_of_mem ends outside (h.mem_cliques_of_joined ha toC) hd uc ud), vd⟩

/-- A way from one side to the other passes what both ends hold. -/
theorem exists_mem_way (h : t.Joins g) (ends : t.EndsAt k a b) {way : List K} (chain : way.IsChain g.Adjacent)
    (first : way.head? = some u) (last : way.getLast? = some v) (onA : u ∈ t.side k a) (onB : v ∈ t.side k b) :
    ∃ z ∈ way, z ∈ a.members ∧ z ∈ b.members := by
  induction way generalizing u with
  | nil => cases first
  | cons w way ih =>
    obtain rfl : w = u := Option.some.inj first
    by_cases shared : w ∈ a.members ∧ w ∈ b.members
    · exact ⟨w, List.mem_cons_self, shared⟩
    · cases way with
      | nil =>
        obtain rfl : w = v := Option.some.inj last
        exact absurd (h.mem_of_mem_sides ends onA onB) shared
      | cons x way =>
        obtain ⟨step, chain⟩ := List.isChain_cons_cons.1 chain
        obtain ⟨z, hz, both⟩ := ih chain rfl last (h.mem_side_of_adjacent ends onA shared step)
        exact ⟨z, List.mem_cons_of_mem w hz, both⟩

end Joins
end JunctionTree

namespace Graph
variable {K : Type} [VertexKey K] {g : Graph K} {t : JunctionTree K}

/-- **Separators.** Whatever policies fill a graph in and join its cliques, the separator of an edge holds what its
two ends share, which is something but neither of them whole. It is all that the two sides of the edge share, no edge
of the filled graph joins what else they hold, and every way in the graph from one side to the other passes it. -/
theorem junctionTree_separators (built : g.Built) {p : OrderPolicy} {s : Growth (Graph K)}
    (filled : g.triangulate p = .ok s) {q : OrderPolicy} (joined : s.graph.junctionTree q = .ok t) {k : Nat}
    {a b : Clique K} (edge : t.edges[k]? = some (a, b)) :
    let separator := a.shared b
    t.separators[k]? = some separator ∧ (∀ x, x ∈ separator ↔ x ∈ a.members ∧ x ∈ b.members) ∧
      t.side k a ∩ t.side k b = {x | x ∈ separator} ∧
        (separator ≠ [] ∧ (∃ x ∈ a.members, x ∉ separator) ∧ ∃ x ∈ b.members, x ∉ separator) ∧
          (∀ u ∈ t.side k a, ∀ v ∈ t.side k b, u ∉ separator → v ∉ separator → ¬ s.graph.Adjacent u v) ∧
            ∀ (way : List K) (u v : K), way.IsChain g.Adjacent → way.head? = some u → way.getLast? = some v →
              u ∈ t.side k a → v ∈ t.side k b → ∃ z ∈ way, z ∈ separator := by
  have wf := built.wellFormed.1
  obtain ⟨_, _, order, _, triangular⟩ := triangulate_spec wf filled
  have tree := triangular.joins joined
  have := triangular.adjacent_symm
  have ends : t.EndsAt k a b := .inl edge
  obtain ⟨⟨ha, hb⟩, x, xa, xb⟩ := tree.of_touching ends.touching
  have mem : ∀ x, x ∈ a.shared b ↔ x ∈ a.members ∧ x ∈ b.members := fun _ =>
    Clique.mem_shared (tree.isCanonical ha) (tree.isCanonical hb)
  refine ⟨?_, mem, ?_, ⟨?_, ?_, ?_⟩, ?_, ?_⟩
  · rw [JunctionTree.separators, List.getElem?_map, edge]
    rfl
  · ext x
    constructor
    · exact fun ⟨onA, onB⟩ => (mem x).2 (tree.mem_of_mem_sides ends onA onB)
    · intro shared
      obtain ⟨xa, xb⟩ := (mem x).1 shared
      exact ⟨⟨a, .refl _ a, xa⟩, ⟨b, .refl _ b, xb⟩⟩
  · exact List.ne_nil_of_mem ((mem x).2 ⟨xa, xb⟩)
  · obtain ⟨x, xa, lacks⟩ := tree.exists_notMem ends
    exact ⟨x, xa, fun shared => lacks ((mem x).1 shared).2⟩
  · obtain ⟨x, xb, lacks⟩ := tree.exists_notMem ends.symm
    exact ⟨x, xb, fun shared => lacks ((mem x).1 shared).1⟩
  · intro u onA v onB outU outV adjacent
    rw [mem] at outU outV
    exact outV (tree.mem_of_mem_sides ends (tree.mem_side_of_adjacent ends onA outU adjacent) onB)
  · intro way u v chain first last onA onB
    have chain := chain.imp fun _ _ step => adjacent_of_triangulate wf filled step
    obtain ⟨z, hz, both⟩ := tree.exists_mem_way ends chain first last onA onB
    exact ⟨z, hz, (mem z).2 both⟩

/-- In a ring of five vertices no way leads from `a` to `d` but through `c` or `e`, which are a separator. -/
theorem pentagon_separators : ∃ (g : Graph Char) (s : Growth (Graph Char)) (t : JunctionTree Char),
    Graph.ofEdges ['a', 'b', 'c', 'd', 'e', 'f', 'z'] [('a', 'b'), ('b', 'c'), ('c', 'd'), ('d', 'e'), ('e', 'a'),
      ('e', 'f')] = .ok g ∧ g.triangulate .standard = .ok s ∧ s.graph.junctionTree .inOrder = .ok t ∧
        t.edges = [(⟨['b', 'c', 'e']⟩, ⟨['a', 'b', 'e']⟩), (⟨['b', 'c', 'e']⟩, ⟨['c', 'd', 'e', 'f']⟩)] ∧
          t.separators[1]? = some ['c', 'e'] ∧ ∀ way : List Char, way.IsChain g.Adjacent → way.head? = some 'a' →
            way.getLast? = some 'd' → ∃ z ∈ way, z = 'c' ∨ z = 'e' := by
  have ran : (do
      let g ← Graph.ofEdges ['a', 'b', 'c', 'd', 'e', 'f', 'z'] [('a', 'b'), ('b', 'c'), ('c', 'd'), ('d', 'e'),
        ('e', 'a'), ('e', 'f')]
      let s ← g.triangulate .standard
      let t ← s.graph.junctionTree .inOrder
      return t.edges) = .ok [(⟨['b', 'c', 'e']⟩, ⟨['a', 'b', 'e']⟩), (⟨['b', 'c', 'e']⟩, ⟨['c', 'd', 'e', 'f']⟩)] := by
    simp only [junctionTree, spanningForest_overlapWeights]
    generalize OrderPolicy.paramsHash _ = digest
    cbv
  obtain ⟨g, made, ran⟩ := bind_eq_ok.1 ran
  obtain ⟨s, filled, ran⟩ := bind_eq_ok.1 ran
  obtain ⟨t, joined, shown⟩ := bind_eq_ok.1 ran
  have edges := Except.ok.inj shown
  have edge : t.edges[1]? = some (⟨['b', 'c', 'e']⟩, ⟨['c', 'd', 'e', 'f']⟩) := by
    rw [edges]
    rfl
  have shared : (⟨['b', 'c', 'e']⟩ : Clique Char).shared ⟨['c', 'd', 'e', 'f']⟩ = ['c', 'e'] := by cbv
  obtain ⟨listed, _, _, _, _, ways⟩ := junctionTree_separators (.ofEdges made) filled joined edge
  rw [shared] at listed ways
  refine ⟨g, s, t, made, filled, joined, edges, listed, fun way chain first last => ?_⟩
  have onA : 'a' ∈ t.side 1 ⟨['b', 'c', 'e']⟩ := by
    have other : ((⟨['b', 'c', 'e']⟩, ⟨['a', 'b', 'e']⟩) : Clique Char × Clique Char) ∈ t.edges.eraseIdx 1 := by
      rw [edges]
      exact List.mem_cons_self
    exact ⟨⟨['a', 'b', 'e']⟩, .of_mem other, by decide⟩
  have onB : 'd' ∈ t.side 1 ⟨['c', 'd', 'e', 'f']⟩ := ⟨_, .refl _ _, by decide⟩
  simpa using ways way 'a' 'd' chain first last onA onB

end Graph
end CliqueTree
