import CliqueTree.Proofs.JunctionTree.RunningIntersection

/-!
# What a junction tree is

Whatever else the later modules say of a junction tree rests on six facts and not on how the tree was made: it lists
the maximal cliques, all its edges have ends, they form a forest, an edge joins two of its cliques, these share a
member, and the cliques that hold a vertex are connected through each other. They hold of every tree made from a
triangulated graph (`Triangular.joins`).
-/

set_option autoImplicit false

namespace CliqueTree
open Relation (ReflTransGen)

/-- The members of any of a set of cliques. -/
def Clique.membersOf {K : Type} (cliques : Set (Clique K)) : Set K := {x | ∃ c ∈ cliques, x ∈ c.members}

/-- A forest of the maximal cliques of a graph that connects the holders of each vertex. -/
structure JunctionTree.Joins {K : Type} [VertexKey K] (t : JunctionTree K) (g : Graph K) : Prop where
  lists : g.ListsCliques t.cliques
  counted : t.edges.length = t.edgeCount
  forest : IsForest t.edges
  ends : ∀ e ∈ t.edges, e.1 ∈ t.cliques ∧ e.2 ∈ t.cliques
  shares : ∀ e ∈ t.edges, ∃ x ∈ e.1.members, x ∈ e.2.members
  holders : RunningIntersection (Touching t.edges) t.cliques.toFinset fun c => c.members.toFinset

variable {K : Type} [VertexKey K] {g : Graph K} {t : JunctionTree K}

theorem Graph.Triangular.joins {order : List Nat} (h : g.Triangular order) {q : OrderPolicy}
    (joined : g.junctionTree q = .ok t) : t.Joins g := by
  obtain ⟨cs, selected, lists, spanned, perm, tree⟩ := h.junctionTree_layout joined
  have edges : t.edges = treeEdges cs selected := congrArg Graph.edges tree
  have same : t.cliques.toFinset = cs.toFinset := List.toFinset_eq_of_perm _ _ perm
  constructor
  · exact ⟨perm.nodup_iff.2 lists.nodup, fun c => perm.mem_iff.trans (lists.mem_iff c)⟩
  · rw [JunctionTree.edges, JunctionTree.edgeCount, tree]
    exact length_edges_layout spanned.inside
  · rw [edges]
    exact isForest_layout spanned.inside
  · rw [edges]
    intro e he
    obtain ⟨⟨hc, hd⟩, _⟩ := spanned.of_mem_treeEdges he
    exact ⟨perm.mem_iff.2 hc, perm.mem_iff.2 hd⟩
  · rw [edges]
    exact fun e he => (spanned.of_mem_treeEdges he).2
  · rw [edges, same]
    intro x c hc
    have reducible := h.reducible lists (List.ne_nil_of_mem (List.mem_toFinset.1 hc))
    exact reducible.runningIntersection _ spanned.widelyConnected x c hc

namespace JunctionTree.Joins

theorem isMaximalClique (h : t.Joins g) {c : Clique K} (hc : c ∈ t.cliques) :
    IsMaximalClique g.Adjacent g.vertices c.members := ((h.lists.mem_iff c).1 hc).2

theorem isCanonical (h : t.Joins g) {c : Clique K} (hc : c ∈ t.cliques) : c.IsCanonical :=
  ((h.lists.mem_iff c).1 hc).1

/-- A step of the tree leads between two cliques that share a member. -/
theorem of_touching (h : t.Joins g) {c d : Clique K} (step : Touching t.edges c d) :
    (c ∈ t.cliques ∧ d ∈ t.cliques) ∧ ∃ x ∈ c.members, x ∈ d.members := by
  rcases step with forth | back
  · exact ⟨h.ends _ forth, h.shares _ forth⟩
  · obtain ⟨x, xd, xc⟩ := h.shares _ back
    exact ⟨(h.ends _ back).symm, x, xc, xd⟩

/-- Two cliques that hold a vertex are connected through cliques that hold it. -/
theorem holders_connected (h : t.Joins g) {c d : Clique K} (hc : c ∈ t.cliques) (hd : d ∈ t.cliques) {x : K}
    (xc : x ∈ c.members) (xd : x ∈ d.members) : ReflTransGen (t.StepWith x) c d := by
  have way := h.holders x c (List.mem_toFinset.2 hc) d (List.mem_toFinset.2 hd) (List.mem_toFinset.2 xc)
    (List.mem_toFinset.2 xd)
  refine ReflTransGen.mono (fun a b step => ?_) _ _ way
  obtain ⟨ha, hb, touching, xa, xb⟩ := step
  exact ⟨List.mem_toFinset.1 ha, List.mem_toFinset.1 hb, touching, List.mem_toFinset.1 xa, List.mem_toFinset.1 xb⟩

/-- Cliques that share a member are joined. -/
theorem joined_of_share (h : t.Joins g) {c d : Clique K} (hc : c ∈ t.cliques) (hd : d ∈ t.cliques) {x : K}
    (xc : x ∈ c.members) (xd : x ∈ d.members) : Joined t.edges c d :=
  ReflTransGen.mono (fun _ _ step => step.2.2.1) _ _ (h.holders_connected hc hd xc xd)

/-- A complete set of vertices lies in one of the cliques. -/
theorem exists_clique [Std.Symm g.Adjacent] (h : t.Joins g) {keys : List K} (some : keys ≠ [])
    (inside : ∀ k ∈ keys, k ∈ g.vertices) (complete : Complete g.Adjacent keys) :
    ∃ c ∈ t.cliques, ∀ k ∈ keys, k ∈ c.members := by
  obtain ⟨members, maximal, within⟩ := exists_isMaximalClique some inside complete
  have same : ∀ k, k ∈ members ↔ k ∈ (Clique.ofList members).members := fun _ => Clique.mem_ofList.symm
  refine ⟨Clique.ofList members, (h.lists.mem_iff _).2 ⟨Clique.isCanonical_ofList members, maximal.congr same⟩, ?_⟩
  exact fun k hk => (same k).1 (within k hk)

/-- The cliques hold the vertices and nothing else. -/
theorem mem_vertices_iff [Std.Symm g.Adjacent] (h : t.Joins g) {k : K} :
    k ∈ g.vertices ↔ ∃ c ∈ t.cliques, k ∈ c.members := by
  constructor
  · intro hk
    have alone : Complete g.Adjacent [k] := by
      intro a ha b hb ne
      rw [List.mem_singleton.1 ha, List.mem_singleton.1 hb] at ne
      exact absurd rfl ne
    obtain ⟨c, hc, within⟩ := h.exists_clique (List.cons_ne_nil k []) (fun l hl => List.mem_singleton.1 hl ▸ hk) alone
    exact ⟨c, hc, within k List.mem_cons_self⟩
  · rintro ⟨c, hc, hk⟩
    exact (h.isMaximalClique hc).inside k hk

/-- Adjacent vertices lie in a common clique. -/
theorem exists_clique_of_adjacent [Std.Symm g.Adjacent] (h : t.Joins g) {u v : K} (adjacent : g.Adjacent u v) :
    ∃ c ∈ t.cliques, u ∈ c.members ∧ v ∈ c.members := by
  obtain ⟨i, j, hi, hj, _⟩ := adjacent.exists_linked
  have inside : ∀ k ∈ [u, v], k ∈ g.vertices := by
    intro k hk
    rcases List.mem_pair.1 hk with rfl | rfl
    · exact Arena.mem_keys_iff.2 ⟨i, hi⟩
    · exact Arena.mem_keys_iff.2 ⟨j, hj⟩
  have complete : Complete g.Adjacent [u, v] := by
    intro a ha b hb ne
    rcases List.mem_pair.1 ha with rfl | rfl <;> rcases List.mem_pair.1 hb with rfl | rfl
    · exact absurd rfl ne
    · exact adjacent
    · exact Std.Symm.symm _ _ adjacent
    · exact absurd rfl ne
  obtain ⟨c, hc, within⟩ := h.exists_clique (List.cons_ne_nil u [v]) inside complete
  exact ⟨c, hc, within u (by simp), within v (by simp)⟩

end JunctionTree.Joins
end CliqueTree
