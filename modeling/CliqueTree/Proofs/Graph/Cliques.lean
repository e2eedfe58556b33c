import CliqueTree.Proofs.Graph.Triangulation
import CliqueTree.Proofs.Table.Extraction

/-!
# The maximal cliques of a triangulated graph

Both passes of the extraction together list the ids of every maximal clique once, whatever order the policy of
the call chooses, for the second pass goes by the order of elimination. The maximal cliques of ids and those of
keys stand for each other (`isMaximalClique_iff`), so the same holds for the cliques of keys
(`lists_maximalCliques`).
-/

set_option autoImplicit false

namespace CliqueTree
namespace Graph
variable {K : Type} {g : Graph K} {order : List Nat}

/-- When the policy of the call has an order, both passes succeed, and together they list each maximal clique
once. -/
theorem Triangular.exists_maximalCliqueIds (h : g.Triangular order) {q : OrderPolicy} {seeds : List Nat}
    (resolved : g.resolve q = .ok seeds) : ∃ cs, g.maximalCliqueIds q = .ok cs ∧ cs.Nodup ∧
      ∀ c, c ∈ cs ↔ g.neighbourRows.MaximalIds c := by
  have inside : ∀ v ∈ seeds, v < g.neighbourRows.size := by
    intro v hv
    rw [h.size]
    exact List.mem_range.1 ((h.resolve_perm resolved).mem_iff.1 hv)
  have first := Rows.greedy_eq h.symm inside
  obtain ⟨nodup, maximal⟩ := Rows.greedy_spec h.symm first
  have perm : order.Perm (List.range g.neighbourRows.size) := by
    rw [h.size]
    exact h.perm
  obtain ⟨rest, second, once, all⟩ := Rows.missing_spec h.symm perm h.perfect nodup maximal
  refine ⟨_ ++ rest, ?_, once, all⟩
  simp [maximalCliqueIds, h.recorded, resolved, first, second, bind, Except.bind, pure, Except.pure]

variable [VertexKey K]

/-- The list holds each maximal clique once and nothing else. -/
structure ListsCliques (g : Graph K) (cliques : List (Clique K)) : Prop where
  nodup : cliques.Nodup
  mem_iff : ∀ c, c ∈ cliques ↔ c.IsCanonical ∧ IsMaximalClique g.Adjacent g.vertices c.members

/-- Maximal cliques of ids and of keys stand for each other. -/
theorem isMaximalClique_iff {ids : List Nat} {keys : List K} (insideIds : ∀ i ∈ ids, i < g.arena.size)
    (insideKeys : ∀ k ∈ keys, k ∈ g.vertices)
    (same : ∀ {i k}, g.arena.key? i = some k → (i ∈ ids ↔ k ∈ keys)) :
    IsMaximalClique g.neighbourRows.Linked g.arena.ids ids ↔ IsMaximalClique g.Adjacent g.vertices keys := by
  have named : ∀ i ∈ g.arena.ids, ∃ k, g.arena.key? i = some k := fun i hi =>
    Arena.exists_key? (List.mem_range.1 hi)
  have names : ∀ k ∈ g.vertices, ∃ i, g.arena.key? i = some k := fun k hk => Arena.mem_keys_iff.1 hk
  constructor
  · intro h
    refine h.rename (fun i k => g.arena.key? i = some k) insideKeys named (fun k hk => ?_)
      (fun hk hl => Option.some.inj (hk.symm.trans hl)) adjacent_iff same
    obtain ⟨i, hi⟩ := names k hk
    exact ⟨i, List.mem_range.2 (Arena.lt_size hi), hi⟩
  · intro h
    refine h.rename (fun k i => g.arena.key? i = some k) (fun i hi => List.mem_range.2 (insideIds i hi))
      names (fun i hi => ?_) Arena.key?_inj (fun hi hj => (adjacent_iff hi hj).symm) fun hi => (same hi).symm
    obtain ⟨k, hk⟩ := named i hi
    exact ⟨k, Arena.mem_keys_iff.2 ⟨i, hk⟩, hk⟩

/-- The clique of the keys with the given ids. -/
def cliqueOf (g : Graph K) (ids : List Nat) : Clique K := Clique.ofList (g.arena.keysOf ids)

/-- The ids of the members of a clique, in ascending order. -/
def idsOf (g : Graph K) (c : Clique K) : List Nat :=
  ascending (g.arena.ids.filter fun i => (g.arena.key? i).any (· ∈ c.members))

theorem mem_cliqueOf {ids : List Nat} {i : Nat} {k : K} (h : g.arena.key? i = some k) :
    k ∈ (g.cliqueOf ids).members ↔ i ∈ ids := by
  rw [cliqueOf, Clique.mem_ofList, Arena.mem_keysOf_iff h]

theorem mem_idsOf {c : Clique K} {i : Nat} {k : K} (h : g.arena.key? i = some k) :
    i ∈ g.idsOf c ↔ k ∈ c.members := by
  simp [idsOf, mem_ascending, h, Arena.ids, Arena.lt_size h]

theorem isAscending_idsOf (c : Clique K) : IsAscending (g.idsOf c) := isAscending_ascending _

theorem idsOf_inside (c : Clique K) : ∀ i ∈ g.idsOf c, i < g.arena.size := by
  intro i hi
  exact List.mem_range.1 (List.mem_filter.1 (mem_ascending.1 hi)).1

/-- Ascending ids and the cliques of their keys determine each other. -/
theorem idsOf_cliqueOf {ids : List Nat} (ascends : IsAscending ids) (inside : ∀ i ∈ ids, i < g.arena.size) :
    g.idsOf (g.cliqueOf ids) = ids := by
  refine (isAscending_idsOf _).ext ascends fun i => ?_
  by_cases small : i < g.arena.size
  · obtain ⟨k, hk⟩ := Arena.exists_key? small
    exact (mem_idsOf hk).trans (mem_cliqueOf hk)
  · exact ⟨fun hi => absurd (idsOf_inside _ i hi) small, fun hi => absurd (inside i hi) small⟩

theorem cliqueOf_idsOf {c : Clique K} (canonical : c.IsCanonical) (inside : ∀ k ∈ c.members, k ∈ g.vertices) :
    g.cliqueOf (g.idsOf c) = c := by
  refine Eq.trans (Clique.ofList_eq_iff.2 fun k => ?_) (Clique.ofList_members canonical)
  constructor
  · intro hk
    obtain ⟨i, hi, named⟩ := Arena.mem_keysOf.1 hk
    exact (mem_idsOf named).1 hi
  · intro hk
    obtain ⟨i, named⟩ := Arena.mem_keys_iff.1 (inside k hk)
    exact (Arena.mem_keysOf_iff named).2 ((mem_idsOf named).2 hk)

/-- A clique of keys is maximal when its ids are. -/
theorem maximalIds_iff (wf : g.WellFormed) {ids : List Nat} (ascends : IsAscending ids)
    (inside : ∀ i ∈ ids, i < g.arena.size) :
    g.neighbourRows.MaximalIds ids ↔ IsMaximalClique g.Adjacent g.vertices (g.cliqueOf ids).members := by
  have keys : ∀ k ∈ (g.cliqueOf ids).members, k ∈ g.vertices := fun k hk =>
    Arena.keysOf_subset _ _ k (Clique.mem_ofList.1 hk)
  rw [← isMaximalClique_iff inside keys fun hk => (mem_cliqueOf hk).symm, Rows.MaximalIds, Arena.ids, wf.size]
  exact ⟨fun h => h.2, fun h => ⟨ascends, h⟩⟩

/-- The maximal cliques of ids, each once, give those of keys, each once. -/
theorem lists_map_cliqueOf (wf : g.WellFormed) {ids : List (List Nat)} (nodup : ids.Nodup)
    (all : ∀ c, c ∈ ids ↔ g.neighbourRows.MaximalIds c) : g.ListsCliques (ids.map g.cliqueOf) := by
  have inside : ∀ c ∈ ids, ∀ i ∈ c, i < g.arena.size := by
    intro c hc i hi
    rw [← wf.size]
    exact List.mem_range.1 (((all c).1 hc).2.inside i hi)
  have back : ∀ c ∈ ids, g.idsOf (g.cliqueOf c) = c := fun c hc =>
    idsOf_cliqueOf ((all c).1 hc).1 (inside c hc)
  refine ⟨List.Nodup.map_on (fun c hc d hd equal => ?_) nodup, fun c => ⟨fun member => ?_, fun maximal => ?_⟩⟩
  · rw [← back c hc, equal, back d hd]
  · obtain ⟨own, hc, rfl⟩ := List.mem_map.1 member
    have maximal := (all own).1 hc
    exact ⟨Clique.isCanonical_ofList _, (maximalIds_iff wf maximal.1 (inside own hc)).1 maximal⟩
  · obtain ⟨canonical, maximal⟩ := maximal
    have forth := cliqueOf_idsOf canonical maximal.inside
    refine List.mem_map.2 ⟨g.idsOf c, (all _).2 ?_, forth⟩
    rw [maximalIds_iff wf (isAscending_idsOf c) (idsOf_inside c), forth]
    exact maximal

namespace Triangular

theorem exists_maximalCliques (h : g.Triangular order) {q : OrderPolicy} {seeds : List Nat}
    (resolved : g.resolve q = .ok seeds) : ∃ cs, g.maximalCliques q = .ok cs ∧ g.ListsCliques cs := by
  obtain ⟨ids, extracted, nodup, all⟩ := h.exists_maximalCliqueIds resolved
  refine ⟨ids.map g.cliqueOf, ?_, lists_map_cliqueOf h.toWellFormed nodup all⟩
  rw [maximalCliques, extracted]
  rfl

theorem lists_maximalCliques (h : g.Triangular order) {q : OrderPolicy} {cs : List (Clique K)}
    (extracted : g.maximalCliques q = .ok cs) : g.ListsCliques cs := by
  cases resolved : g.resolve q with
  | error e =>
    simp [maximalCliques, maximalCliqueIds, h.recorded, resolved, bind, Except.bind] at extracted
  | ok seeds =>
    obtain ⟨cs', again, lists⟩ := h.exists_maximalCliques resolved
    obtain rfl := Except.ok.inj (extracted.symm.trans again)
    exact lists

end Triangular

/-- **Extraction.** Whatever policies fill a graph in and order the extraction, the cliques that are listed are
complete, no further vertex is adjacent to all of one, every such set is listed, and none is listed twice. So
two calls list the same cliques. -/
theorem maximalCliques_exact {g : Graph K} (built : g.Built) {p : OrderPolicy} {s : Growth (Graph K)}
    (filled : g.triangulate p = .ok s) {q : OrderPolicy} {cs : List (Clique K)}
    (extracted : s.graph.maximalCliques q = .ok cs) :
    cs.Nodup ∧ (∀ c ∈ cs, c.IsCanonical ∧ IsMaximalClique s.graph.Adjacent s.graph.vertices c.members) ∧
      (∀ keys, IsMaximalClique s.graph.Adjacent s.graph.vertices keys → Clique.ofList keys ∈ cs) ∧
        ∀ q' cs', s.graph.maximalCliques q' = .ok cs' → cs'.Perm cs := by
  obtain ⟨_, _, order, _, triangular⟩ := triangulate_spec built.wellFormed.1 filled
  have lists := triangular.lists_maximalCliques extracted
  refine ⟨lists.nodup, fun c => (lists.mem_iff c).1, fun keys maximal => ?_, fun q' cs' again => ?_⟩
  · refine (lists.mem_iff _).2 ⟨Clique.isCanonical_ofList keys, ?_⟩
    exact maximal.congr fun _ => Clique.mem_ofList.symm
  · have lists' := triangular.lists_maximalCliques again
    refine (List.perm_ext_iff_of_nodup lists'.nodup lists.nodup).2 fun c => ?_
    rw [lists'.mem_iff, lists.mem_iff]

/-- Three triangles around a fourth: every vertex collects an outer one, and the second pass adds the inner
one. -/
theorem four_triangles_exact : ∃ (g : Graph Char) (s : Growth (Graph Char)) (cs : List (Clique Char)),
    Graph.ofEdges ['d', 'e', 'f', 'a', 'b', 'c'] [('a', 'd'), ('b', 'd'), ('b', 'e'), ('c', 'e'), ('c', 'f'),
      ('a', 'f'), ('a', 'b'), ('b', 'c'), ('a', 'c')] = .ok g ∧ g.triangulate .inOrder = .ok s ∧
        s.graph.maximalCliques .standard = .ok cs ∧
          cs = [⟨['a', 'b', 'd']⟩, ⟨['a', 'c', 'f']⟩, ⟨['b', 'c', 'e']⟩, ⟨['a', 'b', 'c']⟩] ∧
            cs.Nodup ∧ (∀ c ∈ cs, c.IsCanonical ∧ IsMaximalClique s.graph.Adjacent s.graph.vertices c.members) ∧
              (∀ keys, IsMaximalClique s.graph.Adjacent s.graph.vertices keys → Clique.ofList keys ∈ cs) ∧
                ∀ q' cs', s.graph.maximalCliques q' = .ok cs' → cs'.Perm cs := by
  have ran : (do
      let g ← Graph.ofEdges ['d', 'e', 'f', 'a', 'b', 'c'] [('a', 'd'), ('b', 'd'), ('b', 'e'), ('c', 'e'), ('c', 'f'),
        ('a', 'f'), ('a', 'b'), ('b', 'c'), ('a', 'c')]
      let s ← g.triangulate .inOrder
      s.graph.maximalCliques .standard) =
        .ok [⟨['a', 'b', 'd']⟩, ⟨['a', 'c', 'f']⟩, ⟨['b', 'c', 'e']⟩, ⟨['a', 'b', 'c']⟩] := by decide +kernel
  obtain ⟨g, made, ran⟩ := bind_eq_ok.1 ran
  obtain ⟨s, filled, extracted⟩ := bind_eq_ok.1 ran
  exact ⟨g, s, _, made, filled, extracted, rfl, maximalCliques_exact (.ofEdges made) filled extracted⟩

end Graph
end CliqueTree
