import CliqueTree.Proofs.Key.Arena
import CliqueTree.Proofs.Table.Core

/-!
# Reading rows off an edge list

A graph holds its edges twice, as a list and in rows. What a row lists can be read off the list: the parents of a
vertex are the sources of the edges into it (`Rows.get_parentsOf`), its neighbours are the other ends of the edges at
it, a loop giving two (`Rows.get_adjacencyOf`), both in the order of the edges. An undirected edge reads as its two
directions, and so what is counted of sources is counted of children and of neighbours (`count_targets`,
`count_incidences`). The readings say the same of ids and of the keys that stand for them.
-/

set_option autoImplicit false

namespace CliqueTree

section Readings
variable {α : Type}

/-- Every edge in both directions. -/
def bothWays (edges : List (α × α)) : List (α × α) := edges.flatMap fun e => [e.swap, e]

theorem bothWays_cons (e : α × α) (edges : List (α × α)) : bothWays (e :: edges) = [e.swap, e] ++ bothWays edges := rfl

theorem mem_bothWays {edges : List (α × α)} {e : α × α} : e ∈ bothWays edges ↔ e ∈ edges ∨ e.swap ∈ edges := by
  obtain ⟨a, b⟩ := e
  simp only [bothWays, List.mem_flatMap, List.mem_pair]
  constructor
  · rintro ⟨d, hd, same | same⟩
    · exact .inr (by rwa [same, Prod.swap_swap])
    · exact .inl (by rwa [same])
  · rintro (forth | back)
    · exact ⟨_, forth, .inr rfl⟩
    · exact ⟨_, back, .inl rfl⟩

variable [DecidableEq α]

/-- The sources of the edges into `v`, in the order of the edges. -/
def sources (edges : List (α × α)) (v : α) : List α := (edges.filter (·.2 = v)).map (·.1)

/-- The targets of the edges out of `v`, in the order of the edges. -/
def targets (edges : List (α × α)) (v : α) : List α := (edges.filter (·.1 = v)).map (·.2)

/-- What stands at the other end of the edges at `v`, in the order of the edges; a loop has two ends at `v`. -/
def incidences (edges : List (α × α)) (v : α) : List α :=
  edges.flatMap fun e => (if e.1 = v then [e.2] else []) ++ if e.2 = v then [e.1] else []

variable (edges : List (α × α)) (u v : α)

theorem sources_append (more : List (α × α)) : sources (edges ++ more) v = sources edges v ++ sources more v := by
  simp [sources]

theorem targets_eq : targets edges v = sources (edges.map Prod.swap) v := by
  simp [targets, sources, List.filter_map, Function.comp_def]

theorem incidences_eq : incidences edges v = sources (bothWays edges) v := by
  induction edges with
  | nil => rfl
  | cons e edges ih =>
    rw [bothWays_cons, sources_append, ← ih, incidences, List.flatMap_cons, ← incidences]
    refine congrArg (· ++ incidences edges v) ?_
    by_cases first : e.1 = v <;> by_cases second : e.2 = v <;> simp [sources, first, second]

theorem count_sources : (sources edges v).count u = edges.count (u, v) := by
  induction edges with
  | nil => rfl
  | cons e edges ih =>
    obtain ⟨a, b⟩ := e
    rw [List.count_cons, ← ih]
    by_cases into : b = v <;> simp [sources, List.count_cons, into]

variable {edges u v} in
theorem mem_sources : u ∈ sources edges v ↔ (u, v) ∈ edges := by
  rw [← List.count_pos_iff, count_sources, List.count_pos_iff]

theorem count_map_swap : (edges.map Prod.swap).count (u, v) = edges.count (v, u) :=
  List.count_map_of_injective edges Prod.swap Prod.swap_injective (v, u)

theorem count_targets : (targets edges u).count v = edges.count (u, v) := by
  rw [targets_eq, count_sources, count_map_swap]

theorem count_bothWays : (bothWays edges).count (u, v) = edges.count (u, v) + edges.count (v, u) := by
  induction edges with
  | nil => rfl
  | cons e edges ih =>
    have swapped : (e.swap == (u, v)) = (e == (v, u)) := by
      obtain ⟨a, b⟩ := e
      simp [and_comm]
    rw [bothWays_cons, List.count_append, ih]
    simp only [List.count_cons, List.count_nil, swapped]
    omega

/-- An edge gives one neighbour at each of its ends. -/
theorem count_incidences : (incidences edges u).count v = edges.count (u, v) + edges.count (v, u) := by
  rw [incidences_eq, count_sources, count_bothWays, Nat.add_comm]

theorem mem_incidences : v ∈ incidences edges u ↔ Touching edges u v := by
  rw [← List.count_pos_iff, count_incidences, Touching, ← List.count_pos_iff, ← List.count_pos_iff]
  omega

end Readings

namespace Rows
variable {n : Nat} {es : List Edge}

theorem get_add_eq_sources {r : Rows} {e : Edge} (inside : e.2 < r.size) (v : Nat) :
    (r.add e.2 e.1).get v = r.get v ++ sources [e] v := by
  rw [get_add]
  by_cases into : e.2 = v
  · rw [if_pos ⟨into, into ▸ inside⟩]
    simp [sources, into]
  · rw [if_neg fun h => into h.1]
    simp [sources, into]

/-- The parents that a list of edges gives are the sources of the edges. -/
theorem get_parentsOf (inside : ∀ e ∈ es, e.2 < n) (v : Nat) : (parentsOf n es).get v = sources es v := by
  induction es using List.reverseRecOn with
  | nil => exact get_blank n v
  | append_singleton es e ih =>
    have last : e.2 < (parentsOf n es).size := lt_of_lt_of_eq (inside e (by simp)) (size_parentsOf n es).symm
    rw [parentsOf_concat, get_add_eq_sources last, ih fun d hd => inside d (List.mem_append_left [e] hd), sources_append]

theorem adjacencyOf_concat (n : Nat) (es : List Edge) (e : Edge) :
    adjacencyOf n (es ++ [e]) = NeighbourLinks.link (adjacencyOf n es) e.1 e.2 := List.foldl_concat _ _ e es

/-- Undirected edges are taken up as their two directions. -/
theorem adjacencyOf_eq (n : Nat) (es : List Edge) : adjacencyOf n es = parentsOf n (bothWays es) := by
  induction es using List.reverseRecOn with
  | nil => rfl
  | append_singleton es e ih =>
    rw [bothWays, List.flatMap_append, ← bothWays, adjacencyOf_concat, ih, parentsOf, parentsOf, List.foldl_append]
    rfl

/-- The neighbours that a list of edges gives are the other ends of the edges. -/
theorem get_adjacencyOf (inside : ∀ e ∈ es, e.1 < n ∧ e.2 < n) (v : Nat) :
    (adjacencyOf n es).get v = incidences es v := by
  rw [adjacencyOf_eq, incidences_eq]
  refine get_parentsOf (fun e he => ?_) v
  rcases mem_bothWays.1 he with forth | back
  · exact (inside e forth).2
  · exact (inside e.swap back).1

end Rows

namespace Arena
variable {K : Type}

theorem edge?_swap (a : Arena K) (e : Edge) : a.edge? e.swap = (a.edge? e).map Prod.swap := by
  cases first : a.key? e.1 <;> cases second : a.key? e.2 <;> simp [edge?, first, second]

variable [VertexKey K] {a : Arena K} {es : List Edge} {i : Nat} {k : K}

/-- The keys of the sources are the sources of the edges between keys. -/
theorem keysOf_sources (inside : ∀ e ∈ es, e.1 < a.size ∧ e.2 < a.size) (hi : a.key? i = some k) :
    a.keysOf (sources es i) = sources (es.filterMap a.edge?) k := by
  induction es with
  | nil => rfl
  | cons e es ih =>
    obtain ⟨⟨h1, h2⟩, inside⟩ := List.forall_mem_cons.1 inside
    obtain ⟨x, hx⟩ := exists_key? h1
    obtain ⟨y, hy⟩ := exists_key? h2
    have named : a.edge? e = some (x, y) := by simp [edge?, hx, hy]
    have same : e.2 = i ↔ y = k := by
      constructor
      · rintro rfl
        exact Option.some.inj (hy.symm.trans hi)
      · rintro rfl
        exact key?_inj hy hi
    have ih := ih inside
    simp only [sources, keysOf] at ih ⊢
    rw [List.filterMap_cons_some named]
    by_cases into : e.2 = i
    · simp [into, same.1 into, hx, ih]
    · simp [into, mt same.2 into, ih]

theorem keysOf_targets (inside : ∀ e ∈ es, e.1 < a.size ∧ e.2 < a.size) (hi : a.key? i = some k) :
    a.keysOf (targets es i) = targets (es.filterMap a.edge?) k := by
  have swapped : (es.map Prod.swap).filterMap a.edge? = (es.filterMap a.edge?).map Prod.swap := by
    rw [List.filterMap_map, List.map_filterMap]
    exact List.filterMap_congr fun e _ => a.edge?_swap e
  rw [targets_eq, targets_eq, ← swapped]
  exact keysOf_sources (List.forall_mem_map.2 fun e he => (inside e he).symm) hi

theorem keysOf_incidences (inside : ∀ e ∈ es, e.1 < a.size ∧ e.2 < a.size) (hi : a.key? i = some k) :
    a.keysOf (incidences es i) = incidences (es.filterMap a.edge?) k := by
  have ways : ∀ es, (bothWays es).filterMap a.edge? = bothWays (es.filterMap a.edge?) := by
    intro es
    induction es with
    | nil => rfl
    | cons e es ih =>
      rw [bothWays_cons, List.filterMap_append, ih]
      cases named : a.edge? e <;> simp [named, edge?_swap, bothWays_cons]
  rw [incidences_eq, incidences_eq, ← ways]
  refine keysOf_sources (fun e he => ?_) hi
  rcases mem_bothWays.1 he with forth | back
  · exact inside e forth
  · exact (inside e.swap back).symm

end Arena
end CliqueTree
