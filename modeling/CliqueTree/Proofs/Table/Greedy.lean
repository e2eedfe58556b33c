import CliqueTree.Proofs.Table.Extraction

/-!
# The cliques that vertices collect

A vertex goes through its row once and takes each neighbour that is linked to all it has taken so far. What it gets is
told without the run (`Rows.Collects`): a neighbour belongs to the clique exactly when it is linked to all members that
stand before it in the row. The condition can be checked entry by entry, so it determines the clique (`Collects.unique`),
and an entry that was left out misses the same member when it comes again.

The first pass lists what the vertices of an order collect, in the order of the first vertex that collects it
(`pairwise_collectedBefore`). That no clique lies inside another one is a matter of maximality alone.
-/

set_option autoImplicit false

namespace CliqueTree
namespace Rows
variable {r : Rows} {order : List Nat} {seed : Nat} {c d : List Nat}

/-- The clique that a seed collects: the seed, and of its row what is linked to each member that is the seed or stands
before it. -/
structure Collects (r : Rows) (seed : Nat) (c : List Nat) : Prop where
  ascends : IsAscending c
  seed_mem : seed ∈ c
  inside : ∀ x ∈ c, x = seed ∨ x ∈ r.get seed
  taken : ∀ before x after, r.get seed = before ++ x :: after →
    (x ∈ c ↔ ∀ y ∈ c, y ∈ seed :: before → y ≠ x → r.Linked x y)

/-- Entry by entry of the row the condition tells who belongs to the clique. -/
theorem Collects.unique (hc : r.Collects seed c) (hd : r.Collects seed d) : c = d := by
  have same : ∀ before after, r.get seed = before ++ after → ∀ x ∈ seed :: before, x ∈ c ↔ x ∈ d := by
    intro before
    induction before using List.reverseRecOn with
    | nil =>
      intro _ _ x hx
      rw [List.mem_singleton.1 hx]
      exact iff_of_true hc.seed_mem hd.seed_mem
    | append_singleton before y ih =>
      intro after split x hx
      rw [List.append_assoc, List.singleton_append] at split
      have ih := ih (y :: after) split
      rw [← List.cons_append, List.mem_append, List.mem_singleton] at hx
      rcases hx with old | rfl
      · exact ih x old
      · rw [hc.taken before x after split, hd.taken before x after split]
        exact ⟨fun all z hz early => all z ((ih z early).2 hz) early, fun all z hz early => all z ((ih z early).1 hz) early⟩
  have same := same (r.get seed) [] (List.append_nil _).symm
  refine hc.ascends.ext hd.ascends fun x => ⟨fun hx => ?_, fun hx => ?_⟩
  · exact (same x (List.mem_cons.2 (hc.inside x hx))).1 hx
  · exact (same x (List.mem_cons.2 (hd.inside x hx))).2 hx

/-- What a seed collects from its row is what it is told to collect. -/
theorem collects_greedyClique (symm : r.Symmetric) (seed : Nat) : r.Collects seed (r.greedyClique seed) := by
  have alone : Complete r.Linked [seed] := by
    intro a ha b hb ne
    rw [List.mem_singleton.1 ha, List.mem_singleton.1 hb] at ne
    exact absurd rfl ne
  obtain ⟨complete, kept, only, _⟩ := foldl_collect_spec symm (r.get seed) alone
  have mem : ∀ x, x ∈ r.greedyClique seed ↔ x ∈ (r.get seed).foldl r.collect [seed] := fun _ => mem_ascending
  refine ⟨isAscending_ascending _, (mem seed).2 (kept seed List.mem_cons_self), fun x hx => ?_, fun before x after split => ?_⟩
  · exact (only x ((mem x).1 hx)).imp_left List.mem_singleton.1
  · simp only [mem]
    refine ⟨fun hx y hy _ ne => complete x hx y hy ne.symm, fun all => ?_⟩
    -- what was collected before `x` came decides about it, and none of that is given up
    obtain ⟨early, _, from_before, _⟩ := foldl_collect_spec symm before alone
    rw [split, List.foldl_append] at all ⊢
    generalize before.foldl r.collect [seed] = clique at *
    obtain ⟨_, held, _⟩ := foldl_collect_spec symm (x :: after) early
    by_contra out
    have fits : x ∉ clique ∧ ∀ y ∈ clique, y ∈ r.get x := by
      refine ⟨fun old => out (held x old), fun y hy => all y (held y hy) ?_ fun same => out (held x (same ▸ hy))⟩
      exact List.mem_cons.2 ((from_before y hy).imp_left List.mem_singleton.1)
    obtain ⟨complete, _⟩ := foldl_collect_spec symm [x] early
    have taken : x ∈ [x].foldl r.collect clique := by
      rw [List.foldl_cons, List.foldl_nil, collect, if_pos fits]
      exact List.mem_append_right clique List.mem_cons_self
    exact out ((foldl_collect_spec symm after complete).2.1 x taken)

/-- A vertex collects one clique. -/
theorem collects_iff (symm : r.Symmetric) : r.Collects seed c ↔ c = r.greedyClique seed :=
  ⟨fun h => h.unique (collects_greedyClique symm seed), fun h => h ▸ collects_greedyClique symm seed⟩

/-- A vertex of the order collects the clique `c`, and none up to it collects `d`. -/
def CollectedBefore (r : Rows) (order : List Nat) (c d : List Nat) : Prop :=
  ∃ before v after, order = before ++ v :: after ∧ r.Collects v c ∧ ∀ u ∈ before ++ [v], ¬ r.Collects u d

/-- The cliques that an order collects stand in the order of the first vertex that collects them. -/
theorem pairwise_collectedBefore (symm : r.Symmetric) (order : List Nat) :
    (distinct (order.map r.greedyClique)).Pairwise (r.CollectedBefore order) := by
  induction order with
  | nil => exact List.Pairwise.nil
  | cons v order ih =>
    rw [List.map_cons, distinct]
    refine List.pairwise_cons.2 ⟨fun d hd => ?_, (ih.filter _).imp_of_mem fun {c d} hc hd first => ?_⟩
    · refine ⟨[], v, order, rfl, collects_greedyClique symm v, fun u hu => ?_⟩
      rw [List.mem_singleton.1 hu, collects_iff symm]
      exact of_decide_eq_true (List.mem_filter.1 hd).2
    · obtain ⟨before, w, after, split, collected, none⟩ := first
      refine ⟨v :: before, w, after, by rw [split, List.cons_append], collected, ?_⟩
      refine List.forall_mem_cons.2 ⟨?_, none⟩
      rw [collects_iff symm]
      exact of_decide_eq_true (List.mem_filter.1 hd).2

/-- **Greedy extraction.** On symmetric rows, chordal or not, the first pass never fails on ids that have rows. It lists
maximal cliques, each once and none inside another one, and each id of the order lies in one of them. The listed cliques are
those that the vertices of the order collect, in the order of the first vertex that collects them. -/
theorem greedy_collects (symm : r.Symmetric) (inside : ∀ v ∈ order, v < r.size) :
    ∃ found, r.greedy order = .ok found ∧ (∀ c ∈ found, r.MaximalIds c) ∧ found.Nodup ∧
      (∀ c ∈ found, ∀ d ∈ found, (∀ a ∈ c, a ∈ d) → c = d) ∧ (∀ v ∈ order, ∃ c ∈ found, v ∈ c) ∧
      (∀ c, c ∈ found ↔ ∃ v ∈ order, r.Collects v c) ∧ found.Pairwise (r.CollectedBefore order) := by
  have ran := greedy_eq symm inside
  obtain ⟨nodup, maximal⟩ := greedy_spec symm ran
  have collected : ∀ c, c ∈ distinct (order.map r.greedyClique) ↔ ∃ v ∈ order, r.Collects v c := by
    intro c
    rw [mem_distinct, List.mem_map]
    simp only [collects_iff symm, eq_comm]
  refine ⟨_, ran, maximal, nodup, fun c hc d hd sub => (maximal c hc).eq_of_subset (maximal d hd) sub,
    fun v hv => ?_, collected, pairwise_collectedBefore symm order⟩
  have own := collects_greedyClique symm v
  exact ⟨_, (collected _).2 ⟨v, hv, own⟩, own.seed_mem⟩

/-- The rows of a square with a triangle on one of its sides, which is doubled, and a loop. -/
def gableRows : Rows :=
  ([(1, 2), (0, 1), (0, 3), (0, 1), (2, 3), (1, 1), (0, 4), (1, 4)] : List Edge).foldl
    (fun r e => NeighbourLinks.link r e.1 e.2) (blank 5)

/-- Both ends of the doubled edge collect the triangle, and the side from 2 to 3 is collected by neither of its ends. -/
theorem gableRows_collects : gableRows.Symmetric ∧ (∀ v ∈ [4, 2, 3, 0, 2], v < gableRows.size) ∧
    gableRows.greedy [4, 2, 3, 0, 2] = .ok [[0, 1, 4], [1, 2], [0, 3]] ∧
      [[0, 1, 4], [1, 2], [0, 3]].Pairwise (gableRows.CollectedBefore [4, 2, 3, 0, 2]) := by
  have symm : gableRows.Symmetric := (linked_foldl_link_blank (by decide)).2.1
  have inside : ∀ v ∈ [4, 2, 3, 0, 2], v < gableRows.size := by decide
  have run : gableRows.greedy [4, 2, 3, 0, 2] = .ok [[0, 1, 4], [1, 2], [0, 3]] := by rfl
  obtain ⟨found, ran, _, _, _, _, _, first⟩ := greedy_collects symm inside
  obtain rfl := Except.ok.inj (ran.symm.trans run)
  exact ⟨symm, inside, run, first⟩

end Rows
end CliqueTree
