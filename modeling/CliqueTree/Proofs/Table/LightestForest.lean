import CliqueTree.Proofs.Table.EdgeSelection
import Mathlib.Algebra.Order.BigOperators.Group.List
import Mathlib.Algebra.Order.Group.Int

/-!
# Why the selected forest is lightest

Any choice of the edges that is a forest and joins what all edges join has as many edges as the one that is selected
(`SpanningPart.length_le`). Up to each weight the selected one has at least as many, as those that it has up to there
join what all edges up to there join (`SpanningPart.countP_le`). So, in order of weight, the edges of the selected one
are edge by edge no heavier than those of the other one (`forall₂_le_of_countP_le`). The totals compare in the same way,
and they are equal only if the weights are (`spanningForest_lightest`).
-/

set_option autoImplicit false

namespace CliqueTree

/-! ### Sums and counts -/

section Sums
variable {a b : List ℤ}

/-- When up to each number there are at least as many in one list as in another, its entries are no greater. -/
theorem forall₂_le_of_countP_le (ascends : a.Pairwise (· ≤ ·)) (ascends' : b.Pairwise (· ≤ ·))
    (same : a.length = b.length) (more : ∀ w, b.countP (· ≤ w) ≤ a.countP (· ≤ w)) : List.Forall₂ (· ≤ ·) a b := by
  induction b generalizing a with
  | nil => rw [List.length_eq_zero_iff.1 same]; exact .nil
  | cons y b ih =>
    cases a with
    | nil => cases same
    | cons x a =>
      obtain ⟨least, ascends⟩ := List.pairwise_cons.1 ascends
      obtain ⟨least', ascends'⟩ := List.pairwise_cons.1 ascends'
      have head : x ≤ y := by
        have some : 0 < (x :: a).countP (· ≤ y) := by
          apply Nat.lt_of_lt_of_le _ (more y)
          simp
        obtain ⟨z, hz, small⟩ := List.countP_pos_iff.1 some
        rcases List.mem_cons.1 hz with rfl | hz
        · simpa using small
        · exact (least z hz).trans (by simpa using small)
      refine .cons head (ih ascends ascends' (Nat.succ.inj same) fun w => ?_)
      by_cases hw : y ≤ w
      · simpa [hw, head.trans hw] using more w
      · have none : b.countP (· ≤ w) = 0 := by
          rw [List.countP_eq_zero]
          intro z hz
          have := least' z hz
          simp
          omega
        rw [none]
        exact Nat.zero_le _

/-- Lists of which one is entry by entry no greater have equal sums only if they are equal. -/
theorem eq_of_sum_le (h : List.Forall₂ (· ≤ ·) a b) (sum : b.sum ≤ a.sum) : a = b := by
  induction h with
  | nil => rfl
  | cons head tail ih =>
    have rest := tail.sum_le_sum
    simp only [List.sum_cons] at sum
    obtain rfl := ih (by omega)
    congr
    omega

end Sums

/-! ### Spanning parts -/

/-- Some occurrences of the edges, in any order, that are a forest and join what all edges join. -/
structure SpanningPart (edges part : List (ℤ × Edge)) : Prop where
  subperm : part.Subperm edges
  forest : IsForest (part.map (·.2))
  joined : ∀ a b, Joined (part.map (·.2)) a b ↔ Joined (edges.map (·.2)) a b

/-- What the edges weigh together. -/
def totalWeight (edges : List (ℤ × Edge)) : ℤ := (edges.map (·.1)).sum

/-- The occurrences that are selected, in order of weight. -/
noncomputable def chosen (edges : List (ℤ × Edge)) : List (ℤ × Edge) := (newcomers (byWeight edges)).map (·.1)

section Parts
variable {n : Nat} {edges part part' : List (ℤ × Edge)}

theorem map_snd_chosen (edges : List (ℤ × Edge)) :
    (chosen edges).map (·.2) = (newcomers (byWeight edges)).map (·.1.2) := by
  rw [chosen, List.map_map]
  rfl

theorem chosen_sublist (edges : List (ℤ × Edge)) : (chosen edges).Sublist (byWeight edges) := by
  have places := (newcomers_sublist (byWeight edges)).map (·.1)
  rwa [List.zipIdx_map_fst] at places

theorem byWeight_ascends (edges : List (ℤ × Edge)) : (byWeight edges).Pairwise (·.1 ≤ ·.1) :=
  (byWeight_pairwise edges).imp Int.isLE_compare.1

theorem spanningPart_chosen (edges : List (ℤ × Edge)) : SpanningPart edges (chosen edges) := by
  have selection := selection_newcomers (byWeight edges)
  have perm := byWeight_perm edges
  rw [← map_snd_chosen] at selection
  refine ⟨(chosen_sublist edges).subperm.trans perm.subperm, selection.isForest, fun a b => ?_⟩
  rw [selection.joined_iff]
  exact ⟨.mono (perm.map _).subset, .mono (perm.map _).symm.subset⟩

/-- A forest of some of the edges is a spanning part when it joins the ends of each edge. -/
theorem SpanningPart.of_joined (subperm : part.Subperm edges) (forest : IsForest (part.map (·.2)))
    (each : ∀ e ∈ edges.map (·.2), Joined (part.map (·.2)) e.1 e.2) : SpanningPart edges part :=
  ⟨subperm, forest, fun _ _ => ⟨.mono (List.map_subset _ subperm.subset), .lift each⟩⟩

theorem SpanningPart.ends (h : SpanningPart edges part) (inside : ∀ e ∈ edges, e.2.1 < n ∧ e.2.2 < n) :
    ∀ e ∈ part.map (·.2), e.1 ∈ List.range n ∧ e.2 ∈ List.range n :=
  ends_mem_range fun e he => inside e (h.subperm.subset he)

/-- All spanning parts have the same number of edges. -/
theorem SpanningPart.length_le (h : SpanningPart edges part) (h' : SpanningPart edges part')
    (inside : ∀ e ∈ edges, e.2.1 < n ∧ e.2.2 < n) : part.length ≤ part'.length := by
  have fewer := h.forest.length_le List.nodup_range (h.ends inside) h'.forest (h'.ends inside) fun e he =>
    (h'.joined _ _).2 ((h.joined _ _).1 (.of_mem he))
  simpa using fewer

/-- An ascending list falls into what is no greater than a number and what is greater. -/
theorem exists_split {listing : List (ℤ × Edge)} (ascends : listing.Pairwise (·.1 ≤ ·.1)) (w : ℤ) :
    ∃ low high, listing = low ++ high ∧ (∀ e ∈ low, e.1 ≤ w) ∧ ∀ e ∈ high, w < e.1 := by
  induction listing with
  | nil => exact ⟨[], [], rfl, by simp, by simp⟩
  | cons e listing ih =>
    obtain ⟨least, ascends⟩ := List.pairwise_cons.1 ascends
    by_cases small : e.1 ≤ w
    · obtain ⟨low, high, rfl, below, above⟩ := ih ascends
      exact ⟨e :: low, high, rfl, List.forall_mem_cons.2 ⟨small, below⟩, above⟩
    · have great : w < e.1 := by omega
      exact ⟨[], e :: listing, rfl, by simp, List.forall_mem_cons.2 ⟨great, fun f hf => great.trans_le (least f hf)⟩⟩

/-- No forest of edges in a listing has more edges than there are newcomers in it. -/
theorem length_le_newcomers {listing : List (ℤ × Edge)} (inside : ∀ e ∈ listing, e.2.1 < n ∧ e.2.2 < n)
    {forest : List Edge} (isForest : IsForest forest) (listed : forest ⊆ listing.map (·.2)) :
    forest.length ≤ (newcomers listing).length := by
  have selection := selection_newcomers listing
  have ends := ends_mem_range inside
  have fewer := isForest.length_le List.nodup_range (fun e he => ends e (listed he)) selection.isForest
    (fun e he => ends e (selection.sublist.subset he)) fun e he => (selection.joined_iff _ _).2 (.of_mem (listed he))
  rwa [List.length_map] at fewer

/-- Up to each weight no spanning part has more edges than are chosen. -/
theorem SpanningPart.countP_le (h : SpanningPart edges part) (inside : ∀ e ∈ edges, e.2.1 < n ∧ e.2.2 < n) (w : ℤ) :
    (part.map (·.1)).countP (· ≤ w) ≤ ((chosen edges).map (·.1)).countP (· ≤ w) := by
  obtain ⟨low, high, split, below, above⟩ := exists_split (byWeight_ascends edges) w
  have inside' : ∀ e ∈ low, e.2.1 < n ∧ e.2.2 < n := fun e he =>
    inside e ((byWeight_perm edges).mem_iff.1 (split ▸ List.mem_append_left high he))
  have early : ((newcomers low).map (·.1)).Sublist (chosen edges) := by
    rw [chosen, split, newcomers_append, List.map_append]
    exact List.sublist_append_left _ _
  have light : part.filter (·.1 ≤ w) ⊆ low := by
    intro e he
    obtain ⟨member, small⟩ := List.mem_filter.1 he
    have listed : e ∈ low ++ high := split ▸ (byWeight_perm edges).mem_iff.2 (h.subperm.subset member)
    refine (List.mem_append.1 listed).resolve_right fun late => ?_
    have great := above e late
    simp at small
    omega
  rw [List.countP_map, List.countP_map]
  calc part.countP (·.1 ≤ w)
    _ = ((part.filter (·.1 ≤ w)).map (·.2)).length := by rw [List.length_map, List.countP_eq_length_filter]
    _ ≤ (newcomers low).length :=
      length_le_newcomers inside' (h.forest.subperm (List.filter_sublist.map _).subperm) (List.map_subset _ light)
    _ = ((newcomers low).map (·.1)).countP (·.1 ≤ w) := by
      rw [List.countP_eq_length.2, List.length_map]
      intro e he
      obtain ⟨⟨f, i⟩, hf, rfl⟩ := List.mem_map.1 he
      exact decide_eq_true (below f (List.mem_of_getElem? (mem_newcomers.1 hf).1))
    _ ≤ (chosen edges).countP (·.1 ≤ w) := early.countP_le

/-- In order of weight, the chosen edges are edge by edge no heavier than those of a spanning part. -/
theorem SpanningPart.forall₂_le (h : SpanningPart edges part) (inside : ∀ e ∈ edges, e.2.1 < n ∧ e.2.2 < n) :
    List.Forall₂ (· ≤ ·) ((chosen edges).map (·.1)) ((part.map (·.1)).mergeSort (· ≤ ·)) := by
  have own := spanningPart_chosen edges
  apply forall₂_le_of_countP_le
  · exact List.pairwise_map.2 ((byWeight_ascends edges).sublist (chosen_sublist edges))
  · exact List.pairwise_mergeSort' (· ≤ ·) _
  · rw [List.length_mergeSort, List.length_map, List.length_map]
    exact Nat.le_antisymm (own.length_le h inside) (h.length_le own inside)
  · intro w
    rw [(List.mergeSort_perm _ _).countP_eq]
    exact h.countP_le inside w

theorem SpanningPart.nodup_weights (h : SpanningPart edges part) (distinct : (edges.map (·.1)).Nodup) :
    (part.map (·.1)).Nodup := by
  obtain ⟨own, perm, sub⟩ := h.subperm
  exact (perm.map _).nodup (distinct.sublist (sub.map _))

/-- Where weights are distinct, the weights tell the edges. -/
theorem SpanningPart.perm_of_weights (h : SpanningPart edges part) (h' : SpanningPart edges part')
    (distinct : (edges.map (·.1)).Nodup) (same : (part.map (·.1)).Perm (part'.map (·.1))) : part.Perm part' := by
  have moved : ∀ {l l' : List (ℤ × Edge)}, l ⊆ edges → l' ⊆ edges → l.map (·.1) ⊆ l'.map (·.1) → l ⊆ l' := by
    intro l l' sub sub' weights e he
    obtain ⟨f, hf, equal⟩ := List.mem_map.1 (weights (List.mem_map_of_mem he))
    rwa [← List.inj_on_of_nodup_map distinct (sub' hf) (sub he) equal]
  rw [List.perm_ext_iff_of_nodup (h.nodup_weights distinct).of_map (h'.nodup_weights distinct).of_map]
  exact fun e => ⟨@moved part part' h.subperm.subset h'.subperm.subset same.subset e,
    @moved part' part h'.subperm.subset h.subperm.subset same.symm.subset e⟩

/-- What is selected weighs no more than any other forest of the edges that joins what all of them join, and where the
edges have different weights, no other one weighs as little. Each occurrence of an edge has a weight of its own. -/
theorem spanningForest_lightest (inside : ∀ e ∈ edges, e.2.1 < n ∧ e.2.2 < n) :
    spanningForest n edges = .ok ((chosen edges).map (·.2)) ∧ SpanningPart edges (chosen edges) ∧
      ∀ other, SpanningPart edges other → totalWeight (chosen edges) ≤ totalWeight other ∧
        ((edges.map (·.1)).Nodup → totalWeight other ≤ totalWeight (chosen edges) → other.Perm (chosen edges)) := by
  have own := spanningPart_chosen edges
  refine ⟨?_, own, fun other spans => ?_⟩
  · rw [map_snd_chosen]
    exact spanningForest_eq_newcomers inside
  · have less := spans.forall₂_le inside
    have sorted := List.mergeSort_perm (other.map (·.1)) (· ≤ ·)
    have total : totalWeight other = ((other.map (·.1)).mergeSort (· ≤ ·)).sum := sorted.sum_eq.symm
    refine ⟨total ▸ less.sum_le_sum, fun distinct light => ?_⟩
    apply spans.perm_of_weights own distinct
    rw [eq_of_sum_le less (total ▸ light)]
    exact sorted.symm

end Parts

/-- A triangle with one edge doubled, a loop, and a vertex without edges. -/
def triangleEdges : List (ℤ × Edge) := [(4, 0, 1), (3, 2, 0), (7, 0, 1), (0, 1, 1), (-1, 1, 2)]

/-- The spanning part with the heavier copy of the doubled edge weighs more, and the lightest one is what is selected. -/
theorem triangleEdges_lightest : (∀ e ∈ triangleEdges, e.2.1 < 4 ∧ e.2.2 < 4) ∧ (triangleEdges.map (·.1)).Nodup ∧
    SpanningPart triangleEdges [(7, 0, 1), (-1, 1, 2)] ∧ SpanningPart triangleEdges [(3, 2, 0), (-1, 1, 2)] ∧
    spanningForest 4 triangleEdges = .ok [(1, 2), (2, 0)] ∧
    totalWeight (chosen triangleEdges) ≤ totalWeight [(7, 0, 1), (-1, 1, 2)] ∧
    totalWeight [(3, 2, 0), (-1, 1, 2)] ≤ totalWeight (chosen triangleEdges) ∧
    [(3, 2, 0), (-1, 1, 2)].Perm (chosen triangleEdges) := by
  have inside : ∀ e ∈ triangleEdges, e.2.1 < 4 ∧ e.2.2 < 4 := by decide
  have distinct : (triangleEdges.map (·.1)).Nodup := by decide
  have run : spanningForest 4 triangleEdges = .ok [(1, 2), (2, 0)] := by cbv
  obtain ⟨result, own, least⟩ := spanningForest_lightest inside
  have named := Except.ok.inj (result.symm.trans run)
  have heavy : SpanningPart triangleEdges [(7, 0, 1), (-1, 1, 2)] := by
    apply SpanningPart.of_joined (by decide)
    · apply (IsForest.nil.concat (e := (0, 1)) fun way => ?_).concat (e := (1, 2)) fun way => ?_
      · exact absurd (way.closed (P := (· = 0)) (by decide) rfl) (by decide)
      · exact absurd (way.closed (P := (· < 2)) (by decide) (by decide)) (by decide)
    · have first : Joined [(0, 1), (1, 2)] 0 1 := .of_mem (e := (0, 1)) (by decide)
      have second : Joined [(0, 1), (1, 2)] 1 2 := .of_mem (e := (1, 2)) (by decide)
      simpa [triangleEdges] using ⟨first, (first.trans second).symm, first, Joined.refl _ 1, second⟩
  have light : SpanningPart triangleEdges [(3, 2, 0), (-1, 1, 2)] := by
    apply SpanningPart.of_joined (by decide)
    · apply (IsForest.nil.concat (e := (2, 0)) fun way => ?_).concat (e := (1, 2)) fun way => ?_
      · exact absurd (way.closed (P := (· = 2)) (by decide) rfl) (by decide)
      · exact absurd (way.symm.closed (P := (· ≠ 1)) (by decide) (by decide)) (by decide)
    · have first : Joined [(2, 0), (1, 2)] 2 0 := .of_mem (e := (2, 0)) (by decide)
      have second : Joined [(2, 0), (1, 2)] 1 2 := .of_mem (e := (1, 2)) (by decide)
      have third := (second.trans first).symm
      simpa [triangleEdges] using ⟨third, first, third, Joined.refl _ 1, second⟩
  have weighs : totalWeight [(3, 2, 0), (-1, 1, 2)] ≤ totalWeight (chosen triangleEdges) := by
    obtain ⟨e, rest, split, first, named⟩ := List.map_eq_cons_iff.1 named
    obtain ⟨f, rest, rfl, second, named⟩ := List.map_eq_cons_iff.1 named
    obtain rfl := List.map_eq_nil_iff.1 named
    have members := own.subperm.subset
    rw [split] at members ⊢
    have lower : ∀ e ∈ triangleEdges, (e.2 = (1, 2) → -1 ≤ e.1) ∧ (e.2 = (2, 0) → 3 ≤ e.1) := by decide
    have low := (lower e (members (by simp))).1 first
    have high := (lower f (members (by simp))).2 second
    simp only [totalWeight, List.map_cons, List.map_nil, List.sum_cons, List.sum_nil]
    omega
  exact ⟨inside, distinct, heavy, light, run, (least _ heavy).1, weighs, (least _ light).2 distinct weighs⟩

end CliqueTree
