import CliqueTree.Proofs.Ascending
import Mathlib.Data.List.Destutter

/-!
# The algebra of cliques

What a clique is, what two cliques share, how many members that is, whether one is inside the other and whether a key is
inside are found in different ways: by sorting, by a walk through both lists, by halving for each member, by halving after
a look at the lengths. On cliques of lists of keys all of them are about the sets of these keys (`ofList_algebra`). The
link between the ways is that the walk keeps what halving finds (`common_eq_filter`).
-/

set_option autoImplicit false

namespace CliqueTree

/-- Leaving out what equals its neighbour loses no element. -/
theorem mem_destutter_iff {α : Type} [DecidableEq α] {a : α} {l : List α} : a ∈ l.destutter (· ≠ ·) ↔ a ∈ l := by
  have from_first : ∀ (l : List α) (b : α), a ∈ l.destutter' (· ≠ ·) b ↔ a ∈ b :: l := by
    intro l
    induction l with
    | nil => simp
    | cons c l ih =>
      intro b
      by_cases same : b = c
      · rw [List.destutter'_cons_neg _ (not_not.2 same), ih, same]
        simp
      · rw [List.destutter'_cons_pos _ same, List.mem_cons, ih, ← List.mem_cons]
  cases l with
  | nil => rfl
  | cons b l => exact from_first l b

section Lists
variable {α : Type} [Ord α] {l m : List α}

/-- The list in order, without what equals the element before it. -/
def sortDedup [DecidableEq α] (l : List α) : List α :=
  (l.mergeSort fun a b => (compare a b).isLE).destutter (· ≠ ·)

theorem mem_sortDedup [DecidableEq α] {a : α} : a ∈ sortDedup l ↔ a ∈ l := by
  rw [sortDedup, mem_destutter_iff, List.mem_mergeSort]

variable [Std.TransOrd α] [Std.LawfulEqOrd α]

/-- In order and without equal neighbours a list ascends. -/
theorem isAscending_sortDedup [DecidableEq α] (l : List α) : IsAscending (sortDedup l) := by
  have ordered : (l.mergeSort fun a b => (compare a b).isLE).Pairwise fun a b => (compare a b).isLE = true := by
    apply List.pairwise_mergeSort
    · intro a b c
      exact Std.TransOrd.isLE_trans
    · exact isLE_or_isLE
  have kept : (sortDedup l).IsChain fun a b => (compare a b).isLE = true :=
    (ordered.sublist (List.destutter_sublist _ _)).isChain
  have apart : (sortDedup l).IsChain (· ≠ ·) := List.isChain_destutter _ _
  have rises : (sortDedup l).IsChain fun a b => compare a b = .lt := by
    rw [List.isChain_iff_forall_rel_of_append_cons_cons] at kept apart ⊢
    intro a b before after split
    have le := kept split
    cases found : compare a b with
    | lt => rfl
    | eq => exact absurd (Std.LawfulEqOrd.compare_eq_iff_eq.1 found) (apart split)
    | gt => simp [found] at le
  have : IsTrans α fun a b => compare a b = .lt := ⟨fun _ _ _ => Std.TransCmp.lt_trans⟩
  exact List.isChain_iff_pairwise.1 rises

/-- Sorting and leaving out equal neighbours comes to inserting each element where it belongs. -/
theorem ascending_eq_sortDedup [DecidableEq α] (l : List α) : ascending l = sortDedup l :=
  (isAscending_ascending l).ext (isAscending_sortDedup l) fun _ => by rw [mem_ascending, mem_sortDedup]

/-- A walk through two ascending lists keeps what halving finds in the second one. -/
theorem common_eq_filter (hl : IsAscending l) (hm : IsAscending m) : common l m = l.filter (bisect · m) := by
  apply (hl.common m).ext (hl.sublist List.filter_sublist)
  intro a
  rw [mem_common hl hm, List.mem_filter, bisect_iff hm]

theorem common_comm (hl : IsAscending l) (hm : IsAscending m) : common l m = common m l := by
  apply (hl.common m).ext (hm.common l)
  intro a
  rw [mem_common hl hm, mem_common hm hl, and_comm]

theorem common_eq_left_iff (hl : IsAscending l) (hm : IsAscending m) : common l m = l ↔ ∀ a ∈ l, a ∈ m := by
  simp only [common_eq_filter hl hm, List.filter_eq_self, bisect_iff hm]

end Lists

namespace Clique
variable {K : Type} [VertexKey K] {c d : Clique K}

theorem overlap_eq_length (hc : c.IsCanonical) (hd : d.IsCanonical) : c.overlap d = (c.shared d).length := by
  rw [shared, common_eq_filter hc hd, ← List.countP_eq_length_filter]
  rfl

/-- **The algebra of cliques.** For any lists of keys: the members of a clique are its list sorted and without repeats,
so two cliques are equal, and compare as equal, if and only if their lists have the same keys; a clique contains the keys
of its list; what two cliques share is what their lists share, in ascending order and in whichever order they are taken,
and the overlap counts it; and one is inside the other if and only if its list is, or all of its members are shared. -/
theorem ofList_algebra (A B : List K) :
    ((ofList A).members = sortDedup A ∧ IsAscending (ofList A).members ∧ ∀ k, k ∈ (ofList A).members ↔ k ∈ A) ∧
    (ofList A = ofList B ↔ ∀ k, k ∈ A ↔ k ∈ B) ∧ (compare (ofList A) (ofList B) = .eq ↔ ∀ k, k ∈ A ↔ k ∈ B) ∧
    (∀ k, (ofList A).contains k = true ↔ k ∈ A) ∧
    (IsAscending ((ofList A).shared (ofList B)) ∧ (∀ k, k ∈ (ofList A).shared (ofList B) ↔ k ∈ A ∧ k ∈ B) ∧
      (ofList A).shared (ofList B) = (ofList B).shared (ofList A)) ∧
    ((ofList A).overlap (ofList B) = ((ofList A).shared (ofList B)).length ∧
      (ofList B).overlap (ofList A) = ((ofList A).shared (ofList B)).length) ∧
    ((ofList A).isSubset (ofList B) = true ↔ ∀ k ∈ A, k ∈ B) ∧
    ((ofList A).isSubset (ofList B) = true ↔ (ofList A).shared (ofList B) = (ofList A).members) := by
  set a := ofList A
  set b := ofList B
  have ha : a.IsCanonical := isCanonical_ofList A
  have hb : b.IsCanonical := isCanonical_ofList B
  have members : ∀ k, k ∈ a.members ↔ k ∈ A := fun k => mem_ofList
  have members' : ∀ k, k ∈ b.members ↔ k ∈ B := fun k => mem_ofList
  have shared : a.shared b = b.shared a := common_comm ha hb
  have inside : a.isSubset b = true ↔ ∀ k ∈ a.members, k ∈ b.members := isSubset_iff ha hb
  refine ⟨⟨ascending_eq_sortDedup A, ha, members⟩, ofList_eq_iff, ?_, fun k => ?_, ⟨ha.common _, fun k => ?_, shared⟩,
    ⟨overlap_eq_length ha hb, ?_⟩, ?_, ?_⟩
  · rw [Std.LawfulEqOrd.compare_eq_iff_eq, ofList_eq_iff]
  · rw [contains_iff ha, members]
  · rw [mem_shared ha hb, members, members']
  · rw [overlap_eq_length hb ha, shared]
  · simp only [inside, members, members']
  · rw [inside]
    exact (common_eq_left_iff ha hb).symm

end Clique
end CliqueTree
