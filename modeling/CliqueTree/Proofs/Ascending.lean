import CliqueTree.Ascending
import CliqueTree.Key.Clique
import Mathlib.Data.Finset.Dedup
import Mathlib.Data.Finset.Card

/-!
# Sets as ascending lists

Among ascending lists the elements determine the list (`IsAscending.ext`), so `ascending` is a normal form.
On them the tests by halving are exact: `bisect` is membership, `isSubset` is inclusion, the walk of `common` finds
the elements of both lists, and the overlap of two cliques counts what they share.
-/

set_option autoImplicit false

namespace CliqueTree

section Lists
variable {α : Type} [Ord α] {a : α} {l m : List α}

theorem isLE_or_isLE [Std.OrientedOrd α] (a b : α) : ((compare a b).isLE || (compare b a).isLE) = true := by
  rw [Bool.or_eq_true, Std.OrientedOrd.eq_swap (a := b) (b := a)]
  cases compare a b <;> simp [Ordering.isLE, Ordering.swap]

theorem IsAscending.nodup [Std.ReflOrd α] (h : IsAscending l) : l.Nodup := by
  refine List.Pairwise.imp (fun less => ?_) h
  rintro rfl
  rw [Std.ReflOrd.compare_self] at less
  cases less

/-- When the second part of an ascending list starts above `a`, `a` is not in it. -/
theorem IsAscending.notMem_of_startsAbove [Std.ReflOrd α] (h : IsAscending l) (above : startsAbove a l = true) :
    a ∉ l := by
  cases l with
  | nil => exact List.not_mem_nil
  | cons b rest =>
    have more : compare b a = .gt := by simpa [startsAbove] using above
    intro member
    rcases List.mem_cons.1 member with rfl | later
    · rw [Std.ReflOrd.compare_self] at more
      cases more
    · rw [(List.pairwise_cons.1 h).1 a later] at more
      cases more

/-- When it does not, `a` is not in the first part. -/
theorem IsAscending.notMem_of_not_startsAbove [Std.OrientedOrd α] {first second : List α}
    (h : IsAscending (first ++ second)) (some : second ≠ []) (below : ¬ startsAbove a second = true) : a ∉ first := by
  cases second with
  | nil => exact absurd rfl some
  | cons b rest =>
    intro member
    have less := (List.pairwise_append.1 h).2.2 a member b List.mem_cons_self
    apply below
    rw [startsAbove, Std.OrientedOrd.eq_swap, less]
    rfl

/-- The walk leaves out elements and moves none. -/
theorem common_sublist (l m : List α) : (common l m).Sublist l := by
  induction l, m using common.induct with
  | case1 b l c m less ih =>
    rw [common, less]
    exact ih.cons b
  | case2 b l c m more ih =>
    rw [common, more]
    exact ih
  | case3 b l c m same ih =>
    rw [common, same]
    exact ih.cons_cons b
  | case4 l m none =>
    cases l with
    | nil => simp [common]
    | cons b l =>
      cases m with
      | nil => simp [common]
      | cons c m => exact (none b l c m rfl rfl).elim

theorem IsAscending.common (hl : IsAscending l) (m : List α) : IsAscending (common l m) :=
  hl.sublist (common_sublist l m)

variable [Std.TransOrd α] [Std.LawfulEqOrd α]

/-- An ascending list is determined by its elements. -/
theorem IsAscending.ext (hl : IsAscending l) (hm : IsAscending m) (same : ∀ a, a ∈ l ↔ a ∈ m) : l = m := by
  have perm : l.Perm m := (List.perm_ext_iff_of_nodup hl.nodup hm.nodup).2 same
  refine perm.eq_of_pairwise (fun a b _ _ less more => ?_) hl hm
  rw [Std.OrientedOrd.eq_swap, more] at less
  cases less

theorem ascending_eq_self (h : IsAscending l) : ascending l = l :=
  (isAscending_ascending l).ext h fun _ => mem_ascending

theorem ascending_eq_iff : ascending l = ascending m ↔ ∀ a, a ∈ l ↔ a ∈ m := by
  constructor
  · intro same a
    rw [← mem_ascending (l := l), same, mem_ascending]
  · intro same
    apply (isAscending_ascending l).ext (isAscending_ascending m)
    intro a
    rw [mem_ascending, mem_ascending, same]

/-- Halving an ascending list finds just its elements. -/
theorem bisect_iff (h : IsAscending l) : bisect a l = true ↔ a ∈ l := by
  induction size : l.length using Nat.strong_induction_on generalizing l with
  | _ size ih =>
    subst size
    unfold bisect
    split
    next none => simp [List.length_eq_zero_iff.1 none]
    next one =>
      obtain ⟨b, rfl⟩ := List.length_eq_one_iff.1 one
      rw [List.any_cons, List.any_nil, Bool.or_false, beq_iff_eq, Std.LawfulEqOrd.compare_eq_iff_eq,
        List.mem_singleton, eq_comm]
    next n more =>
      let half := (n + 2) / 2
      have parts : l.take half ++ l.drop half = l := List.take_append_drop half l
      have second : IsAscending (l.drop half) := h.sublist (List.drop_sublist half l)
      have first : IsAscending (l.take (n + 2 - half)) := h.sublist (List.take_sublist _ l)
      by_cases above : startsAbove a (l.drop half) = true
      · have absent := second.notMem_of_startsAbove above
        rw [if_pos above, ih _ (by rw [List.length_take]; omega) first rfl]
        constructor
        · exact List.mem_of_mem_take
        · intro member
          rw [← parts] at member
          have early := (List.mem_append.1 member).resolve_right absent
          exact (List.take_sublist_take_left (by omega)).subset early
      · have some : l.drop half ≠ [] := by
          intro none
          have := List.drop_eq_nil_iff.1 none
          omega
        have absent := IsAscending.notMem_of_not_startsAbove (parts.symm ▸ h) some above
        rw [if_neg above, ih _ (by rw [List.length_drop]; omega) second rfl]
        constructor
        · exact List.mem_of_mem_drop
        · intro member
          rw [← parts] at member
          exact (List.mem_append.1 member).resolve_left absent

theorem IsAscending.notMem_of_lt {b : α} (h : IsAscending (b :: m)) (less : compare a b = .lt) : a ∉ b :: m := by
  apply h.notMem_of_startsAbove
  rw [startsAbove, Std.OrientedCmp.gt_of_lt less]
  rfl

/-- A walk through two ascending lists keeps just what is in both: what it passes by is less than all that the other
list still has. -/
theorem mem_common (hl : IsAscending l) (hm : IsAscending m) : a ∈ common l m ↔ a ∈ l ∧ a ∈ m := by
  induction l, m using common.induct with
  | case1 b l c m less ih =>
    have passed : b ∉ c :: m := hm.notMem_of_lt less
    rw [common, less]
    show a ∈ common l (c :: m) ↔ _
    rw [ih (List.pairwise_cons.1 hl).2 hm, List.mem_cons (b := b)]
    constructor
    · exact fun ⟨first, second⟩ => ⟨.inr first, second⟩
    · rintro ⟨rfl | first, second⟩
      · exact absurd second passed
      · exact ⟨first, second⟩
  | case2 b l c m more ih =>
    have passed : c ∉ b :: l := hl.notMem_of_lt (Std.OrientedCmp.lt_of_gt more)
    rw [common, more]
    show a ∈ common (b :: l) m ↔ _
    rw [ih hl (List.pairwise_cons.1 hm).2, List.mem_cons (b := c)]
    constructor
    · exact fun ⟨first, second⟩ => ⟨first, .inr second⟩
    · rintro ⟨first, rfl | second⟩
      · exact absurd first passed
      · exact ⟨first, second⟩
  | case3 b l c m same ih =>
    obtain rfl := Std.LawfulEqOrd.eq_of_compare same
    rw [common, same]
    show a ∈ b :: common l m ↔ _
    rw [List.mem_cons, List.mem_cons, List.mem_cons, ih (List.pairwise_cons.1 hl).2 (List.pairwise_cons.1 hm).2,
      or_and_left]
  | case4 l m none =>
    cases l with
    | nil => simp [common]
    | cons b l =>
      cases m with
      | nil => simp [common]
      | cons c m => exact (none b l c m rfl rfl).elim

theorem isSubset_iff (hl : IsAscending l) (hm : IsAscending m) : isSubset l m = true ↔ ∀ a ∈ l, a ∈ m := by
  simp only [isSubset, Bool.and_eq_true, decide_eq_true_eq, List.all_eq_true, bisect_iff hm]
  exact ⟨fun h => h.2, fun h => ⟨hl.nodup.length_le_of_subset h, h⟩⟩

end Lists

namespace Clique
variable {K : Type} [VertexKey K]

/-- The members are listed in ascending order. -/
def IsCanonical (c : Clique K) : Prop := IsAscending c.members

theorem isCanonical_ofList (keys : List K) : (ofList keys).IsCanonical := isAscending_ascending keys

theorem mem_ofList {k : K} {keys : List K} : k ∈ (ofList keys).members ↔ k ∈ keys := mem_ascending

theorem ofList_eq_iff {keys keys' : List K} : ofList keys = ofList keys' ↔ ∀ k, k ∈ keys ↔ k ∈ keys' := by
  rw [← ascending_eq_iff, ofList, ofList, Clique.mk.injEq]

theorem ofList_members {c : Clique K} (h : c.IsCanonical) : ofList c.members = c :=
  Clique.ext (ascending_eq_self h)

theorem contains_iff {c : Clique K} (h : c.IsCanonical) {k : K} : c.contains k = true ↔ k ∈ c.members :=
  bisect_iff h

/-- The overlap counts the members that two cliques share. -/
theorem overlap_eq_card {c d : Clique K} (hc : c.IsCanonical) (hd : d.IsCanonical) :
    c.overlap d = (c.members.toFinset ∩ d.members.toFinset).card := by
  have shared : c.members.toFinset ∩ d.members.toFinset = (c.members.filter (d.contains ·)).toFinset := by
    ext k
    simp [contains_iff hd]
  rw [shared, List.toFinset_card_of_nodup (hc.nodup.filter _), overlap, List.countP_eq_length_filter]

theorem mem_shared {c d : Clique K} (hc : c.IsCanonical) (hd : d.IsCanonical) {k : K} :
    k ∈ c.shared d ↔ k ∈ c.members ∧ k ∈ d.members := mem_common hc hd

theorem overlap_pos_iff {c d : Clique K} (hd : d.IsCanonical) :
    0 < c.overlap d ↔ ∃ k ∈ c.members, k ∈ d.members := by
  simp only [overlap, List.countP_pos_iff, contains_iff hd]

end Clique
end CliqueTree
