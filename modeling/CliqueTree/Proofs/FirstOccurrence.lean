import CliqueTree.Distinct
import Mathlib.Data.List.Nodup

/-!
# First occurrences

`distinct` keeps the entries of a list where they first occur, and so it keeps the order of their places
(`pairwise_idxOf_distinct`). Along a list it takes in what is new (`distinct_append`, `distinct_concat`).

Of a list of edges the ends are looked through edge by edge, and of an edge the first end comes first. `FirstEnd` tells
what such a search stops at.
-/

set_option autoImplicit false

namespace CliqueTree

section Distinct
variable {α : Type} [DecidableEq α] {l : List α}

theorem distinct_eq_self (nodup : l.Nodup) : distinct l = l := by
  induction l with
  | nil => rfl
  | cons a l ih =>
    obtain ⟨fresh, nodup⟩ := List.nodup_cons.1 nodup
    rw [distinct, ih nodup, List.filter_eq_self.2]
    intro b hb
    rw [decide_eq_true_eq]
    rintro rfl
    exact fresh hb

theorem distinct_append (l m : List α) : distinct (l ++ m) = distinct l ++ (distinct m).filter (· ∉ l) := by
  induction l with
  | nil => simp [distinct]
  | cons a l ih =>
    rw [List.cons_append, distinct, distinct, ih, List.filter_append, List.filter_filter, List.cons_append]
    congr 3
    funext x
    simp [not_or]

theorem distinct_concat (l : List α) (a : α) :
    distinct (l ++ [a]) = if a ∈ l then distinct l else distinct l ++ [a] := by
  rw [distinct_append, distinct, distinct, List.filter_nil]
  split <;> simp [*]

/-- Without its repeats a list keeps the order of the first occurrences. -/
theorem pairwise_idxOf_distinct (l : List α) : (distinct l).Pairwise fun a b => l.idxOf a < l.idxOf b := by
  induction l with
  | nil => exact .nil
  | cons a l ih =>
    have behind : ∀ b ∈ (distinct l).filter (· ≠ a), (a :: l).idxOf b = l.idxOf b + 1 := fun b hb =>
      List.idxOf_cons_ne l (of_decide_eq_true (List.mem_filter.1 hb).2).symm
    refine List.pairwise_cons.2 ⟨fun b hb => ?_, (ih.filter _).imp_of_mem fun hb hc less => ?_⟩
    · rw [List.idxOf_cons_self, behind b hb]
      exact Nat.succ_pos _
    · rw [behind _ hb, behind _ hc]
      exact Nat.succ_lt_succ less

theorem pairwise_idxOf (nodup : l.Nodup) : l.Pairwise fun a b => l.idxOf a < l.idxOf b := by
  have ordered := pairwise_idxOf_distinct l
  rwa [distinct_eq_self nodup] at ordered

end Distinct

section Ends
variable {α : Type} {out : α → Prop} {e : α × α} {edges : List (α × α)} {x : α}

/-- The first end with the property, where of the two ends of an edge the first comes first. -/
def FirstEnd (out : α → Prop) (edges : List (α × α)) (x : α) : Prop :=
  ∃ before e after, edges = before ++ e :: after ∧ (∀ f ∈ before, ¬ out f.1 ∧ ¬ out f.2) ∧
    (out e.1 ∧ x = e.1 ∨ ¬ out e.1 ∧ out e.2 ∧ x = e.2)

theorem not_firstEnd_nil : ¬ FirstEnd out [] x := by
  rintro ⟨before, e, after, split, _⟩
  simp at split

theorem firstEnd_cons : FirstEnd out (e :: edges) x ↔
    out e.1 ∧ x = e.1 ∨ ¬ out e.1 ∧ out e.2 ∧ x = e.2 ∨ ¬ out e.1 ∧ ¬ out e.2 ∧ FirstEnd out edges x := by
  constructor
  · rintro ⟨before, f, after, split, inside, found⟩
    cases before with
    | nil =>
      obtain ⟨rfl, rfl⟩ := List.cons.inj split
      exact found.imp_right .inl
    | cons g before =>
      obtain ⟨rfl, rfl⟩ := List.cons.inj split
      obtain ⟨⟨first, second⟩, inside⟩ := List.forall_mem_cons.1 inside
      exact .inr (.inr ⟨first, second, before, f, after, rfl, inside, found⟩)
  · rintro (found | found | ⟨first, second, before, f, after, rfl, inside, found⟩)
    · exact ⟨[], e, edges, rfl, by simp, .inl found⟩
    · exact ⟨[], e, edges, rfl, by simp, .inr found⟩
    · exact ⟨e :: before, f, after, rfl, List.forall_mem_cons.2 ⟨⟨first, second⟩, inside⟩, found⟩

theorem exists_firstEnd_iff : (∃ x, FirstEnd out edges x) ↔ ∃ e ∈ edges, out e.1 ∨ out e.2 := by
  induction edges with
  | nil => simp [not_firstEnd_nil]
  | cons e edges ih =>
    simp only [firstEnd_cons, List.exists_mem_cons_iff, ← ih]
    constructor
    · rintro ⟨x, ⟨first, _⟩ | ⟨_, second, _⟩ | ⟨_, _, later⟩⟩
      · exact .inl (.inl first)
      · exact .inl (.inr second)
      · exact .inr ⟨x, later⟩
    · intro found
      by_cases first : out e.1
      · exact ⟨e.1, .inl ⟨first, rfl⟩⟩
      by_cases second : out e.2
      · exact ⟨e.2, .inr (.inl ⟨first, second, rfl⟩)⟩
      · obtain here | ⟨x, later⟩ := found
        · exact absurd here (not_or.2 ⟨first, second⟩)
        · exact ⟨x, .inr (.inr ⟨first, second, later⟩)⟩

/-- The ends are looked through from left to right. -/
theorem find?_ends_eq_some_iff [DecidablePred out] :
    (edges.flatMap fun e => [e.1, e.2]).find? (out ·) = some x ↔ FirstEnd out edges x := by
  induction edges with
  | nil => simpa using not_firstEnd_nil
  | cons e edges ih =>
    rw [firstEnd_cons, ← ih, List.flatMap_cons, List.cons_append, List.cons_append, List.nil_append]
    by_cases first : out e.1
    · simp [first, eq_comm]
    · by_cases second : out e.2 <;> simp [first, second, eq_comm]

end Ends
end CliqueTree
