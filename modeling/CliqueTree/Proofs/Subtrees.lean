import CliqueTree.Proofs.Hypergraph
import CliqueTree.Proofs.Parts
import Mathlib.Data.Finset.Max

/-!
# Connected parts of a forest

In a forest there is one way only between two vertices, so what two sets of vertices connect inside themselves is
connected inside what they share (`IsForest.joined_among_and`). A connected set has one vertex more than it has edges.
Where the holders of each element are connected, so are the holders of each set of elements, and there are as many
edges whose ends share a set as there are vertices that hold it, less one (`IsForest.countP_shared`). These numbers
say what the ends of the edges share, whatever forest it is: two lists of nonempty sets are the same but for their
order when each set is included in as many members of one as of the other (`perm_of_countP_superset`).
-/

set_option autoImplicit false

namespace CliqueTree
open Relation (ReflTransGen)

variable {α ι : Type} {edges : List (ι × ι)} {l : List ι}

section Among
variable {P Q : ι → Prop} [DecidablePred P] [DecidablePred Q] {a b : ι}

/-- The edges with both ends among the vertices that satisfy a condition. -/
def edgesAmong (P : ι → Prop) [DecidablePred P] (edges : List (ι × ι)) : List (ι × ι) :=
  edges.filter fun e => P e.1 ∧ P e.2

theorem mem_edgesAmong {e : ι × ι} : e ∈ edgesAmong P edges ↔ e ∈ edges ∧ P e.1 ∧ P e.2 := by simp [edgesAmong]

theorem edgesAmong_concat (e : ι × ι) :
    edgesAmong P (edges ++ [e]) = edgesAmong P edges ++ if P e.1 ∧ P e.2 then [e] else [] := by
  rw [edgesAmong, List.filter_append]
  by_cases inside : P e.1 ∧ P e.2 <;> simp [edgesAmong, inside]

theorem Joined.of_among (h : Joined (edgesAmong P edges) a b) : Joined edges a b :=
  h.mono fun _ he => (mem_edgesAmong.1 he).1

/-- One edge more joins what its ends are joined to, if it is among the vertices. -/
theorem joined_among_concat_iff {e : ι × ι} : Joined (edgesAmong P (edges ++ [e])) a b ↔
    Joined (edgesAmong P edges) a b ∨ (P e.1 ∧ P e.2) ∧
      ((Joined (edgesAmong P edges) a e.1 ∧ Joined (edgesAmong P edges) e.2 b) ∨
        (Joined (edgesAmong P edges) a e.2 ∧ Joined (edgesAmong P edges) e.1 b)) := by
  rw [edgesAmong_concat]
  split
  next inside => simp [Joined.concat_iff, inside]
  next outside => simp [outside]

theorem isForest_edgesAmong (forest : IsForest edges) : IsForest (edgesAmong P edges) := by
  induction edges using List.reverseRecOn with
  | nil => exact .nil
  | append_singleton edges e ih =>
    obtain ⟨forest, apart⟩ := IsForest.concat_iff.1 forest
    rw [edgesAmong_concat]
    split
    · exact (ih forest).concat fun joined => apart joined.of_among
    · simpa using ih forest

/-- In a forest, what is joined among the vertices of two sets is joined among those of both. -/
theorem IsForest.joined_among_and (forest : IsForest edges) (first : Joined (edgesAmong P edges) a b)
    (second : Joined (edgesAmong Q edges) a b) :
    Joined (edgesAmong (fun x => P x ∧ Q x) edges) a b := by
  induction edges using List.reverseRecOn generalizing a b with
  | nil => exact first
  | append_singleton edges e ih =>
    obtain ⟨forest, apart⟩ := IsForest.concat_iff.1 forest
    rw [joined_among_concat_iff] at first second ⊢
    -- unless both ways take the last edge in one direction, they join its ends without it
    rcases first with first | ⟨inP, ⟨p, p'⟩ | ⟨p, p'⟩⟩ <;> rcases second with second | ⟨inQ, ⟨q, q'⟩ | ⟨q, q'⟩⟩
    · exact .inl (ih forest first second)
    · exact absurd ((q.of_among.symm.trans first.of_among).trans q'.of_among.symm) apart
    · exact absurd ((q'.of_among.trans first.of_among.symm).trans q.of_among) apart
    · exact absurd ((p.of_among.symm.trans second.of_among).trans p'.of_among.symm) apart
    · exact .inr ⟨⟨⟨inP.1, inQ.1⟩, inP.2, inQ.2⟩, .inl ⟨ih forest p q, ih forest p' q'⟩⟩
    · exact absurd (p.of_among.symm.trans q.of_among) apart
    · exact absurd ((p'.of_among.trans second.of_among.symm).trans p.of_among) apart
    · exact absurd (q.of_among.symm.trans p.of_among) apart
    · exact .inr ⟨⟨⟨inP.1, inQ.1⟩, inP.2, inQ.2⟩, .inr ⟨ih forest p q, ih forest p' q'⟩⟩

/-- In a forest, the vertices of a connected set are one more than the edges among them. -/
theorem IsForest.length_edgesAmong (forest : IsForest edges) (nodup : l.Nodup) (ends : ∀ e ∈ edges, e.1 ∈ l ∧ e.2 ∈ l)
    (connected : ∀ a ∈ l, ∀ b ∈ l, P a → P b → Joined (edgesAmong P edges) a b) :
    (edgesAmong P edges).length = l.countP P - 1 := by
  have inside : ∀ e ∈ edgesAmong P edges, e.1 ∈ l.filter P ∧ e.2 ∈ l.filter P := by
    intro e he
    obtain ⟨member, first, second⟩ := mem_edgesAmong.1 he
    simp [ends e member, first, second]
  obtain ⟨reps, represents, count⟩ := (isForest_edgesAmong forest).exists_represents (nodup.filter P) inside
  rw [← List.countP_eq_length_filter] at count
  have one : reps.length ≤ 1 := by
    match reps, represents with
    | [], _ => simp
    | [_], _ => simp
    | r :: r' :: _, represents =>
      have hr := List.mem_filter.1 (represents.inside r (by simp))
      have hr' := List.mem_filter.1 (represents.inside r' (by simp))
      have same := represents.apart r (by simp) r' (by simp)
        (connected r hr.1 r' hr'.1 (by simpa using hr.2) (by simpa using hr'.2))
      have := represents.nodup
      simp [same] at this
  have none : reps.length = 0 → l.countP P = 0 := by
    intro empty
    rw [List.countP_eq_zero]
    intro a ha holds
    obtain ⟨r, hr, _⟩ := represents.covers a (List.mem_filter.2 ⟨ha, holds⟩)
    rw [List.length_eq_zero_iff.1 empty] at hr
    exact List.not_mem_nil hr
  omega

end Among

section Holders
variable [DecidableEq ι] [DecidableEq α] {C : ι → Finset α} {s : Finset α}

/-- The holders of a set of elements are connected through holders of it. -/
theorem IsForest.holders_joined (forest : IsForest edges) (holders : RunningIntersection (Touching edges) l.toFinset C)
    (some : s.Nonempty) {a b : ι} (ha : a ∈ l) (hb : b ∈ l) (inA : s ⊆ C a) (inB : s ⊆ C b) :
    Joined (edgesAmong (s ⊆ C ·) edges) a b := by
  have single : ∀ x ∈ s, Joined (edgesAmong (x ∈ C ·) edges) a b := by
    intro x hx
    refine ReflTransGen.mono (fun u v step => ?_) _ _
      (holders x a (List.mem_toFinset.2 ha) b (List.mem_toFinset.2 hb) (inA hx) (inB hx))
    obtain ⟨_, _, step, xu, xv⟩ := step
    exact step.imp (fun edge => mem_edgesAmong.2 ⟨edge, xu, xv⟩) fun edge => mem_edgesAmong.2 ⟨edge, xv, xu⟩
  clear inA inB
  induction some using Finset.Nonempty.cons_induction with
  | singleton x =>
    have one := single x (Finset.mem_singleton_self x)
    simpa only [Finset.singleton_subset_iff] using one
  | cons x s _ _ ih =>
    have first := single x (Finset.mem_cons_self x s)
    have rest := ih fun y hy => single y (Finset.mem_cons_of_mem hy)
    have both := forest.joined_among_and first rest
    simpa only [Finset.cons_eq_insert, Finset.insert_subset_iff] using both

theorem IsForest.countP_shared (forest : IsForest edges) (nodup : l.Nodup) (ends : ∀ e ∈ edges, e.1 ∈ l ∧ e.2 ∈ l)
    (holders : RunningIntersection (Touching edges) l.toFinset C) (some : s.Nonempty) :
    (edges.map fun e => C e.1 ∩ C e.2).countP (s ⊆ ·) = l.countP (s ⊆ C ·) - 1 := by
  rw [← forest.length_edgesAmong nodup ends fun a ha b hb => forest.holders_joined holders some ha hb,
    List.countP_map, List.countP_eq_length_filter]
  simp only [edgesAmong, Function.comp_def, Finset.subset_inter_iff]

end Holders

section Families
variable [DecidableEq α]

/-- A list of nonempty sets is known, up to its order, from how many of them include each nonempty set. -/
theorem perm_of_countP_superset {l l' : List (Finset α)} (some : ∀ s ∈ l, s.Nonempty) (some' : ∀ s ∈ l', s.Nonempty)
    (same : ∀ s : Finset α, s.Nonempty → l.countP (s ⊆ ·) = l'.countP (s ⊆ ·)) : l.Perm l' := by
  have superset : ∀ {m m' : List (Finset α)}, (∀ s ∈ m, s.Nonempty) →
      (∀ s : Finset α, s.Nonempty → m.countP (s ⊆ ·) = m'.countP (s ⊆ ·)) → ∀ s ∈ m, ∃ t ∈ m', s ⊆ t := by
    intro m m' some same s hs
    have counted : 0 < m.countP (s ⊆ ·) := List.countP_pos_iff.2 ⟨s, hs, by simp⟩
    rw [same s (some s hs)] at counted
    simpa using List.countP_pos_iff.1 counted
  induction size : l.length generalizing l l' with
  | zero =>
    obtain rfl := List.length_eq_zero_iff.1 size
    cases l' with
    | nil => exact .nil
    | cons t l' =>
      obtain ⟨_, none, _⟩ := superset some' (fun s hs => (same s hs).symm) t List.mem_cons_self
      exact absurd none List.not_mem_nil
  | succ n ih =>
    -- a largest set is in the other list too, for what includes it there lies in no larger set here
    have nonempty : l.toFinset.Nonempty := by
      rw [List.toFinset_nonempty_iff]
      rintro rfl
      simp at size
    obtain ⟨s, hs, largest⟩ := l.toFinset.exists_max_image Finset.card nonempty
    rw [List.mem_toFinset] at hs
    obtain ⟨t, ht, sub⟩ := superset some same s hs
    obtain ⟨u, hu, sub'⟩ := superset some' (fun s hs => (same s hs).symm) t ht
    have small := largest u (List.mem_toFinset.2 hu)
    obtain rfl : s = t := Finset.eq_of_subset_of_card_le sub ((Finset.card_le_card sub').trans small)
    have here := List.perm_cons_erase hs
    have there := List.perm_cons_erase ht
    refine here.trans (.trans (.cons s (ih (fun r hr => some r (List.mem_of_mem_erase hr))
      (fun r hr => some' r (List.mem_of_mem_erase hr)) (fun r hr => ?_) ?_)) there.symm)
    · have counted := same r hr
      rw [here.countP_eq, there.countP_eq, List.countP_cons, List.countP_cons] at counted
      omega
    · rw [List.length_erase_of_mem hs, size, Nat.add_sub_cancel]

end Families
end CliqueTree
