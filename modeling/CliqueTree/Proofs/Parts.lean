import CliqueTree.Proofs.Forest
import Mathlib.Combinatorics.Enumerative.DoubleCounting
import Mathlib.Data.List.Induction
import Mathlib.Data.Set.Card

/-!
# Counting parts

An equivalence divides the elements of a list into parts. There are as many parts as a list of representatives is
long, which has one element of each (`Represents.ncard_parts`). An edge between two parts of a forest makes one part
of them, and one representative of the two goes (`Represents.concat`). So the parts and the edges of a forest are
together as many as its vertices (`IsForest.ncard_parts`). A relation that holds more often makes fewer parts
(`Represents.length_le`), so of two forests that one has more edges which joins more (`IsForest.length_le`).
-/

set_option autoImplicit false

namespace CliqueTree
variable {α : Type}

/-- The sets of all that is related to an element of the list. -/
def parts (R : α → α → Prop) (l : List α) : Set (Set α) := {part | ∃ a ∈ l, part = {b | R a b}}

/-- One element of each part. -/
structure Represents (R : α → α → Prop) (l reps : List α) : Prop where
  nodup : reps.Nodup
  inside : ∀ r ∈ reps, r ∈ l
  covers : ∀ a ∈ l, ∃ r ∈ reps, R a r
  apart : ∀ r ∈ reps, ∀ r' ∈ reps, R r r' → r = r'

namespace Represents
variable {R : α → α → Prop} {l reps : List α}

/-- There are as many parts as representatives. -/
theorem ncard_parts (h : Represents R l reps) (equiv : Equivalence R) : (parts R l).ncard = reps.length := by
  classical
  have parts_eq : parts R l = (fun r => {b | R r b}) '' (reps.toFinset : Set α) := by
    ext part
    constructor
    · rintro ⟨a, ha, rfl⟩
      obtain ⟨r, hr, way⟩ := h.covers a ha
      refine ⟨r, by simpa using hr, ?_⟩
      ext b
      exact ⟨equiv.trans way, equiv.trans (equiv.symm way)⟩
    · rintro ⟨r, hr, rfl⟩
      exact ⟨r, h.inside r (by simpa using hr), rfl⟩
  have once : Set.InjOn (fun r => {b | R r b}) (reps.toFinset : Set α) := by
    intro r hr r' hr' same
    have self : r' ∈ {b | R r' b} := equiv.refl r'
    rw [← show {b | R r b} = {b | R r' b} from same] at self
    exact h.apart r (by simpa using hr) r' (by simpa using hr') self
  rw [parts_eq, once.ncard_image, Set.ncard_coe_finset, List.toFinset_card_of_nodup h.nodup]

/-- When one relation implies another, the other has no more representatives. -/
theorem length_le {S : α → α → Prop} {reps' : List α} (h : Represents R l reps) (h' : Represents S l reps')
    (equiv : Equivalence S) (implies : ∀ a b, R a b → S a b) : reps'.length ≤ reps.length := by
  classical
  rw [← List.toFinset_card_of_nodup h.nodup, ← List.toFinset_card_of_nodup h'.nodup]
  refine Finset.card_le_card_of_forall_subsingleton R (fun r' hr' => ?_) fun r _ => ?_
  · obtain ⟨r, hr, way⟩ := h.covers r' (h'.inside r' (by simpa using hr'))
    exact ⟨r, by simpa using hr, way⟩
  · rintro a ⟨ha, toR⟩ b ⟨hb, toR'⟩
    apply h'.apart a (by simpa using ha) b (by simpa using hb)
    exact equiv.trans (implies _ _ toR) (equiv.symm (implies _ _ toR'))

/-- When an edge joins two parts, the representative of one of them goes. -/
theorem concat [DecidableEq α] {edges : List (α × α)} (h : Represents (Joined edges) l reps) {e : α × α}
    (apart : ¬ Joined edges e.1 e.2) {r r' : α} (hr : r ∈ reps) (first : Joined edges e.1 r) (hr' : r' ∈ reps)
    (second : Joined edges e.2 r') : Represents (Joined (edges ++ [e])) l (reps.erase r') := by
  have ne : r ≠ r' := by
    rintro rfl
    exact apart (first.trans second.symm)
  constructor
  · exact h.nodup.erase r'
  · exact fun s hs => h.inside s (List.mem_of_mem_erase hs)
  · intro a ha
    obtain ⟨s, hs, way⟩ := h.covers a ha
    by_cases gone : s = r'
    · subst gone
      exact ⟨r, (List.mem_erase_of_ne ne).2 hr, Joined.concat_iff.2 (.inr (.inr ⟨way.trans second.symm, first⟩))⟩
    · exact ⟨s, (List.mem_erase_of_ne gone).2 hs, Joined.concat_iff.2 (.inl way)⟩
  · intro s hs s' hs' way
    obtain ⟨kept, hs⟩ := h.nodup.mem_erase_iff.1 hs
    obtain ⟨kept', hs'⟩ := h.nodup.mem_erase_iff.1 hs'
    have second_only : ∀ x ∈ reps, Joined edges e.2 x → x = r' := fun x hx toX =>
      h.apart x hx r' hr' (toX.symm.trans second)
    rcases Joined.concat_iff.1 way with old | ⟨_, toS'⟩ | ⟨toS, _⟩
    · exact h.apart s hs s' hs' old
    · exact absurd (second_only s' hs' toS') kept'
    · exact absurd (second_only s hs toS.symm) kept

end Represents

theorem IsForest.exists_represents {l : List α} (nodup : l.Nodup) {edges : List (α × α)} (forest : IsForest edges)
    (ends : ∀ e ∈ edges, e.1 ∈ l ∧ e.2 ∈ l) :
    ∃ reps, Represents (Joined edges) l reps ∧ reps.length + edges.length = l.length := by
  classical
  induction edges using List.reverseRecOn with
  | nil =>
    refine ⟨l, ⟨nodup, fun _ h => h, fun a ha => ⟨a, ha, .refl _ a⟩, fun a _ b _ way => ?_⟩, rfl⟩
    exact way.closed (P := (a = ·)) (fun _ he => absurd he List.not_mem_nil) rfl
  | append_singleton edges e ih =>
    obtain ⟨forest, apart⟩ := IsForest.concat_iff.1 forest
    obtain ⟨reps, represents, count⟩ := ih forest fun f hf => ends f (List.mem_append_left _ hf)
    obtain ⟨first, second⟩ := ends e (List.mem_append_right _ List.mem_cons_self)
    obtain ⟨r, hr, toR⟩ := represents.covers e.1 first
    obtain ⟨r', hr', toR'⟩ := represents.covers e.2 second
    refine ⟨reps.erase r', represents.concat apart hr toR hr' toR', ?_⟩
    have some := List.length_pos_of_mem hr'
    rw [List.length_erase_of_mem hr', List.length_append, List.length_singleton]
    omega

/-- The parts and the edges of a forest are together as many as its vertices. -/
theorem IsForest.ncard_parts {l : List α} (nodup : l.Nodup) {edges : List (α × α)} (forest : IsForest edges)
    (ends : ∀ e ∈ edges, e.1 ∈ l ∧ e.2 ∈ l) : edges.length + (parts (Joined edges) l).ncard = l.length := by
  obtain ⟨reps, represents, count⟩ := forest.exists_represents nodup ends
  rw [represents.ncard_parts ⟨.refl edges, .symm, .trans⟩, Nat.add_comm]
  exact count

/-- A forest whose edges have their ends joined by another forest has no more edges than it. -/
theorem IsForest.length_le {l : List α} (nodup : l.Nodup) {edges whole : List (α × α)} (forest : IsForest edges)
    (ends : ∀ e ∈ edges, e.1 ∈ l ∧ e.2 ∈ l) (forest' : IsForest whole) (ends' : ∀ e ∈ whole, e.1 ∈ l ∧ e.2 ∈ l)
    (joined : ∀ e ∈ edges, Joined whole e.1 e.2) : edges.length ≤ whole.length := by
  obtain ⟨reps, represents, count⟩ := forest.exists_represents nodup ends
  obtain ⟨reps', represents', count'⟩ := forest'.exists_represents nodup ends'
  have fewer := represents.length_le represents' ⟨.refl whole, .symm, .trans⟩ fun _ _ => Joined.lift joined
  omega

end CliqueTree
