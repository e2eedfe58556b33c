import Mathlib.Data.Finset.Card
import Mathlib.Logic.Relation

/-!
# Families of sets that reduce to nothing

A family of finite sets reduces when two kinds of step empty it: an element that lies in one set only is
erased from that set, and a set that lies inside another one is dropped. `T` joins members of the family. If
every two sets that share an element are connected along `T` by steps that are at least as wide as what the
two share, then `T` has the running intersection property: the sets that hold an element are connected
through sets that hold it (`Reducible.runningIntersection`). `T` need not be a tree for that, and nothing is
counted: the property is carried back through each step of the reduction.
-/

set_option autoImplicit false

namespace CliqueTree
open Relation (ReflTransGen)

variable {ι α : Type}

/-- The sets `C i` with `i` in the family can be emptied by erasing elements that lie in one set only and by
dropping sets that lie inside another. -/
inductive Reducible [DecidableEq ι] [DecidableEq α] : Finset ι → (ι → Finset α) → Prop
  | empty {I : Finset ι} {C : ι → Finset α} (h : ∀ i ∈ I, C i = ∅) : Reducible I C
  | erase {I : Finset ι} {C : ι → Finset α} (v : α) (k : ι) (only : ∀ i ∈ I, v ∈ C i → i = k)
      (rest : Reducible I fun i => (C i).erase v) : Reducible I C
  | drop {I : Finset ι} {C : ι → Finset α} (k p : ι) (hk : k ∈ I) (hp : p ∈ I) (ne : k ≠ p)
      (inside : C k ⊆ C p) (rest : Reducible (I.erase k) C) : Reducible I C

/-- A step along `T` between two different sets of the family that share at least `w` elements. -/
def WideStep [DecidableEq α] (T : ι → ι → Prop) (I : Finset ι) (C : ι → Finset α) (w : Nat) (a b : ι) : Prop :=
  a ∈ I ∧ b ∈ I ∧ a ≠ b ∧ T a b ∧ w ≤ (C a ∩ C b).card

/-- A step along `T` between two sets of the family that both hold `x`. -/
def HoldingStep (T : ι → ι → Prop) (I : Finset ι) (C : ι → Finset α) (x : α) (a b : ι) : Prop :=
  a ∈ I ∧ b ∈ I ∧ T a b ∧ x ∈ C a ∧ x ∈ C b

/-- Every two sets that share an element are connected by steps at least as wide as what they share. -/
def WidelyConnected [DecidableEq α] (T : ι → ι → Prop) (I : Finset ι) (C : ι → Finset α) : Prop :=
  ∀ i ∈ I, ∀ j ∈ I, (C i ∩ C j).Nonempty → ReflTransGen (WideStep T I C (C i ∩ C j).card) i j

/-- Every two sets that hold an element are connected through sets that hold it. -/
def RunningIntersection (T : ι → ι → Prop) (I : Finset ι) (C : ι → Finset α) : Prop :=
  ∀ x, ∀ i ∈ I, ∀ j ∈ I, x ∈ C i → x ∈ C j → ReflTransGen (HoldingStep T I C x) i j

section Steps
variable {T : ι → ι → Prop} {I : Finset ι} {C : ι → Finset α} {w w' : Nat} {x : α}

instance [Std.Symm T] : Std.Symm (HoldingStep T I C x) where
  symm a b := fun ⟨ha, hb, h, xa, xb⟩ => ⟨hb, ha, Std.Symm.symm a b h, xb, xa⟩

theorem RunningIntersection.of_drop_empty [DecidableEq ι] {k : ι} (none : C k = ∅)
    (h : RunningIntersection T (I.erase k) C) : RunningIntersection T I C := by
  intro x i hi j hj xi xj
  have apart : ∀ {m}, x ∈ C m → m ≠ k := by
    rintro m xm rfl
    simp [none] at xm
  refine ReflTransGen.mono ?_ _ _
    (h x i (Finset.mem_erase.2 ⟨apart xi, hi⟩) j (Finset.mem_erase.2 ⟨apart xj, hj⟩) xi xj)
  rintro a b ⟨ha, hb, t, xa, xb⟩
  exact ⟨Finset.mem_of_mem_erase ha, Finset.mem_of_mem_erase hb, t, xa, xb⟩

variable [DecidableEq α]

instance [Std.Symm T] : Std.Symm (WideStep T I C w) where
  symm a b := by
    rintro ⟨ha, hb, ne, h, wide⟩
    exact ⟨hb, ha, ne.symm, Std.Symm.symm a b h, Finset.inter_comm (C a) (C b) ▸ wide⟩

theorem WideStep.weaken (le : w ≤ w') {a b : ι} (h : ReflTransGen (WideStep T I C w') a b) :
    ReflTransGen (WideStep T I C w) a b :=
  ReflTransGen.mono (fun _ _ ⟨ha, hb, ne, t, wide⟩ => ⟨ha, hb, ne, t, le.trans wide⟩) _ _ h

end Steps

section Erase
variable [DecidableEq α] {T : ι → ι → Prop} {I : Finset ι} {C : ι → Finset α} {v : α} {k : ι}

/-- An element that lies in one set only is not shared. -/
theorem inter_erase_of_only (only : ∀ i ∈ I, v ∈ C i → i = k) {i j : ι} (hi : i ∈ I) (hj : j ∈ I)
    (ne : i ≠ j) : (C i).erase v ∩ (C j).erase v = C i ∩ C j := by
  have apart : v ∉ C i ∩ C j := by
    intro hv
    obtain ⟨vi, vj⟩ := Finset.mem_inter.1 hv
    exact ne ((only i hi vi).trans (only j hj vj).symm)
  rw [Finset.erase_inter, Finset.inter_erase, Finset.erase_idem, Finset.erase_eq_of_notMem apart]

theorem WidelyConnected.erase (only : ∀ i ∈ I, v ∈ C i → i = k) (h : WidelyConnected T I C) :
    WidelyConnected T I fun i => (C i).erase v := by
  intro i hi j hj shared
  by_cases ne : i = j
  · rw [ne]
  have same := inter_erase_of_only only hi hj ne
  simp only [same] at shared ⊢
  refine ReflTransGen.mono ?_ _ _ (h i hi j hj shared)
  rintro a b ⟨ha, hb, nab, t, wide⟩
  exact ⟨ha, hb, nab, t, by rwa [inter_erase_of_only only ha hb nab]⟩

theorem RunningIntersection.of_erase (only : ∀ i ∈ I, v ∈ C i → i = k)
    (h : RunningIntersection T I fun i => (C i).erase v) : RunningIntersection T I C := by
  intro x i hi j hj xi xj
  by_cases hx : x = v
  · subst hx
    rw [only i hi xi, only j hj xj]
  refine ReflTransGen.mono ?_ _ _
    (h x i hi j hj (Finset.mem_erase.2 ⟨hx, xi⟩) (Finset.mem_erase.2 ⟨hx, xj⟩))
  rintro a b ⟨ha, hb, t, xa, xb⟩
  exact ⟨ha, hb, t, Finset.mem_of_mem_erase xa, Finset.mem_of_mem_erase xb⟩

end Erase

section Drop
variable [DecidableEq α] {T : ι → ι → Prop} {I : Finset ι} {C : ι → Finset α} {k l : ι} {w : Nat}

/-- `T` with the steps from `k` taken over by `l`, as far as they are no narrower there. -/
def TakeOver (T : ι → ι → Prop) (C : ι → Finset α) (k l : ι) (a b : ι) : Prop :=
  T a b ∨ (a = l ∧ T k b ∧ C l ∩ C b ⊆ C k) ∨ (b = l ∧ T k a ∧ C l ∩ C a ⊆ C k)

instance [Std.Symm T] : Std.Symm (TakeOver T C k l) where
  symm a b := by
    rintro (h | h | h)
    · exact .inl (Std.Symm.symm a b h)
    · exact .inr (.inr h)
    · exact .inr (.inl h)

/-- A set inside another one has a neighbour that it lies inside. -/
theorem WidelyConnected.exists_neighbour [Std.Symm T] (h : WidelyConnected T I C) {p : ι} (hk : k ∈ I) (hp : p ∈ I)
    (ne : k ≠ p) (inside : C k ⊆ C p) (some : (C k).Nonempty) : ∃ l ∈ I, l ≠ k ∧ T k l ∧ C k ⊆ C l := by
  have same : C k ∩ C p = C k := Finset.inter_eq_left.2 inside
  have way := h k hk p hp (by rwa [same])
  rw [same] at way
  obtain equal | ⟨l, ⟨_, hl, nkl, t, wide⟩, _⟩ := way.cases_head
  · exact absurd equal ne
  have all := Finset.eq_of_subset_of_card_le Finset.inter_subset_left wide
  exact ⟨l, hl, nkl.symm, t, Finset.inter_eq_left.1 all⟩

variable [DecidableEq ι]

/-- Where a step at the dropped set led, a way from its neighbour leads too. Steps wider than `w` are taken
to have been rerouted already. -/
theorem TakeOver.way_from (h : WidelyConnected T I C) (hl : l ∈ I) (nlk : l ≠ k)
    (inside : C k ⊆ C l) (pos : 1 ≤ w) {b : ι} (step : WideStep T I C w k b)
    (wider : ∀ w', w < w' → w' ≤ (C l).card → ReflTransGen (WideStep T I C w') l b →
      ReflTransGen (WideStep (TakeOver T C k l) (I.erase k) C w') l b) :
    ReflTransGen (WideStep (TakeOver T C k l) (I.erase k) C w) l b := by
  obtain ⟨_, hb, nkb, t, wide⟩ := step
  by_cases equal : l = b
  · rw [equal]
  have mono : C k ∩ C b ⊆ C l ∩ C b := Finset.inter_subset_inter_right inside
  have reach : w ≤ (C l ∩ C b).card := wide.trans (Finset.card_le_card mono)
  by_cases within : C l ∩ C b ⊆ C k
  · exact .single ⟨Finset.mem_erase.2 ⟨nlk, hl⟩, Finset.mem_erase.2 ⟨nkb.symm, hb⟩, equal,
      .inr (.inl ⟨rfl, t, within⟩), reach⟩
  · -- what `l` and `b` share is more than `w`, so they are connected by wider steps
    have strict : C k ∩ C b ⊂ C l ∩ C b :=
      mono.ssubset_of_ne fun same => within (same ▸ Finset.inter_subset_left)
    have more : w < (C l ∩ C b).card := wide.trans_lt (Finset.card_lt_card strict)
    have way := h l hl b hb (Finset.card_pos.1 (by omega))
    exact WideStep.weaken more.le (wider _ more (Finset.card_le_card Finset.inter_subset_left) way)

/-- Every way is rerouted past the dropped set, its end points included. -/
theorem TakeOver.reroute [Std.Symm T] (h : WidelyConnected T I C) (hl : l ∈ I) (nlk : l ≠ k)
    (inside : C k ⊆ C l) (pos : 1 ≤ w) {a b : ι} (way : ReflTransGen (WideStep T I C w) a b) :
    ReflTransGen (WideStep (TakeOver T C k l) (I.erase k) C w) (if a = k then l else a)
      (if b = k then l else b) := by
  induction bound : (C l).card - w using Nat.strong_induction_on generalizing w a b with
  | _ n ih =>
    have wider : ∀ b ≠ k, ∀ w', w < w' → w' ≤ (C l).card → ReflTransGen (WideStep T I C w') l b →
        ReflTransGen (WideStep (TakeOver T C k l) (I.erase k) C w') l b := by
      intro b nbk w' more le way
      have := ih _ (by omega) (by omega) way rfl
      rwa [if_neg nlk, if_neg nbk] at this
    refine ReflTransGen.lift' (fun i => if i = k then l else i) ?_ a b way
    intro a b step
    have ⟨ha, hb, nab, t, wide⟩ := step
    simp only [Function.onFun]
    by_cases hak : a = k
    · subst hak
      rw [if_pos rfl, if_neg nab.symm]
      exact TakeOver.way_from h hl nlk inside pos step (wider b nab.symm)
    by_cases hbk : b = k
    · subst hbk
      rw [if_pos rfl, if_neg nab]
      exact Std.Symm.symm _ _
        (TakeOver.way_from h hl nlk inside pos (Std.Symm.symm a b step) (wider a nab))
    · rw [if_neg hak, if_neg hbk]
      exact .single ⟨Finset.mem_erase.2 ⟨hak, ha⟩, Finset.mem_erase.2 ⟨hbk, hb⟩, nab, .inl t, wide⟩

theorem WidelyConnected.takeOver [Std.Symm T] (h : WidelyConnected T I C) (hl : l ∈ I) (nlk : l ≠ k)
    (inside : C k ⊆ C l) : WidelyConnected (TakeOver T C k l) (I.erase k) C := by
  intro i hi j hj shared
  have way := h i (Finset.mem_of_mem_erase hi) j (Finset.mem_of_mem_erase hj) shared
  have := TakeOver.reroute h hl nlk inside (Finset.card_pos.2 shared) way
  rwa [if_neg (Finset.ne_of_mem_erase hi), if_neg (Finset.ne_of_mem_erase hj)] at this

/-- A step that was taken over goes through the dropped set, which holds all that its ends share. -/
theorem TakeOver.way_back [Std.Symm T] (hk : k ∈ I) (tkl : T k l) {x : α} {a b : ι}
    (step : HoldingStep (TakeOver T C k l) (I.erase k) C x a b) : ReflTransGen (HoldingStep T I C x) a b := by
  obtain ⟨ha, hb, t, xa, xb⟩ := step
  have ha := Finset.mem_of_mem_erase ha
  have hb := Finset.mem_of_mem_erase hb
  have tlk : T l k := Std.Symm.symm k l tkl
  rcases t with t | ⟨rfl, t, within⟩ | ⟨rfl, t, within⟩
  · exact .single ⟨ha, hb, t, xa, xb⟩
  · have xk : x ∈ C k := within (Finset.mem_inter.2 ⟨xa, xb⟩)
    exact .head ⟨ha, hk, tlk, xa, xk⟩ (.single ⟨hk, hb, t, xk, xb⟩)
  · have xk : x ∈ C k := within (Finset.mem_inter.2 ⟨xb, xa⟩)
    exact .head ⟨ha, hk, Std.Symm.symm k a t, xa, xk⟩ (.single ⟨hk, hb, tkl, xk, xb⟩)

theorem RunningIntersection.of_takeOver [Std.Symm T] (hk : k ∈ I) (hl : l ∈ I) (nlk : l ≠ k) (tkl : T k l)
    (inside : C k ⊆ C l) (h : RunningIntersection (TakeOver T C k l) (I.erase k) C) :
    RunningIntersection T I C := by
  intro x
  -- every holder of `x` is connected to one that was not dropped
  have escape : ∀ i ∈ I, x ∈ C i → ∃ i' ∈ I.erase k, x ∈ C i' ∧ ReflTransGen (HoldingStep T I C x) i i' := by
    intro i hi xi
    by_cases equal : i = k
    · subst equal
      exact ⟨l, Finset.mem_erase.2 ⟨nlk, hl⟩, inside xi, .single ⟨hi, hl, tkl, xi, inside xi⟩⟩
    · exact ⟨i, Finset.mem_erase.2 ⟨equal, hi⟩, xi, .refl⟩
  intro i hi j hj xi xj
  obtain ⟨i', hi', xi', first⟩ := escape i hi xi
  obtain ⟨j', hj', xj', last⟩ := escape j hj xj
  have between : ReflTransGen (HoldingStep T I C x) i' j' :=
    ReflTransGen.lift' id (fun _ _ step => TakeOver.way_back hk tkl step) i' j' (h x i' hi' j' hj' xi' xj')
  exact (first.trans between).trans (Std.Symm.symm _ _ last)

/-- An empty set is dropped without further ado: nothing is shared with it. -/
theorem WidelyConnected.drop_empty (h : WidelyConnected T I C) (none : C k = ∅) :
    WidelyConnected T (I.erase k) C := by
  intro i hi j hj shared
  refine ReflTransGen.mono ?_ _ _ (h i (Finset.mem_of_mem_erase hi) j (Finset.mem_of_mem_erase hj) shared)
  rintro a b ⟨ha, hb, nab, t, wide⟩
  have pos := (Finset.card_pos.2 shared).trans_le wide
  have nak : a ≠ k := by
    rintro rfl
    simp [none] at pos
  have nbk : b ≠ k := by
    rintro rfl
    simp [none] at pos
  exact ⟨Finset.mem_erase.2 ⟨nak, ha⟩, Finset.mem_erase.2 ⟨nbk, hb⟩, nab, t, wide⟩

/-- **Running intersection.** In a family that reduces, whatever connects the sets widely connects the
holders of each element through holders of it. -/
theorem Reducible.runningIntersection (h : Reducible I C) :
    ∀ (T : ι → ι → Prop) [Std.Symm T], WidelyConnected T I C → RunningIntersection T I C := by
  induction h with
  | empty none =>
    intro T _ _ x i hi j _ xi _
    rw [none i hi] at xi
    exact absurd xi (Finset.notMem_empty x)
  | erase v k only _ ih =>
    intro T _ wide
    exact RunningIntersection.of_erase only (ih T (wide.erase only))
  | @drop I C k p hk hp ne inside _ ih =>
    intro T _ wide
    obtain none | some := (C k).eq_empty_or_nonempty
    · exact RunningIntersection.of_drop_empty none (ih T (wide.drop_empty none))
    obtain ⟨l, hl, nlk, tkl, within⟩ := wide.exists_neighbour hk hp ne inside some
    exact RunningIntersection.of_takeOver hk hl nlk tkl within
      (ih (TakeOver T C k l) (wide.takeOver hl nlk within))

end Drop
end CliqueTree
