import CliqueTree.Table.DisjointSet
import Mathlib.Data.Finset.Card

/-!
# Classes of a disjoint set

Ranks grow strictly along the pointers of a disjoint set (`Ranked`), so the way from an id passes no id twice
and ends at a representative, and the bounded lookup has enough steps for the whole recursion (`Finds`). Lookups
change pointers but move no end of a way, so `root`, the end of the way from an id, is what a lookup returns now and
later. `union` then acts on roots alone: it links two classes (`Linked`), which get one root, and all others keep
theirs (`union_spec`).
-/

set_option autoImplicit false

namespace CliqueTree
namespace DisjointSet

/-- Pointers stay inside the set, and ranks grow strictly along them. -/
structure Ranked (s : DisjointSet) : Prop where
  sizes : s.rank.size = s.size
  inside : ∀ x, x < s.size → s.parentOf x < s.size
  climbs : ∀ x, s.parentOf x ≠ x → s.rankOf x < s.rankOf (s.parentOf x)

/-- The way along the pointers from an id ends at a representative. -/
inductive Ends (s : DisjointSet) : Nat → Nat → Prop
  | here {x : Nat} (root : s.parentOf x = x) : Ends s x x
  | up {x r : Nat} (step : s.parentOf x ≠ x) (rest : Ends s (s.parentOf x) r) : Ends s x r

/-- The representative that a lookup returns. -/
def root (s : DisjointSet) (x : Nat) : Nat := (s.find x).1

/-! ## Pointers -/

theorem parentOf_of_le {s : DisjointSet} {x : Nat} (h : s.size ≤ x) : s.parentOf x = x := by
  rw [size] at h
  simp [parentOf, h]

theorem lt_size_of_step {s : DisjointSet} {x : Nat} (step : s.parentOf x ≠ x) : x < s.size := by
  apply Nat.lt_of_not_le
  exact fun h => step (parentOf_of_le h)

@[simp] theorem size_point (s : DisjointSet) (x r : Nat) : (s.point x r).size = s.size := by
  simp [point, size]

@[simp] theorem rankOf_point (s : DisjointSet) (x r y : Nat) : (s.point x r).rankOf y = s.rankOf y := rfl

theorem parentOf_point {s : DisjointSet} {x r y : Nat} (h : x < s.size) :
    (s.point x r).parentOf y = if y = x then r else s.parentOf y := by
  rw [size] at h
  simp only [point, parentOf, Array.getElem?_setIfInBounds]
  by_cases hy : y = x
  · subst hy
    simp [h]
  · simp [hy, Ne.symm hy]

namespace Ends
variable {s : DisjointSet} {x r r' : Nat}

theorem root_eq (h : Ends s x r) : s.parentOf r = r := by
  induction h with
  | here root => exact root
  | up _ _ ih => exact ih

theorem unique (h : Ends s x r) (h' : Ends s x r') : r = r' := by
  induction h with
  | here root =>
    cases h' with
    | here _ => rfl
    | up step _ => exact absurd root step
  | up step _ ih =>
    cases h' with
    | here root => exact absurd root step
    | up _ rest => exact ih rest

theorem lt_size (ranked : Ranked s) (h : Ends s x r) (hx : x < s.size) : r < s.size := by
  induction h with
  | here _ => exact hx
  | up _ _ ih => exact ih (ranked.inside _ hx)

theorem rank_lt (ranked : Ranked s) (h : Ends s x r) (ne : r ≠ x) : s.rankOf x < s.rankOf r := by
  induction h with
  | here _ => exact absurd rfl ne
  | @up x r step rest ih =>
    by_cases last : r = s.parentOf x
    · rw [last]
      exact ranked.climbs x step
    · exact Nat.lt_trans (ranked.climbs x step) (ih last)

/-- Ways depend on the pointers only. -/
theorem congr {t : DisjointSet} (same : ∀ y, t.parentOf y = s.parentOf y) (h : Ends s x r) : Ends t x r := by
  induction h with
  | here root => exact .here (by rw [same, root])
  | up step _ ih => exact .up (by rwa [same]) (by rwa [same])

end Ends

/-! ## Lookups -/

/-- How many ids have a greater rank. -/
def above (s : DisjointSet) (x : Nat) : Nat :=
  ((Finset.range s.size).filter fun y => s.rankOf x < s.rankOf y).card

theorem above_lt_size {s : DisjointSet} {x : Nat} (hx : x < s.size) : s.above x < s.size := by
  have fewer : s.above x < (Finset.range s.size).card := by
    apply Finset.card_lt_card
    exact Finset.filter_ssubset.2 ⟨x, Finset.mem_range.2 hx, Nat.lt_irrefl _⟩
  rwa [Finset.card_range] at fewer

theorem above_parentOf_lt {s : DisjointSet} (ranked : Ranked s) {x : Nat} (step : s.parentOf x ≠ x) :
    s.above (s.parentOf x) < s.above x := by
  have climb := ranked.climbs x step
  have parent := Finset.mem_range.2 (ranked.inside x (lt_size_of_step step))
  apply Finset.card_lt_card
  rw [Finset.ssubset_iff_of_subset]
  · exact ⟨s.parentOf x, Finset.mem_filter.2 ⟨parent, climb⟩, by simp⟩
  · intro y hy
    obtain ⟨hy, more⟩ := Finset.mem_filter.1 hy
    exact Finset.mem_filter.2 ⟨hy, Nat.lt_trans climb more⟩

/-- Pointers may have moved, but all ways end where they ended. -/
structure SameEnds (s t : DisjointSet) : Prop where
  ranked : Ranked t
  size : t.size = s.size
  rank : t.rank = s.rank
  ends : ∀ {x r : Nat}, Ends s x r → Ends t x r

theorem SameEnds.refl {s : DisjointSet} (ranked : Ranked s) : SameEnds s s := ⟨ranked, rfl, rfl, id⟩

theorem SameEnds.trans {s t u : DisjointSet} (h : SameEnds s t) (h' : SameEnds t u) : SameEnds s u :=
  ⟨h'.ranked, h'.size.trans h.size, h'.rank.trans h.rank, h'.ends ∘ h.ends⟩

/-- Pointing an id at the end of its way moves no end. -/
theorem SameEnds.point {s : DisjointSet} (ranked : Ranked s) {x r : Nat} (hx : x < s.size) (h : Ends s x r) :
    SameEnds s (s.point x r) where
  ranked := by
    refine ⟨by rw [size_point]; exact ranked.sizes, fun y hy => ?_, fun y step => ?_⟩
    · rw [size_point] at hy ⊢
      rw [parentOf_point hx]
      split
      · exact h.lt_size ranked hx
      · exact ranked.inside y hy
    · rw [parentOf_point hx] at step ⊢
      simp only [rankOf_point]
      split at step
      next equal =>
        subst equal
        rw [if_pos rfl]
        exact h.rank_lt ranked step
      next other =>
        rw [if_neg other]
        exact ranked.climbs y step
  size := size_point s x r
  rank := rfl
  ends {y q} way := by
    have kept : (s.point x r).parentOf r = r := by
      rw [parentOf_point hx]
      split
      · rfl
      · exact h.root_eq
    induction way with
    | @here y root =>
      by_cases equal : y = x
      · subst equal
        cases h.unique (.here root)
        exact .here kept
      · exact .here (by rw [parentOf_point hx, if_neg equal, root])
    | @up y q step rest ih =>
      by_cases equal : y = x
      · subst equal
        cases h.unique (.up step rest)
        have away : r ≠ y := fun same => step (same ▸ h.root_eq)
        exact .up (by rwa [parentOf_point hx, if_pos rfl]) (by rw [parentOf_point hx, if_pos rfl]; exact .here kept)
      · have same : (s.point x r).parentOf y = s.parentOf y := by rw [parentOf_point hx, if_neg equal]
        exact .up (by rwa [same]) (by rwa [same])

/-- A lookup as a recursion without a bound: an id that points elsewhere is pointed at what the lookup of its parent
finds. The last number is how deep the recursion goes. -/
inductive Finds (s : DisjointSet) : Nat → Nat → DisjointSet → Nat → Prop
  | here {x : Nat} (root : s.parentOf x = x) : Finds s x x s 0
  | up {x r depth : Nat} {t : DisjointSet} (step : s.parentOf x ≠ x) (rest : Finds s (s.parentOf x) r t depth) :
    Finds s x r (t.point x r) (depth + 1)

/-- With enough steps the bounded lookup is the recursion. -/
theorem finds_findWithin {s : DisjointSet} (ranked : Ranked s) (steps x : Nat) (enough : s.above x ≤ steps) :
    ∃ depth, Finds s x (findWithin steps s x).1 (findWithin steps s x).2 depth := by
  induction steps generalizing x with
  | zero =>
    refine ⟨0, .here ?_⟩
    apply Classical.byContradiction
    intro step
    have := above_parentOf_lt ranked step
    omega
  | succ steps ih =>
    by_cases step : s.parentOf x = x
    · rw [findWithin, if_pos step]
      exact ⟨0, .here step⟩
    · rw [findWithin, if_neg step]
      have fewer := above_parentOf_lt ranked step
      obtain ⟨depth, rest⟩ := ih (s.parentOf x) (by omega)
      exact ⟨depth + 1, .up step rest⟩

theorem finds_find {s : DisjointSet} (ranked : Ranked s) (x : Nat) :
    ∃ depth, Finds s x (s.root x) (s.find x).2 depth := by
  by_cases hx : x < s.size
  · exact finds_findWithin ranked s.size x (above_lt_size hx).le
  · have stay := parentOf_of_le (Nat.le_of_not_lt hx)
    have same : s.find x = (x, s) := by
      cases n : s.size with
      | zero => rw [find, n, findWithin]
      | succ n => rw [find, n, findWithin, if_pos stay]
    rw [root, same]
    exact ⟨0, .here stay⟩

/-- The recursion finds the end of the way and moves no end. -/
theorem Finds.spec {s t : DisjointSet} (ranked : Ranked s) {x r depth : Nat} (finds : Finds s x r t depth) :
    Ends s x r ∧ SameEnds s t := by
  induction finds with
  | here root => exact ⟨.here root, .refl ranked⟩
  | up step _ ih =>
    obtain ⟨rest, same⟩ := ih
    have way := Ends.up step rest
    have hx := lt_size_of_step step
    exact ⟨way, same.trans (.point same.ranked (same.size ▸ hx) (same.ends way))⟩

theorem find_spec {s : DisjointSet} (ranked : Ranked s) (x : Nat) :
    Ends s x (s.root x) ∧ SameEnds s (s.find x).2 := by
  obtain ⟨depth, finds⟩ := finds_find ranked x
  exact finds.spec ranked

theorem ends_iff {s : DisjointSet} (ranked : Ranked s) {x r : Nat} : Ends s x r ↔ s.root x = r :=
  ⟨fun h => (find_spec ranked x).1.unique h, fun h => h ▸ (find_spec ranked x).1⟩

/-- A lookup changes no representative. -/
theorem SameEnds.root_eq {s t : DisjointSet} (ranked : Ranked s) (h : SameEnds s t) (x : Nat) :
    t.root x = s.root x :=
  (ends_iff h.ranked).1 (h.ends (find_spec ranked x).1)

theorem parentOf_root {s : DisjointSet} (ranked : Ranked s) (x : Nat) : s.parentOf (s.root x) = s.root x :=
  (find_spec ranked x).1.root_eq

theorem root_eq_self_iff {s : DisjointSet} (ranked : Ranked s) {x : Nat} : s.root x = x ↔ s.parentOf x = x := by
  constructor
  · intro itself
    rw [← itself]
    exact parentOf_root ranked x
  · exact fun top => (ends_iff ranked).1 (.here top)

theorem root_lt_size {s : DisjointSet} (ranked : Ranked s) {x : Nat} (hx : x < s.size) : s.root x < s.size :=
  (find_spec ranked x).1.lt_size ranked hx

/-! ## Unions -/

/-- The set with the rank of `x` raised by one. -/
def raise (s : DisjointSet) (x : Nat) : DisjointSet := { s with rank := s.rank.modify x (· + 1) }

theorem rankOf_raise {s : DisjointSet} {x y : Nat} (hx : x < s.rank.size) :
    (s.raise x).rankOf y = if y = x then s.rankOf y + 1 else s.rankOf y := by
  simp only [raise, rankOf, Array.getElem?_modify]
  by_cases hy : y = x
  · subst hy
    simp [hx]
  · simp [hy, Ne.symm hy]

/-- A representative may rise. -/
theorem Ranked.raise {s : DisjointSet} (ranked : Ranked s) {x : Nat} (hx : x < s.size) (top : s.parentOf x = x) :
    Ranked (s.raise x) where
  sizes := (Array.size_modify ..).trans ranked.sizes
  inside := ranked.inside
  climbs y step := by
    have climb := ranked.climbs y step
    have other : y ≠ x := fun same => step (same ▸ top)
    show _ < (s.raise x).rankOf (s.parentOf y)
    rw [rankOf_raise (ranked.sizes ▸ hx), rankOf_raise (ranked.sizes ▸ hx), if_neg other]
    split <;> omega

theorem root_raise {s : DisjointSet} (ranked : Ranked s) {x : Nat} (hx : x < s.size) (top : s.parentOf x = x)
    (y : Nat) : (s.raise x).root y = s.root y := by
  have same : ∀ z, (s.raise x).parentOf z = s.parentOf z := fun _ => rfl
  exact (ends_iff (ranked.raise hx top)).1 ((find_spec ranked y).1.congr same)

/-- A representative may be pointed at one of greater rank. -/
theorem Ranked.point {s : DisjointSet} (ranked : Ranked s) {l w : Nat} (hl : l < s.size) (hw : w < s.size)
    (less : s.rankOf l < s.rankOf w) : Ranked (s.point l w) where
  sizes := by rw [size_point]; exact ranked.sizes
  inside y hy := by
    rw [size_point] at hy ⊢
    rw [parentOf_point hl]
    split
    · exact hw
    · exact ranked.inside y hy
  climbs y step := by
    rw [parentOf_point hl] at step ⊢
    simp only [rankOf_point]
    split at step
    next equal =>
      rw [if_pos equal, equal]
      exact less
    next other =>
      rw [if_neg other]
      exact ranked.climbs y step

/-- The class of the one that is pointed gets the end of the other. -/
theorem root_point {s : DisjointSet} (ranked : Ranked s) {l w : Nat} (hl : l < s.size) (hw : w < s.size)
    (topL : s.parentOf l = l) (topW : s.parentOf w = w) (less : s.rankOf l < s.rankOf w) (y : Nat) :
    (s.point l w).root y = if s.root y = l then w else s.root y := by
  have ne : w ≠ l := fun same => Nat.lt_irrefl _ (same ▸ less)
  have kept : (s.point l w).parentOf w = w := by rw [parentOf_point hl, if_neg ne, topW]
  have turned : Ends (s.point l w) l w := by
    have step : (s.point l w).parentOf l = w := by rw [parentOf_point hl, if_pos rfl]
    exact .up (by rwa [step]) (by rw [step]; exact .here kept)
  refine (ends_iff (ranked.point hl hw less)).1 ?_
  have way := (find_spec ranked y).1
  generalize s.root y = r at way ⊢
  induction way with
  | @here y root =>
    split
    next equal => exact equal ▸ turned
    next other => exact .here (by rw [parentOf_point hl, if_neg other, root])
  | @up y r step rest ih =>
    have other : y ≠ l := fun same => step (same ▸ topL)
    have same : (s.point l w).parentOf y = s.parentOf y := by rw [parentOf_point hl, if_neg other]
    exact .up (by rwa [same]) (by rwa [same])

/-- The class of the representative `l` has got the representative `w`, whose rank may have grown by one, which it
does only over an equal one. -/
structure Linked (s t : DisjointSet) (l w : Nat) : Prop where
  ranked : Ranked t
  size : t.size = s.size
  root : ∀ y, t.root y = if s.root y = l then w else s.root y
  rank : ∀ r, r ≠ w → t.rankOf r = s.rankOf r
  grown : t.rankOf w = s.rankOf w ∨ (s.rankOf l = s.rankOf w ∧ t.rankOf w = s.rankOf w + 1)

/-- Pointing a representative at one of greater rank links their classes. -/
theorem Linked.point {s : DisjointSet} (ranked : Ranked s) {l w : Nat} (hl : l < s.size) (hw : w < s.size)
    (topL : s.parentOf l = l) (topW : s.parentOf w = w) (less : s.rankOf l < s.rankOf w) :
    Linked s (s.point l w) l w where
  ranked := ranked.point hl hw less
  size := size_point s l w
  root := root_point ranked hl hw topL topW less
  rank _ _ := rfl
  grown := .inl rfl

/-- Merging links the classes of two representatives, one way or the other. -/
theorem linked_merge {s : DisjointSet} (ranked : Ranked s) {a b : Nat} (ha : a < s.size) (hb : b < s.size)
    (topA : s.parentOf a = a) (topB : s.parentOf b = b) (ne : a ≠ b) :
    ∃ l w, (l = a ∧ w = b ∨ l = b ∧ w = a) ∧ Linked s (s.merge a b) l w := by
  rcases Nat.lt_trichotomy (s.rankOf a) (s.rankOf b) with less | tie | more
  · have same : s.merge a b = s.point a b := if_pos less
    rw [same]
    exact ⟨a, b, .inl ⟨rfl, rfl⟩, .point ranked ha hb topA topB less⟩
  · have same : s.merge a b = (s.raise a).point b a := by
      rw [merge, if_neg (by omega), if_pos tie]
      rfl
    have raised := ranked.raise ha topA
    have rank : ∀ r, (s.raise a).rankOf r = if r = a then s.rankOf r + 1 else s.rankOf r :=
      fun _ => rankOf_raise (ranked.sizes ▸ ha)
    have less : (s.raise a).rankOf b < (s.raise a).rankOf a := by
      rw [rank, rank, if_neg ne.symm, if_pos rfl]
      omega
    obtain ⟨linked, size, root, kept, _⟩ := Linked.point raised hb ha topB topA less
    rw [same]
    refine ⟨b, a, .inr ⟨rfl, rfl⟩, linked, size, fun y => ?_, fun r hr => ?_, .inr ⟨tie.symm, ?_⟩⟩
    · rw [root, root_raise ranked ha topA]
    · rw [kept r hr, rank, if_neg hr]
    · rw [rankOf_point, rank, if_pos rfl]
  · have same : s.merge a b = s.point b a := by rw [merge, if_neg (by omega), if_neg (by omega)]
    rw [same]
    exact ⟨b, a, .inr ⟨rfl, rfl⟩, .point ranked hb ha topB topA more⟩

/-- A union looks both ids up and then links the classes of their representatives, if these are different. -/
theorem union_cases {s : DisjointSet} (ranked : Ranked s) {a b : Nat} (ha : a < s.size) (hb : b < s.size) :
    ∃ t, SameEnds s t ∧ t.parentOf (s.root a) = s.root a ∧ t.parentOf (s.root b) = s.root b ∧
      ((s.root a = s.root b ∧ s.union a b = (false, t)) ∨
        (s.root a ≠ s.root b ∧ (s.union a b).1 = true ∧ ∃ l w,
          (l = s.root a ∧ w = s.root b ∨ l = s.root b ∧ w = s.root a) ∧ Linked t (s.union a b).2 l w)) := by
  have first := (find_spec ranked a).2
  have second := (find_spec first.ranked b).2
  have both := first.trans second
  have rootB : (s.find a).2.root b = s.root b := first.root_eq ranked b
  set t := ((s.find a).2.find b).2
  have top : ∀ x, t.parentOf (s.root x) = s.root x := by
    intro x
    rw [← both.root_eq ranked x]
    exact parentOf_root both.ranked x
  refine ⟨t, both, top a, top b, ?_⟩
  by_cases same : s.root a = s.root b
  · have result : s.union a b = (false, t) := by
      show (if s.root a = (s.find a).2.root b then (false, t) else _) = _
      rw [rootB, if_pos same]
    exact .inl ⟨same, result⟩
  · have result : s.union a b = (true, t.merge (s.root a) (s.root b)) := by
      show (if s.root a = (s.find a).2.root b then _ else (true, t.merge (s.root a) ((s.find a).2.root b))) = _
      rw [rootB, if_neg same]
    have inside : ∀ x, x < s.size → s.root x < t.size := fun x hx => both.size ▸ root_lt_size ranked hx
    rw [result]
    exact .inr ⟨same, rfl, linked_merge both.ranked (inside a ha) (inside b hb) (top a) (top b) same⟩

/-- A union answers whether the classes were different. Afterwards the two are one class, and all others are
what they were. -/
theorem union_spec {s : DisjointSet} (ranked : Ranked s) {a b : Nat} (ha : a < s.size) (hb : b < s.size) :
    Ranked (s.union a b).2 ∧ (s.union a b).2.size = s.size ∧
      ((s.union a b).1 = true ↔ s.root a ≠ s.root b) ∧
      ∀ x y, (s.union a b).2.root x = (s.union a b).2.root y ↔ s.root x = s.root y ∨
        (s.root x = s.root a ∧ s.root b = s.root y) ∨ (s.root x = s.root b ∧ s.root a = s.root y) := by
  obtain ⟨t, both, -, -, ⟨same, result⟩ | ⟨apart, taken, l, w, pair, linked⟩⟩ := union_cases ranked ha hb
  · rw [result]
    refine ⟨both.ranked, both.size, by simp [same], fun x y => ?_⟩
    rw [both.root_eq ranked, both.root_eq ranked]
    grind
  · refine ⟨linked.ranked, linked.size.trans both.size, by simp [taken, apart], fun x y => ?_⟩
    rw [linked.root, linked.root, both.root_eq ranked, both.root_eq ranked]
    grind

/-- Alone, each id is its own representative. -/
theorem ranked_singletons (n : Nat) : Ranked (singletons n) ∧ (singletons n).size = n ∧
    ∀ x, (singletons n).root x = x := by
  have self : ∀ x, (singletons n).parentOf x = x := by
    intro x
    by_cases hx : x < n <;> simp [singletons, parentOf, hx]
  have ranked : Ranked (singletons n) := by
    refine ⟨by simp [singletons, size], fun x hx => ?_, fun x step => absurd (self x) step⟩
    rwa [self]
  exact ⟨ranked, by simp [singletons, size], fun x => (root_eq_self_iff ranked).2 (self x)⟩

end DisjointSet
end CliqueTree
