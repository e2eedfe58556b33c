import CliqueTree.Proofs.Ascending
import CliqueTree.Proofs.Simple
import Mathlib.Data.List.NodupEquivFin

/-!
# Excerpts of lists

A partial map takes an excerpt of a list by `List.filterMap`. What is done to a list and what is done to its excerpt go
together: pairs (`pairs_filterMap`), first occurrences (`distinct_filterMap`), stable sorting (`mergeSort_filterMap`)
and folds that do nothing to the excerpt at the entries left out (`foldl_filterMap`). So a stable sort leaves those that
compare equal in their order (`filter_mergeSort`). The excerpts that matter here count numbers again, in their order
(`Renumbers`), as the places of what is kept of a list are counted (`renumbers_placeAmong`); then ascending lists have
ascending excerpts.
-/

set_option autoImplicit false

namespace CliqueTree

section Lists
variable {α β : Type} {f : α → Option β}

/-- What both entries of a pair become, if both are kept. -/
def both (f : α → Option β) (p : α × α) : Option (β × β) := do return (← f p.1, ← f p.2)

theorem both_eq_some_iff {p : α × α} {q : β × β} : both f p = some q ↔ f p.1 = some q.1 ∧ f p.2 = some q.2 := by
  obtain ⟨a, b⟩ := p
  obtain ⟨c, d⟩ := q
  unfold both
  cases f a <;> cases f b <;> simp

theorem both_map (f : α → Option β) {γ : Type} (g : β → γ) (p : α × α) :
    both (fun a => (f a).map g) p = (both f p).map (Prod.map g g) := by
  cases first : f p.1 <;> cases second : f p.2 <;> simp [both, first, second]

theorem both_bind (f : α → Option β) {γ : Type} (g : β → Option γ) (p : α × α) :
    both (fun a => (f a).bind g) p = (both f p).bind (both g) := by
  cases first : f p.1 <;> cases second : f p.2 <;> simp [both, first, second]

theorem both_filter (f : α → Option β) (keep : β → Bool) (p : α × α) :
    both (fun a => (f a).filter keep) p = (both f p).filter fun q => keep q.1 && keep q.2 := by
  cases first : f p.1 with
  | none => simp [both, first]
  | some b =>
    cases second : f p.2 with
    | none => simp [both, first, second]
    | some c =>
      cases keepB : keep b <;> cases keepC : keep c <;> simp [both, first, second, Option.filter_some, keepB, keepC]

theorem isSome_both (f : α → Option β) (p : α × α) : (both f p).isSome = ((f p.1).isSome && (f p.2).isSome) := by
  unfold both
  cases f p.1 <;> cases f p.2 <;> rfl

theorem pairs_filterMap (f : α → Option β) (l : List α) : pairs (l.filterMap f) = (pairs l).filterMap (both f) := by
  induction l with
  | nil => rfl
  | cons a l ih =>
    rw [pairs, List.filterMap_append, ← ih, List.filterMap_map]
    cases kept : f a with
    | none =>
      have none : both f ∘ (a, ·) = fun _ => none := by
        funext b
        simp [both, kept]
      rw [List.filterMap_cons_none kept, none, List.filterMap_none, List.nil_append]
    | some c =>
      have first : both f ∘ (a, ·) = fun b => (f b).map (c, ·) := by
        funext b
        cases other : f b <;> simp [both, kept, other]
      rw [List.filterMap_cons_some kept, pairs, first, List.map_filterMap]

/-- Different entries that are kept become different. -/
def Distinguishes (f : α → Option β) (l : List α) : Prop :=
  ∀ a ∈ l, ∀ b ∈ l, ∀ c, f a = some c → f b = some c → a = b

theorem distinct_filterMap [DecidableEq α] [DecidableEq β] {l : List α} (inj : Distinguishes f l) :
    distinct (l.filterMap f) = (distinct l).filterMap f := by
  induction l using List.reverseRecOn with
  | nil => rfl
  | append_singleton l a ih =>
    have before : Distinguishes f l := fun b hb c hc =>
      inj b (List.mem_append_left [a] hb) c (List.mem_append_left [a] hc)
    rw [List.filterMap_append, distinct_concat, apply_ite (List.filterMap f), List.filterMap_append, ← ih before]
    cases kept : f a with
    | none => simp [kept]
    | some c =>
      have member : c ∈ l.filterMap f ↔ a ∈ l := by
        rw [List.mem_filterMap]
        constructor
        · rintro ⟨b, hb, same⟩
          rwa [inj a (by simp) b (List.mem_append_left [a] hb) c kept same]
        · exact fun ha => ⟨a, ha, kept⟩
      rw [List.filterMap_cons_some kept, List.filterMap_nil, distinct_concat]
      simp only [member]

/-- A test that agrees on what is kept goes together with the excerpt. -/
theorem filter_filterMap_comm {keep : α → Bool} {keep' : β → Bool} {l : List α}
    (agree : ∀ a ∈ l, ∀ b, f a = some b → keep' b = keep a) :
    (l.filterMap f).filter keep' = (l.filter keep).filterMap f := by
  induction l with
  | nil => rfl
  | cons a l ih =>
    have ih := ih fun b hb => agree b (List.mem_cons_of_mem a hb)
    cases kept : f a with
    | none => by_cases pass : keep a = true <;> simp [kept, pass, ih]
    | some c =>
      have same := agree a List.mem_cons_self c kept
      by_cases pass : keep a = true <;> simp [kept, pass, ih, same]

/-- What keeps the excerpt in step at every entry keeps it in step along the list. -/
theorem foldl_filterMap {σ τ : Type} {R : σ → τ → Prop} {step : σ → α → σ} {step' : τ → β → τ} (l : List α)
    (own : ∀ s t, ∀ a ∈ l, ∀ b, f a = some b → R s t → R (step s a) (step' t b))
    (other : ∀ s t, ∀ a ∈ l, f a = none → R s t → R (step s a) t) {s : σ} {t : τ} (h : R s t) :
    R (l.foldl step s) ((l.filterMap f).foldl step' t) := by
  induction l generalizing s t with
  | nil => exact h
  | cons a l ih =>
    have next := @ih (fun s t b hb => own s t b (List.mem_cons_of_mem a hb))
      (fun s t b hb => other s t b (List.mem_cons_of_mem a hb))
    cases kept : f a with
    | none =>
      rw [List.filterMap_cons_none kept]
      exact next (other s t a List.mem_cons_self kept h)
    | some b =>
      rw [List.filterMap_cons_some kept]
      exact next (own s t a List.mem_cons_self b kept h)

/-- A list has one way to be cut into what has a property and what lacks it. -/
theorem append_inj_of_forall {first first' second second' : List α} {P : α → Prop}
    (same : first ++ second = first' ++ second') (has : ∀ a ∈ first, P a) (has' : ∀ a ∈ first', P a)
    (lacks : ∀ a ∈ second, ¬ P a) (lacks' : ∀ a ∈ second', ¬ P a) : first = first' ∧ second = second' := by
  induction first generalizing first' with
  | nil =>
    cases first' with
    | nil => exact ⟨rfl, same⟩
    | cons a first' =>
      have member : a ∈ second := by
        rw [List.nil_append] at same
        rw [same]
        exact List.mem_cons_self
      exact absurd (has' a List.mem_cons_self) (lacks a member)
  | cons a first ih =>
    cases first' with
    | nil =>
      have member : a ∈ second' := by
        rw [List.nil_append] at same
        rw [← same]
        exact List.mem_cons_self
      exact absurd (has a List.mem_cons_self) (lacks' a member)
    | cons b first' =>
      obtain ⟨rfl, rest⟩ := List.cons.inj same
      obtain ⟨rfl, rfl⟩ := ih rest (fun x hx => has x (List.mem_cons_of_mem a hx))
        fun x hx => has' x (List.mem_cons_of_mem a hx)
      exact ⟨rfl, rfl⟩

/-- A stable sort moves the excerpt as the same sort moves it alone. -/
theorem mergeSort_filterMap {le : α → α → Bool} {le' : β → β → Bool}
    (trans : ∀ a b c, le a b = true → le b c = true → le a c = true) (total : ∀ a b, (le a b || le b a) = true)
    (trans' : ∀ a b c, le' a b = true → le' b c = true → le' a c = true) (total' : ∀ a b, (le' a b || le' b a) = true)
    (agree : ∀ a b c d, f a = some c → f b = some d → le' c d = le a b) (l : List α) :
    (l.filterMap f).mergeSort le' = (l.mergeSort le).filterMap f := by
  induction l with
  | nil => simp
  | cons a l ih =>
    obtain ⟨first, second, sorted, rest, apart⟩ := List.mergeSort_cons trans total a l
    have order := List.pairwise_mergeSort trans total (a :: l)
    rw [sorted] at order ⊢
    rw [rest] at ih
    cases kept : f a with
    | none => simp [kept, ih]
    | some c =>
      rw [List.filterMap_cons_some kept]
      obtain ⟨first', second', sorted', rest', apart'⟩ := List.mergeSort_cons trans' total' c (l.filterMap f)
      have order' := List.pairwise_mergeSort trans' total' (c :: l.filterMap f)
      rw [sorted'] at order' ⊢
      rw [ih, List.filterMap_append] at rest'
      -- in both lists the entry stands just before the first one that it may precede
      have splits := append_inj_of_forall (P := fun d => (!le' c d) = true) rest' ?_ apart' ?_ ?_
      · rw [List.filterMap_append, List.filterMap_cons_some kept, splits.1, splits.2]
      · intro d hd
        obtain ⟨b, hb, other⟩ := List.mem_filterMap.1 hd
        rw [agree a b c d kept other]
        exact apart b hb
      · intro d hd
        obtain ⟨b, hb, other⟩ := List.mem_filterMap.1 hd
        rw [agree a b c d kept other, (List.pairwise_cons.1 (List.pairwise_append.1 order).2.1).1 b hb]
        simp
      · intro d hd
        rw [(List.pairwise_cons.1 (List.pairwise_append.1 order').2.1).1 d hd]
        simp

/-- A stable sort leaves those that compare equal in their order. -/
theorem filter_mergeSort {le : α → α → Bool} (trans : ∀ a b c, le a b = true → le b c = true → le a c = true)
    (total : ∀ a b, (le a b || le b a) = true) {p : α → Bool}
    (even : ∀ a b, p a = true → p b = true → le a b = true) (l : List α) :
    (l.mergeSort le).filter p = l.filter p := by
  have sorted : (l.filter p).Pairwise fun a b => le a b = true :=
    List.pairwise_of_forall_mem_list fun a ha b hb => even a b (List.mem_filter.1 ha).2 (List.mem_filter.1 hb).2
  have agree : ∀ a b c d, Option.guard p a = some c → Option.guard p b = some d → le c d = le a b := by
    intro a b c d first second
    rw [(Option.guard_eq_some_iff.1 first).1, (Option.guard_eq_some_iff.1 second).1]
  calc (l.mergeSort le).filter p = (l.filter p).mergeSort le := by
        rw [← List.filterMap_eq_filter, mergeSort_filterMap trans total trans total agree]
    _ = l.filter p := List.mergeSort_of_pairwise sorted

/-- In a sorted list those that compare equal stand in the order in which they were. -/
theorem pairwise_mergeSort_stable {le : α → α → Bool} {R : α → α → Prop}
    (trans : ∀ a b c, le a b = true → le b c = true → le a c = true) (total : ∀ a b, (le a b || le b a) = true)
    {l : List α} (ordered : l.Pairwise R) :
    (l.mergeSort le).Pairwise fun a b => le a b = true ∧ (le b a = true → R a b) := by
  rw [List.pairwise_iff_forall_sublist]
  intro a b part
  have sorted := List.pairwise_iff_forall_sublist.1 (List.pairwise_mergeSort trans total l) part
  refine ⟨sorted, fun tie => ?_⟩
  let ties (c : α) : Bool := le a c && le c a
  have even : ∀ c d, ties c = true → ties d = true → le c d = true := by
    intro c d first second
    rw [Bool.and_eq_true] at first second
    exact trans c a d first.2 second.1
  have self : le a a = true := by simpa using total a a
  have pair : [a, b].filter ties = [a, b] := by simp [ties, self, sorted, tie]
  have kept := part.filter ties
  rw [pair, filter_mergeSort trans total even] at kept
  exact List.pairwise_iff_forall_sublist.1 ordered (kept.trans List.filter_sublist)

end Lists

/-! ### Numbers counted again -/

/-- Some numbers are counted again, in their order. -/
structure Renumbers (part : Nat → Option Nat) : Prop where
  lt_iff : ∀ {i i' j j' : Nat}, part i = some j → part i' = some j' → (i < i' ↔ j < j')

section Numbers
variable {part : Nat → Option Nat} {i i' j j' : Nat} {l : List Nat}

theorem Renumbers.inj (h : Renumbers part) (hi : part i = some j) (hi' : part i' = some j) : i = i' := by
  rcases Nat.lt_trichotomy i i' with less | same | more
  · exact absurd ((h.lt_iff hi hi').1 less) (Nat.lt_irrefl j)
  · exact same
  · exact absurd ((h.lt_iff hi' hi).1 more) (Nat.lt_irrefl j)

theorem Renumbers.distinguishes (h : Renumbers part) (l : List Nat) : Distinguishes part l :=
  fun _ _ _ _ _ => h.inj

theorem Renumbers.mem_filterMap (h : Renumbers part) (hi : part i = some j) : j ∈ l.filterMap part ↔ i ∈ l := by
  rw [List.mem_filterMap]
  constructor
  · rintro ⟨i', member, same⟩
    rwa [h.inj hi same]
  · exact fun member => ⟨i, member, hi⟩

theorem Renumbers.isAscending (h : Renumbers part) (ascends : IsAscending l) : IsAscending (l.filterMap part) := by
  refine ascends.filterMap part fun i i' less j hj j' hj' => ?_
  rw [Nat.compare_eq_lt] at less ⊢
  exact (h.lt_iff hj hj').1 less

theorem Renumbers.ascending_filterMap (h : Renumbers part) (l : List Nat) :
    ascending (l.filterMap part) = (ascending l).filterMap part := by
  apply (isAscending_ascending _).ext (h.isAscending (isAscending_ascending l))
  intro j
  simp only [mem_ascending, List.mem_filterMap]

theorem isAscending_range (n : Nat) : IsAscending (List.range n) := by
  refine List.Pairwise.imp (fun less => ?_) List.pairwise_lt_range
  exact Nat.compare_eq_lt.2 less

end Numbers

section Places
variable {α : Type} [DecidableEq α] {l : List α} {keep : α → Bool} {i j : Nat}

/-- The place that an element has among those that are kept, if it is one of them. -/
def placeAmong (keep : α → Bool) (l : List α) (i : Nat) : Option Nat :=
  (l[i]?.filter keep).map (l.filter keep).idxOf

theorem placeAmong_eq_some_iff (nodup : l.Nodup) :
    placeAmong keep l i = some j ↔ ∃ a, l[i]? = some a ∧ (l.filter keep)[j]? = some a := by
  simp only [placeAmong, Option.map_eq_some_iff, Option.filter_eq_some_iff]
  constructor
  · rintro ⟨a, ⟨named, kept⟩, rfl⟩
    exact ⟨a, named, List.getElem?_idxOf (List.mem_filter.2 ⟨List.mem_of_getElem? named, kept⟩)⟩
  · rintro ⟨a, named, placed⟩
    have kept := (List.mem_filter.1 (List.mem_of_getElem? placed)).2
    obtain ⟨small, rfl⟩ := List.getElem?_eq_some_iff.1 placed
    exact ⟨_, ⟨named, kept⟩, (nodup.filter keep).idxOf_getElem j small⟩

theorem isSome_placeAmong (keep : α → Bool) (l : List α) (i : Nat) :
    (placeAmong keep l i).isSome = (l[i]?).any keep := by
  rw [placeAmong, Option.isSome_map, Option.isSome_filter]

theorem lt_of_placeAmong (nodup : l.Nodup) (h : placeAmong keep l i = some j) :
    i < l.length ∧ j < (l.filter keep).length := by
  obtain ⟨a, first, second⟩ := (placeAmong_eq_some_iff nodup).1 h
  exact ⟨(List.getElem?_eq_some_iff.1 first).1, (List.getElem?_eq_some_iff.1 second).1⟩

theorem getElem?_placeAmong (nodup : l.Nodup) (h : placeAmong keep l i = some j) : (l.filter keep)[j]? = l[i]? := by
  obtain ⟨a, first, second⟩ := (placeAmong_eq_some_iff nodup).1 h
  rw [first, second]

/-- What is kept stands at its new place. -/
theorem bind_placeAmong (keep : α → Bool) (l : List α) (i : Nat) :
    (placeAmong keep l i).bind ((l.filter keep)[·]?) = (l[i]?).filter keep := by
  cases named : l[i]? with
  | none => simp [placeAmong, named]
  | some a =>
    rw [placeAmong, named, Option.filter_some]
    split
    next kept => exact List.getElem?_idxOf (List.mem_filter.2 ⟨List.mem_of_getElem? named, kept⟩)
    next => rfl

/-- The elements at the new places are those of the old ones that are kept. -/
theorem filterMap_placeAmong (keep : α → Bool) (l : List α) (places : List Nat) :
    (places.filterMap (placeAmong keep l)).filterMap ((l.filter keep)[·]?) =
      (places.filterMap (l[·]?)).filter keep := by
  rw [List.filterMap_filterMap, List.filter_filterMap]
  exact congrArg (List.filterMap · places) (funext (bind_placeAmong keep l))

/-- The places of what is kept are counted in their order. -/
theorem renumbers_placeAmong (nodup : l.Nodup) : Renumbers (placeAmong keep l) := by
  obtain ⟨place, same⟩ :=
    List.sublist_iff_exists_orderEmbedding_getElem?_eq.1 (List.filter_sublist (p := keep) (l := l))
  have placed : ∀ {i j}, placeAmong keep l i = some j → place j = i := by
    intro i j hi
    obtain ⟨a, first, second⟩ := (placeAmong_eq_some_iff nodup).1 hi
    rw [same] at second
    obtain ⟨small, named⟩ := List.getElem?_eq_some_iff.1 first
    obtain ⟨small', named'⟩ := List.getElem?_eq_some_iff.1 second
    exact (List.Nodup.getElem_inj_iff nodup).1 (named'.trans named.symm)
  refine ⟨fun hi hi' => ?_⟩
  rw [← placed hi, ← placed hi']
  exact place.lt_iff_lt

/-- Counted again, all places of the list are all places of what is kept. -/
theorem filterMap_placeAmong_range (keep : α → Bool) (nodup : l.Nodup) :
    (List.range l.length).filterMap (placeAmong keep l) = List.range (l.filter keep).length := by
  apply ((renumbers_placeAmong nodup).isAscending (isAscending_range _)).ext (isAscending_range _)
  intro j
  rw [List.mem_filterMap]
  constructor
  · rintro ⟨i, _, hi⟩
    exact List.mem_range.2 (lt_of_placeAmong nodup hi).2
  · intro hj
    have small := List.mem_range.1 hj
    have named : (l.filter keep)[j]? = some (l.filter keep)[j] := List.getElem?_eq_getElem small
    obtain ⟨i, hi⟩ := List.mem_iff_getElem?.1 (List.mem_filter.1 (List.mem_of_getElem? named)).1
    exact ⟨i, List.mem_range.2 (List.getElem?_eq_some_iff.1 hi).1, (placeAmong_eq_some_iff nodup).2 ⟨_, hi, named⟩⟩

end Places
end CliqueTree
