import CliqueTree.Proofs.Hypergraph
import Mathlib.Algebra.Group.Fin.Basic
import Mathlib.Data.Set.Pairwise.Basic

/-!
# Perfect orders and chords

An order of the vertices is perfect when the neighbours of a vertex that come after it are adjacent to each
other. A graph with a perfect order has a chord in every cycle of four or more vertices
(`PerfectOrder.chordal`): the first vertex of the cycle in the order has its two neighbours on the cycle
after it. In the same way the first vertex of a complete set has the rest of the set among its later
neighbours, so every maximal clique is a vertex with its later neighbours, and a family of complete sets
that covers all others reduces to nothing, vertex after vertex (`PerfectOrder.reducible`).
-/

set_option autoImplicit false

namespace CliqueTree

section Order
variable {α : Type} (adj : α → α → Prop)

/-- The neighbours of each vertex that come after it are adjacent to each other. -/
def PerfectOrder : List α → Prop
  | [] => True
  | v :: later => (∀ a ∈ later, ∀ b ∈ later, a ≠ b → adj v a → adj v b → adj a b) ∧ PerfectOrder later

instance decidablePerfectOrder [DecidableEq α] [DecidableRel adj] : DecidablePred (PerfectOrder adj)
  | [] => .isTrue trivial
  | v :: later =>
    have := decidablePerfectOrder later
    inferInstanceAs (Decidable ((∀ a ∈ later, ∀ b ∈ later, a ≠ b → adj v a → adj v b → adj a b) ∧ PerfectOrder adj later))

/-- Every cycle of at least four different vertices has two that are adjacent without being next to each
other on it. -/
def Chordal : Prop :=
  ∀ (n : Nat) (cycle : Fin (n + 4) → α), Function.Injective cycle →
    (∀ i, adj (cycle i) (cycle (i + 1))) →
    ∃ i j, i ≠ j ∧ j ≠ i + 1 ∧ i ≠ j + 1 ∧ adj (cycle i) (cycle j)

/-- Every two different vertices of the list are adjacent. -/
def Complete (l : List α) : Prop := ∀ a ∈ l, ∀ b ∈ l, a ≠ b → adj a b

/-- A nonempty set of vertices, adjacent to each other, that no vertex outside is adjacent to in full. -/
structure IsMaximalClique (vertices members : List α) : Prop where
  nonempty : members ≠ []
  inside : ∀ a ∈ members, a ∈ vertices
  complete : Complete adj members
  maximal : ∀ v ∈ vertices, v ∉ members → ∃ a ∈ members, ¬ adj v a

end Order

section Chords
variable {α : Type} {adj : α → α → Prop}

/-- An order is perfect when it is at each of its vertices. -/
theorem perfectOrder_iff {order : List α} : PerfectOrder adj order ↔
    ∀ before v after, order = before ++ v :: after →
      ∀ a ∈ after, ∀ b ∈ after, a ≠ b → adj v a → adj v b → adj a b := by
  constructor
  · intro perfect before
    induction before generalizing order with
    | nil =>
      rintro v after rfl
      exact perfect.1
    | cons u before ih =>
      rintro v after rfl
      exact ih perfect.2 v after rfl
  · intro each
    induction order with
    | nil => exact trivial
    | cons u order ih =>
      refine ⟨each [] u order rfl, ih fun before v after split => each (u :: before) v after ?_⟩
      rw [split, List.cons_append]

theorem PerfectOrder.later {before after : List α} {v : α} (perfect : PerfectOrder adj (before ++ v :: after)) :
    ∀ a ∈ after, ∀ b ∈ after, a ≠ b → adj v a → adj v b → adj a b :=
  perfectOrder_iff.1 perfect before v after rfl

theorem val_succ_on_cycle {n : Nat} (i : Fin (n + 4)) :
    (i.val = n + 3 ∧ (i + 1).val = 0) ∨ (i.val < n + 3 ∧ (i + 1).val = i.val + 1) := by
  have small := i.isLt
  have next : (i + 1).val = (i.val + 1) % (n + 4) := by rw [Fin.val_add, Fin.val_one', Nat.add_mod_mod]
  rcases Nat.lt_or_ge i.val (n + 3) with below | last
  · exact .inr ⟨below, next.trans (Nat.mod_eq_of_lt (by omega))⟩
  · have last : i.val = n + 3 := by omega
    exact .inl ⟨last, by rw [next, last, Nat.mod_self]⟩

/-- On a cycle of four or more vertices, two places that are two steps apart are neither the same nor next
to each other. -/
theorem two_steps_apart {n : Nat} (i : Fin (n + 4)) :
    i ≠ i + 1 + 1 ∧ i + 1 + 1 ≠ i + 1 ∧ i ≠ i + 1 + 1 + 1 := by
  have first := val_succ_on_cycle i
  have second := val_succ_on_cycle (i + 1)
  have third := val_succ_on_cycle (i + 1 + 1)
  simp only [ne_eq, ← Fin.val_inj]
  omega

/-- A cycle through the vertices of a perfect order has a chord: it joins the neighbours of the vertex that
comes first. -/
theorem PerfectOrder.exists_chord [Std.Symm adj] {order : List α} (perfect : PerfectOrder adj order) {n : Nat}
    {cycle : Fin (n + 4) → α} (distinct : Function.Injective cycle)
    (linked : ∀ i, adj (cycle i) (cycle (i + 1))) (inside : ∀ i, cycle i ∈ order) :
    ∃ i j, i ≠ j ∧ j ≠ i + 1 ∧ i ≠ j + 1 ∧ adj (cycle i) (cycle j) := by
  induction order with
  | nil => exact absurd (inside 0) List.not_mem_nil
  | cons v later ih =>
    by_cases first : ∃ i, cycle (i + 1) = v
    · obtain ⟨i, rfl⟩ := first
      have ⟨apart, notNext, notPrevious⟩ := two_steps_apart i
      have previous : cycle i ∈ later := by
        refine List.mem_of_ne_of_mem (fun equal => ?_) (inside i)
        have := val_succ_on_cycle i
        have := congrArg Fin.val (distinct equal)
        omega
      have next : cycle (i + 1 + 1) ∈ later :=
        List.mem_of_ne_of_mem (fun equal => notNext (distinct equal)) (inside _)
      exact ⟨i, i + 1 + 1, apart, notNext, notPrevious,
        perfect.1 _ previous _ next (fun equal => apart (distinct equal))
          (Std.Symm.symm _ _ (linked i)) (linked (i + 1))⟩
    · refine ih perfect.2 fun i => List.mem_of_ne_of_mem (fun equal => first ⟨i - 1, ?_⟩) (inside i)
      rw [sub_add_cancel, equal]

theorem PerfectOrder.chordal [Std.Symm adj] {order : List α} (perfect : PerfectOrder adj order)
    (all : ∀ a b, adj a b → a ∈ order) : Chordal adj :=
  fun _ _ distinct linked => perfect.exists_chord distinct linked fun i => all _ _ (linked i)

/-- A perfect order stays one under other names. -/
theorem PerfectOrder.filterMap {β : Type} {adj' : β → β → Prop} {f : α → Option β} {order : List α}
    (same : ∀ {a b x y}, f a = some x → f b = some y → (adj' x y ↔ adj a b)) (perfect : PerfectOrder adj order) :
    PerfectOrder adj' (order.filterMap f) := by
  induction order with
  | nil => trivial
  | cons v later ih =>
    cases named : f v with
    | none =>
      rw [List.filterMap_cons_none named]
      exact ih perfect.2
    | some z =>
      rw [List.filterMap_cons_some named]
      refine ⟨fun x hx y hy ne vx vy => ?_, ih perfect.2⟩
      obtain ⟨a, ha, hax⟩ := List.mem_filterMap.1 hx
      obtain ⟨b, hb, hby⟩ := List.mem_filterMap.1 hy
      refine (same hax hby).2 (perfect.1 a ha b hb ?_ ((same named hax).1 vx) ((same named hby).1 vy))
      rintro rfl
      exact ne (Option.some.inj (hax.symm.trans hby))

end Chords

section Cliques
variable {α : Type} {adj : α → α → Prop} {vertices members other : List α}

theorem Complete.mono (h : Complete adj members) (sub : ∀ a ∈ other, a ∈ members) : Complete adj other :=
  fun a ha b hb => h a (sub a ha) b (sub b hb)

/-- A vertex that is adjacent to all of a complete set may join it. -/
theorem Complete.cons [Std.Symm adj] {v : α} (h : Complete adj members) (linked : ∀ a ∈ members, adj v a) :
    Complete adj (v :: members) := by
  intro a ha b hb ne
  rcases List.mem_cons.1 ha with newA | oldA <;> rcases List.mem_cons.1 hb with newB | oldB
  · exact absurd (newA.trans newB.symm) ne
  · exact newA ▸ linked b oldB
  · exact newB ▸ Std.Symm.symm _ _ (linked a oldA)
  · exact h a oldA b oldB ne

/-- No complete set goes beyond a maximal clique. -/
theorem IsMaximalClique.of_subset (h : IsMaximalClique adj vertices members) (inside : ∀ a ∈ other, a ∈ vertices)
    (complete : Complete adj other) (sub : ∀ a ∈ members, a ∈ other) :
    ∀ a, a ∈ members ↔ a ∈ other := by
  intro a
  refine ⟨sub a, fun ha => Classical.byContradiction fun outside => ?_⟩
  obtain ⟨b, hb, apart⟩ := h.maximal a (inside a ha) outside
  refine apart (complete a ha b (sub b hb) ?_)
  rintro rfl
  exact outside hb

/-- Only the elements matter. -/
theorem IsMaximalClique.congr (h : IsMaximalClique adj vertices members) (same : ∀ a, a ∈ members ↔ a ∈ other) :
    IsMaximalClique adj vertices other where
  nonempty := by
    obtain ⟨a, ha⟩ := List.exists_mem_of_ne_nil _ h.nonempty
    exact List.ne_nil_of_mem ((same a).1 ha)
  inside a ha := h.inside a ((same a).2 ha)
  complete a ha b hb := h.complete a ((same a).2 ha) b ((same b).2 hb)
  maximal v hv outside := by
    obtain ⟨a, ha, apart⟩ := h.maximal v hv fun hv => outside ((same v).1 hv)
    exact ⟨a, (same a).1 ha, apart⟩

/-- A maximal clique stays one under other names. -/
theorem IsMaximalClique.rename {β : Type} {adj' : β → β → Prop} {vertices' other : List β}
    (h : IsMaximalClique adj vertices members) (Names : α → β → Prop) (inside : ∀ b ∈ other, b ∈ vertices')
    (named : ∀ a ∈ vertices, ∃ b, Names a b) (names : ∀ b ∈ vertices', ∃ a ∈ vertices, Names a b)
    (once : ∀ {a b b'}, Names a b → Names a b' → b = b')
    (adjacent : ∀ {a a' b b'}, Names a b → Names a' b' → (adj' b b' ↔ adj a a'))
    (same : ∀ {a b}, Names a b → (a ∈ members ↔ b ∈ other)) : IsMaximalClique adj' vertices' other where
  nonempty := by
    obtain ⟨a, ha⟩ := List.exists_mem_of_ne_nil _ h.nonempty
    obtain ⟨b, hb⟩ := named a (h.inside a ha)
    exact List.ne_nil_of_mem ((same hb).1 ha)
  inside := inside
  complete b hb b' hb' ne := by
    obtain ⟨a, _, ab⟩ := names b (inside b hb)
    obtain ⟨a', _, ab'⟩ := names b' (inside b' hb')
    refine (adjacent ab ab').2 (h.complete a ((same ab).2 hb) a' ((same ab').2 hb') ?_)
    rintro rfl
    exact ne (once ab ab')
  maximal b hb outside := by
    obtain ⟨a, ha, ab⟩ := names b hb
    obtain ⟨a', ha', apart⟩ := h.maximal a ha fun member => outside ((same ab).1 member)
    obtain ⟨b', ab'⟩ := named a' (h.inside a' ha')
    exact ⟨b', (same ab').1 ha', fun linked => apart ((adjacent ab ab').1 linked)⟩

/-- A complete set lies inside a maximal clique: as long as a vertex is adjacent to all of it, it may join. -/
theorem exists_isMaximalClique [Std.Symm adj] (some : members ≠ []) (inside : ∀ a ∈ members, a ∈ vertices)
    (complete : Complete adj members) :
    ∃ clique, IsMaximalClique adj vertices clique ∧ ∀ a ∈ members, a ∈ clique := by
  classical
  induction size : (vertices.filter (· ∉ members)).length using Nat.strong_induction_on generalizing members with
  | _ size ih =>
    subst size
    by_cases grows : ∃ v ∈ vertices, v ∉ members ∧ ∀ a ∈ members, adj v a
    · obtain ⟨v, hv, outside, linked⟩ := grows
      have fewer : (vertices.filter (· ∉ v :: members)).length < (vertices.filter (· ∉ members)).length := by
        have split : vertices.filter (· ∉ v :: members) = (vertices.filter (· ∉ members)).filter (· ≠ v) := by
          rw [List.filter_filter]
          refine List.filter_congr fun a _ => ?_
          simp [not_or]
        rw [split, List.length_filter_lt_length_iff_exists]
        exact ⟨v, List.mem_filter.2 ⟨hv, by simpa using outside⟩, by simp⟩
      obtain ⟨clique, maximal, within⟩ := ih _ fewer (List.cons_ne_nil v members)
        (List.forall_mem_cons.2 ⟨hv, inside⟩) (complete.cons linked) rfl
      exact ⟨clique, maximal, fun a ha => within a (List.mem_cons_of_mem v ha)⟩
    · refine ⟨members, ⟨some, inside, complete, fun v hv outside => ?_⟩, fun _ h => h⟩
      apply Classical.byContradiction
      intro none
      exact grows ⟨v, hv, outside, fun a ha => Classical.byContradiction fun apart => none ⟨a, ha, apart⟩⟩

/-- The first vertex of a set in an order has the rest of the set after it. -/
theorem exists_first {order s : List α} (some : s ≠ []) (inside : ∀ a ∈ s, a ∈ order) :
    ∃ before v after, order = before ++ v :: after ∧ v ∈ s ∧ (∀ a ∈ s, a ∉ before) := by
  classical
  obtain ⟨a, ha⟩ := List.exists_mem_of_ne_nil s some
  cases found : order.find? (· ∈ s) with
  | none => exact absurd (List.find?_eq_none.1 found a (inside a ha)) (by simpa using ha)
  | some v =>
    obtain ⟨hv, before, after, equal, none⟩ := List.find?_eq_some_iff_append.1 found
    refine ⟨before, v, after, equal, by simpa using hv, fun b hb within => ?_⟩
    have := none b within
    simp [hb] at this

end Cliques

section Family
variable {ι α : Type} {adj : α → α → Prop}

/-- A family of complete sets of the listed vertices that covers every such set. -/
structure CliqueCover (adj : α → α → Prop) (vertices : List α) (I : Finset ι) (C : ι → Finset α) : Prop where
  inside : ∀ i ∈ I, ∀ x ∈ C i, x ∈ vertices
  complete : ∀ i ∈ I, ∀ a ∈ C i, ∀ b ∈ C i, a ≠ b → adj a b
  covers : ∀ s : Finset α, (∀ x ∈ s, x ∈ vertices) → (∀ a ∈ s, ∀ b ∈ s, a ≠ b → adj a b) → ∃ i ∈ I, s ⊆ C i

/-- Some member of a cover holds the first vertex with all its later neighbours, and so all other members
that the vertex lies in. -/
theorem CliqueCover.exists_first_star {v : α} {later : List α} {I : Finset ι} {C : ι → Finset α}
    [Std.Symm adj] (cover : CliqueCover adj (v :: later) I C) (perfect : PerfectOrder adj (v :: later)) :
    ∃ k ∈ I, ∀ i ∈ I, v ∈ C i → C i ⊆ C k := by
  classical
  let star := insert v (later.toFinset.filter (adj v))
  have mem_star : ∀ x, x ∈ star ↔ x = v ∨ x ∈ later ∧ adj v x := by simp [star]
  have listed : ∀ x ∈ star, x ∈ v :: later := by
    intro x hx
    rcases (mem_star x).1 hx with rfl | ⟨hx, _⟩
    · exact List.mem_cons_self
    · exact List.mem_cons_of_mem v hx
  have complete : ∀ a ∈ star, ∀ b ∈ star, a ≠ b → adj a b := by
    intro a ha b hb ne
    rcases (mem_star a).1 ha with rfl | ⟨ha, va⟩ <;> rcases (mem_star b).1 hb with rfl | ⟨hb, vb⟩
    · exact absurd rfl ne
    · exact vb
    · exact Std.Symm.symm _ _ va
    · exact perfect.1 a ha b hb ne va vb
  obtain ⟨k, hk, within⟩ := cover.covers star listed complete
  refine ⟨k, hk, fun i hi hv x hx => within ((mem_star x).2 ?_)⟩
  by_cases equal : x = v
  · exact .inl equal
  · exact .inr ⟨List.mem_of_ne_of_mem equal (cover.inside i hi x hx),
      cover.complete i hi v hv x hx (Ne.symm equal)⟩

variable [DecidableEq ι] [DecidableEq α]

/-- Sets that lie inside a member of a family that reduces may join it. -/
theorem Reducible.union {J : Finset ι} {C : ι → Finset α} {k : ι} (hk : k ∈ J) (h : Reducible J C)
    (S : Finset ι) (dominated : ∀ i ∈ S, C i ⊆ C k) : Reducible (S ∪ J) C := by
  induction S using Finset.induction_on with
  | empty => rwa [Finset.empty_union]
  | insert a S _ ih =>
    have rest := ih fun i hi => dominated i (Finset.mem_insert_of_mem hi)
    by_cases old : a ∈ S ∪ J
    · rwa [Finset.insert_union, Finset.insert_eq_of_mem old]
    · have kept : k ∈ S ∪ J := Finset.mem_union_right S hk
      rw [Finset.insert_union]
      refine .drop a k (Finset.mem_insert_self a _) (Finset.mem_insert_of_mem kept) ?_
        (dominated a (Finset.mem_insert_self a S)) ?_
      · rintro rfl
        exact old kept
      · rwa [Finset.erase_insert old]

/-- Without the first vertex, the members that do not lie inside `C k` cover the later vertices, and so does
`C k`. -/
theorem CliqueCover.later {v : α} {later : List α} {I : Finset ι} {C : ι → Finset α} {k : ι}
    (cover : CliqueCover adj (v :: later) I C) (fresh : v ∉ later) (hk : k ∈ I)
    (star : ∀ i ∈ I, v ∈ C i → C i ⊆ C k) :
    CliqueCover adj later (I.filter fun i => v ∈ C i → i = k) fun i => (C i).erase v where
  inside i hi x hx := by
    obtain ⟨ne, hx⟩ := Finset.mem_erase.1 hx
    exact List.mem_of_ne_of_mem ne (cover.inside i (Finset.mem_filter.1 hi).1 x hx)
  complete i hi a ha b hb :=
    cover.complete i (Finset.mem_filter.1 hi).1 a (Finset.mem_of_mem_erase ha) b (Finset.mem_of_mem_erase hb)
  covers s inside complete := by
    have apart : v ∉ s := fun hv => fresh (inside v hv)
    obtain ⟨i, hi, within⟩ := cover.covers s (fun x hx => List.mem_cons_of_mem v (inside x hx)) complete
    by_cases hv : v ∈ C i
    · exact ⟨k, Finset.mem_filter.2 ⟨hk, fun _ => rfl⟩,
        Finset.subset_erase.2 ⟨within.trans (star i hi hv), apart⟩⟩
    · exact ⟨i, Finset.mem_filter.2 ⟨hi, fun hv' => absurd hv' hv⟩, Finset.subset_erase.2 ⟨within, apart⟩⟩

/-- The complete sets of a graph with a perfect order form a family that reduces to nothing. -/
theorem PerfectOrder.reducible [Std.Symm adj] {order : List α} (nodup : order.Nodup) (perfect : PerfectOrder adj order)
    {I : Finset ι} {C : ι → Finset α} (cover : CliqueCover adj order I C) : Reducible I C := by
  induction order generalizing I C with
  | nil =>
    exact .empty fun i hi => Finset.eq_empty_of_forall_notMem fun x hx =>
      absurd (cover.inside i hi x hx) List.not_mem_nil
  | cons v later ih =>
    obtain ⟨fresh, nodup⟩ := List.nodup_cons.1 nodup
    obtain ⟨k, hk, star⟩ := cover.exists_first_star perfect
    have rest := ih nodup perfect.2 (cover.later fresh hk star)
    have kept : Reducible (I.filter fun i => v ∈ C i → i = k) C :=
      .erase v k (fun i hi => (Finset.mem_filter.1 hi).2) rest
    have all := kept.union (Finset.mem_filter.2 ⟨hk, fun _ => rfl⟩) (I.filter (v ∈ C ·))
      fun i hi => star i (Finset.mem_filter.1 hi).1 (Finset.mem_filter.1 hi).2
    convert all using 1
    ext i
    simp only [Finset.mem_union, Finset.mem_filter]
    tauto

end Family
end CliqueTree
