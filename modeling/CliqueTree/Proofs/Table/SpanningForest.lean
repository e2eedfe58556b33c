import CliqueTree.Proofs.Ascending
import CliqueTree.Proofs.Forest
import CliqueTree.Proofs.Table.DisjointSet
import CliqueTree.Table.SpanningForest

/-!
# What a lightest spanning forest selects

An edge is selected exactly when the edges before it, selected or not, do not join its ends (`Selection`).
Three facts follow for any order of the edges: what is selected is a forest, it joins all that the edges
join, and it does so early, in that the edges up to any point are joined by those selected up to there. With
the edges in order of weight, the last fact says that the ends of each edge are joined by selected edges that
are no heavier than it (`spanningForest_joined`).
-/

set_option autoImplicit false

namespace CliqueTree

/-- The classes of the set are the parts that the edges join. -/
structure DisjointSet.Tracks (s : DisjointSet) (done : List Edge) : Prop where
  ranked : s.Ranked
  classes : ∀ x y, s.root x = s.root y ↔ Joined done x y

/-- With the edges of the first list gone before, the third list holds the edges of the second that join
what no edge before them joins. -/
inductive Selection : List Edge → List Edge → List Edge → Prop
  | nil {done : List Edge} : Selection done [] []
  | take {done rest selected : List Edge} {e : Edge} (apart : ¬ Joined done e.1 e.2)
      (tail : Selection (done ++ [e]) rest selected) : Selection done (e :: rest) (e :: selected)
  | skip {done rest selected : List Edge} {e : Edge} (joined : Joined done e.1 e.2)
      (tail : Selection (done ++ [e]) rest selected) : Selection done (e :: rest) selected

theorem DisjointSet.tracks_singletons (n : Nat) : (DisjointSet.singletons n).Tracks [] := by
  obtain ⟨ranked, _, self⟩ := ranked_singletons n
  refine ⟨ranked, fun x y => ?_⟩
  rw [self, self]
  constructor
  · rintro rfl
    exact Joined.refl [] x
  · intro h
    induction h with
    | refl => rfl
    | tail _ step _ => simp [Touching] at step

theorem DisjointSet.Tracks.union {s : DisjointSet} {done : List Edge} (tracks : s.Tracks done) {u v : Nat}
    (hu : u < s.size) (hv : v < s.size) :
    (s.union u v).2.Tracks (done ++ [(u, v)]) ∧ ((s.union u v).1 = true ↔ ¬ Joined done u v) := by
  obtain ⟨ranked, _, answer, classes⟩ := union_spec tracks.ranked hu hv
  refine ⟨⟨ranked, fun x y => ?_⟩, by rw [answer, ne_eq, tracks.classes]⟩
  rw [classes, Joined.concat_iff]
  simp only [tracks.classes]

theorem selection_selectJoining (edges : List Edge) {s : DisjointSet} {done : List Edge} (tracks : s.Tracks done)
    (inside : ∀ e ∈ edges, e.1 < s.size ∧ e.2 < s.size) : Selection done edges (selectJoining s edges) := by
  induction edges generalizing s done with
  | nil => exact .nil
  | cons e rest ih =>
    obtain ⟨u, v⟩ := e
    obtain ⟨hu, hv⟩ := inside (u, v) List.mem_cons_self
    obtain ⟨tracks', answer⟩ := tracks.union hu hv
    have same := (DisjointSet.union_spec tracks.ranked hu hv).2.1
    have tail := ih tracks' fun e he => by
      rw [same]
      exact inside e (List.mem_cons_of_mem _ he)
    rw [selectJoining]
    generalize s.union u v = result at *
    obtain ⟨joined, t⟩ := result
    cases joined with
    | true => exact .take (answer.1 rfl) tail
    | false => exact .skip (Classical.not_not.1 fun apart => absurd (answer.2 apart) (by simp)) tail

namespace Selection
variable {done edges selected : List Edge}

theorem sublist (h : Selection done edges selected) : selected.Sublist edges := by
  induction h with
  | nil => exact .slnil
  | take _ _ ih => exact ih.cons_cons _
  | skip _ _ ih => exact ih.cons _

/-- What is selected of a list is what is selected of its first part and then of its second. -/
theorem of_append {first second : List Edge} (h : Selection done (first ++ second) selected) :
    ∃ early late, selected = early ++ late ∧ Selection done first early := by
  induction first generalizing done selected with
  | nil => exact ⟨[], selected, rfl, .nil⟩
  | cons e first ih =>
    cases h with
    | take apart tail =>
      obtain ⟨early, late, rfl, h⟩ := ih tail
      exact ⟨e :: early, late, rfl, .take apart h⟩
    | skip joined tail =>
      obtain ⟨early, late, rfl, h⟩ := ih tail
      exact ⟨early, late, rfl, .skip joined h⟩

/-- Selecting goes on after a first part of the list. -/
theorem append {first second early late : List Edge} (h : Selection done first early)
    (h' : Selection (done ++ first) second late) : Selection done (first ++ second) (early ++ late) := by
  induction h with
  | nil => simpa using h'
  | take apart _ ih => exact .take apart (ih (by simpa using h'))
  | skip joined _ ih => exact .skip joined (ih (by simpa using h'))

/-- There is one way to select. -/
theorem unique {selected' : List Edge} (h : Selection done edges selected) (h' : Selection done edges selected') :
    selected' = selected := by
  induction h generalizing selected' with
  | nil =>
    cases h'
    rfl
  | take apart _ ih =>
    cases h' with
    | take _ tail => rw [ih tail]
    | skip joined _ => exact absurd joined apart
  | skip joined _ ih =>
    cases h' with
    | take apart _ => exact absurd joined apart
    | skip _ tail => exact ih tail

/-- A forest that joins what the edges gone before join is extended to one that joins what all edges join. -/
theorem extends_forest (h : Selection done edges selected) {forest : List Edge} (isForest : IsForest forest)
    (same : ∀ a b, Joined forest a b ↔ Joined done a b) :
    IsForest (forest ++ selected) ∧ ∀ a b, Joined (forest ++ selected) a b ↔ Joined (done ++ edges) a b := by
  induction h generalizing forest with
  | nil => simpa using ⟨isForest, same⟩
  | take apart _ ih =>
    have next := ih (isForest.concat ((same _ _).not.2 apart)) fun a b => by
      rw [Joined.concat_iff, Joined.concat_iff]
      simp only [same]
    simpa using next
  | @skip done rest selected e joined _ ih =>
    have next := ih isForest fun a b => by
      rw [same, Joined.concat_iff]
      constructor
      · exact .inl
      · rintro (h | ⟨first, last⟩ | ⟨first, last⟩)
        · exact h
        · exact (first.trans joined).trans last
        · exact (first.trans joined.symm).trans last
    simpa using next

theorem isForest (h : Selection [] edges selected) : IsForest selected := by
  simpa using (h.extends_forest .nil fun _ _ => Iff.rfl).1

theorem joined_iff (h : Selection [] edges selected) (a b : Nat) : Joined selected a b ↔ Joined edges a b := by
  simpa using (h.extends_forest .nil fun _ _ => Iff.rfl).2 a b

/-- The ends of each edge are joined by what is selected up to it. -/
theorem joined_early {before after : List Edge} {e : Edge} (h : Selection [] (before ++ e :: after) selected) :
    ∃ early, (∀ f ∈ early, f ∈ selected ∧ f ∈ before ++ [e]) ∧ Joined early e.1 e.2 := by
  have split : before ++ e :: after = (before ++ [e]) ++ after := by simp
  rw [split] at h
  obtain ⟨early, late, rfl, first⟩ := h.of_append
  refine ⟨early, fun f hf => ⟨List.mem_append_left late hf, first.sublist.subset hf⟩, ?_⟩
  exact (first.joined_iff e.1 e.2).2 (.of_mem (by simp))

end Selection

section Weighted
variable {W : Type} [Ord W] {n : Nat} {edges : List (W × Edge)} {selected : List Edge}

theorem byWeight_perm (edges : List (W × Edge)) : (byWeight edges).Perm edges := List.mergeSort_perm edges _

theorem byWeight_pairwise [Std.TransOrd W] (edges : List (W × Edge)) :
    (byWeight edges).Pairwise fun a b => (compare a.1 b.1).isLE = true := by
  apply List.pairwise_mergeSort
  · intro a b c
    exact Std.TransOrd.isLE_trans
  · intro a b
    exact isLE_or_isLE a.1 b.1

/-- Only the order of the weights counts. -/
theorem spanningForest_map {V : Type} [Ord V] {f : W → V} (same : ∀ a b, compare (f a) (f b) = compare a b) (n : Nat)
    (edges : List (W × Edge)) : spanningForest n (edges.map (Prod.map f id)) = spanningForest n edges := by
  have sorted : byWeight (edges.map (Prod.map f id)) = (byWeight edges).map (Prod.map f id) := by
    refine (List.map_mergeSort fun a _ b _ => ?_).symm
    exact congrArg Ordering.isLE (same a.1 b.1).symm
  rw [spanningForest, spanningForest, sorted, List.flatMap_map, List.map_map]
  rfl

/-- With all ends inside the selection does not fail. -/
theorem spanningForest_of_inside (inside : ∀ e ∈ edges, e.2.1 < n ∧ e.2.2 < n) :
    spanningForest n edges = .ok (selectJoining (.singletons n) ((byWeight edges).map (·.2))) := by
  have none : (edges.flatMap fun e => [e.2.1, e.2.2]).find? (n ≤ ·) = none := by
    rw [List.find?_eq_none]
    intro i hi
    obtain ⟨e, he, hi⟩ := List.mem_flatMap.1 hi
    obtain ⟨first, second⟩ := inside e he
    rw [decide_eq_true_eq, Nat.not_le]
    rcases List.mem_pair.1 hi with rfl | rfl
    · exact first
    · exact second
  rw [spanningForest, none]

/-- The edges have their ends inside, and the selection goes by weight. -/
theorem spanningForest_eq_ok (h : spanningForest n edges = .ok selected) :
    (∀ e ∈ edges, e.2.1 < n ∧ e.2.2 < n) ∧ Selection [] ((byWeight edges).map (·.2)) selected := by
  unfold spanningForest at h
  split at h
  · cases h
  next none =>
    have inside : ∀ e ∈ edges, e.2.1 < n ∧ e.2.2 < n := by
      intro e he
      have found := fun i hi => List.find?_eq_none.1 none i (List.mem_flatMap.2 ⟨e, he, hi⟩)
      simpa using found
    obtain rfl := Except.ok.inj h
    refine ⟨inside, selection_selectJoining _ (DisjointSet.tracks_singletons n) fun e he => ?_⟩
    obtain ⟨f, hf, rfl⟩ := List.mem_map.1 he
    rw [(DisjointSet.ranked_singletons n).2.1]
    exact inside f ((List.mergeSort_perm edges _).mem_iff.1 hf)

/-- The ends of each edge are joined by selected edges no heavier than it. -/
theorem spanningForest_joined [Std.TransOrd W] (h : spanningForest n edges = .ok selected) {w : W} {e : Edge}
    (he : (w, e) ∈ edges) : ∃ light, (∀ f ∈ light, f ∈ selected ∧
      ∃ w', (w', f) ∈ edges ∧ (compare w' w).isLE = true) ∧ Joined light e.1 e.2 := by
  obtain ⟨before, after, sorted⟩ := List.append_of_mem ((byWeight_perm edges).mem_iff.2 he)
  have selection := (spanningForest_eq_ok h).2
  rw [sorted, List.map_append, List.map_cons] at selection
  obtain ⟨early, part, joined⟩ := selection.joined_early
  refine ⟨early, fun f hf => ⟨(part f hf).1, ?_⟩, joined⟩
  have ordered := byWeight_pairwise edges
  rw [sorted] at ordered
  have mem : ∀ {x}, x ∈ before ++ (w, e) :: after → x ∈ edges := fun hx =>
    (byWeight_perm edges).mem_iff.1 (sorted ▸ hx)
  rcases List.mem_append.1 (part f hf).2 with old | same
  · obtain ⟨⟨w', f'⟩, hx, rfl⟩ := List.mem_map.1 old
    exact ⟨w', mem (List.mem_append_left _ hx), (List.pairwise_append.1 ordered).2.2 _ hx _ List.mem_cons_self⟩
  · obtain rfl := List.mem_singleton.1 same
    exact ⟨w, he, by rw [Std.ReflOrd.compare_self]; rfl⟩

end Weighted
end CliqueTree
