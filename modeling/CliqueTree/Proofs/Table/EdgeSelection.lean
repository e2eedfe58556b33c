import CliqueTree.Proofs.Excerpt
import CliqueTree.Proofs.Parts
import CliqueTree.Proofs.Table.SpanningForest
import Mathlib.Data.List.Permutation

/-!
# Which occurrences of an edge are selected

The edges stand in a listing by ascending weight, in which those of equal weight keep their order (`Listing`). An
occurrence in it is selected exactly when the edges before it in the listing, selected or not, do not join its ends:
these are the newcomers of the listing (`newcomers`), and what is selected of a first part of a listing are the
newcomers of this part. Only an end that is no vertex is in the way, and the first one is named (`FirstOutside`).

With that, the result of `spanningForest` is known for all edges and all weights (`spanningForest_by_connectivity`).
-/

set_option autoImplicit false

namespace CliqueTree

/-! ### Ends outside -/

section Ends
variable {n id : Nat} {edges : List Edge}

/-- The id is the first end in the list that is not below the bound, where of the two ends of an edge the first
comes first. -/
def FirstOutside (n : Nat) (edges : List Edge) (id : Nat) : Prop :=
  ∃ before e after, edges = before ++ e :: after ∧ (∀ f ∈ before, f.1 < n ∧ f.2 < n) ∧
    (n ≤ e.1 ∧ id = e.1 ∨ e.1 < n ∧ n ≤ e.2 ∧ id = e.2)

theorem firstOutside_iff : FirstOutside n edges id ↔ FirstEnd (n ≤ ·) edges id := by
  simp only [FirstOutside, FirstEnd, Nat.not_le]

theorem ends_mem_range {W : Type} {edges : List (W × Edge)} (inside : ∀ e ∈ edges, e.2.1 < n ∧ e.2.2 < n) :
    ∀ e ∈ edges.map (·.2), e.1 ∈ List.range n ∧ e.2 ∈ List.range n := by
  intro e he
  obtain ⟨f, hf, rfl⟩ := List.mem_map.1 he
  simpa using inside f hf

end Ends

/-! ### Listings -/

section Listings
variable {W : Type} [Ord W] {edges listing listing' : List (W × Edge)}

/-- The edges in ascending order of weight; equal weights stay in their order. -/
structure Listing (edges listing : List (W × Edge)) : Prop where
  perm : listing.Perm edges
  ascends : listing.Pairwise fun a b => (compare a.1 b.1).isLE = true
  stable : ∀ w, listing.filter (fun e => compare e.1 w = .eq) = edges.filter fun e => compare e.1 w = .eq

theorem listing_byWeight [Std.TransOrd W] (edges : List (W × Edge)) : Listing edges (byWeight edges) := by
  refine ⟨byWeight_perm edges, byWeight_pairwise edges, fun w => ?_⟩
  apply filter_mergeSort
  · exact fun a b c => Std.TransOrd.isLE_trans
  · exact fun a b => isLE_or_isLE a.1 b.1
  · intro a b first second
    have first : compare a.1 w = .eq := by simpa using first
    have second : compare b.1 w = .eq := by simpa using second
    rw [Std.TransCmp.congr_left first, Std.OrientedOrd.eq_swap, second]
    rfl

end Listings

/-! ### Newcomers -/

section Newcomers
variable {W : Type} {listing : List (W × Edge)}

open Classical in
/-- The occurrences in the listing, each with its place, whose ends the edges before it do not join. -/
noncomputable def newcomers (listing : List (W × Edge)) : List ((W × Edge) × Nat) :=
  listing.zipIdx.filter fun o => ¬ Joined ((listing.take o.2).map (·.2)) o.1.2.1 o.1.2.2

theorem newcomers_sublist (listing : List (W × Edge)) : (newcomers listing).Sublist listing.zipIdx :=
  List.filter_sublist

theorem mem_newcomers {e : W × Edge} {i : Nat} : (e, i) ∈ newcomers listing ↔
    listing[i]? = some e ∧ ¬ Joined ((listing.take i).map (·.2)) e.2.1 e.2.2 := by
  simp [newcomers, List.mk_mem_zipIdx_iff_getElem?]

open Classical in
/-- The newcomers of a first part are newcomers, and the others stand behind it. -/
theorem newcomers_append (first second : List (W × Edge)) : newcomers (first ++ second) = newcomers first ++
    (second.zipIdx first.length).filter fun o => ¬ Joined (((first ++ second).take o.2).map (·.2)) o.1.2.1 o.1.2.2 := by
  have same : ∀ o ∈ first.zipIdx, (first ++ second).take o.2 = first.take o.2 := fun o ho =>
    List.take_append_of_le_length (Nat.le_of_lt (List.snd_lt_of_mem_zipIdx ho))
  rw [newcomers, newcomers, List.zipIdx_append, List.filter_append, Nat.zero_add]
  congr 1
  apply List.filter_congr
  intro o ho
  rw [same o ho]

open Classical in
/-- One edge more is a newcomer if the edges so far do not join its ends. -/
theorem newcomers_concat (listing : List (W × Edge)) (e : W × Edge) : newcomers (listing ++ [e]) =
    newcomers listing ++ if Joined (listing.map (·.2)) e.2.1 e.2.2 then [] else [(e, listing.length)] := by
  rw [newcomers_append, List.zipIdx_singleton, List.filter_singleton, List.take_left]
  by_cases joined : Joined (listing.map (·.2)) e.2.1 e.2.2 <;> simp [joined]

/-- What is selected in the order of the listing are its newcomers. -/
theorem selection_newcomers (listing : List (W × Edge)) :
    Selection [] (listing.map (·.2)) ((newcomers listing).map (·.1.2)) := by
  induction listing using List.reverseRecOn with
  | nil => exact .nil
  | append_singleton listing e ih =>
    rw [newcomers_concat, List.map_append, List.map_append]
    apply ih.append
    rw [List.nil_append]
    split
    next joined => exact .skip joined .nil
    next apart => exact .take apart .nil

end Newcomers

/-! ### The result -/

section Result
variable {W : Type} [Ord W] {n : Nat} {edges : List (W × Edge)} {error : GraphError}

theorem spanningForest_eq_error_iff : spanningForest n edges = .error error ↔
    ∃ id, FirstOutside n (edges.map (·.2)) id ∧ error = .unknownVertex (describeId id) := by
  have ends : (edges.flatMap fun e => [e.2.1, e.2.2]) = (edges.map (·.2)).flatMap fun e => [e.1, e.2] :=
    (List.flatMap_map (·.2) (fun e => [e.1, e.2]) edges).symm
  unfold spanningForest
  rw [ends]
  simp only [firstOutside_iff, ← find?_ends_eq_some_iff]
  split
  next id found => simp [found, eq_comm]
  next none => simp [none]

theorem exists_spanningForest_eq_error_iff :
    (∃ error, spanningForest n edges = .error error) ↔ ∃ e ∈ edges, n ≤ e.2.1 ∨ n ≤ e.2.2 := by
  have outside : (∃ id, FirstEnd (n ≤ ·) (edges.map (·.2)) id) ↔ _ := exists_firstEnd_iff
  simp only [List.mem_map, exists_exists_and_eq_and] at outside
  simp only [← outside, ← firstOutside_iff]
  constructor
  · rintro ⟨error, fails⟩
    obtain ⟨id, found, _⟩ := spanningForest_eq_error_iff.1 fails
    exact ⟨id, found⟩
  · exact fun ⟨id, found⟩ => ⟨_, spanningForest_eq_error_iff.2 ⟨id, found, rfl⟩⟩

/-- With all ends inside, the newcomers of the edges in order of weight are selected. -/
theorem spanningForest_eq_newcomers (inside : ∀ e ∈ edges, e.2.1 < n ∧ e.2.2 < n) :
    spanningForest n edges = .ok ((newcomers (byWeight edges)).map (·.1.2)) := by
  have runs := spanningForest_of_inside inside
  rw [runs, (selection_newcomers _).unique (spanningForest_eq_ok runs).2]

/-- The selection fails exactly when an end is no vertex, and it names the first one. Otherwise it selects, from a
listing by ascending weight that leaves ties in their order, the occurrences whose ends the edges before them in the
listing do not join. They are a forest that joins what all edges join, of as many edges as there are vertices less
the parts that the edges make of them. -/
theorem spanningForest_by_connectivity [Std.TransOrd W] (n : Nat) (edges : List (W × Edge)) :
    ((∃ error, spanningForest n edges = .error error) ↔ ∃ e ∈ edges, n ≤ e.2.1 ∨ n ≤ e.2.2) ∧
    (∀ error, spanningForest n edges = .error error ↔
      ∃ id, FirstOutside n (edges.map (·.2)) id ∧ error = .unknownVertex (describeId id)) ∧
    ((∀ e ∈ edges, e.2.1 < n ∧ e.2.2 < n) → ∃ listing, Listing edges listing ∧
      ∃ kept : List ((W × Edge) × Nat), kept.Sublist listing.zipIdx ∧
        (∀ e i, (e, i) ∈ kept ↔ listing[i]? = some e ∧ ¬ Joined ((listing.take i).map (·.2)) e.2.1 e.2.2) ∧
        ∃ selected, selected = kept.map (·.1.2) ∧ spanningForest n edges = .ok selected ∧
          selected.Sublist (listing.map (·.2)) ∧ IsForest selected ∧
          (∀ a b, Joined selected a b ↔ Joined (edges.map (·.2)) a b) ∧
          selected.length + (parts (Joined (edges.map (·.2))) (List.range n)).ncard = n) := by
  refine ⟨exists_spanningForest_eq_error_iff, fun error => spanningForest_eq_error_iff, fun inside => ?_⟩
  have selection := selection_newcomers (byWeight edges)
  have joined : ∀ a b, Joined ((newcomers (byWeight edges)).map (·.1.2)) a b ↔ Joined (edges.map (·.2)) a b := by
    intro a b
    have perm := (byWeight_perm edges).map (·.2)
    rw [selection.joined_iff]
    exact ⟨.mono perm.subset, .mono perm.symm.subset⟩
  refine ⟨byWeight edges, listing_byWeight edges, newcomers _, newcomers_sublist _, fun _ _ => mem_newcomers, _, rfl,
    spanningForest_eq_newcomers inside, selection.sublist, selection.isForest, joined, ?_⟩
  have same : Joined (edges.map (·.2)) = Joined ((newcomers (byWeight edges)).map (·.1.2)) := by
    funext a b
    exact propext (joined a b).symm
  rw [same]
  have ends := ends_mem_range fun e he => inside e ((byWeight_perm edges).mem_iff.1 he)
  rw [selection.isForest.ncard_parts List.nodup_range fun e he => ends e (selection.sublist.subset he),
    List.length_range]

end Result

/-- Six vertices with parallel edges of one weight, an edge from a vertex to itself, and a vertex without edges. -/
def tiedEdges : List (Nat × Edge) :=
  [(2, 0, 2), (1, 0, 1), (1, 1, 0), (0, 2, 2), (1, 1, 2), (2, 3, 4)]

/-- Of the four edges of least weight that are no loop the first and the last are selected, and of those of weight 2 the
last. With four vertices only, the second end of the last edge is the first one outside. -/
theorem tiedEdges_by_connectivity : (∀ e ∈ tiedEdges, e.2.1 < 6 ∧ e.2.2 < 6) ∧
    spanningForest 4 tiedEdges = .error (.unknownVertex "VertexId(4)") ∧
    ∃ listing, Listing tiedEdges listing ∧ ∃ kept : List ((Nat × Edge) × Nat), kept.Sublist listing.zipIdx ∧
      (∀ e i, (e, i) ∈ kept ↔ listing[i]? = some e ∧ ¬ Joined ((listing.take i).map (·.2)) e.2.1 e.2.2) ∧
      kept.map (·.1.2) = [(0, 1), (1, 2), (3, 4)] ∧
      spanningForest 6 tiedEdges = .ok [(0, 1), (1, 2), (3, 4)] ∧ IsForest [(0, 1), (1, 2), (3, 4)] ∧
      3 + (parts (Joined (tiedEdges.map (·.2))) (List.range 6)).ncard = 6 := by
  have inside : ∀ e ∈ tiedEdges, e.2.1 < 6 ∧ e.2.2 < 6 := by decide
  have outside : FirstOutside 4 (tiedEdges.map (·.2)) 4 :=
    ⟨[(0, 2), (0, 1), (1, 0), (2, 2), (1, 2)], (3, 4), [], rfl, by decide, by decide⟩
  have run : spanningForest 6 tiedEdges = .ok [(0, 1), (1, 2), (3, 4)] := by cbv
  obtain ⟨listing, isListing, kept, sub, exact, selected, rfl, ok, _, forest, _, count⟩ :=
    (spanningForest_by_connectivity 6 tiedEdges).2.2 inside
  have named := Except.ok.inj (ok.symm.trans run)
  rw [named] at forest count
  exact ⟨inside, ((spanningForest_by_connectivity 4 tiedEdges).2.1 _).2 ⟨4, outside, rfl⟩, listing, isListing, kept, sub,
    exact, named, run, forest, count⟩

end CliqueTree
