import CliqueTree.Proofs.JunctionTree.Runs
import CliqueTree.Proofs.Table.Excerpt

/-!
# Trees of some of the cliques

When some cliques share no member with the others, the tree of these cliques alone is what is left of the tree of all of
them. No edge between cliques that share a member is mixed, and a stable sort leaves the edges that are kept in their
order, so the selection takes from them what it takes from them alone (`Selection.filterMap`). The totals by which trees
come one after the other count selected edges at one clique, so they are the same too, and the walk is the walk through
an excerpt (`Parted.visitsOf_filter`). If the cliques that are kept are connected, they stand one right after the other.
-/

set_option autoImplicit false

namespace CliqueTree
open Relation (ReflTransGen)

/-! ### Spanning forests -/

section Forests
variable {part : Nat → Option Nat} {done edges selected : List Edge} {i j i' j' : Nat}

/-- A way from an id that is kept goes through such ids only, so it is a way through the excerpt. -/
theorem Joined.exists_filterMap (unmixed : ∀ e ∈ edges, Unmixed part e) (hi : part i = some i')
    (way : Joined edges i j) : ∃ j', part j = some j' ∧ Joined (edges.filterMap (both part)) i' j' := by
  induction way with
  | refl => exact ⟨i', hi, .refl _ i'⟩
  | @tail u v _ step ih =>
    obtain ⟨u', hu, way⟩ := ih
    have alike : (part u).isSome = (part v).isSome := by
      rcases step with forth | back
      · exact unmixed _ forth
      · exact (unmixed _ back).symm
    rw [hu] at alike
    obtain ⟨v', hv⟩ := Option.isSome_iff_exists.1 alike.symm
    refine ⟨v', hv, way.trans (.of_touching (step.imp (fun forth => ?_) fun back => ?_))⟩
    · exact List.mem_filterMap.2 ⟨_, forth, both_eq_some_iff.2 ⟨hu, hv⟩⟩
    · exact List.mem_filterMap.2 ⟨_, back, both_eq_some_iff.2 ⟨hv, hu⟩⟩

theorem Joined.of_filterMap (renumbers : Renumbers part) (hi : part i = some i')
    (way : Joined (edges.filterMap (both part)) i' j') : ∃ j, part j = some j' ∧ Joined edges i j := by
  induction way with
  | refl => exact ⟨i, hi, .refl _ i⟩
  | tail _ step ih =>
    obtain ⟨u, hu, way⟩ := ih
    rcases step with forth | back
    · obtain ⟨e, he, named⟩ := List.mem_filterMap.1 forth
      obtain ⟨first, second⟩ := both_eq_some_iff.1 named
      obtain rfl := renumbers.inj hu first
      exact ⟨e.2, second, way.trans (.of_mem he)⟩
    · obtain ⟨e, he, named⟩ := List.mem_filterMap.1 back
      obtain ⟨first, second⟩ := both_eq_some_iff.1 named
      obtain rfl := renumbers.inj hu second
      exact ⟨e.1, first, way.trans (Joined.of_mem he).symm⟩

theorem joined_filterMap (renumbers : Renumbers part) (unmixed : ∀ e ∈ edges, Unmixed part e) (hi : part i = some i')
    (hj : part j = some j') : Joined (edges.filterMap (both part)) i' j' ↔ Joined edges i j := by
  constructor
  · intro way
    obtain ⟨k, hk, way⟩ := way.of_filterMap renumbers hi
    rwa [renumbers.inj hj hk]
  · intro way
    obtain ⟨k, hk, way⟩ := way.exists_filterMap unmixed hi
    rwa [Option.some.inj (hj.symm.trans hk)]

/-- Of the edges that are kept the same ones are selected, whether the others are there or not. -/
theorem Selection.filterMap (renumbers : Renumbers part) (h : Selection done edges selected)
    (before : ∀ e ∈ done, Unmixed part e) (unmixed : ∀ e ∈ edges, Unmixed part e) :
    Selection (done.filterMap (both part)) (edges.filterMap (both part)) (selected.filterMap (both part)) := by
  have grown : ∀ {done rest : List Edge} {e : Edge}, (∀ d ∈ done, Unmixed part d) → (∀ d ∈ e :: rest, Unmixed part d) →
      ∀ d ∈ done ++ [e], Unmixed part d := by
    intro done rest e before unmixed
    exact List.forall_mem_append.2 ⟨before, List.forall_mem_singleton.2 (unmixed e List.mem_cons_self)⟩
  induction h with
  | nil => exact .nil
  | @take done rest selected e apart _ ih =>
    have tail := ih (grown before unmixed) fun d hd => unmixed d (List.mem_cons_of_mem e hd)
    rw [List.filterMap_append] at tail
    cases kept : both part e with
    | none =>
      rw [List.filterMap_cons_none kept, List.filterMap_cons_none kept]
      rwa [List.filterMap_cons_none kept, List.filterMap_nil, List.append_nil] at tail
    | some d =>
      obtain ⟨first, second⟩ := both_eq_some_iff.1 kept
      rw [List.filterMap_cons_some kept, List.filterMap_cons_some kept]
      rw [List.filterMap_cons_some kept, List.filterMap_nil] at tail
      exact .take (mt (joined_filterMap renumbers before first second).1 apart) tail
  | @skip done rest selected e joined _ ih =>
    have tail := ih (grown before unmixed) fun d hd => unmixed d (List.mem_cons_of_mem e hd)
    rw [List.filterMap_append] at tail
    cases kept : both part e with
    | none =>
      rw [List.filterMap_cons_none kept]
      rwa [List.filterMap_cons_none kept, List.filterMap_nil, List.append_nil] at tail
    | some d =>
      obtain ⟨first, second⟩ := both_eq_some_iff.1 kept
      rw [List.filterMap_cons_some kept]
      rw [List.filterMap_cons_some kept, List.filterMap_nil] at tail
      exact .skip ((joined_filterMap renumbers before first second).2 joined) tail

/-- What is left of an edge with a weight. -/
def weighted {W : Type} (part : Nat → Option Nat) (e : W × Edge) : Option (W × Edge) := (both part e.2).map (e.1, ·)

theorem map_snd_weighted {W : Type} (part : Nat → Option Nat) (es : List (W × Edge)) :
    (es.filterMap (weighted part)).map (·.2) = (es.map (·.2)).filterMap (both part) := by
  rw [List.map_filterMap, List.filterMap_map]
  refine congrArg (List.filterMap · es) (funext fun e => ?_)
  rw [weighted, Option.map_map]
  exact Option.map_id'

theorem byWeight_filterMap {W : Type} [Ord W] [Std.TransOrd W] (part : Nat → Option Nat) (es : List (W × Edge)) :
    byWeight (es.filterMap (weighted part)) = (byWeight es).filterMap (weighted part) := by
  have trans : ∀ a b c : W × Edge, (compare a.1 b.1).isLE = true → (compare b.1 c.1).isLE = true →
      (compare a.1 c.1).isLE = true := fun _ _ _ => Std.TransOrd.isLE_trans
  have total : ∀ a b : W × Edge, ((compare a.1 b.1).isLE || (compare b.1 a.1).isLE) = true :=
    fun a b => isLE_or_isLE a.1 b.1
  refine mergeSort_filterMap trans total trans total (fun a b c d hc hd => ?_) es
  obtain ⟨_, _, rfl⟩ := Option.map_eq_some_iff.1 hc
  obtain ⟨_, _, rfl⟩ := Option.map_eq_some_iff.1 hd
  rfl

end Forests

/-! ### Some of the cliques -/

section Parted
variable {K : Type} [VertexKey K] {keep : Clique K → Bool} {cs : List (Clique K)} {i j : Nat}

/-- Different canonical cliques, of which those that are kept share no member with the others. -/
structure Parted (keep : Clique K → Bool) (cs : List (Clique K)) : Prop where
  canonical : ∀ c ∈ cs, c.IsCanonical
  nodup : cs.Nodup
  apart : ∀ c ∈ cs, ∀ d ∈ cs, ∀ k ∈ c.members, k ∈ d.members → keep c = keep d

namespace Parted

theorem canonical_filter (h : Parted keep cs) : ∀ c ∈ cs.filter keep, c.IsCanonical :=
  fun c hc => h.canonical c (List.mem_filter.1 hc).1

theorem nodup_filter (h : Parted keep cs) : (cs.filter keep).Nodup := h.nodup.filter keep

theorem renumbers (h : Parted keep cs) : Renumbers (placeAmong keep cs) := renumbers_placeAmong h.nodup

theorem sharedAt_eq (h : Parted keep cs) {e d : Edge} (hd : both (placeAmong keep cs) e = some d) :
    sharedAt (cs.filter keep).toArray d = sharedAt cs.toArray e := by
  obtain ⟨first, second⟩ := both_eq_some_iff.1 hd
  simp only [sharedAt, List.getElem?_toArray, getElem?_placeAmong h.nodup first,
    getElem?_placeAmong h.nodup second]

/-- Cliques that share a member are both kept or none of them is. -/
theorem unmixed_overlapping (h : Parted keep cs) : ∀ e ∈ Graph.overlapping cs, Unmixed (placeAmong keep cs) e := by
  intro e he
  obtain ⟨_, c, d, hc, hd, shared⟩ := of_mem_overlapping he
  have hd' := List.mem_of_getElem? hd
  obtain ⟨k, inC, inD⟩ := (Clique.overlap_pos_iff (h.canonical d hd')).1 shared
  rw [Unmixed, isSome_placeAmong, isSome_placeAmong, hc, hd]
  exact h.apart c (List.mem_of_getElem? hc) d hd' k inC inD

end Parted

/-- The cliques that share a member, told by their places. -/
theorem overlapping_eq_filter (cs : List (Clique K)) : Graph.overlapping cs =
    (pairs (List.range cs.length)).filter fun e => 0 < sharedAt cs.toArray e := by
  have places : List.range cs.length = cs.zipIdx.map Prod.snd := by
    rw [List.zipIdx_map_snd, List.range_eq_range']
  rw [places, pairs_map, List.filter_map, Graph.overlapping]
  refine congrArg (List.map _) (List.filter_congr fun p hp => ?_)
  obtain ⟨first, second⟩ := mem_of_mem_pairs hp
  have first := List.mem_zipIdx_iff_getElem?.1 first
  have second := List.mem_zipIdx_iff_getElem?.1 second
  simp [sharedAt, first, second]

namespace Parted

theorem overlapping_filter (h : Parted keep cs) :
    Graph.overlapping (cs.filter keep) = (Graph.overlapping cs).filterMap (both (placeAmong keep cs)) := by
  have places := filterMap_placeAmong_range keep h.nodup
  rw [overlapping_eq_filter, overlapping_eq_filter, ← places, pairs_filterMap]
  refine filter_filterMap_comm fun e _ d hd => ?_
  rw [h.sharedAt_eq hd]

theorem overlapEdges_filter (h : Parted keep cs) :
    overlapEdges (cs.filter keep) = (overlapEdges cs).filterMap (weighted (placeAmong keep cs)) := by
  rw [overlapEdges, overlapEdges, Arena.keys_ofKeys h.nodup, Arena.keys_ofKeys h.nodup_filter, h.overlapping_filter,
    List.map_filterMap, List.filterMap_map]
  refine congrArg (List.filterMap · _) (funext fun e => ?_)
  cases kept : both (placeAmong keep cs) e with
  | none => simp [weighted, kept]
  | some d => simp [weighted, kept, h.sharedAt_eq kept]

theorem selection (h : Parted keep cs) : Selection [] ((byWeight (overlapEdges cs)).map (·.2)) (selectedOf cs) :=
  (spanningForest_eq_ok (spanningForest_overlapEdges h.nodup)).2

theorem filter (h : Parted keep cs) : Parted (fun _ => true) (cs.filter keep) :=
  ⟨h.canonical_filter, h.nodup_filter, fun _ _ _ _ _ _ _ => rfl⟩

theorem unmixed_byWeight (h : Parted keep cs) :
    ∀ e ∈ (byWeight (overlapEdges cs)).map (·.2), Unmixed (placeAmong keep cs) e := by
  intro e he
  obtain ⟨f, hf, rfl⟩ := List.mem_map.1 he
  obtain ⟨e, member, rfl⟩ := List.mem_map.1 ((byWeight_perm _).mem_iff.1 hf)
  exact h.unmixed_overlapping e member

theorem unmixed_selectedOf (h : Parted keep cs) : ∀ e ∈ selectedOf cs, Unmixed (placeAmong keep cs) e :=
  fun e he => h.unmixed_byWeight e (h.selection.sublist.subset he)

theorem selectedOf_filter (h : Parted keep cs) :
    selectedOf (cs.filter keep) = (selectedOf cs).filterMap (both (placeAmong keep cs)) := by
  have alone := h.filter.selection
  rw [h.overlapEdges_filter, byWeight_filterMap, map_snd_weighted] at alone
  exact (h.selection.filterMap h.renumbers (fun _ he => nomatch he) h.unmixed_byWeight).unique alone

theorem totalShared_filter (h : Parted keep cs) (hi : placeAmong keep cs i = some j) :
    totalShared (cs.filter keep).toArray (selectedOf (cs.filter keep)) j =
      totalShared cs.toArray (selectedOf cs) i := by
  have same : ∀ {v w : Nat}, placeAmong keep cs v = some w → (w = j ↔ v = i) := by
    intro v w hv
    constructor
    · rintro rfl
      exact h.renumbers.inj hv hi
    · rintro rfl
      exact Option.some.inj (hv.symm.trans hi)
  have other : ∀ {v : Nat}, placeAmong keep cs v = none → v ≠ i := by
    rintro v hv rfl
    exact nomatch hv.symm.trans hi
  rw [totalShared, totalShared, h.selectedOf_filter]
  refine foldl_filterMap (f := both (placeAmong keep cs)) (R := fun total total' : Nat => total' = total)
    (selectedOf cs) (fun total _ e _ d hd equal => ?_) (fun total _ e he out equal => ?_) rfl
  · obtain ⟨first, second⟩ := both_eq_some_iff.1 hd
    rw [equal, h.sharedAt_eq hd]
    simp only [same first, same second]
  · obtain ⟨first, second⟩ := (h.unmixed_selectedOf e he).eq_none out
    rw [equal, if_neg (other first), if_neg (other second)]
    rfl

theorem rootOrder_filter (h : Parted keep cs) :
    rootOrder (cs.filter keep).toArray (selectedOf (cs.filter keep)) =
      (rootOrder cs.toArray (selectedOf cs)).filterMap (placeAmong keep cs) := by
  let left (t : Nat × Nat) : Option (Nat × Nat) := (placeAmong keep cs t.2).map (t.1, ·)
  have places := filterMap_placeAmong_range keep h.nodup
  have totals : (List.range (cs.filter keep).length).map
      (fun j => (totalShared (cs.filter keep).toArray (selectedOf (cs.filter keep)) j, j)) =
        ((List.range cs.length).map fun i => (totalShared cs.toArray (selectedOf cs) i, i)).filterMap left := by
    rw [← places, List.map_filterMap, List.filterMap_map]
    refine congrArg (List.filterMap · _) (funext fun i => ?_)
    show (placeAmong keep cs i).map _ = (placeAmong keep cs i).map _
    cases place : placeAmong keep cs i with
    | none => rfl
    | some j => rw [Option.map_some, Option.map_some, h.totalShared_filter place]
  have sorted : ∀ l : List (Nat × Nat), (l.filterMap left).mergeSort (fun a b => b.1 ≤ a.1) =
      (l.mergeSort fun a b => b.1 ≤ a.1).filterMap left := by
    have trans : ∀ a b c : Nat × Nat, decide (b.1 ≤ a.1) = true → decide (c.1 ≤ b.1) = true →
        decide (c.1 ≤ a.1) = true := by
      intro a b c
      simpa using fun first second => Nat.le_trans second first
    have total : ∀ a b : Nat × Nat, (decide (b.1 ≤ a.1) || decide (a.1 ≤ b.1)) = true := by
      intro a b
      simpa using Nat.le_total b.1 a.1
    refine mergeSort_filterMap trans total trans total fun a b c d hc hd => ?_
    obtain ⟨_, _, rfl⟩ := Option.map_eq_some_iff.1 hc
    obtain ⟨_, _, rfl⟩ := Option.map_eq_some_iff.1 hd
    rfl
  rw [rootOrder, rootOrder, List.size_toArray, List.size_toArray, totals, sorted, List.map_filterMap,
    List.filterMap_map]
  refine congrArg (List.filterMap · _) (funext fun t => ?_)
  show ((placeAmong keep cs t.2).map _).map _ = placeAmong keep cs t.2
  rw [Option.map_map]
  exact Option.map_id'

/-! ### The walk -/

theorem excerpt (h : Parted keep cs) : Rows.Excerpt (placeAmong keep cs) (adjacencyOf cs.length (selectedOf cs))
    (adjacencyOf (cs.filter keep).length (selectedOf (cs.filter keep))) := by
  rw [h.selectedOf_filter]
  exact Rows.excerpt_adjacencyOf h.renumbers (lt_of_placeAmong h.nodup) h.unmixed_selectedOf

/-- The walk through the tree of the cliques that are kept is what is left of the walk. -/
theorem visitsOf_filter (h : Parted keep cs) :
    visitsOf (cs.filter keep) = (visitsOf cs).filterMap (Rows.visitOf (placeAmong keep cs)) := by
  rw [visitsOf, layoutVisits, List.size_toArray, h.rootOrder_filter, h.excerpt.forest_eq]
  rfl

/-- The tree of the cliques that are kept lists them in the order in which the tree of all lists them. -/
theorem cliques_filter (h : Parted keep cs) (p : OrderPolicy) :
    (treeOf (cs.filter keep) p).cliques = (treeOf cs p).cliques.filter keep := by
  rw [cliques_treeOf h.canonical h.nodup, cliques_treeOf h.canonical_filter h.nodup_filter, h.visitsOf_filter,
    Rows.map_vertex_filterMap, filterMap_placeAmong]

/-- Its edges are those of the tree of all between cliques that are kept. -/
theorem edges_filter (h : Parted keep cs) (p : OrderPolicy) :
    (treeOf (cs.filter keep) p).edges = (treeOf cs p).edges.filter fun e => keep e.1 && keep e.2 := by
  have some_inj : Function.Injective (Prod.map (some : Clique K → _) (some : Clique K → _)) :=
    (Option.some_injective _).prodMap (Option.some_injective _)
  let kept (e : Option (Clique K) × Option (Clique K)) : Bool := e.1.any keep && e.2.any keep
  have steps : ∀ es : List Edge, (es.filterMap (both (placeAmong keep cs))).map
      (Prod.map ((cs.filter keep)[·]?) ((cs.filter keep)[·]?)) = (es.map (Prod.map (cs[·]?) (cs[·]?))).filter kept := by
    intro es
    induction es with
    | nil => rfl
    | cons e es ih =>
      have tested : kept (Prod.map (cs[·]?) (cs[·]?) e) = (both (placeAmong keep cs) e).isSome := by
        rw [isSome_both, isSome_placeAmong, isSome_placeAmong]
        rfl
      cases place : both (placeAmong keep cs) e with
      | none =>
        rw [place] at tested
        rw [List.filterMap_cons_none place, ih, List.map_cons, List.filter_cons_of_neg (by rw [tested]; simp)]
      | some d =>
        rw [place] at tested
        obtain ⟨first, second⟩ := both_eq_some_iff.1 place
        rw [List.filterMap_cons_some place, List.map_cons, ih, List.map_cons,
          List.filter_cons_of_pos (by rw [tested]; rfl), Prod.map, getElem?_placeAmong h.nodup first,
          getElem?_placeAmong h.nodup second, Prod.map]
  apply List.map_injective_iff.2 some_inj
  rw [edges_treeOf h.canonical_filter h.nodup_filter, h.visitsOf_filter, Rows.stepsOf_filterMap, steps,
    ← edges_treeOf h.canonical h.nodup, List.filter_map]
  rfl

/-! ### The block -/

theorem inside_selectedOf (h : Parted keep cs) : ∀ e ∈ selectedOf cs, e.1 < cs.length ∧ e.2 < cs.length := by
  have inside := (spanned_selectedOf h.canonical h.nodup).inside
  rwa [size_ofKeys h.nodup] at inside

/-- A way in the tree between two cliques is a way along selected edges between their places. -/
theorem linked_of_joined (h : Parted keep cs) {p : OrderPolicy} {c d : Clique K} (hi : cs[i]? = some c)
    (hj : cs[j]? = some d) (way : Joined (treeOf cs p).edges c d) :
    ReflTransGen (adjacencyOf cs.length (selectedOf cs)).Linked i j := by
  obtain ⟨_, steps, _⟩ := layoutVisits_spec cs.toArray h.inside_selectedOf
  have ends : ∀ e ∈ stepsOf (visitsOf cs), e.1 < cs.length ∧ e.2 < cs.length := by
    intro e he
    rcases steps e he with forth | back
    · exact h.inside_selectedOf _ forth
    · exact (h.inside_selectedOf _ back).symm
  have inj : ∀ u v, u < cs.length → v < cs.length → cs[u]? = cs[v]? → u = v := by
    intro u v small _ same
    exact (List.getElem?_inj small h.nodup).1 same
  have way : Joined (stepsOf (visitsOf cs)) i j := way.of_map_eq (edges_treeOf h.canonical h.nodup p) inj ends
    (List.getElem?_eq_some_iff.1 hi).1 (List.getElem?_eq_some_iff.1 hj).1 hi.symm hj.symm
  have selected : Joined (selectedOf cs) i j := way.lift fun e he => .of_touching (steps e he)
  have linked := (Rows.linked_foldl_link_blank h.inside_selectedOf).2.2
  exact ReflTransGen.mono (fun u v step => (linked u v).2 step) _ _ selected

/-- When the tree joins the cliques that are kept, it lists them one right after the other. -/
theorem cliques_eq_append (h : Parted keep cs) {p : OrderPolicy}
    (connected : ∀ c ∈ cs, ∀ d ∈ cs, keep c = true → keep d = true → Joined (treeOf cs p).edges c d) :
    ∃ before after, (treeOf cs p).cliques = before ++ (treeOf (cs.filter keep) p).cliques ++ after := by
  have linked : ∀ u v, (placeAmong keep cs u).isSome → (placeAmong keep cs v).isSome →
      ReflTransGen (adjacencyOf cs.length (selectedOf cs)).Linked u v := by
    intro u v hu hv
    rw [isSome_placeAmong, Option.any_eq_true] at hu hv
    obtain ⟨c, hc, keepC⟩ := hu
    obtain ⟨d, hd, keepD⟩ := hv
    exact h.linked_of_joined hc hd
      (connected c (List.mem_of_getElem? hc) d (List.mem_of_getElem? hd) keepC keepD)
  obtain ⟨before, block, after, split, own, others, _⟩ :=
    h.excerpt.blocked_forest linked (rootOrder cs.toArray (selectedOf cs))
  let named (visits : List Visit) : List (Clique K) := (visits.map (·.vertex)).filterMap (cs[·]?)
  have all : (treeOf cs p).cliques = named before ++ named block ++ named after := by
    have walk : visitsOf cs = before ++ block ++ after := by
      rw [← split, visitsOf, layoutVisits, List.size_toArray]
    rw [cliques_treeOf h.canonical h.nodup, walk]
    simp [named]
  have none : ∀ visits : List Visit, (∀ visit ∈ visits, placeAmong keep cs visit.vertex = none) →
      (named visits).filter keep = [] := by
    intro visits out
    have empty : (visits.map (·.vertex)).filterMap (placeAmong keep cs) = [] := by
      refine List.filterMap_eq_nil_iff.2 fun v hv => ?_
      obtain ⟨visit, member, rfl⟩ := List.mem_map.1 hv
      exact out visit member
    rw [← filterMap_placeAmong, empty, List.filterMap_nil]
  have block_kept : (named block).filter keep = named block := by
    refine List.filter_eq_self.2 fun c hc => ?_
    obtain ⟨v, hv, hc⟩ := List.mem_filterMap.1 hc
    obtain ⟨visit, member, rfl⟩ := List.mem_map.1 hv
    obtain ⟨j, hj⟩ := own visit member
    have kept := isSome_placeAmong keep cs visit.vertex
    rw [hj, hc] at kept
    exact kept.symm
  refine ⟨named before, named after, ?_⟩
  rw [h.cliques_filter, all, List.filter_append, List.filter_append, block_kept,
    none before fun visit hv => others visit (List.mem_append_left after hv),
    none after fun visit hv => others visit (List.mem_append_right before hv), List.nil_append, List.append_nil]

end Parted
end Parted
end CliqueTree
