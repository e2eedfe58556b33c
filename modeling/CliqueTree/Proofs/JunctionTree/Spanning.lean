import CliqueTree.JunctionTree.Basic
import CliqueTree.Proofs.Graph.CliqueGraph
import CliqueTree.Proofs.Hypergraph
import CliqueTree.Proofs.JunctionTree.Layout
import CliqueTree.Proofs.Table.SpanningForest

/-!
# The spanning forest of the cliques

The cliques that share a member are joined in the clique graph, the lighter the more they share. A lightest
spanning forest joins the ends of each edge by edges that are no heavier, and the layout keeps its edges. So in
the tree every two cliques that share members are connected by steps at least as wide as what they share
(`Spanned.widelyConnected`).
-/

set_option autoImplicit false

namespace CliqueTree
open Relation (ReflTransGen)

section Overlapping
variable {K : Type} [VertexKey K] {cs : List (Clique K)}

theorem sharedAt_eq {a : Arena (Clique K)} {e : Edge} {c d : Clique K} (hc : a.key? e.1 = some c)
    (hd : a.key? e.2 = some d) : sharedAt a.keys e = c.overlap d := by
  unfold Arena.key? at hc hd
  rw [sharedAt, hc, hd]

theorem compare_neg_natCast (a b : Nat) : compare (-(a : Int)) (-(b : Int)) = compare b a := by
  have less : -(a : Int) < -(b : Int) ↔ b < a := by omega
  have equal : -(a : Int) = -(b : Int) ↔ b = a := by omega
  show compareOfLessAndEq _ _ = compareOfLessAndEq _ _
  simp only [compareOfLessAndEq, less, equal]

/-- The edges are taken by descending numbers of shared members. -/
theorem spanningForest_overlapWeights (n : Nat) (g : Graph (Clique K)) : spanningForest n (overlapWeights g) =
    @spanningForest Nat (.opposite inferInstance) n (g.edgeIds.toList.map fun e => (sharedAt g.arena.keys e, e)) := by
  let _ : Ord Nat := .opposite inferInstance
  have same : ∀ a b : Nat, compare (-(a : Int)) (-(b : Int)) = compare a b := compare_neg_natCast
  rw [← spanningForest_map same, List.map_map]
  rfl

end Overlapping

section Spanning
variable {K : Type} [VertexKey K]

/-- The edges between cliques that share a member, the lighter the more they share. -/
def overlapEdges (cs : List (Clique K)) : List (Int × Edge) :=
  (Graph.overlapping cs).map fun e => (-(sharedAt (Arena.ofKeys cs).keys e : Int), e)

/-- The edges of the tree that is laid out for a list of cliques and the selected edges. -/
def treeEdges (cs : List (Clique K)) (selected : List Edge) : List (Clique K × Clique K) :=
  (layout (Arena.ofKeys cs).keys selected).edges

/-- The edges are selected from those of a list of different cliques in canonical form. -/
structure Spanned (cs : List (Clique K)) (selected : List Edge) : Prop where
  canonical : ∀ c ∈ cs, c.IsCanonical
  nodup : cs.Nodup
  spans : spanningForest (Arena.ofKeys cs).size (overlapEdges cs) = .ok selected

variable {cs : List (Clique K)} {selected : List Edge}

theorem of_mem_overlapEdges (nodup : cs.Nodup) {w : Int} {e : Edge} (h : (w, e) ∈ overlapEdges cs) :
    e.1 ≠ e.2 ∧ ∃ c d, (Arena.ofKeys cs).key? e.1 = some c ∧ (Arena.ofKeys cs).key? e.2 = some d ∧
      w = -(c.overlap d : Int) := by
  obtain ⟨f, hf, same⟩ := List.mem_map.1 h
  cases same
  obtain ⟨ne, c, d, hc, hd, _⟩ := of_mem_overlapping hf
  rw [← key?_ofKeys nodup] at hc hd
  exact ⟨ne, c, d, hc, hd, by rw [sharedAt_eq hc hd]⟩

/-- Two cliques that share a member are joined by an edge whose weight tells how many they share. -/
theorem mem_overlapEdges (canonical : ∀ c ∈ cs, c.IsCanonical) (nodup : cs.Nodup) {c d : Clique K} {i j : Nat}
    (hi : (Arena.ofKeys cs).key? i = some c) (hj : (Arena.ofKeys cs).key? j = some d) (ne : i ≠ j)
    (shared : (c.members.toFinset ∩ d.members.toFinset).Nonempty) :
    ∃ e, (e = (i, j) ∨ e = (j, i)) ∧
      (-((c.members.toFinset ∩ d.members.toFinset).card : Int), e) ∈ overlapEdges cs := by
  have placeC := (key?_ofKeys nodup i).symm.trans hi
  have placeD := (key?_ofKeys nodup j).symm.trans hj
  have hc := canonical c (List.mem_of_getElem? placeC)
  have hd := canonical d (List.mem_of_getElem? placeD)
  have forth := Clique.overlap_eq_card hc hd
  have back := Clique.overlap_eq_card hd hc
  rw [Finset.inter_comm] at back
  have positive := Finset.card_pos.2 shared
  rcases mem_overlapping placeC placeD ne (forth ▸ positive) (back ▸ positive) with pair | pair
  · refine ⟨_, .inl rfl, List.mem_map.2 ⟨_, pair, ?_⟩⟩
    rw [sharedAt_eq hi hj, forth]
  · refine ⟨_, .inr rfl, List.mem_map.2 ⟨_, pair, ?_⟩⟩
    rw [sharedAt_eq hj hi, back]

namespace Spanned

theorem isForest (h : Spanned cs selected) : IsForest selected := (spanningForest_eq_ok h.spans).2.isForest

theorem inside (h : Spanned cs selected) :
    ∀ e ∈ selected, e.1 < (Arena.ofKeys cs).size ∧ e.2 < (Arena.ofKeys cs).size := by
  obtain ⟨inside, selection⟩ := spanningForest_eq_ok h.spans
  intro e he
  obtain ⟨f, hf, rfl⟩ := List.mem_map.1 (selection.sublist.subset he)
  exact inside f ((byWeight_perm _).mem_iff.1 hf)

/-- The cliques at the ends of a selected edge share a member. -/
theorem shares (h : Spanned cs selected) {e : Edge} (he : e ∈ selected) {c d : Clique K}
    (hc : (Arena.ofKeys cs).key? e.1 = some c) (hd : (Arena.ofKeys cs).key? e.2 = some d) :
    ∃ x ∈ c.members, x ∈ d.members := by
  obtain ⟨f, hf, rfl⟩ := List.mem_map.1 ((spanningForest_eq_ok h.spans).2.sublist.subset he)
  obtain ⟨e, member, rfl⟩ := List.mem_map.1 ((byWeight_perm _).mem_iff.1 hf)
  obtain ⟨_, c', d', hc', hd', shared⟩ := of_mem_overlapping member
  rw [key?_ofKeys h.nodup] at hc hd
  obtain rfl := Option.some.inj (hc'.symm.trans hc)
  obtain rfl := Option.some.inj (hd'.symm.trans hd)
  exact (Clique.overlap_pos_iff (h.canonical _ (List.mem_of_getElem? hd))).1 shared

/-- An edge of the tree joins two of the cliques that share a member. -/
theorem of_mem_treeEdges (h : Spanned cs selected) {c d : Clique K} (edge : (c, d) ∈ treeEdges cs selected) :
    (c ∈ cs ∧ d ∈ cs) ∧ ∃ x ∈ c.members, x ∈ d.members := by
  obtain ⟨e, step, hc, hd⟩ := (mem_edges_layout h.inside).1 edge
  have listed : ∀ {i k}, (Arena.ofKeys cs).key? i = some k → k ∈ cs := fun hk =>
    List.mem_of_getElem? ((key?_ofKeys h.nodup _).symm.trans hk)
  refine ⟨⟨listed hc, listed hd⟩, ?_⟩
  rcases (layoutVisits_spec _ h.inside).2.1 e step with forth | back
  · exact h.shares forth hc hd
  · obtain ⟨x, xd, xc⟩ := h.shares back hd hc
    exact ⟨x, xc, xd⟩

/-- A selected edge that is no heavier than `-w` is a step of the tree that is at least `w` wide. -/
theorem wideStep (h : Spanned cs selected) {e : Edge} (he : e ∈ selected) {w : Nat} {w' : Int}
    (weighted : (w', e) ∈ overlapEdges cs) (light : (compare w' (-(w : Int))).isLE = true) :
    ∃ c d, (Arena.ofKeys cs).key? e.1 = some c ∧ (Arena.ofKeys cs).key? e.2 = some d ∧
      WideStep (Touching (treeEdges cs selected)) cs.toFinset (fun c => c.members.toFinset) w c d := by
  obtain ⟨ne, c, d, hc, hd, rfl⟩ := of_mem_overlapEdges h.nodup weighted
  have listed : ∀ {i k}, (Arena.ofKeys cs).key? i = some k → k ∈ cs := fun hk =>
    List.mem_of_getElem? ((key?_ofKeys h.nodup _).symm.trans hk)
  refine ⟨c, d, hc, hd, List.mem_toFinset.2 (listed hc), List.mem_toFinset.2 (listed hd), ?_,
    touching_layout h.inside h.isForest he hc hd, ?_⟩
  · rintro rfl
    exact ne (Arena.key?_inj hc hd)
  · rw [← Clique.overlap_eq_card (h.canonical c (listed hc)) (h.canonical d (listed hd))]
    have le := Int.isLE_compare.1 light
    omega

/-- Light selected edges make wide steps of the tree. -/
theorem wideWay (h : Spanned cs selected) {light : List Edge} {w : Nat}
    (part : ∀ f ∈ light, f ∈ selected ∧ ∃ w', (w', f) ∈ overlapEdges cs ∧ (compare w' (-(w : Int))).isLE = true)
    {i j : Nat} (joined : Joined light i j) {c d : Clique K} (hc : (Arena.ofKeys cs).key? i = some c)
    (hd : (Arena.ofKeys cs).key? j = some d) :
    ReflTransGen (WideStep (Touching (treeEdges cs selected)) cs.toFinset (fun c => c.members.toFinset) w) c d := by
  induction joined generalizing d with
  | refl => rw [Option.some.inj (hc.symm.trans hd)]
  | tail _ step ih =>
    rcases step with forth | back
    · obtain ⟨member, w', weighted, light⟩ := part _ forth
      obtain ⟨b, d', hb, hd', wide⟩ := h.wideStep member weighted light
      obtain rfl : d' = d := Option.some.inj (hd'.symm.trans hd)
      exact (ih hb).tail wide
    · obtain ⟨member, w', weighted, light⟩ := part _ back
      obtain ⟨d', b, hd', hb, wide⟩ := h.wideStep member weighted light
      obtain rfl : d' = d := Option.some.inj (hd'.symm.trans hd)
      exact (ih hb).tail (Std.Symm.symm _ _ wide)

/-- In the tree, cliques that share a member are connected by steps at least as wide as what they share. -/
theorem widelyConnected (h : Spanned cs selected) :
    WidelyConnected (Touching (treeEdges cs selected)) cs.toFinset (fun c => c.members.toFinset) := by
  intro c hc d hd shared
  obtain ⟨i, hi⟩ := List.mem_iff_getElem?.1 (List.mem_toFinset.1 hc)
  obtain ⟨j, hj⟩ := List.mem_iff_getElem?.1 (List.mem_toFinset.1 hd)
  by_cases same : i = j
  · subst same
    rw [Option.some.inj (hi.symm.trans hj)]
  · rw [← key?_ofKeys h.nodup] at hi hj
    obtain ⟨e, ends, weighted⟩ := mem_overlapEdges h.canonical h.nodup hi hj same shared
    obtain ⟨light, part, joined⟩ := spanningForest_joined h.spans weighted
    refine h.wideWay part ?_ hi hj
    rcases ends with rfl | rfl
    · exact joined
    · exact joined.symm

end Spanned
end Spanning

namespace Graph
variable {K : Type} [VertexKey K] {g : Graph K}

/-- A junction tree is the layout of a spanning forest of the overlapping cliques. -/
theorem junctionTree_eq_ok {q : OrderPolicy} {t : JunctionTree K} (h : g.junctionTree q = .ok t) :
    ∃ cs selected, g.maximalCliques q = .ok cs ∧
      spanningForest (Arena.ofKeys cs).size (overlapEdges cs) = .ok selected ∧
        t.graph = layout (Arena.ofKeys cs).keys selected := by
  obtain ⟨cliqueGraph, made, h⟩ := bind_eq_ok.1 h
  obtain ⟨selected, spanned, h⟩ := bind_eq_ok.1 h
  obtain rfl := Except.ok.inj h
  obtain ⟨cs, extracted, made⟩ := bind_eq_ok.1 made
  obtain rfl := Except.ok.inj made
  rw [ofEdgeIds_eq] at spanned ⊢
  exact ⟨cs, selected, extracted, spanned, rfl⟩

/-- The junction tree of a triangulated graph is the layout of its maximal cliques and a forest of edges. -/
theorem Triangular.junctionTree_layout {order : List Nat} (h : g.Triangular order) {q : OrderPolicy}
    {t : JunctionTree K} (joined : g.junctionTree q = .ok t) : ∃ cs selected, g.ListsCliques cs ∧
      Spanned cs selected ∧ t.cliques.Perm cs ∧ t.graph = layout (Arena.ofKeys cs).keys selected := by
  obtain ⟨cs, selected, extracted, spans, tree⟩ := junctionTree_eq_ok joined
  have lists := h.lists_maximalCliques extracted
  have spanned : Spanned cs selected := ⟨fun c hc => ((lists.mem_iff c).1 hc).1, lists.nodup, spans⟩
  refine ⟨cs, selected, lists, spanned, ?_, tree⟩
  rw [JunctionTree.cliques, tree]
  refine (vertices_layout_perm spanned.inside).trans (.of_eq ?_)
  rw [Arena.keys_ofKeys lists.nodup]

/-- Its edges are those of the layout. -/
theorem Triangular.junctionTree_spec {order : List Nat} (h : g.Triangular order) {q : OrderPolicy}
    {t : JunctionTree K} (joined : g.junctionTree q = .ok t) : ∃ cs selected, g.ListsCliques cs ∧
      Spanned cs selected ∧ t.cliques.Perm cs ∧ t.edges = treeEdges cs selected := by
  obtain ⟨cs, selected, lists, spanned, perm, tree⟩ := h.junctionTree_layout joined
  exact ⟨cs, selected, lists, spanned, perm, congrArg Graph.edges tree⟩

end Graph
end CliqueTree
