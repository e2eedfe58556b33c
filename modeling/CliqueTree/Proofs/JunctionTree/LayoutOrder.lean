import CliqueTree.JunctionTree.Basic
import CliqueTree.Proofs.Excerpt
import CliqueTree.Proofs.JunctionTree.Layout
import CliqueTree.Proofs.Table.BreadthFirst
import CliqueTree.Proofs.Table.SpanningForest
import Mathlib.Algebra.GroupWithZero.Nat
import Mathlib.Data.List.Permutation

/-!
# The order of the layout

The layout lists the cliques in blocks, one for each part that the selected edges make (`RootedBlocks`). The roots are
tried by descending total overlap, and the sort is stable, so among equal totals the earlier clique comes first
(`pairwise_rootOrder`). A part is met from the first of its cliques in this order, and the walk then lists all of it
breadth-first. So a block starts with the clique that outranks the others of its part, blocks come in the order of
their roots, and the distance from the root never decreases along a block (`exists_rootedBlocks`).

The edges are the steps of the walk. They come in the order of the cliques that they lead to, and therefore in the order
of those that they come from (`steps_ascend`). As the selected edges form a forest, the steps are these, each once
(`steps_perm`). What holds of positions holds of cliques, since different positions have different cliques
(`exists_isLaidOut`).
-/

set_option autoImplicit false

namespace CliqueTree

/-! ### Edges without directions -/

section Undirected
variable {α : Type} {edges edges' : List (α × α)} {a b : α}

/-- A forest has no edge twice, in whatever directions. -/
theorem IsForest.nodup_sym2 (forest : IsForest edges) : (edges.map fun e => s(e.1, e.2)).Nodup := by
  rw [List.Nodup, List.pairwise_map, List.pairwise_iff_forall_sublist]
  intro e f part same
  refine forest.subperm part.subperm [e] f [] rfl (Joined.of_touching ?_)
  rcases Sym2.eq_iff.1 same with ⟨first, second⟩ | ⟨first, second⟩
  · exact .inl (by simp [← first, ← second])
  · exact .inr (by simp [← first, ← second])

/-- Two forests that touch the same have the same edges. -/
theorem IsForest.perm_sym2 (forest : IsForest edges) (forest' : IsForest edges')
    (same : ∀ a b, Touching edges a b ↔ Touching edges' a b) :
    (edges.map fun e => s(e.1, e.2)).Perm (edges'.map fun e => s(e.1, e.2)) := by
  refine (List.perm_ext_iff_of_nodup forest.nodup_sym2 forest'.nodup_sym2).2 fun pair => ?_
  induction pair with
  | h a b => rw [mem_map_sym2, mem_map_sym2, same]

end Undirected

/-! ### The order of the roots -/

section Roots
variable {K : Type} [VertexKey K] {cliques : Array (Clique K)} {selected : List Edge}

/-- How many members a clique shares with those at the other ends of its selected edges, in total. -/
def totalOverlap (cliques : Array (Clique K)) (selected : List Edge) (i : Nat) : Nat :=
  ((selected.filter fun e => e.1 = i ∨ e.2 = i).map (sharedAt cliques)).sum

/-- The one clique comes before the other as a root: its total is greater, or it is the earlier one of two equal
totals. -/
def Outranks (cliques : Array (Clique K)) (selected : List Edge) (i j : Nat) : Prop :=
  totalOverlap cliques selected j < totalOverlap cliques selected i ∨
    totalOverlap cliques selected i = totalOverlap cliques selected j ∧ i < j

theorem totalShared_eq (loopless : ∀ e ∈ selected, e.1 ≠ e.2) (i : Nat) :
    totalShared cliques selected i = totalOverlap cliques selected i := by
  induction selected using List.reverseRecOn with
  | nil => rfl
  | append_singleton selected e ih =>
    have apart : e.1 ≠ e.2 := loopless e (by simp)
    have ih := ih fun f hf => loopless f (List.mem_append_left _ hf)
    rw [totalShared, List.foldl_concat, ← totalShared, ih, totalOverlap, totalOverlap, List.filter_append,
      List.map_append, List.sum_append]
    by_cases first : e.1 = i
    · have second : e.2 ≠ i := fun second => apart (first.trans second.symm)
      simp [first, second]
    · by_cases second : e.2 = i <;> simp [first, second]

/-- The roots come by descending total, those of equal totals in their order. -/
theorem pairwise_rootOrder (loopless : ∀ e ∈ selected, e.1 ≠ e.2) :
    (rootOrder cliques selected).Pairwise (Outranks cliques selected) := by
  let totals := (List.range cliques.size).map fun i => (totalShared cliques selected i, i)
  have weighted : ∀ a ∈ totals, a.1 = totalOverlap cliques selected a.2 := by
    intro a ha
    obtain ⟨i, _, rfl⟩ := List.mem_map.1 ha
    exact totalShared_eq loopless i
  have trans : ∀ a b c : Nat × Nat, decide (b.1 ≤ a.1) = true → decide (c.1 ≤ b.1) = true →
      decide (c.1 ≤ a.1) = true := by
    simp only [decide_eq_true_eq]
    exact fun a b c first second => Nat.le_trans second first
  have total : ∀ a b : Nat × Nat, (decide (b.1 ≤ a.1) || decide (a.1 ≤ b.1)) = true := by
    simp only [Bool.or_eq_true, decide_eq_true_eq]
    exact fun a b => Nat.le_total b.1 a.1
  have ordered : totals.Pairwise fun a b => a.2 < b.2 := List.pairwise_map.2 List.pairwise_lt_range
  rw [rootOrder, List.pairwise_map]
  refine (pairwise_mergeSort_stable trans total ordered).imp_of_mem fun {a b} ha hb sorted => ?_
  simp only [decide_eq_true_eq] at sorted
  obtain ⟨le, tie⟩ := sorted
  rw [weighted a ((List.mergeSort_perm _ _).mem_iff.1 ha), weighted b ((List.mergeSort_perm _ _).mem_iff.1 hb)]
    at le tie
  rcases Nat.lt_or_eq_of_le le with less | equal
  · exact .inl less
  · exact .inr ⟨equal.symm, tie (Nat.le_of_eq equal.symm)⟩

end Roots

/-! ### Blocks -/

section Blocks
variable {K : Type} {a : Arena (Clique K)} {selected : List Edge}

/-- The rows of the selected edges link what these touch. -/
theorem linked_adjacencyOf (inside : ∀ e ∈ selected, e.1 < a.size ∧ e.2 < a.size) :
    (adjacencyOf a.size selected).Symmetric ∧ (adjacencyOf a.size selected).Linked = Touching selected := by
  obtain ⟨_, symm, linked⟩ := Rows.linked_foldl_link_blank inside
  refine ⟨symm, ?_⟩
  funext i j
  exact propext (linked i j)

variable [VertexKey K]

/-- Blocks of positions of cliques, each with its root in front: the parts that the selected edges make. -/
structure RootedBlocks (cliques : Array (Clique K)) (selected : List Edge) (blocks : List (Nat × List Nat)) :
    Prop where
  component : ∀ b ∈ blocks, ∀ i, i ∈ b.1 :: b.2 ↔ Joined selected b.1 i
  heaviest : ∀ b ∈ blocks, ∀ i ∈ b.2, Outranks cliques selected b.1 i
  descending : blocks.Pairwise fun b b' => Outranks cliques selected b.1 b'.1
  /-- The distance from the root does not decrease along a block. -/
  recedes : ∀ b ∈ blocks, (b.1 :: b.2).Pairwise fun i j =>
    distance (Touching selected) b.1 i ≤ distance (Touching selected) b.1 j

/-- The walk goes through blocks, and its steps lead to what is no root. -/
theorem exists_rootedBlocks (inside : ∀ e ∈ selected, e.1 < a.size ∧ e.2 < a.size) (forest : IsForest selected) :
    ∃ blocks, RootedBlocks a.keys selected blocks ∧
      layoutOrder a selected = blocks.flatMap (fun b => b.1 :: b.2) ∧
        (stepsOf (layoutVisits a.keys selected)).map (·.2) = blocks.flatMap (·.2) := by
  obtain ⟨symm, linked⟩ := linked_adjacencyOf inside
  have ranked : (rootOrder a.keys selected).Pairwise (Outranks a.keys selected) := pairwise_rootOrder forest.loopless
  obtain ⟨starts, h, visits⟩ := Rows.exists_starts symm (rootOrder a.keys selected)
  have visits : layoutVisits a.keys selected = _ := visits
  generalize adjacencyOf a.size selected = r at symm linked h visits
  have block : ∀ s, s :: (r.visitsBehind s).map (·.vertex) = r.breadthFirst s := fun s => (r.breadthFirst_eq s).symm
  have met : ∀ s i, i ∈ r.breadthFirst s ↔ Joined selected s i := fun s i => by
    rw [Joined, ← linked, Rows.mem_breadthFirst_iff]
  have order : layoutOrder a selected = starts.flatMap r.breadthFirst := by
    rw [layoutOrder, visits, List.map_flatMap]
    rfl
  refine ⟨starts.map fun s => (s, (r.visitsBehind s).map (·.vertex)), ?_, ?_, ?_⟩
  · exact {
      component := List.forall_mem_map.2 fun s _ i => by rw [block, met]
      heaviest := List.forall_mem_map.2 fun s hs i hi => by
        have later : i ∈ r.breadthFirst s := block s ▸ List.mem_cons_of_mem s hi
        have listed : i ∈ layoutOrder a selected := by
          rw [order]
          exact List.mem_flatMap.2 ⟨s, hs, later⟩
        have root : i ∈ rootOrder a.keys selected :=
          (rootOrder_perm _ _).mem_iff.2 ((layoutOrder_perm inside).mem_iff.1 listed)
        have other : s ≠ i := by
          rintro rfl
          have nodup := r.nodup_breadthFirst s
          rw [← block] at nodup
          exact (List.nodup_cons.1 nodup).1 hi
        exact (h.of_reach symm ranked hs (Rows.mem_breadthFirst_iff.1 later) root).resolve_left other
      descending := List.pairwise_map.2 (ranked.sublist h.sublist)
      recedes := List.forall_mem_map.2 fun s _ => by
        rw [block, ← linked]
        exact r.distance_ascends s }
  · rw [List.flatMap_map, order]
    simp only [block]
  · rw [visits, stepsOf, List.filterMap_flatMap, List.map_flatMap, List.flatMap_map]
    exact List.flatMap_congr fun s _ => r.map_snd_stepsOf_walk s

/-- Steps come in the order of the cliques that they lead to, and so in the order of those that they come from. -/
theorem steps_ascend (inside : ∀ e ∈ selected, e.1 < a.size ∧ e.2 < a.size) :
    (stepsOf (layoutVisits a.keys selected)).Pairwise fun e f =>
      (layoutOrder a selected).idxOf e.2 < (layoutOrder a selected).idxOf f.2 ∧
        (layoutOrder a selected).idxOf e.1 ≤ (layoutOrder a selected).idxOf f.1 := by
  have places := pairwise_idxOf (nodup_layoutOrder inside)
  have parents := Rows.parents_ascend_forest (linked_adjacencyOf inside).1 places
  have visits := (List.pairwise_map.1 places).and parents
  refine List.pairwise_filterMap.2 (visits.imp fun {x y} ordered e he f hf => ?_)
  obtain ⟨less, parents⟩ := ordered
  obtain ⟨p, hp, rfl⟩ := Option.map_eq_some_iff.1 he
  obtain ⟨q, hq, rfl⟩ := Option.map_eq_some_iff.1 hf
  refine ⟨less, ?_⟩
  rcases parents p hp q hq with rfl | less
  · exact Nat.le_refl _
  · exact Nat.le_of_lt less

/-- A step leads from a clique that is listed earlier. -/
theorem steps_forward (inside : ∀ e ∈ selected, e.1 < a.size ∧ e.2 < a.size) :
    ∀ e ∈ stepsOf (layoutVisits a.keys selected),
      (layoutOrder a selected).idxOf e.1 < (layoutOrder a selected).idxOf e.2 :=
  fun _ he => (Rows.parentsEarlier_forest _ _).idxOf_lt (nodup_layoutOrder inside) he

/-- The steps are the selected edges, each once, in one of its directions. -/
theorem steps_perm (inside : ∀ e ∈ selected, e.1 < a.size ∧ e.2 < a.size) (forest : IsForest selected) :
    ((stepsOf (layoutVisits a.keys selected)).map fun e => s(e.1, e.2)).Perm (selected.map fun e => s(e.1, e.2)) :=
  (isForest_steps a.keys inside).perm_sym2 forest fun _ _ => touching_steps_iff a.keys inside forest

/-- Without directions the edges of the layout are the selected ones, each once. -/
theorem edges_layout_perm (inside : ∀ e ∈ selected, e.1 < a.size ∧ e.2 < a.size) (forest : IsForest selected) :
    ((layout a.keys selected).edges.map fun e => s(some e.1, some e.2)).Perm
      (selected.map fun e => s(a.key? e.1, a.key? e.2)) := by
  have ends := congrArg (List.map fun e => s(e.1, e.2)) (map_edges_layout inside)
  have undirected := (steps_perm inside forest).map (Sym2.map a.key?)
  rw [List.map_map, List.map_map] at ends undirected
  exact (List.Perm.of_eq ends).trans undirected

/-- The children of the edges of the layout are what the steps lead to. -/
theorem children_layout (inside : ∀ e ∈ selected, e.1 < a.size ∧ e.2 < a.size) :
    (layout a.keys selected).edges.map (some ·.2) =
      ((stepsOf (layoutVisits a.keys selected)).map (·.2)).map a.key? := by
  have ends := congrArg (List.map Prod.snd) (map_edges_layout inside)
  rw [List.map_map, List.map_map] at ends
  rw [List.map_map]
  exact ends

/-- The places of the ends of the edges are those of the ends of the steps. -/
theorem places_layout (inside : ∀ e ∈ selected, e.1 < a.size ∧ e.2 < a.size) :
    (layout a.keys selected).edges.map
        (Prod.map (layout a.keys selected).vertices.idxOf (layout a.keys selected).vertices.idxOf) =
      (stepsOf (layoutVisits a.keys selected)).map
        (Prod.map (layoutOrder a selected).idxOf (layoutOrder a selected).idxOf) := by
  rw [← edgeIds_layout, ← Arena.map_placeOf_edgesOf (edgeIds_layout_inside inside)]
  rfl

theorem edges_layout_forward (inside : ∀ e ∈ selected, e.1 < a.size ∧ e.2 < a.size) :
    ∀ e ∈ (layout a.keys selected).edges,
      (layout a.keys selected).vertices.idxOf e.1 < (layout a.keys selected).vertices.idxOf e.2 := by
  intro e he
  have place := List.mem_map_of_mem (f := Prod.map (layout a.keys selected).vertices.idxOf
    (layout a.keys selected).vertices.idxOf) he
  rw [places_layout inside] at place
  obtain ⟨step, hs, same⟩ := List.mem_map.1 place
  obtain ⟨first, second⟩ := Prod.mk.inj same
  calc (layout a.keys selected).vertices.idxOf e.1 = (layoutOrder a selected).idxOf step.1 := first.symm
    _ < (layoutOrder a selected).idxOf step.2 := steps_forward inside step hs
    _ = (layout a.keys selected).vertices.idxOf e.2 := second

theorem edges_layout_ascend (inside : ∀ e ∈ selected, e.1 < a.size ∧ e.2 < a.size) :
    (layout a.keys selected).edges.Pairwise fun e f =>
      (layout a.keys selected).vertices.idxOf e.2 < (layout a.keys selected).vertices.idxOf f.2 ∧
        (layout a.keys selected).vertices.idxOf e.1 ≤ (layout a.keys selected).vertices.idxOf f.1 := by
  have ordered : ((stepsOf (layoutVisits a.keys selected)).map
      (Prod.map (layoutOrder a selected).idxOf (layoutOrder a selected).idxOf)).Pairwise
        fun e f => e.2 < f.2 ∧ e.1 ≤ f.1 := List.pairwise_map.2 (steps_ascend inside)
  rw [← places_layout inside] at ordered
  exact List.pairwise_map.1 ordered

end Blocks

/-! ### The tree -/

section Tree
variable {K : Type} [VertexKey K]

/-- The tree lists the cliques block by block, and its edges are the selected ones, from the clique that is listed
earlier to the one that is listed later. -/
structure IsLaidOut (cliques : List (Clique K)) (selected : List Edge) (t : JunctionTree K)
    (blocks : List (Nat × List Nat)) : Prop where
  /-- Each clique is listed once. -/
  once : t.cliques.Perm cliques
  /-- Without directions the edges are the selected ones, each once. -/
  edges : (t.edges.map fun e => s(some e.1, some e.2)).Perm (selected.map fun e => s(cliques[e.1]?, cliques[e.2]?))
  /-- The blocks hold each position once, and the cliques are listed in their order. -/
  positions : (blocks.flatMap fun b => b.1 :: b.2).Perm (List.range cliques.length)
  listed : t.cliques.map some = (blocks.flatMap fun b => b.1 :: b.2).map (cliques[·]?)
  rooted : RootedBlocks cliques.toArray selected blocks
  /-- What is no root is the child of one edge, in the order of the list. -/
  children : t.edges.map (some ·.2) = (blocks.flatMap (·.2)).map (cliques[·]?)
  earlier : ∀ e ∈ t.edges, t.cliques.idxOf e.1 < t.cliques.idxOf e.2
  ordered : t.edges.Pairwise fun e f =>
    t.cliques.idxOf e.2 < t.cliques.idxOf f.2 ∧ t.cliques.idxOf e.1 ≤ t.cliques.idxOf f.1

variable {cliques : List (Clique K)} {selected : List Edge}

/-- **The layout.** Different cliques and a forest of selected edges between them are laid out block by block. -/
theorem exists_isLaidOut (nodup : cliques.Nodup)
    (inside : ∀ e ∈ selected, e.1 < cliques.length ∧ e.2 < cliques.length) (forest : IsForest selected)
    (hash : String) : ∃ blocks, IsLaidOut cliques selected ⟨layout cliques.toArray selected, hash⟩ blocks := by
  obtain ⟨a, keys⟩ : ∃ a : Arena (Clique K), a.keys = cliques.toArray := ⟨⟨cliques.toArray, nodup⟩, rfl⟩
  have size : a.size = cliques.length := congrArg Array.size keys
  have key : ∀ i, cliques[i]? = a.key? i := by
    intro i
    rw [Arena.key?, keys, List.getElem?_toArray]
  rw [← size] at inside
  rw [← keys]
  obtain ⟨blocks, rooted, order, heads⟩ := exists_rootedBlocks inside forest
  have perm := layoutOrder_perm inside
  refine ⟨blocks, ?_⟩
  exact {
    once := (vertices_layout_perm inside).trans (.of_eq (congrArg Array.toList keys))
    edges := by
      simp only [key]
      exact edges_layout_perm inside forest
    positions := by
      rw [← order, ← size]
      exact perm
    listed := by
      have all : ∀ i ∈ layoutOrder a selected, i < a.size := fun i hi => List.mem_range.1 (perm.mem_iff.1 hi)
      simp only [key]
      rw [← order, ← Arena.map_keysOf all]
      exact congrArg (fun keys => keys.toList.map some) (keys_layout inside)
    rooted := keys ▸ rooted
    children := by
      simp only [key]
      rw [← heads]
      exact children_layout inside
    earlier := edges_layout_forward inside
    ordered := edges_layout_ascend inside }

/-- A way of four cliques, two cliques beside each other, and one alone. -/
def tiedCliques : List (Clique Int64) :=
  [.ofList [1, 2], .ofList [2, 3], .ofList [9], .ofList [5, 6, 7], .ofList [6, 7, 8], .ofList [3, 4], .ofList [4, 10]]

/-- The edges between them. -/
def tiedSelected : List Edge := [(1, 5), (0, 1), (5, 6), (4, 3)]

/-- Positions 1, 3, 4 and 5 have equal totals. So 1 is a root before 3, and 5 and 4 are no roots. -/
theorem tiedCliques_isLaidOut : tiedCliques.Nodup ∧
    (∀ e ∈ tiedSelected, e.1 < tiedCliques.length ∧ e.2 < tiedCliques.length) ∧ IsForest tiedSelected ∧
    (layout tiedCliques.toArray tiedSelected).vertices = [.ofList [2, 3], .ofList [3, 4], .ofList [1, 2],
      .ofList [4, 10], .ofList [5, 6, 7], .ofList [6, 7, 8], .ofList [9]] ∧
    (layout tiedCliques.toArray tiedSelected).edges = [(.ofList [2, 3], .ofList [3, 4]),
      (.ofList [2, 3], .ofList [1, 2]), (.ofList [3, 4], .ofList [4, 10]), (.ofList [5, 6, 7], .ofList [6, 7, 8])] ∧
    ∃ blocks, IsLaidOut tiedCliques tiedSelected ⟨layout tiedCliques.toArray tiedSelected, "tied"⟩ blocks := by
  have nodup : tiedCliques.Nodup := by decide +kernel
  have inside : ∀ e ∈ tiedSelected, e.1 < tiedCliques.length ∧ e.2 < tiedCliques.length := by decide
  -- of edges of one weight all are selected
  have all : spanningForest 7 (tiedSelected.map fun e => (0, e)) = .ok tiedSelected := by cbv
  have forest := (spanningForest_eq_ok all).2.isForest
  exact ⟨nodup, inside, forest, by cbv, by cbv, exists_isLaidOut nodup inside forest "tied"⟩

end Tree
end CliqueTree
