import CliqueTree.Proofs.JunctionTree.Runs

/-!
# New names for the vertices

Keys are compared by order in every clique, but only to hold its members and to look them up. How many members two
cliques share does not depend on the order, as long as different vertices keep different names (`overlap_rename`). So
the same edges join the cliques, the same of them are selected, and the walk takes the same way: the tree for the new
names is the tree for the old ones with each clique renamed (`treeOf_rename`). Before the cliques are listed no key is
looked at beside the first occurrences of the vertices, and these stay where they are (`Arena.key?_ofKeys_map`).
-/

set_option autoImplicit false

namespace CliqueTree
variable {K L : Type}

section Cliques
variable [VertexKey L] {f : K → L} {keys : List K} {c d : Clique K}

/-- The clique of the new names. -/
def Clique.rename (f : K → L) (c : Clique K) : Clique L := .ofList (c.members.map f)

theorem Clique.mem_rename {l : L} : l ∈ (c.rename f).members ↔ ∃ k ∈ c.members, f k = l := by
  rw [rename, mem_ofList, List.mem_map]

theorem Clique.isCanonical_rename : (c.rename f).IsCanonical := isCanonical_ofList _

variable [VertexKey K]

/-- Cliques of keys that have different names share as many members under the new names. -/
theorem Clique.overlap_rename (inj : OneToOne f keys) (hc : c.IsCanonical) (hd : d.IsCanonical)
    (inC : ∀ k ∈ c.members, k ∈ keys) (inD : ∀ k ∈ d.members, k ∈ keys) :
    (c.rename f).overlap (d.rename f) = c.overlap d := by
  have image : ∀ c : Clique K, (c.rename f).members.toFinset = c.members.toFinset.image f := by
    intro c
    ext l
    simp [mem_rename]
  have both : Set.InjOn f (c.members.toFinset ∪ d.members.toFinset : Finset K) := by
    intro k hk l hl same
    have listed : ∀ x ∈ c.members.toFinset ∪ d.members.toFinset, x ∈ keys := by
      intro x hx
      rcases Finset.mem_union.1 hx with hx | hx
      · exact inC x (List.mem_toFinset.1 hx)
      · exact inD x (List.mem_toFinset.1 hx)
    exact inj k (listed k hk) l (listed l hl) same
  rw [overlap_eq_card isCanonical_rename isCanonical_rename, overlap_eq_card hc hd, image, image,
    ← Finset.image_inter_of_injOn _ _ (by rwa [← Finset.coe_union])]
  apply Finset.card_image_of_injOn
  exact both.mono fun k hk => Finset.mem_union_left _ (Finset.mem_inter.1 hk).1

/-- What they share is what they shared, under the new names. -/
theorem Clique.shared_rename (inj : OneToOne f keys) (hc : c.IsCanonical) (hd : d.IsCanonical)
    (inC : ∀ k ∈ c.members, k ∈ keys) (inD : ∀ k ∈ d.members, k ∈ keys) :
    (c.rename f).shared (d.rename f) = ascending ((c.shared d).map f) := by
  have ascends : IsAscending ((c.rename f).shared (d.rename f)) :=
    IsAscending.common (isCanonical_rename (c := c) (f := f)) (d.rename f).members
  refine ascends.ext (isAscending_ascending _) fun l => ?_
  rw [mem_shared isCanonical_rename isCanonical_rename, mem_rename, mem_rename, mem_ascending, List.mem_map]
  simp only [mem_shared hc hd]
  constructor
  · rintro ⟨⟨k, hk, rfl⟩, m, hm, same⟩
    obtain rfl := inj m (inD m hm) k (inC k hk) same
    exact ⟨m, ⟨hk, hm⟩, rfl⟩
  · rintro ⟨k, ⟨first, second⟩, rfl⟩
    exact ⟨⟨k, first, rfl⟩, k, second, rfl⟩

/-- Different cliques stay different. -/
theorem Clique.rename_inj (inj : OneToOne f keys) (hc : c.IsCanonical) (hd : d.IsCanonical)
    (inC : ∀ k ∈ c.members, k ∈ keys) (inD : ∀ k ∈ d.members, k ∈ keys) (same : c.rename f = d.rename f) : c = d := by
  have back : ∀ {c d : Clique K}, (∀ k ∈ c.members, k ∈ keys) → (∀ k ∈ d.members, k ∈ keys) →
      c.rename f = d.rename f → ∀ k ∈ c.members, k ∈ d.members := by
    intro c d inC inD same k hk
    have image : f k ∈ (d.rename f).members := same ▸ mem_rename.2 ⟨k, hk, rfl⟩
    obtain ⟨m, hm, equal⟩ := mem_rename.1 image
    obtain rfl := inj m (inD m hm) k (inC k hk) equal
    exact hm
  apply Clique.ext
  exact IsAscending.ext hc hd fun k => ⟨back inC inD same k, back inD inC same.symm k⟩

end Cliques

section Tree
variable [VertexKey K] [VertexKey L] {f : K → L} {keys : List K} {cs : List (Clique K)}

/-- Different canonical cliques whose members keep different names. -/
structure Renames (f : K → L) (keys : List K) (cs : List (Clique K)) : Prop where
  inj : OneToOne f keys
  nodup : cs.Nodup
  canonical : ∀ c ∈ cs, c.IsCanonical
  inside : ∀ c ∈ cs, ∀ k ∈ c.members, k ∈ keys

namespace Renames

theorem overlap_eq (h : Renames f keys cs) {c d : Clique K} (hc : c ∈ cs) (hd : d ∈ cs) :
    (c.rename f).overlap (d.rename f) = c.overlap d :=
  Clique.overlap_rename h.inj (h.canonical c hc) (h.canonical d hd) (h.inside c hc) (h.inside d hd)

theorem nodup_map (h : Renames f keys cs) : (cs.map (Clique.rename f)).Nodup := by
  apply List.Nodup.map_on (fun c hc d hd same => ?_) h.nodup
  exact Clique.rename_inj h.inj (h.canonical c hc) (h.canonical d hd) (h.inside c hc) (h.inside d hd) same

theorem canonical_map (_ : Renames f keys cs) : ∀ c ∈ cs.map (Clique.rename f), c.IsCanonical := by
  intro c hc
  obtain ⟨d, _, rfl⟩ := List.mem_map.1 hc
  exact Clique.isCanonical_rename

theorem sharedAt_eq (h : Renames f keys cs) (e : Edge) :
    sharedAt (cs.map (Clique.rename f)).toArray e = sharedAt cs.toArray e := by
  unfold sharedAt
  rw [List.getElem?_toArray, List.getElem?_toArray, List.getElem?_toArray, List.getElem?_toArray, List.getElem?_map,
    List.getElem?_map]
  cases first : cs[e.1]? with
  | none => rfl
  | some c =>
    cases second : cs[e.2]? with
    | none => rfl
    | some d => exact h.overlap_eq (List.mem_of_getElem? first) (List.mem_of_getElem? second)

theorem overlapping_eq (h : Renames f keys cs) :
    Graph.overlapping (cs.map (Clique.rename f)) = Graph.overlapping cs := by
  rw [Graph.overlapping, Graph.overlapping, List.zipIdx_map, pairs_map, List.filter_map, List.map_map]
  refine congrArg (List.map _) (List.filter_congr fun p hp => ?_)
  obtain ⟨first, second⟩ := mem_of_mem_pairs hp
  have listed : ∀ {x : Clique K × Nat}, x ∈ cs.zipIdx → x.1 ∈ cs := fun hx =>
    List.mem_of_getElem? (List.mem_zipIdx_iff_getElem?.1 hx)
  exact congrArg (fun n => decide (0 < n)) (h.overlap_eq (listed first) (listed second))

theorem selectedOf_eq (h : Renames f keys cs) : selectedOf (cs.map (Clique.rename f)) = selectedOf cs := by
  have edges : overlapEdges (cs.map (Clique.rename f)) = overlapEdges cs := by
    rw [overlapEdges, overlapEdges, h.overlapping_eq, Arena.keys_ofKeys h.nodup_map, Arena.keys_ofKeys h.nodup]
    simp only [h.sharedAt_eq]
  rw [selectedOf, selectedOf, edges, List.length_map]

/-- The walk looks at numbers of shared members only, so it takes the same way. -/
theorem visitsOf_eq (h : Renames f keys cs) : visitsOf (cs.map (Clique.rename f)) = visitsOf cs := by
  have size : (cs.map (Clique.rename f)).toArray.size = cs.toArray.size := by simp
  unfold visitsOf layoutVisits rootOrder totalShared
  rw [h.selectedOf_eq, size]
  simp only [h.sharedAt_eq]

/-- The tree for the new names has the cliques and the edges of the tree for the old ones, renamed in place. -/
theorem cliques_edges_treeOf (h : Renames f keys cs) (p : OrderPolicy) :
    (treeOf (cs.map (Clique.rename f)) p).cliques = (treeOf cs p).cliques.map (Clique.rename f) ∧
      (treeOf (cs.map (Clique.rename f)) p).edges =
        (treeOf cs p).edges.map (Prod.map (Clique.rename f) (Clique.rename f)) := by
  have places : ((cs.map (Clique.rename f))[·]?) = (Option.map (Clique.rename f) ∘ (cs[·]?) : Nat → _) :=
    funext fun _ => List.getElem?_map
  constructor
  · rw [cliques_treeOf h.canonical_map h.nodup_map, cliques_treeOf h.canonical h.nodup, h.visitsOf_eq, places,
      List.map_filterMap]
    rfl
  · have some_inj : Function.Injective (Prod.map (some : Clique L → _) (some : Clique L → _)) :=
      (Option.some_injective _).prodMap (Option.some_injective _)
    have old := congrArg (List.map (Prod.map (Option.map (Clique.rename f)) (Option.map (Clique.rename f))))
      (edges_treeOf h.canonical h.nodup p)
    apply List.map_injective_iff.2 some_inj
    rw [edges_treeOf h.canonical_map h.nodup_map, h.visitsOf_eq, places]
    rw [List.map_map, List.map_map, Prod.map_comp_map, Prod.map_comp_map] at old
    rw [List.map_map, Prod.map_comp_map]
    exact old.symm

/-- The separators are those of the tree for the old names, renamed and brought into order again. -/
theorem treeOf_rename (h : Renames f keys cs) (p : OrderPolicy) :
    (treeOf (cs.map (Clique.rename f)) p).cliques = (treeOf cs p).cliques.map (Clique.rename f) ∧
      (treeOf (cs.map (Clique.rename f)) p).edges =
        (treeOf cs p).edges.map (Prod.map (Clique.rename f) (Clique.rename f)) ∧
      (treeOf (cs.map (Clique.rename f)) p).separators = (treeOf cs p).separators.map fun s => ascending (s.map f) := by
  obtain ⟨cliques, edges⟩ := h.cliques_edges_treeOf p
  refine ⟨cliques, edges, ?_⟩
  rw [JunctionTree.separators, JunctionTree.separators, edges, List.map_map, List.map_map]
  refine List.map_congr_left fun e he => ?_
  obtain ⟨⟨hc, hd⟩, _⟩ := (spanned_selectedOf h.canonical h.nodup).of_mem_treeEdges (c := e.1) (d := e.2) (by
    rw [treeEdges, Arena.keys_ofKeys h.nodup]
    exact he)
  exact Clique.shared_rename h.inj (h.canonical _ hc) (h.canonical _ hd) (h.inside _ hc) (h.inside _ hd)

end Renames
end Tree

namespace Arena
variable [VertexKey K] [VertexKey L] {f : K → L} {vertices : List K}

/-- Renamed vertices keep their ids. -/
theorem key?_ofKeys_map (inj : OneToOne f vertices) (i : Nat) :
    (ofKeys (vertices.map f)).key? i = ((ofKeys vertices).key? i).map f := by
  rw [key?, key?, ofKeys, ofKeys, List.getElem?_toArray, List.getElem?_toArray, distinct_map inj, List.getElem?_map]

theorem size_ofKeys_map (inj : OneToOne f vertices) : (ofKeys (vertices.map f)).size = (ofKeys vertices).size := by
  simp [size, ofKeys, distinct_map inj]

theorem keysOf_ofKeys_map (inj : OneToOne f vertices) (ids : List Nat) :
    (ofKeys (vertices.map f)).keysOf ids = ((ofKeys vertices).keysOf ids).map f := by
  rw [keysOf, keysOf, List.map_filterMap]
  exact congrArg (List.filterMap · ids) (funext (key?_ofKeys_map inj))

theorem edgeIds_map (inj : OneToOne f vertices) {edges : List (K × K)} {es : List Edge}
    (h : (ofKeys vertices).edgeIds edges = .ok es) :
    (ofKeys (vertices.map f)).edgeIds (edges.map (Prod.map f f)) = .ok es := by
  obtain ⟨inside, rfl⟩ := edgeIds_eq_ok_iff.1 h
  have placed : ∀ {k}, k ∈ (ofKeys vertices).keys.toList →
      (ofKeys (vertices.map f)).key? ((ofKeys vertices).placeOf k) = some (f k) := by
    intro k hk
    rw [key?_ofKeys_map inj, key?_placeOf hk, Option.map_some]
  refine edgeIds_eq_ok_iff.2 ⟨List.forall_mem_map.2 fun e he => ?_, ?_⟩
  · obtain ⟨first, second⟩ := inside e he
    exact ⟨mem_keys_iff.2 ⟨_, placed first⟩, mem_keys_iff.2 ⟨_, placed second⟩⟩
  · rw [List.map_map]
    refine List.map_congr_left fun e he => ?_
    obtain ⟨first, second⟩ := inside e he
    exact Prod.ext (placeOf_eq (placed first)).symm (placeOf_eq (placed second)).symm

end Arena

namespace Digraph
variable [VertexKey K] [VertexKey L] {f : K → L} {vertices : List K} {edges : List (K × K)} {g : Digraph K}

/-- The renamed graph has the same ids in the same rows. -/
theorem ofEdges_map (inj : OneToOne f vertices) (made : Digraph.ofEdges vertices edges = .ok g) :
    ∃ g', Digraph.ofEdges (vertices.map f) (edges.map (Prod.map f f)) = .ok g' ∧ g'.arena.size = g.arena.size ∧
      g'.moralRows = g.moralRows ∧ g.vertices = distinct vertices ∧
        ∀ ids, g'.cliqueOf ids = (g.cliqueOf ids).rename f := by
  obtain ⟨es, ends, made⟩ := bind_eq_ok.1 made
  obtain rfl := Except.ok.inj made
  have size := Arena.size_ofKeys_map inj
  refine ⟨es.foldl (fun g e => g.link e.1 e.2) (blank (.ofKeys (vertices.map f))), ?_, ?_, ?_, ?_, fun ids => ?_⟩
  · rw [Digraph.ofEdges, Arena.edgeIds_map inj ends]
    rfl
  · rw [foldl_link, foldl_link]
    exact size
  · rw [foldl_link, foldl_link, moralRows, moralRows]
    simp only [blank, size]
  · rw [foldl_link]
    rfl
  · rw [foldl_link, foldl_link]
    show Clique.ofList (Arena.keysOf (.ofKeys (vertices.map f)) ids) =
      Clique.ofList ((Clique.ofList (Arena.keysOf (.ofKeys vertices) ids)).members.map f)
    rw [Arena.keysOf_ofKeys_map inj, Clique.ofList_eq_iff]
    simp [Clique.mem_ofList]

/-- **Renaming.** Whatever names are given to the vertices of an edge list, as long as different vertices get different
ones, the policy fails with the same error, or it makes the tree for the old names with every clique, edge and separator
renamed in its place. -/
theorem junctionTree_rename (inj : OneToOne f vertices) (made : Digraph.ofEdges vertices edges = .ok g)
    (p : OrderPolicy) : ∃ g', Digraph.ofEdges (vertices.map f) (edges.map (Prod.map f f)) = .ok g' ∧
      (∀ e, g.junctionTree p = .error e → g'.junctionTree p = .error e) ∧
        ∀ t, g.junctionTree p = .ok t → ∃ t', g'.junctionTree p = .ok t' ∧
          t'.cliques = t.cliques.map (Clique.rename f) ∧
            t'.edges = t.edges.map (Prod.map (Clique.rename f) (Clique.rename f)) ∧
              t'.separators = t.separators.map fun s => ascending (s.map f) := by
  have built : g.Built := .ofEdges made
  obtain ⟨g', made', size, rows, listed, cliqueOf⟩ := ofEdges_map inj made
  have built' : g'.Built := .ofEdges made'
  refine ⟨g', made', ?_⟩
  rw [junctionTree_eq built, junctionTree_eq built', rows, Arena.ids, Arena.ids, size]
  cases resolved : p.resolve g.moralRows (List.range g.arena.size) with
  | error e =>
    constructor
    · intro e' failed
      obtain rfl := Except.error.inj failed
      rfl
    · intro t tree
      cases tree
  | ok order =>
    refine ⟨fun e failed => (by cases failed), fun t tree => ?_⟩
    obtain rfl := Except.ok.inj tree
    have renames : Renames f vertices ((g.moralRows.chordalIds order).map g.cliqueOf) := by
      refine ⟨inj, nodup_map_cliqueOf built resolved, ?_, ?_⟩
      · intro c hc
        obtain ⟨ids, _, rfl⟩ := List.mem_map.1 hc
        exact Clique.isCanonical_ofList _
      · intro c hc k hk
        obtain ⟨ids, _, rfl⟩ := List.mem_map.1 hc
        exact mem_distinct.1 (listed ▸ mem_vertices_of_mem_cliqueOf hk)
    refine ⟨treeOf ((g.moralRows.chordalIds order).map g'.cliqueOf) p, rfl, ?_⟩
    rw [funext cliqueOf, ← Function.comp_def, ← List.map_map]
    exact renames.treeOf_rename p

/-- Letters renamed to numbers that come in the opposite order. -/
theorem letters_rename : ∃ (g : Digraph Char) (g' : Digraph UInt64) (t : JunctionTree Char) (t' : JunctionTree UInt64),
    Digraph.ofEdges ['a', 'b', 'd', 'e', 'c'] [('a', 'c'), ('b', 'c'), ('c', 'd'), ('c', 'e')] = .ok g ∧
      Digraph.ofEdges [9, 8, 6, 5, 7] [(9, 7), (8, 7), (7, 6), (7, 5)] = .ok g' ∧
        g.junctionTree .inOrder = .ok t ∧ g'.junctionTree .inOrder = .ok t' ∧
          t.cliques = [⟨['a', 'b', 'c']⟩, ⟨['c', 'd']⟩, ⟨['c', 'e']⟩] ∧
            t'.cliques = [⟨[7, 8, 9]⟩, ⟨[6, 7]⟩, ⟨[5, 7]⟩] ∧
              t'.edges = [(⟨[7, 8, 9]⟩, ⟨[6, 7]⟩), (⟨[7, 8, 9]⟩, ⟨[5, 7]⟩)] ∧ t'.separators = [[7], [7]] := by
  let name : Char → UInt64 := fun k => UInt64.ofNat (106 - k.toNat)
  have ran : (do
      let g ← Digraph.ofEdges ['a', 'b', 'd', 'e', 'c'] [('a', 'c'), ('b', 'c'), ('c', 'd'), ('c', 'e')]
      let t ← g.junctionTree .inOrder
      return (t.cliques, t.edges, t.separators)) =
        .ok ([⟨['a', 'b', 'c']⟩, ⟨['c', 'd']⟩, ⟨['c', 'e']⟩],
          [(⟨['a', 'b', 'c']⟩, ⟨['c', 'd']⟩), (⟨['a', 'b', 'c']⟩, ⟨['c', 'e']⟩)], [['c'], ['c']]) := by
    simp only [junctionTree, Graph.junctionTree, spanningForest_overlapWeights]
    generalize OrderPolicy.paramsHash _ = digest
    cbv
  obtain ⟨g, made, ran⟩ := bind_eq_ok.1 ran
  obtain ⟨t, tree, shown⟩ := bind_eq_ok.1 ran
  obtain ⟨cliques, shown⟩ := Prod.mk.inj (Except.ok.inj shown)
  obtain ⟨edges, separators⟩ := Prod.mk.inj shown
  have inj : OneToOne name ['a', 'b', 'd', 'e', 'c'] := List.inj_on_of_nodup_map (by decide)
  obtain ⟨g', made', _, same⟩ := junctionTree_rename inj made .inOrder
  obtain ⟨t', tree', cliques', edges', separators'⟩ := same t tree
  rw [cliques] at cliques'
  rw [edges] at edges'
  rw [separators] at separators'
  exact ⟨g, g', t, t', made, made', tree, tree', cliques, cliques', edges', separators'⟩

end Digraph
end CliqueTree
