import CliqueTree.Proofs.Digraph.Components
import CliqueTree.Proofs.Graph.States

/-!
# Every access checked

The way from a directed graph to its junction tree follows ids in many places, and where it is known that an id is in
range it does not ask. Here it asks everywhere: before an edge is taken up, before a walk follows rows, before the
game reads or writes one, before the key or the clique with an id is looked up, and before pointers of a disjoint set
are followed. For every graph that callers can build the answer is the same (`Digraph.checkedJunctionTree_eq`), so no
access ever goes past an end.
-/

set_option autoImplicit false

namespace CliqueTree

/-- When no step fails, all results are those of a plain map. -/
theorem mapM_eq_map {α β ε : Type} {f : α → Except ε β} {h : α → β} (l : List α) (each : ∀ a ∈ l, f a = .ok (h a)) :
    l.mapM f = .ok (l.map h) := by
  induction l with
  | nil => rfl
  | cons a l ih =>
    obtain ⟨first, each⟩ := List.forall_mem_cons.1 each
    rw [List.mapM_cons, first, ih each]
    rfl

/-! ### Cliques -/

/-- Takes up the edges of a list, with the ends of each checked. -/
def checkedLinks {G : Type} [NeighbourLinks G] (g : G) (edges : List Edge) : Except GraphError G :=
  edges.foldlM (fun g e => NeighbourLinks.checkedLink g e.1 e.2) g

theorem checkedLinks_eq {G : Type} [NeighbourLinks G] {g : G} {edges : List Edge} {n : Nat}
    (size : (NeighbourLinks.neighbours g).size = n) (inside : ∀ e ∈ edges, e.1 < n ∧ e.2 < n) :
    checkedLinks g edges = .ok (edges.foldl (fun g e => NeighbourLinks.link g e.1 e.2) g) := by
  refine (Growth.foldlM_eq_foldl (P := fun g : G => (NeighbourLinks.neighbours g).size = n) edges
    (fun g e he size => ?_) size).1
  obtain ⟨first, second⟩ := inside e he
  refine ⟨NeighbourLinks.checkedLink_eq (lt_of_lt_of_eq first size.symm) (lt_of_lt_of_eq second size.symm), ?_⟩
  rw [NeighbourLinks.neighbours_link, Rows.size_add, Rows.size_add, size]

/-- On symmetric rows a walk from ids that have rows meets no others. -/
theorem Rows.Symmetric.checkClosed {r : Rows} (symm : r.Symmetric) {ids : List Nat}
    (perm : ids.Perm (List.range r.size)) : r.checkClosed ids = .ok () :=
  Rows.checkClosed_eq_ok_iff.2 fun _ hv => ⟨List.mem_range.1 (perm.mem_iff.1 hv), fun _ link => symm.lt_size link⟩

namespace Graph
variable {K : Type}

theorem WellFormed.checkClosed {g : Graph K} (wf : g.WellFormed) : g.neighbourRows.checkClosed g.arena.ids = .ok () :=
  wf.symm.checkClosed (.of_eq (by rw [Arena.ids, wf.size]))

variable [VertexKey K]

/-- `triangulate`, with the rows checked before the policy walks them, and every access of the game. -/
def checkedTriangulate (g : Graph K) (p : OrderPolicy) : Except GraphError (Graph K) := do
  g.neighbourRows.checkClosed g.arena.ids
  match (Step.triangulate p).perform g with
  | .ok _ t => return t
  | .error e _ => throw e

theorem checkedTriangulate_eq {g : Graph K} (h : g.Consistent) (p : OrderPolicy) :
    g.checkedTriangulate p = (Step.triangulate p).run g := by
  have inside : (Step.triangulate p : Step K).Inside g.arena.size := trivial
  have same : (Step.triangulate p).perform g = _ := Step.perform_atomic h inside
  rw [checkedTriangulate, h.wellFormed.checkClosed, ok_bind, same]
  cases (Step.triangulate p).run g <;> rfl

/-- `maximalCliques`, with the rows checked before the policy walks them, and every id of a clique. -/
def checkedMaximalCliques (g : Graph K) (p : OrderPolicy) : Except GraphError (List (Clique K)) := do
  g.neighbourRows.checkClosed g.arena.ids
  (← g.maximalCliqueIds p).mapM fun ids => return Clique.ofList (← ids.mapM g.arena.key)

/-- `cliqueGraph`, with the ends of every edge checked. -/
def checkedCliqueGraph (g : Graph K) (p : OrderPolicy) : Except GraphError (Graph (Clique K)) := do
  let cliques ← g.checkedMaximalCliques p
  checkedLinks (blank (.ofKeys cliques)) (overlapping cliques)

variable {g : Graph K} {order : List Nat}

theorem Triangular.checkedMaximalCliques_eq (h : g.Triangular order) (q : OrderPolicy) :
    g.checkedMaximalCliques q = g.maximalCliques q := by
  rw [checkedMaximalCliques, h.toWellFormed.checkClosed, maximalCliques]
  cases resolved : g.resolve q with
  | error e =>
    rw [h.maximalCliqueIds_eq, resolved]
    rfl
  | ok seeds =>
    obtain ⟨cs, listed, _, maximal⟩ := h.exists_maximalCliqueIds resolved
    have inside : ∀ ids ∈ cs, ∀ i ∈ ids, i < g.arena.size := by
      intro ids hids i hi
      rw [← h.size]
      exact List.mem_range.1 (((maximal ids).1 hids).2.inside i hi)
    rw [listed]
    refine mapM_eq_map cs fun ids hids => ?_
    rw [Arena.mapM_key (inside ids hids)]
    rfl

theorem Triangular.checkedCliqueGraph_eq (h : g.Triangular order) (q : OrderPolicy) :
    g.checkedCliqueGraph q = g.cliqueGraph q := by
  rw [checkedCliqueGraph, h.checkedMaximalCliques_eq, cliqueGraph]
  cases listed : g.maximalCliques q with
  | error e => rfl
  | ok cs =>
    exact checkedLinks_eq (Rows.size_blank _) (overlapping_inside (h.lists_maximalCliques listed).nodup)

end Graph

/-! ### The selection -/

/-- Refuses a set in which a pointer leads outside or an id has no rank. -/
def DisjointSet.checkPointers (s : DisjointSet) : Except GraphError Unit := do
  let _ ← (List.range s.size).mapM fun x => Rows.checkId s.size (s.parentOf x)
  let _ ← (List.range s.size).mapM (Rows.checkId s.rank.size)

/-- `selectJoining`, with pointers and ends checked before classes are looked up. -/
def checkedSelect : DisjointSet → List Edge → Except GraphError (List Edge)
  | _, [] => .ok []
  | classes, (u, v) :: rest => do
    classes.checkPointers
    let (apart, next) ← classes.checkedUnion u v
    let selected ← checkedSelect next rest
    return if apart then (u, v) :: selected else selected

theorem Rows.checkId_eq {n id : Nat} (h : id < n) : checkId n id = .ok id := if_pos h

theorem DisjointSet.Ranked.checkPointers {s : DisjointSet} (ranked : s.Ranked) : s.checkPointers = .ok () := by
  have inside : (List.range s.size).mapM (fun x => Rows.checkId s.size (s.parentOf x)) = .ok _ :=
    mapM_eq_map _ fun x hx => Rows.checkId_eq (ranked.inside x (List.mem_range.1 hx))
  have named : (List.range s.size).mapM (Rows.checkId s.rank.size) = .ok _ :=
    mapM_eq_map _ fun x hx => Rows.checkId_eq (ranked.sizes ▸ List.mem_range.1 hx)
  rw [DisjointSet.checkPointers, inside, named]
  rfl

theorem checkedSelect_eq (edges : List Edge) {s : DisjointSet} (ranked : s.Ranked)
    (inside : ∀ e ∈ edges, e.1 < s.size ∧ e.2 < s.size) : checkedSelect s edges = .ok (selectJoining s edges) := by
  induction edges generalizing s with
  | nil => rfl
  | cons e rest ih =>
    obtain ⟨u, v⟩ := e
    obtain ⟨⟨hu, hv⟩, inside⟩ := List.forall_mem_cons.1 inside
    obtain ⟨next, size, _⟩ := DisjointSet.union_spec ranked hu hv
    have joined : s.checkedUnion u v = .ok (s.union u v) := by
      rw [DisjointSet.checkedUnion, Rows.checkId_eq hu, Rows.checkId_eq hv]
      rfl
    have rest := ih next (size.symm ▸ inside)
    rw [checkedSelect, ranked.checkPointers, joined, selectJoining]
    generalize s.union u v = result at *
    obtain ⟨apart, t⟩ := result
    cases apart <;> simp only [bind, Except.bind, rest] <;> rfl

/-- `spanningForest`, with everything checked that the selection follows. -/
def checkedSpanningForest (n : Nat) (edges : List (Int × Edge)) : Except GraphError (List Edge) := do
  let _ ← spanningForest n edges
  checkedSelect (.singletons n) ((byWeight edges).map (·.2))

theorem checkedSpanningForest_eq {n : Nat} {edges : List (Int × Edge)} {selected : List Edge}
    (spans : spanningForest n edges = .ok selected) : checkedSpanningForest n edges = .ok selected := by
  obtain ⟨inside, _⟩ := spanningForest_eq_ok spans
  obtain ⟨ranked, size, _⟩ := DisjointSet.ranked_singletons n
  have ends : ∀ e ∈ (byWeight edges).map (·.2), e.1 < (DisjointSet.singletons n).size ∧
      e.2 < (DisjointSet.singletons n).size := by
    intro e he
    obtain ⟨f, hf, rfl⟩ := List.mem_map.1 he
    rw [size]
    exact inside f ((byWeight_perm edges).mem_iff.1 hf)
  have selects := checkedSelect_eq _ ranked ends
  rw [checkedSpanningForest, spans]
  unfold spanningForest at spans
  split at spans
  · cases spans
  · exact selects.trans spans

section Tree
variable {K : Type} [VertexKey K]

/-- `Clique.overlap` of the cliques at the ends of an edge, both looked up. -/
def checkedOverlap (a : Arena (Clique K)) (e : Edge) : Except GraphError Nat :=
  return (← a.key e.1).overlap (← a.key e.2)

/-- `overlapWeights`, with both cliques of each edge looked up. -/
def checkedWeights (g : Graph (Clique K)) : Except GraphError (List (Int × Edge)) :=
  g.edgeIds.toList.mapM fun e => return (-(← checkedOverlap g.arena e : Int), e)

/-- The place of an id in a list, which must have one. -/
def checkedPlace (order : List Nat) (v : Nat) : Except GraphError Nat := Rows.checkId order.length (order.idxOf v)

/-- The edge between the places of the ends. -/
def checkedPlaces (order : List Nat) (e : Edge) : Except GraphError Edge :=
  return (← checkedPlace order e.1, ← checkedPlace order e.2)

/-- `layoutVisits`, with the ends of every edge checked, and the rows before they are walked. -/
def checkedVisits (a : Arena (Clique K)) (selected : List Edge) : Except GraphError (List Visit) := do
  let rows ← checkedLinks (Rows.blank a.size) selected
  rows.checkClosed (rootOrder a.keys selected)
  return rows.forest (rootOrder a.keys selected)

/-- `layout`, with the cliques of every edge and every place looked up. -/
def checkedLayout (a : Arena (Clique K)) (selected : List Edge) : Except GraphError (Graph (Clique K)) := do
  let _ ← selected.mapM (checkedOverlap a)
  let visits ← checkedVisits a selected
  let cliques ← (visits.map (·.vertex)).mapM a.key
  checkedLinks (Graph.blank (.ofKeys cliques)) (← (stepsOf visits).mapM (checkedPlaces (visits.map (·.vertex))))

/-- `Graph.junctionTree`, with every access checked. -/
def Graph.checkedJunctionTree (g : Graph K) (p : OrderPolicy) : Except GraphError (JunctionTree K) := do
  let cliqueGraph ← g.checkedCliqueGraph p
  let selected ← checkedSpanningForest cliqueGraph.vertexCount (← checkedWeights cliqueGraph)
  return ⟨← checkedLayout cliqueGraph.arena selected, p.paramsHash⟩

/-- `Digraph.junctionTree`, with every access checked. -/
def Digraph.checkedJunctionTree (g : Digraph K) (p : OrderPolicy) : Except GraphError (JunctionTree K) := do
  let moral ← g.moralize
  let graph ← checkedLinks (Graph.blank moral.graph.arena) moral.graph.edgeIds.toList
  (← graph.checkedTriangulate p).checkedJunctionTree p

theorem checkedOverlap_eq {a : Arena (Clique K)} {e : Edge} (first : e.1 < a.size) (second : e.2 < a.size) :
    checkedOverlap a e = .ok (sharedAt a.keys e) := by
  obtain ⟨c, hc⟩ := Arena.exists_key? first
  obtain ⟨d, hd⟩ := Arena.exists_key? second
  rw [checkedOverlap, Arena.key_eq hc, Arena.key_eq hd, sharedAt_eq hc hd]
  rfl

theorem checkedWeights_eq {g : Graph (Clique K)}
    (inside : ∀ e ∈ g.edgeIds.toList, e.1 < g.arena.size ∧ e.2 < g.arena.size) :
    checkedWeights g = .ok (overlapWeights g) := by
  refine mapM_eq_map _ fun e he => ?_
  rw [checkedOverlap_eq (inside e he).1 (inside e he).2]
  rfl

theorem checkedPlaces_eq {order : List Nat} {e : Edge} (first : e.1 ∈ order) (second : e.2 ∈ order) :
    checkedPlaces order e = .ok (Prod.map order.idxOf order.idxOf e) := by
  rw [checkedPlaces, checkedPlace, checkedPlace, Rows.checkId_eq (List.idxOf_lt_length_iff.2 first),
    Rows.checkId_eq (List.idxOf_lt_length_iff.2 second)]
  rfl

theorem checkedVisits_eq {a : Arena (Clique K)} {selected : List Edge}
    (inside : ∀ e ∈ selected, e.1 < a.size ∧ e.2 < a.size) :
    checkedVisits a selected = .ok (layoutVisits a.keys selected) := by
  have rows : checkedLinks (Rows.blank a.size) selected = .ok (adjacencyOf a.size selected) :=
    checkedLinks_eq (Rows.size_blank a.size) inside
  have closed : (adjacencyOf a.size selected).checkClosed (rootOrder a.keys selected) = .ok () := by
    obtain ⟨size, symm, _⟩ := Rows.linked_foldl_link_blank inside
    exact Rows.Symmetric.checkClosed symm (size.symm ▸ rootOrder_perm a.keys selected)
  rw [checkedVisits, rows, ok_bind, closed, ok_bind]
  rfl

/-- The walk meets every clique, and its steps go between places. -/
theorem checkedLayout_eq {a : Arena (Clique K)} {selected : List Edge}
    (inside : ∀ e ∈ selected, e.1 < a.size ∧ e.2 < a.size) :
    checkedLayout a selected = .ok (layout a.keys selected) := by
  let order := layoutOrder a selected
  have perm : order.Perm a.ids := layoutOrder_perm inside
  have placed : ∀ {i}, i < a.size → i ∈ order := fun hi => perm.mem_iff.2 (List.mem_range.2 hi)
  have overlaps : selected.mapM (checkedOverlap a) = .ok (selected.map (sharedAt a.keys)) :=
    mapM_eq_map selected fun e he => checkedOverlap_eq (inside e he).1 (inside e he).2
  have cliques : order.mapM a.key = .ok (a.keysOf order) :=
    Arena.mapM_key fun i hi => List.mem_range.1 (perm.mem_iff.1 hi)
  have places : (stepsOf (layoutVisits a.keys selected)).mapM (checkedPlaces order) =
      .ok ((stepsOf (layoutVisits a.keys selected)).map (Prod.map order.idxOf order.idxOf)) := by
    refine mapM_eq_map _ fun e he => ?_
    obtain ⟨first, second⟩ := steps_inside inside e he
    exact checkedPlaces_eq (placed first) (placed second)
  have arena : (layout a.keys selected).arena = .ofKeys (a.keysOf order) := by
    rw [layout, Graph.ofEdgeIds_eq]
    rfl
  have ends := edgeIds_layout_inside inside
  rw [edgeIds_layout, arena] at ends
  rw [checkedLayout, overlaps, ok_bind, checkedVisits_eq inside, ok_bind, ← layoutOrder, cliques, ok_bind, places,
    ok_bind]
  exact checkedLinks_eq (Rows.size_blank _) ends

/-- The edges between cliques stay inside, so the selection and the layout do. -/
theorem Graph.Triangular.checkedJunctionTree_eq {g : Graph K} {order : List Nat} (h : g.Triangular order)
    (q : OrderPolicy) : g.checkedJunctionTree q = g.junctionTree q := by
  rw [Graph.checkedJunctionTree, h.checkedCliqueGraph_eq, Graph.junctionTree, Graph.cliqueGraph]
  cases listed : g.maximalCliques q with
  | error e => rfl
  | ok cs =>
    have lists := h.lists_maximalCliques listed
    have weights : checkedWeights (Graph.ofEdgeIds (.ofKeys cs) (Graph.overlapping cs)) = .ok (overlapEdges cs) := by
      rw [Graph.ofEdgeIds_eq, checkedWeights_eq (Graph.overlapping_inside lists.nodup)]
      rfl
    have weights' : overlapWeights (Graph.ofEdgeIds (.ofKeys cs) (Graph.overlapping cs)) = overlapEdges cs := by
      rw [Graph.ofEdgeIds_eq]
      rfl
    have arena : (Graph.ofEdgeIds (.ofKeys cs) (Graph.overlapping cs)).arena = .ofKeys cs := by
      rw [Graph.ofEdgeIds_eq]
    have spanned := spanned_selectedOf (fun c hc => ((lists.mem_iff c).1 hc).1) lists.nodup
    simp only [ok_bind, pure, Except.pure, weights, weights', arena, Graph.vertexCount,
      checkedSpanningForest_eq spanned.spans, spanned.spans, checkedLayout_eq spanned.inside]

/-- **No access past an end.** For every directed graph that callers can build the way that checks every access has
the same outcome. -/
theorem Digraph.checkedJunctionTree_eq {g : Digraph K} (built : g.Built) (p : OrderPolicy) :
    g.checkedJunctionTree p = g.junctionTree p := by
  have wf := built.wellFormed
  obtain ⟨m, moral, open_wf, _⟩ := exists_openMoralGraph built
  obtain ⟨s, married, same⟩ := bind_eq_ok.1 moral
  obtain rfl := Except.ok.inj same
  have inside := (wf.marry married).1.edgeIds_inside
  have consistent : s.graph.toGraph.Consistent := .ofEdgeIds inside
  have graph : checkedLinks (Graph.blank s.graph.arena) s.graph.edgeIds.toList = .ok s.graph.toGraph :=
    checkedLinks_eq (Rows.size_blank _) inside
  rw [Digraph.checkedJunctionTree, Digraph.junctionTree, married, moral, ok_bind, ok_bind, graph, ok_bind,
    Graph.checkedTriangulate_eq consistent, Graph.Step.run]
  cases filled : s.graph.toGraph.triangulate p with
  | error e => rfl
  | ok t =>
    obtain ⟨_, _, order, _, triangular⟩ := Graph.triangulate_spec open_wf filled
    exact triangular.checkedJunctionTree_eq p

end Tree
end CliqueTree
