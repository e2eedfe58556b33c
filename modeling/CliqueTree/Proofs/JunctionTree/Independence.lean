import CliqueTree.Proofs.Digraph.Components
import CliqueTree.Proofs.JunctionTree.Components
import CliqueTree.Proofs.JunctionTree.Excerpt
import CliqueTree.Proofs.Table.ExcerptRuns

/-!
# Components are independent

A set of vertices that no edge enters or leaves makes a graph of its own, with the vertices and the edges in the order
of the whole (`Digraph.exists_partOf`). Its moral rows are an excerpt of the rows of the whole, so every policy orders
its vertices as it orders them in the whole, and it lists the cliques that the whole has there, in the same order. When
the set is a component, the tree of the whole joins these cliques, and its part there is the tree of the component, one
block of the layout (`Digraph.junctionTree_component`).
-/

set_option autoImplicit false

namespace CliqueTree
open Relation (ReflTransGen)

/-- A way does not enter or leave a set that no edge enters or leaves. -/
theorem Joined.iff_of_forall {α : Type} {edges : List (α × α)} {a b : α} {P : α → Prop}
    (each : ∀ e ∈ edges, (P e.1 ↔ P e.2)) (way : Joined edges a b) : P a ↔ P b := by
  induction way with
  | refl => rfl
  | tail _ step ih =>
    rcases step with forth | back
    · exact ih.trans (each _ forth)
    · exact ih.trans (each _ back).symm

namespace Digraph
variable {K : Type} {g h : Digraph K} {inside : K → Bool} {i j : Nat} {k u v : K}

/-! ### A part of a graph -/

theorem nodup_vertices (g : Digraph K) : g.vertices.Nodup := g.arena.nodup

theorem edges_eq_filterMap (g : Digraph K) : g.edges = g.edgeIds.toList.filterMap (both (g.vertices[·]?)) := by
  rw [funext g.getElem?_vertices]
  rfl

/-- No edge enters or leaves a component. -/
theorem closed_of_component (component : ∀ v, inside v = true ↔ Joined g.edges k v) :
    ∀ e ∈ g.edges, inside e.1 = inside e.2 := by
  intro e he
  rw [Bool.eq_iff_iff, component, component]
  exact ⟨(·.trans (.of_mem he)), (·.trans (Joined.of_mem he).symm)⟩

theorem joined_of_component (component : ∀ v, inside v = true ↔ Joined g.edges k v) (hu : inside u = true)
    (hv : inside v = true) : Joined g.edges u v := ((component u).1 hu).symm.trans ((component v).1 hv)

variable [VertexKey K]

/-- The graph of some vertices that no edge enters or leaves, with the edges between them. -/
structure PartOf (inside : K → Bool) (g h : Digraph K) : Prop where
  built : h.Built
  vertices : h.vertices = g.vertices.filter inside
  edgeIds : h.edgeIds.toList = g.edgeIds.toList.filterMap (both (placeAmong inside g.vertices))
  unmixed : ∀ e ∈ g.edgeIds.toList, Unmixed (placeAmong inside g.vertices) e

theorem exists_partOf (built : g.Built) (closed : ∀ e ∈ g.edges, inside e.1 = inside e.2) :
    ∃ h, Digraph.ofEdges (g.vertices.filter inside) (g.edges.filter fun e => inside e.1 && inside e.2) = .ok h ∧
      PartOf inside g h := by
  let arena := Arena.ofKeys (g.vertices.filter inside)
  let es := g.edgeIds.toList.filterMap (both (placeAmong inside g.vertices))
  have keys : arena.keys.toList = g.vertices.filter inside := by
    rw [Arena.keys_ofKeys (g.nodup_vertices.filter inside)]
  have ends : arena.edgeIds (g.edges.filter fun e => inside e.1 && inside e.2) = .ok es := by
    refine Arena.edgeIds_eq_ok_iff.2 ⟨fun e he => ?_, ?_⟩
    · obtain ⟨listed, kept⟩ := List.mem_filter.1 he
      obtain ⟨first, second⟩ := mem_vertices_of_mem_edges listed
      obtain ⟨keepFirst, keepSecond⟩ := Bool.and_eq_true_iff.1 kept
      rw [keys]
      exact ⟨List.mem_filter.2 ⟨first, keepFirst⟩, List.mem_filter.2 ⟨second, keepSecond⟩⟩
    · rw [edges_eq_filterMap, List.filter_filterMap, List.map_filterMap]
      refine congrArg (List.filterMap · _) (funext fun e => ?_)
      rw [← both_filter, ← both_map, show arena.placeOf = (g.vertices.filter inside).idxOf by
        rw [← keys]
        rfl]
      rfl
  have made : Digraph.ofEdges (g.vertices.filter inside) (g.edges.filter fun e => inside e.1 && inside e.2) =
      .ok (es.foldl (fun g e => g.link e.1 e.2) (blank arena)) := by
    rw [Digraph.ofEdges, ends]
    rfl
  refine ⟨_, made, .ofEdges made, ?_, ?_, fun e he => ?_⟩
  · rw [foldl_link]
    exact keys
  · rw [foldl_link]
    simp [blank, es]
  · obtain ⟨first, second⟩ := built.wellFormed.edgeIds_inside e he
    obtain ⟨u, hu⟩ := Arena.exists_key? first
    obtain ⟨v, hv⟩ := Arena.exists_key? second
    rw [Unmixed, isSome_placeAmong, isSome_placeAmong, getElem?_vertices, getElem?_vertices, hu, hv]
    exact closed (u, v) (Arena.mem_edgesOf.2 ⟨e, he, hu, hv⟩)

namespace PartOf

theorem edges (part : PartOf inside g h) : h.edges = g.edges.filter fun e => inside e.1 && inside e.2 := by
  rw [edges_eq_filterMap, part.edgeIds, edges_eq_filterMap, List.filterMap_filterMap, List.filter_filterMap]
  refine congrArg (List.filterMap · _) (funext fun e => ?_)
  rw [← both_bind, ← both_filter, part.vertices, funext (bind_placeAmong inside g.vertices)]

theorem renumbers (_ : PartOf inside g h) : Renumbers (placeAmong inside g.vertices) :=
  renumbers_placeAmong g.nodup_vertices

theorem ids (part : PartOf inside g h) :
    (List.range g.arena.size).filterMap (placeAmong inside g.vertices) = List.range h.arena.size := by
  have all := filterMap_placeAmong_range inside g.nodup_vertices
  rwa [← part.vertices] at all

theorem lt_size (part : PartOf inside g h) {i j : Nat} (hi : placeAmong inside g.vertices i = some j) :
    i < g.arena.size ∧ j < h.arena.size := by
  have small := lt_of_placeAmong g.nodup_vertices hi
  rwa [← part.vertices] at small

/-- The moral rows of the part are an excerpt. -/
theorem excerpt (part : PartOf inside g h) :
    Rows.Excerpt (placeAmong inside g.vertices) g.moralRows h.moralRows := by
  obtain ⟨moral, unmixed⟩ := Rows.moralEdges_filterMap part.renumbers part.lt_size part.ids part.unmixed
  rw [moralRows, moralRows, part.edgeIds, moral]
  exact Rows.excerpt_adjacencyOf part.renumbers part.lt_size unmixed

theorem keysOf_filterMap (part : PartOf inside g h) (ids : List Nat) :
    h.arena.keysOf (ids.filterMap (placeAmong inside g.vertices)) = (g.arena.keysOf ids).filter inside := by
  have names : ∀ g : Digraph K, g.arena.key? = (g.vertices[·]?) := fun g =>
    funext fun i => (g.getElem?_vertices i).symm
  rw [Arena.keysOf, Arena.keysOf, names, names, part.vertices, filterMap_placeAmong]

end PartOf

/-! ### Cliques of a part -/

section Cliques
variable {ids : List Nat}

/-- Of a clique that is left or left out as a whole, all members lie inside or none does. -/
theorem inside_eq_of_whole (whole : Rows.Whole (placeAmong inside g.vertices) ids) (hu : u ∈ (g.cliqueOf ids).members)
    (hv : v ∈ (g.cliqueOf ids).members) : inside u = inside v := by
  obtain ⟨i, hi, first⟩ := Arena.mem_keysOf.1 (Clique.mem_ofList.1 hu)
  obtain ⟨j, hj, second⟩ := Arena.mem_keysOf.1 (Clique.mem_ofList.1 hv)
  have alike := whole.unmixed i hi j hj
  rwa [Unmixed, isSome_placeAmong, isSome_placeAmong, getElem?_vertices, getElem?_vertices, first, second] at alike

/-- What is left of a clique is a clique of the part when its members lie inside. -/
theorem PartOf.map_leftOf (part : PartOf inside g h) (whole : Rows.Whole (placeAmong inside g.vertices) ids)
    (nonempty : (g.cliqueOf ids).members ≠ []) : (Rows.leftOf (placeAmong inside g.vertices) ids).map h.cliqueOf =
      Option.guard (·.members.all inside) (g.cliqueOf ids) := by
  have tested : ∀ {i u}, g.arena.key? i = some u → (placeAmong inside g.vertices i).isSome = inside u := by
    intro i u hi
    rw [isSome_placeAmong, getElem?_vertices, hi, Option.any_some]
  cases left : Rows.leftOf (placeAmong inside g.vertices) ids with
  | none =>
    obtain ⟨u, hu⟩ := List.exists_mem_of_ne_nil _ nonempty
    obtain ⟨i, hi, named⟩ := Arena.mem_keysOf.1 (Clique.mem_ofList.1 hu)
    have out := tested named
    rw [Rows.leftOf_eq_none_iff.1 left i hi, Option.isSome_none] at out
    refine (Option.guard_eq_none_iff.2 ?_).symm
    rw [List.all_eq_false]
    exact ⟨u, hu, by rw [← out]; simp⟩
  | some ids' =>
    have all : ∀ u ∈ g.arena.keysOf ids, inside u = true := by
      intro u hu
      obtain ⟨i, hi, named⟩ := Arena.mem_keysOf.1 hu
      rw [← tested named]
      exact Option.isSome_iff_exists.2 (whole.isSome_of_mem left hi)
    have same : h.cliqueOf ids' = g.cliqueOf ids := by
      rw [cliqueOf, cliqueOf, ← (Rows.leftOf_eq_some left).1, part.keysOf_filterMap, List.filter_eq_self.2 all]
    refine (Option.guard_eq_some_iff.2 ⟨same.symm, ?_⟩).symm
    rw [List.all_eq_true]
    exact fun u hu => all u (Clique.mem_ofList.1 hu)

theorem PartOf.map_filterMap_leftOf (part : PartOf inside g h) {cs : List (List Nat)}
    (whole : ∀ ids ∈ cs, Rows.Whole (placeAmong inside g.vertices) ids)
    (nonempty : ∀ ids ∈ cs, (g.cliqueOf ids).members ≠ []) :
    (cs.filterMap (Rows.leftOf (placeAmong inside g.vertices))).map h.cliqueOf =
      (cs.map g.cliqueOf).filter (·.members.all inside) := by
  rw [← List.filterMap_eq_filter, List.filterMap_map, List.map_filterMap]
  exact List.filterMap_congr fun ids hc => part.map_leftOf (whole ids hc) (nonempty ids hc)

end Cliques

/-! ### Connected parts -/

namespace PartOf

/-- When the part is connected in the whole, its rows are. -/
theorem connected (part : PartOf inside g h) (built : g.Built)
    (joined : ∀ u v, inside u = true → inside v = true → Joined g.edges u v) (hi : i < h.arena.size)
    (hj : j < h.arena.size) : ReflTransGen h.moralRows.Linked i j := by
  have placed : ∀ j < h.arena.size, ∃ i u, g.vertices[i]? = some u ∧ inside u = true ∧
      placeAmong inside g.vertices i = some j := by
    intro j small
    obtain ⟨i, _, hi⟩ := List.mem_filterMap.1 (part.ids ▸ List.mem_range.2 small)
    obtain ⟨u, first, second⟩ := (placeAmong_eq_some_iff g.nodup_vertices).1 hi
    exact ⟨i, u, first, (List.mem_filter.1 (List.mem_of_getElem? second)).2, hi⟩
  obtain ⟨i', u, hu, insideU, place⟩ := placed i hi
  obtain ⟨j', v, hv, insideV, place'⟩ := placed j hj
  have way := joined_edgeIds built.wellFormed hu hv (joined u v insideU insideV)
  rw [← joined_filterMap part.renumbers part.unmixed place place', ← part.edgeIds] at way
  exact ReflTransGen.mono (moralRows_spec part.built).2.2 _ _ way

variable {p : OrderPolicy} {order : List Nat}

/-- Every policy orders a connected part as it orders its vertices in the whole. -/
theorem resolve_eq (part : PartOf inside g h) (built : g.Built)
    (joined : ∀ u v, inside u = true → inside v = true → Joined g.edges u v)
    (resolved : p.resolve g.moralRows g.arena.ids = .ok order) :
    p.resolve h.moralRows h.arena.ids = .ok (order.filterMap (placeAmong inside g.vertices)) := by
  obtain ⟨size, symm, _⟩ := moralRows_spec built
  obtain ⟨size', symm', _⟩ := moralRows_spec part.built
  rw [Arena.ids, ← size] at resolved
  rw [Arena.ids, ← size']
  refine part.excerpt.resolve_eq_ok symm symm' (fun u hu v hv => ?_) ?_ resolved
  · rw [size'] at hu hv
    exact part.connected built joined hu hv
  · rw [size, size']
    exact part.ids

end PartOf

section Tree
variable {p : OrderPolicy} {order : List Nat}

/-- The cliques of a directed graph under an order. -/
def cliquesAlong (g : Digraph K) (order : List Nat) : List (Clique K) := (g.moralRows.chordalIds order).map g.cliqueOf

theorem junctionTree_eq_ok_iff (built : g.Built) {t : JunctionTree K} : g.junctionTree p = .ok t ↔
    ∃ order, p.resolve g.moralRows g.arena.ids = .ok order ∧ treeOf (g.cliquesAlong order) p = t := by
  rw [junctionTree_eq built, bind_eq_ok]
  exact exists_congr fun order => and_congr_right fun _ => ⟨Except.ok.inj, congrArg Except.ok⟩

/-- They are the cliques of a triangulated graph that connects all that the edges join. -/
theorem exists_joins (built : g.Built) (resolved : p.resolve g.moralRows g.arena.ids = .ok order) :
    ∃ s : Graph K, s.ListsCliques (g.cliquesAlong order) ∧ (treeOf (g.cliquesAlong order) p).Joins s ∧
      Std.Symm s.Adjacent ∧ ∀ u ∈ g.vertices, ∀ v ∈ g.vertices, Joined g.edges u v → s.Connected u v := by
  obtain ⟨m, moral, wf, state, arena, rows⟩ := exists_openMoralGraph built
  have cliqueOf : m.cliqueOf = g.cliqueOf := by
    funext ids
    rw [Graph.cliqueOf, cliqueOf, arena]
  have ordered : m.resolve p = .ok order := by rw [Graph.resolve, rows, arena, resolved]
  obtain ⟨s, filled, triangular, lists, tree⟩ := Graph.exists_chordal wf state ordered
  rw [rows, cliqueOf] at lists tree
  refine ⟨s.graph, lists, triangular.joins tree, triangular.adjacent_symm, fun u hu v hv way => ?_⟩
  obtain ⟨i, hi⟩ := List.mem_iff_getElem?.1 hu
  obtain ⟨j, hj⟩ := List.mem_iff_getElem?.1 hv
  have linked := linked_of_joined built hi hj way
  rw [getElem?_vertices, ← arena] at hi hj
  rw [← rows] at linked
  rw [Graph.connected_triangulate wf filled]
  exact Graph.connected_of_linked wf linked hi hj

theorem cliquesAlong_spec (built : g.Built) (resolved : p.resolve g.moralRows g.arena.ids = .ok order) :
    (g.cliquesAlong order).Nodup ∧ ∀ c ∈ g.cliquesAlong order, c.IsCanonical ∧ c.members ≠ [] := by
  obtain ⟨s, lists, _⟩ := exists_joins built resolved
  exact ⟨lists.nodup, fun c hc => ((lists.mem_iff c).1 hc).imp_right (·.nonempty)⟩

/-- The members of a clique are joined by the edges of the directed graph. -/
theorem joined_of_mem_cliquesAlong (built : g.Built) {c : Clique K} (hc : c ∈ g.cliquesAlong order)
    (hu : u ∈ c.members) (hv : v ∈ c.members) : Joined g.edges u v := by
  classical
  let inside (v : K) : Bool := decide (Joined g.edges u v)
  have component : ∀ v, inside v = true ↔ Joined g.edges u v := fun _ => decide_eq_true_iff
  obtain ⟨h, _, part⟩ := exists_partOf built (closed_of_component component)
  obtain ⟨ids, listed, rfl⟩ := List.mem_map.1 hc
  have alike := inside_eq_of_whole ((part.excerpt.chordalIds_eq order).2 ids listed) hu hv
  exact (component v).1 (alike ▸ (component u).2 (.refl g.edges u))

/-- The cliques of a component are those of the whole that have their members there. -/
theorem PartOf.cliquesAlong_eq (part : PartOf inside g h)
    (nonempty : ∀ c ∈ g.cliquesAlong order, c.members ≠ []) :
    h.cliquesAlong (order.filterMap (placeAmong inside g.vertices)) =
      (g.cliquesAlong order).filter (·.members.all inside) := by
  obtain ⟨left, whole⟩ := part.excerpt.chordalIds_eq order
  rw [cliquesAlong, left, part.map_filterMap_leftOf whole fun ids hc => nonempty _ (List.mem_map_of_mem hc),
    cliquesAlong]

/-- The tree joins two cliques when the edges of the directed graph join their members, and only then. -/
theorem joined_treeOf_iff (built : g.Built) (resolved : p.resolve g.moralRows g.arena.ids = .ok order) {c d : Clique K}
    (hc : c ∈ g.cliquesAlong order) (hd : d ∈ g.cliquesAlong order) (hu : u ∈ c.members) (hv : v ∈ d.members) :
    Joined (treeOf (g.cliquesAlong order) p).edges c d ↔ Joined g.edges u v := by
  obtain ⟨s, lists, joins, symm, connects⟩ := exists_joins built resolved
  have listed : ∀ c, c ∈ (treeOf (g.cliquesAlong order) p).cliques ↔ c ∈ g.cliquesAlong order := fun c =>
    (joins.lists.mem_iff c).trans (lists.mem_iff c).symm
  have named : ∀ c ∈ g.cliquesAlong order, ∀ u ∈ c.members, u ∈ g.vertices := by
    intro c hc u hu
    obtain ⟨ids, _, rfl⟩ := List.mem_map.1 hc
    exact mem_vertices_of_mem_cliqueOf hu
  rw [joins.joined_iff ((listed c).2 hc) ((listed d).2 hd) hu hv]
  constructor
  · -- who is adjacent in the triangulated graph is so in a clique
    refine ReflTransGen.lift' id (fun a b step => ?_) u v
    obtain ⟨e, he, inA, inB⟩ := joins.exists_clique_of_adjacent step
    exact joined_of_mem_cliquesAlong built ((listed e).1 he) inA inB
  · exact connects u (named c hc u hu) v (named d hd v hv)

/-- An edge of the tree joins two cliques of the list. -/
theorem mem_of_mem_edges_treeOf (built : g.Built) (resolved : p.resolve g.moralRows g.arena.ids = .ok order)
    {e : Clique K × Clique K} (he : e ∈ (treeOf (g.cliquesAlong order) p).edges) :
    e.1 ∈ g.cliquesAlong order ∧ e.2 ∈ g.cliquesAlong order := by
  obtain ⟨s, lists, joins, _⟩ := exists_joins built resolved
  obtain ⟨first, second⟩ := joins.ends e he
  exact ⟨(lists.mem_iff _).2 ((joins.lists.mem_iff _).1 first), (lists.mem_iff _).2 ((joins.lists.mem_iff _).1 second)⟩

end Tree

/-! ### A component -/

section Component
variable {p : OrderPolicy} {order : List Nat} (component : ∀ v, inside v = true ↔ Joined g.edges k v)
include component

/-- A clique lies in the component when one of its members does. -/
theorem all_inside_eq (built : g.Built) {c : Clique K} (hc : c ∈ g.cliquesAlong order) (hu : u ∈ c.members) :
    c.members.all inside = inside u := by
  rw [Bool.eq_iff_iff, List.all_eq_true, component u]
  constructor
  · exact fun all => (component u).1 (all u hu)
  · exact fun way v hv => (component v).2 (way.trans (joined_of_mem_cliquesAlong built hc hu hv))

theorem parted_of_component (built : g.Built) (resolved : p.resolve g.moralRows g.arena.ids = .ok order) :
    Parted (·.members.all inside) (g.cliquesAlong order) := by
  obtain ⟨nodup, each⟩ := cliquesAlong_spec built resolved
  refine ⟨fun c hc => (each c hc).1, nodup, fun c hc d hd u inC inD => ?_⟩
  exact (all_inside_eq component built hc inC).trans (all_inside_eq component built hd inD).symm

/-- The tree joins the cliques of a component. -/
theorem joined_cliques_of_component (built : g.Built) (resolved : p.resolve g.moralRows g.arena.ids = .ok order)
    {c d : Clique K} (hc : c ∈ g.cliquesAlong order) (hd : d ∈ g.cliquesAlong order)
    (allC : c.members.all inside = true) (allD : d.members.all inside = true) :
    Joined (treeOf (g.cliquesAlong order) p).edges c d := by
  obtain ⟨_, each⟩ := cliquesAlong_spec built resolved
  obtain ⟨u, hu⟩ := List.exists_mem_of_ne_nil _ (each c hc).2
  obtain ⟨v, hv⟩ := List.exists_mem_of_ne_nil _ (each d hd).2
  have insideU := List.all_eq_true.1 allC u hu
  have insideV := List.all_eq_true.1 allD v hv
  exact (joined_treeOf_iff built resolved hc hd hu hv).2 (joined_of_component component insideU insideV)

/-- The component has the tree of its cliques. -/
theorem PartOf.junctionTree_eq (part : PartOf inside g h) (built : g.Built)
    (resolved : p.resolve g.moralRows g.arena.ids = .ok order) :
    h.junctionTree p = .ok (treeOf ((g.cliquesAlong order).filter (·.members.all inside)) p) := by
  obtain ⟨_, each⟩ := cliquesAlong_spec built resolved
  rw [← part.cliquesAlong_eq fun c hc => (each c hc).2]
  refine (junctionTree_eq_ok_iff part.built).2 ⟨_, part.resolve_eq built (fun u v => ?_) resolved, rfl⟩
  exact joined_of_component component

end Component

/-- **Independent components.** Let a junction tree of a directed graph be given and a component of that graph, the
vertices that a way along the edges joins to `k`, with its edges, all in the order of the graph. The policy makes a tree
of the component too. The cliques that it lists are those of the given tree that have all their members in the
component, in the same order and one right after the other, and its edges are those of the given tree between such
cliques, in the same order. No edge of the given tree joins cliques of two components. -/
theorem junctionTree_component (built : g.Built) {p : OrderPolicy} {t : JunctionTree K}
    (tree : g.junctionTree p = .ok t) (component : ∀ v, inside v = true ↔ Joined g.edges k v) :
    (∃ (h : Digraph K) (t' : JunctionTree K) (before after : List (Clique K)),
      Digraph.ofEdges (g.vertices.filter inside) (g.edges.filter fun e => inside e.1 && inside e.2) = .ok h ∧
        h.vertices = g.vertices.filter inside ∧ h.edges = g.edges.filter (fun e => inside e.1 && inside e.2) ∧
          h.junctionTree p = .ok t' ∧ t.cliques.filter (·.members.all inside) = t'.cliques ∧
            t.edges.filter (fun e => e.1.members.all inside && e.2.members.all inside) = t'.edges ∧
              t.cliques = before ++ t'.cliques ++ after) ∧
      ∀ e ∈ t.edges, ∀ u ∈ e.1.members, ∀ v ∈ e.2.members, Joined g.edges u v := by
  obtain ⟨order, resolved, rfl⟩ := (junctionTree_eq_ok_iff built).1 tree
  have parted := parted_of_component component built resolved
  obtain ⟨h, made, part⟩ := exists_partOf built (closed_of_component component)
  obtain ⟨before, after, block⟩ := parted.cliques_eq_append fun c hc d hd =>
    joined_cliques_of_component component built resolved hc hd
  refine ⟨⟨h, _, before, after, made, part.vertices, part.edges, part.junctionTree_eq component built resolved,
    (parted.cliques_filter p).symm, (parted.edges_filter p).symm, block⟩, fun e he u hu v hv => ?_⟩
  obtain ⟨first, second⟩ := mem_of_mem_edges_treeOf built resolved he
  exact (joined_treeOf_iff built resolved first second hu hv).1 (.of_mem he)

/-- Three components whose vertices and edges are named by turns. The chain of two cliques stands between the triangles,
which share two members, and the vertex alone, and it is the tree of its component. -/
theorem chain_component : ∃ (g h : Digraph Char) (t t' : JunctionTree Char),
    Digraph.ofEdges ['s', 'a', 'x', 'b', 'y', 'c', 'z', 'w'] [('a', 'b'), ('x', 'y'), ('x', 'z'), ('y', 'z'),
      ('b', 'c'), ('y', 'w'), ('z', 'w')] = .ok g ∧ Digraph.ofEdges ['a', 'b', 'c'] [('a', 'b'), ('b', 'c')] = .ok h ∧
        g.junctionTree .standard = .ok t ∧ h.junctionTree .standard = .ok t' ∧
          t.cliques = [⟨['x', 'y', 'z']⟩, ⟨['w', 'y', 'z']⟩, ⟨['a', 'b']⟩, ⟨['b', 'c']⟩, ⟨['s']⟩] ∧
            t.edges = [(⟨['x', 'y', 'z']⟩, ⟨['w', 'y', 'z']⟩), (⟨['a', 'b']⟩, ⟨['b', 'c']⟩)] ∧
              t'.cliques = [⟨['a', 'b']⟩, ⟨['b', 'c']⟩] ∧ t'.edges = [(⟨['a', 'b']⟩, ⟨['b', 'c']⟩)] ∧
                (∀ v, v ∈ ['a', 'b', 'c'] ↔ Joined g.edges 'a' v) := by
  have ran : (do
      let g ← Digraph.ofEdges ['s', 'a', 'x', 'b', 'y', 'c', 'z', 'w'] [('a', 'b'), ('x', 'y'), ('x', 'z'), ('y', 'z'),
        ('b', 'c'), ('y', 'w'), ('z', 'w')]
      let t ← g.junctionTree .standard
      return (g.vertices, g.edges, t.cliques, t.edges)) =
        .ok (['s', 'a', 'x', 'b', 'y', 'c', 'z', 'w'], [('a', 'b'), ('x', 'y'), ('x', 'z'), ('y', 'z'), ('b', 'c'),
          ('y', 'w'), ('z', 'w')], [⟨['x', 'y', 'z']⟩, ⟨['w', 'y', 'z']⟩, ⟨['a', 'b']⟩, ⟨['b', 'c']⟩, ⟨['s']⟩],
            [(⟨['x', 'y', 'z']⟩, ⟨['w', 'y', 'z']⟩), (⟨['a', 'b']⟩, ⟨['b', 'c']⟩)]) := by
    simp only [junctionTree, Graph.junctionTree, spanningForest_overlapWeights]
    generalize OrderPolicy.paramsHash _ = digest
    cbv
  obtain ⟨g, made, ran⟩ := bind_eq_ok.1 ran
  obtain ⟨t, tree, shown⟩ := bind_eq_ok.1 ran
  obtain ⟨vertices, shown⟩ := Prod.mk.inj (Except.ok.inj shown)
  obtain ⟨edges, shown⟩ := Prod.mk.inj shown
  obtain ⟨cliques, treeEdges⟩ := Prod.mk.inj shown
  have component : ∀ v, decide (v ∈ ['a', 'b', 'c']) = true ↔ Joined g.edges 'a' v := by
    have first : ('a', 'b') ∈ g.edges := by simp [edges]
    have second : ('b', 'c') ∈ g.edges := by simp [edges]
    have kept : ∀ e ∈ g.edges, (e.1 ∈ ['a', 'b', 'c'] ↔ e.2 ∈ ['a', 'b', 'c']) := by
      rw [edges]
      decide
    intro v
    rw [decide_eq_true_eq]
    constructor
    · intro hv
      simp only [List.mem_cons, List.not_mem_nil, or_false] at hv
      rcases hv with rfl | rfl | rfl
      · exact .refl _ 'a'
      · exact .of_mem first
      · exact (Joined.of_mem first).trans (.of_mem second)
    · intro way
      exact (way.iff_of_forall kept).1 (by decide)
  obtain ⟨⟨h, t', _, _, made', _, _, tree', cliques', edges', _⟩, _⟩ :=
    junctionTree_component (.ofEdges made) tree component
  rw [vertices, edges] at made'
  rw [cliques] at cliques'
  rw [treeEdges] at edges'
  exact ⟨g, h, t, t', made, made', tree, tree', cliques, treeEdges, cliques'.symm, edges'.symm,
    by simpa using component⟩

end Digraph
end CliqueTree
