import CliqueTree.Proofs.Digraph.States
import CliqueTree.Proofs.Table.DepthFirst

/-!
# The ancestors of a vertex

A vertex with a directed path to `v` is what a search from `v` along the parents reaches (`reach_parents_iff`). So the
depth-first search on ids, which ends on the rows of every graph that callers build, lists the ancestors of `v`: itself
first, each of them once, and each behind one of its children (`ancestors_exact`). Cycles, loops and repeated edges change
nothing about that.
-/

set_option autoImplicit false

namespace CliqueTree
open Relation (ReflTransGen)

namespace Digraph
variable {K : Type} {g : Digraph K} {u v : K} {i j : Nat}

theorem depthFirst_parents_inside (wf : g.WellFormed) (hi : g.arena.key? i = some v) :
    ∀ x ∈ g.parentRows.depthFirst i, x < g.arena.size := by
  rw [← wf.size]
  exact Rows.depthFirst_inside wf.inside (wf.size ▸ Arena.lt_size hi)

variable [VertexKey K]

/-- A way along the parents is a path along the edges, read backwards. -/
theorem reach_parents_iff (wf : g.WellFormed) (hi : g.arena.key? i = some u) (hj : g.arena.key? j = some v) :
    ReflTransGen g.parentRows.Linked j i ↔ ReflTransGen g.Arc u v := by
  constructor
  · intro reach
    induction reach generalizing u with
    | refl =>
      obtain rfl := Option.some.inj (hi.symm.trans hj)
      exact .refl
    | tail _ link ih =>
      obtain ⟨w, hw⟩ := Arena.exists_key? (wf.size ▸ link.lt_size)
      exact .head ((arc_iff wf hi hw).2 link) (ih hw)
  · intro path
    induction path using ReflTransGen.head_induction_on generalizing i with
    | refl =>
      obtain rfl := Arena.key?_inj hi hj
      exact .refl
    | head arc _ ih =>
      obtain ⟨_, k, _, hk⟩ := arc.exists_ids
      exact (ih hk).tail ((arc_iff wf hi hk).1 arc)

/-- What is asked of the ancestors of a vertex. -/
structure ListsAncestors (g : Digraph K) (v : K) (order : List K) : Prop where
  /-- The vertex itself comes first. -/
  starts : order.head? = some v
  nodup : order.Nodup
  /-- Listed are the vertices from which a path leads to the vertex. -/
  reaches : ∀ u, u ∈ order ↔ ReflTransGen g.Arc u v
  /-- Any other vertex is a parent of one that is listed before it. -/
  parents : ∀ before u after, order = before ++ u :: after → u ≠ v → ∃ w ∈ before, g.Arc u w

/-- The ancestors are the keys of what the search along the parents lists. -/
theorem listsAncestors_keysOf (wf : g.WellFormed) (hi : g.arena.key? i = some v) :
    g.ListsAncestors v (g.arena.keysOf (g.parentRows.depthFirst i)) := by
  have small := depthFirst_parents_inside wf hi
  have keys := Arena.map_keysOf small
  constructor
  · have head := congrArg List.head? keys
    rw [List.head?_map, List.head?_map, Rows.head?_depthFirst, Option.map_some, hi] at head
    obtain ⟨k, first, named⟩ := Option.map_eq_some_iff.1 head
    rw [first, named]
  · exact Arena.nodup_keysOf (g.parentRows.nodup_depthFirst i)
  · intro u
    constructor
    · intro listed
      obtain ⟨x, hx, named⟩ := Arena.mem_keysOf.1 listed
      exact (reach_parents_iff wf named hi).1 (Rows.mem_depthFirst_iff.1 hx)
    · intro path
      have member : u ∈ g.vertices := by
        rcases ReflTransGen.cases_head path with rfl | ⟨w, arc, _⟩
        · exact Arena.mem_keys_iff.2 ⟨i, hi⟩
        · exact arc.mem_vertices
      obtain ⟨x, hx⟩ := Arena.mem_keys_iff.1 member
      exact (Arena.mem_keysOf_iff hx).2 (Rows.mem_depthFirst_iff.2 ((reach_parents_iff wf hx hi).2 path))
  · intro before u after split ne
    rw [split, List.map_append, List.map_cons, eq_comm, List.map_eq_append_iff] at keys
    obtain ⟨ids, rest, ordered, first, tail⟩ := keys
    obtain ⟨x, last, rfl, named, _⟩ := List.map_eq_cons_iff.1 tail
    have other : x ≠ i := by
      rintro rfl
      exact ne (Option.some.inj (named.symm.trans hi))
    obtain ⟨p, hp, link⟩ := Rows.exists_named_before ordered other
    obtain ⟨w, hw⟩ := Arena.exists_key? (wf.size ▸ link.lt_size)
    have earlier : some w ∈ before.map some := by
      rw [← first, ← hw]
      exact List.mem_map_of_mem hp
    exact ⟨w, by simpa using earlier, (arc_iff wf named hw).2 link⟩

/-- **Ancestors.** For every vertex of a graph that callers build the search along the parents ends, in a turn for each
vertex that it lists, and without looking up an id that the graph does not have. What it lists is the vertex and then all
others from which a path leads to it, each once and behind one of its children. -/
theorem ancestors_exact (built : g.Built) (hv : v ∈ g.vertices) : ∃ i ids order, g.arena.id v = .ok i ∧
    (∀ k t, Descent.Ends g.parentRows (.start g.vertexCount i) k t ↔
      k = ids.length ∧ t = .listed g.vertexCount ids) ∧
    ids.mapM g.arena.key = .ok order ∧ g.ancestors v = .ok order ∧ g.ListsAncestors v order := by
  obtain ⟨i, hi⟩ := Arena.mem_keys_iff.1 hv
  have wf := built.wellFormed
  have known := Arena.id_eq_ok_iff.2 hi
  have ended := Descent.ends_depthFirst wf.inside (wf.size ▸ Arena.lt_size hi)
  rw [wf.size] at ended
  refine ⟨i, g.parentRows.depthFirst i, _, known, fun k t => ⟨fun other => other.unique ended, ?_⟩,
    Arena.mapM_key (depthFirst_parents_inside wf hi), ?_, listsAncestors_keysOf wf hi⟩
  · rintro ⟨rfl, rfl⟩
    exact ended
  · rw [ancestors, known]
    rfl

/-- A loop, a cycle, a repeated edge and a vertex off to the side: from `d` the search meets `c` and then `b` twice over,
and the cycle leads back to what is marked. -/
theorem tangle_ancestors_exact : ∃ g : Digraph Char,
    Digraph.ofEdges ['a', 'b', 'c', 'd', 'e'] [('a', 'b'), ('b', 'c'), ('c', 'a'), ('b', 'd'), ('b', 'd'), ('c', 'd'),
      ('d', 'd'), ('d', 'e')] = .ok g ∧
      'd' ∈ g.vertices ∧ ∃ i ids order, i = 3 ∧ order = ['d', 'c', 'b', 'a'] ∧ g.arena.id 'd' = .ok i ∧
        (∀ k t, Descent.Ends g.parentRows (.start g.vertexCount i) k t ↔
          k = ids.length ∧ t = .listed g.vertexCount ids) ∧
        ids.mapM g.arena.key = .ok order ∧ g.ancestors 'd' = .ok order ∧ g.ListsAncestors 'd' order := by
  have ran : (do
      let g ← Digraph.ofEdges ['a', 'b', 'c', 'd', 'e'] [('a', 'b'), ('b', 'c'), ('c', 'a'), ('b', 'd'), ('b', 'd'),
        ('c', 'd'), ('d', 'd'), ('d', 'e')]
      return (g.vertices, g.arena.id 'd', g.ancestors 'd')) =
        .ok (['a', 'b', 'c', 'd', 'e'], .ok 3, .ok ['d', 'c', 'b', 'a']) := by
    cbv
  obtain ⟨g, made, ran⟩ := bind_eq_ok.1 ran
  obtain ⟨vertices, ran⟩ := Prod.mk.inj (Except.ok.inj ran)
  obtain ⟨place, listed⟩ := Prod.mk.inj ran
  have member : 'd' ∈ g.vertices := by
    rw [vertices]
    decide
  obtain ⟨i, ids, order, known, ends, keys, found, spec⟩ := ancestors_exact (.ofEdges made) member
  exact ⟨g, made, member, i, ids, order, Except.ok.inj (known.symm.trans place), Except.ok.inj (found.symm.trans listed),
    known, ends, keys, found, spec⟩

end Digraph
end CliqueTree
