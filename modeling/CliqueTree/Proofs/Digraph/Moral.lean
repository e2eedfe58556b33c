import CliqueTree.Digraph.Moral
import CliqueTree.Digraph.Order
import CliqueTree.Proofs.Graph.WellFormed
import CliqueTree.Proofs.Table.Marriage
import Mathlib.Data.List.Permutation

/-!
# When moral graphs are exact

Two vertices are moral neighbours when an edge joins them or they have a common child. The moral graph joins all
moral neighbours. It joins others too when a vertex has got a parent by marriage before its turn comes, and this
parent is no moral neighbour of another one. So the moral graph is exact if and only if all that a vertex lists
as its parents at its turn are moral neighbours of each other (`moralGraph_exact_iff`). That is so when every
vertex comes after its parents: no marriage can then add to the family of a vertex that has its turn to come.
-/

set_option autoImplicit false

namespace CliqueTree
namespace Digraph
variable {K : Type}

/-- There is a row for each vertex, the rows list vertices, and they agree with the edges. -/
structure WellFormed (g : Digraph K) : Prop where
  size : g.parentRows.size = g.arena.size
  inside : g.parentRows.Inside
  listed : ∀ u v, (u, v) ∈ g.edgeIds.toList ↔ u ∈ g.parentRows.get v

theorem WellFormed.link {g : Digraph K} (wf : g.WellFormed) {u v : Nat} (hu : u < g.parentRows.size)
    (hv : v < g.parentRows.size) : (g.link u v).WellFormed where
  size := (Rows.size_add g.parentRows v u).trans wf.size
  inside := by
    have extended : Rows.Extended g.parentRows (g.parentRows.add v u) (fun _ _ => True) :=
      .add wf.inside hu hv trivial
    exact extended.inside
  listed a b := by
    simp only [Digraph.link, Array.toList_push, List.mem_append, List.mem_singleton, Prod.mk.injEq,
      Rows.mem_get_add hv, wf.listed]
    rw [and_comm (a := a = u)]

theorem wellFormed_blank (arena : Arena K) : (blank arena).WellFormed where
  size := Rows.size_blank arena.size
  inside v x h := by simp [blank] at h
  listed u v := by simp [blank]

theorem foldl_link_wellFormed (edges : List Edge) {g : Digraph K} (wf : g.WellFormed)
    (inside : ∀ e ∈ edges, e.1 < g.arena.size ∧ e.2 < g.arena.size) :
    (edges.foldl (fun g e => g.link e.1 e.2) g).WellFormed := by
  induction edges generalizing g with
  | nil => exact wf
  | cons e edges ih =>
    obtain ⟨h1, h2⟩ := inside e List.mem_cons_self
    rw [← wf.size] at h1 h2
    exact ih (wf.link h1 h2) fun f hf => inside f (List.mem_cons_of_mem e hf)

/-- A run of marriages keeps the vertices and the agreement of rows and edges. -/
theorem WellFormed.marry {g : Digraph K} (wf : g.WellFormed) {order : List Nat} {s : Growth (Digraph K)}
    (ran : CliqueTree.marry g order = .ok s) : s.graph.WellFormed ∧ s.graph.arena = g.arena :=
  marry_induction (P := fun g' : Digraph K => g'.WellFormed ∧ g'.arena = g.arena)
    (fun _ _ _ h hu hv => ⟨h.1.link hu hv, h.2⟩) ⟨wf, rfl⟩ ran

section Turns
variable {g : Digraph K} {j : Nat}

/-- Two ids are beside each other or in one row. -/
def MoralIds (g : Digraph K) (i j : Nat) : Prop :=
  g.parentRows.Beside i j ∨ ∃ w, i ∈ g.parentRows.get w ∧ j ∈ g.parentRows.get w

/-- Every vertex was inserted after its parents. -/
def ParentsFirst (g : Digraph K) : Prop := ∀ e ∈ g.edgeIds.toList, e.1 < e.2

/-- A family at its turn holds the parents of its vertex and those that were added by marriages before. -/
theorem familyIds_spec (wf : g.WellFormed) (small : j < g.arena.size) : ∃ family, familyIds g j = .ok family ∧
    (∀ x ∈ g.parentRows.get j, x ∈ family) ∧
      ∀ x ∈ family, x < g.arena.size ∧ (x ∈ g.parentRows.get j ∨ ∃ w < j, MarriedAt g w x j) := by
  rw [← wf.size] at small ⊢
  obtain ⟨s, ran, extended, _⟩ := marry_range_spec (g := g) wf.inside j (Nat.le_of_lt small)
  refine ⟨s.parents.get j, ?_, fun x => extended.mono, fun x hx => ⟨?_, extended.only hx⟩⟩
  · rw [familyIds, ran]
    rfl
  · have := extended.inside j x hx
    rwa [extended.size] at this

theorem marriedAt_of_mem (wf : g.WellFormed) {a b : Nat} (ne : a ≠ b) (ha : a ∈ g.parentRows.get j)
    (hb : b ∈ g.parentRows.get j) : MarriedAt g j a b := by
  have small : j < g.arena.size := wf.size ▸ Rows.Linked.lt_size ha
  obtain ⟨family, listed, holds, _⟩ := familyIds_spec wf small
  exact ⟨family, listed, ne, holds a ha, holds b hb⟩

/-- Who is married at a turn was a parent at first, or was married to the vertex at an earlier turn. -/
theorem inside_of_marriedAt (wf : g.WellFormed) (small : j < g.arena.size) {a b : Nat} (h : MarriedAt g j a b) :
    a < g.arena.size ∧ (a ∈ g.parentRows.get j ∨ ∃ w < j, MarriedAt g w a j) := by
  obtain ⟨family, listed, _, ha, _⟩ := h
  obtain ⟨_, again, _, only⟩ := familyIds_spec wf small
  obtain rfl := Except.ok.inj (listed.symm.trans again)
  exact only a ha

theorem WellFormed.edgeIds_inside (wf : g.WellFormed) :
    ∀ e ∈ g.edgeIds.toList, e.1 < g.arena.size ∧ e.2 < g.arena.size := by
  intro e he
  have entry := (wf.listed e.1 e.2).1 he
  rw [← wf.size]
  exact ⟨wf.inside _ _ entry, Rows.Linked.lt_size entry⟩

theorem WellFormed.moralGraph (wf : g.WellFormed) {m : Graph K} (made : g.moralGraph = .ok m) : m.WellFormed := by
  obtain ⟨s, ran, made⟩ := bind_eq_ok.1 made
  obtain rfl := Except.ok.inj made
  exact (Graph.ofEdgeIds_wellFormed (wf.marry ran).1.edgeIds_inside).1

/-- The graph has the same vertices, and it joins what is beside each other in the directed graph and what is in
one family at its turn. -/
structure JoinsFamilies (g : Digraph K) (m : Graph K) : Prop where
  arena : m.arena = g.arena
  linked : ∀ i j, m.neighbourRows.Linked i j ↔
    g.parentRows.Beside i j ∨ ∃ v < g.arena.size, MarriedAt g v i j

theorem exists_moralGraph (wf : g.WellFormed) : ∃ m, g.moralGraph = .ok m ∧ g.JoinsFamilies m := by
  obtain ⟨s, ran, extended, married⟩ := marry_range_spec (g := g) wf.inside g.arena.size (Nat.le_of_eq wf.size.symm)
  obtain ⟨after, arena⟩ := wf.marry ran
  have inside := after.edgeIds_inside
  refine ⟨s.graph.toGraph, ?_, ?_, fun i j => ?_⟩
  · rw [moralGraph, moralize, Arena.ids, ran]
    rfl
  · rw [toGraph, Graph.ofEdgeIds_eq]
    exact arena
  · rw [toGraph, (Graph.ofEdgeIds_wellFormed inside).2, Touching, after.listed, after.listed]
    constructor
    · rintro (entry | entry)
      · rcases extended.only entry with old | both
        · exact .inl (.inl old)
        · exact .inr both
      · rcases extended.only entry with old | ⟨v, hv, both⟩
        · exact .inl (.inr old)
        · exact .inr ⟨v, hv, both.symm⟩
    · rintro (old | ⟨v, hv, both⟩)
      · exact extended.beside old
      · exact married v hv i j both

/-- Where every vertex comes after its parents, the families stay what they are until their turns. -/
theorem ParentsFirst.mem_of_marriedAt (wf : g.WellFormed) (first : g.ParentsFirst) (w : Nat)
    (hw : w < g.arena.size) : ∀ a b, MarriedAt g w a b → a ∈ g.parentRows.get w := by
  have before : ∀ {x w}, x ∈ g.parentRows.get w → x < w := fun {x w} hx => first (x, w) ((wf.listed x w).2 hx)
  induction w using Nat.strongRecOn with
  | _ w ih =>
    intro a b both
    rcases (inside_of_marriedAt wf hw both).2 with old | ⟨w', earlier, added⟩
    · exact old
    · -- at an earlier turn `w` would have to be a parent of what came before it
      have := before (ih w' earlier (Nat.lt_trans earlier hw) w a added.symm)
      omega

end Turns

section Arcs
variable {g : Digraph K} {u v : K}

theorem mem_vertices_of_mem_edges {e : K × K} (he : e ∈ g.edges) : e.1 ∈ g.vertices ∧ e.2 ∈ g.vertices := by
  obtain ⟨_, _, first, second⟩ := Arena.mem_edgesOf.1 he
  exact ⟨Arena.mem_keys_iff.2 ⟨_, first⟩, Arena.mem_keys_iff.2 ⟨_, second⟩⟩

/-- There is an edge from `u` to `v`. -/
def Arc (g : Digraph K) (u v : K) : Prop := (u, v) ∈ g.edges

theorem Arc.exists_ids (h : g.Arc u v) : ∃ i j, g.arena.key? i = some u ∧ g.arena.key? j = some v := by
  obtain ⟨e, _, hi, hj⟩ := Arena.mem_edgesOf.1 h
  exact ⟨e.1, e.2, hi, hj⟩

theorem Arc.mem_vertices (h : g.Arc u v) : u ∈ g.vertices := by
  obtain ⟨i, _, hi, _⟩ := h.exists_ids
  exact Arena.mem_keys_iff.2 ⟨i, hi⟩

/-- An edge joins the two, in one of the two directions, or they have a common child. -/
def Moral (g : Digraph K) (u v : K) : Prop := g.Arc u v ∨ g.Arc v u ∨ ∃ w, g.Arc u w ∧ g.Arc v w

theorem Moral.exists_ids (h : g.Moral u v) : ∃ i j, g.arena.key? i = some u ∧ g.arena.key? j = some v := by
  rcases h with forth | back | ⟨w, first, second⟩
  · exact forth.exists_ids
  · obtain ⟨j, i, hj, hi⟩ := back.exists_ids
    exact ⟨i, j, hi, hj⟩
  · obtain ⟨i, _, hi, _⟩ := first.exists_ids
    obtain ⟨j, _, hj, _⟩ := second.exists_ids
    exact ⟨i, j, hi, hj⟩

end Arcs

variable [VertexKey K]

/-- The directed graphs that callers build: from vertices and edges, by adding edges, and by marrying. -/
inductive Built : Digraph K → Prop where
  | ofEdges {vertices : List K} {edges : List (K × K)} {g : Digraph K}
    (made : Digraph.ofEdges vertices edges = .ok g) : Built g
  | addEdge {g g' : Digraph K} {u v : K} (built : Built g) (made : g.addEdge u v = .ok g') : Built g'
  | moralize {g : Digraph K} {s : Growth (Digraph K)} (built : Built g) (made : g.moralize = .ok s) : Built s.graph

theorem Built.wellFormed {g : Digraph K} (h : Built g) : g.WellFormed := by
  induction h with
  | ofEdges made =>
    obtain ⟨ids, ends, made⟩ := bind_eq_ok.1 made
    obtain rfl := Except.ok.inj made
    exact foldl_link_wellFormed ids (wellFormed_blank _) (Arena.edgeIds_inside ends)
  | addEdge _ made ih =>
    obtain ⟨e, ends, made⟩ := bind_eq_ok.1 made
    obtain rfl := Except.ok.inj made
    obtain ⟨hu, hv⟩ := Arena.edgeId_eq_ok_iff.1 ends
    exact ih.link (ih.size ▸ Arena.lt_size hu) (ih.size ▸ Arena.lt_size hv)
  | moralize _ made ih => exact (ih.marry made).1

section Ids
variable {g : Digraph K} {u v : K} {i j : Nat}

/-- The parents that a vertex lists when those of all vertices before it are married. -/
def familyAt (g : Digraph K) (v : K) : Except GraphError (List K) := do
  return g.arena.keysOf (← familyIds g (← g.arena.id v))

/-- All that a vertex lists as its parents at its turn are moral neighbours of each other. -/
def FamiliesMoral (g : Digraph K) : Prop :=
  ∀ v family, g.familyAt v = .ok family → ∀ a ∈ family, ∀ b ∈ family, a ≠ b → g.Moral a b

theorem arc_iff (wf : g.WellFormed) (hi : g.arena.key? i = some u) (hj : g.arena.key? j = some v) :
    g.Arc u v ↔ i ∈ g.parentRows.get j := by
  rw [Arc, edges, Arena.mem_edgesOf, ← wf.listed]
  constructor
  · rintro ⟨e, he, first, second⟩
    rwa [Arena.key?_inj hi first, Arena.key?_inj hj second]
  · exact fun he => ⟨_, he, hi, hj⟩

theorem moral_iff (wf : g.WellFormed) (hi : g.arena.key? i = some u) (hj : g.arena.key? j = some v) :
    g.Moral u v ↔ g.MoralIds i j := by
  rw [Moral, arc_iff wf hi hj, arc_iff wf hj hi, ← or_assoc]
  refine or_congr Iff.rfl ⟨?_, ?_⟩
  · rintro ⟨w, first, second⟩
    obtain ⟨_, k, _, hk⟩ := first.exists_ids
    exact ⟨k, (arc_iff wf hi hk).1 first, (arc_iff wf hj hk).1 second⟩
  · rintro ⟨k, first, second⟩
    have small : k < g.arena.size := wf.size ▸ Rows.Linked.lt_size first
    obtain ⟨w, hk⟩ := Arena.exists_key? small
    exact ⟨w, (arc_iff wf hi hk).2 first, (arc_iff wf hj hk).2 second⟩

/-- The condition on families in terms of ids. -/
theorem familiesMoral_iff (wf : g.WellFormed) :
    g.FamiliesMoral ↔ ∀ v < g.arena.size, ∀ a b, MarriedAt g v a b → g.MoralIds a b := by
  constructor
  · rintro moral v hv a b ⟨family, listed, ne, ha, hb⟩
    obtain ⟨k, hk⟩ := Arena.exists_key? hv
    have at_turn : g.familyAt k = .ok (g.arena.keysOf family) := by
      rw [familyAt, Arena.id_eq_ok_iff.2 hk]
      show (familyIds g v >>= fun family => pure (g.arena.keysOf family)) = _
      rw [listed]
      rfl
    have both : MarriedAt g v a b := ⟨family, listed, ne, ha, hb⟩
    obtain ⟨x, hx⟩ := Arena.exists_key? (inside_of_marriedAt wf hv both).1
    obtain ⟨y, hy⟩ := Arena.exists_key? (inside_of_marriedAt wf hv both.symm).1
    rw [← moral_iff wf hx hy]
    refine moral k _ at_turn x ((Arena.mem_keysOf_iff hx).2 ha) y ((Arena.mem_keysOf_iff hy).2 hb) ?_
    rintro rfl
    exact ne (Arena.key?_inj hx hy)
  · intro moral k keys at_turn x hx y hy ne
    obtain ⟨v, hv, at_turn⟩ := bind_eq_ok.1 at_turn
    obtain ⟨family, listed, at_turn⟩ := bind_eq_ok.1 at_turn
    obtain rfl := Except.ok.inj at_turn
    obtain ⟨a, ha, hx⟩ := Arena.mem_keysOf.1 hx
    obtain ⟨b, hb, hy⟩ := Arena.mem_keysOf.1 hy
    refine (moral_iff wf hx hy).2 (moral v (Arena.lt_size (Arena.id_eq_ok_iff.1 hv)) a b ⟨family, listed, ?_, ha, hb⟩)
    rintro rfl
    exact ne (Option.some.inj (hx.symm.trans hy))

theorem ParentsFirst.familiesMoral (wf : g.WellFormed) (first : g.ParentsFirst) : g.FamiliesMoral := by
  rw [familiesMoral_iff wf]
  intro v hv a b both
  exact .inr ⟨v, first.mem_of_marriedAt wf v hv a b both, first.mem_of_marriedAt wf v hv b a both.symm⟩

end Ids

namespace JoinsFamilies
variable {g : Digraph K} {m : Graph K} {u v : K}

theorem adjacent_iff (h : g.JoinsFamilies m) {i j : Nat} (hi : g.arena.key? i = some u) (hj : g.arena.key? j = some v) :
    m.Adjacent u v ↔ g.parentRows.Beside i j ∨ ∃ w < g.arena.size, MarriedAt g w i j := by
  rw [← h.arena] at hi hj
  exact (Graph.adjacent_iff hi hj).trans (h.linked i j)

/-- Moral neighbours are joined: who has a common child is in its family at its turn. -/
theorem adjacent_of_moral (h : g.JoinsFamilies m) (wf : g.WellFormed) (ne : u ≠ v) (moral : g.Moral u v) :
    m.Adjacent u v := by
  obtain ⟨i, j, hi, hj⟩ := moral.exists_ids
  have apart : i ≠ j := by
    rintro rfl
    exact ne (Option.some.inj (hi.symm.trans hj))
  refine (h.adjacent_iff hi hj).2 (((moral_iff wf hi hj).1 moral).imp_right ?_)
  rintro ⟨w, first, second⟩
  exact ⟨w, wf.size ▸ Rows.Linked.lt_size first, marriedAt_of_mem wf apart first second⟩

theorem moral_of_adjacent (h : g.JoinsFamilies m) (wf : g.WellFormed) (families : g.FamiliesMoral)
    (joined : m.Adjacent u v) : g.Moral u v := by
  obtain ⟨i, j, hi, hj, _⟩ := joined.exists_linked
  rw [h.arena] at hi hj
  rcases (h.adjacent_iff hi hj).1 joined with beside | ⟨w, hw, both⟩
  · exact (moral_iff wf hi hj).2 (.inl beside)
  · exact (moral_iff wf hi hj).2 ((familiesMoral_iff wf).1 families w hw i j both)

/-- What is in one family at its turn is joined, so an exact graph has moral families. -/
theorem familiesMoral (h : g.JoinsFamilies m) (wf : g.WellFormed)
    (only : ∀ u v, u ≠ v → m.Adjacent u v → g.Moral u v) : g.FamiliesMoral := by
  rw [familiesMoral_iff wf]
  intro w hw a b both
  obtain ⟨x, hx⟩ := Arena.exists_key? (inside_of_marriedAt wf hw both).1
  obtain ⟨y, hy⟩ := Arena.exists_key? (inside_of_marriedAt wf hw both.symm).1
  refine (moral_iff wf hx hy).1 (only x y ?_ ((h.adjacent_iff hx hy).2 (.inr ⟨w, hw, both⟩)))
  rintro rfl
  obtain ⟨_, _, ne, _⟩ := both
  exact ne (Arena.key?_inj hx hy)

end JoinsFamilies

/-- **Moral graphs.** Moralization never fails, keeps the vertices, and joins all moral neighbours. It joins
nothing else if and only if all that a vertex lists as its parents at its turn are moral neighbours of each
other, as they are when every vertex was inserted after its parents. -/
theorem moralGraph_exact_iff {g : Digraph K} (built : g.Built) : ∃ m, g.moralGraph = .ok m ∧
    m.vertices = g.vertices ∧ (∀ u v, u ≠ v → g.Moral u v → m.Adjacent u v) ∧
      ((∀ u v, u ≠ v → (m.Adjacent u v ↔ g.Moral u v)) ↔ g.FamiliesMoral) ∧
        (g.ParentsFirst → ∀ u v, u ≠ v → (m.Adjacent u v ↔ g.Moral u v)) := by
  have wf := built.wellFormed
  obtain ⟨m, made, joins⟩ := exists_moralGraph wf
  have exact_of : g.FamiliesMoral → ∀ u v, u ≠ v → (m.Adjacent u v ↔ g.Moral u v) := fun families u v ne =>
    ⟨joins.moral_of_adjacent wf families, joins.adjacent_of_moral wf ne⟩
  refine ⟨m, made, congrArg (·.keys.toList) joins.arena, fun u v => joins.adjacent_of_moral wf, ⟨fun same => ?_,
    exact_of⟩, fun first => exact_of (first.familiesMoral wf)⟩
  exact joins.familiesMoral wf fun u v ne => (same u v ne).1

/-- A child that is inserted first marries its parents before one of these has its turn, and the new parent is
then married to the old one. The graph has no cycle, and the moral graph joins two that are no moral
neighbours. -/
theorem moralGraph_joins_strangers : ∃ (g : Digraph Int64) (m : Graph Int64),
    Digraph.ofEdges [3, 2, 1, 4] [(1, 3), (2, 3), (4, 2)] = .ok g ∧ g.topologicalOrder = .ok [4, 1, 2, 3] ∧
      g.moralGraph = .ok m ∧ m.Adjacent 4 1 ∧ ¬ g.Moral 4 1 ∧ ¬ g.FamiliesMoral := by
  have ran : (do
      let g ← Digraph.ofEdges [3, 2, 1, 4] [((1 : Int64), 3), (2, 3), (4, 2)]
      let m ← g.moralGraph
      let joined ← m.hasEdge 4 1
      let order ← g.topologicalOrder
      return (joined, g.edges, order)) = .ok (true, [(1, 3), (2, 3), (4, 2)], [4, 1, 2, 3]) := by cbv
  obtain ⟨g, made, ran⟩ := bind_eq_ok.1 ran
  obtain ⟨m, moral, ran⟩ := bind_eq_ok.1 ran
  obtain ⟨joined, looked, ran⟩ := bind_eq_ok.1 ran
  obtain ⟨order, sorted, ran⟩ := bind_eq_ok.1 ran
  obtain ⟨rfl, shown⟩ := Prod.mk.inj (Except.ok.inj ran)
  obtain ⟨arcs, rfl⟩ := Prod.mk.inj shown
  have strangers : ¬ g.Moral 4 1 := by
    rw [Moral, Arc, Arc, arcs]
    rintro (forth | back | ⟨w, first, second⟩)
    · revert forth
      decide
    · revert back
      decide
    · rw [Arc, arcs] at first second
      have child : w = 2 := by simpa using first
      revert second
      rw [child]
      decide
  obtain ⟨_, again, _, _, families, _⟩ := moralGraph_exact_iff (.ofEdges made)
  obtain rfl := Except.ok.inj (moral.symm.trans again)
  refine ⟨g, m, made, sorted, moral, looked, strangers, fun all => ?_⟩
  exact strangers ((families.2 all 4 1 (by decide)).1 looked)

end Digraph
end CliqueTree
