import CliqueTree.Proofs.Graph.Triangulation
import CliqueTree.Proofs.Table.EdgeLists
import CliqueTree.Proofs.Table.InPlace

/-!
# The states of a graph

A graph comes about by steps: edges are added by key, it is triangulated, and who knows the ids can link two of them
or play the elimination game in any order. Whatever the steps are, the rows stay what the list of edges gives and the
order of elimination lists every vertex (`Consistent`), so all that callers see of a graph is told by its edges
(`Faithful`). Edges are only appended, and a triangulated graph stays one (`Extends`). What a step is refused for is
told by the state before it (`Refused`): a key is unknown, the graph is triangulated, or the policy has no order for
it. Links and games between ids of the graph are never refused. The steps write in place, entry by entry
(`Step.perform`); a refused step leaves the graph as it was because every refusal comes before the first write.
-/

set_option autoImplicit false

namespace CliqueTree
namespace Graph
variable {K : Type} {g t : Graph K}

/-- Writes `v` behind the neighbours of `u`. -/
def listInPlace (u v : Nat) : InPlace (Graph K) Unit := do
  let _ ← InPlace.ask fun g => Rows.checkId g.neighbourRows.size u
  modify fun g => { g with neighbourRows := g.neighbourRows.add u v }

/-- Writes each of two ids behind the neighbours of the other, then their edge. -/
def linkInPlace (u v : Nat) : InPlace (Graph K) Unit := do
  listInPlace u v
  listInPlace v u
  modify fun g => { g with edgeIds := g.edgeIds.push (u, v) }

theorem listInPlace_eq {u : Nat} (hu : u < g.neighbourRows.size) (v : Nat) :
    listInPlace u v g = .ok () { g with neighbourRows := g.neighbourRows.add u v } := by
  rw [listInPlace, InPlace.ask_bind, Rows.checkId, if_pos hu]
  rfl

theorem linkInPlace_eq {u v : Nat} (hu : u < g.neighbourRows.size) (hv : v < g.neighbourRows.size) :
    linkInPlace u v g = .ok () (g.link u v) := by
  have there := listInPlace_eq (g := { g with neighbourRows := g.neighbourRows.add u v })
    ((Rows.size_add g.neighbourRows u v).symm ▸ hv) u
  exact (InPlace.bind_ok (listInPlace_eq hu v)).trans (InPlace.bind_ok there)

/-- Refuses a graph that is triangulated. -/
def refuseTriangulated : InPlace (Graph K) Unit :=
  InPlace.ask fun g => if g.triangulated then throw .alreadyTriangulated else return

theorem refuseTriangulated_bind (k : Unit → InPlace (Graph K) Unit) :
    (refuseTriangulated >>= k) g = if g.triangulated then .error .alreadyTriangulated g else k () g := by
  rw [refuseTriangulated, InPlace.ask_bind]
  cases g.triangulated <;> rfl

/-- The rows are those of the edges, the edges join vertices, and an order of elimination lists every vertex once. -/
structure Consistent (g : Graph K) : Prop where
  rows : g.neighbourRows = adjacencyOf g.arena.size g.edgeIds.toList
  inside : ∀ e ∈ g.edgeIds.toList, e.1 < g.arena.size ∧ e.2 < g.arena.size
  order : ∀ order, g.elimination = some order → order.Perm g.arena.ids

/-- The vertices are the same, edges were only appended, and an order of elimination was kept. -/
structure Extends (g t : Graph K) : Prop where
  arena : t.arena = g.arena
  edges : g.edgeIds.toList <+: t.edgeIds.toList
  elimination : ∀ order, g.elimination = some order → t.elimination = some order

namespace Extends

theorem refl (g : Graph K) : g.Extends g := ⟨rfl, List.prefix_rfl, fun _ => id⟩

theorem trans {s : Graph K} (h : g.Extends s) (h' : s.Extends t) : g.Extends t :=
  ⟨h'.arena.trans h.arena, h.edges.trans h'.edges, fun order state => h'.elimination order (h.elimination order state)⟩

theorem link (g : Graph K) (u v : Nat) : g.Extends (g.link u v) where
  arena := rfl
  edges := by
    rw [Graph.link, Array.toList_push]
    exact List.prefix_append g.edgeIds.toList [(u, v)]
  elimination _ := id

/-- The edges between keys were only appended, too. -/
theorem edges_prefix (h : g.Extends t) : g.edges <+: t.edges := by
  rw [Graph.edges, Graph.edges, h.arena]
  exact h.edges.filterMap _

theorem triangulated (h : g.Extends t) (state : g.triangulated = true) : t.triangulated = true := by
  obtain ⟨order, recorded⟩ := Option.isSome_iff_exists.1 state
  rw [Graph.triangulated, h.elimination order recorded]
  rfl

end Extends

namespace Consistent

theorem size (h : g.Consistent) : g.neighbourRows.size = g.arena.size := by
  rw [h.rows]
  exact (Rows.linked_foldl_link_blank h.inside).1

theorem get_eq (h : g.Consistent) (w : Nat) : g.neighbourRows.get w = incidences g.edgeIds.toList w := by
  rw [h.rows, Rows.get_adjacencyOf h.inside]

theorem wellFormed (h : g.Consistent) : g.WellFormed where
  size := h.size
  symm := by
    rw [h.rows]
    exact (Rows.linked_foldl_link_blank h.inside).2.1

theorem eliminationIds_perm (h : g.Consistent) (state : g.triangulated = true) :
    g.eliminationIds.Perm g.arena.ids := by
  obtain ⟨order, recorded⟩ := Option.isSome_iff_exists.1 state
  rw [eliminationIds, recorded]
  exact h.order order recorded

theorem rows_inside (h : g.Consistent) : g.neighbourRows.Inside := fun _ _ entry => h.wellFormed.symm.lt_size entry

theorem link (h : g.Consistent) {u v : Nat} (hu : u < g.arena.size) (hv : v < g.arena.size) :
    (g.link u v).Consistent where
  rows := by
    rw [Graph.link, Array.toList_push, Rows.adjacencyOf_concat, ← h.rows]
    rfl
  inside e he := by
    rw [Graph.link, Array.toList_push] at he
    rcases List.mem_append.1 he with old | new
    · exact h.inside e old
    · rw [List.mem_singleton.1 new]
      exact ⟨hu, hv⟩
  order := h.order

theorem ofEdgeIds {arena : Arena K} {es : List Edge} (inside : ∀ e ∈ es, e.1 < arena.size ∧ e.2 < arena.size) :
    (ofEdgeIds arena es).Consistent := by
  rw [ofEdgeIds_eq]
  exact ⟨rfl, inside, fun order state => nomatch state⟩

/-- The game in place runs to its end, and links vertices. -/
theorem eliminate (h : g.Consistent) {order : List Nat} (inside : ∀ v ∈ order, v < g.arena.size) :
    InPlace.eliminate linkInPlace [] order g = .ok () (Growth.eliminate [] ⟨g, #[]⟩ order).graph ∧
      (Growth.eliminate [] ⟨g, #[]⟩ order).graph.Consistent ∧
        g.Extends (Growth.eliminate [] ⟨g, #[]⟩ order).graph := by
  have fills : InPlace.Fills linkInPlace fun t : Graph K => t.Consistent ∧ g.Extends t :=
    { inside := fun t ht => ht.1.rows_inside
      writes := fun t u v ht hu hv => by
        have size : (NeighbourLinks.neighbours t).size = t.arena.size := ht.1.size
        exact ⟨linkInPlace_eq hu hv, ht.1.link (size ▸ hu) (size ▸ hv), ht.2.trans (.link t u v)⟩ }
  exact InPlace.eliminate_eq fills order [] (s := ⟨g, #[]⟩) ⟨h, .refl g⟩ fun v hv => h.size.symm ▸ inside v hv

theorem fill_eq (h : g.Consistent) {order : List Nat} (inside : ∀ v ∈ order, v < g.arena.size) :
    fill g order = .ok (Growth.eliminate [] ⟨g, #[]⟩ order) :=
  CliqueTree.fill_eq h.wellFormed.symm fun v hv => h.size.symm ▸ inside v hv

theorem checkedLink_eq (h : g.Consistent) {u v : Nat} (hu : u < g.arena.size) (hv : v < g.arena.size) :
    NeighbourLinks.checkedLink g u v = .ok (g.link u v) :=
  NeighbourLinks.checkedLink_eq (lt_of_lt_of_eq hu h.size.symm) (lt_of_lt_of_eq hv h.size.symm)

/-- Filling in records the order of the policy beside the links of the game. -/
theorem triangulate (h : g.Consistent) {p : OrderPolicy} {s : Growth (Graph K)} (filled : g.triangulate p = .ok s) :
    s.graph.Consistent ∧ g.Extends s.graph := by
  obtain ⟨order, _, perm, made⟩ := triangulate_eq_ok h.wellFormed filled
  obtain ⟨_, after, grown⟩ := h.eliminate fun v hv => List.mem_range.1 (perm.mem_iff.1 hv)
  have opened : ∀ order, g.elimination ≠ some order := by
    intro order state
    simp only [Graph.triangulate, triangulated, state] at filled
    cases filled
  rw [made]
  refine ⟨⟨after.rows, after.inside, fun recorded same => ?_⟩, grown.arena, grown.edges, fun order state => ?_⟩
  · obtain rfl := Option.some.inj same
    exact grown.arena.symm ▸ perm
  · exact absurd state (opened order)

end Consistent

section Steps
variable [VertexKey K]

/-- The ways to change a graph. -/
inductive Step (K : Type) where
  | addEdge (u v : K)
  | triangulate (p : OrderPolicy)
  | link (u v : Nat)
  | fill (order : List Nat)

/-- The ids that a step names are below `n`. -/
def Step.Inside (n : Nat) : Step K → Prop
  | .addEdge _ _ => True
  | .triangulate _ => True
  | .link u v => u < n ∧ v < n
  | .fill order => ∀ v ∈ order, v < n

instance (n : Nat) : (c : Step K) → Decidable (c.Inside n)
  | .addEdge _ _ => inferInstanceAs (Decidable True)
  | .triangulate _ => inferInstanceAs (Decidable True)
  | .link u v => inferInstanceAs (Decidable (u < n ∧ v < n))
  | .fill order => inferInstanceAs (Decidable (∀ v ∈ order, v < n))

/-- What a step makes of a graph. -/
def Step.run (g : Graph K) : Step K → Except GraphError (Graph K)
  | .addEdge u v => g.addEdge u v
  | .triangulate p => return (← g.triangulate p).graph
  | .link u v => NeighbourLinks.checkedLink g u v
  | .fill order => return (← CliqueTree.fill g order).graph

/-- A step in place: every write stands where it is made, and stays when the step fails later. -/
def Step.perform : Step K → InPlace (Graph K) Unit
  | .addEdge u v => do
    let (u, v) ← InPlace.ask (·.arena.edgeId (u, v))
    refuseTriangulated
    linkInPlace u v
  | .triangulate p => do
    refuseTriangulated
    let order ← InPlace.ask (·.resolve p)
    InPlace.eliminate linkInPlace [] order
    modify fun g => { g with elimination := some order }
  | .link u v => linkInPlace u v
  | .fill order => InPlace.eliminate linkInPlace [] order

/-- The graph that a step leaves, also when it fails. -/
def Step.after (g : Graph K) (c : Step K) : Graph K := c.perform.left g

/-- Why a graph refuses a step. -/
inductive Refused (g : Graph K) : Step K → GraphError → Prop where
  | first {u v : K} (unknown : u ∉ g.vertices) : Refused g (.addEdge u v) (.unknownVertex (describe u))
  | second {u v : K} (known : u ∈ g.vertices) (unknown : v ∉ g.vertices) :
    Refused g (.addEdge u v) (.unknownVertex (describe v))
  | closed {u v : K} (first : u ∈ g.vertices) (second : v ∈ g.vertices) (state : g.triangulated = true) :
    Refused g (.addEdge u v) .alreadyTriangulated
  | again {p : OrderPolicy} (state : g.triangulated = true) : Refused g (.triangulate p) .alreadyTriangulated
  | unordered {p : OrderPolicy} {e : GraphError} (state : g.triangulated = false) (failed : g.resolve p = .error e) :
    Refused g (.triangulate p) e

theorem addEdge_eq_error_iff {u v : K} {e : GraphError} : g.addEdge u v = .error e ↔ g.Refused (.addEdge u v) e := by
  rw [addEdge, bind_eq_error, Arena.edgeId_eq_error_iff]
  constructor
  · rintro ((⟨unknown, rfl⟩ | ⟨known, unknown, rfl⟩) | ⟨ids, ends, sealed⟩)
    · exact .first unknown
    · exact .second known unknown
    · obtain ⟨hu, hv⟩ := Arena.edgeId_eq_ok_iff.1 ends
      cases state : g.triangulated with
      | false =>
        rw [state] at sealed
        cases sealed
      | true =>
        rw [state] at sealed
        obtain rfl := Except.error.inj sealed
        exact .closed (Arena.mem_keys_iff.2 ⟨_, hu⟩) (Arena.mem_keys_iff.2 ⟨_, hv⟩) state
  · rintro (unknown | ⟨known, unknown⟩ | ⟨first, second, state⟩)
    · exact .inl (.inl ⟨unknown, rfl⟩)
    · exact .inl (.inr ⟨known, unknown, rfl⟩)
    · obtain ⟨i, hi⟩ := Arena.mem_keys_iff.1 first
      obtain ⟨j, hj⟩ := Arena.mem_keys_iff.1 second
      refine .inr ⟨(i, j), Arena.edgeId_eq_ok_iff.2 ⟨hi, hj⟩, ?_⟩
      rw [state]
      rfl

/-- The game itself never fails, so an open graph is refused only when the policy has no order for it. -/
theorem triangulate_eq_error_iff (wf : g.WellFormed) {p : OrderPolicy} {e : GraphError} :
    g.triangulate p = .error e ↔ g.Refused (.triangulate p) e := by
  cases state : g.elimination with
  | some order =>
    have done : g.triangulated = true := by rw [triangulated, state, Option.isSome_some]
    rw [triangulate, done]
    constructor
    · intro sealed
      obtain rfl := Except.error.inj sealed
      exact .again done
    · intro refused
      cases refused with
      | again => rfl
      | unordered opened => exact absurd (done.symm.trans opened) (by decide)
  | none =>
    have opened : g.triangulated = false := by rw [triangulated, state, Option.isSome_none]
    rw [triangulate_eq wf state, bind_eq_error]
    constructor
    · rintro (failed | ⟨order, _, played⟩)
      · exact .unordered opened failed
      · cases played
    · intro refused
      cases refused with
      | again done => exact absurd (done.symm.trans opened) (by decide)
      | unordered _ failed => exact .inl failed

/-- A step between ids of the graph is refused just for these reasons. -/
theorem Step.run_eq_error_iff (h : g.Consistent) {c : Step K} (inside : c.Inside g.arena.size) {e : GraphError} :
    c.run g = .error e ↔ g.Refused c e := by
  cases c with
  | addEdge u v => exact addEdge_eq_error_iff
  | triangulate p =>
    rw [← triangulate_eq_error_iff h.wellFormed, run, bind_eq_error]
    simp [pure, Except.pure]
  | link u v =>
    rw [run, h.checkedLink_eq inside.1 inside.2]
    exact ⟨(nomatch ·), (nomatch ·)⟩
  | fill order =>
    rw [run, h.fill_eq inside]
    exact ⟨(nomatch ·), (nomatch ·)⟩

/-- A step keeps the graph consistent and only adds to it. -/
theorem Step.run_spec (h : g.Consistent) {c : Step K} (inside : c.Inside g.arena.size) (ran : c.run g = .ok t) :
    t.Consistent ∧ g.Extends t := by
  cases c with
  | addEdge u v =>
    obtain ⟨_, i, j, hi, hj, rfl⟩ := addEdge_eq_ok ran
    exact ⟨h.link (Arena.lt_size hi) (Arena.lt_size hj), .link g i j⟩
  | triangulate p =>
    obtain ⟨s, filled, same⟩ := bind_eq_ok.1 ran
    obtain rfl := Except.ok.inj same
    exact h.triangulate filled
  | link u v =>
    rw [run, h.checkedLink_eq inside.1 inside.2] at ran
    obtain rfl := Except.ok.inj ran
    exact ⟨h.link inside.1 inside.2, .link g u v⟩
  | fill order =>
    rw [run, h.fill_eq inside] at ran
    obtain rfl := Except.ok.inj ran
    exact (h.eliminate inside).2

/-- In place a step comes to the same, and one that fails has written nothing. -/
theorem Step.perform_atomic (h : g.Consistent) {c : Step K} (inside : c.Inside g.arena.size) :
    c.perform.Atomic g (c.run g) := by
  unfold InPlace.Atomic
  cases c with
  | addEdge u v =>
    rw [perform, InPlace.ask_bind, run, Graph.addEdge]
    cases ends : g.arena.edgeId (u, v) with
    | error e => rfl
    | ok ids =>
      obtain ⟨hi, hj⟩ := Arena.edgeId_eq_ok_iff.1 ends
      have linked := linkInPlace_eq (h.size.symm ▸ Arena.lt_size hi) (h.size.symm ▸ Arena.lt_size hj)
      refine (refuseTriangulated_bind _).trans ?_
      cases state : g.triangulated with
      | true => rfl
      | false => exact linked
  | triangulate p =>
    rw [perform, refuseTriangulated_bind, InPlace.ask_bind, run]
    cases state : g.elimination with
    | some order =>
      have done : g.triangulated = true := by rw [triangulated, state, Option.isSome_some]
      rw [Graph.triangulate, done]
      rfl
    | none =>
      have opened : g.triangulated = false := by rw [triangulated, state, Option.isSome_none]
      rw [triangulate_eq h.wellFormed state, opened]
      cases resolved : g.resolve p with
      | error e => rfl
      | ok order =>
        have perm := h.wellFormed.resolve_perm resolved
        obtain ⟨played, _⟩ := h.eliminate fun v hv => List.mem_range.1 (perm.mem_iff.1 hv)
        exact InPlace.bind_ok played
  | link u v =>
    rw [run, h.checkedLink_eq inside.1 inside.2]
    exact linkInPlace_eq (h.size.symm ▸ inside.1) (h.size.symm ▸ inside.2)
  | fill order =>
    rw [run, h.fill_eq inside]
    exact (h.eliminate inside).1

theorem Step.after_spec (h : g.Consistent) {c : Step K} (inside : c.Inside g.arena.size) :
    (c.after g).Consistent ∧ g.Extends (c.after g) :=
  (perform_atomic h inside).left_induction (P := fun t => t.Consistent ∧ g.Extends t) ⟨h, .refl g⟩
    fun _ => run_spec h inside

/-- Every run of steps between ids of the graph does so, too. -/
theorem foldl_after_spec (h : g.Consistent) (steps : List (Step K)) (inside : ∀ c ∈ steps, c.Inside g.arena.size) :
    (steps.foldl Step.after g).Consistent ∧ g.Extends (steps.foldl Step.after g) := by
  induction steps generalizing g with
  | nil => exact ⟨h, .refl g⟩
  | cons c steps ih =>
    obtain ⟨first, inside⟩ := List.forall_mem_cons.1 inside
    obtain ⟨next, grown⟩ := Step.after_spec h first
    obtain ⟨last, more⟩ := ih next (grown.arena.symm ▸ inside)
    exact ⟨last, grown.trans more⟩

/-- What callers see of a graph is told by its edges. -/
structure Faithful (g : Graph K) : Prop where
  /-- The neighbours of a vertex are the other ends of the edges at it, in the order of the edges. -/
  neighbours : ∀ w ∈ g.vertices, g.neighbours w = .ok (incidences g.edges w)
  hasEdge : ∀ u ∈ g.vertices, ∀ v ∈ g.vertices, g.hasEdge u v = .ok (decide (v ∈ incidences g.edges u))
  hasEdge_symm : ∀ u ∈ g.vertices, ∀ v ∈ g.vertices, g.hasEdge u v = g.hasEdge v u
  /-- Each edge is counted at both of its ends. -/
  counted : ∀ u ∈ g.vertices, ∀ v ∈ g.vertices, ∀ us vs, g.neighbours u = .ok us → g.neighbours v = .ok vs →
    us.count v = vs.count u ∧ us.count v = g.edges.count (u, v) + g.edges.count (v, u)
  edgeIds : ∀ e ∈ g.edgeIds.toList, e.1 < g.vertexCount ∧ e.2 < g.vertexCount
  rows : g.neighbourRows.size = g.vertexCount ∧ ∀ w, ∀ x ∈ g.neighbourRows.get w, x < g.vertexCount
  ordered : ∀ i ∈ g.eliminationIds, i < g.vertexCount
  /-- By the type of the order. Of a list beside a flag it holds since each step writes both
  (`FlaggedGraph.after_steps`). -/
  opened : g.triangulated = false → g.eliminationIds = []
  closed : g.triangulated = true → g.eliminationIds.Perm g.arena.ids

namespace Consistent

theorem neighbours_eq (h : g.Consistent) {w : K} (hw : w ∈ g.vertices) :
    g.neighbours w = .ok (incidences g.edges w) := by
  obtain ⟨i, hi⟩ := Arena.mem_keys_iff.1 hw
  rw [neighbours, Arena.id_eq_ok_iff.2 hi]
  show Except.ok (g.arena.keysOf (g.neighbourRows.get i)) = _
  rw [h.get_eq, Arena.keysOf_incidences h.inside hi]
  rfl

theorem hasEdge_eq (h : g.Consistent) {u v : K} (hu : u ∈ g.vertices) (hv : v ∈ g.vertices) :
    g.hasEdge u v = .ok (decide (v ∈ incidences g.edges u)) := by
  obtain ⟨i, hi⟩ := Arena.mem_keys_iff.1 hu
  obtain ⟨j, hj⟩ := Arena.mem_keys_iff.1 hv
  rw [Graph.hasEdge_eq hi hj, h.get_eq]
  simp only [← Arena.mem_keysOf_iff hj, Arena.keysOf_incidences h.inside hi]
  rfl

/-- The rows link the ids of what the edges touch. -/
theorem linked_iff (h : g.Consistent) {i j : Nat} {u v : K} (hi : g.arena.key? i = some u)
    (hj : g.arena.key? j = some v) : g.neighbourRows.Linked i j ↔ Touching g.edges u v := by
  rw [Rows.Linked, h.get_eq, ← Arena.mem_keysOf_iff hj, Arena.keysOf_incidences h.inside hi]
  exact mem_incidences g.edges u v

theorem faithful (h : g.Consistent) : g.Faithful where
  neighbours _ := h.neighbours_eq
  hasEdge _ hu _ hv := h.hasEdge_eq hu hv
  hasEdge_symm u hu v hv := by
    rw [h.hasEdge_eq hu hv, h.hasEdge_eq hv hu]
    simp only [mem_incidences, Touching, or_comm]
  counted u hu v hv us vs listed listed' := by
    rw [h.neighbours_eq hu] at listed
    rw [h.neighbours_eq hv] at listed'
    obtain rfl := Except.ok.inj listed
    obtain rfl := Except.ok.inj listed'
    rw [count_incidences, count_incidences, Nat.add_comm]
    exact ⟨rfl, rfl⟩
  edgeIds := h.inside
  rows := ⟨h.size, fun w x entry => lt_of_lt_of_eq (h.rows_inside w x entry) h.size⟩
  ordered i hi := by
    cases state : g.elimination with
    | none => simp [eliminationIds, state] at hi
    | some order =>
      rw [eliminationIds, state] at hi
      exact List.mem_range.1 ((h.order order state).mem_iff.1 hi)
  opened state := by
    rw [eliminationIds, Option.isNone_iff_eq_none.1 (Option.isSome_eq_false_iff.1 state)]
    rfl
  closed := h.eliminationIds_perm

end Consistent

/-- **States.** In every state that steps between its own ids lead a graph to, its neighbours are those of its edges,
its ids are below the number of vertices, and its order of elimination is empty or, once it is triangulated, lists
every vertex once. Further steps only append edges and leave it triangulated. A step is refused just for the reasons
that the state gives, and then it has written nothing. -/
theorem neighbours_after_steps {vertices : List K} {edges : List (K × K)} (made : Graph.ofEdges vertices edges = .ok g)
    (steps later : List (Step K)) (inside : ∀ c ∈ steps ++ later, c.Inside g.vertexCount) :
    let s := steps.foldl Step.after g
    let t := later.foldl Step.after s
    s.Faithful ∧ s.vertices = g.vertices ∧ s.Extends t ∧ s.edges <+: t.edges ∧
      (s.triangulated = true → t.triangulated = true) ∧ ∀ c : Step K, c.Inside s.vertexCount →
        ∀ r, (c.perform s = .ok () r ↔ c.run s = .ok r) ∧ ∀ e, c.perform s = .error e r ↔ s.Refused c e ∧ r = s := by
  obtain ⟨ids, ends, made⟩ := bind_eq_ok.1 made
  obtain rfl := Except.ok.inj made
  obtain ⟨first, second⟩ := List.forall_mem_append.1 inside
  obtain ⟨consistent, grown⟩ := foldl_after_spec (.ofEdgeIds (Arena.edgeIds_inside ends)) steps first
  obtain ⟨_, more⟩ := foldl_after_spec consistent later fun c hc => grown.arena.symm ▸ second c hc
  refine ⟨consistent.faithful, congrArg (·.keys.toList) grown.arena, more, more.edges_prefix, more.triangulated,
    fun c small r => ⟨(Step.perform_atomic consistent small).eq_ok_iff, fun e => ?_⟩⟩
  rw [(Step.perform_atomic consistent small).eq_error_iff, Step.run_eq_error_iff consistent small]

/-- A graph with a loop and a repeated edge refuses an edge to an unknown key and a policy that wants it connected. It
takes another edge, a link from a vertex to itself and a game that plays one vertex twice; once it is triangulated it
refuses an edge and takes a link and a game. -/
theorem loops_neighbours_after_steps : ∃ g : Graph Char,
    Graph.ofEdges ['a', 'b', 'c', 'd'] [('a', 'b'), ('b', 'b'), ('a', 'b')] = .ok g ∧
      let s := [Step.addEdge 'b' 'x', .triangulate .strict, .addEdge 'b' 'c', .link 2 2, .fill [1, 1]].foldl Step.after g
      let t := [Step.triangulate .standard, .addEdge 'a' 'd', .link 3 0, .fill [0, 3]].foldl Step.after s
      s.edges = [('a', 'b'), ('b', 'b'), ('a', 'b'), ('b', 'c'), ('c', 'c'), ('a', 'c')] ∧
        t.edges = s.edges ++ [('d', 'a'), ('b', 'd'), ('c', 'd')] ∧
          s.Faithful ∧ s.vertices = g.vertices ∧ s.Extends t ∧ s.edges <+: t.edges ∧
            (s.triangulated = true → t.triangulated = true) ∧ ∀ c : Step Char, c.Inside s.vertexCount →
              ∀ r, (c.perform s = .ok () r ↔ c.run s = .ok r) ∧
                ∀ e, c.perform s = .error e r ↔ s.Refused c e ∧ r = s := by
  have ran : (do
      let g ← Graph.ofEdges ['a', 'b', 'c', 'd'] [('a', 'b'), ('b', 'b'), ('a', 'b')]
      let s := [Step.addEdge 'b' 'x', .triangulate .strict, .addEdge 'b' 'c', .link 2 2, .fill [1, 1]].foldl Step.after g
      let t := [Step.triangulate .standard, .addEdge 'a' 'd', .link 3 0, .fill [0, 3]].foldl Step.after s
      return (g.vertexCount, s.edges, t.edges)) = .ok (4,
        [('a', 'b'), ('b', 'b'), ('a', 'b'), ('b', 'c'), ('c', 'c'), ('a', 'c')],
        [('a', 'b'), ('b', 'b'), ('a', 'b'), ('b', 'c'), ('c', 'c'), ('a', 'c'), ('d', 'a'), ('b', 'd'), ('c', 'd')]) := by
    decide +kernel
  obtain ⟨g, made, ran⟩ := bind_eq_ok.1 ran
  obtain ⟨count, lists⟩ := Prod.mk.inj (Except.ok.inj ran)
  obtain ⟨first, second⟩ := Prod.mk.inj lists
  refine ⟨g, made, first, ?_, neighbours_after_steps made _ _ ?_⟩
  · rw [first]
    exact second
  · rw [count]
    decide

end Steps
end Graph
end CliqueTree
