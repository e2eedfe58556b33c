import CliqueTree.Proofs.Graph.States
import CliqueTree.Proofs.Table.Runs

/-!
# The dry run

Which edges a policy would fill in is tried on a copy of the neighbour lists, and the graph itself takes no part in it.
The two runs of the game link different structures, each in its own way, and look at the rows that they have changed so
far. Pair by pair they find the same rows, so they add the same links (`Growth.onRows_eliminate`), and the graph becomes
what it was with these links (`Growth.Taken`). Both ask the policy for the order before they change anything, and the
game does not fail, so a dry run tells what filling in then does (`triangulate_followsDryRun`).
-/

set_option autoImplicit false

namespace CliqueTree

namespace Growth
variable {G : Type} [NeighbourLinks G] {g : G} {s : Growth G}

/-- A structure has become what it was with the links that it has been given. -/
def Taken (g : G) (s : Growth G) : Prop := s.graph = s.added.toList.foldl (fun g e => NeighbourLinks.link g e.1 e.2) g

theorem Taken.fillPair (h : Taken g s) (p : Edge) : Taken g (s.fillPair p) := by
  by_cases settled : s.Settled p
  · rwa [fillPair_of_settled settled]
  · rw [fillPair_of_not_settled settled, Taken, Array.toList_push, List.foldl_append, ← h]
    rfl

theorem taken_eliminate (g : G) (order : List Nat) : Taken g (eliminate [] ⟨g, #[]⟩ order) :=
  eliminate_pairs_induction (P := Taken g) (fun _ p h => h.fillPair p) order rfl

end Growth

namespace Rows

/-- Writes `v` behind the row of `u`. -/
def listInPlace (u v : Nat) : InPlace Rows Unit := do
  let _ ← InPlace.ask fun r => checkId r.size u
  modify fun r => r.add u v

/-- Writes each of two ids behind the row of the other. -/
def linkInPlace (u v : Nat) : InPlace Rows Unit := do
  listInPlace u v
  listInPlace v u

variable {r : Rows}

theorem listInPlace_eq {u : Nat} (hu : u < r.size) (v : Nat) : listInPlace u v r = .ok () (r.add u v) := by
  rw [listInPlace, InPlace.ask_bind, checkId, if_pos hu]
  rfl

theorem linkInPlace_eq {u v : Nat} (hu : u < r.size) (hv : v < r.size) :
    linkInPlace u v r = .ok () (NeighbourLinks.link r u v) :=
  (InPlace.bind_ok (listInPlace_eq hu v)).trans (listInPlace_eq ((size_add r u v).symm ▸ hv) u)

/-- On symmetric rows the game in place runs to its end. -/
theorem eliminate_inPlace (symm : r.Symmetric) {order : List Nat} (inside : ∀ v ∈ order, v < r.size) :
    InPlace.eliminate linkInPlace [] order r = .ok () (Growth.eliminate [] ⟨r, #[]⟩ order).graph := by
  have fills : InPlace.Fills linkInPlace Symmetric :=
    { inside := fun _ symm _ _ entry => symm.lt_size entry
      writes := fun r u v symm hu hv => by
        have grown : Grown r (NeighbourLinks.link r u v) fun _ _ => True := .link symm hu hv trivial trivial
        exact ⟨linkInPlace_eq hu hv, grown.symm⟩ }
  exact (InPlace.eliminate_eq fills order [] (s := ⟨r, #[]⟩) symm inside).1

end Rows

namespace Graph
variable {K : Type} {g : Graph K} {p : OrderPolicy}

section Filled
variable {s : Growth (Graph K)} {order : List Nat} (wf : g.WellFormed) (state : g.elimination = none)
  (filled : g.triangulate p = .ok s)
include wf state filled

/-- The filled graph has the rows that the game leaves, and has been given the edges that the game adds. -/
theorem onRows_triangulate (resolved : g.resolve p = .ok order) :
    s.onRows = Growth.eliminate [] ⟨g.neighbourRows, #[]⟩ order := by
  rw [triangulate_eq wf state, resolved] at filled
  obtain rfl := Except.ok.inj filled
  exact (Growth.onRows_eliminate order ⟨g, #[]⟩).symm

/-- The links that the game adds stand behind the edges. -/
theorem edgeIds_triangulate : s.graph.edgeIds = g.edgeIds ++ s.added := by
  obtain ⟨order, resolved, _, _⟩ := triangulate_eq_ok wf filled
  rw [triangulate_eq wf state, resolved] at filled
  obtain rfl := Except.ok.inj filled
  have taken := Growth.taken_eliminate g order
  rw [Growth.Taken] at taken
  show (Growth.eliminate [] ⟨g, #[]⟩ order).graph.edgeIds = g.edgeIds ++ (Growth.eliminate [] ⟨g, #[]⟩ order).added
  rw [taken]
  exact congrArg Graph.edgeIds (foldl_link _ g)

end Filled

variable [VertexKey K]

theorem Built.consistent (built : g.Built) : g.Consistent := by
  induction built with
  | ofEdges made =>
    obtain ⟨ids, ends, made⟩ := bind_eq_ok.1 made
    obtain rfl := Except.ok.inj made
    exact .ofEdgeIds (Arena.edgeIds_inside ends)
  | addEdge _ made ih =>
    obtain ⟨_, i, j, hi, hj, rfl⟩ := addEdge_eq_ok made
    exact ih.link (Arena.lt_size hi) (Arena.lt_size hj)

theorem Consistent.perform_triangulate (h : g.Consistent) (p : OrderPolicy) :
    (Step.triangulate p).perform.Atomic g (return (← g.triangulate p).graph) :=
  Step.perform_atomic h (c := .triangulate p) trivial

/-- Filling in comes to what the dry run tells: it gives the graph as many links as the dry run lists edges, these
edges stand behind the old ones, and the neighbours are those of the copy on which the dry run plays. -/
structure FollowsDryRun (g : Graph K) (p : OrderPolicy) (listed : List (K × K)) (s : Growth (Graph K)) : Prop where
  count : s.added.size = listed.length
  vertices : s.graph.vertices = g.vertices
  edges : s.graph.edges = g.edges ++ listed
  performed : (Step.triangulate p).perform g = .ok () s.graph
  neighbours : ∃ order scratch, g.resolve p = .ok order ∧ fill g.neighbourRows order = .ok scratch ∧
    InPlace.eliminate Rows.linkInPlace [] order g.neighbourRows = .ok () scratch.graph ∧
      g.arena.edgesOf scratch.added = listed ∧ s.graph.neighbourRows = scratch.graph

theorem followsDryRun (consistent : g.Consistent) (state : g.elimination = none) {s : Growth (Graph K)}
    (filled : g.triangulate p = .ok s) {listed : List (K × K)} (dry : g.fillIn p = .ok listed) :
    FollowsDryRun g p listed s := by
  have wf := consistent.wellFormed
  obtain ⟨order, resolved, _, _⟩ := triangulate_eq_ok wf filled
  obtain ⟨after, grown⟩ := consistent.triangulate filled
  have ids := edgeIds_triangulate wf state filled
  have same := onRows_triangulate wf state filled resolved
  have rows : s.graph.neighbourRows = _ := congrArg Growth.graph same
  have added : s.onRows.added = _ := congrArg Growth.added same
  rw [wf.fillIn_eq, resolved] at dry
  obtain rfl : g.arena.edgesOf s.added = listed := added ▸ Except.ok.inj dry
  refine ⟨?_, congrArg (·.keys.toList) grown.arena, ?_, ?_, order, _, resolved,
    wf.fill_neighbourRows resolved, Rows.eliminate_inPlace wf.symm (wf.inside_of_resolve resolved),
    congrArg _ added.symm, rows⟩
  · refine (Arena.length_edgesOf fun e he => ?_).symm
    rw [← grown.arena]
    refine after.inside e ?_
    rw [ids, Array.toList_append]
    exact List.mem_append_right _ he
  · rw [Graph.edges, Graph.edges, grown.arena, ids, Arena.edgesOf_append]
  · exact (consistent.perform_triangulate p).eq_ok_iff.2 (bind_eq_ok.2 ⟨s, filled, rfl⟩)

/-- **Dry run.** A dry run on an open graph and filling it in fail alike; where they do not fail, filling in comes to
what the dry run tells. -/
theorem triangulate_followsDryRun (built : g.Built) (p : OrderPolicy) :
    (∀ e, g.fillIn p = .error e ↔ g.triangulate p = .error e) ∧
      (∀ e, g.triangulate p = .error e → (Step.triangulate p).perform g = .error e g) ∧
        ∀ listed, g.fillIn p = .ok listed → ∃ s, g.triangulate p = .ok s ∧ FollowsDryRun g p listed s := by
  obtain ⟨wf, state⟩ := built.wellFormed
  refine ⟨fun e => ?_, fun e failed => ?_, fun listed dry => ?_⟩
  · rw [wf.fillIn_eq, triangulate_eq wf state, bind_eq_error, bind_eq_error]
    simp [pure, Except.pure]
  · exact (built.consistent.perform_triangulate p).eq_error_iff.2 ⟨bind_eq_error.2 (.inl failed), rfl⟩
  · obtain ⟨s, filled⟩ : ∃ s, g.triangulate p = .ok s := by
      rw [wf.fillIn_eq] at dry
      obtain ⟨order, resolved, _⟩ := bind_eq_ok.1 dry
      rw [triangulate_eq wf state, resolved]
      exact ⟨_, rfl⟩
    exact ⟨s, filled, followsDryRun built.consistent state filled dry⟩

/-- A ring of five vertices with a repeated edge and a loop, beside a single vertex, is filled in by two edges as the
dry run lists them. A policy that wants it connected fails in both. -/
theorem ring_followsDryRun : ∃ (g : Graph Char) (listed : List (Char × Char)),
    Graph.ofEdges ['a', 'b', 'c', 'd', 'e', 'x'] [('a', 'd'), ('d', 'b'), ('d', 'b'), ('b', 'e'), ('e', 'c'), ('c', 'a'),
      ('b', 'b')] = .ok g ∧ g.fillIn .standard = .ok listed ∧ listed = [('d', 'c'), ('b', 'c')] ∧
        g.fillIn .strict = .error (.disconnected 5 6) ∧ ∀ p,
          (∀ e, g.fillIn p = .error e ↔ g.triangulate p = .error e) ∧
            (∀ e, g.triangulate p = .error e → (Step.triangulate p).perform g = .error e g) ∧
              ∀ listed, g.fillIn p = .ok listed → ∃ s, g.triangulate p = .ok s ∧ FollowsDryRun g p listed s := by
  have ran : (do
      let g ← Graph.ofEdges ['a', 'b', 'c', 'd', 'e', 'x'] [('a', 'd'), ('d', 'b'), ('d', 'b'), ('b', 'e'), ('e', 'c'),
        ('c', 'a'), ('b', 'b')]
      let listed ← g.fillIn .standard
      return (listed, g.fillIn .strict)) = .ok ([('d', 'c'), ('b', 'c')], .error (.disconnected 5 6)) := by
    decide +kernel
  obtain ⟨g, made, ran⟩ := bind_eq_ok.1 ran
  obtain ⟨listed, dry, ran⟩ := bind_eq_ok.1 ran
  obtain ⟨same, failed⟩ := Prod.mk.inj (Except.ok.inj ran)
  exact ⟨g, listed, made, dry, same, failed, triangulate_followsDryRun (.ofEdges made)⟩

end Graph
end CliqueTree
