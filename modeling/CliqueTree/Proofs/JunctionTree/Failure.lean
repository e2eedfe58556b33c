import CliqueTree.Proofs.JunctionTree.Checked
import CliqueTree.Proofs.Table.Cover

/-!
# When there is no junction tree

A directed graph has a junction tree under every policy but one that orders anew and wants the graph in one part.
Under such a policy it has none when it is not connected, and the error tells how many vertices are connected with the
first one (`Digraph.junctionTree_eq_error_iff`). The order is asked for twice, of the moral graph and of the graph
filled in, and both times the answer is told by the edges of the directed graph: neither marrying nor filling in joins
what they leave apart.
-/

set_option autoImplicit false

namespace CliqueTree
open Relation (ReflTransGen)

namespace Digraph
variable {K : Type} {g : Digraph K} {first : K} {rest : List K}

/-- A way along the edges, in whichever direction, leads from every vertex to every other. -/
def WeaklyConnected (g : Digraph K) : Prop := ∀ u ∈ g.vertices, ∀ v ∈ g.vertices, Joined g.edges u v

/-- It is enough that ways lead from one vertex to all. -/
theorem weaklyConnected_iff (hu : first ∈ g.vertices) :
    g.WeaklyConnected ↔ ∀ v ∈ g.vertices, Joined g.edges first v :=
  ⟨fun all v hv => all first hu v hv, fun ways u hu v hv => (ways u hu).symm.trans (ways v hv)⟩

variable [VertexKey K]

/-- The first vertex is connected with an id in the moral graph when the edges join it to its key. -/
theorem linked_first_iff (built : g.Built) (vertices : g.vertices = first :: rest) {i : Nat} {v : K}
    (hi : g.arena.key? i = some v) : ReflTransGen g.moralRows.Linked 0 i ↔ Joined g.edges first v := by
  have named : g.vertices[0]? = some first := by rw [vertices, List.getElem?_cons_zero]
  rw [linked_moralRows_iff built, joined_iff built.wellFormed named ((g.getElem?_vertices i).trans hi)]

/-- As many ids are connected with the first vertex as the edges join to it. -/
theorem ncard_linked_first (built : g.Built) (vertices : g.vertices = first :: rest) :
    {i | ReflTransGen g.moralRows.Linked 0 i}.ncard = {v | Joined g.edges first v}.ncard := by
  obtain ⟨size, symm, _⟩ := moralRows_spec built
  have known : first ∈ g.vertices := by
    rw [vertices]
    exact List.mem_cons_self
  have small : 0 < g.arena.size := by
    obtain ⟨i, hi⟩ := Arena.mem_keys_iff.1 known
    exact Nat.zero_lt_of_lt (Arena.lt_size hi)
  have inside : ∀ i ∈ g.moralRows.breadthFirst 0, i < g.arena.size := by
    intro i hi
    rcases ReflTransGen.cases_tail (Rows.mem_breadthFirst_iff.1 hi) with rfl | ⟨j, _, link⟩
    · exact small
    · exact size ▸ symm.lt_size link
  rw [← Rows.length_breadthFirst, ← Arena.length_keysOf inside]
  refine (ncard_eq_length (Arena.nodup_keysOf (Rows.nodup_breadthFirst _ _)) fun v => ?_).symm
  rw [Set.mem_ofPred_eq]
  constructor
  · intro way
    obtain ⟨i, hi⟩ := Arena.mem_keys_iff.1 (mem_vertices_of_joined way known)
    exact (Arena.mem_keysOf_iff hi).2 (Rows.mem_breadthFirst_iff.2 ((linked_first_iff built vertices hi).2 way))
  · intro hv
    obtain ⟨i, hi, named⟩ := Arena.mem_keysOf.1 hv
    exact (linked_first_iff built vertices named).1 (Rows.mem_breadthFirst_iff.1 hi)

/-- Some id is not connected with the first one exactly when the graph is not connected. -/
theorem exists_not_linked_iff (built : g.Built) (vertices : g.vertices = first :: rest) :
    (∃ i < g.arena.size, ¬ ReflTransGen g.moralRows.Linked 0 i) ↔ ¬ g.WeaklyConnected := by
  have known : first ∈ g.vertices := by
    rw [vertices]
    exact List.mem_cons_self
  rw [weaklyConnected_iff known]
  simp only [not_forall, exists_prop]
  constructor
  · rintro ⟨i, small, apart⟩
    obtain ⟨v, hi⟩ := Arena.exists_key? small
    exact ⟨v, Arena.mem_keys_iff.2 ⟨i, hi⟩, fun way => apart ((linked_first_iff built vertices hi).2 way)⟩
  · rintro ⟨v, hv, apart⟩
    obtain ⟨i, hi⟩ := Arena.mem_keys_iff.1 hv
    exact ⟨i, Arena.lt_size hi, fun way => apart ((linked_first_iff built vertices hi).1 way)⟩

/-- The policy refuses the moral graph when it wants one part and the edges leave more. -/
theorem resolve_moralRows_eq_error_iff (built : g.Built) {p : OrderPolicy} {e : GraphError} :
    p.resolve g.moralRows g.arena.ids = .error e ↔ p.reorder = true ∧ p.disconnected = .reject ∧
      ∃ first rest, g.vertices = first :: rest ∧ ¬ g.WeaklyConnected ∧
        e = .disconnected {v | Joined g.edges first v}.ncard g.vertexCount := by
  obtain ⟨size, symm, _⟩ := moralRows_spec built
  rw [Arena.ids, ← size, Rows.resolve_eq_error_iff symm, size]
  refine and_congr_right fun _ => and_congr_right fun _ => ?_
  constructor
  · rintro ⟨left, rfl⟩
    cases vertices : g.vertices with
    | nil =>
      obtain ⟨i, small, _⟩ := left
      have none : g.arena.size = 0 := (Array.length_toList).symm.trans (congrArg List.length vertices)
      omega
    | cons first rest =>
      refine ⟨first, rest, rfl, (exists_not_linked_iff built vertices).1 left, ?_⟩
      rw [ncard_linked_first built vertices, vertexCount]
  · rintro ⟨first, rest, vertices, apart, rfl⟩
    refine ⟨(exists_not_linked_iff built vertices).2 apart, ?_⟩
    rw [ncard_linked_first built vertices, vertexCount]

/-- **Failure.** Whatever the directed graph and the policy, there is no junction tree if and only if the policy orders
anew and wants one part, and the graph has a vertex and is not connected. The error then counts the vertices that
are connected with the first one, and all vertices. The way that checks every access by id has the same outcome, so none
of them goes past an end. -/
theorem junctionTree_eq_error_iff (built : g.Built) (p : OrderPolicy) :
    (∀ e, g.junctionTree p = .error e ↔ p.reorder = true ∧ p.disconnected = .reject ∧
      ∃ first rest, g.vertices = first :: rest ∧ ¬ g.WeaklyConnected ∧
        e = .disconnected {v | Joined g.edges first v}.ncard g.vertexCount) ∧
      ((∃ t, g.junctionTree p = .ok t) ↔
        ¬ (p.reorder = true ∧ p.disconnected = .reject ∧ g.vertices ≠ [] ∧ ¬ g.WeaklyConnected)) ∧
        g.checkedJunctionTree p = g.junctionTree p := by
  have failure : ∀ e, g.junctionTree p = .error e ↔ p.reorder = true ∧ p.disconnected = .reject ∧
      ∃ first rest, g.vertices = first :: rest ∧ ¬ g.WeaklyConnected ∧
        e = .disconnected {v | Joined g.edges first v}.ncard g.vertexCount := by
    intro e
    rw [junctionTree_eq built, bind_eq_error, resolve_moralRows_eq_error_iff built]
    refine or_iff_left ?_
    rintro ⟨order, _, made⟩
    cases made
  refine ⟨failure, ⟨?_, fun fine => ?_⟩, checkedJunctionTree_eq built p⟩
  · rintro ⟨t, tree⟩ ⟨reorder, reject, some, apart⟩
    obtain ⟨first, rest, vertices⟩ := List.exists_cons_of_ne_nil some
    have failed := (failure _).2 ⟨reorder, reject, first, rest, vertices, apart, rfl⟩
    rw [tree] at failed
    cases failed
  · cases outcome : g.junctionTree p with
    | ok t => exact ⟨t, rfl⟩
    | error e =>
      obtain ⟨reorder, reject, first, rest, vertices, apart, _⟩ := (failure e).1 outcome
      exact absurd ⟨reorder, reject, vertices ▸ List.cons_ne_nil first rest, apart⟩ fine

/-- Two vertices on a cycle and a third one alone are refused by a policy that wants one part, and by no other. -/
theorem cycle_and_stranger_eq_error : ∃ g : Digraph Char,
    Digraph.ofEdges ['a', 'b', 'c'] [('a', 'b'), ('b', 'a'), ('b', 'b')] = .ok g ∧
      g.checkedJunctionTree .strict = .error (.disconnected 2 3) ∧ ¬ g.WeaklyConnected ∧
        {v | Joined g.edges 'a' v}.ncard = 2 ∧ (∃ t, g.junctionTree .standard = .ok t) ∧
          ∃ t, g.junctionTree .inOrder = .ok t := by
  have ran : (do
      let g ← Digraph.ofEdges ['a', 'b', 'c'] [('a', 'b'), ('b', 'a'), ('b', 'b')]
      return (g.vertices, match g.junctionTree .strict with
        | .ok _ => none
        | .error e => some e)) = .ok (['a', 'b', 'c'], some (.disconnected 2 3)) := by decide +kernel
  obtain ⟨g, made, ran⟩ := bind_eq_ok.1 ran
  obtain ⟨vertices, shown⟩ := Prod.mk.inj (Except.ok.inj ran)
  have failed : g.junctionTree .strict = .error (.disconnected 2 3) := by
    cases outcome : g.junctionTree .strict with
    | ok t =>
      rw [outcome] at shown
      cases shown
    | error e =>
      rw [outcome] at shown
      rw [Option.some.inj shown]
  obtain ⟨failure, _, checked⟩ := junctionTree_eq_error_iff (.ofEdges made) .strict
  obtain ⟨_, _, first, rest, listed, apart, counts⟩ := (failure _).1 failed
  obtain ⟨reached, _⟩ := GraphError.disconnected.inj counts
  obtain ⟨rfl, _⟩ := List.cons.inj (vertices.symm.trans listed)
  obtain ⟨_, standard, _⟩ := junctionTree_eq_error_iff (.ofEdges made) .standard
  obtain ⟨_, inOrder, _⟩ := junctionTree_eq_error_iff (.ofEdges made) .inOrder
  refine ⟨g, made, checked.trans failed, apart, reached.symm, standard.2 ?_, inOrder.2 ?_⟩
  · rintro ⟨_, reject, _⟩
    cases reject
  · rintro ⟨reorder, _⟩
    cases reorder

end Digraph
end CliqueTree
