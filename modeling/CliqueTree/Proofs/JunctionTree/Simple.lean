import CliqueTree.Proofs.JunctionTree.Runs
import CliqueTree.Proofs.Table.Core

/-!
# Repeats and loops change nothing

An edge list and its simple edges give graphs of the same vertices whose rows have the same core, and the core of the
rows tells all that the graphs are asked: the order of a policy, what is filled in, the cliques and so their tree
(`Graph.SameAnswers`). A directed graph and the one of its simple arcs have the same marriages, and so they have the
same junction tree (`simple_results`).
-/

set_option autoImplicit false

namespace CliqueTree
variable {K : Type}

namespace Arena
variable [VertexKey K] {a : Arena K} {edges : List (K × K)} {es : List Edge}

theorem edgeIds_simpleEdges (h : a.edgeIds edges = .ok es) : a.edgeIds (simpleEdges edges) = .ok (simpleEdges es) := by
  obtain ⟨inside, rfl⟩ := edgeIds_eq_ok_iff.1 h
  refine edgeIds_eq_ok_iff.2 ⟨fun e he => inside e (simpleEdges_subset he), ?_⟩
  exact simpleEdges_map a.oneToOne_placeOf inside

theorem edgeIds_simpleArcs (h : a.edgeIds edges = .ok es) : a.edgeIds (simpleArcs edges) = .ok (simpleArcs es) := by
  obtain ⟨inside, rfl⟩ := edgeIds_eq_ok_iff.1 h
  refine edgeIds_eq_ok_iff.2 ⟨fun e he => inside e (mem_simpleArcs.1 he).1, ?_⟩
  exact simpleArcs_map a.oneToOne_placeOf inside

end Arena

namespace Graph
variable {g h : Graph K}

/-- The graphs have the same vertices, and their rows the same core. -/
structure Alike (g h : Graph K) : Prop where
  left : g.WellFormed
  right : h.WellFormed
  arena : h.arena = g.arena
  core : Rows.SameCore g.neighbourRows h.neighbourRows

theorem Alike.resolve_eq (alike : Alike g h) (p : OrderPolicy) : h.resolve p = g.resolve p := by
  rw [resolve, resolve, alike.arena, alike.core.resolve_eq]

/-- The game adds the same links to the rows of both. -/
theorem Alike.sameFill (alike : Alike g h) (order : List Nat) :
    Growth.SameFill (Growth.eliminate [] (⟨g.neighbourRows, #[]⟩ : Growth Rows) order)
      (Growth.eliminate [] ⟨h.neighbourRows, #[]⟩ order) := by
  have start : Growth.SameFill (⟨g.neighbourRows, #[]⟩ : Growth Rows) ⟨h.neighbourRows, #[]⟩ := ⟨alike.core, rfl⟩
  exact start.eliminate alike.left.symm alike.right.symm order

/-- Filling in adds the same edges. -/
theorem Alike.fillIn_eq (alike : Alike g h) (p : OrderPolicy) : h.fillIn p = g.fillIn p := by
  rw [alike.left.fillIn_eq, alike.right.fillIn_eq, alike.resolve_eq, alike.arena]
  simp only [(alike.sameFill _).2]

variable [VertexKey K]

theorem Alike.cliqueOf_eq (alike : Alike g h) : h.cliqueOf = g.cliqueOf := by
  funext ids
  rw [cliqueOf, cliqueOf, alike.arena]

/-- Triangulated graphs that are alike list the same cliques. -/
theorem Alike.maximalCliques_eq (alike : Alike g h) {order : List Nat} (left : g.Triangular order)
    (right : h.Triangular order) (q : OrderPolicy) : h.maximalCliques q = g.maximalCliques q := by
  rw [left.maximalCliques_eq, right.maximalCliques_eq, alike.resolve_eq]
  simp only [alike.core.cliqueIds_eq, alike.cliqueOf_eq]

theorem Alike.junctionTree_eq (alike : Alike g h) {order : List Nat} (left : g.Triangular order)
    (right : h.Triangular order) (q : OrderPolicy) : h.junctionTree q = g.junctionTree q := by
  rw [left.junctionTree_eq, right.junctionTree_eq, alike.resolve_eq]
  simp only [alike.core.cliqueIds_eq, alike.cliqueOf_eq]

/-- What the graphs are asked they answer alike: what a policy would fill in, whether it fails, what it does fill in and
in which order, and then the cliques and their tree by any policy. -/
structure SameAnswers (g h : Graph K) : Prop where
  fillIn : ∀ p, h.fillIn p = g.fillIn p
  refused : ∀ p e, g.triangulate p = .error e → h.triangulate p = .error e
  filled : ∀ p s, g.triangulate p = .ok s → ∃ t, h.triangulate p = .ok t ∧ t.added = s.added ∧
    t.graph.eliminationOrder = s.graph.eliminationOrder ∧
      ∀ q, t.graph.maximalCliques q = s.graph.maximalCliques q ∧ t.graph.junctionTree q = s.graph.junctionTree q

theorem Alike.sameAnswers (alike : Alike g h) (left : g.elimination = none) (right : h.elimination = none) :
    SameAnswers g h where
  fillIn := alike.fillIn_eq
  refused p e failed := by
    rw [triangulate_eq alike.left left] at failed
    rw [triangulate_eq alike.right right, alike.resolve_eq]
    cases resolved : g.resolve p with
    | error e' =>
      rw [resolved] at failed
      obtain rfl := Except.error.inj failed
      rfl
    | ok order =>
      rw [resolved] at failed
      exact nomatch failed
  filled p s filled := by
    obtain ⟨arena, _, order, resolved, triangular⟩ := triangulate_spec alike.left filled
    have again : h.resolve p = .ok order := (alike.resolve_eq p).trans resolved
    obtain ⟨t, filled', triangular', _⟩ := exists_chordal alike.right right again
    have arena' := (triangulate_spec alike.right filled').1
    have same : Growth.SameFill s.onRows t.onRows := by
      rw [onRows_triangulate alike.left left filled resolved, onRows_triangulate alike.right right filled' again]
      exact alike.sameFill order
    have both : Alike s.graph t.graph :=
      ⟨triangular.toWellFormed, triangular'.toWellFormed, arena'.trans (alike.arena.trans arena.symm), same.1⟩
    refine ⟨t, filled', same.2, ?_, fun q => ⟨?_, ?_⟩⟩
    · rw [eliminationOrder, eliminationOrder, eliminationIds, eliminationIds, triangular.recorded, triangular'.recorded,
        both.arena]
    · exact both.maximalCliques_eq triangular triangular' q
    · exact both.junctionTree_eq triangular triangular' q

/-- The graph of the simple edges gives the same answers. -/
theorem ofEdges_simpleEdges {vertices : List K} {edges : List (K × K)} (made : Graph.ofEdges vertices edges = .ok g) :
    ∃ h, Graph.ofEdges vertices (simpleEdges edges) = .ok h ∧ SameAnswers g h := by
  obtain ⟨es, ends, made⟩ := bind_eq_ok.1 made
  obtain rfl := Except.ok.inj made
  have simple := Arena.edgeIds_simpleEdges ends
  have made' : Graph.ofEdges vertices (simpleEdges edges) = .ok (ofEdgeIds (.ofKeys vertices) (simpleEdges es)) := by
    rw [ofEdges, simple]
    rfl
  have left := (ofEdgeIds_wellFormed (Arena.edgeIds_inside ends)).1
  have right := (ofEdgeIds_wellFormed (Arena.edgeIds_inside simple)).1
  refine ⟨_, made', Alike.sameAnswers ⟨left, right, ?_, ?_⟩ ?_ ?_⟩
  · rw [ofEdgeIds_eq, ofEdgeIds_eq]
  · rw [ofEdgeIds_eq, ofEdgeIds_eq]
    exact Rows.sameCore_adjacencyOf (Arena.edgeIds_inside ends)
  · rw [ofEdgeIds_eq]
  · rw [ofEdgeIds_eq]

end Graph

namespace Digraph
variable [VertexKey K]

/-- The directed graph of the simple arcs has the same junction trees. -/
theorem ofEdges_simpleArcs {vertices : List K} {edges : List (K × K)} {g : Digraph K}
    (made : Digraph.ofEdges vertices edges = .ok g) :
    ∃ h, Digraph.ofEdges vertices (simpleArcs edges) = .ok h ∧ ∀ p, h.junctionTree p = g.junctionTree p := by
  obtain ⟨es, ends, built⟩ := bind_eq_ok.1 made
  have simple := Arena.edgeIds_simpleArcs ends
  obtain ⟨h, made'⟩ : ∃ h, Digraph.ofEdges vertices (simpleArcs edges) = .ok h := by
    rw [Digraph.ofEdges, simple]
    exact ⟨_, rfl⟩
  refine ⟨h, made', fun p => ?_⟩
  have symm : ∀ {g : Digraph K}, g.Built → g.moralRows.Symmetric := by
    intro g built
    obtain ⟨m, _, wf, _, _, rows⟩ := exists_openMoralGraph built
    exact rows ▸ wf.symm
  have shape : ∀ {edges : List (K × K)} {es : List Edge} {g : Digraph K},
      (Arena.ofKeys vertices).edgeIds edges = .ok es → Digraph.ofEdges vertices edges = .ok g →
        g.arena = .ofKeys vertices ∧ g.edgeIds = es.toArray := by
    intro edges es g ends made
    rw [Digraph.ofEdges, ends] at made
    obtain rfl := Except.ok.inj made
    rw [foldl_link]
    exact ⟨rfl, by simp [blank]⟩
  obtain ⟨arena, ids⟩ := shape ends made
  obtain ⟨arena', ids'⟩ := shape simple made'
  have core : Rows.SameCore g.moralRows h.moralRows := by
    rw [moralRows, moralRows, arena, arena', ids, ids']
    exact Rows.sameCore_moralEdges (Arena.edgeIds_inside ends)
  have cliqueOf : h.cliqueOf = g.cliqueOf := by
    funext ids
    rw [cliqueOf, cliqueOf, arena, arena']
  rw [junctionTree_eq (.ofEdges made), junctionTree_eq (.ofEdges made'), arena, arena', core.resolve_eq, cliqueOf]
  simp only [core.chordalIds_eq (symm (.ofEdges made)) (symm (.ofEdges made'))]

end Digraph

/-- **Repeats and loops.** An edge list gives the same answers as its simple edges, in every list and every order, or
the same error; and it gives, read as a list of arcs, the same junction trees as its simple arcs. -/
theorem simple_results [VertexKey K] (vertices : List K) (edges : List (K × K)) :
    (∀ g, Graph.ofEdges vertices edges = .ok g →
      ∃ h, Graph.ofEdges vertices (simpleEdges edges) = .ok h ∧ Graph.SameAnswers g h) ∧
    ∀ g, Digraph.ofEdges vertices edges = .ok g →
      ∃ h, Digraph.ofEdges vertices (simpleArcs edges) = .ok h ∧ ∀ p, h.junctionTree p = g.junctionTree p :=
  ⟨fun _ => Graph.ofEdges_simpleEdges, fun _ => Digraph.ofEdges_simpleArcs⟩

/-- A square with a loop and two repeats gets the same diagonal without them, and so does the directed square. -/
theorem square_simple_results : ∃ (g h : Graph Char) (s t : Growth (Graph Char)) (d d' : Digraph Char)
    (tree : JunctionTree Char),
    let edges := [('a', 'b'), ('a', 'a'), ('b', 'c'), ('b', 'a'), ('c', 'd'), ('d', 'a'), ('a', 'b')]
    Graph.ofEdges ['a', 'b', 'c', 'd'] edges = .ok g ∧
      Graph.ofEdges ['a', 'b', 'c', 'd'] [('a', 'b'), ('b', 'c'), ('c', 'd'), ('d', 'a')] = .ok h ∧
        g.triangulate .standard = .ok s ∧ h.triangulate .standard = .ok t ∧ s.added = #[(1, 3)] ∧ t.added = s.added ∧
          t.graph.junctionTree .inOrder = s.graph.junctionTree .inOrder ∧
            Digraph.ofEdges ['a', 'b', 'c', 'd'] edges = .ok d ∧
              Digraph.ofEdges ['a', 'b', 'c', 'd'] [('a', 'b'), ('b', 'c'), ('b', 'a'), ('c', 'd'), ('d', 'a')] = .ok d' ∧
                d.junctionTree .standard = .ok tree ∧ d'.junctionTree .standard = .ok tree ∧
                  tree.cliques = [⟨['a', 'b', 'd']⟩, ⟨['b', 'c', 'd']⟩] := by
  have filled : (do
      let g ← Graph.ofEdges ['a', 'b', 'c', 'd']
        [('a', 'b'), ('a', 'a'), ('b', 'c'), ('b', 'a'), ('c', 'd'), ('d', 'a'), ('a', 'b')]
      let s ← g.triangulate .standard
      return s.added) = .ok #[(1, 3)] := by decide +kernel
  have joined : (do
      let d ← Digraph.ofEdges ['a', 'b', 'c', 'd']
        [('a', 'b'), ('a', 'a'), ('b', 'c'), ('b', 'a'), ('c', 'd'), ('d', 'a'), ('a', 'b')]
      let tree ← d.junctionTree .standard
      return tree.cliques) = .ok [⟨['a', 'b', 'd']⟩, ⟨['b', 'c', 'd']⟩] := by
    simp only [Digraph.junctionTree, Graph.junctionTree, spanningForest_overlapWeights]
    generalize OrderPolicy.paramsHash _ = digest
    cbv
  obtain ⟨g, made, filled⟩ := bind_eq_ok.1 filled
  obtain ⟨s, filled, added⟩ := bind_eq_ok.1 filled
  obtain ⟨d, arcs, joined⟩ := bind_eq_ok.1 joined
  obtain ⟨tree, joined, cliques⟩ := bind_eq_ok.1 joined
  obtain ⟨results, results'⟩ := simple_results ['a', 'b', 'c', 'd']
    [('a', 'b'), ('a', 'a'), ('b', 'c'), ('b', 'a'), ('c', 'd'), ('d', 'a'), ('a', 'b')]
  obtain ⟨h, made', same⟩ := results g made
  obtain ⟨t, filled', again, _, lists⟩ := same.filled .standard s filled
  obtain ⟨d', arcs', joined'⟩ := results' d arcs
  exact ⟨g, h, s, t, d, d', tree, made, made', filled, filled', Except.ok.inj added, again, (lists .inOrder).2, arcs,
    arcs', joined, (joined' .standard).trans joined, Except.ok.inj cliques⟩

end CliqueTree
