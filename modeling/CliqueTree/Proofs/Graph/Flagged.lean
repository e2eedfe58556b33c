import CliqueTree.Proofs.Graph.States

/-!
# The flag beside the order

A graph can be stored with a flag, whether it is triangulated, and a list beside it, the order of elimination. Nothing
in such a state keeps the list empty while the flag is off; the calls have to see to it, which write the two one after
the other. They do: written field by field, each step does to the stored state what it does to the graph, whatever ids
it names (`perform_mirrors`), so along every run the stored state is that of a graph (`after_steps`). The states whose
list is empty while the flag is off are those of graphs, each of one graph (`existsUnique_ofGraph_iff`): for them, and
for no others, flag and list are together one optional order.
-/

set_option autoImplicit false

namespace CliqueTree

/-- A graph with a flag beside the order of elimination. -/
structure FlaggedGraph (K : Type) where
  arena : Arena K
  edgeIds : Array Edge
  neighbourRows : Rows
  triangulated : Bool
  /-- The order of elimination, empty before the graph is triangulated. -/
  elimination : List Nat

namespace FlaggedGraph
variable {K : Type} {g : Graph K} {s : FlaggedGraph K}

/-! ## The state of a graph -/

/-- The state in which a graph is stored. -/
def ofGraph (g : Graph K) : FlaggedGraph K :=
  ⟨g.arena, g.edgeIds, g.neighbourRows, g.triangulated, g.eliminationIds⟩

/-- The graph that a state stores; the list counts when the flag is set. -/
def toGraph (s : FlaggedGraph K) : Graph K :=
  ⟨s.arena, s.edgeIds, s.neighbourRows, if s.triangulated then some s.elimination else none⟩

theorem toGraph_ofGraph (g : Graph K) : (ofGraph g).toGraph = g := by
  obtain ⟨arena, edgeIds, rows, elimination⟩ := g
  cases elimination <;> rfl

theorem ofGraph_toGraph (empty : s.triangulated = false → s.elimination = []) : ofGraph s.toGraph = s := by
  obtain ⟨arena, edgeIds, rows, triangulated, elimination⟩ := s
  cases triangulated with
  | true => rfl
  | false =>
    obtain rfl : elimination = [] := empty rfl
    rfl

theorem elimination_ofGraph (g : Graph K) (state : (ofGraph g).triangulated = false) :
    (ofGraph g).elimination = [] := by
  obtain ⟨arena, edgeIds, rows, elimination⟩ := g
  cases elimination with
  | none => rfl
  | some order => cases state

/-- A state stores just one graph when its list is empty while the flag is off, and none otherwise. -/
theorem existsUnique_ofGraph_iff : (∃! g, ofGraph g = s) ↔ (s.triangulated = false → s.elimination = []) := by
  constructor
  · rintro ⟨g, rfl, _⟩
    exact elimination_ofGraph g
  · intro empty
    refine ⟨s.toGraph, ofGraph_toGraph empty, ?_⟩
    rintro g rfl
    exact (toGraph_ofGraph g).symm

/-! ## Calls that write field by field -/

/-- Adds the edge between two ids. -/
def link (s : FlaggedGraph K) (u v : Nat) : FlaggedGraph K :=
  { s with
    edgeIds := s.edgeIds.push (u, v)
    neighbourRows := (s.neighbourRows.add u v).add v u }

instance : NeighbourLinks (FlaggedGraph K) where
  neighbours := neighbourRows
  link := link
  neighbours_link _ _ _ := rfl

/-- Writes `v` behind the neighbours of `u`. -/
def listInPlace (u v : Nat) : InPlace (FlaggedGraph K) Unit := do
  let _ ← InPlace.ask fun s => Rows.checkId s.neighbourRows.size u
  modify fun s => { s with neighbourRows := s.neighbourRows.add u v }

/-- Writes each of two ids behind the neighbours of the other, then their edge. -/
def linkInPlace (u v : Nat) : InPlace (FlaggedGraph K) Unit := do
  listInPlace u v
  listInPlace v u
  modify fun s => { s with edgeIds := s.edgeIds.push (u, v) }

/-- Refuses a graph whose flag is set. -/
def refuseTriangulated : InPlace (FlaggedGraph K) Unit :=
  InPlace.ask fun s => if s.triangulated then throw .alreadyTriangulated else return

theorem listInPlace_mirrors (u v : Nat) :
    InPlace.Mirrors (ofGraph (K := K)) (Graph.listInPlace u v) (listInPlace u v) :=
  (InPlace.mirrors_ask fun _ => rfl).bind fun _ => InPlace.mirrors_modify fun _ => rfl

theorem linkInPlace_mirrors (u v : Nat) :
    InPlace.Mirrors (ofGraph (K := K)) (Graph.linkInPlace u v) (linkInPlace u v) :=
  (listInPlace_mirrors u v).bind fun _ => (listInPlace_mirrors v u).bind fun _ => InPlace.mirrors_modify fun _ => rfl

theorem refuseTriangulated_mirrors :
    InPlace.Mirrors (ofGraph (K := K)) Graph.refuseTriangulated refuseTriangulated :=
  InPlace.mirrors_ask fun _ => rfl

theorem eliminate_mirrors (order : List Nat) : InPlace.Mirrors (ofGraph (K := K))
    (InPlace.eliminate Graph.linkInPlace [] order) (InPlace.eliminate linkInPlace [] order) :=
  InPlace.Mirrors.eliminate (f := ofGraph) (fun _ => rfl) linkInPlace_mirrors order []

/-- The two writes of a triangulation come to the one that records the order. -/
theorem record_mirrors (order : List Nat) : InPlace.Mirrors (ofGraph (K := K))
    (modify fun g => { g with elimination := some order })
    (do
      modify fun s => { s with elimination := order }
      modify fun s => { s with triangulated := true }) := fun _ => rfl

theorem foldl_link_ofGraph (edges : List Edge) (g : Graph K) :
    edges.foldl (fun s e => s.link e.1 e.2) (ofGraph g) = ofGraph (edges.foldl (fun g e => g.link e.1 e.2) g) :=
  List.foldl_hom ofGraph fun _ _ => rfl

/-- The maximal cliques of a triangulated graph, as lists of ids. -/
def maximalCliqueIds (s : FlaggedGraph K) (p : OrderPolicy) : Except GraphError (List (List Nat)) := do
  if !s.triangulated then throw .notTriangulated
  let found ← s.neighbourRows.greedy (← p.resolve s.neighbourRows s.arena.ids)
  return found ++ (← s.neighbourRows.missing s.elimination found)

theorem maximalCliqueIds_ofGraph (g : Graph K) (p : OrderPolicy) :
    (ofGraph g).maximalCliqueIds p = g.maximalCliqueIds p := by
  obtain ⟨arena, edgeIds, rows, elimination⟩ := g
  cases elimination <;> rfl

variable [VertexKey K]

/-- A graph without edges; the flag is off. -/
def blank (arena : Arena K) : FlaggedGraph K := ⟨arena, #[], .blank arena.size, false, []⟩

/-- The graph with the given vertices and edges. An end of an edge that is no vertex is an error. -/
def ofEdges (vertices : List K) (edges : List (K × K)) : Except GraphError (FlaggedGraph K) := do
  let arena := Arena.ofKeys vertices
  return (← arena.edgeIds edges).foldl (fun s e => s.link e.1 e.2) (blank arena)

/-- A step in place. What triangulates records the order before it sets the flag, and no check stands between the two
writes. -/
def perform : Graph.Step K → InPlace (FlaggedGraph K) Unit
  | .addEdge u v => do
    let (u, v) ← InPlace.ask (·.arena.edgeId (u, v))
    refuseTriangulated
    linkInPlace u v
  | .triangulate p => do
    refuseTriangulated
    let order ← InPlace.ask fun s => p.resolve s.neighbourRows s.arena.ids
    InPlace.eliminate linkInPlace [] order
    modify fun s => { s with elimination := order }
    modify fun s => { s with triangulated := true }
  | .link u v => linkInPlace u v
  | .fill order => InPlace.eliminate linkInPlace [] order

/-- The state that a step leaves, also when it fails. -/
def after (s : FlaggedGraph K) (c : Graph.Step K) : FlaggedGraph K := (perform c).left s

/-! ## Stored states along a run -/

/-- Each step does to the stored state what it does to the graph. -/
theorem perform_mirrors (c : Graph.Step K) : InPlace.Mirrors ofGraph c.perform (perform c) := by
  cases c with
  | addEdge u v =>
    exact (InPlace.mirrors_ask fun _ => rfl).bind fun ids =>
      refuseTriangulated_mirrors.bind fun _ => linkInPlace_mirrors ids.1 ids.2
  | triangulate p =>
    exact refuseTriangulated_mirrors.bind fun _ => (InPlace.mirrors_ask fun _ => rfl).bind fun order =>
      (eliminate_mirrors order).bind fun _ => record_mirrors order
  | link u v => exact linkInPlace_mirrors u v
  | fill order => exact eliminate_mirrors order

theorem after_ofGraph (g : Graph K) (c : Graph.Step K) : (ofGraph g).after c = ofGraph (c.after g) :=
  (perform_mirrors c).left_eq g

/-- So does every run of steps. -/
theorem foldl_after_ofGraph (steps : List (Graph.Step K)) (g : Graph K) :
    steps.foldl after (ofGraph g) = ofGraph (steps.foldl Graph.Step.after g) :=
  List.foldl_hom ofGraph after_ofGraph

/-- On the state of a consistent graph a step that fails has written nothing. -/
theorem eq_of_perform_eq_error (h : g.Consistent) {c : Graph.Step K} (inside : c.Inside g.arena.size) {e : GraphError}
    (failed : perform c (ofGraph g) = .error e s) : s = ofGraph g := by
  rw [perform_mirrors c] at failed
  cases ran : c.perform g with
  | ok _ t =>
    rw [ran] at failed
    cases failed
  | error e' t =>
    rw [ran] at failed
    obtain ⟨_, rfl⟩ := (Graph.Step.perform_atomic h inside).eq_error_iff.1 ran
    cases failed
    rfl

theorem ofEdges_eq (vertices : List K) (edges : List (K × K)) :
    ofEdges vertices edges = (Graph.ofEdges vertices edges).map ofGraph := by
  rw [ofEdges, Graph.ofEdges]
  cases (Arena.ofKeys vertices).edgeIds edges with
  | error e => rfl
  | ok ids => exact congrArg Except.ok (foldl_link_ofGraph ids (.blank (.ofKeys vertices)))

/-- **Flag and order.** Whatever steps lead from edges to it, the stored state is that of the graph after the same
steps. So its order is empty while the flag is off; and if the steps named ids of the graph, the order lists every
vertex once when the flag is on, and a step that fails leaves both fields, as all others, unwritten. -/
theorem after_steps {vertices : List K} {edges : List (K × K)} (made : ofEdges vertices edges = .ok s)
    (steps : List (Graph.Step K)) :
    let t := steps.foldl after s
    (∃ g, Graph.ofEdges vertices edges = .ok g ∧ t = ofGraph (steps.foldl Graph.Step.after g)) ∧
      (t.triangulated = false → t.elimination = []) ∧ ((∀ c ∈ steps, c.Inside s.arena.size) →
        (t.triangulated = true → t.elimination.Perm t.arena.ids) ∧
          ∀ c : Graph.Step K, c.Inside t.arena.size → ∀ e r, perform c t = .error e r → r = t) := by
  rw [ofEdges_eq] at made
  cases built : Graph.ofEdges vertices edges with
  | error e =>
    rw [built] at made
    cases made
  | ok g =>
    rw [built] at made
    obtain rfl := Except.ok.inj made
    rw [foldl_after_ofGraph]
    refine ⟨⟨g, rfl, rfl⟩, elimination_ofGraph _, fun inside => ?_⟩
    obtain ⟨ids, ends, built⟩ := bind_eq_ok.1 built
    obtain rfl := Except.ok.inj built
    obtain ⟨consistent, _⟩ := Graph.foldl_after_spec (.ofEdgeIds (Arena.edgeIds_inside ends)) steps inside
    exact ⟨consistent.eliminationIds_perm, fun c small e r => eq_of_perform_eq_error consistent small⟩

/-- A path of three is stored with the flag off; one triangulation sets it, and a second one is refused. -/
example : (do
    let s ← ofEdges ['a', 'b', 'c'] [('b', 'a'), ('b', 'c')]
    let t := [Graph.Step.triangulate .inOrder, .triangulate .standard].foldl after s
    return ((s.triangulated, s.elimination), t.triangulated, t.elimination)) =
      .ok ((false, []), true, [0, 1, 2]) := by decide +kernel

end FlaggedGraph
end CliqueTree
