import CliqueTree.Proofs.Digraph.Moral
import CliqueTree.Proofs.Table.EdgeLists
import CliqueTree.Proofs.Table.InPlace

/-!
# The states of a directed graph

A directed graph comes about by steps: edges are added by key, parents are married, and who knows the ids can link two
of them or marry the parents of any vertices. Every state is one that keys lead to as well (`Built.run`), so its rows
are those of its edges (`Built.listsParents`): the parents of a vertex are the sources of the edges into it, its
children the targets of the edges out of it, and without directions the same edges join what is adjacent (`Faithful`).
Edges are only appended. An unknown key is all that a step is refused for, and it is found before the step writes
anything: the steps write in place, entry by entry (`Step.perform`).
-/

set_option autoImplicit false

namespace CliqueTree
namespace Digraph
variable {K : Type} {g t : Digraph K}

theorem foldl_link (edges : List Edge) (g : Digraph K) : edges.foldl (fun g e => g.link e.1 e.2) g =
    { g with
      edgeIds := g.edgeIds ++ edges.toArray
      parentRows := edges.foldl (fun r e => ParentLinks.link r e.1 e.2) g.parentRows } := by
  induction edges generalizing g with
  | nil => simp
  | cons e edges ih =>
    have ids : g.edgeIds.push e ++ edges.toArray = g.edgeIds ++ (e :: edges).toArray := by simp
    rw [List.foldl_cons, ih, ← ids]
    rfl

/-- The parents are those that the edges give. -/
def ListsParents (g : Digraph K) : Prop := g.parentRows = Rows.parentsOf g.arena.size g.edgeIds.toList

theorem ListsParents.link (h : g.ListsParents) (u v : Nat) : (g.link u v).ListsParents := by
  rw [ListsParents, Digraph.link, Array.toList_push, Rows.parentsOf_concat, ← h]

/-- The vertices are the same, and edges were only appended. -/
structure Extends (g t : Digraph K) : Prop where
  arena : t.arena = g.arena
  edges : g.edgeIds.toList <+: t.edgeIds.toList

namespace Extends

theorem refl (g : Digraph K) : g.Extends g := ⟨rfl, List.prefix_rfl⟩

theorem trans {s : Digraph K} (h : g.Extends s) (h' : s.Extends t) : g.Extends t :=
  ⟨h'.arena.trans h.arena, h.edges.trans h'.edges⟩

theorem link (g : Digraph K) (u v : Nat) : g.Extends (g.link u v) where
  arena := rfl
  edges := by
    rw [Digraph.link, Array.toList_push]
    exact List.prefix_append g.edgeIds.toList [(u, v)]

/-- The edges between keys were only appended, too. -/
theorem edges_prefix (h : g.Extends t) : g.edges <+: t.edges := by
  rw [Digraph.edges, Digraph.edges, h.arena]
  exact h.edges.filterMap _

end Extends

/-- Writes an edge behind the others, then its source behind the parents of its target. -/
def linkInPlace (u v : Nat) : InPlace (Digraph K) Unit := do
  modify fun g => { g with edgeIds := g.edgeIds.push (u, v) }
  let _ ← InPlace.ask fun g => Rows.checkId g.parentRows.size v
  modify fun g => { g with parentRows := g.parentRows.add v u }

theorem linkInPlace_eq {v : Nat} (hv : v < g.parentRows.size) (u : Nat) :
    linkInPlace u v g = .ok () (g.link u v) := by
  refine (InPlace.bind_ok rfl).trans ?_
  rw [InPlace.ask_bind, Rows.checkId, if_pos hv]
  rfl

variable [VertexKey K]

theorem Built.listsParents (h : g.Built) : g.ListsParents := by
  induction h with
  | ofEdges made =>
    obtain ⟨ids, _, made⟩ := bind_eq_ok.1 made
    obtain rfl := Except.ok.inj made
    rw [foldl_link, ListsParents]
    simp [blank, Rows.parentsOf]
  | addEdge _ made ih =>
    obtain ⟨e, _, made⟩ := bind_eq_ok.1 made
    obtain rfl := Except.ok.inj made
    exact ih.link e.1 e.2
  | moralize _ made ih => exact marry_induction (P := ListsParents) (fun _ u v h _ _ => h.link u v) ih made

/-- A link between two ids is an edge between their keys. -/
theorem Built.link (built : g.Built) {u v : Nat} (hu : u < g.arena.size) (hv : v < g.arena.size) :
    (g.link u v).Built := by
  obtain ⟨k, hk⟩ := Arena.exists_key? hu
  obtain ⟨l, hl⟩ := Arena.exists_key? hv
  have ends : g.arena.edgeId (k, l) = .ok (u, v) := Arena.edgeId_eq_ok_iff.2 ⟨hk, hl⟩
  have made : g.addEdge k l = .ok (g.link u v) := by
    rw [Digraph.addEdge, ends]
    rfl
  exact built.addEdge made

theorem Built.checkedLink_eq (built : g.Built) {u v : Nat} (hu : u < g.arena.size) (hv : v < g.arena.size) :
    ParentLinks.checkedLink g u v = .ok (g.link u v) :=
  ParentLinks.checkedLink_eq (lt_of_lt_of_eq hu built.wellFormed.size.symm)
    (lt_of_lt_of_eq hv built.wellFormed.size.symm)

/-- Marriages of vertices run to their end, also in place, and link vertices. -/
theorem Built.marry (built : g.Built) {order : List Nat} (inside : ∀ v ∈ order, v < g.arena.size) :
    ∃ s, CliqueTree.marry g order = .ok s ∧ InPlace.marry linkInPlace order g = .ok () s.graph ∧
      s.graph.Built ∧ g.Extends s.graph := by
  have marries : InPlace.Marries linkInPlace fun t : Digraph K => t.Built ∧ g.Extends t :=
    { inside := fun t ht => ht.1.wellFormed.inside
      writes := fun t u v ht hu hv => by
        have size : (ParentLinks.parents t).size = t.arena.size := ht.1.wellFormed.size
        exact ⟨linkInPlace_eq hv u, ht.1.link (size ▸ hu) (size ▸ hv), ht.2.trans (.link t u v)⟩ }
  exact InPlace.marry_eq marries ⟨built, .refl g⟩ fun v hv => lt_of_lt_of_eq (inside v hv) built.wellFormed.size.symm

/-! ### Steps -/

/-- The ways to change a directed graph. -/
inductive Step (K : Type) where
  | addEdge (u v : K)
  | link (u v : Nat)
  | moralize
  | marry (order : List Nat)

/-- The ids that a step names are below `n`. -/
def Step.Inside (n : Nat) : Step K → Prop
  | .addEdge _ _ => True
  | .link u v => u < n ∧ v < n
  | .moralize => True
  | .marry order => ∀ v ∈ order, v < n

instance (n : Nat) : (c : Step K) → Decidable (c.Inside n)
  | .addEdge _ _ => inferInstanceAs (Decidable True)
  | .link u v => inferInstanceAs (Decidable (u < n ∧ v < n))
  | .moralize => inferInstanceAs (Decidable True)
  | .marry order => inferInstanceAs (Decidable (∀ v ∈ order, v < n))

/-- What a step makes of a graph. -/
def Step.run (g : Digraph K) : Step K → Except GraphError (Digraph K)
  | .addEdge u v => g.addEdge u v
  | .link u v => ParentLinks.checkedLink g u v
  | .moralize => return (← g.moralize).graph
  | .marry order => return (← CliqueTree.marry g order).graph

/-- A step in place: every write stands where it is made, and stays when the step fails later. -/
def Step.perform : Step K → InPlace (Digraph K) Unit
  | .addEdge u v => do
    let (u, v) ← InPlace.ask (·.arena.edgeId (u, v))
    linkInPlace u v
  | .link u v => linkInPlace u v
  | .moralize => do InPlace.marry linkInPlace (← get).arena.ids
  | .marry order => InPlace.marry linkInPlace order

/-- The graph that a step leaves, also when it fails. -/
def Step.after (g : Digraph K) (c : Step K) : Digraph K := c.perform.left g

/-- Why a directed graph refuses a step. -/
inductive Refused (g : Digraph K) : Step K → GraphError → Prop where
  | first {u v : K} (unknown : u ∉ g.vertices) : Refused g (.addEdge u v) (.unknownVertex (describe u))
  | second {u v : K} (known : u ∈ g.vertices) (unknown : v ∉ g.vertices) :
    Refused g (.addEdge u v) (.unknownVertex (describe v))

/-- A step that succeeds leaves a graph that keys lead to, with the edges before. -/
theorem Built.run (built : g.Built) {c : Step K} (inside : c.Inside g.arena.size) (ran : c.run g = .ok t) :
    t.Built ∧ g.Extends t := by
  have married : ∀ {order : List Nat}, (∀ v ∈ order, v < g.arena.size) → (Step.marry order).run g = .ok t →
      t.Built ∧ g.Extends t := by
    intro order inside ran
    obtain ⟨s, turns, _, spec⟩ := built.marry inside
    rw [Step.run, turns] at ran
    obtain rfl := Except.ok.inj ran
    exact spec
  -- marrying all vertices is marrying in the order of insertion
  cases c with
  | addEdge u v =>
    obtain ⟨e, _, linked⟩ := bind_eq_ok.1 ran
    obtain rfl := Except.ok.inj linked
    exact ⟨.addEdge built ran, .link g e.1 e.2⟩
  | link u v =>
    rw [Step.run, built.checkedLink_eq inside.1 inside.2] at ran
    obtain rfl := Except.ok.inj ran
    exact ⟨built.link inside.1 inside.2, .link g u v⟩
  | moralize => exact married (fun _ => List.mem_range.1) ran
  | marry order => exact married inside ran

theorem addEdge_eq_error_iff {u v : K} {e : GraphError} : g.addEdge u v = .error e ↔ g.Refused (.addEdge u v) e := by
  rw [addEdge, bind_eq_error, Arena.edgeId_eq_error_iff]
  constructor
  · rintro ((⟨unknown, rfl⟩ | ⟨known, unknown, rfl⟩) | ⟨ids, _, linked⟩)
    · exact .first unknown
    · exact .second known unknown
    · cases linked
  · rintro (unknown | ⟨known, unknown⟩)
    · exact .inl (.inl ⟨unknown, rfl⟩)
    · exact .inl (.inr ⟨known, unknown, rfl⟩)

/-- A step between ids of the graph is refused for an unknown key only. -/
theorem Built.run_eq_error_iff (built : g.Built) {c : Step K} (inside : c.Inside g.arena.size) {e : GraphError} :
    c.run g = .error e ↔ g.Refused c e := by
  have married : ∀ {order : List Nat}, (∀ v ∈ order, v < g.arena.size) → (Step.marry order).run g ≠ .error e := by
    intro order inside failed
    obtain ⟨s, ran, _⟩ := built.marry inside
    rw [Step.run, ran] at failed
    cases failed
  cases c with
  | addEdge u v => exact addEdge_eq_error_iff
  | link u v =>
    rw [Step.run, built.checkedLink_eq inside.1 inside.2]
    exact ⟨(nomatch ·), (nomatch ·)⟩
  | moralize => exact ⟨fun failed => absurd failed (married fun _ => List.mem_range.1), (nomatch ·)⟩
  | marry order => exact ⟨fun failed => absurd failed (married inside), (nomatch ·)⟩

/-- In place a step comes to the same, and one that fails has written nothing. -/
theorem Built.perform_atomic (built : g.Built) {c : Step K} (inside : c.Inside g.arena.size) :
    c.perform.Atomic g (c.run g) := by
  have married : ∀ {order : List Nat}, (∀ v ∈ order, v < g.arena.size) →
      (Step.marry order : Step K).perform.Atomic g ((Step.marry order).run g) := by
    intro order inside
    obtain ⟨s, turns, played, _⟩ := built.marry inside
    rw [Step.run, turns]
    exact played
  unfold InPlace.Atomic
  have size := built.wellFormed.size
  cases c with
  | addEdge u v =>
    rw [Step.perform, InPlace.ask_bind, Step.run, Digraph.addEdge]
    cases ends : g.arena.edgeId (u, v) with
    | error e => rfl
    | ok ids => exact linkInPlace_eq (size.symm ▸ Arena.lt_size (Arena.edgeId_eq_ok_iff.1 ends).2) ids.1
  | link u v =>
    rw [Step.run, built.checkedLink_eq inside.1 inside.2]
    exact linkInPlace_eq (size.symm ▸ inside.2) u
  | moralize => exact married fun _ => List.mem_range.1
  | marry order => exact married inside

theorem Built.after (built : g.Built) {c : Step K} (inside : c.Inside g.arena.size) :
    (c.after g).Built ∧ g.Extends (c.after g) :=
  (built.perform_atomic inside).left_induction (P := fun t => t.Built ∧ g.Extends t) ⟨built, .refl g⟩
    fun _ => built.run inside

/-- So every run of steps between ids of the graph leads where keys lead, too. -/
theorem Built.foldl_after (built : g.Built) (steps : List (Step K)) (inside : ∀ c ∈ steps, c.Inside g.arena.size) :
    (steps.foldl Step.after g).Built ∧ g.Extends (steps.foldl Step.after g) := by
  induction steps generalizing g with
  | nil => exact ⟨built, .refl g⟩
  | cons c steps ih =>
    obtain ⟨first, inside⟩ := List.forall_mem_cons.1 inside
    obtain ⟨next, grown⟩ := built.after first
    obtain ⟨last, more⟩ := ih next (grown.arena.symm ▸ inside)
    exact ⟨last, grown.trans more⟩

/-! ### What callers see -/

/-- What callers see of a directed graph is told by its edges. -/
structure Faithful (g : Digraph K) : Prop where
  /-- The parents of a vertex are the sources of the edges into it, in the order of the edges. -/
  parents : ∀ v ∈ g.vertices, g.parents v = .ok (sources g.edges v)
  /-- The children of a vertex are the targets of the edges out of it, in the order of the edges. -/
  children : ∀ v ∈ g.vertices, g.children v = .ok (targets g.edges v)
  /-- A parent is listed once for each edge, and lists the child as often. -/
  counted : ∀ u ∈ g.vertices, ∀ v ∈ g.vertices, ∀ ps cs, g.parents v = .ok ps → g.children u = .ok cs →
    ps.count u = cs.count v ∧ ps.count u = g.edges.count (u, v)
  toGraph_vertices : g.toGraph.vertices = g.vertices
  toGraph_edges : g.toGraph.edges = g.edges
  toGraph_hasEdge : ∀ u v, g.toGraph.hasEdge u v = g.adjacent u v

namespace Built

theorem parents_eq (built : g.Built) {v : K} (hv : v ∈ g.vertices) : g.parents v = .ok (sources g.edges v) := by
  have inside := built.wellFormed.edgeIds_inside
  obtain ⟨i, hi⟩ := Arena.mem_keys_iff.1 hv
  rw [parents, Arena.id_eq_ok_iff.2 hi]
  show Except.ok (g.arena.keysOf (g.parentRows.get i)) = _
  rw [built.listsParents, Rows.get_parentsOf (fun e he => (inside e he).2), Arena.keysOf_sources inside hi]
  rfl

theorem children_eq (built : g.Built) {v : K} (hv : v ∈ g.vertices) : g.children v = .ok (targets g.edges v) := by
  obtain ⟨i, hi⟩ := Arena.mem_keys_iff.1 hv
  rw [children, Arena.id_eq_ok_iff.2 hi]
  show Except.ok (g.arena.keysOf (targets g.edgeIds.toList i)) = _
  rw [Arena.keysOf_targets built.wellFormed.edgeIds_inside hi]
  rfl

/-- Without directions the edges join what was adjacent; a key that is no vertex is refused alike. -/
theorem toGraph_hasEdge (built : g.Built) (u v : K) : g.toGraph.hasEdge u v = g.adjacent u v := by
  have wf := built.wellFormed
  have linked : ∀ i j, j ∈ g.toGraph.neighbourRows.get i ↔ i ∈ g.parentRows.get j ∨ j ∈ g.parentRows.get i := by
    intro i j
    rw [← wf.listed, ← wf.listed]
    exact (Graph.ofEdgeIds_wellFormed wf.edgeIds_inside).2 i j
  have arena : g.toGraph.arena = g.arena := by rw [toGraph, Graph.ofEdgeIds_eq]
  simp only [Graph.hasEdge, adjacent, arena, linked]

theorem faithful (built : g.Built) : g.Faithful where
  parents _ := built.parents_eq
  children _ := built.children_eq
  counted u hu v hv ps cs listed listed' := by
    rw [built.parents_eq hv] at listed
    rw [built.children_eq hu] at listed'
    obtain rfl := Except.ok.inj listed
    obtain rfl := Except.ok.inj listed'
    rw [count_sources, count_targets]
    exact ⟨rfl, rfl⟩
  toGraph_vertices := by rw [toGraph, Graph.ofEdgeIds_eq, Graph.vertices, vertices]
  toGraph_edges := by rw [toGraph, Graph.ofEdgeIds_eq, Graph.edges, edges, Array.toArray_toList]
  toGraph_hasEdge := built.toGraph_hasEdge

end Built

/-- **States.** In every state that steps between its own ids lead a directed graph to, its parents and children are
those of its edges, a parent is listed as often as it has the child, and without directions the same edges join what
is adjacent. Further steps only append edges. A step is refused for an unknown key only, and then it has written
nothing. -/
theorem parents_after_steps {vertices : List K} {edges : List (K × K)} (made : Digraph.ofEdges vertices edges = .ok g)
    (steps later : List (Step K)) (inside : ∀ c ∈ steps ++ later, c.Inside g.vertexCount) :
    let s := steps.foldl Step.after g
    let t := later.foldl Step.after s
    s.Faithful ∧ s.vertices = g.vertices ∧ s.Extends t ∧ s.edges <+: t.edges ∧
      ∀ c : Step K, c.Inside s.vertexCount →
        ∀ r, (c.perform s = .ok () r ↔ c.run s = .ok r) ∧ ∀ e, c.perform s = .error e r ↔ s.Refused c e ∧ r = s := by
  obtain ⟨first, second⟩ := List.forall_mem_append.1 inside
  obtain ⟨built, grown⟩ := (Built.ofEdges made).foldl_after steps first
  obtain ⟨_, more⟩ := built.foldl_after later fun c hc => grown.arena.symm ▸ second c hc
  refine ⟨built.faithful, congrArg (·.keys.toList) grown.arena, more, more.edges_prefix,
    fun c small r => ⟨(built.perform_atomic small).eq_ok_iff, fun e => ?_⟩⟩
  rw [(built.perform_atomic small).eq_error_iff, built.run_eq_error_iff small]

/-- In a graph with a cycle and a repeated edge the parents of one vertex are married twice over, a vertex becomes its
own parent, and later marriages take that up; edges with an unknown end change nothing. -/
theorem cycle_parents_after_steps : ∃ g : Digraph Char,
    Digraph.ofEdges ['a', 'b', 'c', 'd'] [('a', 'b'), ('a', 'b'), ('c', 'b'), ('b', 'a')] = .ok g ∧
      let s := [Step.addEdge 'a' 'x', .marry [1, 1], .link 3 3, .addEdge 'd' 'b'].foldl Step.after g
      let t := [Step.moralize, .addEdge 'x' 'a', .link 3 0, .marry [0, 3]].foldl Step.after s
      s.edges = [('a', 'b'), ('a', 'b'), ('c', 'b'), ('b', 'a'), ('a', 'c'), ('d', 'd'), ('d', 'b')] ∧
        t.edges = s.edges ++ [('a', 'd'), ('c', 'd'), ('d', 'a')] ∧
          s.Faithful ∧ s.vertices = g.vertices ∧ s.Extends t ∧ s.edges <+: t.edges ∧
            ∀ c : Step Char, c.Inside s.vertexCount →
              ∀ r, (c.perform s = .ok () r ↔ c.run s = .ok r) ∧
                ∀ e, c.perform s = .error e r ↔ s.Refused c e ∧ r = s := by
  have ran : (do
      let g ← Digraph.ofEdges ['a', 'b', 'c', 'd'] [('a', 'b'), ('a', 'b'), ('c', 'b'), ('b', 'a')]
      let s := [Step.addEdge 'a' 'x', .marry [1, 1], .link 3 3, .addEdge 'd' 'b'].foldl Step.after g
      let t := [Step.moralize, .addEdge 'x' 'a', .link 3 0, .marry [0, 3]].foldl Step.after s
      return (g.vertexCount, s.edges, t.edges)) = .ok (4,
        [('a', 'b'), ('a', 'b'), ('c', 'b'), ('b', 'a'), ('a', 'c'), ('d', 'd'), ('d', 'b')],
        [('a', 'b'), ('a', 'b'), ('c', 'b'), ('b', 'a'), ('a', 'c'), ('d', 'd'), ('d', 'b'), ('a', 'd'), ('c', 'd'),
          ('d', 'a')]) := by
    decide +kernel
  obtain ⟨g, made, ran⟩ := bind_eq_ok.1 ran
  obtain ⟨count, lists⟩ := Prod.mk.inj (Except.ok.inj ran)
  obtain ⟨first, second⟩ := Prod.mk.inj lists
  refine ⟨g, made, first, ?_, parents_after_steps made _ _ ?_⟩
  · rw [first]
    exact second
  · rw [count]
    decide

end Digraph
end CliqueTree
