import CliqueTree.Proofs.JunctionTree.Runs

/-!
# Marrying joins no components

A marriage joins two vertices of one family, and whoever is in a family is joined to its vertex: by an edge, or by a
marriage at an earlier turn, in a family to which both belonged (`joined_of_marriedAt`). So the moral graph connects
just what the edges join (`linked_moralRows_iff`), for ids and for keys alike (`joined_iff`).
-/

set_option autoImplicit false

namespace CliqueTree
open Relation (ReflTransGen)

namespace Digraph
variable {K : Type} {g : Digraph K} {i j : Nat} {u v : K}

theorem getElem?_vertices (g : Digraph K) (i : Nat) : g.vertices[i]? = g.arena.key? i := Array.getElem?_toList

/-- What is joined to a vertex is a vertex. -/
theorem mem_vertices_of_joined (way : Joined g.edges u v) (hu : u ∈ g.vertices) : v ∈ g.vertices :=
  way.closed (P := (· ∈ g.vertices)) (fun _ he => mem_vertices_of_mem_edges he) hu

/-- Who is married at the turn of a vertex is joined to it. -/
theorem joined_of_marriedAt (wf : g.WellFormed) (w : Nat) (hw : w < g.arena.size) :
    ∀ a b, MarriedAt g w a b → Joined g.edgeIds.toList a w := by
  induction w using Nat.strongRecOn with
  | _ w ih =>
    intro a b both
    rcases (inside_of_marriedAt wf hw both).2 with parent | ⟨w', earlier, added⟩
    · exact .of_mem ((wf.listed a w).2 parent)
    · -- at an earlier turn both were in one family
      have ih := ih w' earlier (Nat.lt_trans earlier hw)
      exact (ih a w added).trans (ih w a added.symm).symm

variable [VertexKey K]

/-- A way along the edges is one between the ids of its ends. -/
theorem joined_edgeIds (wf : g.WellFormed) (hi : g.vertices[i]? = some u) (hj : g.vertices[j]? = some v)
    (way : Joined g.edges u v) : Joined g.edgeIds.toList i j := by
  have inj : ∀ i j, i < g.arena.size → j < g.arena.size → g.arena.key? i = g.arena.key? j → i = j := by
    intro i j small _ same
    obtain ⟨k, hk⟩ := Arena.exists_key? small
    exact Arena.key?_inj hk (same ▸ hk)
  rw [getElem?_vertices] at hi hj
  exact way.of_map_eq (Arena.map_edgesOf wf.edgeIds_inside) inj wf.edgeIds_inside (Arena.lt_size hi) (Arena.lt_size hj)
    hi.symm hj.symm

/-- A way between ids is one between their keys. -/
theorem joined_iff (wf : g.WellFormed) (hi : g.vertices[i]? = some u) (hj : g.vertices[j]? = some v) :
    Joined g.edges u v ↔ Joined g.edgeIds.toList i j := by
  refine ⟨joined_edgeIds wf hi hj, fun way => ?_⟩
  rw [getElem?_vertices] at hi hj
  exact way.of_map_eq (P := fun _ => True) (Arena.map_edgesOf wf.edgeIds_inside).symm
    (fun _ _ _ _ => Option.some.inj) (fun _ _ => ⟨trivial, trivial⟩) trivial trivial hi hj

/-- The rows of the moral graph link what the edges join. -/
theorem moralRows_spec (built : g.Built) : g.moralRows.size = g.arena.size ∧ g.moralRows.Symmetric ∧
    ∀ i j, Touching g.edgeIds.toList i j → g.moralRows.Linked i j := by
  have wf := built.wellFormed
  obtain ⟨m, moral, open_wf, _, arena, rows⟩ := exists_openMoralGraph built
  obtain ⟨_, again, joins⟩ := exists_moralGraph wf
  obtain rfl := Except.ok.inj (moral.symm.trans again)
  rw [← rows]
  refine ⟨open_wf.size.trans (congrArg Arena.size arena), open_wf.symm, fun i j touching => ?_⟩
  exact (joins.linked i j).2 (.inl (touching.imp (wf.listed i j).1 (wf.listed j i).1))

/-- They link nothing that the edges leave apart. -/
theorem joined_of_linked (built : g.Built) (link : g.moralRows.Linked i j) : Joined g.edgeIds.toList i j := by
  have wf := built.wellFormed
  obtain ⟨m, moral, _, _, _, rows⟩ := exists_openMoralGraph built
  obtain ⟨_, again, joins⟩ := exists_moralGraph wf
  obtain rfl := Except.ok.inj (moral.symm.trans again)
  rw [← rows] at link
  rcases (joins.linked i j).1 link with beside | ⟨w, hw, both⟩
  · exact .of_touching (beside.imp (wf.listed i j).2 (wf.listed j i).2)
  · exact (joined_of_marriedAt wf w hw i j both).trans (joined_of_marriedAt wf w hw j i both.symm).symm

/-- The moral graph connects what the edges join, and nothing else. -/
theorem linked_moralRows_iff (built : g.Built) : ReflTransGen g.moralRows.Linked i j ↔ Joined g.edgeIds.toList i j := by
  constructor
  · exact ReflTransGen.lift' id (fun _ _ link => joined_of_linked built link) i j
  · exact ReflTransGen.mono (moralRows_spec built).2.2 i j

theorem linked_of_joined (built : g.Built) (hi : g.vertices[i]? = some u) (hj : g.vertices[j]? = some v)
    (way : Joined g.edges u v) : ReflTransGen g.moralRows.Linked i j :=
  (linked_moralRows_iff built).2 (joined_edgeIds built.wellFormed hi hj way)

end Digraph
end CliqueTree
