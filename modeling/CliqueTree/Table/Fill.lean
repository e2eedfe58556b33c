import CliqueTree.Table.Growth

/-!
# The elimination game

Vertices leave in a given order. When one leaves, every two of its neighbours that are still there and not
linked are linked. Afterwards no vertex has two neighbours after it in the order that are not linked, and
so no cycle of four or more vertices lacks a chord. The neighbours of a vertex are read when it leaves;
whether two of them are linked is read when their pair is looked at.
-/

set_option autoImplicit false

namespace CliqueTree
namespace Growth
variable {G : Type} [NeighbourLinks G]

/-- Links two ids that differ and of which the first does not list the second. -/
def fillPair (s : Growth G) (p : Edge) : Growth G :=
  if p.1 = p.2 ∨ p.2 ∈ (NeighbourLinks.neighbours s.graph).get p.1 then s
  else ⟨NeighbourLinks.link s.graph p.1 p.2, s.added.push p⟩

/-- Links every two ids of a list. -/
def fillAmong (s : Growth G) (row : List Nat) : Growth G := (pairs row).foldl fillPair s

/-- Lets the vertices leave one after the other; those of `gone` have left before. -/
def eliminate (gone : List Nat) (s : Growth G) : List Nat → Growth G
  | [] => s
  | v :: order =>
    let row := (NeighbourLinks.neighbours s.graph).get v
    (s.fillAmong (row.filter (· ∉ v :: gone))).eliminate (v :: gone) order

end Growth

/-- Plays the game on `g` in the given order. Each vertex of the order must have a row, as must the
neighbours it lists before the game; the links of the game join only such neighbours. -/
def fill {G : Type} [NeighbourLinks G] (g : G) (order : List Nat) : Except GraphError (Growth G) := do
  (NeighbourLinks.neighbours g).checkClosed order
  return Growth.eliminate [] ⟨g, #[]⟩ order

end CliqueTree
