import CliqueTree.Table.Rows

/-!
# Structures that take up links

Marrying parents and filling in work on anything that has rows of ids and can take up one more link: the
rows alone, or a whole graph. A directed link puts its first end among the parents of its second, an
undirected one puts each end among the neighbours of the other, and the laws of the two classes say so.
`Growth` keeps, beside the structure, the links that it has been given, in order.
-/

set_option autoImplicit false

namespace CliqueTree

/-- Structures with a list of parents per vertex. -/
class ParentLinks (G : Type) where
  parents : G → Rows
  /-- Adds a link from `u` to `v`. -/
  link : G → Nat → Nat → G
  parents_link : ∀ g u v, parents (link g u v) = (parents g).add v u

/-- Structures with a list of neighbours per vertex. -/
class NeighbourLinks (G : Type) where
  neighbours : G → Rows
  /-- Adds a link between `u` and `v`. -/
  link : G → Nat → Nat → G
  neighbours_link : ∀ g u v, neighbours (link g u v) = ((neighbours g).add u v).add v u

instance : ParentLinks Rows where
  parents r := r
  link r u v := r.add v u
  parents_link _ _ _ := rfl

instance : NeighbourLinks Rows where
  neighbours r := r
  link r u v := (r.add u v).add v u
  neighbours_link _ _ _ := rfl

section Checked
variable {G : Type}

/-- Adds a directed link between two ids that have rows. -/
def ParentLinks.checkedLink [ParentLinks G] (g : G) (u v : Nat) : Except GraphError G := do
  let n := (parents g).size
  return link g (← Rows.checkId n u) (← Rows.checkId n v)

/-- Adds an undirected link between two ids that have rows. -/
def NeighbourLinks.checkedLink [NeighbourLinks G] (g : G) (u v : Nat) : Except GraphError G := do
  let n := (neighbours g).size
  return link g (← Rows.checkId n u) (← Rows.checkId n v)

/-- Whether the row of `u`, which must have one, names `v`. -/
def NeighbourLinks.isLinked [NeighbourLinks G] (g : G) (u v : Nat) : Except GraphError Bool := do
  return v ∈ (← (neighbours g).row u)

end Checked

/-- A structure that takes up links, and those it has been given, in order. -/
structure Growth (G : Type) where
  graph : G
  added : Array Edge := #[]
  deriving DecidableEq, Repr

/-- The pairs of an entry and a later entry, the earlier entry first; pairs with the same first entry stand
together, in the order of the list. -/
def pairs {α : Type} : List α → List (α × α)
  | [] => []
  | a :: rest => rest.map (a, ·) ++ pairs rest

end CliqueTree
