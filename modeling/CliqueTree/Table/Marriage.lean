import CliqueTree.Table.Growth

/-!
# Marrying parents

Two parents of a common child that are not adjacent are married: a link is added from the one that is
listed earlier to the later one. The parents of each child are read once, when its turn comes; whether two
of them are adjacent is read at the moment their pair is looked at, so a link added before counts.
-/

set_option autoImplicit false

namespace CliqueTree
namespace Growth
variable {G : Type} [ParentLinks G]

/-- Links `a` to `b` unless they are the same or one of them is a parent of the other. The row of `b` is
read first, and that of `a` only if it is needed. -/
def marryPair (s : Growth G) (a b : Nat) : Except GraphError (Growth G) := do
  if a = b then return s
  if a ∈ (← (ParentLinks.parents s.graph).row b) then return s
  if b ∈ (← (ParentLinks.parents s.graph).row a) then return s
  return ⟨ParentLinks.link s.graph a b, s.added.push (a, b)⟩

/-- Marries the parents of `v`. -/
def marryParents (s : Growth G) (v : Nat) : Except GraphError (Growth G) := do
  (pairs (← (ParentLinks.parents s.graph).row v)).foldlM (fun s p => s.marryPair p.1 p.2) s

end Growth

/-- Marries the parents of each vertex of `order` in turn. -/
def marry {G : Type} [ParentLinks G] (g : G) (order : List Nat) : Except GraphError (Growth G) :=
  order.foldlM Growth.marryParents ⟨g, #[]⟩

end CliqueTree
