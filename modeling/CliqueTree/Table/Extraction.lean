import CliqueTree.Ascending
import CliqueTree.Table.Walk

/-!
# Maximal cliques

A clique is a set of vertices that are all linked to each other, here an ascending list of ids. `greedy`
lets each vertex of an order collect one maximal clique from its neighbours. Not every maximal clique is
found that way. In a chordal graph each of them is some vertex with its neighbours later in an elimination
order, and `missing` lists those that a list of maximal cliques lacks.
-/

set_option autoImplicit false

namespace CliqueTree
namespace Rows

/-- Adds `n` to the clique if it is new and linked to every member. -/
def collect (r : Rows) (clique : List Nat) (n : Nat) : List Nat :=
  if n ∉ clique ∧ ∀ c ∈ clique, c ∈ r.get n then clique ++ [n] else clique

/-- The clique that `seed` collects from its neighbours in the order of its row. -/
def greedyClique (r : Rows) (seed : Nat) : List Nat := ascending ((r.get seed).foldl r.collect [seed])

/-- The cliques that the vertices of `order` collect, each where it is first found. -/
def greedy (r : Rows) (order : List Nat) : Except GraphError (List (List Nat)) := do
  r.checkClosed order
  return distinct (order.map r.greedyClique)

/-- The entries that follow the last occurrence of `v`. -/
def after (order : List Nat) (v : Nat) : List Nat := (order.reverse.takeWhile (· ≠ v)).reverse

/-- A vertex with its neighbours later in the elimination order. -/
def laterClique (r : Rows) (elimination : List Nat) (v : Nat) : List Nat :=
  ascending ((r.get v).filter (· ∈ after elimination v) ++ [v])

/-- The candidates that are part of no clique found so far and of no longer candidate. -/
def keepMaximal (candidates : List (List Nat)) : List (List Nat) → List (List Nat) → List (List Nat)
  | _, [] => []
  | found, c :: rest =>
    if found.any (isSubset c) || candidates.any (fun d => c.length < d.length && isSubset c d) then
      keepMaximal candidates found rest
    else c :: keepMaximal candidates (found ++ [c]) rest

/-- The maximal cliques of an elimination order that `found` lacks, in that order. -/
def missing (r : Rows) (elimination : List Nat) (found : List (List Nat)) :
    Except GraphError (List (List Nat)) := do
  r.checkRows elimination
  let candidates := elimination.map (r.laterClique elimination)
  return keepMaximal candidates found candidates

end Rows
end CliqueTree
