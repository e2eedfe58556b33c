import CliqueTree.Table.DisjointSet

/-!
# Lightest spanning forests

Edges are taken by ascending weight, those of equal weight in the order in which they are given, and an edge
is selected when it joins two classes of vertices that no selected edge has joined yet. What is selected
connects all that the edges connect, without a cycle and at the least total weight.
-/

set_option autoImplicit false

namespace CliqueTree

/-- The edges of the list, in its order, that join two different classes when their turn comes. -/
def selectJoining : DisjointSet → List Edge → List Edge
  | _, [] => []
  | classes, (u, v) :: rest =>
    match classes.union u v with
    | (true, joined) => (u, v) :: selectJoining joined rest
    | (false, same) => selectJoining same rest

/-- Edges with weights, in ascending order of weight; equal weights stay in their order. -/
def byWeight {W : Type} [Ord W] (edges : List (W × Edge)) : List (W × Edge) :=
  edges.mergeSort fun a b => (compare a.1 b.1).isLE

/-- The edges of a lightest spanning forest over `n` vertices. The first end of an edge that is no vertex is
an error. -/
def spanningForest {W : Type} [Ord W] (n : Nat) (edges : List (W × Edge)) :
    Except GraphError (List Edge) :=
  match (edges.flatMap fun e => [e.2.1, e.2.2]).find? (n ≤ ·) with
  | some id => .error (.unknownVertex (describeId id))
  | none => .ok (selectJoining (.singletons n) ((byWeight edges).map (·.2)))

end CliqueTree
