/-!
# Errors

Why an operation on a graph is refused, and the message that tells it. A key is named by the text it is
shown by. An operation that is refused changes nothing: it returns an error in place of a graph.
-/

set_option autoImplicit false

namespace CliqueTree

/-- Why an operation on a graph is refused. -/
inductive GraphError where
  /-- The graph has no vertex with this key. -/
  | unknownVertex (key : String)
  /-- Cliques are listed for triangulated graphs only. -/
  | notTriangulated
  /-- A triangulated graph takes no further edge and is not triangulated again. -/
  | alreadyTriangulated
  /-- The search from the first vertex met only `reached` of `total` vertices. -/
  | disconnected (reached total : Nat)
  /-- A directed cycle runs through the vertex with this key. -/
  | cyclic (key : String)
  /-- An id that is no position of the table it is used on. -/
  | noSuchId (id : Nat)
  deriving DecidableEq, Repr

namespace GraphError

/-- The message that goes with an error. -/
def message : GraphError → String
  | .unknownVertex key => "Unknown vertex: " ++ key
  | .notTriangulated => "Graph must be triangulated before clique extraction"
  | .alreadyTriangulated => "Graph is already triangulated"
  | .disconnected reached total =>
    "Graph is disconnected: breadth-first search reached " ++ reached.repr ++ " of " ++ total.repr ++
      " vertices"
  | .cyclic key => "Directed cycle through vertex " ++ key
  | .noSuchId id => "No vertex has id " ++ id.repr

end GraphError
end CliqueTree
