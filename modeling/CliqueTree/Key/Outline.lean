import CliqueTree.Json.Codec

/-!
# Outlines

What a graph shows to those who draw it or lay it out: its vertices and its edges, by key, both in the order
of insertion. The JSON form of a graph starts with its outline.
-/

set_option autoImplicit false

namespace CliqueTree

/-- The vertices and edges of a graph, by key. -/
structure Outline (K : Type) where
  vertices : List K
  edges : List (K × K)

/-- The fields of a JSON object that hold the outline. -/
def Outline.fields {K : Type} [JsonCodec K] (o : Outline K) : List (String × Json) :=
  [("vertices", encode o.vertices), ("edges", encode o.edges)]

end CliqueTree
