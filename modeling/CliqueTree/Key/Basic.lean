import CliqueTree.Text.Quoted

/-!
# Vertex keys

Whatever a caller names vertices by. The graphs look at a key in three ways only: whether two keys are
equal, which of them comes first, and how a key is shown in an error. The order is total, and keys that
compare as equal are equal.
-/

set_option autoImplicit false

namespace CliqueTree

/-- Keys with a total order and a text to be shown by. -/
class VertexKey (K : Type) extends Ord K, Std.TransCmp (compare : K → K → Ordering),
    Std.LawfulEqCmp (compare : K → K → Ordering) where
  decEq : DecidableEq K
  /-- The text by which a key is shown. -/
  describe : K → String

instance (K : Type) [VertexKey K] : DecidableEq K := VertexKey.decEq

export VertexKey (describe)

end CliqueTree
