import CliqueTree.Ascending
import CliqueTree.Json.Codec
import CliqueTree.Key.Instances

/-!
# Cliques

A set of keys, held as the list of its members. A clique made by `ofList` lists them in ascending order, each
once, so two such cliques are equal exactly when they have the same members. A clique read from JSON holds
its members as they are written. Cliques are keys in turn, in the lexicographic order of their members.
-/

set_option autoImplicit false

namespace CliqueTree

/-- A set of keys, by the list of its members. -/
@[ext] structure Clique (K : Type) where
  members : List K
  deriving DecidableEq

namespace Clique
variable {K : Type} [VertexKey K]

/-- The clique of the keys in a list. -/
def ofList (keys : List K) : Clique K := ⟨ascending keys⟩

def size (c : Clique K) : Nat := c.members.length

/-- Whether halving finds the key among the members. -/
def contains (c : Clique K) (k : K) : Bool := bisect k c.members

/-- The members that two cliques share. -/
def shared (c d : Clique K) : List K := common c.members d.members

/-- How many members of the first clique the second contains. -/
def overlap (c d : Clique K) : Nat := c.members.countP (d.contains ·)

/-- Whether each member of the first clique is one of the second. -/
def isSubset (c d : Clique K) : Bool := CliqueTree.isSubset c.members d.members

/-- The members in parentheses, with a comma between two. -/
def display (c : Clique K) : String := "(" ++ ",".intercalate (c.members.map describe) ++ ")"

instance : Ord (Clique K) := ⟨fun c d => compare c.members d.members⟩

instance : Std.TransOrd (Clique K) where
  eq_swap {c d} := @Std.OrientedOrd.eq_swap _ _ _ c.members d.members
  isLE_trans {c d e} := @Std.TransOrd.isLE_trans _ _ _ c.members d.members e.members

instance : Std.LawfulEqOrd (Clique K) where
  compare_self {c} := @Std.ReflOrd.compare_self _ _ _ c.members
  eq_of_compare h := Clique.ext (Std.LawfulEqOrd.eq_of_compare h)

instance : VertexKey (Clique K) where
  decEq := inferInstance
  describe c := "Clique([" ++ describeRow c.members ++ "])"

end Clique

/-- The array of the members, read as it is written. -/
instance {K : Type} [JsonCodec K] : JsonCodec (Clique K) where
  encode c := encode c.members
  decode? v := (decode? v).map Clique.mk
  decode?_encode c := by rw [JsonCodec.decode?_encode]; rfl

end CliqueTree
