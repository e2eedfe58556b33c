import CliqueTree.Key.Basic

/-!
# The kinds of key

Signed and unsigned 64-bit integers, strings, characters, and pairs, lists and options of keys. Pairs and
lists are in lexicographic order, where a list comes before its extensions; an absent option comes first.
-/

set_option autoImplicit false

namespace CliqueTree

instance : VertexKey Int64 where
  decEq := inferInstance
  describe k := k.toInt.repr

instance : VertexKey UInt64 where
  decEq := inferInstance
  describe k := k.toNat.repr

instance : VertexKey String where
  decEq := inferInstance
  describe := Text.quoteString

instance : VertexKey Char where
  decEq := inferInstance
  describe := Text.quoteLetter

/-- The texts of a row of keys, with a comma and a space between two. -/
def describeRow {K : Type} [VertexKey K] (ks : List K) : String :=
  ", ".intercalate (ks.map describe)

instance {A B : Type} [VertexKey A] [VertexKey B] : VertexKey (A × B) :=
  letI : Ord (A × B) := lexOrd
  { decEq := inferInstance
    describe := fun k => "(" ++ describe k.1 ++ ", " ++ describe k.2 ++ ")" }

instance {K : Type} [VertexKey K] : VertexKey (List K) where
  decEq := inferInstance
  describe k := "[" ++ describeRow k ++ "]"

instance {K : Type} [VertexKey K] : VertexKey (Option K) where
  decEq := inferInstance
  describe
    | none => "None"
    | some k => "Some(" ++ describe k ++ ")"

end CliqueTree
