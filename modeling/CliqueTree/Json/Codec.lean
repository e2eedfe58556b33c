import CliqueTree.Json.Basic

/-!
# JSON forms of keys

How each kind of key is written as a JSON value and read back. Reading accepts one kind of value for each
kind of key, integers only inside their 64-bit range, and returns every key that was written
(`decode?_encode`); so keys with the same form are equal.
-/

set_option autoImplicit false

namespace CliqueTree

/-- A JSON form of the keys in `K`. -/
class JsonCodec (K : Type) where
  encode : K → Json
  decode? : Json → Option K
  /-- Reading takes back what was written. -/
  decode?_encode : ∀ k, decode? (encode k) = some k

namespace JsonCodec

theorem encode_injective {K : Type} [JsonCodec K] {a b : K} (h : encode a = encode b) : a = b := by
  have hb := decode?_encode b
  rw [← h, decode?_encode a] at hb
  exact Option.some.inj hb

/-- Every item of an array, or nothing when one of them has the wrong form. -/
def decodeItems? {K : Type} [JsonCodec K] : List Json → Option (List K)
  | [] => some []
  | v :: rest => do return (← decode? v) :: (← decodeItems? rest)

theorem decodeItems?_map_encode {K : Type} [JsonCodec K] (ks : List K) :
    decodeItems? (ks.map encode) = some ks := by
  induction ks with
  | nil => rfl
  | cons k ks ih => simp [decodeItems?, decode?_encode, ih]

/-- An integer between the least and the greatest signed one of 64 bits. -/
instance : JsonCodec Int64 where
  encode k := .int k.toInt
  decode?
    | .int i =>
      if Int64.minValue.toInt ≤ i ∧ i ≤ Int64.maxValue.toInt then some (Int64.ofInt i) else none
    | _ => none
  decode?_encode k := by
    have range : Int64.minValue.toInt ≤ k.toInt ∧ k.toInt ≤ Int64.maxValue.toInt :=
      ⟨k.minValue_le_toInt, k.toInt_le⟩
    simp only [if_pos range, Int64.ofInt_toInt]

/-- An unsigned integer of 64 bits. -/
instance : JsonCodec UInt64 where
  encode k := .int k.toNat
  decode?
    | .int (.ofNat n) => if n < UInt64.size then some (UInt64.ofNat n) else none
    | _ => none
  decode?_encode k := by
    have small : k.toNat < UInt64.size := k.toNat_lt
    change (if k.toNat < UInt64.size then some (UInt64.ofNat k.toNat) else none) = some k
    rw [if_pos small, UInt64.ofNat_toNat]

instance : JsonCodec String where
  encode := .str
  decode? := Json.str?
  decode?_encode _ := rfl

/-- A string of one character. -/
instance : JsonCodec Char where
  encode c := .str (String.singleton c)
  decode?
    | .str s =>
      match s.toList with
      | [c] => some c
      | _ => none
    | _ => none
  decode?_encode c := by simp

/-- An array of two. -/
instance {A B : Type} [JsonCodec A] [JsonCodec B] : JsonCodec (A × B) where
  encode k := .arr [encode k.1, encode k.2]
  decode?
    | .arr [a, b] => do return (← decode? a, ← decode? b)
    | _ => none
  decode?_encode k := by simp [decode?_encode]

instance {K : Type} [JsonCodec K] : JsonCodec (List K) where
  encode ks := .arr (ks.map encode)
  decode?
    | .arr items => decodeItems? items
    | _ => none
  decode?_encode := decodeItems?_map_encode

/-- An integer, or null for none. -/
instance : JsonCodec (Option Int64) where
  encode
    | none => .null
    | some k => encode k
  decode?
    | .null => some none
    | v => (decode? v).map some
  decode?_encode
    | none => rfl
    | some k => by
      have h := decode?_encode k
      change ((decode? (encode k) : Option Int64).map some) = _
      rw [h]; rfl

end JsonCodec

export JsonCodec (encode decode?)

end CliqueTree
