import CliqueTree.JunctionTree.Basic
import CliqueTree.Proofs.Json.Digest
import Mathlib.Data.List.Basic

/-!
# What a fingerprint tells

A junction tree is identified by the digest of three things, its policy, its cliques and its edges, and a policy by the
digest of its three fields. For keys whose JSON forms hold no number but integers (`PlainCodec`), and all kinds of key
here are such, the text under the digest tells these things exactly (`identity_text_eq_iff`,
`OrderPolicy.toJson_text_eq_iff`): keys, lists and pairs are read back from the text, whatever characters the keys hold.
So what differs shares a digest only when the hash collides on two different lists of bytes.
-/

set_option autoImplicit false

namespace CliqueTree

/-- Kinds of key whose JSON forms hold no number but integers. -/
class PlainCodec (K : Type) [JsonCodec K] : Prop where
  plain_encode : ∀ k : K, (encode k).Plain

namespace PlainCodec
open Json (Plain)

instance : PlainCodec Int64 where
  plain_encode k := .int k.toInt

instance : PlainCodec UInt64 where
  plain_encode k := .int k.toNat

instance : PlainCodec String where
  plain_encode := .str

instance : PlainCodec Char where
  plain_encode c := .str (String.singleton c)

instance {A B : Type} [JsonCodec A] [JsonCodec B] [PlainCodec A] [PlainCodec B] : PlainCodec (A × B) where
  plain_encode k := by
    refine .arr fun v hv => ?_
    rcases List.mem_pair.1 hv with rfl | rfl
    · exact plain_encode k.1
    · exact plain_encode k.2

instance {K : Type} [JsonCodec K] [PlainCodec K] : PlainCodec (List K) where
  plain_encode ks := by
    refine .arr fun v hv => ?_
    obtain ⟨k, _, rfl⟩ := List.mem_map.1 hv
    exact plain_encode k

instance : PlainCodec (Option Int64) where
  plain_encode
    | none => .null
    | some k => .int k.toInt

instance {K : Type} [JsonCodec K] [PlainCodec K] : PlainCodec (Clique K) where
  plain_encode c := plain_encode c.members

end PlainCodec

namespace OrderPolicy

theorem plain_toJson (p : OrderPolicy) : p.toJson.Plain := by
  refine .obj fun f hf => ?_
  simp only [List.mem_cons, List.not_mem_nil, or_false] at hf
  rcases hf with rfl | rfl | rfl
  · exact .str p.version
  · exact .bool p.reorder
  · exact .str p.disconnected.tag

theorem toJson_inj {p q : OrderPolicy} : p.toJson = q.toJson ↔ p = q := by
  constructor
  · intro same
    have read := ofJson?_toJson p
    rw [same, ofJson?_toJson] at read
    exact (Option.some.inj read).symm
  · rintro rfl
    rfl

/-- The text of a policy tells its fields. -/
theorem toJson_text_eq_iff {p q : OrderPolicy} : p.toJson.text = q.toJson.text ↔
    p.version = q.version ∧ p.reorder = q.reorder ∧ p.disconnected = q.disconnected := by
  rw [p.plain_toJson.text_inj q.plain_toJson, toJson_inj]
  cases p
  cases q
  simp

theorem paramsHash_eq_iff {p q : OrderPolicy} : p.paramsHash = q.paramsHash ↔
    (p.version = q.version ∧ p.reorder = q.reorder ∧ p.disconnected = q.disconnected) ∨
      Hash.Collide p.toJson.bytes q.toJson.bytes := by
  rw [paramsHash, paramsHash, p.plain_toJson.digestHex_eq_iff q.plain_toJson,
    ← p.plain_toJson.text_inj q.plain_toJson, toJson_text_eq_iff]

end OrderPolicy

namespace JunctionTree
variable {K : Type}

/-- The two trees have the same policy, the same cliques and the same edges. -/
structure SameIdentity (t t' : JunctionTree K) : Prop where
  paramsHash : t.paramsHash = t'.paramsHash
  cliques : t.cliques = t'.cliques
  edges : t.edges = t'.edges

variable [JsonCodec K]

theorem identity_inj {t t' : JunctionTree K} : t.identity = t'.identity ↔ SameIdentity t t' := by
  constructor
  · intro same
    simp only [identity, Json.arr.injEq, List.cons.injEq, and_true] at same
    obtain ⟨policy, cliques, edges⟩ := same
    exact ⟨JsonCodec.encode_injective policy, JsonCodec.encode_injective cliques, JsonCodec.encode_injective edges⟩
  · rintro ⟨policy, cliques, edges⟩
    rw [identity, identity, policy, cliques, edges]

variable [PlainCodec K]

theorem plain_identity (t : JunctionTree K) : t.identity.Plain := by
  refine .arr fun v hv => ?_
  simp only [List.mem_cons, List.not_mem_nil, or_false] at hv
  rcases hv with rfl | rfl | rfl
  · exact PlainCodec.plain_encode t.paramsHash
  · exact PlainCodec.plain_encode t.cliques
  · exact PlainCodec.plain_encode t.edges

/-- The text of what identifies a tree tells it. -/
theorem identity_text_eq_iff {t t' : JunctionTree K} : t.identity.text = t'.identity.text ↔ SameIdentity t t' := by
  rw [t.plain_identity.text_inj t'.plain_identity, identity_inj]

theorem fingerprint_eq_iff {t t' : JunctionTree K} : t.fingerprint = t'.fingerprint ↔
    SameIdentity t t' ∨ Hash.Collide t.identity.bytes t'.identity.bytes := by
  rw [fingerprint, fingerprint, t.plain_identity.digestHex_eq_iff t'.plain_identity, identity_inj]

/-- Under keys of this kind a fingerprint is the digest of a text that tells the tree, and trees that differ share a
fingerprint only where the hash collides. -/
def FingerprintsTell (K : Type) [JsonCodec K] : Prop :=
  ∀ t t' : JunctionTree K, t.fingerprint = Hash.hex (Hash.xxh64 0 t.identity.bytes) ∧
    (t.identity.text = t'.identity.text ↔ SameIdentity t t') ∧
    (t.fingerprint = t'.fingerprint ↔ SameIdentity t t' ∨ Hash.Collide t.identity.bytes t'.identity.bytes)

theorem fingerprintsTell (K : Type) [JsonCodec K] [PlainCodec K] : FingerprintsTell K :=
  fun _ _ => ⟨rfl, identity_text_eq_iff, fingerprint_eq_iff⟩

/-- **Fingerprints are unambiguous.** For each kind of key, the text under the fingerprint is the same for two trees if
and only if they have the same policy digest, the same cliques and the same edges; the text under the digest of a policy
is the same for two policies if and only if all their fields are. Sixteen digits determine the hash. So what differs
shares a digest only through a collision of the hash. -/
theorem fingerprint_unambiguous :
    (FingerprintsTell Int64 ∧ FingerprintsTell UInt64 ∧ FingerprintsTell String ∧ FingerprintsTell Char ∧
      FingerprintsTell (Int64 × Int64) ∧ FingerprintsTell (List Int64) ∧ FingerprintsTell (Option Int64)) ∧
    (∀ p q : OrderPolicy, p.paramsHash = Hash.hex (Hash.xxh64 0 p.toJson.bytes) ∧
      (p.toJson.text = q.toJson.text ↔
        p.version = q.version ∧ p.reorder = q.reorder ∧ p.disconnected = q.disconnected) ∧
      (p.paramsHash = q.paramsHash ↔
        (p.version = q.version ∧ p.reorder = q.reorder ∧ p.disconnected = q.disconnected) ∨
          Hash.Collide p.toJson.bytes q.toJson.bytes)) ∧
    ∀ h h' : UInt64, (Hash.hex h).length = 16 ∧ (Hash.hex h = Hash.hex h' ↔ h = h') := by
  refine ⟨⟨?_, ?_, ?_, ?_, ?_, ?_, ?_⟩, fun p q => ?_, fun h h' => ⟨Hash.length_hex h, Hash.hex_inj⟩⟩
  iterate 7 exact fingerprintsTell _
  exact ⟨rfl, OrderPolicy.toJson_text_eq_iff, OrderPolicy.paramsHash_eq_iff⟩

end JunctionTree
end CliqueTree
