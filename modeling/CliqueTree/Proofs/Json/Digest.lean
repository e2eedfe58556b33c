import CliqueTree.Json.Digest
import CliqueTree.Proofs.Json.Compact

/-!
# What a digest tells

The digest of a value is the hash of the bytes of its text. Text and bytes determine each other, and so do the hash and
its sixteen digits (`Hash.hex_inj`). So two values with the same digest are the same unless their bytes, which then
differ, collide (`Plain.digestHex_eq_iff`).
-/

set_option autoImplicit false

namespace CliqueTree

namespace Hash

/-- Two different lists of bytes with the same hash. -/
def Collide (a b : List UInt8) : Prop := a ≠ b ∧ xxh64 0 a = xxh64 0 b

theorem length_hex (h : UInt64) : (hex h).length = 16 := by simp [hex]

theorem digitChar_inj : ∀ a < 16, ∀ b < 16, Nat.digitChar a = Nat.digitChar b → a = b := by decide

/-- The digits determine the hash. -/
theorem hex_inj {h h' : UInt64} : hex h = hex h' ↔ h = h' := by
  constructor
  · intro same
    have digits : ∀ i < 16, h.toNat >>> (4 * i) % 2 ^ 4 = h'.toNat >>> (4 * i) % 2 ^ 4 := by
      intro i hi
      rw [hex, hex, String.ofList_inj, List.map_inj_left] at same
      have digit := same i (List.mem_reverse.2 (List.mem_range.2 hi))
      exact digitChar_inj _ (Nat.mod_lt _ (by decide)) _ (Nat.mod_lt _ (by decide)) digit
    apply UInt64.toNat_inj.1
    apply Nat.eq_of_testBit_eq
    intro k
    by_cases hk : k < 64
    · -- the bit is bit `k % 4` of digit `k / 4`
      have bit : ∀ n : Nat, n.testBit k = (n >>> (4 * (k / 4)) % 2 ^ 4).testBit (k % 4) := by
        intro n
        rw [Nat.testBit_mod_two_pow, Nat.testBit_shiftRight, decide_eq_true (Nat.mod_lt k (by decide)), Bool.true_and,
          Nat.div_add_mod]
      rw [bit, bit, digits (k / 4) (by omega)]
    · have high : ∀ x : UInt64, x.toNat.testBit k = false := by
        intro x
        apply Nat.testBit_lt_two_pow
        exact Nat.lt_of_lt_of_le x.toNat_lt (Nat.pow_le_pow_right (by decide) (by omega))
      rw [high, high]
  · rintro rfl
    rfl

end Hash

/-- The list of a byte array is the list of its data. -/
theorem ByteArray.toList_eq (b : ByteArray) : b.toList = b.data.toList := by
  have loop : ∀ i before, ByteArray.toList.loop b i before = before.reverse ++ b.data.toList.drop i := by
    intro i before
    fun_induction ByteArray.toList.loop b i before with
    | case1 i before inside ih =>
      have small : i < b.data.toList.length := by
        rw [Array.length_toList]
        exact inside
      have byte : b.get! i = b.data.toList[i] := getElem!_pos b.data i inside
      rw [ih, byte, List.reverse_cons, List.append_assoc, List.singleton_append,
        List.getElem_cons_drop]
    | case2 i before past =>
      have none : b.data.toList.drop i = [] := by
        apply List.drop_eq_nil_of_le
        rw [Array.length_toList]
        exact Nat.le_of_not_lt past
      rw [none, List.append_nil]
  exact loop 0 []

namespace Json

/-- The bytes of which the digest is the hash. -/
def bytes (v : Json) : List UInt8 := v.text.toUTF8.toList

theorem digestHex_eq (v : Json) : v.digestHex = Hash.hex (Hash.xxh64 0 v.bytes) := rfl

theorem bytes_inj {v w : Json} : v.bytes = w.bytes ↔ v.text = w.text := by
  constructor
  · intro same
    rw [bytes, bytes, ByteArray.toList_eq, ByteArray.toList_eq, Array.toList_inj] at same
    exact String.toByteArray_inj.1 (ByteArray.ext same)
  · intro same
    rw [bytes, bytes, same]

/-- Values share a digest when they are the same, and otherwise only when their bytes collide. -/
theorem Plain.digestHex_eq_iff {v w : Json} (hv : v.Plain) (hw : w.Plain) :
    v.digestHex = w.digestHex ↔ v = w ∨ Hash.Collide v.bytes w.bytes := by
  rw [digestHex_eq, digestHex_eq, Hash.hex_inj, Hash.Collide, Ne, bytes_inj, hv.text_inj hw]
  constructor
  · intro same
    by_cases equal : v = w
    · exact .inl equal
    · exact .inr ⟨equal, same⟩
  · rintro (rfl | ⟨_, same⟩)
    · rfl
    · exact same

end Json
end CliqueTree
