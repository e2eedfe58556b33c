import CliqueTree.Hash.Xxh64
import CliqueTree.Json.Compact

/-!
# Digest of a JSON value

The 64-bit hash of the UTF-8 bytes of a value's compact text, and its form as sixteen hexadecimal
digits. Equal values have equal digests, and values share one only where the hash collides.
-/

set_option autoImplicit false

namespace CliqueTree

/-- Sixteen lower-case hexadecimal digits, most significant first. -/
def Hash.hex (h : UInt64) : String :=
  String.ofList ((List.range 16).reverse.map fun i => Nat.digitChar ((h.toNat >>> (4 * i)) % 16))

namespace Json

/-- The hash of the value's text. -/
def digest (v : Json) : UInt64 := Hash.xxh64 0 v.text.toUTF8.toList

/-- The hash of the value's text in hexadecimal digits. -/
def digestHex (v : Json) : String := Hash.hex v.digest

end Json
end CliqueTree
