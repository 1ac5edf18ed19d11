import SecureFusion.Library.Bytes
import SecureFusion.Sql.Scalar

/-!
# Binary form of values

The bytes that a value of a column is turned into before it is encrypted or
indexed: a text becomes its UTF-8 bytes, a word its little-endian bytes. A column
of 256-bit decimals or of structs has no binary form.
-/

namespace SecureFusion.Crypto

open Library Sql

/-- The bytes of a value, none inside if it is null; none if its type is not encoded. -/
def encodeToBinary : ScalarValue → Option (Option Bytes)
  | .null => some none
  | .boolean value => some (value.map fun flag => [if flag then 1 else 0])
  | .primitive (.decimal256 ..) _ => none
  | .primitive type value => some (value.map fun word => leBytes type.bytes word.toNat)
  | .text _ value => some (value.map utf8Bytes)
  | .bytes _ value => some value
  -- Elements that are null leave no bytes.
  | .float32List _ value => some (value.map fun words =>
    words.flatMap fun word => word.elim [] fun word => leBytes 4 word.toNat)
  | .struct _ => none

end SecureFusion.Crypto
