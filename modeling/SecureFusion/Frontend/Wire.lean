import SecureFusion.Library.Bytes
import SecureFusion.Library.Outcome
import SecureFusion.Sql.Scalar

/-!
# Wire format of the client protocol

The pieces that packets are made of: words in little-endian order, integers and byte
strings with an encoded length, and null bitmaps, which start at a bit offset that
depends on the side that sends them. Every reader gives back what was written and
leaves the bytes that follow; it never consumes fewer bytes than the writer uses.
-/

namespace SecureFusion.Frontend

open Library Sql List

variable {bytes front rest : Bytes} {value count : Nat} (word : BitVec (8 * count))

/-- Splits off a number of bytes, none if there are fewer. -/
def checkedEat (count : Nat) (bytes : Bytes) : Option (Bytes × Bytes) :=
  if count ≤ bytes.length then some (bytes.take count, bytes.drop count) else none

theorem checkedEat_append (length : front.length = count) (rest : Bytes) :
    checkedEat count (front ++ rest) = some (front, rest) := by
  subst length
  simp [checkedEat]

theorem append_of_checkedEat (eaten : checkedEat count bytes = some (front, rest)) :
    front.length = count ∧ bytes = front ++ rest := by
  unfold checkedEat at eaten
  split at eaten
  case isTrue enough =>
    cases eaten
    exact ⟨length_take_of_le enough, (take_append_drop count bytes).symm⟩
  case isFalse => cases eaten

/-! ## Words -/

def eatWord (count : Nat) (bytes : Bytes) : Option (BitVec (8 * count) × Bytes) := do
  let (word, rest) ← checkedEat count bytes
  some (BitVec.ofNat _ (ofLeBytes word), rest)

theorem toNat_lt_pow : word.toNat < 256 ^ count := by
  have bound := word.isLt
  rwa [Nat.pow_mul] at bound

@[simp] theorem eatWord_leBytes (rest : Bytes) :
    eatWord count (leBytes count word.toNat ++ rest) = some (word, rest) := by
  rw [eatWord, checkedEat_append (length_leBytes count word.toNat)]
  simp [ofLeBytes_leBytes, Nat.mod_eq_of_lt (toNat_lt_pow word)]

def eatPrimitive (type : PrimitiveType) (bytes : Bytes) :
    Option (BitVec type.width × Bytes) :=
  eatWord type.bytes bytes

@[simp] theorem eatPrimitive_leBytes {type : PrimitiveType} (word : BitVec type.width)
    (rest : Bytes) :
    eatPrimitive type (leBytes type.bytes word.toNat ++ rest) = some (word, rest) :=
  eatWord_leBytes word rest

theorem length_of_eatWord {word : BitVec (8 * count)}
    (eaten : eatWord count bytes = some (word, rest)) : bytes.length = count + rest.length := by
  simp only [eatWord, bind_some_iff, Option.some.injEq, Prod.mk.injEq] at eaten
  obtain ⟨⟨front, left⟩, split, _, rfl⟩ := eaten
  obtain ⟨length, rfl⟩ := append_of_checkedEat split
  rw [length_append, length]

/-! ## Encoded lengths -/

/-- An integer with its length encoded. -/
def lenencInt (value : Nat) : Bytes :=
  if value < 251 then [UInt8.ofNat value]
  else if value < 65536 then 0xFC :: leBytes 2 value
  else if value < 16777216 then 0xFD :: leBytes 3 value
  else 0xFE :: leBytes 8 value

def eatNat (count : Nat) (bytes : Bytes) : Option (Nat × Bytes) := do
  let (word, rest) ← checkedEat count bytes
  some (ofLeBytes word, rest)

/-- Reads an encoded integer. -/
def checkedEatLenencInt : Bytes → Option (Nat × Bytes)
  | [] => none
  | first :: rest =>
    if first.toNat < 251 then some (first.toNat, rest)
    else if first = 0xFC then eatNat 2 rest
    else if first = 0xFD then eatNat 3 rest
    else if first = 0xFE then eatNat 8 rest
    else none

/-- A byte string after its encoded length. -/
def lenencStr (bytes : Bytes) : Bytes := lenencInt bytes.length ++ bytes

/-- Reads a byte string after its length. -/
def checkedEatLenencStr (bytes : Bytes) : Option (Bytes × Bytes) := do
  let (length, rest) ← checkedEatLenencInt bytes
  checkedEat length rest

theorem eatNat_leBytes (fits : value < 256 ^ count) (rest : Bytes) :
    eatNat count (leBytes count value ++ rest) = some (value, rest) := by
  rw [eatNat, checkedEat_append (length_leBytes count value)]
  simp [ofLeBytes_leBytes, Nat.mod_eq_of_lt fits]

theorem checkedEatLenencInt_lenencInt (fits : value < 2 ^ 64) (rest : Bytes) :
    checkedEatLenencInt (lenencInt value ++ rest) = some (value, rest) := by
  unfold lenencInt
  split_ifs with one two three
  · have byte : (UInt8.ofNat value).toNat = value := UInt8.toNat_ofNat_of_lt (Nat.lt_trans one (by decide))
    show checkedEatLenencInt (UInt8.ofNat value :: rest) = _
    rw [checkedEatLenencInt, byte, if_pos one]
  · exact eatNat_leBytes (by omega) rest
  · exact eatNat_leBytes (by omega) rest
  · exact eatNat_leBytes (by omega) rest

theorem checkedEatLenencStr_lenencStr (fits : bytes.length < 2 ^ 64) (rest : Bytes) :
    checkedEatLenencStr (lenencStr bytes ++ rest) = some (bytes, rest) := by
  rw [checkedEatLenencStr, lenencStr, append_assoc, checkedEatLenencInt_lenencInt fits]
  exact checkedEat_append rfl rest

theorem length_of_eatNat (eaten : eatNat count bytes = some (value, rest)) :
    value < 256 ^ count ∧ bytes.length = count + rest.length := by
  simp only [eatNat, bind_some_iff, Option.some.injEq, Prod.mk.injEq] at eaten
  obtain ⟨⟨front, left⟩, split, rfl, rfl⟩ := eaten
  obtain ⟨rfl, rfl⟩ := append_of_checkedEat split
  exact ⟨ofLeBytes_lt front, length_append⟩

theorem length_of_checkedEatLenencInt (eaten : checkedEatLenencInt bytes = some (value, rest)) :
    (lenencInt value).length + rest.length ≤ bytes.length := by
  have most : ∀ {count : Nat}, value < 256 ^ count → count = 2 ∨ count = 3 ∨ count = 8 →
      (lenencInt value).length ≤ count + 1 := by
    intro count small which
    unfold lenencInt
    split_ifs <;> simp <;> rcases which with rfl | rfl | rfl <;> omega
  cases bytes with
  | nil => cases eaten
  | cons first tail =>
    simp only [checkedEatLenencInt] at eaten
    rw [length_cons]
    split_ifs at eaten with one two three four
    · cases eaten
      rw [lenencInt, if_pos one, length_singleton]
      omega
    · obtain ⟨small, length⟩ := length_of_eatNat eaten
      have shortest := most small (.inl rfl)
      omega
    · obtain ⟨small, length⟩ := length_of_eatNat eaten
      have shortest := most small (.inr (.inl rfl))
      omega
    · obtain ⟨small, length⟩ := length_of_eatNat eaten
      have shortest := most small (.inr (.inr rfl))
      omega

theorem length_of_checkedEatLenencStr {value : Bytes}
    (eaten : checkedEatLenencStr bytes = some (value, rest)) :
    (lenencStr value).length + rest.length ≤ bytes.length := by
  simp only [checkedEatLenencStr, bind_some_iff] at eaten
  obtain ⟨⟨length, left⟩, eatenInt, eatenBytes⟩ := eaten
  obtain ⟨rfl, rfl⟩ := append_of_checkedEat eatenBytes
  have whole := length_of_checkedEatLenencInt eatenInt
  rw [lenencStr, length_append]
  rw [length_append] at whole
  omega

theorem eq_of_checkedEatLenencStr {value : Bytes}
    (eaten : checkedEatLenencStr bytes = some (value, rest))
    (short : bytes.length ≤ value.length + rest.length + 2) :
    value.length < 251 ∧ bytes = UInt8.ofNat value.length :: (value ++ rest) := by
  simp only [checkedEatLenencStr, bind_some_iff] at eaten
  obtain ⟨⟨length, left⟩, eatenInt, eatenBytes⟩ := eaten
  obtain ⟨rfl, rfl⟩ := append_of_checkedEat eatenBytes
  have wide : ∀ {count : Nat} {tail : Bytes}, 2 ≤ count → tail.length + 1 = bytes.length →
      eatNat count tail ≠ some (value.length, value ++ rest) := by
    intro count tail large tailLength read
    have consumed := (length_of_eatNat read).2
    rw [length_append] at consumed
    omega
  cases bytes with
  | nil => cases eatenInt
  | cons first tail =>
    simp only [checkedEatLenencInt] at eatenInt
    split_ifs at eatenInt with one two three four
    · simp only [Option.some.injEq, Prod.mk.injEq] at eatenInt
      obtain ⟨length, rfl⟩ := eatenInt
      rw [← length, UInt8.ofNat_toNat]
      exact ⟨one, rfl⟩
    · exact (wide (by decide) rfl eatenInt).elim
    · exact (wide (by decide) rfl eatenInt).elim
    · exact (wide (by decide) rfl eatenInt).elim

/-! ## Null-terminated strings -/

def nullStr (bytes : Bytes) : Bytes := bytes ++ [0]

/-- Reads the bytes in front of the first null byte, none if there is no null byte. -/
def eatNullBytes : Bytes → Option (Bytes × Bytes)
  | [] => none
  | byte :: rest =>
    if byte = 0 then some ([], rest)
    else (eatNullBytes rest).map fun (front, left) => (byte :: front, left)

/-- Reads the bytes in front of the first null byte, all bytes if there is no null byte. -/
def eatNullStr (bytes : Bytes) : Bytes × Bytes :=
  (eatNullBytes bytes).getD (bytes, [])

theorem eatNullBytes_nullStr (free : 0 ∉ bytes) (rest : Bytes) :
    eatNullBytes (nullStr bytes ++ rest) = some (bytes, rest) := by
  induction bytes with
  | nil => rfl
  | cons byte others ih =>
    have nonzero : byte ≠ 0 := fun same => free (same ▸ mem_cons_self)
    have tail := ih fun isIn => free (mem_cons_of_mem _ isIn)
    change eatNullBytes (byte :: (nullStr others ++ rest)) = _
    rw [eatNullBytes, if_neg nonzero, tail]
    rfl

theorem append_of_eatNullBytes (eaten : eatNullBytes bytes = some (front, rest)) :
    bytes = nullStr front ++ rest := by
  induction bytes generalizing front with
  | nil => cases eaten
  | cons byte others ih =>
    rw [eatNullBytes] at eaten
    by_cases zero : byte = 0
    · rw [if_pos zero] at eaten
      cases eaten
      rw [zero]
      rfl
    · rw [if_neg zero] at eaten
      obtain ⟨⟨tail, left⟩, read, same⟩ := Option.map_eq_some_iff.mp eaten
      cases same
      rw [ih read]
      rfl

theorem eatNullStr_nullStr (free : 0 ∉ bytes) (rest : Bytes) :
    eatNullStr (nullStr bytes ++ rest) = (bytes, rest) := by
  rw [eatNullStr, eatNullBytes_nullStr free]
  rfl

theorem length_of_eatNullStr (eaten : eatNullStr bytes = (front, rest)) :
    front.length + rest.length ≤ bytes.length := by
  unfold eatNullStr at eaten
  cases read : eatNullBytes bytes with
  | none =>
    rw [read] at eaten
    cases eaten
    simp
  | some parts =>
    rw [read] at eaten
    cases eaten
    have length := congrArg length (append_of_eatNullBytes read)
    rw [length_append, nullStr, length_append, length_singleton] at length
    omega

/-! ## Texts -/

/-- The text of some bytes, if they are UTF-8. -/
def textOfUtf8 (bytes : Bytes) : Option String :=
  bytes.toByteArray.utf8Decode?.map fun chars => String.ofList chars.toList

@[simp] theorem textOfUtf8_utf8Bytes (text : String) : textOfUtf8 (utf8Bytes text) = some text := by
  have decoded : (utf8Bytes text).toByteArray.utf8Decode? = some text.toList.toArray :=
    utf8Decode?_utf8Encode
  rw [textOfUtf8, decoded]
  simp

theorem utf8Bytes_of_textOfUtf8 {text : String} (isText : textOfUtf8 bytes = some text) :
    utf8Bytes text = bytes := by
  simp only [textOfUtf8, Option.map_eq_some_iff] at isText
  obtain ⟨chars, decoded, rfl⟩ := isText
  have isSome : bytes.toByteArray.utf8Decode?.isSome := by rw [decoded]; rfl
  have encoded : chars.toList.utf8Encode = bytes.toByteArray := by
    have inverse := @ByteArray.utf8Encode_get_utf8Decode? bytes.toByteArray isSome
    simpa only [decoded, Option.get_some] using inverse
  have data : (chars.toList.flatMap String.utf8EncodeChar).toByteArray.data =
      bytes.toByteArray.data := congrArg ByteArray.data encoded
  rw [data_toByteArray, data_toByteArray] at data
  rw [utf8Bytes, String.toList_ofList]
  exact toArray_inj data

/-! ## Null bitmaps -/

/-- A bitmap with one bit for each column after an offset. -/
structure NullBitmap (offset : Nat) where
  bytes : Bytes

namespace NullBitmap

def bitmapLen (offset columns : Nat) : Nat := (columns + 7 + offset) / 8

variable {offset : Nat} {bitmap changed : NullBitmap offset} {column : Nat} {null : Bool}

def new (columns : Nat) : NullBitmap offset := ⟨List.replicate (bitmapLen offset columns) 0⟩

/-- Whether the bit of a column is set; columns beyond the bitmap have none. -/
def isNull (bitmap : NullBitmap offset) (column : Nat) : Bool :=
  (bitmap.bytes.getD ((column + offset) / 8) 0).toNat.testBit ((column + offset) % 8)

def changeBit (byte : UInt8) (position : Nat) (null : Bool) : UInt8 :=
  if null then byte ||| UInt8.ofNat (2 ^ position) else byte &&& ~~~UInt8.ofNat (2 ^ position)

/-- Changes the bit of a column; a column beyond the bitmap fails an assertion. -/
def set (bitmap : NullBitmap offset) (column : Nat) (null : Bool) : Option (NullBitmap offset) :=
  let byte := (column + offset) / 8
  if byte < bitmap.bytes.length then
    some ⟨bitmap.bytes.set byte
      (changeBit (bitmap.bytes.getD byte 0) ((column + offset) % 8) null)⟩
  else none

@[simp] theorem isNull_new (columns column : Nat) :
    (new columns : NullBitmap offset).isNull column = false := by
  have zero : (replicate (bitmapLen offset columns) (0 : UInt8)).getD
      ((column + offset) / 8) 0 = 0 := by
    rw [getD_eq_getElem?_getD, getElem?_replicate]
    split <;> rfl
  rw [isNull, new, zero]
  exact Nat.zero_testBit _

theorem testBit_changeBit (byte : UInt8) {changed : Nat} (small : changed < 8) (null : Bool)
    (position : Nat) (inByte : position < 8) :
    (changeBit byte changed null).toNat.testBit position =
      if position = changed then null else byte.toNat.testBit position := by
  have power : 2 ^ changed < 2 ^ 8 := Nat.pow_lt_pow_right (by decide) small
  have bit : (UInt8.ofNat (2 ^ changed)).toNat = 2 ^ changed := UInt8.toNat_ofNat_of_lt power
  cases null with
  | true =>
    rw [changeBit, if_pos rfl, UInt8.toNat_or, bit, Nat.testBit_or, Nat.testBit_two_pow]
    by_cases same : position = changed
    · simp [same]
    · simp [same, Ne.symm same]
  | false =>
    have complement : (~~~UInt8.ofNat (2 ^ changed)).toNat = 2 ^ 8 - (2 ^ changed + 1) := by
      have size : UInt8.size = 2 ^ 8 := rfl
      rw [UInt8.toNat_not, bit, size]
      omega
    rw [changeBit, if_neg Bool.false_ne_true, UInt8.toNat_and, complement, Nat.testBit_and,
      Nat.testBit_two_pow_sub_succ power, Nat.testBit_two_pow]
    by_cases same : position = changed
    · simp [same]
    · simp [same, Ne.symm same, inByte]

theorem isNull_set (made : bitmap.set column null = some changed) (other : Nat) :
    changed.isNull other = if other = column then null else bitmap.isNull other := by
  simp only [set] at made
  split at made
  case isFalse => cases made
  case isTrue inside =>
    cases made
    simp only [isNull]
    by_cases sameByte : (other + offset) / 8 = (column + offset) / 8
    · rw [sameByte, getD_eq_getElem?_getD, getElem?_set_self inside, Option.getD_some,
        testBit_changeBit _ (Nat.mod_lt _ (by decide)) _ _ (Nat.mod_lt _ (by decide))]
      have sameBit : (other + offset) % 8 = (column + offset) % 8 ↔ other = column := by omega
      simp only [sameBit]
    · have differ : other ≠ column := by rintro rfl; exact sameByte rfl
      rw [if_neg differ, getD_eq_getElem?_getD, getElem?_set_ne (Ne.symm sameByte),
        ← getD_eq_getElem?_getD]

theorem length_set (made : bitmap.set column null = some changed) :
    changed.bytes.length = bitmap.bytes.length := by
  simp only [set] at made
  split at made
  case isFalse => cases made
  case isTrue =>
    cases made
    exact length_set

theorem isSome_set (bitmap : NullBitmap offset) (column : Nat) (null : Bool) :
    (bitmap.set column null).isSome ↔ (column + offset) / 8 < bitmap.bytes.length := by
  simp only [set]
  split <;> simp_all

end NullBitmap

end SecureFusion.Frontend
