import Mathlib.Algebra.GroupWithZero.Nat
import Mathlib.Data.List.Basic

/-!
# Bytes of numbers and texts

The little-endian bytes of a number, with the reading that inverts them, and the
UTF-8 bytes of a text. The bytes of a number are never its decimal digits.
-/

namespace SecureFusion.Library

open List

/-- A string of bytes. -/
abbrev Bytes := List UInt8

theorem forall_byte {property : UInt8 → Prop} (all : ∀ code < 256, property (UInt8.ofNat code))
    (byte : UInt8) : property byte := by
  have here := all byte.toNat byte.toNat_lt
  rwa [UInt8.ofNat_toNat] at here

def leBytes (count value : Nat) : Bytes :=
  (List.range count).map fun index => UInt8.ofNat (value / 256 ^ index)

def ofLeBytes : Bytes → Nat
  | [] => 0
  | first :: rest => first.toNat + 256 * ofLeBytes rest

variable (count value : Nat)

@[simp] theorem length_leBytes : (leBytes count value).length = count := by
  simp [leBytes]

theorem leBytes_succ :
    leBytes (count + 1) value = UInt8.ofNat value :: leBytes count (value / 256) := by
  have shifted : ∀ index, value / 256 ^ (index + 1) = value / 256 / 256 ^ index := by
    intro index
    rw [Nat.pow_succ', Nat.div_div_eq_div_mul]
  simp only [leBytes, range_succ_eq_map, map_cons, map_map, Nat.pow_zero, Nat.div_one]
  exact congrArg _ (map_congr_left fun index _ => congrArg UInt8.ofNat (shifted index))

theorem leBytes_succ_last :
    leBytes (count + 1) value = leBytes count value ++ [UInt8.ofNat (value / 256 ^ count)] := by
  simp only [leBytes, range_succ, map_append, map_cons, map_nil]

theorem ofLeBytes_leBytes : ofLeBytes (leBytes count value) = value % 256 ^ count := by
  induction count generalizing value with
  | zero =>
    rw [Nat.pow_zero, Nat.mod_one]
    rfl
  | succ count ih =>
    have lowest : (UInt8.ofNat value).toNat = value % 256 := UInt8.toNat_ofNat'
    rw [leBytes_succ, ofLeBytes, ih, lowest, Nat.pow_succ', ← Nat.mod_mul]

theorem leBytes_inj {count first second : Nat} (firstFits : first < 256 ^ count)
    (secondFits : second < 256 ^ count) (same : leBytes count first = leBytes count second) :
    first = second := by
  have values := congrArg ofLeBytes same
  rwa [ofLeBytes_leBytes, ofLeBytes_leBytes, Nat.mod_eq_of_lt firstFits,
    Nat.mod_eq_of_lt secondFits] at values

theorem ofLeBytes_lt (bytes : Bytes) : ofLeBytes bytes < 256 ^ bytes.length := by
  induction bytes with
  | nil => exact Nat.one_pos
  | cons first rest ih =>
    have small := first.toNat_lt
    rw [ofLeBytes, length_cons, Nat.pow_succ']
    omega

theorem ofLeBytes_inj {first second : Bytes} (length : first.length = second.length)
    (same : ofLeBytes first = ofLeBytes second) : first = second := by
  induction first generalizing second with
  | nil => exact (length_eq_zero_iff.mp length.symm).symm
  | cons byte first ih =>
    cases second with
    | nil => cases length
    | cons other second =>
      have small := byte.toNat_lt
      have otherSmall := other.toNat_lt
      rw [ofLeBytes, ofLeBytes] at same
      have bytes : byte.toNat = other.toNat := by omega
      rw [UInt8.toNat_inj.mp bytes, ih (Nat.succ.inj length) (by omega)]

theorem ofLeBytes_append_zeros (bytes : Bytes) :
    ofLeBytes (bytes ++ List.replicate count 0) = ofLeBytes bytes := by
  induction bytes with
  | nil =>
    induction count with
    | zero => rfl
    | succ count ih => exact (congrArg (0 + 256 * ·) ih).trans rfl
  | cons first rest ih => rw [cons_append, ofLeBytes, ih, ofLeBytes]

/-! ## Texts -/

def utf8Bytes (text : String) : Bytes := text.toList.flatMap String.utf8EncodeChar

theorem utf8Bytes_append (first second : String) :
    utf8Bytes (first ++ second) = utf8Bytes first ++ utf8Bytes second := by
  simp [utf8Bytes]

theorem utf8Bytes_intercalate (separator : String) (texts : List String) :
    utf8Bytes (separator.intercalate texts) =
      (utf8Bytes separator).intercalate (texts.map utf8Bytes) := by
  match texts with
  | [] => rfl
  | [text] => simp
  | text :: another :: texts =>
    have later := utf8Bytes_intercalate separator (another :: texts)
    rw [String.intercalate_cons_cons, utf8Bytes_append, utf8Bytes_append, later]
    simp only [map_cons, intercalate_cons_cons]

variable {first second : String} {count value : Nat} {text : String} {α : Type*} {separator : α}

theorem utf8Bytes_injective (same : utf8Bytes first = utf8Bytes second) : first = second := by
  have encoded : first.toList.utf8Encode = second.toList.utf8Encode :=
    congrArg toByteArray same
  rw [String.utf8Encode_toList, String.utf8Encode_toList] at encoded
  exact String.toByteArray_inj.mp encoded

theorem utf8Bytes_ascii (ascii : ∀ char ∈ text.toList, char.toNat < 128) :
    utf8Bytes text = text.toList.map fun char => UInt8.ofNat char.toNat := by
  rw [utf8Bytes, map_eq_flatMap]
  apply flatMap_congr
  intro char isIn
  have small : char.val.toNat ≤ 127 := Nat.le_of_lt_succ (ascii char isIn)
  simp only [String.utf8EncodeChar, if_pos small]
  rfl

theorem digit_code {value : Nat} {char : Char} (isIn : char ∈ Nat.toDigits 10 value) :
    48 ≤ char.toNat ∧ char.toNat < 58 := by
  have digit := Nat.isDigit_of_mem_toDigits (by decide) (by decide) isIn
  simp only [Char.isDigit, Bool.and_eq_true, decide_eq_true_eq] at digit
  have low := UInt32.le_iff_toNat_le.mp digit.1
  have high := UInt32.le_iff_toNat_le.mp digit.2
  exact ⟨low, Nat.lt_succ_of_le high⟩

theorem toList_toString_nat (value : Nat) : (toString value).toList = Nat.toDigits 10 value :=
  String.toList_ofList

theorem toString_nat_inj {first second : Nat} :
    toString first = toString second ↔ first = second := by
  refine ⟨fun same => ?_, congrArg toString⟩
  have digits := congrArg (fun text : String => Nat.ofDigitChars 10 text.toList 0) same
  simpa only [toList_toString_nat, Nat.ofDigitChars_ten_toDigits] using digits

theorem append_ne_append (before : ¬first.toList <+: second.toList)
    (after : ¬second.toList <+: first.toList) (rest otherRest : String) :
    first ++ rest ≠ second ++ otherRest := by
  intro same
  have texts := congrArg String.toList same
  rw [String.toList_append, String.toList_append] at texts
  have isSecond : second.toList <+: first.toList ++ rest.toList := by
    rw [texts]
    exact prefix_append _ _
  exact Or.elim ( prefix_or_prefix_of_prefix (prefix_append _ _) isSecond) before after

theorem append_cons_inj_right {first second rest otherRest : List α} (absent : separator ∉ rest)
    (otherAbsent : separator ∉ otherRest) :
    first ++ separator :: rest = second ++ separator :: otherRest ↔
      first = second ∧ rest = otherRest := by
  refine ⟨fun same => ?_, by rintro ⟨rfl, rfl⟩; rfl⟩
  rcases append_eq_append_iff.mp same with ⟨more, rfl, split⟩ | ⟨more, rfl, split⟩
  · cases more with
    | nil => exact ⟨by simp, cons.inj split |>.2⟩
    | cons head more =>
      cases split
      simp at absent
  · cases more with
    | nil => exact ⟨by simp, (cons.inj split).2.symm⟩
    | cons head more =>
      cases split
      simp at otherAbsent

theorem append_cons_inj_left {first second rest otherRest : List α} (absent : separator ∉ first)
    (otherAbsent : separator ∉ second) :
    first ++ separator :: rest = second ++ separator :: otherRest ↔
      first = second ∧ rest = otherRest := by
  refine ⟨fun same => ?_, by rintro ⟨rfl, rfl⟩; rfl⟩
  have reversed := congrArg reverse same
  simp only [reverse_append, reverse_cons, append_assoc, singleton_append] at reversed
  obtain ⟨rests, firsts⟩ := (append_cons_inj_right (by simpa using absent)
    (by simpa using otherAbsent)).mp reversed
  exact ⟨reverse_injective firsts, reverse_injective rests⟩

theorem leBytes_ne_utf8Bytes_nat (positive : 0 < count) :
    leBytes count value ≠ utf8Bytes (toString value) := by
  intro same
  obtain ⟨count, rfl⟩ : ∃ less, count = less + 1 := ⟨count - 1, by omega⟩
  rw [utf8Bytes_ascii (by
    intro char isIn
    rw [toList_toString_nat] at isIn
    have code := digit_code isIn
    omega), toList_toString_nat] at same
  -- As many digits as bytes bound the number, and the last byte is a digit.
  have lengths := congrArg length same
  rw [length_leBytes, length_map] at lengths
  have small : value < 10 ^ (count + 1) :=
    (Nat.length_toDigits_le_iff (by decide) (by omega)).mp (by omega)
  have top : UInt8.ofNat (value / 256 ^ count) ∈
      (Nat.toDigits 10 value).map fun char => UInt8.ofNat char.toNat := by
    rw [← same, leBytes_succ_last]
    simp
  obtain ⟨char, isIn, code⟩ := mem_map.mp top
  have digit := digit_code isIn
  have sameCode := congrArg UInt8.toNat code
  rw [UInt8.toNat_ofNat', UInt8.toNat_ofNat', Nat.mod_eq_of_lt (by omega)] at sameCode
  have large : 48 ≤ value / 256 ^ count := by
    have below := Nat.mod_le (value / 256 ^ count) (2 ^ 8)
    omega
  have larger : 48 * 256 ^ count ≤ value := (Nat.le_div_iff_mul_le (Nat.pow_pos (by decide))).mp large
  have powers : 10 ^ count ≤ 256 ^ count := Nat.pow_le_pow_left (by decide) count
  rw [Nat.pow_succ] at small
  omega

theorem leBytes_ne_utf8Bytes_ascii (fits : value < 256 ^ (count + 1))
    (high : 128 * 256 ^ count ≤ value) (ascii : ∀ char ∈ text.toList, char.toNat < 128) :
    leBytes (count + 1) value ≠ utf8Bytes text := by
  intro same
  have top : UInt8.ofNat (value / 256 ^ count) ∈ utf8Bytes text := by
    rw [← same, leBytes_succ_last]
    simp
  rw [utf8Bytes_ascii ascii] at top
  obtain ⟨char, isIn, code⟩ := mem_map.mp top
  have small := ascii char isIn
  have sameCode := congrArg UInt8.toNat code
  have large : 128 ≤ value / 256 ^ count := (Nat.le_div_iff_mul_le (Nat.pow_pos (by decide))).mpr high
  have byte : value / 256 ^ count < 256 :=
    Nat.div_lt_of_lt_mul (by rwa [Nat.pow_succ] at fits)
  rw [UInt8.toNat_ofNat', UInt8.toNat_ofNat', Nat.mod_eq_of_lt (by omega),
    Nat.mod_eq_of_lt (by omega)] at sameCode
  omega

theorem toString_int_ascii (value : Int) : ∀ char ∈ (toString value).toList, char.toNat < 128 := by
  intro char isIn
  cases value with
  | ofNat value =>
    have isIn : char ∈ (toString value).toList := isIn
    rw [toList_toString_nat] at isIn
    have code := digit_code isIn
    omega
  | negSucc value =>
    have isIn : char ∈ ("-" ++ toString value.succ).toList := isIn
    rw [String.toList_append, mem_append, toList_toString_nat] at isIn
    rcases isIn with sign | digit
    · have minus : char = '-' := by simpa using sign
      rw [minus]
      decide
    · have code := digit_code digit
      omega

end SecureFusion.Library
