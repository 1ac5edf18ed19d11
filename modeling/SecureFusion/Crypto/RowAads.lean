import SecureFusion.Crypto.AssociatedData

/-!
# Rows told apart by their additional data

The additional data of a row is a code of the type name, the number of key columns and the
binary forms of the key values, each after its length, so it is decoded in one way only. It
has no types of the key columns: values of different types with one binary form are not told
apart. A null has the bytes that its column holds in its slot, so it is not told apart from the
value of these bytes, and nulls with different bytes are told apart.
-/

namespace SecureFusion.Crypto

open Library Sql List

variable {numRows : Nat}

/-- A key value of a row, and what the slot of its column has if the value is null. -/
structure KeyEntry where
  value : ScalarValue
  slot : Bytes

/-- The bytes of a key value in the additional data. -/
def keyBytes (key : KeyEntry) : Bytes := (castValueToBinary key.value).getD key.slot

/-- The additional data of a row with these key values. -/
def aadOf (typeName : Bytes) (keys : List KeyEntry) : Bytes :=
  rowAad (baseAad typeName keys.length) (keys.map keyBytes)

/-- The values of some columns in a row. -/
def keyEntries (slots : NullSlots) (columns : List ColumnarValue) (numRows row : Nat) :
    List KeyEntry :=
  columns.map fun column => ⟨(column.rows numRows).getD row .null, column.slot slots row⟩

/-- The entries of a column are the binary forms of its values, which are of types that are cast. -/
theorem binaryEntries_spec {column : ColumnarValue} {entries : List (Option Bytes)}
    (read : column.binaryEntries numRows = .ok entries) :
    entries = (column.rows numRows).map castValueToBinary ∧
      ∀ value ∈ column.rows numRows, canCastToBinary (dataTypeOf value) = true := by
  cases column with
  | array array =>
    obtain ⟨casts, _, same⟩ := binaryEntries_array_iff.mp read
    exact ⟨same, fun value member => (array.typed value member).symm ▸ casts⟩
  | scalar value =>
    obtain ⟨_, cast, read⟩ := Outcome.bind_eq_ok_iff.mp read
    obtain ⟨column, cast, filled⟩ := Outcome.bind_eq_ok_iff.mp cast
    obtain ⟨single, first, same⟩ := Outcome.bind_eq_ok_iff.mp filled
    unfold castToBinary at cast
    split_ifs at cast with casts
    obtain ⟨_, rfl⟩ := binaryFromIter_eq_ok_iff.mp cast
    cases first
    cases same
    have repeated : (replicate numRows
        (ScalarValue.bytes .binary (castValueToBinary value))).map binaryContent = entries :=
      Except.ok.inj read
    refine ⟨?_, fun other member => eq_of_mem_replicate member ▸ casts⟩
    rw [← repeated, map_replicate]
    symm
    exact map_replicate

theorem aadRows_columnBytes {slots : NullSlots} {columns : List ColumnarValue}
    (lengths : ∀ column ∈ columns, (column.rows numRows).length = numRows) (typeName : Bytes) :
    aadRows (baseAad typeName columns.length) (columnBytes slots columns
        (columns.map fun column => (column.rows numRows).map castValueToBinary)) numRows =
      (range numRows).map fun row => aadOf typeName (keyEntries slots columns numRows row) := by
  have paired : columnBytes slots columns
      (columns.map fun column => (column.rows numRows).map castValueToBinary) =
      columns.map fun column => slotBytes (column.slot slots)
        ((column.rows numRows).map castValueToBinary) := by
    rw [columnBytes]
    conv_lhs => rw [← map_id columns, map_map, zip_map', map_map]
    rfl
  apply map_congr_left
  intro row isRow
  have bytes : ∀ column ∈ columns, (slotBytes (column.slot slots)
      ((column.rows numRows).map castValueToBinary)).getD row [] =
        keyBytes ⟨(column.rows numRows).getD row .null, column.slot slots row⟩ := by
    intro column member
    have inside : row < (column.rows numRows).length :=
      (lengths column member).symm ▸ mem_range.mp isRow
    rw [slotBytes, getD_eq_getElem?_getD, getElem?_mapIdx, getElem?_map,
      getD_eq_getElem _ _ inside, getElem?_eq_getElem inside]
    rfl
  rw [paired, aadOf, keyEntries, length_map, map_map, map_map]
  exact congrArg _ (map_congr_left bytes)

/-- The additional data of each row is that of its key values. -/
theorem evaluateAad_rows {slots : NullSlots} {typeName : Bytes} {columns : List ColumnarValue}
    {result : ColumnarValue} (sized : ∀ column ∈ columns, column.HasRows numRows)
    (evaluated : evaluateAad slots typeName numRows columns = .ok result) :
    columns.length ≤ 255 ∧
      result.rows numRows = ((List.range numRows).map fun row =>
        .bytes .binary (some (aadOf typeName (keyEntries slots columns numRows row)))) ∧
      ∀ row < numRows, ∀ key ∈ keyEntries slots columns numRows row,
        (keyBytes key).length < 2 ^ 64 ∧ canCastToBinary (dataTypeOf key.value) = true := by
  by_cases empty : columns = []
  · subst empty
    cases evaluated
    refine ⟨Nat.zero_le _, ?_, fun _ _ _ => nofun⟩
    have base : aadOf typeName [] = baseAad typeName 0 := append_nil _
    simp only [keyEntries, map_nil, base, map_const', length_range]
    rfl
  obtain ⟨few, entries, read⟩ := binaryEntries_of_evaluateAad empty evaluated
  have each := Outcome.mapM_eq_ok_iff.mp read
  have same : entries = columns.map fun column => (column.rows numRows).map castValueToBinary :=
    Outcome.eq_map_of_forall₂ (each.imp fun _ _ readsColumn => (binaryEntries_spec readsColumn).1)
  subst same
  have lengths : ∀ column ∈ columns, (column.rows numRows).length = numRows := by
    intro column member
    cases column with
    | array array => exact sized _ member
    | scalar value => exact length_replicate
  rw [evaluateAad_eq slots few empty read (by simpa using lengths)] at evaluated
  obtain ⟨_, made, same⟩ := Outcome.bind_eq_ok_iff.mp evaluated
  obtain ⟨fits, rfl⟩ := binaryFromIter_eq_ok_iff.mp made
  clear made
  cases same
  rw [aadRows_columnBytes lengths] at fits ⊢
  refine ⟨few, ?_, ?_⟩
  · show ((((range numRows).map _).map some).map (ScalarValue.bytes .binary)) = _
    rw [map_map, map_map]
    rfl
  · intro row inside key member
    obtain ⟨column, there, rfl⟩ := mem_map.mp member
    obtain ⟨_, _, readsColumn⟩ := Rows.exists_of_forall₂_left each there
    have isRow : row < (column.rows numRows).length := (lengths column there).symm ▸ inside
    refine ⟨?_, (binaryEntries_spec readsColumn).2 _ (by
      rw [getD_eq_getElem _ _ isRow]; exact getElem_mem isRow)⟩
    have entry : (aadOf typeName (keyEntries slots columns numRows row)).length ∈
        (((range numRows).map fun row => aadOf typeName (keyEntries slots columns numRows row)).map
          some).map fun entry => (entry.getD []).length := by
      simp only [map_map]
      exact mem_map_of_mem (mem_range.mpr inside)
    calc (keyBytes _).length
      _ ≤ (aadOf typeName (keyEntries slots columns numRows row)).length :=
        length_le_rowAad _ (mem_map_of_mem member)
      _ ≤ maxOffset := (single_le_sum (fun _ _ => Nat.zero_le _) _ entry).trans fits
      _ < 2 ^ 64 := by decide

/-- Additional data is decoded in one way. -/
theorem aadOf_eq_iff {first second : Bytes} {values others : List KeyEntry}
    (firstFits : first.length < 2 ^ 64) (secondFits : second.length < 2 ^ 64)
    (few : values.length ≤ 255) (fewOthers : others.length ≤ 255)
    (short : ∀ value ∈ values, (keyBytes value).length < 2 ^ 64)
    (shortOthers : ∀ value ∈ others, (keyBytes value).length < 2 ^ 64) :
    aadOf first values = aadOf second others ↔
      first = second ∧ values.map keyBytes = others.map keyBytes := by
  constructor
  · intro same
    simp only [aadOf, rowAad, baseAad, append_assoc] at same
    obtain ⟨lengths, rest⟩ := append_inj same (by
      simp only [lengthBytes, length_reverse, length_leBytes])
    obtain ⟨names, rest⟩ := append_inj rest (lengthBytes_inj firstFits secondFits lengths)
    obtain ⟨counts, rest⟩ := cons.inj rest
    have count : values.length = others.length := by
      have sizes := congrArg UInt8.toNat counts
      simp only [UInt8.toNat_ofNat', Nat.reducePow] at sizes
      omega
    exact ⟨names, @rowAad_inj [] _ _ (by simpa using count) (by simpa using short)
      (by simpa using shortOthers) rest⟩
  · rintro ⟨rfl, bytes⟩
    have count : values.length = others.length := by simpa using congrArg length bytes
    rw [aadOf, aadOf, bytes, count]

/-- The bytes of a word determine it. -/
theorem leBytes_toNat_inj {count : Nat} {first second : BitVec (8 * count)}
    (same : leBytes count first.toNat = leBytes count second.toNat) : first = second := by
  have bound : ∀ word : BitVec (8 * count), word.toNat < 256 ^ count := by
    intro word
    have below := word.isLt
    rwa [Nat.pow_mul] at below
  exact BitVec.eq_of_toNat_eq (leBytes_inj (bound first) (bound second) same)

/-- Key values of one type that are not null are told apart. -/
theorem keyBytes_inj {key other : KeyEntry}
    (types : dataTypeOf key.value = dataTypeOf other.value)
    (casts : canCastToBinary (dataTypeOf key.value) = true) (present : key.value.isNull = false)
    (presentSecond : other.value.isNull = false) (same : keyBytes key = keyBytes other) :
    key.value = other.value := by
  obtain ⟨first, slot⟩ := key
  obtain ⟨second, otherSlot⟩ := other
  dsimp only at types casts present presentSecond ⊢
  cases first with
  | primitive type value | text type value | bytes type value =>
    cases second <;> cases types
    rename_i other
    cases value <;> cases present
    cases other <;> cases presentSecond
    first
    | rw [leBytes_toNat_inj same]
    | rw [utf8Bytes_injective same]
    | exact congrArg (fun bytes => ScalarValue.bytes type (some bytes)) same
  | null => cases present
  | boolean | float32List | struct => cases casts

/-- Key values that the additional data does not tell apart: those with the same bytes, which are
equal if they are of one type and not null. -/
def SameKey (first second : KeyEntry) : Prop :=
  keyBytes first = keyBytes second ∧
    (dataTypeOf first.value = dataTypeOf second.value → first.value.isNull = false →
      second.value.isNull = false → first.value = second.value)

/-- A batch with the additional data of its rows. -/
structure AadBatch where
  typeName : Bytes
  numRows : Nat
  columns : List ColumnarValue
  slots : NullSlots
  aad : ColumnarValue
  /-- The length of the name is a machine word. -/
  named : typeName.length < 2 ^ 64
  sized : ∀ column ∈ columns, column.HasRows numRows
  evaluated : evaluateAad slots typeName numRows columns = .ok aad

/-- Two rows of any batches have the same additional data exactly if it is for the same type and
the same number of columns with the same key values. -/
theorem aad_eq_iff (first second : AadBatch) {row other : Nat} (inside : row < first.numRows)
    (inOther : other < second.numRows) :
    (first.aad.rows first.numRows)[row]? = (second.aad.rows second.numRows)[other]? ↔
      first.typeName = second.typeName ∧ first.columns.length = second.columns.length ∧
        List.Forall₂ SameKey (keyEntries first.slots first.columns first.numRows row)
          (keyEntries second.slots second.columns second.numRows other) := by
  obtain ⟨few, rows, keys⟩ := evaluateAad_rows first.sized first.evaluated
  obtain ⟨fewOthers, otherRows, otherKeys⟩ := evaluateAad_rows second.sized second.evaluated
  have count : ∀ slots columns numRows row,
      (keyEntries slots columns numRows row).length = columns.length :=
    fun _ _ _ _ => length_map _
  rw [rows, otherRows, getElem?_map, getElem?_map, getElem?_range inside, getElem?_range inOther]
  simp only [Option.map_some, Option.some.injEq, ScalarValue.bytes.injEq, true_and]
  rw [aadOf_eq_iff first.named second.named (count _ _ _ _ ▸ few) (count _ _ _ _ ▸ fewOthers)
    (fun key member => (keys row inside key member).1)
    (fun key member => (otherKeys other inOther key member).1)]
  apply and_congr_right
  intro _
  rw [← forall₂_eq_eq_eq, forall₂_map_left_iff, forall₂_map_right_iff]
  constructor
  · intro same
    have lengths := same.length_eq
    rw [count, count] at lengths
    have casts := (forall₂_and_left _ _).mpr
      ⟨fun key member => (keys row inside key member).2, same⟩
    exact ⟨lengths, casts.imp fun _ _ isSame => ⟨isSame.2, fun types present presentOther =>
      keyBytes_inj types isSame.1 present presentOther isSame.2⟩⟩
  · rintro ⟨_, same⟩
    exact same.imp fun _ _ isSame => isSame.1

/-- A column of numbers and nulls. -/
def numberColumn (numbers : List (Option (BitVec 32))) : ArrowArray where
  dataType := .primitive .int32
  rows := numbers.map (.primitive .int32)
  typed := by
    intro row member
    obtain ⟨number, _, rfl⟩ := mem_map.mp member
    rfl

/-- Three rows with a number and a text as their key. -/
def threeKeys : AadBatch where
  typeName := [85, 116, 102, 56]
  numRows := 3
  columns := [.array (numberColumn [some 5, some 6, some 5]), .scalar (.text .utf8 (some "eu"))]
  slots := noSlots
  aad := .array (.ofBinary ([[5, 0, 0, 0], [6, 0, 0, 0], [5, 0, 0, 0]].map fun number =>
    some (rowAad (baseAad [85, 116, 102, 56] 2) [number, [101, 117]])))
  named := by decide
  sized := by
    intro column member
    rcases mem_cons.mp member with rfl | member
    · rfl
    · cases mem_singleton.mp member
      trivial
  evaluated := rfl

/-- Rows with one key have the same additional data, rows with different keys have not. -/
theorem aad_eq_iff_three :
    (threeKeys.aad.rows 3)[0]? = (threeKeys.aad.rows 3)[2]? ∧
      (threeKeys.aad.rows 3)[0]? ≠ (threeKeys.aad.rows 3)[1]? := by
  constructor
  · refine (aad_eq_iff threeKeys threeKeys (by decide) (by decide)).mpr ⟨rfl, rfl, ?_⟩
    exact .cons ⟨rfl, fun _ _ _ => rfl⟩ (.cons ⟨rfl, fun _ _ _ => rfl⟩ .nil)
  · intro same
    cases ((aad_eq_iff threeKeys threeKeys (by decide) (by decide)).mp same).2.2 with
    | cons number _ => exact absurd (number.2 rfl rfl rfl) (by decide)

/-- A number and a binary value of the same four bytes are different keys with the same additional
data. So are zero and a null in whose slot there is a zero, and nulls with different slots have
different additional data. -/
theorem aad_of_number_eq_aad_of_bytes :
    (evaluateAad noSlots [] 1 [.scalar (.primitive .int32 (some 49))] =
        .ok (.array (.ofBinary [some (rowAad (baseAad [] 1) [[49, 0, 0, 0]])])) ∧
      evaluateAad noSlots [] 1 [.scalar (.bytes .binary (some [49, 0, 0, 0]))] =
        .ok (.array (.ofBinary [some (rowAad (baseAad [] 1) [[49, 0, 0, 0]])])) ∧
      ScalarValue.primitive .int32 (some 49) ≠ .bytes .binary (some [49, 0, 0, 0])) ∧
    evaluateAad noSlots [] 1 [.array (numberColumn [some 0])] =
        evaluateAad (fun _ _ => [0, 0, 0, 0]) [] 1 [.array (numberColumn [none])] ∧
      evaluateAad (fun _ _ => [0, 0, 0, 0]) [] 1 [.array (numberColumn [none])] =
        .ok (.array (.ofBinary [some (rowAad (baseAad [] 1) [[0, 0, 0, 0]])])) ∧
      evaluateAad (fun _ _ => [1, 0, 0, 0]) [] 1 [.array (numberColumn [none])] =
        .ok (.array (.ofBinary [some (rowAad (baseAad [] 1) [[1, 0, 0, 0]])])) :=
  ⟨⟨rfl, rfl, nofun⟩, rfl, rfl, rfl⟩

end SecureFusion.Crypto
