import Mathlib.Data.List.GetD
import Mathlib.Algebra.Order.BigOperators.Group.List
import Mathlib.Algebra.Order.Group.Nat
import SecureFusion.Library.Rows
import SecureFusion.Crypto.Columns

/-!
# Additional data of encrypted rows

The additional data of a ciphertext has the type of its column and the values of
some other columns of its row, each in binary form and after its length. The write
path casts these columns to binary as they are, the read path converts them to
binary first; Arrow casts fewer types than the conversion supports.
-/

namespace SecureFusion.Crypto

open Library Sql ColumnarValue Outcome List

variable {entries : List (Option Bytes)} {typeName : Bytes} {numRows : Nat}
  {array : ArrowArray} {columns : List ColumnarValue} {result : ColumnarValue} {base : Bytes}

/-! ## Conversion to binary -/

def isInteger : PrimitiveType → Bool
  | .int8 | .int16 | .int32 | .int64 => true
  | .uint8 | .uint16 | .uint32 | .uint64 => true
  | _ => false

/-- The types that Arrow casts to binary. -/
def canCastToBinary : DataType → Bool
  | .null => true
  | .primitive type => isInteger type
  | .text _ => true
  | .bytes _ => true
  | _ => false

/-- The binary form of a value; a null stays null, with the bytes that are in its slot. -/
def castValueToBinary : ScalarValue → Option Bytes
  | .primitive type value => value.map fun word => leBytes type.bytes word.toNat
  | .text _ value => value.map utf8Bytes
  | .bytes _ value => value
  | _ => none

/-- Arrow's cast of a column to binary. -/
def castToBinary (array : ArrowArray) : Evaluated ArrowArray :=
  if canCastToBinary array.dataType then binaryFromIter (array.rows.map castValueToBinary)
  else .error (.execution "Casting to Binary not supported")

/-- Whether the values of a type that is not cast have a binary form. -/
def encodesType : DataType → Bool
  | .boolean => true
  | .primitive (.decimal256 ..) => false
  | .primitive _ => true
  | .float32List _ => true
  | _ => false

/-- Converts a column to binary, with a cast where there is one. -/
def encodeArrayToBinary (array : ArrowArray) : Evaluated ArrowArray :=
  if canCastToBinary array.dataType then castToBinary array
  else if encodesType array.dataType then
    binaryFromIter (array.rows.map fun row => (encodeToBinary row).join)
  else .error (.execution "Casting not implemented to binary")

/-- An operation on columns, applied to the value of an expression. -/
def ColumnarValue.mapColumn (operation : ArrowArray → Evaluated ArrowArray) :
    ColumnarValue → Evaluated ColumnarValue
  | .array column => do .ok (.array (← operation column))
  | .scalar value => do
    let column ← operation (Crypto.toArrayOfSize value 1)
    .ok (.scalar (← tryFromArray column 0))

/-- Arrow's cast of the value of an expression to binary. -/
def ColumnarValue.castToBinary : ColumnarValue → Evaluated ColumnarValue :=
  mapColumn Crypto.castToBinary

/-- Encodes a column or a scalar to binary. -/
def encodeColumnarValueToBinary : ColumnarValue → Evaluated ColumnarValue :=
  ColumnarValue.mapColumn encodeArrayToBinary

/-! ## Additional data -/

/-- A length as eight big-endian bytes. -/
def lengthBytes (length : Nat) : Bytes := (leBytes 8 length).reverse

/-- The start of the additional data: the type of the column, and the number of values. -/
def baseAad (typeName : Bytes) (count : Nat) : Bytes :=
  lengthBytes typeName.length ++ typeName ++ [UInt8.ofNat count]

/-- The additional data of a row: each key value after its length. -/
def rowAad (base : Bytes) (values : List Bytes) : Bytes :=
  base ++ values.flatMap fun value => lengthBytes value.length ++ value

/-- The bytes that columns have in the slots of their nulls, once they are cast to binary: those of
an integer are kept. -/
abbrev NullSlots := ArrowArray → Nat → Bytes

/-- Columns without nulls, such as those of a primary key, for which no slot is read. -/
def noSlots : NullSlots := fun _ _ => []

/-- The slots of the value of an expression; a null that is repeated for all rows has no bytes. -/
def ColumnarValue.slot (slots : NullSlots) : ColumnarValue → Nat → Bytes
  | .array column => slots column
  | .scalar _ => fun _ => []

/-- The bytes of an entry of a binary column; nulls are not checked for and have those of their
slot. -/
def valueAt (slot : Nat → Bytes) (column : List (Option Bytes)) (index : Nat) :
    Evaluated Bytes :=
  match column[index]? with
  | some entry => .ok (entry.getD (slot index))
  | none => .error (.panic "Trying to access an element out of the bounds of an array")

/-- Additional data for the rows of a batch from the values of some columns. -/
def evaluateAad (slots : NullSlots) (typeName : Bytes) (numRows : Nat)
    (columns : List ColumnarValue) : Evaluated ColumnarValue := do
  if 255 < columns.length then .error (.execution "too many values used for AAD computation")
  else
    let base := baseAad typeName columns.length
    if columns.isEmpty then .ok (.scalar (.bytes .binary (some base)))
    else
      let entries ← columns.mapM fun column => do
        ((← column.castToBinary).toArrayOfSize numRows).asBinary
      let rows ← (List.range numRows).mapM fun index => do
        .ok (rowAad base (← (columns.zip entries).mapM fun column =>
          valueAt (column.1.slot slots) column.2 index))
      .ok (.array (← binaryFromIter (rows.map some)))

/-- The expression of the write path, over the columns as they are. -/
def computeAadExpr (children : List PhysicalExpr) (typeName : Bytes) : PhysicalExpr :=
  fun batch => do
    let evaluated ← children.mapM fun child => child batch
    evaluateAad noSlots typeName batch.numRows evaluated

/-- The function of the read path, over the columns converted to binary. -/
def computeAadUdf (aadColumns : List PhysicalExpr) (typeName : Bytes) : PhysicalExpr :=
  fun batch => do
    let evaluated ← aadColumns.mapM fun column => do encodeColumnarValueToBinary (← column batch)
    evaluateAad noSlots typeName batch.numRows evaluated

/-! ## Columns of bytes -/

theorem binaryFromIter_eq_ok_iff :
    binaryFromIter entries = .ok array ↔
      ColumnBuilder.size entries ≤ maxOffset ∧ array = .ofBinary entries := by
  unfold binaryFromIter
  by_cases fits : ColumnBuilder.size entries ≤ maxOffset
  · rw [if_pos fits]
    simp only [Except.ok.injEq, fits, true_and]
    exact eq_comm
  · rw [if_neg fits]
    simp only [reduceCtorEq, fits, false_and]

/-- The binary entries that the additional data is computed from. -/
def ColumnarValue.binaryEntries (numRows : Nat) (column : ColumnarValue) :
    Evaluated (List (Option Bytes)) := do
  ((← column.castToBinary).toArrayOfSize numRows).asBinary

theorem binaryEntries_array_iff :
    (ColumnarValue.array array).binaryEntries numRows = .ok entries ↔
      canCastToBinary array.dataType = true ∧
        ColumnBuilder.size (array.rows.map castValueToBinary) ≤ maxOffset ∧
        entries = array.rows.map castValueToBinary := by
  have unfolded : (ColumnarValue.array array).binaryEntries numRows =
      castToBinary array >>= fun column => column.asBinary := by
    show ((castToBinary array >>= fun column => .ok (.array column)) >>= fun column =>
      (ColumnarValue.toArrayOfSize column numRows).asBinary) = _
    cases castToBinary array <;> rfl
  rw [unfolded, castToBinary]
  by_cases casts : canCastToBinary array.dataType = true
  · rw [if_pos casts, bind_eq_ok_iff]
    simp only [binaryFromIter_eq_ok_iff, casts, true_and]
    constructor
    · rintro ⟨column, ⟨fits, rfl⟩, read⟩
      rw [ArrowArray.asBinary_ofBinary] at read
      exact ⟨fits, (Except.ok.inj read).symm⟩
    · rintro ⟨fits, rfl⟩
      exact ⟨_, ⟨fits, rfl⟩, ArrowArray.asBinary_ofBinary _⟩
  · rw [if_neg casts]
    simp only [error_bind, reduceCtorEq, casts, false_and]

def encodable (type : DataType) : Bool := canCastToBinary type || encodesType type

def encodedValue (type : DataType) (value : ScalarValue) : Option Bytes :=
  if canCastToBinary type then castValueToBinary value else (encodeToBinary value).join

theorem encodeArrayToBinary_eq_ok_iff {result : ArrowArray} :
    encodeArrayToBinary array = .ok result ↔ encodable array.dataType = true ∧
      ColumnBuilder.size (array.rows.map (encodedValue array.dataType)) ≤ maxOffset ∧
      result = .ofBinary (array.rows.map (encodedValue array.dataType)) := by
  unfold encodeArrayToBinary encodable
  by_cases casts : canCastToBinary array.dataType = true
  · have values : array.rows.map (encodedValue array.dataType) =
        array.rows.map castValueToBinary :=
      map_congr_left fun row _ => if_pos casts
    rw [if_pos casts, castToBinary, if_pos casts, binaryFromIter_eq_ok_iff, values, casts]
    simp only [Bool.true_or, true_and]
  · have values : array.rows.map (encodedValue array.dataType) =
        array.rows.map fun row => (encodeToBinary row).join :=
      map_congr_left fun row _ => if_neg casts
    rw [if_neg casts, values]
    by_cases encodes : encodesType array.dataType = true
    · rw [if_pos encodes, binaryFromIter_eq_ok_iff, encodes]
      simp only [Bool.or_true, true_and]
    · rw [if_neg encodes]
      simp only [reduceCtorEq, casts, encodes, Bool.or_self, Bool.false_eq_true, false_and]

theorem encodeColumnarValueToBinary_array_iff {value : ColumnarValue} :
    encodeColumnarValueToBinary (.array array) = .ok value ↔ encodable array.dataType = true ∧
      ColumnBuilder.size (array.rows.map (encodedValue array.dataType)) ≤ maxOffset ∧
      value = .array (.ofBinary (array.rows.map (encodedValue array.dataType))) := by
  have unfolded : encodeColumnarValueToBinary (.array array) =
      encodeArrayToBinary array >>= fun column => .ok (.array column) := rfl
  rw [unfolded, bind_eq_ok_iff]
  constructor
  · rintro ⟨column, converted, same⟩
    obtain ⟨typed, fits, rfl⟩ := encodeArrayToBinary_eq_ok_iff.mp converted
    exact ⟨typed, fits, (Except.ok.inj same).symm⟩
  · rintro ⟨typed, fits, rfl⟩
    exact ⟨_, encodeArrayToBinary_eq_ok_iff.mpr ⟨typed, fits, rfl⟩, rfl⟩

/-! ## Additional data of a batch -/

/-- The additional data of the rows of a batch, from the bytes of each column. -/
def aadRows (base : Bytes) (columns : List (List Bytes)) (numRows : Nat) :
    List Bytes :=
  (List.range numRows).map fun index => rowAad base (columns.map fun column => column.getD index [])

/-- The bytes of the entries of a column whose slots hold some bytes. -/
def slotBytes (slot : Nat → Bytes) (entries : List (Option Bytes)) :
    List Bytes :=
  entries.mapIdx fun index entry => entry.getD (slot index)

/-- The bytes of the entries of a column whose slots are empty. -/
def entryBytes (entries : List (Option Bytes)) : List Bytes :=
  entries.map (·.getD [])

/-- The bytes of the entries of some columns. -/
def columnBytes (slots : NullSlots) (columns : List ColumnarValue)
    (entries : List (List (Option Bytes))) : List (List Bytes) :=
  (columns.zip entries).map fun column => slotBytes (column.1.slot slots) column.2

/-- A position inside a column gives the bytes of its entry. -/
theorem valueAt_eq {slot : Nat → Bytes} {column : List (Option Bytes)} {index : Nat}
    (inside : index < column.length) :
    valueAt slot column index = .ok ((slotBytes slot column).getD index []) := by
  have found : column[index]? = some column[index] := getElem?_eq_getElem inside
  rw [valueAt, found, getD_eq_getElem?_getD, slotBytes, getElem?_mapIdx, found]
  rfl

/-- Columns with empty slots have the bytes of their entries alone. -/
theorem columnBytes_noSlots {entries : List (List (Option Bytes))}
    (count : columns.length = entries.length) :
    columnBytes noSlots columns entries = entries.map entryBytes := by
  have each (column : ColumnarValue × List (Option Bytes)) :
      slotBytes (column.1.slot noSlots) column.2 = entryBytes column.2 := by
    have empty : column.1.slot noSlots = fun _ => [] := by cases column.1 <;> rfl
    apply ext_getElem?
    intro index
    rw [empty, slotBytes, entryBytes, getElem?_mapIdx, getElem?_map]
  rw [columnBytes, map_congr_left fun column _ => each column]
  conv_rhs => rw [← map_snd_zip count.ge, map_map]
  rfl

/-- Additional data is collected row by row, once the entries of all columns are read. -/
theorem evaluateAad_eq (slots : NullSlots) (few : columns.length ≤ 255) (some : columns ≠ [])
    {entries : List (List (Option Bytes))}
    (read : columns.mapM (ColumnarValue.binaryEntries numRows) = .ok entries)
    (sized : ∀ column ∈ entries, column.length = numRows) :
    evaluateAad slots typeName numRows columns = (do
      .ok (.array (← binaryFromIter ((aadRows (baseAad typeName columns.length)
        (columnBytes slots columns entries) numRows).map Option.some)))) := by
  have values : ∀ index ∈ range numRows, (columns.zip entries).mapM (fun column =>
      valueAt (column.1.slot slots) column.2 index) =
      .ok ((columnBytes slots columns entries).map fun column => column.getD index []) := by
    intro index member
    apply mapM_eq_ok_iff.mpr
    rw [columnBytes, map_map]
    apply forall₂_map_right_iff.mpr
    apply forall₂_same.mpr
    intro column there
    have inside := mem_range.mp member
    rw [← sized column.2 (of_mem_zip there).2] at inside
    exact valueAt_eq inside
  have rows : (range numRows).mapM (fun index => do
      .ok (rowAad (baseAad typeName columns.length) (← (columns.zip entries).mapM fun column =>
        valueAt (column.1.slot slots) column.2 index))) =
      (.ok (aadRows (baseAad typeName columns.length) (columnBytes slots columns entries) numRows) :
        Evaluated (List Bytes)) := by
    apply mapM_eq_ok_iff.mpr
    apply forall₂_map_right_iff.mpr
    apply forall₂_same.mpr
    intro index member
    rw [values index member]
    rfl
  have notEmpty : columns.isEmpty = false := by
    cases columns with
    | nil => exact absurd rfl some
    | cons => rfl
  unfold evaluateAad
  rw [if_neg (Nat.not_lt.mpr few), notEmpty]
  show (do
    let columnEntries ← columns.mapM (binaryEntries numRows)
    let rows ← (range numRows).mapM fun index => do
      .ok (rowAad (baseAad typeName columns.length) (← (columns.zip columnEntries).mapM
        fun column : ColumnarValue × _ => valueAt (column.1.slot slots) column.2 index))
    .ok (array (← binaryFromIter (rows.map Option.some)))) = _
  rw [read, ok_bind, rows, ok_bind]

theorem binaryEntries_of_evaluateAad {slots : NullSlots} (some : columns ≠ [])
    (evaluated : evaluateAad slots typeName numRows columns = .ok result) :
    columns.length ≤ 255 ∧
      ∃ entries, columns.mapM (ColumnarValue.binaryEntries numRows) = .ok entries := by
  have notEmpty : columns.isEmpty = false := by
    cases columns with
    | nil => exact absurd rfl some
    | cons => rfl
  unfold evaluateAad at evaluated
  by_cases many : 255 < columns.length
  · rw [if_pos many] at evaluated
    cases evaluated
  · rw [if_neg many, notEmpty] at evaluated
    obtain ⟨entries, read, _⟩ := bind_eq_ok_iff.mp evaluated
    exact ⟨Nat.not_lt.mp many, entries, read⟩

/-! ## Additional data tells rows apart -/

theorem lengthBytes_inj {first second : Nat} (firstFits : first < 2 ^ 64)
    (secondFits : second < 2 ^ 64) (same : lengthBytes first = lengthBytes second) :
    first = second := by
  have power : 256 ^ 8 = 2 ^ 64 := by decide
  apply @leBytes_inj 8 _ _ (power ▸ firstFits) (power ▸ secondFits)
  exact reverse_injective same

theorem rowAad_inj {first second : List Bytes} (count : first.length = second.length)
    (firstShort : ∀ value ∈ first, value.length < 2 ^ 64)
    (secondShort : ∀ value ∈ second, value.length < 2 ^ 64)
    (same : rowAad base first = rowAad base second) : first = second := by
  have values := append_cancel_left same
  clear same
  induction first generalizing second with
  | nil => exact (length_eq_zero_iff.mp count.symm).symm
  | cons value rest ih =>
    cases second with
    | nil => cases count
    | cons other others =>
      rw [flatMap_cons, flatMap_cons, append_assoc, append_assoc] at values
      have prefixes : (lengthBytes value.length).length = (lengthBytes other.length).length := by
        simp only [lengthBytes, length_reverse, length_leBytes]
      obtain ⟨lengths, tails⟩ := append_inj values prefixes
      have length := lengthBytes_inj (firstShort value mem_cons_self)
        (secondShort other mem_cons_self) lengths
      obtain ⟨sameValue, sameRest⟩ := append_inj tails length
      have rests := ih (Nat.succ.inj count)
        (forall_mem_cons.mp firstShort).2
        (forall_mem_cons.mp secondShort).2 sameRest
      rw [sameValue, rests]

theorem length_le_rowAad (base : Bytes) {values : List Bytes} {value : Bytes}
    (member : value ∈ values) : value.length ≤ (rowAad base values).length := by
  obtain ⟨before, after, rfl⟩ := append_of_mem member
  rw [rowAad, flatMap_append, flatMap_cons]
  simp only [length_append]
  omega

theorem size_le_aadRows (base : Bytes) {columns : List (List Bytes)}
    {column : List Bytes} (member : column ∈ columns) (sized : column.length = numRows) :
    (column.map List.length).sum ≤ ((aadRows base columns numRows).map List.length).sum := by
  have indexed : column.map length =
      (range numRows).map fun index => (column.getD index []).length := by
    subst sized
    apply ext_getElem
    · rw [length_map, length_map, length_range]
    · intro index inside _
      rw [length_map] at inside
      rw [getElem_map, getElem_map, getElem_range, getD_eq_getElem _ _ inside]
  rw [indexed, aadRows, map_map]
  apply sum_le_sum
  intro index _
  exact length_le_rowAad base (mem_map_of_mem member)

theorem aadRows_inj {first second : List (List Bytes)} (count : first.length = second.length)
    (firstSized : ∀ column ∈ first, column.length = numRows)
    (secondSized : ∀ column ∈ second, column.length = numRows)
    (firstShort : ∀ column ∈ first, (column.map List.length).sum < 2 ^ 64)
    (secondShort : ∀ column ∈ second, (column.map List.length).sum < 2 ^ 64)
    (same : aadRows base first numRows = aadRows base second numRows) : first = second := by
  have short : ∀ {columns : List (List Bytes)},
      (∀ column ∈ columns, (column.map length).sum < 2 ^ 64) → ∀ index,
        ∀ value ∈ columns.map (fun column => column.getD index []), value.length < 2 ^ 64 := by
    intro columns shortColumns index value member
    obtain ⟨column, there, rfl⟩ := mem_map.mp member
    by_cases inside : index < column.length
    · rw [getD_eq_getElem _ _ inside]
      have part := single_le_sum (fun _ _ => Nat.zero_le _) (column[index].length)
        (mem_map_of_mem (getElem_mem inside))
      exact Nat.lt_of_le_of_lt part (shortColumns column there)
    · rw [getD_eq_default _ _ (Nat.not_lt.mp inside)]
      decide
  have rows : ∀ index < numRows, first.map (fun column => column.getD index []) =
      second.map fun column => column.getD index [] := by
    intro index inside
    have row := map_inj_left.mp same index (mem_range.mpr inside)
    apply rowAad_inj _ (short firstShort index) (short secondShort index) row
    rw [length_map, length_map, count]
  apply ext_getElem count
  intro position inFirst inSecond
  have firstLength := firstSized _ (getElem_mem inFirst)
  have secondLength := secondSized _ (getElem_mem inSecond)
  apply ext_getElem (firstLength.trans secondLength.symm)
  intro index inside inOther
  have row := rows index (firstLength ▸ inside)
  have entry := congrArg (fun values => values[position]?) row
  simp only [getElem?_map, getElem?_eq_getElem inFirst,
    getElem?_eq_getElem inSecond, Option.map_some, Option.some.injEq,
    getD_eq_getElem _ _ inside, getD_eq_getElem _ _ inOther] at entry
  exact entry

/-! ## Additional data from columns -/

def castBytes (column : ArrowArray) : List Bytes :=
  entryBytes (column.rows.map castValueToBinary)

theorem size_eq_entryBytes (entries : List (Option Bytes)) :
    ColumnBuilder.size entries = ((entryBytes entries).map List.length).sum := by
  rw [ColumnBuilder.size, entryBytes, map_map]
  rfl

def aadSize (typeName : Bytes) (columns : List (List Bytes)) (numRows : Nat) : Nat :=
  ((aadRows (baseAad typeName columns.length) columns numRows).map List.length).sum

/-- The column of additional data that a batch gets. -/
def aadColumn (typeName : Bytes) (columns : List (List Bytes)) (numRows : Nat) :
    ColumnarValue :=
  .array (.ofBinary ((aadRows (baseAad typeName columns.length) columns numRows).map some))

theorem evaluateAad_arrays_iff {arrays : List ArrowArray} (nonempty : arrays ≠ [])
    (sized : ∀ array ∈ arrays, array.rows.length = numRows) :
    evaluateAad noSlots typeName numRows (arrays.map .array) = .ok result ↔
      arrays.length ≤ 255 ∧ (∀ array ∈ arrays, canCastToBinary array.dataType = true) ∧
        aadSize typeName (arrays.map castBytes) numRows ≤ maxOffset ∧
        result = aadColumn typeName (arrays.map castBytes) numRows := by
  have columns : arrays.map array ≠ [] := fun empty =>
    nonempty (map_eq_nil_iff.mp empty)
  have entriesSized : ∀ column ∈ arrays.map (fun array => array.rows.map castValueToBinary),
      column.length = numRows := by
    intro column member
    obtain ⟨array, there, rfl⟩ := mem_map.mp member
    rw [length_map]
    exact sized array there
  have bytes : (arrays.map fun array => array.rows.map castValueToBinary).map entryBytes =
      arrays.map castBytes := map_map
  have sizes : ColumnBuilder.size ((aadRows (baseAad typeName arrays.length)
      (arrays.map castBytes) numRows).map some) =
      aadSize typeName (arrays.map castBytes) numRows := by
    rw [ColumnBuilder.size, map_map, aadSize, length_map]
    rfl
  -- what is computed once the entries of all columns are read
  have computed : arrays.length ≤ 255 →
      (arrays.map array).mapM (binaryEntries numRows) =
        .ok (arrays.map fun array => array.rows.map castValueToBinary) →
      (evaluateAad noSlots typeName numRows (arrays.map .array) = .ok result ↔
        aadSize typeName (arrays.map castBytes) numRows ≤ maxOffset ∧
          result = aadColumn typeName (arrays.map castBytes) numRows) := by
    intro few read
    have few' : (arrays.map array).length ≤ 255 := by rwa [length_map]
    rw [evaluateAad_eq noSlots few' columns read entriesSized,
      columnBytes_noSlots (by rw [length_map, length_map]), bytes, length_map, bind_eq_ok_iff]
    simp only [binaryFromIter_eq_ok_iff, sizes, aadColumn, length_map]
    constructor
    · rintro ⟨_, ⟨fits, rfl⟩, same⟩
      exact ⟨fits, (Except.ok.inj same).symm⟩
    · rintro ⟨fits, rfl⟩
      exact ⟨_, ⟨fits, rfl⟩, rfl⟩
  constructor
  · intro evaluated
    obtain ⟨few, entries, read⟩ := binaryEntries_of_evaluateAad columns evaluated
    rw [length_map] at few
    have each := forall₂_map_left_iff.mp (mapM_eq_ok_iff.mp read)
    have casts : ∀ array ∈ arrays, canCastToBinary array.dataType = true := by
      intro array member
      obtain ⟨column, _, readsColumn⟩ := Rows.exists_of_forall₂_left each member
      exact (binaryEntries_array_iff.mp readsColumn).1
    have same : entries = arrays.map fun array => array.rows.map castValueToBinary :=
      eq_map_of_forall₂
        (each.imp fun _ _ readsColumn => (binaryEntries_array_iff.mp readsColumn).2.2)
    subst same
    exact ⟨few, casts, (computed few read).mp evaluated⟩
  · rintro ⟨few, casts, fits, rfl⟩
    apply (computed few ?_).mpr ⟨fits, rfl⟩
    apply mapM_eq_ok_iff.mpr
    apply forall₂_map_left_iff.mpr
    apply forall₂_map_right_iff.mpr
    apply forall₂_same.mpr
    intro array member
    apply binaryEntries_array_iff.mpr
    refine ⟨casts array member, ?_, rfl⟩
    have length : (castBytes array).length = numRows := by
      rw [castBytes, entryBytes, length_map, length_map]
      exact sized array member
    have part := size_le_aadRows (baseAad typeName (arrays.map castBytes).length)
      (mem_map_of_mem member) length
    rw [size_eq_entryBytes]
    exact Nat.le_trans part fits

end SecureFusion.Crypto
