import SecureFusion.Crypto.AssociatedData

/-!
# Row ids computed from primary keys

The hidden row id of a row is a keyed hash of its primary key. The bytes that are hashed
are written into one buffer, which is cleared after each row.
-/

namespace SecureFusion.Crypto

open Library Sql List

/-- The common length of the columns seen so far. -/
def commonLength : Option Nat → ColumnarValue → Evaluated (Option Nat)
  | none, .array column => .ok (some column.rows.length)
  | some length, .array column =>
    if length = column.rows.length then .ok (some length)
    else .error (.execution "Arguments has mixed length")
  | length, .scalar _ => .ok length

/-- The columns of some values: one that stands for every row is repeated. -/
def valuesToArrays (values : List ColumnarValue) : Evaluated (List ArrowArray) := do
  let length ← values.foldlM commonLength none
  .ok (values.map (·.toArrayOfSize (length.getD 1)))

/-- A binary column, with the bytes in the slots of its nulls. -/
structure BinaryArray where
  entries : List (Option Bytes)
  slot : Nat → Bytes

/-- Writes a value of a key into the buffer, after its length. -/
def pushValue (row : Nat) (buffer : Bytes) (array : BinaryArray) :
    Evaluated Bytes := do
  let value ← valueAt array.slot array.entries row
  .ok (buffer ++ lengthBytes value.length ++ value)

/-- Writes a key into the buffer, appends its identifier to the output and clears the buffer. -/
def pushRow (identifier : Bytes → Bytes) (arrays : List BinaryArray)
    (state : Bytes × List Bytes) (row : Nat) :
    Evaluated (Bytes × List Bytes) := do
  let buffer ← arrays.foldlM (pushValue row) (state.1 ++ [UInt8.ofNat arrays.length])
  .ok ([], state.2 ++ [identifier buffer])

/-- The row ids of a batch, from the columns of its primary key. -/
def computeRowid (slots : NullSlots) (identifier : Bytes → Bytes)
    (values : List ColumnarValue) (numRows : Nat) : Evaluated ColumnarValue := do
  let arrays ← (← valuesToArrays values).mapM fun array => do
    .ok ⟨← array.asBinary, slots array⟩
  let written ← (List.range numRows).foldlM (pushRow identifier arrays) ([], [])
  .ok (.array (← binaryFromIter (written.2.map some)))

/-- The bytes that are hashed for a primary key. -/
def rowidInput (key : List Bytes) : Bytes := rowAad [UInt8.ofNat key.length] key

/-- The bytes of the primary key of a row. -/
def keyAt (columns : List BinaryArray) (row : Nat) : List Bytes :=
  columns.map fun column => (slotBytes column.slot column.entries).getD row []

section

variable {columns : List BinaryArray} {numRows : Nat}

/-- The buffer gets the values of a key one after the other. -/
theorem foldlM_pushValue {row : Nat} (inside : ∀ column ∈ columns, row < column.entries.length)
    (buffer : Bytes) :
    columns.foldlM (pushValue row) buffer = .ok (rowAad buffer (keyAt columns row)) := by
  induction columns generalizing buffer with
  | nil => exact congrArg Except.ok (append_nil _).symm
  | cons column rest ih =>
    rw [foldlM_cons, pushValue, valueAt_eq (inside column mem_cons_self)]
    show rest.foldlM _ (buffer ++ _ ++ _) = _
    rw [ih (forall_mem_cons.mp inside).2]
    simp only [rowAad, keyAt, map_cons, flatMap_cons, append_assoc]

/-- Each row appends the identifier of its own key, and leaves an empty buffer. -/
theorem foldlM_pushRow (identifier : Bytes → Bytes)
    (sized : ∀ column ∈ columns, column.entries.length = numRows) {rows : List Nat}
    (inside : ∀ row ∈ rows, row < numRows) (output : List Bytes) :
    rows.foldlM (pushRow identifier columns) ([], output) =
      .ok ([], output ++ rows.map fun row => identifier (rowidInput (keyAt columns row))) := by
  induction rows generalizing output with
  | nil => exact congrArg (fun written => Except.ok ([], written)) (append_nil _).symm
  | cons row rest ih =>
    have input : columns.foldlM (pushValue row) [UInt8.ofNat columns.length] =
        .ok (rowidInput (keyAt columns row)) := by
      rw [rowidInput, keyAt, length_map]
      exact foldlM_pushValue (fun column member =>
        (sized column member).symm ▸ inside row mem_cons_self) _
    rw [foldlM_cons, pushRow, nil_append, input, Outcome.ok_bind, Outcome.ok_bind,
      ih (forall_mem_cons.mp inside).2, map_cons, append_assoc, singleton_append]

end

/-- A binary column, with the bytes that are in the slots of its nulls. -/
def slotted (slots : NullSlots) (column : List (Option Bytes)) : BinaryArray :=
  ⟨column, slots (.ofBinary column)⟩

/-- The bytes hashed for a row are those of its key alone, and they tell keys of one column list
apart. -/
theorem computeRowid_input (slots : NullSlots) (identifier : Bytes → Bytes)
    {columns : List (List (Option Bytes))} {numRows : Nat}
    (sized : ∀ column ∈ columns, column.length = numRows) {result : ColumnarValue}
    (computed : computeRowid slots identifier (columns.map fun column => .array (.ofBinary column))
      numRows = .ok result) :
    (result.rows numRows = (List.range numRows).map fun row => .bytes .binary
        (some (identifier (rowidInput (keyAt (columns.map (slotted slots)) row))))) ∧
      ∀ key other : List Bytes, key.length = other.length →
        (∀ value ∈ key ++ other, value.length < 2 ^ 64) → rowidInput key = rowidInput other →
          key = other := by
  constructor
  · obtain ⟨_, arrays, computed⟩ := Outcome.bind_eq_ok_iff.mp computed
    obtain ⟨_, _, same⟩ := Outcome.bind_eq_ok_iff.mp arrays
    cases same
    -- A column is not repeated, whatever the common length is.
    have binary : (columns.map ArrowArray.ofBinary).mapM (fun array => do
        .ok ⟨← array.asBinary, slots array⟩) =
          (.ok (columns.map (slotted slots)) : Evaluated (List BinaryArray)) := by
      rw [Outcome.mapM_eq_ok_iff, forall₂_map_left_iff, forall₂_map_right_iff, forall₂_same]
      intro column _
      rw [ArrowArray.asBinary_ofBinary, Outcome.ok_bind]
      rfl
    have slottedSized : ∀ column ∈ columns.map (slotted slots),
        column.entries.length = numRows := by simpa [slotted] using sized
    rw [map_map, show (columns.map _).mapM _ = .ok _ from binary, Outcome.ok_bind,
      foldlM_pushRow identifier slottedSized (fun _ => mem_range.mp), Outcome.ok_bind] at computed
    obtain ⟨_, made, same⟩ := Outcome.bind_eq_ok_iff.mp computed
    obtain ⟨_, rfl⟩ := binaryFromIter_eq_ok_iff.mp made
    cases same
    show ((([] ++ map _ _ : List Bytes).map some).map (ScalarValue.bytes .binary)) = _
    rw [nil_append, map_map, map_map]
    rfl
  · intro key other count short same
    rw [rowidInput, rowidInput, count] at same
    obtain ⟨shortKey, shortOther⟩ := forall_mem_append.mp short
    exact rowAad_inj count shortKey shortOther same

/-- Two rows with keys of two columns: their ids are those of their own keys, which are told
apart. -/
theorem computeRowid_input_pair :
    (∃ result, computeRowid noSlots id ([[some [1], some [1, 2]], [some [2, 3], some [3]]].map
        fun column => .array (.ofBinary column)) 2 = .ok result ∧
      result.rows 2 = [.bytes .binary (some (rowidInput [[1], [2, 3]])),
        .bytes .binary (some (rowidInput [[1, 2], [3]]))]) ∧
      rowidInput [[1], [2, 3]] ≠ rowidInput [[1, 2], [3]] := by
  obtain ⟨rows, apart⟩ := @computeRowid_input noSlots id
    [[some [1], some [1, 2]], [some [2, 3], some [3]]] 2 (by decide) _ rfl
  exact ⟨⟨_, rfl, rows⟩, fun same =>
    absurd (apart [[1], [2, 3]] [[1, 2], [3]] rfl (by decide) same) (by decide)⟩

end SecureFusion.Crypto
