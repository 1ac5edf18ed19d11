import SecureFusion.Providers.RowBinding
import SecureFusion.Sinks.Execution

/-!
# Stored rows and what they show

A row of the table on the server, and the row that the proxy shows for it: a plain column
is shown as it is, an encrypted one if its ciphertext belongs to the column and its
additional data is the one of the row. A null is not encrypted.
-/

namespace SecureFusion.Providers

open Library Sql Crypto Sinks

namespace MySqlTableProvider

variable (provider : MySqlTableProvider) (typeName : DataType → Bytes)

/-- The additional data of a cell of an encrypted column, from the values of the primary key of its
row. -/
def cellAad (type : DataType) (key : List ScalarValue) : Bytes :=
  let source := if provider.rowBindingAad then key else []
  rowAad (baseAad (typeName type) source.length)
    (source.map fun value => (castValueToBinary value).getD [])

/-- The cell that is stored for a value of a column, in a row with a key. -/
def sealCell (key : List ScalarValue) (name : String) (value : ScalarValue) : Cell :=
  match provider.getColumnMetadata name with
  | none => .plain value
  | some type =>
    if value.isNull then .plain value
    else .ciphertext name (provider.cellAad typeName type key) value

def storedKey (stored : StoredRow) : Option (List ScalarValue) :=
  provider.primaryKey.mapM fun name =>
    match stored (utf8Bytes name) with
    | .plain value => some value
    | .ciphertext .. => none

/-- What a reader sees of a stored column. -/
def view (stored : StoredRow) (name : String) : Option ScalarValue :=
  match provider.getColumnMetadata name, stored (utf8Bytes name) with
  | none, .plain value => some value
  | none, .ciphertext .. => none
  | some _, .plain value => if value.isNull then some value else none
  | some type, .ciphertext column aad value => do
    let key ← provider.storedKey stored
    if column = name ∧ aad = provider.cellAad typeName type key ∧ value.isNull = false then
      some value
    else none

/-- A stored row together with the row that it shows. -/
structure ReadableRow where
  stored : StoredRow
  row : Row
  shows : ∀ name ∈ provider.columnNames, provider.view typeName stored name = some (row name)

variable {provider typeName} {name : String} (readable : provider.ReadableRow typeName)

theorem ReadableRow.stored_plain (isColumn : name ∈ provider.columnNames)
    (plain : provider.getColumnMetadata name = none) :
    readable.stored (utf8Bytes name) = .plain (readable.row name) := by
  have shown := readable.shows name isColumn
  rw [view, plain] at shown
  cases cell : readable.stored (utf8Bytes name) with
  | plain value =>
    rw [cell] at shown
    cases shown
    rfl
  | ciphertext column aad value =>
    rw [cell] at shown
    cases shown

theorem view_eq_some {stored : StoredRow} {key : List ScalarValue}
    (isKey : provider.storedKey stored = some key) {value : ScalarValue}
    (same : stored (utf8Bytes name) = provider.sealCell typeName key name value) :
    provider.view typeName stored name = some value := by
  rw [view, same, sealCell]
  cases provider.getColumnMetadata name with
  | none => rfl
  | some type =>
    by_cases null : value.isNull
    · simp [null]
    · simp [null, isKey]

variable (provider typeName)

/-- The stored row of some values. -/
def sealRow (row : Row) : StoredRow := fun bytes =>
  match provider.columnNames.find? fun name => utf8Bytes name = bytes with
  | some name => provider.sealCell typeName (provider.primaryKey.map row) name (row name)
  | none => .plain .null

variable {provider typeName} (row : Row)

theorem sealRow_column (isColumn : name ∈ provider.columnNames) :
    provider.sealRow typeName row (utf8Bytes name) =
      provider.sealCell typeName (provider.primaryKey.map row) name (row name) := by
  rw [sealRow]
  cases found : provider.columnNames.find? fun other => utf8Bytes other = utf8Bytes name with
  | none =>
    have absent := List.find?_eq_none.mp found name isColumn
    exact absurd (decide_eq_true rfl) absent
  | some other =>
    have passes := List.find?_some found
    rw [utf8Bytes_injective (of_decide_eq_true passes)]

theorem storedKey_sealRow (keyColumns : ∀ name ∈ provider.primaryKey, name ∈ provider.columnNames) :
    provider.storedKey (provider.sealRow typeName row) = some (provider.primaryKey.map row) := by
  rw [storedKey, Rows.mapM_eq_some_iff, List.forall₂_map_right_iff, List.forall₂_same]
  intro name isKey
  have plain : provider.getColumnMetadata name = none := provider.keyColumns_plain name isKey
  rw [sealRow_column row (keyColumns name isKey), sealCell, plain]

def ReadableRow.ofRow (row : Row)
    (keyColumns : ∀ name ∈ provider.primaryKey, name ∈ provider.columnNames) :
    provider.ReadableRow typeName where
  stored := provider.sealRow typeName row
  row := row
  shows := fun _ isColumn =>
    view_eq_some (storedKey_sealRow row keyColumns) (sealRow_column row isColumn)

end MySqlTableProvider

end SecureFusion.Providers
