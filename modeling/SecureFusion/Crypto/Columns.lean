import SecureFusion.Library.Columnar
import SecureFusion.Crypto.Arrow

/-!
# Arrow columns and physical expressions

What a physical expression reads and gives: a batch of columns of one length, and
either a column or one value that stands for every row. An operation on columns can
fail with an execution error, or panic where the code unwraps what it expects.
-/

namespace SecureFusion.Crypto

open Library Sql

/-- How an evaluation fails. -/
inductive Failure where
  | panic (message : String)
  | execution (message : String)
deriving DecidableEq, Repr

/-- A result, an error or a panic. -/
abbrev Evaluated := Except Failure

/-- The Arrow type of a scalar. -/
def dataTypeOf : ScalarValue → DataType
  | .null => .null
  | .boolean _ => .boolean
  | .primitive type _ => .primitive type
  | .text layout _ => .text layout
  | .bytes layout _ => .bytes layout
  | .float32List size _ => .float32List size
  | .struct _ => .other "Struct"

/-- A column of values of one type. -/
structure ArrowArray where
  dataType : DataType
  rows : List ScalarValue
  /-- Every value is of the type of the column. -/
  typed : ∀ row ∈ rows, dataTypeOf row = dataType

theorem ArrowArray.ext_rows {first second : ArrowArray} (types : first.dataType = second.dataType)
    (rows : first.rows = second.rows) : first = second := by
  cases first
  cases second
  cases types
  cases rows
  rfl

/-- The largest offset in a binary column. -/
def maxOffset : Nat := 2 ^ 31 - 1

def binaryContent : ScalarValue → Option Bytes
  | .bytes .binary content => content
  | _ => none

def ArrowArray.ofBinary (entries : List (Option Bytes)) : ArrowArray where
  dataType := .bytes .binary
  rows := entries.map (.bytes .binary)
  typed := by
    intro row member
    obtain ⟨entry, _, rfl⟩ := List.mem_map.mp member
    rfl

/-- Collects entries into a binary column, whose offsets have 32 bits. -/
def binaryFromIter (entries : List (Option Bytes)) : Evaluated ArrowArray :=
  if ColumnBuilder.size entries ≤ maxOffset then .ok (.ofBinary entries)
  else .error (.panic "byte array offset overflow")

/-- The entries of a binary column; any other column panics. -/
def ArrowArray.asBinary (array : ArrowArray) : Evaluated (List (Option Bytes)) :=
  if array.dataType = .bytes .binary then .ok (array.rows.map binaryContent)
  else .error (.panic "binary array")

def toArrayOfSize (value : ScalarValue) (size : Nat) : ArrowArray where
  dataType := dataTypeOf value
  rows := List.replicate size value
  typed := fun _ member => congrArg dataTypeOf (List.eq_of_mem_replicate member)

/-- The value at a position of a column, which must exist. -/
def tryFromArray (array : ArrowArray) (index : Nat) : Evaluated ScalarValue :=
  match array.rows[index]? with
  | some value => .ok value
  | none => .error (.panic "Trying to access an element out of the bounds of an array")

/-- The value of an expression on a batch. -/
inductive ColumnarValue where
  | array (column : ArrowArray)
  | scalar (value : ScalarValue)

namespace ColumnarValue

def dataType : ColumnarValue → DataType
  | .array column => column.dataType
  | .scalar value => dataTypeOf value

/-- The rows of a value, a scalar being repeated. -/
def toArrayOfSize : ColumnarValue → Nat → ArrowArray
  | .array column, _ => column
  | .scalar value, size => Crypto.toArrayOfSize value size

def rows (value : ColumnarValue) (size : Nat) : List ScalarValue := (value.toArrayOfSize size).rows

def HasRows : ColumnarValue → Nat → Prop
  | .array column, size => column.rows.length = size
  | .scalar _, _ => True

def isScalar : ColumnarValue → Bool
  | .array _ => false
  | .scalar _ => true

/-- The values that the expression computed: one for each row, or the only one. -/
def values : ColumnarValue → List ScalarValue
  | .array column => column.rows
  | .scalar value => [value]

end ColumnarValue

/-- Columns of one length with their names. -/
structure RecordBatch where
  names : List String
  columns : List ArrowArray
  numRows : Nat
  /-- Every column has a name. -/
  named : names.length = columns.length
  /-- Every column has a value for each row. -/
  sized : ∀ column ∈ columns, column.rows.length = numRows

/-- What is evaluated on a batch. -/
abbrev PhysicalExpr := RecordBatch → Evaluated ColumnarValue

@[simp] theorem ArrowArray.asBinary_ofBinary (entries : List (Option Bytes)) :
    (ArrowArray.ofBinary entries).asBinary = .ok entries := by
  have same : (entries.map (ScalarValue.bytes .binary)).map binaryContent = entries := by
    rw [List.map_map]
    exact List.map_id' entries
  have binary : (ArrowArray.ofBinary entries).dataType = .bytes .binary := rfl
  rw [ArrowArray.asBinary, if_pos binary]
  exact congrArg _ same

theorem ArrowArray.ofBinary_content {array : ArrowArray}
    (binary : array.dataType = .bytes .binary) :
    ArrowArray.ofBinary (array.rows.map binaryContent) = array := by
  apply ArrowArray.ext_rows
  · exact binary.symm
  · have same : ∀ row ∈ array.rows,
        (ScalarValue.bytes .binary ∘ binaryContent) row = row := by
      intro row member
      have type := (array.typed row member).trans binary
      cases row with
      | bytes layout content =>
        cases type
        rfl
      | _ => cases type
    show (array.rows.map binaryContent).map (ScalarValue.bytes .binary) = array.rows
    rw [List.map_map, List.map_congr_left same]
    exact List.map_id' array.rows

end SecureFusion.Crypto
