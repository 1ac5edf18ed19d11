import SecureFusion.Crypto.Columns
import SecureFusion.Library.Outcome

/-!
# Parameters of prepared statements

The sinks turn each row of a batch into the parameters of a prepared statement, column
by column in the order of a projection. The conversion of a value depends on its Arrow
type: some types are not supported, and dates and times are sent as the bare numbers of
their Arrow words.
-/

namespace SecureFusion.Sinks

open Library Sql Crypto

/-- A parameter of a prepared statement. Dates and times are given by their microseconds. -/
inductive Value where
  | null
  | bytes (content : Bytes)
  | int (value : Int)
  | uint (value : Nat)
  | float (word : BitVec 32)
  | double (word : BitVec 64)
  | date (microseconds : Int)
  | time (microseconds : Int)
deriving DecidableEq, Repr

/-- The parameter of an unsigned number: signed if it fits. -/
def Value.ofNat (value : Nat) : Value := if value < 2 ^ 63 then .int value else .uint value

/-- The decimal text of a number with some digits after the point. -/
def decimalText (value : Int) (scale : Nat) : Bytes :=
  let digits := (toString value.natAbs).toList
  let padded := List.replicate (scale + 1 - digits.length) '0' ++ digits
  let whole := padded.take (padded.length - scale)
  let fraction := padded.drop (padded.length - scale)
  utf8Bytes (String.ofList ((if value < 0 then ['-'] else []) ++ whole ++
    (if scale = 0 then [] else '.' :: fraction)))

/-- A decimal number of the library that prints it: at most 28 digits after the point, and a
magnitude of at most 96 bits. -/
def decimalValue (value scale : Int) : Evaluated Value :=
  if 0 ≤ scale ∧ scale ≤ 28 ∧ value.natAbs < 2 ^ 96 then
    .ok (.bytes (decimalText value scale.toNat))
  else .error (.panic "Number exceeds maximum value that can be represented.")

def TimeUnit.nanoseconds : TimeUnit → Int
  | .second => 1000000000
  | .millisecond => 1000000
  | .microsecond => 1000
  | .nanosecond => 1

def primitiveValue (type : PrimitiveType) (word : BitVec type.width) : Evaluated Value :=
  match type, word with
  | .uint8, word | .uint16, word | .uint32, word | .uint64, word => .ok (.ofNat word.toNat)
  | .float32, word => .ok (.float word)
  | .float64, word => .ok (.double word)
  | .decimal32 _ scale, word => decimalValue word.toInt scale
  | .decimal64 _ scale, word => decimalValue word.toInt scale
  | .decimal128 _ scale, word => decimalValue word.toInt scale
  | .timestamp unit _, word =>
    -- the product is a 64-bit number again
    .ok (.date ((word.toInt * TimeUnit.nanoseconds unit).bmod (2 ^ 64) / 1000))
  | _, word => .ok (.int word.toInt)

/-- What the conversion says of a primitive type that it does not support. -/
def unsupported : PrimitiveType → Option String
  | .float16 => some "cannot convert float16 to mysql value"
  | .decimal256 .. => some "cannot convert decimal256 to mysql value"
  | _ => none

/-- The parameter that a value is sent as. -/
def toValue : ScalarValue → Evaluated Value
  | .null => .ok .null
  | .boolean value => .ok ((value.map fun flag => Value.int flag.toInt).getD .null)
  | .primitive type value =>
    match unsupported type, value with
    | some message, _ => .error (.panic ("not implemented: " ++ message))
    | none, some word => primitiveValue type word
    | none, none => .ok .null
  | .text .dictionary _ | .float32List .. | .struct _ =>
    .error (.panic "not implemented: unsupported type for sink")
  | .text _ value => .ok ((value.map fun text => Value.bytes (utf8Bytes text)).getD .null)
  | .bytes _ value => .ok ((value.map Value.bytes).getD .null)

/-- The column of a batch at a position, which must exist. -/
def columnAt (batch : RecordBatch) (index : Nat) : Evaluated ArrowArray :=
  match batch.columns[index]? with
  | some column => .ok column
  | none => .error (.panic "index out of bounds")

/-- The parameters of all rows of a batch, with its columns in the order of a projection. -/
def mapRowsToParamsReordered (batch : RecordBatch) (project : Option (List Nat)) :
    Evaluated (List (List Value)) := do
  let columns ← match project with
    | some order => order.mapM (columnAt batch)
    | none => .ok batch.columns
  (List.range batch.numRows).mapM fun index =>
    columns.mapM fun column => tryFromArray column index >>= toValue

/-- The parameters of every row of a batch. -/
def mapRowsToParams (batch : RecordBatch) : Evaluated (List (List Value)) :=
  mapRowsToParamsReordered batch none

/-! ## What the server should receive -/

/-- The value that stands for a word of a primitive type at the server. -/
def primitiveServerValue (type : PrimitiveType) (word : BitVec type.width) : Value :=
  match type, word with
  | .uint8, word | .uint16, word | .uint32, word | .uint64, word => .ofNat word.toNat
  | .float32, word => .float word
  | .float64, word => .double word
  | .decimal32 _ scale, word | .decimal64 _ scale, word | .decimal128 _ scale, word
  | .decimal256 _ scale, word =>
    .bytes (decimalText (word.toInt * 10 ^ (-scale).toNat) scale.toNat)
  | .date32, word => .date (word.toInt * 86400000000)
  | .date64, word => .date (word.toInt * 1000)
  | .time32Second, word => .time (word.toInt * 1000000)
  | .time32Millisecond, word => .time (word.toInt * 1000)
  | .time64Microsecond, word => .time word.toInt
  | .time64Nanosecond, word => .time (word.toInt / 1000)
  | .timestamp unit _, word => .date (word.toInt * TimeUnit.nanoseconds unit / 1000)
  | .duration unit, word => .time (word.toInt * TimeUnit.nanoseconds unit / 1000)
  | _, word => .int word.toInt

/-- The value that stands for a value of a column at the server, if there is one. -/
def serverValue : ScalarValue → Option Value
  | .null => some .null
  | .boolean value => some ((value.map fun flag => Value.int flag.toInt).getD .null)
  | .primitive type value =>
    if type = .float16 then none else some ((value.map (primitiveServerValue type)).getD .null)
  | .text _ value => some ((value.map fun text => Value.bytes (utf8Bytes text)).getD .null)
  | .bytes _ value => some ((value.map Value.bytes).getD .null)
  | .float32List .. | .struct _ => none

def isPrintable (value scale : Int) : Bool := 0 ≤ scale ∧ scale ≤ 28 ∧ value.natAbs < 2 ^ 96

/-- Words that are sent as what they stand for: no dates, times or durations, only decimal numbers
that can be printed, and only timestamps whose nanoseconds fit in 64 bits. -/
def primitiveBindable (type : PrimitiveType) (word : BitVec type.width) : Bool :=
  match type, word with
  | .decimal32 _ scale, word => isPrintable word.toInt scale
  | .decimal64 _ scale, word => isPrintable word.toInt scale
  | .decimal128 _ scale, word => isPrintable word.toInt scale
  | .timestamp unit _, word =>
    -2 ^ 63 ≤ word.toInt * TimeUnit.nanoseconds unit ∧
      word.toInt * TimeUnit.nanoseconds unit < 2 ^ 63
  | .date32, _ | .date64, _ | .time32Second, _ | .time32Millisecond, _ | .time64Microsecond, _
  | .time64Nanosecond, _ | .duration _, _ => false
  | _, _ => true

def bindable : ScalarValue → Bool
  | .null | .boolean _ | .bytes .. => true
  | .text layout _ => layout ≠ .dictionary
  | .primitive type value => (unsupported type).isNone && value.all (primitiveBindable type)
  | .float32List .. | .struct _ => false

theorem decimalValue_eq_ok_iff (value scale : Int) :
    decimalValue value scale =
        .ok (.bytes (decimalText (value * 10 ^ (-scale).toNat) scale.toNat)) ↔
      isPrintable value scale = true := by
  rw [isPrintable, decide_eq_true_eq, decimalValue]
  constructor
  · intro sent
    by_contra unprintable
    rw [if_neg unprintable] at sent
    cases sent
  · intro printable
    have noFactor : (-scale).toNat = 0 := by omega
    rw [if_pos printable, noFactor, Int.pow_zero, Int.mul_one]

theorem bmod_div_eq_iff (nanoseconds : Int) :
    nanoseconds.bmod (2 ^ 64) / 1000 = nanoseconds / 1000 ↔
      -2 ^ 63 ≤ nanoseconds ∧ nanoseconds < 2 ^ 63 := by
  have whole := Int.bmod_add_bdiv nanoseconds (2 ^ 64)
  have low : -2 ^ 63 ≤ nanoseconds.bmod (2 ^ 64) := by
    have := @Int.le_bmod nanoseconds (2 ^ 64) (by decide)
    omega
  have high : nanoseconds.bmod (2 ^ 64) < 2 ^ 63 := by
    have := @Int.bmod_lt nanoseconds (2 ^ 64) (by decide)
    omega
  omega

theorem primitiveValue_eq_ok_iff {type : PrimitiveType} (word : BitVec type.width)
    (supported : unsupported type = none) :
    primitiveValue type word = .ok (primitiveServerValue type word) ↔
      primitiveBindable type word = true := by
  cases type with
  | float16 | decimal256 => cases supported
  | int8 | int16 | int32 | int64 | uint8 | uint16 | uint32 | uint64 | float32 | float64
  | intervalYearMonth => exact iff_of_true rfl rfl
  | decimal32 | decimal64 | decimal128 => exact decimalValue_eq_ok_iff _ _
  | timestamp unit =>
    simp only [primitiveValue, primitiveServerValue, primitiveBindable, Except.ok.injEq,
      Value.date.injEq, decide_eq_true_eq]
    exact bmod_div_eq_iff _
  | date32 | date64 | time32Second | time32Millisecond | time64Microsecond | time64Nanosecond
  | duration =>
    refine iff_of_false (fun sent => ?_) Bool.false_ne_true
    simp [primitiveValue, primitiveServerValue] at sent

theorem toValue_eq_ok_iff (value : ScalarValue) :
    (∃ sent, toValue value = .ok sent ∧ serverValue value = some sent) ↔ bindable value = true := by
  cases value with
  | null | boolean | bytes => exact iff_of_true ⟨_, rfl, rfl⟩ rfl
  | text layout =>
    cases layout with
    | dictionary => exact iff_of_false (fun ⟨_, sent, _⟩ => by cases sent) Bool.false_ne_true
    | _ => exact iff_of_true ⟨_, rfl, rfl⟩ rfl
  | float32List | struct => exact iff_of_false (fun ⟨_, sent, _⟩ => by cases sent) Bool.false_ne_true
  | primitive type word =>
    cases supported : unsupported type with
    | some message =>
      refine iff_of_false (fun ⟨_, sent, _⟩ => ?_) (by simp [bindable, supported])
      simp [toValue, supported] at sent
    | none =>
      have notFloat16 : type ≠ .float16 := by
        rintro rfl
        cases supported
      cases word with
      | none => simp [toValue, serverValue, bindable, supported, notFloat16]
      | some word =>
        simp only [toValue, serverValue, bindable, supported, notFloat16, if_false,
          Option.map_some, Option.getD_some, Option.some.injEq, exists_eq_right',
          primitiveValue_eq_ok_iff word supported]
        simp

/-! ## Rows of a batch -/

def cell (batch : RecordBatch) (position row : Nat) : Option ScalarValue :=
  (batch.columns[position]?).bind fun column => column.rows[row]?

variable {batch : RecordBatch}

theorem columnAt_toValue_iff {position row : Nat} {value : Value} :
    (∃ column, columnAt batch position = .ok column ∧
        (tryFromArray column row >>= toValue) = .ok value) ↔
      ∃ content, cell batch position row = some content ∧ toValue content = .ok value := by
  rw [columnAt, cell]
  cases batch.columns[position]? with
  | none => simp
  | some column =>
    simp only [Except.ok.injEq, exists_eq_left', Option.bind_some, tryFromArray]
    cases column.rows[row]? with
    | none => simp
    | some content => simp

theorem mapRowsToParamsReordered_eq_ok_iff {order : List Nat}
    (inBatch : ∀ position ∈ order, position < batch.columns.length) {rows : List (List Value)} :
    mapRowsToParamsReordered batch (some order) = .ok rows ↔
      List.Forall₂ (fun row params => List.Forall₂ (fun position value =>
        ∃ content, cell batch position row = some content ∧ toValue content = .ok value)
          order params) (List.range batch.numRows) rows := by
  have found : ∀ position ∈ order, ∃ column, columnAt batch position = .ok column := by
    intro position member
    rw [columnAt, List.getElem?_eq_getElem (inBatch position member)]
    exact ⟨_, rfl⟩
  obtain ⟨columns, isProjected⟩ := Outcome.exists_mapM found
  have eachRow : ∀ row params,
      (columns.mapM fun column => tryFromArray column row >>= toValue) = .ok params ↔
        List.Forall₂ (fun position value =>
          ∃ content, cell batch position row = some content ∧ toValue content = .ok value)
            order params := by
    intro row params
    have loops := @Outcome.mapM_mapM_eq_ok_iff _ _ _ _ (columnAt batch) order
      (fun column => tryFromArray column row >>= toValue) params
    simp only [isProjected, Except.ok.injEq, exists_eq_left', columnAt_toValue_iff] at loops
    exact loops
  rw [mapRowsToParamsReordered]
  simp only [isProjected, Outcome.ok_bind]
  rw [Outcome.mapM_eq_ok_iff]
  simp only [eachRow]

theorem mapRowsToParams_eq (batch : RecordBatch) :
    mapRowsToParams batch =
      mapRowsToParamsReordered batch (some (List.range batch.columns.length)) := by
  have all : (List.range batch.columns.length).mapM (columnAt batch) = .ok batch.columns := by
    rw [Outcome.mapM_eq_ok_iff, List.forall₂_iff_get]
    refine ⟨List.length_range, fun position _ bound => ?_⟩
    simp [columnAt, bound]
  rw [mapRowsToParams, mapRowsToParamsReordered, mapRowsToParamsReordered]
  simp only [all]

end SecureFusion.Sinks
