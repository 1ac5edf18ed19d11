import SecureFusion.Frontend.Wire

/-!
# Rows of the binary protocol

Every row of a result is sent as one packet: a header, a null bitmap and the values
that are not null. The bitmap is shared between the rows of a batch and made for the
client's side, without offset, and the bit that is set is that of the row instead of
the column. A client reads the bitmap at an offset of two bits. What it gets is the
row exactly if both bitmaps have the same length and the bits happen to be right.
-/

namespace SecureFusion.Frontend

open Library Sql List

variable {columns pos : Nat} {rows : Nat → List ScalarValue} {nulls : NullBitmap 0}
  {changed : NullBitmap 0} {value : ScalarValue} {body : Bytes} {type : DataType}
  {column : Nat} {count : Nat} {index : Nat}

/-! ## Batches -/

def contentLength : ScalarValue → Nat
  | .text _ (some text) => (utf8Bytes text).length
  | .bytes _ (some bytes) => bytes.length
  | _ => 0

/-- A column of a batch. -/
structure ArrowColumn (rows : Nat) where
  type : DataType
  value : Fin rows → ScalarValue
  /-- All values have the type of the column. -/
  typed : ∀ row, (value row).hasType type
  /-- Lengths of values are signed 64-bit numbers at most. -/
  fits : ∀ row, contentLength (value row) < 2 ^ 63

/-- A batch of rows. -/
structure RecordBatch where
  numRows : Nat
  columns : List (ArrowColumn numRows)

namespace RecordBatch

variable (batch : RecordBatch)

def row (pos : Fin batch.numRows) : List ScalarValue := batch.columns.map (·.value pos)

def types : List DataType := batch.columns.map (·.type)

end RecordBatch

/-! ## Sending -/

/-- The types that the binary protocol sends. -/
def hasSerializer : DataType → Bool
  | .bytes .binary | .bytes .largeBinary | .text .utf8 | .text .largeUtf8 => true
  | .primitive .int8 | .primitive .uint8 | .primitive .int16 | .primitive .uint16
  | .primitive .int32 | .primitive .uint32 | .primitive .int64 | .primitive .uint64
  | .primitive .float32 | .primitive .float64 => true
  | _ => false

/-- The bytes of a value that is not null. -/
def serialize : ScalarValue → Bytes
  | .bytes _ (some bytes) => lenencStr bytes
  | .text _ (some text) => lenencStr (utf8Bytes text)
  | .primitive type (some word) => leBytes type.bytes word.toNat
  | _ => []

/-- Writes the cells of a row and their bits; none if the bitmap has no such bit. -/
def writeCells (pos : Nat) :
    List ScalarValue → NullBitmap 0 → Option (NullBitmap 0 × Bytes)
  | [], nulls => some (nulls, [])
  | cell :: rest, nulls => do
    -- The position is that of the row.
    let nulls ← nulls.set pos cell.isNull
    let (nulls, body) ← writeCells pos rest nulls
    some (nulls, (if cell.isNull then [] else serialize cell) ++ body)

/-- The packets that were sent, and whether sending panicked. -/
structure Sent where
  packets : List Bytes
  panicked : Bool

/-- Sends rows one after the other, with the bitmap that the earlier ones left. -/
def sendRows (rows : Nat → List ScalarValue) : (pos count : Nat) → NullBitmap 0 → Sent
  | _, 0, _ => ⟨[], false⟩
  | pos, count + 1, nulls =>
    match writeCells pos (rows pos) nulls with
    | none => ⟨[], true⟩
    | some (nulls, body) =>
      let sent := sendRows rows (pos + 1) count nulls
      ⟨(0 :: nulls.bytes ++ body) :: sent.packets, sent.panicked⟩

/-- Sends the rows of a batch with one bitmap. -/
def sendBatch (batch : RecordBatch) : Sent :=
  if batch.types.all hasSerializer then
    sendRows (fun pos => if inside : pos < batch.numRows then batch.row ⟨pos, inside⟩ else [])
      0 batch.numRows (.new batch.columns.length)
  else ⟨[], true⟩

/-! ## Reading a row -/

def decodeValue : DataType → Bytes → Option (ScalarValue × Bytes)
  | .bytes layout, bytes => do
    let (content, rest) ← checkedEatLenencStr bytes
    some (.bytes layout (some content), rest)
  | .text layout, bytes => do
    let (content, rest) ← checkedEatLenencStr bytes
    some (.text layout (some (← textOfUtf8 content)), rest)
  | .primitive type, bytes => do
    let (word, rest) ← eatPrimitive type bytes
    some (.primitive type (some word), rest)
  | _, _ => none

/-- Reads the values of the columns from one on, to the end of the packet. -/
def decodeCells (nulls : NullBitmap 2) : Nat → List DataType → Bytes →
    Option (List ScalarValue)
  | _, [], bytes => if bytes.isEmpty then some [] else none
  | column, type :: types, bytes =>
    if nulls.isNull column then do
      some (.nullOf type :: (← decodeCells nulls (column + 1) types bytes))
    else do
      let (value, rest) ← decodeValue type bytes
      some (value :: (← decodeCells nulls (column + 1) types rest))

/-- Reads a row as a client does. -/
def decodeRow (types : List DataType) : Bytes → Option (List ScalarValue)
  | 0 :: bytes => do
    let (bitmap, body) ← checkedEat (NullBitmap.bitmapLen 2 types.length) bytes
    decodeCells ⟨bitmap⟩ 0 types body
  | _ => none

/-! ## What a client reads of the values -/

def bodyOf (row : List ScalarValue) : Bytes :=
  row.flatMap fun cell => if cell.isNull then [] else serialize cell

theorem decodeValue_serialize (typed : value.hasType type) (supported : hasSerializer type)
    (fits : contentLength value < 2 ^ 63) (notNull : value.isNull = false) (rest : Bytes) :
    decodeValue type (serialize value ++ rest) = some (value, rest) := by
  unfold ScalarValue.hasType at typed
  split at typed
  case h_3 word =>
    have same := of_decide_eq_true typed
    subst same
    obtain ⟨word, rfl⟩ := Option.isSome_iff_exists.mp (Option.isNone_eq_false_iff.mp notNull)
    rw [decodeValue, serialize, eatPrimitive_leBytes]
    rfl
  case h_4 text =>
    have same := of_decide_eq_true typed
    subst same
    obtain ⟨text, rfl⟩ := Option.isSome_iff_exists.mp (Option.isNone_eq_false_iff.mp notNull)
    have short : (utf8Bytes text).length < 2 ^ 64 := Nat.lt_trans fits (by decide)
    rw [decodeValue, serialize, checkedEatLenencStr_lenencStr short]
    simp
  case h_5 bytes =>
    have same := of_decide_eq_true typed
    subst same
    obtain ⟨bytes, rfl⟩ := Option.isSome_iff_exists.mp (Option.isNone_eq_false_iff.mp notNull)
    have short : bytes.length < 2 ^ 64 := Nat.lt_trans fits (by decide)
    rw [decodeValue, serialize, checkedEatLenencStr_lenencStr short]
    rfl
  all_goals first | cases supported | cases typed

theorem length_of_decodeValue {bytes rest : Bytes}
    (decoded : decodeValue type bytes = some (value, rest)) :
    value.isNull = false ∧ (serialize value).length + rest.length ≤ bytes.length := by
  cases type with
  | bytes layout =>
    simp only [decodeValue, bind_some_iff, Option.some.injEq, Prod.mk.injEq] at decoded
    obtain ⟨⟨content, left⟩, eaten, rfl, rfl⟩ := decoded
    exact ⟨rfl, length_of_checkedEatLenencStr eaten⟩
  | text layout =>
    simp only [decodeValue, bind_some_iff, Option.some.injEq, Prod.mk.injEq] at decoded
    obtain ⟨⟨content, left⟩, eaten, text, isText, rfl, rfl⟩ := decoded
    refine ⟨rfl, ?_⟩
    have same : utf8Bytes text = content := utf8Bytes_of_textOfUtf8 isText
    rw [serialize, same]
    exact length_of_checkedEatLenencStr eaten
  | primitive type =>
    simp only [decodeValue, bind_some_iff, Option.some.injEq, Prod.mk.injEq] at decoded
    obtain ⟨⟨word, left⟩, eaten, rfl, rfl⟩ := decoded
    have length : bytes.length = type.bytes + left.length := length_of_eatWord eaten
    refine ⟨rfl, ?_⟩
    show (leBytes type.bytes word.toNat).length + left.length ≤ bytes.length
    rw [length_leBytes]
    omega
  | _ => cases decoded

theorem flags_of_decodeCells {nulls : NullBitmap 2} {types : List DataType} {bytes : Bytes}
    {row : List ScalarValue} (decoded : decodeCells nulls column types bytes = some row) :
    (∀ (index : Nat) (value : ScalarValue), row[index]? = some value →
      nulls.isNull (column + index) = value.isNull) ∧
      (bodyOf row).length ≤ bytes.length := by
  induction types generalizing column bytes row with
  | nil =>
    rw [decodeCells] at decoded
    split at decoded <;> cases decoded
    exact ⟨fun index value found => by simp at found, Nat.zero_le _⟩
  | cons type types ih =>
    rw [decodeCells] at decoded
    split at decoded
    case isTrue flagged =>
      simp only [bind_some_iff, Option.some.injEq] at decoded
      obtain ⟨others, decodedRest, rfl⟩ := decoded
      obtain ⟨flags, length⟩ := ih decodedRest
      constructor
      · intro index value found
        cases index with
        | zero =>
          cases found
          rw [Nat.add_zero, flagged, ScalarValue.isNull_nullOf]
        | succ index =>
          have at_ := flags index value found
          rwa [Nat.add_assoc, Nat.add_comm 1] at at_
      · simpa [bodyOf] using length
    case isFalse unflagged =>
      simp only [bind_some_iff, Option.some.injEq] at decoded
      obtain ⟨⟨value, rest⟩, decodedFirst, others, decodedRest, rfl⟩ := decoded
      obtain ⟨notNull, firstLength⟩ := length_of_decodeValue decodedFirst
      obtain ⟨flags, length⟩ := ih decodedRest
      constructor
      · intro index value found
        cases index with
        | zero =>
          cases found
          rw [Nat.add_zero, notNull]
          exact Bool.not_eq_true _ ▸ unflagged
        | succ index =>
          have at_ := flags index value found
          rwa [Nat.add_assoc, Nat.add_comm 1] at at_
      · have here : bodyOf (value :: others) = serialize value ++ bodyOf others := by
          simp [bodyOf, notNull]
        have length : (bodyOf others).length ≤ rest.length := length
        rw [here, length_append]
        omega

theorem decodeCells_bodyOf {nulls : NullBitmap 2} {types : List DataType} {row : List ScalarValue}
    (typed : List.Forall₂ (fun type value => value.hasType type ∧ hasSerializer type ∧
      contentLength value < 2 ^ 63) types row)
    (flags : ∀ (index : Nat) (value : ScalarValue), row[index]? = some value →
      nulls.isNull (column + index) = value.isNull) :
    decodeCells nulls column types (bodyOf row) = some row := by
  induction typed generalizing column with
  | nil => rfl
  | @cons type value types row first _ ih =>
    have here := flags 0 value rfl
    rw [Nat.add_zero] at here
    have rest : decodeCells nulls (column + 1) types (bodyOf row) = some row := by
      apply ih
      intro index other found
      have at_ := flags (index + 1) other found
      rwa [Nat.add_comm index, ← Nat.add_assoc] at at_
    rw [decodeCells, here]
    cases null : value.isNull with
    | true =>
      have same := ScalarValue.eq_nullOf first.1 null
      have body : bodyOf (value :: row) = bodyOf row := by simp [bodyOf, null]
      rw [if_pos rfl, body, rest, ← same]
      rfl
    | false =>
      have body : bodyOf (value :: row) = serialize value ++ bodyOf row := by simp [bodyOf, null]
      rw [if_neg Bool.false_ne_true, body, decodeValue_serialize first.1 first.2.1 first.2.2 null]
      simp [rest]

/-! ## The shared bitmap -/

def lastNull (row : List ScalarValue) : Bool := (row.getLast?.map ScalarValue.isNull).getD false

/-- The bitmap after some rows: the bit of each of them is that of its last cell. -/
structure AfterRows (rows : Nat → List ScalarValue) (columns pos : Nat) (nulls : NullBitmap 0) :
    Prop where
  length : nulls.bytes.length = NullBitmap.bitmapLen 0 columns
  bits : ∀ column, nulls.isNull column = (decide (column < pos) && lastNull (rows column))

theorem writeCells_spec {cells : List ScalarValue}
    (written : writeCells pos cells nulls = some (changed, body)) :
    changed.bytes.length = nulls.bytes.length ∧ body = bodyOf cells ∧
      ∀ column, changed.isNull column =
        if column = pos ∧ cells ≠ [] then lastNull cells else nulls.isNull column := by
  induction cells generalizing nulls body with
  | nil =>
    cases written
    exact ⟨rfl, rfl, fun column => by simp⟩
  | cons cell rest ih =>
    simp only [writeCells, bind_some_iff, Option.some.injEq, Prod.mk.injEq] at written
    obtain ⟨first, set, ⟨second, restBody⟩, writtenRest, rfl, rfl⟩ := written
    obtain ⟨length, bodyRest, bits⟩ := ih writtenRest
    refine ⟨length.trans (NullBitmap.length_set set), by rw [bodyRest]; rfl, ?_⟩
    intro column
    rw [bits column, NullBitmap.isNull_set set]
    by_cases here : column = pos
    · cases rest with
      | nil => simp [here, lastNull]
      | cons next others => simp [here, lastNull, getLast?_cons_cons]
    · simp [here]

theorem isSome_writeCells (pos : Nat) (cells : List ScalarValue) (nulls : NullBitmap 0) :
    (writeCells pos cells nulls).isSome ↔ cells = [] ∨ pos / 8 < nulls.bytes.length := by
  induction cells generalizing nulls with
  | nil => simp [writeCells]
  | cons cell rest ih =>
    have settable := NullBitmap.isSome_set nulls pos cell.isNull
    rw [Nat.add_zero] at settable
    cases set : nulls.set pos cell.isNull with
    | none =>
      rw [set] at settable
      simp [writeCells, set, ← settable]
    | some changed =>
      rw [set] at settable
      have inside : pos / 8 < nulls.bytes.length := settable.mp rfl
      have written := (ih changed).mpr (.inr (by rwa [NullBitmap.length_set set]))
      obtain ⟨⟨after, body⟩, isWritten⟩ := Option.isSome_iff_exists.mp written
      simp [writeCells, set, isWritten, inside]

section After

variable (after : AfterRows rows columns pos nulls)

include after

theorem AfterRows.step (written : writeCells pos (rows pos) nulls = some (changed, body)) :
    AfterRows rows columns (pos + 1) changed := by
  obtain ⟨length, _, bits⟩ := writeCells_spec written
  refine ⟨length.trans after.length, fun column => ?_⟩
  rw [bits column, after.bits column]
  by_cases here : column = pos
  · subst here
    by_cases empty : rows column = []
    · simp [empty, lastNull]
    · simp [empty]
  · have order : column < pos + 1 ↔ column < pos := by omega
    simp [here, order]

theorem packet_of_sendRows {packet : Bytes}
    (sent : (sendRows rows pos count nulls).packets[index]? = some packet) :
    ∃ changed, AfterRows rows columns (pos + index + 1) changed ∧
      packet = 0 :: changed.bytes ++ bodyOf (rows (pos + index)) ∧
      (rows (pos + index) = [] ∨ (pos + index) / 8 < NullBitmap.bitmapLen 0 columns) := by
  induction count generalizing pos nulls index with
  | zero => simp [sendRows] at sent
  | succ count ih =>
    rw [sendRows] at sent
    cases written : writeCells pos (rows pos) nulls with
    | none => simp [written] at sent
    | some result =>
      obtain ⟨changed, body⟩ := result
      have next := after.step written
      simp only [written] at sent
      cases index with
      | zero =>
        cases sent
        refine ⟨changed, next, ?_, ?_⟩
        · rw [(writeCells_spec written).2.1]
          rfl
        · rw [← after.length]
          exact (isSome_writeCells pos (rows pos) nulls).mp (by rw [written]; rfl)
      | succ index =>
        rw [getElem?_cons_succ] at sent
        obtain ⟨later, afterLater, isPacket, inside⟩ := ih next sent
        have shift : pos + 1 + index = pos + (index + 1) := by omega
        rw [shift] at afterLater isPacket inside
        exact ⟨later, afterLater, isPacket, inside⟩

theorem exists_packet (isRow : index < count)
    (inside : (pos + index) / 8 < NullBitmap.bitmapLen 0 columns) :
    ∃ packet, (sendRows rows pos count nulls).packets[index]? = some packet := by
  induction count generalizing pos nulls index with
  | zero => omega
  | succ count ih =>
    have here : (writeCells pos (rows pos) nulls).isSome := by
      rw [isSome_writeCells, after.length]
      right
      have below : pos / 8 ≤ (pos + index) / 8 := Nat.div_le_div_right (by omega)
      omega
    obtain ⟨⟨changed, body⟩, written⟩ := Option.isSome_iff_exists.mp here
    simp only [sendRows, written]
    cases index with
    | zero => exact ⟨_, rfl⟩
    | succ index =>
      rw [getElem?_cons_succ]
      have shift : pos + 1 + index = pos + (index + 1) := by omega
      exact ih (after.step written) (by omega) (by rwa [shift])

end After

/-! ## Packets of a batch -/

namespace RecordBatch

variable (batch : RecordBatch)

/-- Whether the last cell of a row is null; there is none beyond the rows. -/
def lastNull (pos : Nat) : Bool :=
  if inside : pos < batch.numRows then Frontend.lastNull (batch.row ⟨pos, inside⟩) else false

/-- The bits that a client reads for a row are right: both sides have bitmaps of one length, the
bitmap has a bit for the row, and a cell is null exactly if the row two after the number of its
column was sent before, or is this one, and ends with a null. -/
def ReadsRight (pos : Fin batch.numRows) : Prop :=
  (1 ≤ batch.columns.length % 8 ∧ batch.columns.length % 8 ≤ 6) ∧
    pos / 8 < (batch.columns.length + 7) / 8 ∧
    ∀ (column : Nat) (value : ScalarValue), (batch.row pos)[column]? = some value →
      (value.isNull ↔ column + 2 ≤ pos ∧ batch.lastNull (column + 2))

def rowAt (pos : Nat) : List ScalarValue :=
  if inside : pos < batch.numRows then batch.row ⟨pos, inside⟩ else []

variable {batch}

theorem typed_row (supported : ∀ column ∈ batch.columns, hasSerializer column.type)
    (pos : Fin batch.numRows) :
    List.Forall₂ (fun type value => value.hasType type ∧ hasSerializer type ∧
      contentLength value < 2 ^ 63) batch.types (batch.row pos) := by
  rw [types, row, forall₂_map_left_iff, forall₂_map_right_iff, forall₂_same]
  intro column isColumn
  exact ⟨column.typed pos, supported column isColumn, column.fits pos⟩

theorem decodeRow_packet (supported : ∀ column ∈ batch.columns, hasSerializer column.type)
    (pos : Fin batch.numRows) (after : AfterRows batch.rowAt batch.columns.length (pos + 1) nulls) :
    decodeRow batch.types (0 :: nulls.bytes ++ bodyOf (batch.row pos)) = some (batch.row pos) ↔
      (1 ≤ batch.columns.length % 8 ∧ batch.columns.length % 8 ≤ 6) ∧
      ∀ (column : Nat) (value : ScalarValue), (batch.row pos)[column]? = some value →
        (value.isNull ↔ column + 2 ≤ pos ∧ batch.lastNull (column + 2)) := by
  have count : batch.types.length = batch.columns.length := length_map _
  have length : nulls.bytes.length = (batch.columns.length + 7) / 8 := after.length
  have expected : NullBitmap.bitmapLen 2 batch.types.length = (batch.columns.length + 9) / 8 := by
    rw [count]
    rfl
  -- The client's bit of a column is the bit of the row two after its number.
  have bits : ∀ column, (⟨nulls.bytes⟩ : NullBitmap 2).isNull column = true ↔
      column + 2 ≤ pos ∧ batch.lastNull (column + 2) := by
    intro column
    have same : (⟨nulls.bytes⟩ : NullBitmap 2).isNull column = nulls.isNull (column + 2) := rfl
    have last : Frontend.lastNull (batch.rowAt (column + 2)) = batch.lastNull (column + 2) := by
      rw [rowAt, lastNull]
      split <;> rfl
    rw [same, after.bits, last, Bool.and_eq_true, decide_eq_true_eq, Nat.lt_succ_iff]
  have read : decodeRow batch.types (0 :: nulls.bytes ++ bodyOf (batch.row pos)) =
      (checkedEat (NullBitmap.bitmapLen 2 batch.types.length)
        (nulls.bytes ++ bodyOf (batch.row pos))).bind
          fun parts => decodeCells ⟨parts.1⟩ 0 batch.types parts.2 := rfl
  rw [read]
  by_cases sameLength : 1 ≤ batch.columns.length % 8 ∧ batch.columns.length % 8 ≤ 6
  · rw [checkedEat_append (by rw [length, expected]; omega), Option.bind_some]
    refine (Iff.intro ?_ ?_).trans (and_iff_right sameLength).symm
    · intro decoded column value found
      have flag := (flags_of_decodeCells decoded).1 column value found
      rw [Nat.zero_add] at flag
      rw [← flag]
      exact bits column
    · intro right
      apply decodeCells_bodyOf (typed_row supported pos)
      intro column value found
      rw [Nat.zero_add, Bool.eq_iff_iff, bits column, right column value found]
  · -- The client takes one byte of the values for its bitmap, so that too few are left.
    refine iff_of_false ?_ (fun both => sameLength both.1)
    intro decoded
    rw [Option.bind_eq_some_iff] at decoded
    obtain ⟨⟨front, rest⟩, eaten, decoded⟩ := decoded
    obtain ⟨frontLength, split⟩ := append_of_checkedEat eaten
    have enough := (flags_of_decodeCells decoded).2
    have total := congrArg List.length split
    rw [List.length_append, List.length_append, length, frontLength, expected] at total
    dsimp only at enough
    omega

/-- A client reads a row from the packet that is sent for it exactly if its bits are right. -/
theorem packet_decodes_iff (supported : ∀ column ∈ batch.columns, hasSerializer column.type)
    (pos : Fin batch.numRows) :
    ((sendBatch batch).packets[pos.val]?).bind (decodeRow batch.types) = some (batch.row pos) ↔
      batch.ReadsRight pos := by
  have allSupported : batch.types.all hasSerializer := by
    rw [all_eq_true]
    intro type isType
    obtain ⟨column, isColumn, rfl⟩ := mem_map.mp isType
    exact supported column isColumn
  have start : AfterRows batch.rowAt batch.columns.length 0 (.new batch.columns.length) :=
    ⟨length_replicate, fun column => by simp⟩
  have here : batch.rowAt pos = batch.row pos := dif_pos pos.isLt
  have sends : sendBatch batch = sendRows batch.rowAt 0 batch.numRows
      (.new batch.columns.length) := if_pos allSupported
  rw [sends]
  constructor
  · intro decoded
    rw [Option.bind_eq_some_iff] at decoded
    obtain ⟨packet, sent, decoded⟩ := decoded
    obtain ⟨nulls, after, rfl, inside⟩ := packet_of_sendRows start sent
    rw [Nat.zero_add] at after decoded inside
    rw [here] at decoded inside
    obtain ⟨sameLength, right⟩ := (decodeRow_packet supported pos after).mp decoded
    have cells : batch.row pos ≠ [] := by
      intro empty
      have none_ : batch.columns.length = 0 := by
        rw [← length_map, ← row, empty]
        rfl
      omega
    exact ⟨sameLength, inside.resolve_left cells, right⟩
  · rintro ⟨sameLength, inside, right⟩
    obtain ⟨packet, sent⟩ := exists_packet start pos.isLt (by rw [Nat.zero_add]; exact inside)
    rw [sent, Option.bind_some]
    obtain ⟨nulls, after, rfl, _⟩ := packet_of_sendRows start sent
    rw [Nat.zero_add] at after ⊢
    rw [here]
    exact (decodeRow_packet supported pos after).mpr ⟨sameLength, right⟩

def ofBytes (numRows : Nat) (columns : List (Fin numRows → Option (BitVec 8))) : RecordBatch :=
  ⟨numRows, columns.map fun column =>
    ⟨.primitive .int8, fun row => .primitive .int8 (column row), fun _ => rfl,
      fun _ => Nat.pow_pos (by decide)⟩⟩

/-- The second row of a batch without nulls is read back. -/
theorem packet_decodes_second_row :
    let batch := ofBytes 2 [fun row => some row.val, fun _ => some 7, fun _ => some 255]
    ((sendBatch batch).packets[1]?).bind (decodeRow batch.types) =
      some [.primitive .int8 (some 1), .primitive .int8 (some 7), .primitive .int8 (some 255)] := by
  refine (@packet_decodes_iff (ofBytes 2 [fun row => some row.val, fun _ => some 7,
    fun _ => some 255]) ?_ ⟨1, by decide⟩).mpr ⟨by decide, by decide, ?_⟩
  · intro column isColumn
    obtain ⟨values, _, rfl⟩ := mem_map.mp isColumn
    rfl
  · intro column value found
    have notNull : ∀ cell ∈ (ofBytes 2 [fun row => some row.val, fun _ => some 7,
        fun _ => some 255]).row ⟨1, by decide⟩, cell.isNull = false := by decide
    rw [notNull value (mem_of_getElem? found)]
    refine iff_of_false Bool.false_ne_true ?_
    rintro ⟨before, _⟩
    have one : column + 2 ≤ 1 := before
    omega

/-- A null is not read as such, a row of eight columns is not read at all, and the ninth row of one
column is not sent. -/
theorem packet_misread :
    let withNull := ofBytes 1 [fun _ => some 1, fun _ => none, fun _ => some 3]
    let eightColumns := ofBytes 1 (List.replicate 8 fun _ => some 0)
    let nineRows := ofBytes 9 [fun _ => some 0]
    ((sendBatch withNull).packets[0]?).bind (decodeRow withNull.types) = none ∧
      ((sendBatch eightColumns).packets[0]?).bind (decodeRow eightColumns.types) = none ∧
      (sendBatch nineRows).packets.length = 8 ∧ (sendBatch nineRows).panicked := by
  decide +kernel

end RecordBatch

end SecureFusion.Frontend
