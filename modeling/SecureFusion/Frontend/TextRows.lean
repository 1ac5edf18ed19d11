import SecureFusion.Library.Rows
import SecureFusion.Frontend.BinaryProtocol

/-!
# Rows of the text protocol

Every value of a row is a length-encoded string, or a single byte that stands for null. Values of
most types are formatted straight into the packet, behind room for a length whose width is estimated
from the type; if it was wrong, the text is moved. Which values are null is taken from the null
buffer of the column, and a column of type Null has none.
-/

namespace SecureFusion.Frontend

open Library Sql List

/-! ## Sizes -/

/-- How long a value is expected to be. -/
inductive SizeHint where
  | small
  | medium
  | large
  | huge
deriving DecidableEq, Repr

namespace SizeHint

/-- The bytes of an encoded length. -/
def getSizeBytes : SizeHint → Nat
  | small => 1
  | medium => 3
  | large => 4
  | huge => 9

def maxStrSize : SizeHint → Nat
  | small => 251
  | medium => 65536
  | large => 16777216
  | huge => 2 ^ 64 - 1

def minStrSize : SizeHint → Nat
  | small => 0
  | medium => small.maxStrSize
  | large => medium.maxStrSize
  | huge => large.maxStrSize

def fromSize (size : Nat) : SizeHint :=
  if size < small.maxStrSize then small
  else if size < medium.maxStrSize then medium
  else if size < large.maxStrSize then large
  else huge

theorem length_lenencInt (size : Nat) : (lenencInt size).length = (fromSize size).getSizeBytes := by
  unfold lenencInt fromSize
  simp only [maxStrSize]
  split_ifs <;> simp [getSizeBytes, *]

theorem fromSize_of_bounds {hint : SizeHint} {size : Nat} (least : hint.minStrSize ≤ size)
    (most : size < hint.maxStrSize) : fromSize size = hint := by
  have above : ∀ other : SizeHint, other.maxStrSize ≤ hint.minStrSize →
      ¬size < other.maxStrSize := by
    intro other le
    omega
  unfold fromSize
  cases hint with
  | small => rw [if_pos most]
  | medium => rw [if_neg (above small (by decide)), if_pos most]
  | large => rw [if_neg (above small (by decide)), if_neg (above medium (by decide)), if_pos most]
  | huge =>
    rw [if_neg (above small (by decide)), if_neg (above medium (by decide)),
      if_neg (above large (by decide))]

end SizeHint

/-! ## Writing a value -/

/-- How writing a row fails. -/
inductive RowFailure where
  | arrow (message : String)
  | panic (message : String)
deriving DecidableEq, Repr

/-- Arrow's formatter of values; what it writes fits into memory. -/
structure ArrayFormatter where
  value : ScalarValue → Except RowFailure Bytes
  fits : ∀ {scalar text}, value scalar = .ok text → text.length < 2 ^ 63

def magicTextNull : UInt8 := 0xFB

/-- Writes some bytes into a part of the packet; what does not fit makes it panic. -/
def overwrite (out : Bytes) (start width : Nat) (bytes : Bytes) :
    Except RowFailure Bytes :=
  if bytes.length ≤ width then
    .ok (out.take start ++ bytes ++ out.drop (start + bytes.length))
  else .error (.panic "advance out of bounds")

/-- Writes a text behind room for its length, and then the length. -/
def putFormatted (sizeHint : SizeHint) (text out : Bytes) :
    Except RowFailure Bytes :=
  let bytesForSize := sizeHint.getSizeBytes
  let startPos := out.length
  let out := out ++ List.replicate bytesForSize 0
  let out := out ++ text
  let strSize := out.length - startPos - bytesForSize
  if sizeHint.minStrSize ≤ strSize ∧ strSize < sizeHint.maxStrSize then
    overwrite out startPos bytesForSize (lenencInt strSize)
  else
    let newBytesForSize := (SizeHint.fromSize strSize).getSizeBytes
    let split := out.drop (startPos + bytesForSize)
    let out := out.take (startPos + bytesForSize)
    let out :=
      if newBytesForSize > bytesForSize then
        out ++ List.replicate (newBytesForSize - bytesForSize) 0
      else out.take (startPos + newBytesForSize)
    let out := out ++ split
    overwrite out startPos newBytesForSize (lenencInt strSize)

theorem overwrite_room {size : Nat} {out room text : Bytes}
    (width : room.length = (SizeHint.fromSize size).getSizeBytes) :
    overwrite (out ++ room ++ text) out.length (SizeHint.fromSize size).getSizeBytes
      (lenencInt size) = .ok (out ++ lenencInt size ++ text) := by
  have length := SizeHint.length_lenencInt size
  have behind : out.length + (lenencInt size).length = (out ++ room).length := by
    rw [length_append, length, width]
  unfold overwrite
  rw [if_pos (Nat.le_of_eq length), behind, drop_left, append_assoc out room, take_left]

variable {text : Bytes}

theorem putFormatted_eq (sizeHint : SizeHint) (fits : text.length < 2 ^ 63)
    (out : Bytes) : putFormatted sizeHint text out = .ok (out ++ lenencStr text) := by
  have strSize : (out ++ replicate sizeHint.getSizeBytes 0 ++ text).length - out.length -
      sizeHint.getSizeBytes = text.length := by
    rw [length_append, length_append, length_replicate]
    omega
  have start : out.length + sizeHint.getSizeBytes =
      (out ++ replicate sizeHint.getSizeBytes (0 : UInt8)).length := by
    rw [length_append, length_replicate]
  unfold putFormatted lenencStr
  simp only [strSize]
  by_cases bounds : sizeHint.minStrSize ≤ text.length ∧ text.length < sizeHint.maxStrSize
  · rw [if_pos bounds]
    have same := SizeHint.fromSize_of_bounds bounds.1 bounds.2
    subst same
    rw [overwrite_room (length_replicate ..), append_assoc]
  · rw [if_neg bounds, start, drop_left, take_left]
    by_cases wider : (SizeHint.fromSize text.length).getSizeBytes > sizeHint.getSizeBytes
    · rw [if_pos wider, append_assoc out, replicate_append_replicate, overwrite_room, append_assoc]
      rw [length_replicate]
      omega
    · have cut : (out ++ replicate sizeHint.getSizeBytes (0 : UInt8)).take
          (out.length + (SizeHint.fromSize text.length).getSizeBytes) =
          out ++ replicate (SizeHint.fromSize text.length).getSizeBytes 0 := by
        rw [take_length_add_append, take_replicate, Nat.min_eq_left (by omega)]
      rw [if_neg wider, cut, overwrite_room (length_replicate ..), append_assoc]

/-- Whether the bytes of a value are copied as they are. -/
def copiesAsIs : DataType → Bool
  | .bytes .binary | .bytes .largeBinary | .text .utf8 | .text .largeUtf8 => true
  | _ => false

def rawBytes : ScalarValue → Bytes
  | .bytes _ (some bytes) => bytes
  | .text _ (some text) => utf8Bytes text
  | _ => []

/-- Formats a value; booleans have a format of their own. -/
def formatValue (formatter : ArrayFormatter) : ScalarValue → Except RowFailure Bytes
  | .boolean (some true) => .ok (utf8Bytes "1")
  | .boolean _ => .ok (utf8Bytes "0")
  | value => formatter.value value

/-- The width that is estimated from the type. -/
def sizeHintOf : DataType → ScalarValue → SizeHint
  | .bytes .binaryView, value => .fromSize (rawBytes value).length
  | .bytes (.fixedSizeBinary size), _ => .fromSize size
  | _, _ => .small

/-- Whether the null buffer of a column marks a value; a column of type Null has none. -/
def markedNull (type : DataType) (value : ScalarValue) : Bool := type ≠ .null && value.isNull

/-- Appends a cell to a packet. -/
def serializeCell (formatter : ArrayFormatter) (type : DataType) (value : ScalarValue)
    (out : Bytes) : Except RowFailure Bytes :=
  if copiesAsIs type then
    .ok (if value.isNull then out ++ [magicTextNull] else out ++ lenencStr (rawBytes value))
  else if markedNull type value then .ok (out ++ [magicTextNull])
  else do
    let text ← formatValue formatter value
    putFormatted (sizeHintOf type value) text out

/-! ## Writing rows -/

/-- A column with the position of its next value. -/
structure TextColumnSerializer (rows : Nat) where
  column : ArrowColumn rows
  position : Nat

/-- Appends the next value of a column, nothing behind its end. -/
def TextColumnSerializer.serializeNext {rows : Nat} (formatter : ArrayFormatter)
    (serializer : TextColumnSerializer rows) (out : Bytes) :
    Except RowFailure (TextColumnSerializer rows × Bytes) :=
  if inside : serializer.position < rows then do
    let out ← serializeCell formatter serializer.column.type
      (serializer.column.value ⟨serializer.position, inside⟩) out
    .ok ({ serializer with position := serializer.position + 1 }, out)
  else .ok (serializer, out)

/-- Appends the next row of all columns. -/
def serializeRow {rows : Nat} (formatter : ArrayFormatter) :
    List (TextColumnSerializer rows) → Bytes →
      Except RowFailure (List (TextColumnSerializer rows) × Bytes)
  | [], out => .ok ([], out)
  | serializer :: rest, out => do
    let (serializer, out) ← serializer.serializeNext formatter out
    let (rest, out) ← serializeRow formatter rest out
    .ok (serializer :: rest, out)

/-- Sends a number of rows. Sending takes all bytes out of the buffer, and a failure of a column
is unwrapped. -/
def sendTextRows {rows : Nat} (formatter : ArrayFormatter) :
    Nat → List (TextColumnSerializer rows) → Sent
  | 0, _ => ⟨[], false⟩
  | count + 1, serializers =>
    match serializeRow formatter serializers [] with
    | .error _ => ⟨[], true⟩
    | .ok (serializers, packet) =>
      let sent := sendTextRows formatter count serializers
      ⟨packet :: sent.packets, sent.panicked⟩

def sendTextBatch (formatter : ArrayFormatter) (batch : RecordBatch) : Sent :=
  sendTextRows formatter batch.numRows (batch.columns.map (⟨·, 0⟩))

/-- Sends batches up to the first panic. -/
def sendTextRecords (formatter : ArrayFormatter) : List RecordBatch → Sent
  | [] => ⟨[], false⟩
  | batch :: rest =>
    let sent := sendTextBatch formatter batch
    if sent.panicked then sent
    else
      let others := sendTextRecords formatter rest
      ⟨sent.packets ++ others.packets, others.panicked⟩

/-! ## Reading a row -/

/-- Reads a cell as a client does. -/
def decodeTextCell (bytes : Bytes) : Option (Option Bytes × Bytes) :=
  if bytes.head? = some magicTextNull then some (none, bytes.drop 1)
  else (checkedEatLenencStr bytes).map fun (text, rest) => (some text, rest)

/-- Reads the values of some columns, to the end of the packet. -/
def decodeTextRow : Nat → Bytes → Option (List (Option Bytes))
  | 0, bytes => if bytes.isEmpty then some [] else none
  | columns + 1, bytes => do
    let (cell, rest) ← decodeTextCell bytes
    some (cell :: (← decodeTextRow columns rest))

/-- The values of a row with the types of their columns. -/
abbrev TypedRow := List (DataType × ScalarValue)

def RecordBatch.typedRows (batch : RecordBatch) : List TypedRow :=
  (List.finRange batch.numRows).map fun row =>
    batch.columns.map fun column => (column.type, column.value row)

def textOf (formatter : ArrayFormatter) (type : DataType) (value : ScalarValue) :
    Except RowFailure Bytes :=
  if copiesAsIs type then .ok (rawBytes value) else formatValue formatter value

/-- What a client has to read for a value: null for a null, otherwise its text. -/
def CellReads (formatter : ArrayFormatter) (typed : DataType × ScalarValue)
    (cell : Option Bytes) : Prop :=
  if typed.2.isNull then cell = none
  else ∃ text, textOf formatter typed.1 typed.2 = .ok text ∧ cell = some text

def RowReads (formatter : ArrayFormatter) (row : TypedRow) (packet : Bytes) : Prop :=
  ∃ cells, decodeTextRow row.length packet = some cells ∧
    List.Forall₂ (CellReads formatter) row cells

/-! ## What is written for a value -/

/-- The bytes of a cell: the mark of a null, or a text behind its length. -/
def encodeCell : Option Bytes → Bytes
  | none => [magicTextNull]
  | some text => lenencStr text

def emittedCell (formatter : ArrayFormatter) (typed : DataType × ScalarValue) :
    Except RowFailure (Option Bytes) :=
  if copiesAsIs typed.1 then .ok (if typed.2.isNull then none else some (rawBytes typed.2))
  else if markedNull typed.1 typed.2 then .ok none
  else (formatValue formatter typed.2).map some

/-- A value that can be in a column. -/
structure CellTyped (cell : DataType × ScalarValue) : Prop where
  typed : cell.2.hasType cell.1
  fits : contentLength cell.2 < 2 ^ 63

theorem length_rawBytes (value : ScalarValue) : (rawBytes value).length = contentLength value := by
  cases value with
  | text layout content | bytes layout content => cases content <;> rfl
  | _ => rfl

theorem formatValue_fits {formatter : ArrayFormatter} {value : ScalarValue}
    (formatted : formatValue formatter value = .ok text) : text.length < 2 ^ 63 := by
  unfold formatValue at formatted
  split at formatted
  · cases formatted
    decide
  · cases formatted
    decide
  · exact formatter.fits formatted

section Rows

variable {formatter : ArrayFormatter} {typed : DataType × ScalarValue} {row : TypedRow}
  {cell : Option Bytes} {rows : Nat} (columns : List (ArrowColumn rows))

theorem emittedCell_fits (cellTyped : CellTyped typed)
    (emitted : emittedCell formatter typed = .ok cell)
    (isText : cell = some text) : text.length < 2 ^ 63 := by
  subst isText
  unfold emittedCell at emitted
  split at emitted
  · rw [Except.ok.injEq] at emitted
    split at emitted
    · cases emitted
    · cases emitted
      rw [length_rawBytes]
      exact cellTyped.fits
  · split at emitted
    · cases emitted
    · cases formatted : formatValue formatter typed.2 with
      | error failure => rw [formatted] at emitted; cases emitted
      | ok found =>
        rw [formatted] at emitted
        cases emitted
        exact formatValue_fits formatted

theorem serializeCell_eq (typed : DataType × ScalarValue) (out : Bytes) :
    serializeCell formatter typed.1 typed.2 out =
      (emittedCell formatter typed).map fun cell => out ++ encodeCell cell := by
  unfold serializeCell emittedCell
  split_ifs with copied null marked
  · rfl
  · rfl
  · rfl
  · cases formatted : formatValue formatter typed.2 with
    | error failure => rfl
    | ok text => exact putFormatted_eq _ (formatValue_fits formatted) out

theorem head?_lenencStr_ne (text rest : Bytes) :
    (lenencStr text ++ rest).head? ≠ some magicTextNull := by
  unfold lenencStr lenencInt
  split_ifs with one two three
  · intro same
    have byte : UInt8.ofNat text.length = magicTextNull := Option.some.inj same
    have value : (UInt8.ofNat text.length).toNat = text.length :=
      UInt8.toNat_ofNat_of_lt (Nat.lt_trans one (by decide))
    have mark : magicTextNull.toNat = 251 := rfl
    rw [byte, mark] at value
    omega
  all_goals
    intro same
    exact absurd (Option.some.inj same) (by decide)

theorem decodeTextCell_encodeCell (fits : ∀ {text}, cell = some text → text.length < 2 ^ 63)
    (rest : Bytes) :
    decodeTextCell (encodeCell cell ++ rest) = some (cell, rest) := by
  cases cell with
  | none => rfl
  | some text =>
    have short : text.length < 2 ^ 64 := Nat.lt_trans (fits rfl) (by decide)
    unfold decodeTextCell encodeCell
    rw [if_neg (head?_lenencStr_ne text rest), checkedEatLenencStr_lenencStr short]
    rfl

theorem decodeTextRow_encodeCells {cells : List (Option Bytes)}
    (rowTyped : ∀ typed ∈ row, CellTyped typed)
    (emitted : List.Forall₂ (fun typed cell => emittedCell formatter typed = .ok cell) row cells) :
    decodeTextRow row.length (cells.flatMap encodeCell) = some cells := by
  induction emitted with
  | nil => rfl
  | @cons typed cell row cells here _ ih =>
    have fits : ∀ {text}, cell = some text → text.length < 2 ^ 63 :=
      emittedCell_fits (rowTyped typed mem_cons_self) here
    have others := ih (forall_mem_cons.mp rowTyped).2
    rw [flatMap_cons, length_cons, decodeTextRow, decodeTextCell_encodeCell fits]
    simp [others]

/-! ## What is written for a row -/

def serializeCells (formatter : ArrayFormatter) (row : TypedRow) (out : Bytes) :
    Except RowFailure Bytes :=
  row.foldlM (fun out typed => serializeCell formatter typed.1 typed.2 out) out

theorem serializeCells_eq_ok_iff {out packet : Bytes} :
    serializeCells formatter row out = .ok packet ↔
      ∃ cells, List.Forall₂ (fun typed cell => emittedCell formatter typed = .ok cell) row cells ∧
        packet = out ++ cells.flatMap encodeCell := by
  induction row generalizing out with
  | nil =>
    constructor
    · intro written
      cases written
      exact ⟨[], .nil, by simp⟩
    · rintro ⟨cells, related, rfl⟩
      cases related
      simp [serializeCells, pure, Except.pure]
  | cons typed row ih =>
    have step : serializeCells formatter (typed :: row) out =
        ((emittedCell formatter typed).map fun cell => out ++ encodeCell cell) >>=
          serializeCells formatter row := by
      rw [← serializeCell_eq]
      rfl
    rw [step]
    cases emitted : emittedCell formatter typed with
    | error failure =>
      constructor
      · intro written
        cases written
      · rintro ⟨cells, related, -⟩
        cases related with
        | cons here _ => rw [emitted] at here; cases here
    | ok cell =>
      change serializeCells formatter row (out ++ encodeCell cell) = _ ↔ _
      rw [ih]
      constructor
      · rintro ⟨cells, related, rfl⟩
        exact ⟨cell :: cells, .cons emitted related, by simp⟩
      · rintro ⟨cells, related, rfl⟩
        cases related with
        | cons here others =>
          rw [emitted] at here
          cases here
          exact ⟨_, others, by simp⟩

/-- A value that arrives: its column is not of type Null, and it is null or has a text. -/
def CellArrives (formatter : ArrayFormatter) (typed : DataType × ScalarValue) : Prop :=
  typed.1 ≠ .null ∧
    (typed.2.isNull = false → ∃ text, textOf formatter typed.1 typed.2 = .ok text)

theorem exists_emittedCell_reads_iff (cellTyped : CellTyped typed) :
    (∃ cell, emittedCell formatter typed = .ok cell ∧ CellReads formatter typed cell) ↔
      CellArrives formatter typed := by
  obtain ⟨type, value⟩ := typed
  by_cases untyped : type = .null
  · subst untyped
    have isNull : value = .null := by
      have typed : value.hasType .null := cellTyped.typed
      cases value <;> first | rfl | cases typed
    subst isNull
    refine iff_of_false ?_ fun arrives => arrives.1 rfl
    rintro ⟨cell, emitted, reads⟩
    have isNone : cell = none := reads
    subst isNone
    cases formatted : formatter.value .null with
    | error failure | ok text => simp [emittedCell, copiesAsIs, markedNull, formatValue, formatted,
        Except.map] at emitted
  · cases null : value.isNull with
    | true =>
      have emitted : emittedCell formatter (type, value) = .ok none := by
        simp [emittedCell, markedNull, untyped, null]
      exact iff_of_true ⟨none, emitted, by simp [CellReads, null]⟩
        ⟨untyped, fun notNull => by simp [null] at notNull⟩
    | false =>
      have emitted : emittedCell formatter (type, value) =
          (textOf formatter type value).map some := by
        unfold emittedCell textOf
        split_ifs with copied marked <;> simp_all [markedNull, Except.map]
      constructor
      · rintro ⟨cell, -, reads⟩
        rw [CellReads, if_neg (by simp [null])] at reads
        obtain ⟨text, hasText, -⟩ := reads
        exact ⟨untyped, fun _ => ⟨text, hasText⟩⟩
      · rintro ⟨-, hasText⟩
        obtain ⟨text, isText⟩ := hasText null
        refine ⟨some text, by rw [emitted, isText]; rfl, ?_⟩
        rw [CellReads, if_neg (by simp [null])]
        exact ⟨text, isText, rfl⟩

theorem exists_serializeCells_reads_iff (rowTyped : ∀ typed ∈ row, CellTyped typed) :
    (∃ packet, serializeCells formatter row [] = .ok packet ∧ RowReads formatter row packet) ↔
      ∀ typed ∈ row, CellArrives formatter typed := by
  constructor
  · rintro ⟨packet, written, cells, decoded, reads⟩ typed isIn
    obtain ⟨emittedCells, emitted, rfl⟩ := serializeCells_eq_ok_iff.mp written
    rw [nil_append, decodeTextRow_encodeCells rowTyped emitted] at decoded
    cases decoded
    obtain ⟨cell, -, both⟩ := Rows.exists_of_forall₂_left (Outcome.forall₂_and emitted reads) isIn
    exact (exists_emittedCell_reads_iff (rowTyped typed isIn)).mp ⟨cell, both⟩
  · intro arrives
    obtain ⟨cells, both⟩ := Outcome.exists_forall₂ fun typed isIn =>
      (exists_emittedCell_reads_iff (rowTyped typed isIn)).mpr (arrives typed isIn)
    have emitted := both.imp fun _ _ here => here.1
    refine ⟨_, serializeCells_eq_ok_iff.mpr ⟨cells, emitted, rfl⟩, cells, ?_,
      both.imp fun _ _ here => here.2⟩
    rw [nil_append, decodeTextRow_encodeCells rowTyped emitted]

/-! ## What is sent -/

def sendCells (formatter : ArrayFormatter) : List TypedRow → Sent
  | [] => ⟨[], false⟩
  | row :: rest =>
    match serializeCells formatter row [] with
    | .error _ => ⟨[], true⟩
    | .ok packet =>
      let sent := sendCells formatter rest
      ⟨packet :: sent.packets, sent.panicked⟩

theorem serializeRow_eq (position : Fin rows) (out : Bytes) :
    serializeRow formatter (columns.map (⟨·, position⟩)) out =
      (serializeCells formatter
        (columns.map fun column => (column.type, column.value position)) out).map
        fun out => (columns.map (⟨·, position + 1⟩), out) := by
  induction columns generalizing out with
  | nil => rfl
  | cons column columns ih =>
    have next : (⟨column, position⟩ : TextColumnSerializer rows).serializeNext formatter out =
        (serializeCell formatter column.type (column.value position) out).map
          fun out => (⟨column, position + 1⟩, out) := by
      unfold TextColumnSerializer.serializeNext
      rw [dif_pos position.isLt]
      cases serializeCell formatter column.type (column.value position) out <;> rfl
    rw [map_cons, map_cons, serializeRow, next]
    unfold serializeCells
    rw [map_cons, foldlM_cons]
    cases written : serializeCell formatter column.type (column.value position) out with
    | error failure => rfl
    | ok out =>
      have rest := ih out
      unfold serializeCells at rest
      simp only [Except.map, Outcome.ok_bind, rest]
      cases foldlM (fun out typed => serializeCell formatter typed.1 typed.2 out) out
        (columns.map fun column => (column.type, column.value position)) <;> rfl

theorem sendTextRows_eq {count position : Nat} (total : position + count = rows) :
    sendTextRows formatter count (columns.map (⟨·, position⟩)) =
      sendCells formatter (((List.finRange rows).drop position).map fun row =>
        columns.map fun column => (column.type, column.value row)) := by
  induction count generalizing position with
  | zero =>
    have none : (finRange rows).drop position = [] := by
      rw [drop_eq_nil_iff, length_finRange]
      omega
    rw [none]
    rfl
  | succ count ih =>
    have inside : position < rows := by omega
    have first : (finRange rows).drop position =
        ⟨position, inside⟩ :: (finRange rows).drop (position + 1) := by
      rw [drop_eq_getElem_cons (by rw [length_finRange]; exact inside), getElem_finRange]
      rfl
    have row := @serializeRow_eq formatter rows columns ⟨position, inside⟩ []
    rw [first, map_cons, sendTextRows, sendCells, row]
    cases serializeCells formatter
      (columns.map fun column => (column.type, column.value ⟨position, inside⟩)) [] with
    | error failure => rfl
    | ok packet =>
      have rest := @ih (position + 1) (by omega)
      simp only [Except.map, rest]

theorem sendTextBatch_eq (batch : RecordBatch) :
    sendTextBatch formatter batch = sendCells formatter batch.typedRows :=
  sendTextRows_eq batch.columns (Nat.zero_add _)

theorem sendCells_append (first second : List TypedRow) :
    sendCells formatter (first ++ second) =
      if (sendCells formatter first).panicked then sendCells formatter first
      else ⟨(sendCells formatter first).packets ++ (sendCells formatter second).packets,
        (sendCells formatter second).panicked⟩ := by
  induction first with
  | nil => rfl
  | cons row rest ih =>
    rw [cons_append, sendCells, sendCells, ih]
    cases serializeCells formatter row [] with
    | error failure => rfl
    | ok packet =>
      simp only
      split <;> simp_all

theorem sendTextRecords_eq (batches : List RecordBatch) :
    sendTextRecords formatter batches =
      sendCells formatter (batches.flatMap RecordBatch.typedRows) := by
  induction batches with
  | nil => rfl
  | cons batch rest ih =>
    rw [flatMap_cons, sendCells_append, sendTextRecords, sendTextBatch_eq, ih]

theorem sendCells_reads_iff (rows : List TypedRow) :
    ((sendCells formatter rows).panicked = false ∧
        List.Forall₂ (RowReads formatter) rows (sendCells formatter rows).packets) ↔
      ∀ row ∈ rows, ∃ packet, serializeCells formatter row [] = .ok packet ∧
        RowReads formatter row packet := by
  induction rows with
  | nil => simp [sendCells]
  | cons row rest ih =>
    rw [forall_mem_cons, ← ih, sendCells]
    cases written : serializeCells formatter row [] with
    | error failure => simp
    | ok packet =>
      simp only [forall₂_cons, Except.ok.injEq, exists_eq_left']
      tauto

theorem mem_typedRows_iff {batch : RecordBatch} {property : DataType × ScalarValue → Prop} :
    (∀ row ∈ batch.typedRows, ∀ typed ∈ row, property typed) ↔
      ∀ column ∈ batch.columns, ∀ row, property (column.type, column.value row) := by
  simp only [RecordBatch.typedRows, forall_mem_map, mem_finRange, forall_const]
  exact ⟨fun all column isIn row => all row column isIn,
    fun all row column isIn => all column isIn row⟩

/-- A client reads every row of some batches from its packet precisely if no column with a row
is of type Null and every value that is not null has a text. -/
theorem text_rows_read_iff (formatter : ArrayFormatter) (batches : List RecordBatch) :
    ((sendTextRecords formatter batches).panicked = false ∧
        List.Forall₂ (RowReads formatter) (batches.flatMap RecordBatch.typedRows)
          (sendTextRecords formatter batches).packets) ↔
      ∀ batch ∈ batches, ∀ column ∈ batch.columns, ∀ row,
        CellArrives formatter (column.type, column.value row) := by
  have typed : ∀ row ∈ batches.flatMap RecordBatch.typedRows, ∀ typed ∈ row, CellTyped typed := by
    intro row isRow
    obtain ⟨batch, isBatch, inBatch⟩ := mem_flatMap.mp isRow
    exact mem_typedRows_iff.mpr (fun column _ row => ⟨column.typed row, column.fits row⟩) row inBatch
  rw [sendTextRecords_eq, sendCells_reads_iff]
  constructor
  · intro reads batch isBatch
    refine mem_typedRows_iff.mp fun row inBatch => ?_
    have isRow := mem_flatMap_of_mem isBatch inBatch
    exact (exists_serializeCells_reads_iff (typed row isRow)).mp (reads row isRow)
  · intro arrives row isRow
    obtain ⟨batch, isBatch, inBatch⟩ := mem_flatMap.mp isRow
    exact (exists_serializeCells_reads_iff (typed row isRow)).mpr
      (mem_typedRows_iff.mpr (arrives batch isBatch) row inBatch)

end Rows

/-- A formatter that writes nothing for a null and gives up on everything else. -/
def nullFormatter : ArrayFormatter where
  value
    | .null => .ok []
    | _ => .error (.arrow "unsupported")
  fits := by
    intro scalar text formatted
    split at formatted
    · cases formatted
      decide
    · cases formatted

def nullBatch : RecordBatch where
  numRows := 1
  columns := [⟨.null, fun _ => .null, fun _ => rfl, fun _ => by decide⟩]

/-- A selected null literal is sent as an empty text. -/
theorem null_literal_reads_empty :
    nullBatch.typedRows = [[(.null, .null)]] ∧
      (sendTextRecords nullFormatter [nullBatch]).packets = [[0]] ∧
      decodeTextRow 1 [0] = some [some []] ∧
      ¬List.Forall₂ (RowReads nullFormatter) nullBatch.typedRows [[0]] := by
  have decoded : decodeTextRow 1 [0] = some [some []] := by decide
  refine ⟨rfl, rfl, decoded, fun reads => ?_⟩
  have rows : nullBatch.typedRows = [[(.null, .null)]] := rfl
  rw [rows, forall₂_cons] at reads
  obtain ⟨⟨cells, found, same⟩, -⟩ := reads
  cases decoded.symm.trans found
  cases same with
  | cons here _ => cases here

end SecureFusion.Frontend
