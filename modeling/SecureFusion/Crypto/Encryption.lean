import SecureFusion.Library.Outcome
import SecureFusion.Crypto.Columns

/-!
# Encryption and decryption of columns

Encryption goes through a column row by row and appends the random nonce to each
ciphertext; a scalar is encrypted as a column of one row. Decryption writes the
plaintexts one after the other into one buffer, whose size is estimated from the
memory of the encrypted column, and keeps their lengths and validity.
-/

namespace SecureFusion.Crypto

open Library Sql List ColumnBuilder Outcome ArrowArray

/-! ## Ciphers -/

/-- Authenticated encryption under one key. -/
structure Cipher where
  nonceSize : Nat
  tagSize : Nat
  sealInPlaceAppendTag : (nonce aad plaintext : Bytes) → Option Bytes
  openInPlace : (nonce aad ciphertext : Bytes) → Option Bytes

variable {nonce : Bytes}

namespace Cipher

/-- Encryption succeeds, adds a tag, and is inverted by decryption. -/
structure Lawful (cipher : Cipher) : Prop where
  seals : ∀ nonce aad plaintext, nonce.length = cipher.nonceSize →
    ∃ ciphertext, cipher.sealInPlaceAppendTag nonce aad plaintext = some ciphertext ∧
      ciphertext.length = plaintext.length + cipher.tagSize
  opens : ∀ {nonce aad plaintext ciphertext},
    cipher.sealInPlaceAppendTag nonce aad plaintext = some ciphertext →
      cipher.openInPlace nonce aad ciphertext = some plaintext

variable (cipher : Cipher)

/-- Encrypts with a nonce drawn at random, which is appended. -/
def encryptWithRandomNonce (nonce plaintext aad : Bytes) : Option Bytes := do
  let ciphertext ← cipher.sealInPlaceAppendTag nonce aad plaintext
  some (ciphertext ++ nonce)

/-- Decrypts to the start of a slice. Gives the slice and the number of bytes written, none if
the text is not a ciphertext of the cipher; a slice that is too short makes it panic. -/
def decryptWithNonceToSlice (output ciphertextWithNonce aad : Bytes) :
    Evaluated (Option (Bytes × Nat)) :=
  if ciphertextWithNonce.length < cipher.nonceSize then .ok none
  else
    let position := ciphertextWithNonce.length - cipher.nonceSize
    let ciphertext := ciphertextWithNonce.take position
    let nonce := ciphertextWithNonce.drop position
    match cipher.openInPlace nonce aad ciphertext with
    | none => .ok none
    | some result =>
      if result.length ≤ output.length then
        .ok (some (result ++ output.drop result.length, result.length))
      else .error (.panic "range end index out of range for slice")

/-- Number of bytes that encryption adds to a plaintext. -/
def overhead : Nat := cipher.nonceSize + cipher.tagSize

/-- Number of bytes of the ciphertexts of some plaintexts. -/
def encryptedSize (plaintexts : List (Option Bytes)) : Nat :=
  (plaintexts.map fun plaintext => plaintext.elim 0 (·.length + cipher.overhead)).sum

theorem decrypt_of_encrypt {cipher : Cipher} (lawful : cipher.Lawful)
    (sized : nonce.length = cipher.nonceSize) (plaintext aad : Bytes) :
    ∃ ciphertext, cipher.encryptWithRandomNonce nonce plaintext aad = some ciphertext ∧
      ciphertext.length = plaintext.length + cipher.overhead ∧
      ∀ output, plaintext.length ≤ output.length →
        cipher.decryptWithNonceToSlice output ciphertext aad =
          .ok (some (plaintext ++ output.drop plaintext.length, plaintext.length)) := by
  obtain ⟨ciphertext, sealed, length⟩ := lawful.seals nonce aad plaintext sized
  refine ⟨ciphertext ++ nonce, ?_, ?_, ?_⟩
  · rw [encryptWithRandomNonce, sealed]
    rfl
  · rw [length_append, length, sized, overhead]
    omega
  · intro output fits
    have position : (ciphertext ++ nonce).length - cipher.nonceSize = ciphertext.length := by
      rw [length_append, sized]
      omega
    have long : ¬(ciphertext ++ nonce).length < cipher.nonceSize := by
      rw [length_append, sized]
      omega
    rw [decryptWithNonceToSlice, if_neg long]
    simp only [position, take_left, drop_left, lawful.opens sealed, if_pos fits]

end Cipher

/-! ## Encryption of a column -/

/-- Encrypts one entry; it becomes null if it or its additional data is null. -/
def encryptEntry (cipher : Cipher) (nonce : Bytes) :
    Option Bytes → Option Bytes → Option Bytes
  | some bytes, some aad => cipher.encryptWithRandomNonce nonce bytes aad
  | _, _ => none

/-- Encrypts a column, with a nonce and additional data for each row. -/
def encryptArray (cipher : Cipher) (nonces : Nat → Bytes)
    (binColumn aadColumn : List (Option Bytes)) : Evaluated ArrowArray :=
  binaryFromIter ((binColumn.zip aadColumn).mapIdx fun row entry =>
    encryptEntry cipher (nonces row) entry.1 entry.2)

/-- An expression that encrypts another one. -/
structure EncryptExpr where
  encryptChild : PhysicalExpr
  aadSourceChild : PhysicalExpr
  cipher : Cipher

/-- Evaluates the expression, with the nonces that are drawn on the way. -/
def EncryptExpr.evaluate (expr : EncryptExpr) (nonces : Nat → Bytes) : PhysicalExpr :=
  fun batch => do
    let parent ← expr.encryptChild batch
    let aad ← expr.aadSourceChild batch
    let aad := aad.toArrayOfSize batch.numRows
    match parent with
    | .array column =>
      let encrypted ← encryptArray expr.cipher nonces (← column.asBinary) (← aad.asBinary)
      .ok (.array encrypted)
    | .scalar value =>
      let column := toArrayOfSize value 1
      let encrypted ← encryptArray expr.cipher nonces (← column.asBinary) (← aad.asBinary)
      .ok (.scalar (← tryFromArray encrypted 0))

/-! ## Decryption of a column -/

/-- The additional data of the rows of a column; one value serves every row. -/
def associatedData (rows : Nat) : ColumnarValue → Evaluated (List (Option Bytes))
  | .array column => column.asBinary
  | .scalar (.bytes .binary (some content)) => .ok (List.replicate rows (some content))
  | .scalar _ => .error (.execution "invalid aad type")

/-- Decrypts one row to the unwritten part of the buffer. -/
def decryptStep (cipher : Cipher) (builder : ColumnBuilder UInt8) :
    Option Bytes × Option Bytes → Evaluated (ColumnBuilder UInt8)
  | (none, _) => .ok builder.appendNull
  | (some _, none) => .error (.execution "null AAD encountered in row")
  | (some ciphertext, some aad) => do
    match ← cipher.decryptWithNonceToSlice builder.unwritten ciphertext aad with
    | some (output, length) => .ok (builder.appendWritten output length)
    | none => .error (.execution "Could not decrypt value (corrupted data or bad plan?)!")

/-- Decrypts a column, whose buffers occupy some memory. -/
def decryptArray (cipher : Cipher) (memorySize : List (Option Bytes) → Nat)
    (column : List (Option Bytes)) (aad : ColumnarValue) : Evaluated ArrowArray := do
  let entries := column.countP Option.isSome
  let totalExtraSize := entries * cipher.overhead
  if memorySize column < totalExtraSize then
    .error (.panic "attempt to subtract with overflow")
  else
    let aadRows ← associatedData column.length aad
    let buffer := List.replicate (memorySize column - totalExtraSize) 0
    let builder ← (column.zip aadRows).foldlM (decryptStep cipher) (ColumnBuilder.new buffer)
    if builder.total ≤ maxOffset then .ok (.ofBinary builder.finish.entries)
    else .error (.panic "usize overflow")

/-- An expression that decrypts another one. -/
structure DecryptExpr where
  decryptChild : PhysicalExpr
  aadSourceChild : PhysicalExpr
  cipher : Cipher

/-- Decrypts the rows of a batch with their additional data. -/
def DecryptExpr.evaluate (expr : DecryptExpr)
    (memorySize : List (Option Bytes) → Nat) : PhysicalExpr :=
  fun batch => do
    let decrypt ← expr.decryptChild batch
    let aad ← expr.aadSourceChild batch
    match decrypt with
    | .array column =>
      let decrypted ← decryptArray expr.cipher memorySize (← column.asBinary) aad
      .ok (.array decrypted)
    | .scalar value =>
      let column := toArrayOfSize value 1
      let decrypted ← decryptArray expr.cipher memorySize (← column.asBinary) aad
      .ok (.scalar (← tryFromArray decrypted 0))

/-! ## Decryption inverts encryption -/

variable {cipher : Cipher} {value aadValue : ColumnarValue} {aad : ColumnarValue}
  {batch : RecordBatch}

/-- An entry was encrypted with some additional data. -/
inductive Encrypted (cipher : Cipher) (aad : Bytes) :
    Option Bytes → Option Bytes → Prop where
  | null : Encrypted cipher aad none none
  | value {plaintext ciphertext : Bytes}
      (length : ciphertext.length = plaintext.length + cipher.overhead)
      (decrypts : ∀ output, plaintext.length ≤ output.length →
        cipher.decryptWithNonceToSlice output ciphertext aad =
          .ok (some (plaintext ++ output.drop plaintext.length, plaintext.length))) :
      Encrypted cipher aad (some plaintext) (some ciphertext)

/-- The entries of a column were encrypted, each with its own additional data. -/
inductive EncryptedRows (cipher : Cipher) :
    List (Option Bytes) → List Bytes → List (Option Bytes) → Prop where
  | nil (aads : List Bytes) : EncryptedRows cipher [] aads []
  | cons {plaintext ciphertext : Option Bytes} {aad : Bytes}
      {plaintexts ciphertexts : List (Option Bytes)} {aads : List Bytes}
      (first : Encrypted cipher aad plaintext ciphertext)
      (rest : EncryptedRows cipher plaintexts aads ciphertexts) :
      EncryptedRows cipher (plaintext :: plaintexts) (aad :: aads) (ciphertext :: ciphertexts)

theorem encrypted_encryptEntry (lawful : cipher.Lawful) (sized : nonce.length = cipher.nonceSize)
    (plaintext : Option Bytes) (aad : Bytes) :
    Encrypted cipher aad plaintext (encryptEntry cipher nonce plaintext (some aad)) := by
  cases plaintext with
  | none => exact .null
  | some bytes =>
    obtain ⟨ciphertext, encrypts, length, decrypts⟩ :=
      Cipher.decrypt_of_encrypt lawful sized bytes aad
    rw [encryptEntry, encrypts]
    exact .value length decrypts

theorem encryptedRows_mapIdx (lawful : cipher.Lawful) {nonces : Nat → Bytes}
    (sized : ∀ row, (nonces row).length = cipher.nonceSize)
    (plaintexts : List (Option Bytes)) (aads : List Bytes)
    (enough : plaintexts.length ≤ aads.length) :
    EncryptedRows cipher plaintexts aads
      ((plaintexts.zip (aads.map some)).mapIdx fun row entry =>
        encryptEntry cipher (nonces row) entry.1 entry.2) := by
  induction plaintexts generalizing aads nonces with
  | nil => exact .nil aads
  | cons plaintext plaintexts ih =>
    cases aads with
    | nil => cases enough
    | cons aad aads =>
      rw [map_cons, zip_cons_cons, mapIdx_cons]
      apply EncryptedRows.cons
      · exact encrypted_encryptEntry lawful (sized 0) plaintext aad
      · exact @ih (fun row => nonces (row + 1)) (fun row => sized (row + 1)) aads
          (Nat.le_of_succ_le_succ enough)

namespace EncryptedRows

variable {plaintexts ciphertexts : List (Option Bytes)} {aads : List Bytes}

section Rows

variable (rows : EncryptedRows cipher plaintexts aads ciphertexts)

include rows

theorem length_eq : ciphertexts.length = plaintexts.length := by
  induction rows with
  | nil => rfl
  | cons _ _ ih => rw [length_cons, length_cons, ih]

theorem take : EncryptedRows cipher plaintexts (aads.take ciphertexts.length) ciphertexts := by
  induction rows with
  | nil aads => exact .nil _
  | cons first _ ih =>
    rw [length_cons, take_succ_cons]
    exact .cons first ih

theorem size_eq : ColumnBuilder.size ciphertexts = cipher.encryptedSize plaintexts := by
  unfold size Cipher.encryptedSize
  induction rows with
  | nil => rfl
  | cons first _ ih =>
    rw [map_cons, map_cons, sum_cons, sum_cons, ih]
    cases first with
    | null => rfl
    | value length _ => exact congrArg (· + _) length

theorem size_add :
    ColumnBuilder.size plaintexts + ciphertexts.countP Option.isSome * cipher.overhead =
      ColumnBuilder.size ciphertexts := by
  unfold size
  induction rows with
  | nil => exact (Nat.zero_add _).trans (Nat.zero_mul _)
  | cons first _ ih =>
    rw [map_cons, map_cons, sum_cons, sum_cons, ← ih]
    cases first with
    | null =>
      rw [countP_cons_of_neg (by decide)]
      exact Nat.add_assoc _ _ _
    | value length _ =>
      rw [countP_cons_of_pos rfl, Nat.succ_mul, Option.getD_some, Option.getD_some, length]
      omega

theorem foldlM_decryptStep {builder : ColumnBuilder UInt8} {done : List (Option Bytes)}
    (stores : builder.Stores done)
    (room : ColumnBuilder.size plaintexts ≤ builder.unwritten.length) :
    ∃ result, (ciphertexts.zip (aads.map some)).foldlM (decryptStep cipher) builder = .ok result ∧
      result.Stores (done ++ plaintexts) := by
  induction rows generalizing builder done with
  | nil aads => exact ⟨builder, rfl, by rwa [append_nil]⟩
  | @cons plaintext ciphertext aad plaintexts ciphertexts aads first _ ih =>
    rw [map_cons, zip_cons_cons, foldlM_cons]
    rw [size, map_cons, sum_cons] at room
    cases first with
    | null =>
      rw [Option.getD_none, length_nil, Nat.zero_add] at room
      have kept : size plaintexts ≤ builder.appendNull.unwritten.length := room
      obtain ⟨result, loop, final⟩ := ih stores.appendNull kept
      rw [append_assoc] at final
      exact ⟨result, loop, final⟩
    | @value plaintext ciphertext _ decrypts =>
      rw [Option.getD_some] at room
      have step : decryptStep cipher builder (some ciphertext, some aad) =
          .ok (builder.appendWritten
            (plaintext ++ builder.unwritten.drop plaintext.length) plaintext.length) := by
        rw [decryptStep, decrypts builder.unwritten (by omega)]
        rfl
      have stored := @ColumnBuilder.Stores.appendWritten _ _ _ stores plaintext
        (builder.unwritten.drop plaintext.length)
      have left : size plaintexts ≤
          (builder.appendWritten (plaintext ++ builder.unwritten.drop plaintext.length)
            plaintext.length).unwritten.length := by
        rw [stores.unwritten_appendWritten, length_drop, size]
        omega
      obtain ⟨result, loop, final⟩ := ih stored left
      rw [append_assoc] at final
      refine ⟨result, ?_, final⟩
      rw [step]
      exact loop

theorem decryptArray_eq {memorySize : List (Option Bytes) → Nat}
    (covers : ColumnBuilder.size ciphertexts ≤ memorySize ciphertexts)
    (fits : ColumnBuilder.size ciphertexts ≤ maxOffset)
    (associated : associatedData ciphertexts.length aad = .ok (aads.map some)) :
    decryptArray cipher memorySize ciphertexts aad = .ok (.ofBinary plaintexts) := by
  have sizes := rows.size_add
  have enough : ¬memorySize ciphertexts < ciphertexts.countP Option.isSome * cipher.overhead := by
    omega
  rw [decryptArray, if_neg enough, associated]
  have room : size plaintexts ≤ (new (replicate
      (memorySize ciphertexts - ciphertexts.countP Option.isSome * cipher.overhead)
      (0 : UInt8))).unwritten.length := by
    show _ ≤ ((replicate _ (0 : UInt8)).drop 0).length
    rw [drop_zero, length_replicate]
    omega
  obtain ⟨result, loop, stores⟩ := rows.foldlM_decryptStep (stores_new _) room
  rw [nil_append] at stores
  have total : result.total ≤ maxOffset := by
    rw [stores.total_eq]
    omega
  simp only [ok_bind, loop, if_pos total, stores.entries_finish]

end Rows

end EncryptedRows

/-! ## Expressions -/

variable {rows : Nat}

theorem ArrowArray.asBinary_eq_ok_iff {array : ArrowArray} {entries : List (Option Bytes)} :
    array.asBinary = .ok entries ↔
      array.dataType = .bytes .binary ∧ array.rows.map binaryContent = entries := by
  unfold asBinary
  by_cases binary : array.dataType = .bytes .binary
  · rw [if_pos binary]
    simp only [Except.ok.injEq, binary, true_and]
  · rw [if_neg binary]
    simp only [reduceCtorEq, binary, false_and]

theorem exists_map_some {rows : List ScalarValue} (binary : ∀ row ∈ rows,
    dataTypeOf row = .bytes .binary) (nonNull : ∀ row ∈ rows, row.isNull = false) :
    ∃ contents : List Bytes, rows.map binaryContent = contents.map some := by
  refine ⟨rows.map fun row => (binaryContent row).getD [], ?_⟩
  rw [map_map]
  refine map_congr_left fun row member => ?_
  have type := binary row member
  have present := nonNull row member
  cases row with
  | bytes layout content =>
    cases content with
    | none => cases present
    | some content =>
      cases type
      rfl
  | _ => cases type

theorem exists_aads (sized : aad.HasRows rows) (binary : aad.dataType = .bytes .binary)
    (nonNull : ∀ row ∈ aad.values, row.isNull = false) :
    ∃ aads : List Bytes, aads.length = rows ∧
      (aad.toArrayOfSize rows).asBinary = .ok (aads.map some) ∧
      ∀ count ≤ rows, associatedData count aad = .ok (aads.map some) ∨
        associatedData count aad = .ok ((aads.take count).map some) := by
  cases aad with
  | array column =>
    obtain ⟨aads, same⟩ := exists_map_some
      (fun row member => (column.typed row member).trans binary) nonNull
    have read : column.asBinary = .ok (aads.map some) :=
      asBinary_eq_ok_iff.mpr ⟨binary, same⟩
    have length : aads.length = rows := by
      rw [← sized, ← length_map (f := binaryContent), same, length_map]
    exact ⟨aads, length, read, fun _ _ => .inl read⟩
  | scalar value =>
    cases value with
    | bytes layout content =>
      cases binary
      cases content with
      | none => cases nonNull _ (mem_singleton_self _)
      | some content =>
        refine ⟨replicate rows content, length_replicate, ?_, ?_⟩
        · apply asBinary_eq_ok_iff.mpr
          refine ⟨rfl, ?_⟩
          show (replicate rows _).map binaryContent = _
          rw [map_replicate, map_replicate]
          rfl
        · intro count enough
          right
          rw [take_replicate, Nat.min_eq_left enough, map_replicate]
          rfl
    | _ => cases binary

/-- The column that an expression computed: one row for each row of the batch, or a single one. -/
def ColumnarValue.ownColumn : ColumnarValue → ArrowArray
  | .array column => column
  | .scalar value => Crypto.toArrayOfSize value 1

theorem ColumnarValue.dataType_toArrayOfSize (value : ColumnarValue) (size : Nat) :
    (value.toArrayOfSize size).dataType = value.dataType := by
  cases value <;> rfl

/-- What an expression gives for the column that it computed from another one. -/
def ColumnarValue.rewrap : ColumnarValue → ArrowArray → Evaluated ColumnarValue
  | .array _, column => .ok (.array column)
  | .scalar _, column => do .ok (.scalar (← tryFromArray column 0))

theorem ColumnarValue.rows_ownColumn (value : ColumnarValue) :
    value.ownColumn.rows = value.values := by
  cases value <;> rfl

theorem ColumnarValue.dataType_ownColumn (value : ColumnarValue) :
    value.ownColumn.dataType = value.dataType := by
  cases value <;> rfl

theorem ColumnarValue.rewrap_ownColumn (value : ColumnarValue) :
    value.rewrap value.ownColumn = .ok value := by
  cases value <;> rfl

theorem EncryptExpr.evaluate_eq {plaintext aad : PhysicalExpr}
    (plaintextValue : plaintext batch = .ok value) (aadIs : aad batch = .ok aadValue)
    (cipher : Cipher) (nonces : Nat → Bytes) :
    EncryptExpr.evaluate ⟨plaintext, aad, cipher⟩ nonces batch = (do
      let plain ← value.ownColumn.asBinary
      let aads ← (aadValue.toArrayOfSize batch.numRows).asBinary
      let encrypted ← encryptArray cipher nonces plain aads
      value.rewrap encrypted) := by
  unfold EncryptExpr.evaluate
  simp only [plaintextValue, aadIs, ok_bind]
  cases value <;> rfl

theorem DecryptExpr.evaluate_eq {child aad : PhysicalExpr} (childValue : child batch = .ok value)
    (aadIs : aad batch = .ok aadValue) (cipher : Cipher)
    (memorySize : List (Option Bytes) → Nat) :
    DecryptExpr.evaluate ⟨child, aad, cipher⟩ memorySize batch = (do
      let encrypted ← value.ownColumn.asBinary
      let plain ← decryptArray cipher memorySize encrypted aadValue
      value.rewrap plain) := by
  unfold DecryptExpr.evaluate
  simp only [childValue, aadIs, ok_bind]
  cases value <;> rfl

section RoundTrip

variable {memorySize : List (Option Bytes) → Nat} {nonces : Nat → Bytes}
  {plaintext aad : PhysicalExpr} {aads : List Bytes}

def ColumnarValue.plaintexts (value : ColumnarValue) : List (Option Bytes) :=
  value.values.map binaryContent

theorem EncryptExpr.evaluate_encrypts (lawful : cipher.Lawful)
    (sized : ∀ row, (nonces row).length = cipher.nonceSize)
    (plaintextValue : plaintext batch = .ok value) (aadIs : aad batch = .ok aadValue)
    (binary : value.dataType = .bytes .binary)
    (aadRows : (aadValue.toArrayOfSize batch.numRows).asBinary = .ok (aads.map some))
    (enough : value.plaintexts.length ≤ aads.length)
    (fits : cipher.encryptedSize value.plaintexts ≤ maxOffset) :
    ∃ ciphertexts encrypted, EncryptedRows cipher value.plaintexts aads ciphertexts ∧
      EncryptExpr.evaluate ⟨plaintext, aad, cipher⟩ nonces batch = .ok encrypted ∧
      encrypted.ownColumn = .ofBinary ciphertexts ∧
      ∀ column, encrypted.rewrap column = value.rewrap column := by
  have rows := encryptedRows_mapIdx lawful sized value.plaintexts aads enough
  have read : value.ownColumn.asBinary = .ok value.plaintexts := by
    apply asBinary_eq_ok_iff.mpr
    rw [value.dataType_ownColumn, value.rows_ownColumn]
    exact ⟨binary, rfl⟩
  rw [EncryptExpr.evaluate_eq plaintextValue aadIs, read, aadRows]
  simp only [ok_bind, encryptArray]
  generalize ((value.plaintexts.zip (aads.map some)).mapIdx fun row entry =>
    encryptEntry cipher (nonces row) entry.1 entry.2) = ciphertexts at rows
  have small : size ciphertexts ≤ maxOffset := rows.size_eq ▸ fits
  rw [binaryFromIter, if_pos small, ok_bind]
  refine ⟨ciphertexts, ?_⟩
  cases value with
  | array column => exact ⟨_, rows, rfl, rfl, fun _ => rfl⟩
  | scalar single =>
    -- one value was encrypted, so that there is one ciphertext
    have one := rows.length_eq
    obtain ⟨ciphertext, rfl⟩ := length_eq_one_iff.mp one
    exact ⟨.scalar (.bytes .binary ciphertext), rows, rfl, rfl, fun _ => rfl⟩

theorem plaintexts_length_le (sized : value.HasRows rows)
    (scalarRows : value.isScalar = true → 0 < rows) : value.plaintexts.length ≤ rows := by
  rw [ColumnarValue.plaintexts, length_map]
  cases value with
  | array column => exact Nat.le_of_eq sized
  | scalar single => exact scalarRows rfl

theorem scalar_has_row (length : aads.length = rows) {column : ArrowArray}
    {encrypted : ColumnarValue}
    (encrypts : encryptArray cipher nonces value.plaintexts (aads.map some) = .ok column)
    (wraps : value.rewrap column = .ok encrypted) : value.isScalar = true → 0 < rows := by
  intro isScalar
  apply Nat.pos_of_ne_zero
  intro none
  have empty : aads = [] := length_eq_zero_iff.mp (length.trans none)
  subst empty
  rw [encryptArray, map_nil, zip_nil_right] at encrypts
  cases encrypts
  cases value with
  | array column => cases isScalar
  | scalar single => cases wraps

/-- Decrypting an encrypted expression gives the value of every row back exactly if both
operands are binary, a scalar meets at least one row, and the ciphertexts fit in a column. -/
theorem decrypt_encrypt_iff (lawful : cipher.Lawful)
    (covers : ∀ column, ColumnBuilder.size column ≤ memorySize column)
    (sized : ∀ row, (nonces row).length = cipher.nonceSize)
    (plaintextValue : plaintext batch = .ok value) (aadIs : aad batch = .ok aadValue)
    (valueRows : value.HasRows batch.numRows) (aadRows : aadValue.HasRows batch.numRows)
    (nonNull : ∀ row ∈ aadValue.values, row.isNull = false) :
    (∃ output, DecryptExpr.evaluate
        ⟨EncryptExpr.evaluate ⟨plaintext, aad, cipher⟩ nonces, aad, cipher⟩ memorySize batch =
          .ok output ∧ output.rows batch.numRows = value.rows batch.numRows) ↔
      value.dataType = .bytes .binary ∧ aadValue.dataType = .bytes .binary ∧
        (value.isScalar = true → 0 < batch.numRows) ∧
        cipher.encryptedSize value.plaintexts ≤ maxOffset := by
  constructor
  · rintro ⟨output, evaluated, _⟩
    unfold DecryptExpr.evaluate at evaluated
    obtain ⟨encrypted, child, _⟩ := bind_eq_ok_iff.mp evaluated
    have encrypts : EncryptExpr.evaluate ⟨plaintext, aad, cipher⟩ nonces batch = .ok encrypted :=
      child
    rw [EncryptExpr.evaluate_eq plaintextValue aadIs] at encrypts
    obtain ⟨plain, readPlain, rest⟩ := bind_eq_ok_iff.mp encrypts
    obtain ⟨aadColumn, readAad, rest⟩ := bind_eq_ok_iff.mp rest
    obtain ⟨column, encryptsColumn, wraps⟩ := bind_eq_ok_iff.mp rest
    have binary := (asBinary_eq_ok_iff.mp readPlain).1
    have plainIs := (asBinary_eq_ok_iff.mp readPlain).2
    rw [value.dataType_ownColumn] at binary
    rw [value.rows_ownColumn] at plainIs
    have aadBinary := (asBinary_eq_ok_iff.mp readAad).1
    rw [aadValue.dataType_toArrayOfSize] at aadBinary
    obtain ⟨aads, length, readAads, _⟩ := exists_aads aadRows aadBinary nonNull
    cases readAad.symm.trans readAads
    subst plainIs
    have scalarRows := scalar_has_row length encryptsColumn wraps
    refine ⟨binary, aadBinary, scalarRows, ?_⟩
    have enough := plaintexts_length_le valueRows scalarRows
    rw [← length] at enough
    rw [← (encryptedRows_mapIdx lawful sized value.plaintexts aads enough).size_eq]
    by_contra large
    have fails : encryptArray cipher nonces value.plaintexts (aads.map some) =
        .error (.panic "byte array offset overflow") := if_neg large
    cases fails.symm.trans encryptsColumn
  · rintro ⟨binary, aadBinary, scalarRows, fits⟩
    obtain ⟨aads, length, readAads, associated⟩ := exists_aads aadRows aadBinary nonNull
    have enough := plaintexts_length_le valueRows scalarRows
    rw [← length] at enough
    obtain ⟨ciphertexts, encrypted, rows, encrypts, own, rewraps⟩ :=
      EncryptExpr.evaluate_encrypts lawful sized plaintextValue aadIs binary readAads enough fits
    refine ⟨value, ?_, rfl⟩
    have small : size ciphertexts ≤ maxOffset := rows.size_eq ▸ fits
    have count : ciphertexts.length ≤ batch.numRows := by
      rw [rows.length_eq, ← length]
      exact enough
    have decrypts : decryptArray cipher memorySize ciphertexts aadValue =
        .ok (.ofBinary value.plaintexts) := by
      rcases associated ciphertexts.length count with whole | taken
      · exact rows.decryptArray_eq (covers ciphertexts) small whole
      · exact rows.take.decryptArray_eq (covers ciphertexts) small taken
    have plain : ofBinary value.plaintexts = value.ownColumn := by
      rw [ColumnarValue.plaintexts, ← value.rows_ownColumn]
      exact ofBinary_content (value.dataType_ownColumn.trans binary)
    rw [DecryptExpr.evaluate_eq encrypts aadIs, own, asBinary_ofBinary]
    simp only [ok_bind, decrypts, plain]
    rw [rewraps, value.rewrap_ownColumn]

end RoundTrip

/-- A cipher that appends the additional data of one byte as tag. -/
def taggingCipher : Cipher where
  nonceSize := 1
  tagSize := 1
  sealInPlaceAppendTag := fun _ aad plaintext => some (plaintext ++ [aad.headD 0])
  openInPlace := fun _ aad ciphertext =>
    if ciphertext.getLast? = some (aad.headD 0) then some ciphertext.dropLast else none

theorem taggingCipher_lawful : taggingCipher.Lawful where
  seals := fun _ _ _ _ => ⟨_, rfl, length_append⟩
  opens := by
    intro nonce aad plaintext ciphertext sealed
    cases sealed
    simp only [taggingCipher, getLast?_concat, if_true, dropLast_concat]

def emptyBatch (numRows : Nat) : RecordBatch :=
  ⟨[], [], numRows, rfl, fun _ member => by cases member⟩

def constantBinary (content : Bytes) : PhysicalExpr :=
  fun _ => .ok (.scalar (.bytes .binary (some content)))

/-- Two rows: a constant is encrypted and decrypted with constant additional data. -/
theorem decrypt_encrypt_constant :
    (∃ output, DecryptExpr.evaluate
        ⟨EncryptExpr.evaluate ⟨constantBinary [7], constantBinary [1], taggingCipher⟩
          (fun _ => [9]), constantBinary [1], taggingCipher⟩
        ColumnBuilder.size (emptyBatch 2) = .ok output ∧
          output.rows 2 = List.replicate 2 (.bytes .binary (some [7]))) := by
  have value : constantBinary [7] (emptyBatch 2) =
      .ok (.scalar (.bytes .binary (some [7]))) := rfl
  have aad : constantBinary [1] (emptyBatch 2) =
      .ok (.scalar (.bytes .binary (some [1]))) := rfl
  apply (decrypt_encrypt_iff taggingCipher_lawful (fun _ => Nat.le_refl _) (fun _ => rfl)
    value aad trivial trivial (forall_mem_singleton.mpr rfl)).mpr
  exact ⟨rfl, rfl, fun _ => by decide, by decide⟩

/-- Without rows, the same expression panics. -/
theorem decrypt_encrypt_constant_panics :
    ∃ message, DecryptExpr.evaluate
        ⟨EncryptExpr.evaluate ⟨constantBinary [7], constantBinary [1], taggingCipher⟩
          (fun _ => [9]), constantBinary [1], taggingCipher⟩
        ColumnBuilder.size (emptyBatch 0) = .error (.panic message) :=
  ⟨_, rfl⟩

end SecureFusion.Crypto
