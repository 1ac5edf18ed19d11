import SecureFusion.Crypto.Decoding
import SecureFusion.Crypto.Encryption
import SecureFusion.Crypto.KeyManagement

/-!
# Equality of expressions

DataFusion may take one of two expressions for the other when they compare equal. The expressions
that encrypt, decrypt and compute the values of a blind index compare their children, and no
cipher, generator or size. The decryption function compares its cipher context with itself, and
hashes it.
-/

namespace SecureFusion.Crypto

open Library Sql

/-! ## The expressions -/

/-- The expressions of DataFusion itself, without their parts. Those that compare equal have equal
hashes and compute the same. -/
structure OwnExpressions (C : Type) where
  eq : C → C → Bool
  hash : C → Bytes
  evaluate : C → RecordBatch → List ColumnarValue → Evaluated ColumnarValue
  hash_eq : ∀ expr other, eq expr other = true → hash expr = hash other
  evaluate_eq : ∀ expr other, eq expr other = true → evaluate expr = evaluate other

/-- How often a function gives another value. -/
inductive Volatility where
  | immutable
  | stable
  | volatile
deriving DecidableEq, Repr

/-- The decryption function of a column. -/
structure DecryptUdf where
  signature : Nat × Volatility
  outputField : String × DataType
  cipherContext : CipherContext
  keyManager : CipherContext → Cipher

/-- Trees of expressions: DataFusion's own ones, without parts or with two of them, and those of
the proxy, the calls of its decryption function included. -/
inductive CryptoExpr (C : Type) where
  | leaf (expr : C)
  | node (expr : C) (first second : CryptoExpr C)
  | blindIndex (generator : Bytes → Nat → String) (sizeBits : Nat)
      (sourceColumn : CryptoExpr C)
  | encrypt (cipher : Cipher) (encryptChild aadSourceChild : CryptoExpr C)
  | decrypt (cipher : Cipher) (decryptChild aadSourceChild : CryptoExpr C)
  | call (udf : DecryptUdf) (encryptedColumn computedAad : CryptoExpr C)

section Expressions

-- The nonces that are drawn, the memory of a column, Arrow's texts, and what parts of the
-- decryption function feed to a hasher.
variable (nonces : Nat → Bytes) (memorySize : List (Option Bytes) → Nat)
  (toText : Bytes → Option String) (hashType : Nat × Volatility → String × DataType → Bytes)
  (hashContext : CipherContext → Bytes) {C : Type} (own : OwnExpressions C)

/-- Computes a column from a binary one, or a value through a column of one row. -/
def mapColumn (compute : List (Option Bytes) → Evaluated ArrowArray) :
    ColumnarValue → Evaluated ColumnarValue
  | .array column => do .ok (.array (← compute (← column.asBinary)))
  | .scalar value => do
    .ok (.scalar (← tryFromArray (← compute (← (toArrayOfSize value 1).asBinary)) 0))

namespace DecryptUdf

/-- The decryption function for a column with a cipher context. -/
def new (outputField : String × DataType) (cipherContext : CipherContext)
    (longTermKeyManager : CipherContext → Cipher) : DecryptUdf :=
  ⟨(2, .stable), outputField, cipherContext, longTermKeyManager⟩

/-- The equality of the source, with the cipher context compared with itself. -/
def eq (self other : DecryptUdf) : Bool :=
  other.signature == self.signature && other.outputField == self.outputField &&
    self.cipherContext == self.cipherContext

/-- What the function feeds to a hasher. -/
def hash (self : DecryptUdf) : Bytes :=
  hashType self.signature self.outputField ++ hashContext self.cipherContext

/-- Decrypts a column and decodes it to the type of the output. -/
def invokeWithArgs (self : DecryptUdf) (enc aad : ColumnarValue) : Evaluated ColumnarValue :=
  let cipher := self.keyManager self.cipherContext
  enc |> mapColumn fun column => do
    let column ← decryptArray cipher memorySize column aad
    decodeArrayFromBinary toText (← column.asBinary) self.outputField.2

end DecryptUdf

/-- The values of a blind index for a column. -/
def forArray (generator : Bytes → Nat → String) (sizeBits : Nat)
    (column : List (Option Bytes)) : Evaluated ArrowArray :=
  binaryFromIter (column.map (Option.map fun value => utf8Bytes (generator value sizeBits)))

namespace CryptoExpr

/-- The equality of expressions: no cipher, generator or size is compared. -/
def eq : CryptoExpr C → CryptoExpr C → Bool
  | .leaf expr, .leaf other => own.eq expr other
  | .node expr first second, .node other third fourth =>
    own.eq expr other && first.eq third && second.eq fourth
  -- The source has the operands the other way round.
  | .blindIndex _ _ source, .blindIndex _ _ other => source.eq other
  | .encrypt _ child aad, .encrypt _ other otherAad => child.eq other && aad.eq otherAad
  | .decrypt _ child aad, .decrypt _ other otherAad => child.eq other && aad.eq otherAad
  | .call udf child aad, .call otherUdf other otherAad =>
    udf.eq otherUdf && child.eq other && aad.eq otherAad
  | _, _ => false

/-- What an expression feeds to a hasher. -/
def hash : CryptoExpr C → Bytes
  | .leaf expr => own.hash expr
  | .node expr first second => own.hash expr ++ first.hash ++ second.hash
  | .blindIndex _ _ source => source.hash
  | .encrypt _ child aad | .decrypt _ child aad => child.hash ++ aad.hash
  | .call udf child aad => udf.hash hashType hashContext ++ child.hash ++ aad.hash

/-- The value of an expression on a batch. -/
def evaluate : CryptoExpr C → PhysicalExpr
  | .leaf expr => fun batch => own.evaluate expr batch []
  | .node expr first second => fun batch => do
    own.evaluate expr batch [← first.evaluate batch, ← second.evaluate batch]
  | .blindIndex generator sizeBits source => fun batch => do
    mapColumn (forArray generator sizeBits) (← source.evaluate batch)
  | .encrypt cipher child aad => EncryptExpr.evaluate ⟨child.evaluate, aad.evaluate, cipher⟩ nonces
  | .decrypt cipher child aad =>
    DecryptExpr.evaluate ⟨child.evaluate, aad.evaluate, cipher⟩ memorySize
  | .call udf child aad => fun batch => do
    udf.invokeWithArgs memorySize toText (← child.evaluate batch) (← aad.evaluate batch)

end CryptoExpr

/-! ## What is not compared -/

/-- Two ciphers encrypt alike. -/
def Cipher.SealsLike (cipher other : Cipher) : Prop :=
  cipher.sealInPlaceAppendTag = other.sealInPlaceAppendTag

/-- Two ciphers decrypt alike. -/
def Cipher.OpensLike (cipher other : Cipher) : Prop :=
  cipher.nonceSize = other.nonceSize ∧ cipher.tagSize = other.tagSize ∧
    cipher.openInPlace = other.openInPlace

/-- The parts of two trees that are not compared do the same: generators with their sizes, ciphers,
and the cipher contexts and key managers of decryption functions, whose contexts also hash alike. -/
def SameParameters : CryptoExpr C → CryptoExpr C → Prop
  | .node _ first second, .node _ third fourth =>
    SameParameters first third ∧ SameParameters second fourth
  | .blindIndex generator sizeBits source, .blindIndex otherGenerator otherBits other =>
    (∀ value, generator value sizeBits = otherGenerator value otherBits) ∧
      SameParameters source other
  | .encrypt cipher child aad, .encrypt otherCipher other otherAad =>
    cipher.SealsLike otherCipher ∧ SameParameters child other ∧ SameParameters aad otherAad
  | .decrypt cipher child aad, .decrypt otherCipher other otherAad =>
    cipher.OpensLike otherCipher ∧ SameParameters child other ∧ SameParameters aad otherAad
  | .call udf child aad, .call otherUdf other otherAad =>
    (hashContext udf.cipherContext = hashContext otherUdf.cipherContext ∧
      (udf.keyManager udf.cipherContext).OpensLike
        (otherUdf.keyManager otherUdf.cipherContext)) ∧
      SameParameters child other ∧ SameParameters aad otherAad
  | _, _ => True

variable {cipher other : Cipher}

/-- Ciphers that encrypt alike encrypt columns alike. -/
theorem encrypt_congr (alike : cipher.SealsLike other) (child aad : PhysicalExpr) :
    EncryptExpr.evaluate ⟨child, aad, cipher⟩ = EncryptExpr.evaluate ⟨child, aad, other⟩ := by
  have entries : encryptEntry cipher = encryptEntry other := by
    funext nonce plaintext aad
    cases plaintext <;> cases aad <;>
      simp only [encryptEntry, Cipher.encryptWithRandomNonce, show _ = _ from alike]
  funext nonces batch
  simp only [EncryptExpr.evaluate, encryptArray, entries]

/-- Ciphers that decrypt alike decrypt columns alike. -/
theorem decryptArray_congr (alike : cipher.OpensLike other) :
    decryptArray cipher = decryptArray other := by
  obtain ⟨nonces, tags, opens⟩ := alike
  have slices : cipher.decryptWithNonceToSlice = other.decryptWithNonceToSlice := by
    funext output ciphertext aad
    simp only [Cipher.decryptWithNonceToSlice, nonces, opens]
  have steps : decryptStep cipher = decryptStep other := by
    funext builder entry
    obtain ⟨_ | ciphertext, _ | aad⟩ := entry <;> simp only [decryptStep, slices]
  have overheads : cipher.overhead = other.overhead := by rw [Cipher.overhead, nonces, tags]; rfl
  funext memorySize column aad
  simp only [decryptArray, overheads, steps]

/-- Ciphers that decrypt alike decrypt the values of expressions alike. -/
theorem decrypt_congr (alike : cipher.OpensLike other) (child aad : PhysicalExpr) :
    DecryptExpr.evaluate ⟨child, aad, cipher⟩ = DecryptExpr.evaluate ⟨child, aad, other⟩ := by
  funext memorySize batch
  simp only [DecryptExpr.evaluate, decryptArray_congr alike]

/-- Generators with the same values for their sizes give columns the same values. -/
theorem forArray_congr {generator otherGenerator : Bytes → Nat → String}
    {sizeBits otherBits : Nat}
    (values : ∀ value, generator value sizeBits = otherGenerator value otherBits) :
    forArray generator sizeBits = forArray otherGenerator otherBits := by
  funext column
  simp only [forArray, values]

variable {own hashContext}

/-- Expressions that compare equal have equal hashes and compute the same on every batch, if what
is not compared does the same in both. -/
theorem equal_interchangeable {first second : CryptoExpr C} (equal : first.eq own second = true)
    (same : SameParameters hashContext first second) :
    first.hash hashType hashContext own = second.hash hashType hashContext own ∧
      first.evaluate nonces memorySize toText own =
        second.evaluate nonces memorySize toText own := by
  induction first generalizing second with
  | leaf expr =>
    cases second <;> try cases equal
    exact ⟨own.hash_eq _ _ equal, by rw [CryptoExpr.evaluate, CryptoExpr.evaluate,
      own.evaluate_eq _ _ equal]⟩
  | node expr left right ihLeft ihRight =>
    cases second <;> try cases equal
    simp only [CryptoExpr.eq, Bool.and_eq_true] at equal
    obtain ⟨leftHash, leftValue⟩ := ihLeft equal.1.2 same.1
    obtain ⟨rightHash, rightValue⟩ := ihRight equal.2 same.2
    simp only [CryptoExpr.hash, CryptoExpr.evaluate, own.hash_eq _ _ equal.1.1,
      own.evaluate_eq _ _ equal.1.1, leftHash, rightHash, leftValue, rightValue, and_self]
  | blindIndex generator sizeBits source ih =>
    cases second <;> try cases equal
    obtain ⟨sourceHash, sourceValue⟩ := ih equal same.2
    have values := same.1
    refine ⟨sourceHash, ?_⟩
    simp only [CryptoExpr.evaluate, sourceValue, forArray_congr values]
  | encrypt cipher child aad ihChild ihAad =>
    cases second <;> try cases equal
    obtain ⟨equalChild, equalAad⟩ := Bool.and_eq_true_iff.mp equal
    obtain ⟨childHash, childValue⟩ := ihChild equalChild same.2.1
    obtain ⟨aadHash, aadValue⟩ := ihAad equalAad same.2.2
    simp only [CryptoExpr.hash, CryptoExpr.evaluate, childHash, aadHash, childValue, aadValue,
      encrypt_congr same.1, and_self]
  | decrypt cipher child aad ihChild ihAad =>
    cases second <;> try cases equal
    obtain ⟨equalChild, equalAad⟩ := Bool.and_eq_true_iff.mp equal
    obtain ⟨childHash, childValue⟩ := ihChild equalChild same.2.1
    obtain ⟨aadHash, aadValue⟩ := ihAad equalAad same.2.2
    simp only [CryptoExpr.hash, CryptoExpr.evaluate, childHash, aadHash, childValue, aadValue,
      decrypt_congr same.1, and_self]
  | call udf child aad ihChild ihAad =>
    cases second <;> try cases equal
    simp only [CryptoExpr.eq, DecryptUdf.eq, Bool.and_eq_true, beq_iff_eq] at equal
    obtain ⟨⟨⟨⟨signatures, fields⟩, -⟩, equalChild⟩, equalAad⟩ := equal
    obtain ⟨⟨contexts, opens⟩, sameChild, sameAad⟩ := same
    obtain ⟨childHash, childValue⟩ := ihChild equalChild sameChild
    obtain ⟨aadHash, aadValue⟩ := ihAad equalAad sameAad
    simp only [CryptoExpr.hash, CryptoExpr.evaluate, DecryptUdf.hash, DecryptUdf.invokeWithArgs,
      signatures, fields, contexts, decryptArray_congr opens, childHash, aadHash, childValue,
      aadValue, and_self]

end Expressions

deriving instance DecidableEq for ArrowArray, ColumnarValue

/-- Constants as the expressions of DataFusion. -/
def constants : OwnExpressions ColumnarValue where
  eq := fun value other => value == other
  hash := fun _ => []
  evaluate := fun value _ _ => .ok value
  hash_eq := fun _ _ _ => rfl
  evaluate_eq := fun _ _ same => by rw [eq_of_beq same]

/-- A cipher that adds a byte, and takes every text for the encryption of it. -/
def bytewiseCipher (byte : UInt8) : Cipher :=
  ⟨0, 0, fun _ _ plaintext => some (plaintext ++ [byte]), fun _ _ _ => some [byte]⟩

/-- A value of one byte. -/
def operand : CryptoExpr ColumnarValue := .leaf (.scalar (.bytes .binary (some [7])))

/-- An encrypted blind index value. -/
def encryptedIndex (sizeBits : Nat) : CryptoExpr ColumnarValue :=
  .encrypt (bytewiseCipher 1) (.blindIndex (fun value _ => s!"{value.length}") sizeBits operand)
    operand

/-- Sizes that make no difference to the generator leave the expressions interchangeable. -/
theorem equal_interchangeable_sizes :
    (encryptedIndex 8).evaluate (fun _ => []) ColumnBuilder.size (fun _ => none) constants =
      (encryptedIndex 16).evaluate (fun _ => []) ColumnBuilder.size (fun _ => none) constants := by
  have same : SameParameters (fun _ => []) (encryptedIndex 8) (encryptedIndex 16) :=
    ⟨rfl, ⟨fun _ => rfl, trivial⟩, trivial⟩
  have equal : (encryptedIndex 8).eq constants (encryptedIndex 16) = true := by decide +kernel
  exact (equal_interchangeable (fun _ => []) ColumnBuilder.size (fun _ => none) (fun _ _ => [])
    equal same).2

/-- The ciphers of two columns. -/
def columnCipher : CipherContext → Cipher
  | .tableColumn _ "name" => bytewiseCipher 1
  | _ => bytewiseCipher 2

/-- A call of the decryption function of a column. -/
def decryptColumn (column : String) : CryptoExpr ColumnarValue :=
  .call (.new ("", .bytes .binary) (.tableColumn ⟨"c", "s", "t"⟩ column) columnCipher)
    operand operand

/-- Expressions with other ciphers or generators compare equal, and so do functions that decrypt
other columns and have other hashes. -/
theorem equal_not_interchangeable :
    (∀ pair ∈ [(CryptoExpr.blindIndex (fun _ _ => "a") 8 operand,
          CryptoExpr.blindIndex (fun _ _ => "b") 8 operand),
        (.encrypt (bytewiseCipher 1) operand operand, .encrypt (bytewiseCipher 2) operand operand),
        (.decrypt (bytewiseCipher 1) operand operand, .decrypt (bytewiseCipher 2) operand operand),
        (decryptColumn "name", decryptColumn "salary")],
      let evaluate (expr : CryptoExpr ColumnarValue) :=
        expr.evaluate (fun _ => []) ColumnBuilder.size (fun _ => none) constants (emptyBatch 1)
      pair.1.eq constants pair.2 = true ∧ evaluate pair.1 ≠ evaluate pair.2) ∧
    let hash := CryptoExpr.hash (fun _ _ => []) (fun context => utf8Bytes context.info) constants
    hash (decryptColumn "name") ≠ hash (decryptColumn "salary") := by
  decide +kernel

end SecureFusion.Crypto
