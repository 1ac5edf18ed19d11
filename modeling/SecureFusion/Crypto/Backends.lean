import SecureFusion.Crypto.Encryption

/-!
# The two backends of the ciphers

A cipher is backed by aws-lc or by one of the RustCrypto crates. Both libraries compute
the same authenticated encryption, but they leave different things in a buffer that they
decrypt in place: aws-lc gives the plaintext as the start of the buffer, whose length
stays, while RustCrypto truncates the buffer to the plaintext.
-/

namespace SecureFusion.Crypto

open Library List

/-! ## Authenticated encryption -/

/-- An algorithm of authenticated encryption under one key, with a detached tag. -/
structure Aead where
  nonceSize : Nat
  tagSize : Nat
  encrypt : (nonce aad plaintext : Bytes) → Option (Bytes × Bytes)
  decrypt : (nonce aad text tag : Bytes) → Option Bytes

namespace Aead

/-- Texts are as long as their plaintexts, tags are not empty, and decryption inverts
encryption. -/
structure Lawful (aead : Aead) : Prop where
  tagged : 0 < aead.tagSize
  encrypt_length : ∀ {nonce aad plaintext text tag},
    aead.encrypt nonce aad plaintext = some (text, tag) →
      text.length = plaintext.length ∧ tag.length = aead.tagSize
  decrypt_length : ∀ {nonce aad text tag plaintext},
    aead.decrypt nonce aad text tag = some plaintext → plaintext.length = text.length
  opens : ∀ {nonce aad plaintext text tag},
    aead.encrypt nonce aad plaintext = some (text, tag) →
      aead.decrypt nonce aad text tag = some plaintext

/-- Encrypts and appends the tag. -/
def encryptTagged (aead : Aead) (nonce aad plaintext : Bytes) : Option Bytes :=
  (aead.encrypt nonce aad plaintext).map fun (text, tag) => text ++ tag

/-- Decrypts a ciphertext that ends with its tag. -/
def decryptTagged (aead : Aead) (nonce aad ciphertext : Bytes) : Option Bytes :=
  if ciphertext.length < aead.tagSize then none
  else
    let position := ciphertext.length - aead.tagSize
    aead.decrypt nonce aad (ciphertext.take position) (ciphertext.drop position)

def toCipher (aead : Aead) : Cipher where
  nonceSize := aead.nonceSize
  tagSize := aead.tagSize
  sealInPlaceAppendTag := aead.encryptTagged
  openInPlace := aead.decryptTagged

theorem toCipher_decryptWithNonceToSlice (aead : Aead) (output ciphertext aad : Bytes) :
    aead.toCipher.decryptWithNonceToSlice output ciphertext aad =
      if ciphertext.length < aead.nonceSize then .ok none
      else
        match aead.decryptTagged (ciphertext.drop (ciphertext.length - aead.nonceSize)) aad
          (ciphertext.take (ciphertext.length - aead.nonceSize)) with
        | none => .ok none
        | some result =>
          if result.length ≤ output.length then
            .ok (some (result ++ output.drop result.length, result.length))
          else .error (.panic "range end index out of range for slice") :=
  rfl

/-- Some ciphertext of the algorithm holds a plaintext under a nonce and additional data. -/
def Reachable (aead : Aead) (nonce aad plaintext : Bytes) : Prop :=
  nonce.length = aead.nonceSize ∧
    ∃ ciphertext, aead.decryptTagged nonce aad ciphertext = some plaintext

variable {aead : Aead} {nonce aad plaintext ciphertext : Bytes}

theorem length_of_decryptTagged (lawful : aead.Lawful)
    (decrypted : aead.decryptTagged nonce aad ciphertext = some plaintext) :
    aead.tagSize ≤ ciphertext.length ∧
      plaintext.length = ciphertext.length - aead.tagSize := by
  unfold decryptTagged at decrypted
  split at decrypted
  · contradiction
  · next long =>
    have length := lawful.decrypt_length decrypted
    rw [length_take] at length
    omega

theorem decryptTagged_of_encryptTagged (lawful : aead.Lawful)
    (encrypted : aead.encryptTagged nonce aad plaintext = some ciphertext) :
    aead.decryptTagged nonce aad ciphertext = some plaintext := by
  obtain ⟨⟨text, tag⟩, parts, rfl⟩ := Option.map_eq_some_iff.mp encrypted
  have sized : tag.length = aead.tagSize := (lawful.encrypt_length parts).2
  have position : (text ++ tag).length - aead.tagSize = text.length := by
    rw [length_append, sized]
    omega
  have long : ¬(text ++ tag).length < aead.tagSize := by
    rw [length_append, sized]
    omega
  unfold decryptTagged
  rw [if_neg long]
  simp only [position, take_left, drop_left]
  exact lawful.opens parts

end Aead

/-! ## The aws-lc backend -/

def nonceLen : Nat := 12

/-- A key of aws-lc. What its decryption leaves behind the plaintext is as long as the tag. -/
structure AwsLcCipher where
  aead : Aead
  nonceSize_eq : aead.nonceSize = nonceLen
  leftover : (nonce aad buffer : Bytes) → Bytes
  leftover_length : ∀ nonce aad buffer, (leftover nonce aad buffer).length = aead.tagSize

namespace AwsLcCipher

variable (cipher : AwsLcCipher)

/-- The library decrypts a buffer in place: the length of the returned slice, which is the
start of the buffer, and the buffer, whose length stays. -/
def openInPlace (nonce aad buffer : Bytes) : Option (Nat × Bytes) := do
  let plaintext ← cipher.aead.decryptTagged nonce aad buffer
  some (plaintext.length, plaintext ++ cipher.leftover nonce aad buffer)

/-- The library encrypts a buffer in place and appends the tag. -/
def sealInPlaceAppendTag (nonce aad buffer : Bytes) : Option Bytes :=
  cipher.aead.encryptTagged nonce aad buffer

/-- Decrypts into a slice by way of a copy of the ciphertext. -/
def decryptWithNonceToSlice (output ciphertextWithNonce aad : Bytes) :
    Evaluated (Option (Bytes × Nat)) :=
  if ciphertextWithNonce.length < nonceLen then .ok none
  else
    let position := ciphertextWithNonce.length - nonceLen
    let ciphertext := ciphertextWithNonce.take position
    let nonce := ciphertextWithNonce.drop position
    match cipher.openInPlace nonce aad ciphertext with
    | none => .ok none
    | some (length, outputVec) =>
      let result := outputVec.take length
      if result.length ≤ output.length then
        .ok (some (result ++ output.drop result.length, result.length))
      else .error (.panic "range end index out of range for slice")

/-- Decrypts a buffer in place; the slice that the library returns is dropped. -/
def decryptWithNonceDetached (ciphertext nonce aad : Bytes) :
    Evaluated (Option Bytes) :=
  if nonce.length = nonceLen then .ok ((cipher.openInPlace nonce aad ciphertext).map (·.2))
  else .error (.panic "called Result::unwrap() on an Err value: TryFromSliceError")

/-- Encrypts with the nonce that the system's generator fills, which is appended. -/
def encryptWithRandomNonce (filled : Option Bytes) (plaintext aad : Bytes) :
    Evaluated (Option Bytes) :=
  .ok do
    let nonce ← filled
    let buffer ← cipher.sealInPlaceAppendTag nonce aad plaintext
    some (buffer ++ nonce)

def encryptWithFixedNonce (plaintext nonce aad : Bytes) :
    Evaluated (Option Bytes) :=
  if nonce.length = nonceLen then .ok (cipher.sealInPlaceAppendTag nonce aad plaintext)
  else .error (.panic "nonce size mismatch")

theorem decryptWithNonceToSlice_eq (output ciphertext aad : Bytes) :
    cipher.decryptWithNonceToSlice output ciphertext aad =
      cipher.aead.toCipher.decryptWithNonceToSlice output ciphertext aad := by
  rw [Aead.toCipher_decryptWithNonceToSlice]
  unfold decryptWithNonceToSlice openInPlace
  rw [← cipher.nonceSize_eq]
  dsimp only
  cases cipher.aead.decryptTagged (ciphertext.drop (ciphertext.length - cipher.aead.nonceSize))
    aad (ciphertext.take (ciphertext.length - cipher.aead.nonceSize)) with
  | none => rfl
  | some plaintext => simp

theorem decryptWithNonceDetached_eq {nonce aad ciphertext plaintext : Bytes}
    (sized : nonce.length = cipher.aead.nonceSize)
    (decrypted : cipher.aead.decryptTagged nonce aad ciphertext = some plaintext) :
    cipher.decryptWithNonceDetached ciphertext nonce aad =
      .ok (some (plaintext ++ cipher.leftover nonce aad ciphertext)) := by
  unfold decryptWithNonceDetached openInPlace
  rw [if_pos (sized.trans cipher.nonceSize_eq), decrypted]
  rfl

end AwsLcCipher

/-! ## The RustCrypto backend -/

/-- Where an algorithm of RustCrypto puts the tag. -/
inductive TagPosition where
  | tagPrefix
  | tagPostfix
deriving DecidableEq, Repr

/-- A cipher of RustCrypto. -/
structure RustCryptoCipher where
  aead : Aead
  tagPosition : TagPosition

namespace RustCryptoCipher

variable (cipher : RustCryptoCipher)

/-- Puts the tag where the cipher has it. -/
def join (text tag : Bytes) : Bytes :=
  match cipher.tagPosition with
  | .tagPrefix => tag ++ text
  | .tagPostfix => text ++ tag

/-- Takes a ciphertext and its tag apart. -/
def split (ciphertext : Bytes) : Bytes × Bytes :=
  match cipher.tagPosition with
  | .tagPrefix => ciphertext.splitAt cipher.aead.tagSize
  | .tagPostfix => (ciphertext.splitAt (ciphertext.length - cipher.aead.tagSize)).swap

/-- The library encrypts a buffer in place and adds the tag. -/
def encryptInPlace (nonce aad buffer : Bytes) : Option Bytes := do
  let (text, tag) ← cipher.aead.encrypt nonce aad buffer
  some (cipher.join text tag)

/-- The library decrypts a buffer in place and truncates it to the plaintext. -/
def decryptInPlace (nonce aad buffer : Bytes) : Option Bytes :=
  if buffer.length < cipher.aead.tagSize then none
  else
    let (tag, text) := cipher.split buffer
    cipher.aead.decrypt nonce aad text tag

/-- Decrypts from the ciphertext into a slice; a text too short for its tag makes it panic. -/
def decryptWithNonceToSlice (output ciphertextWithNonce aad : Bytes) :
    Evaluated (Option (Bytes × Nat)) :=
  if ciphertextWithNonce.length < cipher.aead.nonceSize then .ok none
  else
    let position := ciphertextWithNonce.length - cipher.aead.nonceSize
    let ciphertext := ciphertextWithNonce.take position
    let nonce := ciphertextWithNonce.drop position
    if ciphertext.length < cipher.aead.tagSize then
      .error (.panic "attempt to subtract with overflow")
    else
      let (tag, message) := cipher.split ciphertext
      if message.length ≤ output.length then
        match cipher.aead.decrypt nonce aad message tag with
        | none => .ok none
        | some plaintext => .ok (some (plaintext ++ output.drop plaintext.length, message.length))
      else .error (.panic "range end index out of range for slice")

/-- Decrypts under a separate nonce; one of another size panics. -/
def decryptWithNonceDetached (ciphertext nonce aad : Bytes) :
    Evaluated (Option Bytes) :=
  if nonce.length = cipher.aead.nonceSize then .ok (cipher.decryptInPlace nonce aad ciphertext)
  else .error (.panic "nonce size mismatch")

/-- Encrypts with the nonce that the system's generator fills, which is appended. -/
def encryptWithRandomNonce (filled : Option Bytes) (plaintext aad : Bytes) :
    Evaluated (Option Bytes) :=
  .ok do
    let nonce ← filled
    let encrypted ← cipher.encryptInPlace nonce aad plaintext
    some (encrypted ++ nonce)

/-- Encrypts under a given nonce; one of another size panics. -/
def encryptWithFixedNonce (plaintext nonce aad : Bytes) :
    Evaluated (Option Bytes) :=
  if nonce.length = cipher.aead.nonceSize then .ok (cipher.encryptInPlace nonce aad plaintext)
  else .error (.panic "nonce size mismatch")

variable {cipher} {nonce aad plaintext ciphertext : Bytes}

section Position

variable (position : cipher.tagPosition = .tagPostfix)

include position

theorem encryptInPlace_eq :
    cipher.encryptInPlace nonce aad plaintext =
      cipher.aead.encryptTagged nonce aad plaintext := by
  unfold encryptInPlace Aead.encryptTagged join
  rw [position]
  cases cipher.aead.encrypt nonce aad plaintext <;> rfl

theorem split_eq :
    cipher.split ciphertext =
      (ciphertext.drop (ciphertext.length - cipher.aead.tagSize),
        ciphertext.take (ciphertext.length - cipher.aead.tagSize)) := by
  unfold split
  rw [position]
  simp only [splitAt_eq, Prod.swap_prod_mk]

theorem decryptInPlace_eq :
    cipher.decryptInPlace nonce aad ciphertext =
      cipher.aead.decryptTagged nonce aad ciphertext := by
  unfold decryptInPlace Aead.decryptTagged
  rw [split_eq position]

end Position

theorem decryptWithNonceToSlice_eq {output : Bytes} (lawful : cipher.aead.Lawful)
    (position : cipher.tagPosition = .tagPostfix)
    (long : cipher.aead.nonceSize + cipher.aead.tagSize ≤ ciphertext.length)
    (fits : ciphertext.length ≤
      output.length + (cipher.aead.nonceSize + cipher.aead.tagSize)) :
    cipher.decryptWithNonceToSlice output ciphertext aad =
      cipher.aead.toCipher.decryptWithNonceToSlice output ciphertext aad := by
  rw [Aead.toCipher_decryptWithNonceToSlice]
  unfold decryptWithNonceToSlice
  have nonced : ¬ciphertext.length < cipher.aead.nonceSize := by omega
  rw [if_neg nonced, if_neg nonced]
  dsimp only
  generalize text : ciphertext.take (ciphertext.length - cipher.aead.nonceSize) = sealed
  have tagged : ¬sealed.length < cipher.aead.tagSize := by
    rw [← text, length_take]
    omega
  have room : (sealed.take (sealed.length - cipher.aead.tagSize)).length ≤ output.length := by
    rw [← text, length_take, length_take]
    omega
  unfold Aead.decryptTagged
  simp only [if_neg tagged, split_eq position, if_pos room]
  cases decrypted : cipher.aead.decrypt
    (ciphertext.drop (ciphertext.length - cipher.aead.nonceSize)) aad
    (sealed.take (sealed.length - cipher.aead.tagSize))
    (sealed.drop (sealed.length - cipher.aead.tagSize)) with
  | none => rfl
  | some plaintext =>
    have length := lawful.decrypt_length decrypted
    simp only [length, if_pos room]

end RustCryptoCipher

open RustCryptoCipher

/-! ## The common interface -/

/-- A cipher of either backend. -/
inductive Backend where
  | awsLc (cipher : AwsLcCipher)
  | rustCrypto (cipher : RustCryptoCipher)

namespace Backend

def aead : Backend → Aead
  | awsLc cipher => cipher.aead
  | rustCrypto cipher => cipher.aead

def IsRustCrypto : Backend → Prop
  | awsLc _ => False
  | rustCrypto _ => True

def TagLast : Backend → Prop
  | awsLc _ => True
  | rustCrypto cipher => cipher.tagPosition = .tagPostfix

def decryptWithNonceToSlice (output ciphertextWithNonce aad : Bytes) :
    Backend → Evaluated (Option (Bytes × Nat))
  | awsLc cipher => cipher.decryptWithNonceToSlice output ciphertextWithNonce aad
  | rustCrypto cipher => cipher.decryptWithNonceToSlice output ciphertextWithNonce aad

/-- Decrypts a buffer in place, with the backend's own code. -/
def decryptWithNonceDetached (ciphertext nonce aad : Bytes) :
    Backend → Evaluated (Option Bytes)
  | awsLc cipher => cipher.decryptWithNonceDetached ciphertext nonce aad
  | rustCrypto cipher => cipher.decryptWithNonceDetached ciphertext nonce aad

/-- Encrypts with a random nonce, with the backend's own code. -/
def encryptWithRandomNonce (filled : Option Bytes) (plaintext aad : Bytes) :
    Backend → Evaluated (Option Bytes)
  | awsLc cipher => cipher.encryptWithRandomNonce filled plaintext aad
  | rustCrypto cipher => cipher.encryptWithRandomNonce filled plaintext aad

/-- Encrypts a buffer in place, with the backend's own code. -/
def encryptWithFixedNonce (plaintext nonce aad : Bytes) :
    Backend → Evaluated (Option Bytes)
  | awsLc cipher => cipher.encryptWithFixedNonce plaintext nonce aad
  | rustCrypto cipher => cipher.encryptWithFixedNonce plaintext nonce aad

variable {backend : Backend} {nonce aad plaintext ciphertext output : Bytes}

theorem encryptWithRandomNonce_eq (last : backend.TagLast) :
    backend.encryptWithRandomNonce (some nonce) plaintext aad =
      .ok (backend.aead.toCipher.encryptWithRandomNonce nonce plaintext aad) := by
  cases backend with
  | awsLc cipher => rfl
  | rustCrypto cipher =>
    change Except.ok ((cipher.encryptInPlace nonce aad plaintext).bind fun encrypted =>
      some (encrypted ++ nonce)) = _
    rw [encryptInPlace_eq last]
    rfl

theorem encryptWithFixedNonce_eq (last : backend.TagLast) :
    backend.encryptWithFixedNonce plaintext nonce aad =
      if nonce.length = backend.aead.nonceSize then
        .ok (backend.aead.encryptTagged nonce aad plaintext)
      else .error (.panic "nonce size mismatch") := by
  cases backend with
  | awsLc cipher =>
    change AwsLcCipher.encryptWithFixedNonce cipher plaintext nonce aad = _
    unfold AwsLcCipher.encryptWithFixedNonce
    rw [← cipher.nonceSize_eq]
    rfl
  | rustCrypto cipher =>
    change RustCryptoCipher.encryptWithFixedNonce cipher plaintext nonce aad = _
    unfold RustCryptoCipher.encryptWithFixedNonce
    rw [encryptInPlace_eq last]
    rfl

theorem decryptWithNonceToSlice_eq (lawful : backend.aead.Lawful) (last : backend.TagLast)
    (long : backend.aead.nonceSize + backend.aead.tagSize ≤ ciphertext.length)
    (fits : ciphertext.length ≤
      output.length + (backend.aead.nonceSize + backend.aead.tagSize)) :
    backend.decryptWithNonceToSlice output ciphertext aad =
      backend.aead.toCipher.decryptWithNonceToSlice output ciphertext aad := by
  cases backend with
  | awsLc cipher => exact cipher.decryptWithNonceToSlice_eq output ciphertext aad
  | rustCrypto cipher =>
    exact decryptWithNonceToSlice_eq lawful last long fits

/-- One backend gets a plaintext back from what another one makes of it, and its in-place
decryption leaves exactly the plaintext in the buffer. -/
structure DecryptsFrom (decrypting encrypting : Backend) (nonce aad plaintext : Bytes) :
    Prop where
  random : nonce.length = encrypting.aead.nonceSize → ∀ ciphertext,
    encrypting.encryptWithRandomNonce (some nonce) plaintext aad = .ok (some ciphertext) →
      ∀ output, plaintext.length ≤ output.length →
        decrypting.decryptWithNonceToSlice output ciphertext aad =
          .ok (some (plaintext ++ output.drop plaintext.length, plaintext.length))
  fixed : ∀ ciphertext,
    encrypting.encryptWithFixedNonce plaintext nonce aad = .ok (some ciphertext) →
      decrypting.decryptWithNonceDetached ciphertext nonce aad = .ok (some plaintext)
  detached : ∀ ciphertext buffer,
    decrypting.aead.decryptTagged nonce aad ciphertext = some plaintext →
      decrypting.decryptWithNonceDetached ciphertext nonce aad = .ok (some buffer) →
        buffer = plaintext

section Interchange

variable {encrypting decrypting : Backend}

theorem random_decrypts (lawful : encrypting.aead.Lawful)
    (same : decrypting.aead = encrypting.aead) (encryptsLast : encrypting.TagLast)
    (decryptsLast : decrypting.TagLast) (sized : nonce.length = encrypting.aead.nonceSize)
    (encrypted : encrypting.encryptWithRandomNonce (some nonce) plaintext aad =
      .ok (some ciphertext)) (fits : plaintext.length ≤ output.length) :
    decrypting.decryptWithNonceToSlice output ciphertext aad =
      .ok (some (plaintext ++ output.drop plaintext.length, plaintext.length)) := by
  rw [encryptWithRandomNonce_eq encryptsLast, Except.ok.injEq] at encrypted
  obtain ⟨text, tagged, appended⟩ := Option.bind_eq_some_iff.mp encrypted
  cases appended
  have opened : encrypting.aead.decryptTagged nonce aad text = some plaintext :=
    Aead.decryptTagged_of_encryptTagged lawful tagged
  have lengths := Aead.length_of_decryptTagged lawful opened
  have total : (text ++ nonce).length = text.length + encrypting.aead.nonceSize := by
    rw [length_append, sized]
  have nonced : ¬(text ++ nonce).length < encrypting.aead.nonceSize := by omega
  have position : (text ++ nonce).length - encrypting.aead.nonceSize = text.length := by omega
  rw [decryptWithNonceToSlice_eq (same ▸ lawful) decryptsLast (by rw [same]; omega)
    (by rw [same]; omega), same, Aead.toCipher_decryptWithNonceToSlice, if_neg nonced, position,
    drop_left, take_left, opened]
  simp only [if_pos fits]

theorem IsRustCrypto.decryptWithNonceDetached_eq (rustCrypto : decrypting.IsRustCrypto)
    (last : decrypting.TagLast) (sized : nonce.length = decrypting.aead.nonceSize) :
    decrypting.decryptWithNonceDetached ciphertext nonce aad =
      .ok (decrypting.aead.decryptTagged nonce aad ciphertext) := by
  cases decrypting with
  | awsLc cipher => exact rustCrypto.elim
  | rustCrypto cipher =>
    have fits : nonce.length = cipher.aead.nonceSize := sized
    change cipher.decryptWithNonceDetached ciphertext nonce aad = _
    unfold RustCryptoCipher.decryptWithNonceDetached
    rw [if_pos fits, RustCryptoCipher.decryptInPlace_eq last]
    rfl

theorem sized_of_decryptWithNonceDetached {buffer : Option Bytes}
    (decrypted : decrypting.decryptWithNonceDetached ciphertext nonce aad = .ok buffer) :
    nonce.length = decrypting.aead.nonceSize := by
  by_contra missized
  cases decrypting with
  | awsLc cipher =>
    have unequal : nonce.length ≠ nonceLen := cipher.nonceSize_eq ▸ missized
    change cipher.decryptWithNonceDetached ciphertext nonce aad = _ at decrypted
    rw [AwsLcCipher.decryptWithNonceDetached, if_neg unequal] at decrypted
    contradiction
  | rustCrypto cipher =>
    have unequal : nonce.length ≠ cipher.aead.nonceSize := missized
    change cipher.decryptWithNonceDetached ciphertext nonce aad = _ at decrypted
    rw [RustCryptoCipher.decryptWithNonceDetached, if_neg unequal] at decrypted
    contradiction

theorem opened_of_encryptWithFixedNonce (lawful : encrypting.aead.Lawful)
    (last : encrypting.TagLast)
    (encrypted : encrypting.encryptWithFixedNonce plaintext nonce aad = .ok (some ciphertext)) :
    nonce.length = encrypting.aead.nonceSize ∧
      encrypting.aead.decryptTagged nonce aad ciphertext = some plaintext := by
  rw [encryptWithFixedNonce_eq last] at encrypted
  by_cases sized : nonce.length = encrypting.aead.nonceSize
  · rw [if_pos sized, Except.ok.injEq] at encrypted
    exact ⟨sized, Aead.decryptTagged_of_encryptTagged lawful encrypted⟩
  · rw [if_neg sized] at encrypted
    contradiction

/-- One backend decrypts what another one encrypts precisely if it is one of RustCrypto, or no
ciphertext holds the plaintext: aws-lc leaves bytes of the tag behind the plaintext. -/
theorem decryptsFrom_iff (lawful : encrypting.aead.Lawful)
    (same : decrypting.aead = encrypting.aead) (encryptsLast : encrypting.TagLast)
    (decryptsLast : decrypting.TagLast) (nonce aad plaintext : Bytes) :
    decrypting.DecryptsFrom encrypting nonce aad plaintext ↔
      decrypting.IsRustCrypto ∨ ¬encrypting.aead.Reachable nonce aad plaintext := by
  constructor
  · intro decrypts
    cases decrypting with
    | rustCrypto cipher => exact .inl trivial
    | awsLc cipher =>
      right
      rintro ⟨sized, ciphertext, opened⟩
      rw [← same] at lawful sized opened
      have whole := decrypts.detached ciphertext _ opened
        (cipher.decryptWithNonceDetached_eq sized opened)
      have length := congrArg length whole
      rw [length_append, cipher.leftover_length] at length
      have tagged : 0 < cipher.aead.tagSize := lawful.tagged
      omega
  · intro condition
    have rustCrypto : encrypting.aead.Reachable nonce aad plaintext → decrypting.IsRustCrypto :=
      fun reachable => condition.resolve_right (not_not_intro reachable)
    refine ⟨fun sized ciphertext encrypted output fits =>
      random_decrypts lawful same encryptsLast decryptsLast sized encrypted fits, ?_, ?_⟩
    · intro ciphertext encrypted
      have ⟨sized, opened⟩ := opened_of_encryptWithFixedNonce lawful encryptsLast encrypted
      rw [(rustCrypto ⟨sized, ciphertext, opened⟩).decryptWithNonceDetached_eq decryptsLast
        (same ▸ sized), same, opened]
    · intro ciphertext buffer opened decrypted
      have sized := sized_of_decryptWithNonceDetached decrypted
      have reachable : encrypting.aead.Reachable nonce aad plaintext :=
        same ▸ ⟨sized, ciphertext, opened⟩
      rw [(rustCrypto reachable).decryptWithNonceDetached_eq decryptsLast sized, opened] at decrypted
      cases decrypted
      rfl

end Interchange

end Backend

/-! ## A small algorithm on both backends -/

/-- Adds one to each byte; the tag is the number of bytes. -/
def countingAead : Aead where
  nonceSize := 12
  tagSize := 1
  encrypt _ _ plaintext := some (plaintext.map (· + 1), [UInt8.ofNat plaintext.length])
  decrypt _ _ text tag :=
    if tag = [UInt8.ofNat text.length] then some (text.map (· - 1)) else none

theorem countingAead_lawful : countingAead.Lawful where
  tagged := by decide
  encrypt_length := by
    intro nonce aad plaintext text tag encrypted
    cases encrypted
    simp [countingAead]
  decrypt_length := by
    intro nonce aad text tag plaintext decrypted
    simp only [countingAead, Option.ite_none_right_eq_some, Option.some.injEq] at decrypted
    rw [← decrypted.2, length_map]
  opens := by
    intro nonce aad plaintext text tag encrypted
    cases encrypted
    simp [countingAead, Function.comp_def]

def countingAwsLc : Backend :=
  .awsLc ⟨countingAead, rfl, fun _ _ _ => [0], fun _ _ _ => rfl⟩

def countingRustCrypto : Backend :=
  .rustCrypto ⟨countingAead, .tagPostfix⟩

/-- RustCrypto decrypts what aws-lc encrypts. -/
theorem rustCrypto_decrypts_awsLc :
    countingRustCrypto.DecryptsFrom countingAwsLc (List.replicate 12 0) [3] [7, 8] :=
  (@Backend.decryptsFrom_iff countingAwsLc countingRustCrypto countingAead_lawful rfl trivial rfl
    _ _ _).mpr (.inl trivial)

/-- What RustCrypto encrypts, aws-lc decrypts to a buffer with one byte too many. -/
theorem awsLc_leaves_tag :
    countingRustCrypto.encryptWithFixedNonce [7, 8] (List.replicate 12 0) [3] =
        .ok (some [8, 9, 2]) ∧
      countingAwsLc.decryptWithNonceDetached [8, 9, 2] (List.replicate 12 0) [3] =
        .ok (some [7, 8, 0]) ∧
      ¬countingAwsLc.DecryptsFrom countingRustCrypto (List.replicate 12 0) [3] [7, 8] := by
  have encrypted : countingRustCrypto.encryptWithFixedNonce [7, 8] (replicate 12 0) [3] =
      .ok (some [8, 9, 2]) := rfl
  have decrypted : countingAwsLc.decryptWithNonceDetached [8, 9, 2] (replicate 12 0) [3] =
      .ok (some [7, 8, 0]) := rfl
  refine ⟨encrypted, decrypted, fun decrypts => ?_⟩
  have whole := decrypts.fixed _ encrypted
  rw [decrypted] at whole
  simp at whole

end SecureFusion.Crypto
