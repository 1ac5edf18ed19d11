import SecureFusion.Library.Bytes
import SecureFusion.Library.Outcome
import SecureFusion.Inverted.Rebuild

/-!
# Encrypted rows of an inverted index

The server stores an index as rows of one table: a tag, a version and an encrypted page. This module
has what turns pages into rows and back: the ciphers and the binary encoding, which are parameters
with their inverse laws, the nonces, the statements on the table, and the cached state that spares
most reads of the metadata and modifications rows.
-/

namespace SecureFusion.Inverted

open Std Library

/-- A tag of a row. Its width is left open: no function into tags of a fixed width tells all
pages of all terms apart. -/
abbrev IndexTag := Bytes

/-- The tag of the metadata row, which is the word metadata padded with zeros. -/
def metadataTag : IndexTag := [109, 101, 116, 97, 100, 97, 116, 97, 0, 0, 0, 0]

/-- The tag of the modifications row, which is the word modification. -/
def modificationsTag : IndexTag := [109, 111, 100, 105, 102, 105, 99, 97, 116, 105, 111, 110]

/-- Number of bytes of a tag that are indexed for queries. -/
def tagPrefixSize : Nat := 4

/-- A row of the index table. -/
structure IndexTableRow (Blob : Type) where
  tag : IndexTag
  version : Nat
  page : Blob

/-- Authenticated encryption under one key. -/
structure Cipher (Blob : Type) where
  nonceSize : Nat
  encryptWithFixedNonce : Blob → (nonce aad : Bytes) → Option Blob
  decryptWithNonceDetached : Blob → (nonce aad : Bytes) → Option Blob
  /-- Decryption inverts encryption. -/
  decrypt_of_encrypt : ∀ {plaintext ciphertext nonce aad},
    encryptWithFixedNonce plaintext nonce aad = some ciphertext →
      decryptWithNonceDetached ciphertext nonce aad = some plaintext

/-- A binary encoding of values. -/
structure Codec (α Blob : Type) where
  encode : α → Blob
  decodeFromSlice : Blob → Option α
  /-- Decoding inverts encoding. -/
  decode_encode : ∀ value, decodeFromSlice (encode value) = some value

/-- The keys, encodings and random choices of one index. -/
structure IndexEnvironment (size : RowIdColumnSize) (Blob : Type) where
  /-- Number of bytes of a blob. -/
  length : Blob → Nat
  metadataCodec : Codec MetadataPage Blob
  modificationsCodec : Codec (ModificationsTable size) Blob
  termPageCodec : Codec (TermPage size) Blob
  /-- The cipher of the metadata page. -/
  metadataCipher : Cipher Blob
  /-- The cipher of the other pages of a version. -/
  versionCipher : Nat → Cipher Blob
  /-- The tag of a page of a term in a version. -/
  pageTag : Nat → RawIndexTerm → Nat → IndexTag
  /-- Page tags tell pages apart. -/
  pageTag_injective : ∀ {version term number other otherNumber},
    pageTag version term number = pageTag version other otherNumber →
      term = other ∧ number = otherNumber
  /-- Page tags differ from the metadata tag. -/
  pageTag_ne_metadataTag : ∀ version term number, pageTag version term number ≠ metadataTag
  /-- Page tags differ from the modifications tag. -/
  pageTag_ne_modificationsTag : ∀ version term number,
    pageTag version term number ≠ modificationsTag
  /-- The order in which new rows are inserted. -/
  shuffle : List (IndexTableRow Blob) → List (IndexTableRow Blob)
  /-- Shuffling keeps the rows. -/
  shuffle_perm : ∀ rows, (shuffle rows).Perm rows

variable {size : RowIdColumnSize} {Blob : Type}

/-! ## Encryption of pages -/

def maxMetadataPageSize : Nat := 2 ^ 20

/-- The additional data of the metadata page, which is the word metadata_page. -/
def metadataAad : Bytes := [109, 101, 116, 97, 100, 97, 116, 97, 95, 112, 97, 103, 101]

/-- The additional data of the modifications page, which is the word modifications_page. -/
def modificationsAad : Bytes :=
  [109, 111, 100, 105, 102, 105, 99, 97, 116, 105, 111, 110, 115, 95, 112, 97, 103, 101]

/-- The nonce of a metadata page; none if the version does not fit. -/
def metadataNonce (nonceSize version : Nat) : Option Bytes :=
  if 8 ≤ nonceSize then some (leBytes 8 version ++ List.replicate (nonceSize - 8) 0) else none

/-- The nonce of a modifications page; none if the versions spill over it. -/
def modificationsNonce (nonceSize metaVersion modifVersion : Nat) : Option Bytes :=
  let totalVersion := metaVersion * 2 ^ 32 + modifVersion
  if nonceSize ≤ 16 ∧ totalVersion < 256 ^ nonceSize then some (leBytes nonceSize totalVersion)
  else none

namespace IndexEnvironment

variable (env : IndexEnvironment size Blob) {blob : Blob} {version : Nat}

/-- Raises the default number of pages until the encoding is small enough. -/
def shrinkToFit : Nat → MetadataPage → Option MetadataPage
  | 0, _ => none
  | fuel + 1, page =>
    if env.length (env.metadataCodec.encode page) ≤ maxMetadataPageSize then some page
    else shrinkToFit fuel page.shrink

/-- Rounds after which no entry of a metadata page is left. -/
def shrinkRounds (page : MetadataPage) : Nat := (page.numPages.toList.map Prod.snd).sum + 1

/-- Encrypts a metadata page, shrunk to fit. -/
def encryptMetadata (version : Nat) (page : MetadataPage) : Option Blob := do
  let page ← env.shrinkToFit (shrinkRounds page) page
  let nonce ← metadataNonce env.metadataCipher.nonceSize version
  env.metadataCipher.encryptWithFixedNonce (env.metadataCodec.encode page) nonce metadataAad

/-- Decrypts a metadata page of a version. -/
def decryptMetadata (version : Nat) (blob : Blob) : Option MetadataPage := do
  let nonce ← metadataNonce env.metadataCipher.nonceSize version
  let plaintext ← env.metadataCipher.decryptWithNonceDetached blob nonce metadataAad
  env.metadataCodec.decodeFromSlice plaintext

def encryptModifications (metaVersion modifVersion : Nat) (table : ModificationsTable size) :
    Option Blob := do
  let cipher := env.versionCipher metaVersion
  let nonce ← modificationsNonce cipher.nonceSize metaVersion modifVersion
  cipher.encryptWithFixedNonce (env.modificationsCodec.encode table) nonce modificationsAad

def decryptModifications (metaVersion modifVersion : Nat) (blob : Blob) :
    Option (ModificationsTable size) := do
  let cipher := env.versionCipher metaVersion
  let nonce ← modificationsNonce cipher.nonceSize metaVersion modifVersion
  let plaintext ← cipher.decryptWithNonceDetached blob nonce modificationsAad
  env.modificationsCodec.decodeFromSlice plaintext

def encryptTermPage (version : Nat) (tag : IndexTag) (page : TermPage size) : Option Blob :=
  (env.versionCipher version).encryptWithFixedNonce (env.termPageCodec.encode page) tag
    (leBytes 8 version)

def decryptTermPage (version : Nat) (tag : IndexTag) (blob : Blob) : Option (TermPage size) := do
  let plaintext ←
    (env.versionCipher version).decryptWithNonceDetached blob tag (leBytes 8 version)
  env.termPageCodec.decodeFromSlice plaintext

theorem getNumPages_le_shrinkToFit (fuel : Nat) {page shrunk : MetadataPage}
    (fits : env.shrinkToFit fuel page = some shrunk) (term : RawIndexTerm) :
    page.getNumPages term ≤ shrunk.getNumPages term := by
  induction fuel generalizing page with
  | zero => cases fits
  | succ fuel ih =>
    rw [shrinkToFit] at fits
    split at fits
    · cases fits
      exact Nat.le_refl _
    · exact Nat.le_trans (page.getNumPages_le_shrink term) (ih fits)

theorem decryptMetadata_of_encrypt {page : MetadataPage}
    (encrypted : env.encryptMetadata version page = some blob) :
    ∃ shrunk, env.decryptMetadata version blob = some shrunk ∧
      ∀ term, page.getNumPages term ≤ shrunk.getNumPages term := by
  rw [encryptMetadata, bind_some_iff] at encrypted
  obtain ⟨shrunk, fits, encrypted⟩ := encrypted
  rw [bind_some_iff] at encrypted
  obtain ⟨nonce, hasNonce, encrypted⟩ := encrypted
  refine ⟨shrunk, ?_, env.getNumPages_le_shrinkToFit _ fits⟩
  simp [decryptMetadata, hasNonce, env.metadataCipher.decrypt_of_encrypt encrypted,
    env.metadataCodec.decode_encode]

theorem decryptModifications_of_encrypt {metaVersion modifVersion : Nat}
    {table : ModificationsTable size}
    (encrypted : env.encryptModifications metaVersion modifVersion table = some blob) :
    env.decryptModifications metaVersion modifVersion blob = some table := by
  rw [encryptModifications, bind_some_iff] at encrypted
  obtain ⟨nonce, hasNonce, encrypted⟩ := encrypted
  simp [decryptModifications, hasNonce, (env.versionCipher _).decrypt_of_encrypt encrypted,
    env.modificationsCodec.decode_encode]

theorem decryptTermPage_of_encrypt {tag : IndexTag} {page : TermPage size}
    (encrypted : env.encryptTermPage version tag page = some blob) :
    env.decryptTermPage version tag blob = some page := by
  simp [decryptTermPage, (env.versionCipher _).decrypt_of_encrypt encrypted,
    env.termPageCodec.decode_encode]

end IndexEnvironment

/-! ## The index table -/

/-- The rows of the index table in the order the server returns them. -/
abbrev IndexTable (Blob : Type) := List (IndexTableRow Blob)

def maxVersion : Nat := 2 ^ 31 - 1

def maxPageLength : Nat := 2 ^ 24 - 1

namespace IndexEnvironment

variable (env : IndexEnvironment size Blob)

def fitsColumns (row : IndexTableRow Blob) : Bool :=
  row.version ≤ maxVersion && env.length row.page ≤ maxPageLength

/-- Inserts a row, unless it does not fit or the key of version and tag is taken. -/
def insertRow (table : IndexTable Blob) (row : IndexTableRow Blob) : Option (IndexTable Blob) :=
  if env.fitsColumns row && !table.any fun other =>
      other.version = row.version && other.tag = row.tag then
    some (table ++ [row])
  else none

def insertRows (table : IndexTable Blob) (rows : List (IndexTableRow Blob)) :
    Option (IndexTable Blob) :=
  rows.foldlM env.insertRow table

/-- Overwrites the version and the page of the rows with a tag. -/
def updateRows (table : IndexTable Blob) (tag : IndexTag) (version : Nat) (page : Blob) :
    Option (IndexTable Blob) :=
  if env.fitsColumns ⟨tag, version, page⟩ then
    some (table.map fun row => if row.tag = tag then ⟨tag, version, page⟩ else row)
  else none

end IndexEnvironment

def selectTag (table : IndexTable Blob) (tag : IndexTag) : List (IndexTableRow Blob) :=
  table.filter fun row => row.tag = tag

/-! ## Cached state -/

/-- A decrypted metadata row. -/
structure VersionedMetadataPage where
  version : Nat
  metadata : MetadataPage

/-- A decrypted modifications row. -/
structure VersionedModificationsTable (size : RowIdColumnSize) where
  modificationsVersion : Nat
  modifications : ModificationsTable size

/-- The last metadata and modifications rows that were read. -/
structure CachedIndexState (size : RowIdColumnSize) where
  metadata : Option VersionedMetadataPage
  changes : Option (VersionedModificationsTable size)

def CachedIndexState.empty : CachedIndexState size := ⟨none, none⟩

/-- Number of values of the 32 bits of a modifications version. -/
def modificationsVersionRange : Nat := 2 ^ 32

namespace IndexEnvironment

variable (env : IndexEnvironment size Blob)

def decryptAsMetadata (row : IndexTableRow Blob) : Option VersionedMetadataPage := do
  let metadata ← env.decryptMetadata row.version row.page
  some ⟨row.version, metadata⟩

/-- Decrypts a modifications row, whose version must fit 32 bits. -/
def decryptAsModifications (metadataVersion : Nat) (row : IndexTableRow Blob) :
    Option (VersionedModificationsTable size) := do
  guard (row.version < modificationsVersionRange)
  let modifications ← env.decryptModifications metadataVersion row.version row.page
  some ⟨row.version, modifications⟩

/-- The metadata and modifications rows that are newer than the cached ones. -/
def newerRows (table : IndexTable Blob) (cache : CachedIndexState size) :
    List (IndexTableRow Blob) :=
  table.filter fun row =>
    (row.tag = metadataTag && (cache.metadata.map (·.version)).getD 0 < row.version) ||
      (row.tag = modificationsTag &&
        row.version ≠ (cache.changes.map (·.modificationsVersion)).getD 0)

/-- Brings the cached state up to date; a new metadata row with cached modifications asks for
one more round, in which the modifications are read again. -/
def loadMetadata (table : IndexTable Blob) :
    Nat → CachedIndexState size → Option (CachedIndexState size)
  | 0, _ => none
  | rounds + 1, cache =>
    match newerRows table cache with
    | [] => if cache.metadata.isNone || cache.changes.isNone then none else some cache
    | [page] =>
      if page.tag = metadataTag then do
        let metadata ← env.decryptAsMetadata page
        if cache.changes.isSome then loadMetadata table rounds ⟨some metadata, none⟩
        else some ⟨some metadata, cache.changes⟩
      else if page.tag = modificationsTag then do
        let cached ← cache.metadata
        let changes ← env.decryptAsModifications cached.version page
        some ⟨cache.metadata, some changes⟩
      else none
    | [first, second] =>
      if first.tag = metadataTag ∧ second.tag = modificationsTag then do
        let metadata ← env.decryptAsMetadata first
        let changes ← env.decryptAsModifications metadata.version second
        some ⟨some metadata, some changes⟩
      else if first.tag = modificationsTag ∧ second.tag = metadataTag then do
        let metadata ← env.decryptAsMetadata second
        let changes ← env.decryptAsModifications metadata.version first
        some ⟨some metadata, some changes⟩
      else none
    | _ => none

end IndexEnvironment

end SecureFusion.Inverted
