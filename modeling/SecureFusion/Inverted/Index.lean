import SecureFusion.Inverted.Storage

/-!
# Operations of the inverted index

An index is provisioned once from a collection of documents. Updates rewrite the modifications row
under a lock; queries combine the rows of their terms with the cached modifications. A rebuild reads
the metadata row under a lock and the modifications row without one, prepares the pages of the next
version from that copy, and reads the modifications row again, locked, before it replaces the old
version. An operation that fails gives none: its statement is rolled back.
-/

namespace SecureFusion.Inverted

open Std

variable {size : RowIdColumnSize} {Blob : Type}

/-- The index table and the cached state of one index. -/
structure IndexState (size : RowIdColumnSize) (Blob : Type) where
  table : IndexTable Blob
  cache : CachedIndexState size

namespace IndexEnvironment

variable (env : IndexEnvironment size Blob)

/-- Encrypts a numbered page of a keyword as a row of a version. -/
def pageRow (version : Nat) (keyword : RawIndexTerm) (page : Nat × TermPage size) :
    Option (IndexTableRow Blob) := do
  let tag := env.pageTag version keyword page.1
  let blob ← env.encryptTermPage version tag page.2
  some ⟨tag, version, blob⟩

/-! ## Initial provisioning -/

def documentsForTerm (source : List (IndexedDocumentId size × List RawIndexTerm)) :
    TermMap (DocumentSet size) :=
  source.foldl (fun acc entry =>
    entry.2.foldl (fun acc term => acc.alter (resizeTerm term) fun existing =>
      some ((existing.getD ∅).insert entry.1)) acc) ∅

def doInitialProvisioning (source : List (IndexedDocumentId size × List RawIndexTerm)) :
    Option (IndexTable Blob) := do
  let (pages, metadata) := createPages ∅ (documentsForTerm source) (.new size.bytes)
  let rows ← pages.mapM fun (keyword, page) => env.pageRow 1 keyword page
  let modificationsPage ← env.encryptModifications 1 1 .empty
  let metadataPage ← env.encryptMetadata 1 metadata
  env.insertRows [] (env.shuffle rows ++
    [⟨metadataTag, 1, metadataPage⟩, ⟨modificationsTag, 1, modificationsPage⟩])

/-! ## Updates -/

/-- Encrypted size of the modifications page from which a rebuild is started. -/
def rebuildThreshold : Nat := 65535 / 4

def rebuildVersion : Nat := 16000000

/-- Reads the modifications row for update and changes it; gives the new version and page of
the row. -/
def changedModifications (table : IndexTable Blob) (metadataVersion : Nat)
    (modifier : ModificationsTable size → ModificationsTable size) : Option (Nat × Blob) := do
  let row ← (selectTag table modificationsTag).head?
  let current ← env.decryptAsModifications metadataVersion row
  let version := current.modificationsVersion + 1
  let page ← env.encryptModifications metadataVersion version (modifier current.modifications)
  some (version, page)

/-- Changes the modifications row and writes it back; the version to rebuild is returned along
with the state when the row has become too large. -/
def updateChangeset (modifier : ModificationsTable size → ModificationsTable size)
    (state : IndexState size Blob) : Option (IndexState size Blob × Option Nat) := do
  let cache ← env.loadMetadata state.table 2 state.cache
  let metadata ← cache.metadata
  let (version, page) ← env.changedModifications state.table metadata.version modifier
  let table ← env.updateRows state.table modificationsTag version page
  let rebuild := if rebuildVersion < version - 1 ∨ rebuildThreshold ≤ env.length page then
    some metadata.version else none
  some (⟨table, cache⟩, rebuild)

end IndexEnvironment

namespace ModificationsTable

def insertMany (source : List (IndexedDocumentId size × List RawIndexTerm))
    (table : ModificationsTable size) : ModificationsTable size :=
  source.foldl (fun acc entry => acc.insertTerms entry.1 entry.2) table

/-- Adds documents to their first terms and removes them from their second terms. -/
def updateMany
    (source : List (IndexedDocumentId size × List RawIndexTerm × List RawIndexTerm))
    (table : ModificationsTable size) : ModificationsTable size :=
  source.foldl (fun acc entry =>
    (acc.insertTerms entry.1 entry.2.1).removeTerms entry.1 entry.2.2) table

end ModificationsTable

/-- The changes that an index accepts. -/
inductive IndexChange (size : RowIdColumnSize) where
  | insertMany (source : List (IndexedDocumentId size × List RawIndexTerm))
  | updateMany (source : List (IndexedDocumentId size × List RawIndexTerm × List RawIndexTerm))
  | delete (document : IndexedDocumentId size) (terms : List RawIndexTerm)
deriving DecidableEq

def IndexChange.modifier : IndexChange size → ModificationsTable size → ModificationsTable size
  | .insertMany source, table => table.insertMany source
  | .updateMany source, table => table.updateMany source
  | .delete document terms, table => table.removeTerms document terms

namespace IndexEnvironment

variable (env : IndexEnvironment size Blob)

/-! ## Queries -/

/-- The tags of the pages of several terms, each with its term. -/
def tagToKeyword (metadata : VersionedMetadataPage) (terms : List RawIndexTerm) :
    ExtTreeMap IndexTag RawIndexTerm :=
  terms.foldl (fun acc keyword =>
    (List.range (metadata.metadata.getNumPages keyword)).foldl
      (fun acc page => acc.insert (env.pageTag metadata.version keyword page) keyword) acc) ∅

def emptyAnswers (metadata : VersionedMetadataPage) (terms : List RawIndexTerm) :
    TermMap (List (IndexedDocumentId size)) :=
  terms.foldl (fun acc keyword =>
    if metadata.metadata.getNumPages keyword = 0 then acc.insert keyword [] else acc) ∅

/-- Reads the rows of a version with one of the tags and decrypts them. -/
def queryPages (table : IndexTable Blob) (tags : ExtTreeMap IndexTag RawIndexTerm)
    (version : Nat) : Option (List (IndexTag × TermPage size)) :=
  let msb := tags.keys.map (·.take tagPrefixSize)
  let rows := table.filter fun row =>
    msb.contains (row.tag.take tagPrefixSize) && row.version = version
  (rows.filter fun row => tags.contains row.tag).mapM fun row => do
    let page ← env.decryptTermPage version row.tag row.page
    some (row.tag, page)

/-- The documents read from the pages of several terms, and the refreshed cached state. -/
def queryTerms (state : IndexState size Blob) (terms : List RawIndexTerm) :
    Option (TermMap (List (IndexedDocumentId size)) × CachedIndexState size) := do
  let cache ← env.loadMetadata state.table 2 state.cache
  let metadata ← cache.metadata
  let tags := env.tagToKeyword metadata terms
  let pages ← env.queryPages state.table tags metadata.version
  let output ← pages.foldlM (fun acc (tag, page) => do
    let keyword ← tags[tag]?
    some (acc.alter keyword fun items => some (items.getD [] ++ page.items)))
    (emptyAnswers metadata terms)
  some (output, cache)

/-- Answers queries from the stored pages and the modifications. -/
def query (state : IndexState size Blob) (queries : List RawIndexQuery) :
    Option (List (Finset (IndexedDocumentId size)) × IndexState size Blob) := do
  let queries := queries.map RawIndexQuery.checkMaxLengths
  let terms := (queries.flatMap RawIndexQuery.collectTerms).dedup
  let (results, cache) ← env.queryTerms state terms
  let modifications ← cache.changes
  some (queries.map (·.evaluate results modifications.modifications), ⟨state.table, cache⟩)

/-! ## Rebuilds -/

/-- A new version before it replaces the current one. -/
structure PreparedVersion (size : RowIdColumnSize) (Blob : Type) where
  /-- The version that is replaced. -/
  version : Nat
  /-- The modifications that the new pages contain. -/
  changes : ModificationsTable size
  rows : List (IndexTableRow Blob)
  metadata : MetadataPage

/-- Places a row of the old version, encrypting it again if it is kept. -/
def nextVersionStep (version : Nat) (changes : ModificationsTable size)
    (acc : List (IndexTableRow Blob) × Placement size) (row : IndexTableRow Blob) :
    Option (List (IndexTableRow Blob) × Placement size) := do
  let decrypted ← env.decryptTermPage version row.tag row.page
  match placePage changes acc.2 decrypted with
  | (placement, false) => some (acc.1, placement)
  | (placement, true) => do
    let kept ← env.pageRow (version + 1) decrypted.term (decrypted.pageNumber, decrypted)
    some (acc.1 ++ [kept], placement)

/-- Reads the current version and prepares the next one; nothing to do if the metadata row is
missing or has another version. -/
def prepareNextVersion (currentVersion : Nat) (table : IndexTable Blob) :
    Option (Option (PreparedVersion size Blob)) :=
  match selectTag table metadataTag with
  | [] => some none
  | head :: _ =>
    if head.version ≠ currentVersion then some none
    else do
      let metadata ← env.decryptAsMetadata head
      let changes ← match selectTag table modificationsTag with
        | [row] => env.decryptAsModifications currentVersion row
        | _ => none
      let pages := table.filter fun row =>
        row.version = currentVersion && row.tag ≠ metadataTag && row.tag ≠ modificationsTag
      let (kept, placement) ← pages.foldlM
        (env.nextVersionStep metadata.version changes.modifications) ([], ⟨∅, ∅⟩)
      let openPages := incorporateAdditions changes.modifications
        (incorporateDeletions changes.modifications placement.partialPages)
      let (created, newMetadata) :=
        createPages placement.lastFullPage openPages metadata.metadata
      let rows ← created.mapM fun (keyword, page) => env.pageRow (metadata.version + 1) keyword page
      some (some ⟨metadata.version, changes.modifications, env.shuffle (kept ++ rows), newMetadata⟩)

end IndexEnvironment

/-- The modifications without the terms of a copy whose content is now in the pages. -/
def ModificationsTable.subtractTerms (table changes : ModificationsTable size) :
    ModificationsTable size :=
  { addedEntries := changes.addedEntries.keys.foldl (·.erase ·) table.addedEntries
    removedEntries := changes.removedEntries.keys.foldl (·.erase ·) table.removedEntries }

namespace IndexEnvironment

variable (env : IndexEnvironment size Blob)

/-- Inserts the prepared rows, reads the modifications row for update and replaces the current
version. -/
def commitNextVersion (prepared : PreparedVersion size Blob) (table : IndexTable Blob) :
    Option (IndexTable Blob) := do
  let table ← env.insertRows table prepared.rows
  let row ← (selectTag table modificationsTag).head?
  let current ← env.decryptAsModifications prepared.version row
  let newModifications := current.modifications.subtractTerms prepared.changes
  let modificationsPage ← env.encryptModifications (prepared.version + 1) 1 newModifications
  let metadataPage ← env.encryptMetadata (prepared.version + 1) prepared.metadata
  let remaining := table.filter fun row =>
    !(row.version = prepared.version || row.tag = modificationsTag)
  let withMetadata ← env.insertRow remaining ⟨metadataTag, prepared.version + 1, metadataPage⟩
  env.insertRow withMetadata ⟨modificationsTag, 1, modificationsPage⟩

/-- Rebuilds the index, unless another version is current. -/
def doNextVersion (currentVersion : Nat) (table : IndexTable Blob) : Option (IndexTable Blob) := do
  match ← env.prepareNextVersion currentVersion table with
  | none => some table
  | some prepared => env.commitNextVersion prepared table

end IndexEnvironment

end SecureFusion.Inverted
