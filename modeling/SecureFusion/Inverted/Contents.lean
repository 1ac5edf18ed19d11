import SecureFusion.Library.Rows
import SecureFusion.Inverted.Index

/-!
# What an index table contains

The decrypted content of an index table, and the relation between a table and its content that every
committed operation re-establishes: one metadata row, one modifications row and the rows of the
numbered pages, each of which decrypts to its part of the content. The cached state may lag behind
the table, but a cached version that is still current comes with the current content.
-/

namespace SecureFusion.Inverted

open Std

variable {size : RowIdColumnSize} {Blob : Type} {cache : CachedIndexState size}

/-- The decrypted content of an index table. -/
structure IndexContent (size : RowIdColumnSize) where
  version : Nat
  modificationsVersion : Nat
  metadata : MetadataPage
  modifications : ModificationsTable size
  pages : List (Nat × TermPage size)
  /-- Versions start at one. -/
  version_pos : 0 < version
  modificationsVersion_pos : 0 < modificationsVersion
  /-- Modification versions fit 32 bits. -/
  modificationsVersion_lt : modificationsVersion < modificationsVersionRange
  numbered : WellNumbered pages metadata
  disjoint : modifications.Disjoint
  truncated : modifications.Truncated

def IndexContent.index (content : IndexContent size) : AbstractIndex size :=
  content.modifications.apply (storedIndex content.pages)

def pageRows (table : IndexTable Blob) : List (IndexTableRow Blob) :=
  table.filter fun row => row.tag ≠ metadataTag && row.tag ≠ modificationsTag

namespace IndexEnvironment

variable (env : IndexEnvironment size Blob) {row : IndexTableRow Blob}

/-- A row is the metadata row of a content. -/
structure IsMetadataRow (content : IndexContent size) (row : IndexTableRow Blob) : Prop where
  tag : row.tag = metadataTag
  version : row.version = content.version
  page : env.decryptMetadata content.version row.page = some content.metadata

/-- A row is the modifications row of a content. -/
structure IsModificationsRow (content : IndexContent size) (row : IndexTableRow Blob) : Prop where
  tag : row.tag = modificationsTag
  version : row.version = content.modificationsVersion
  page : env.decryptModifications content.version content.modificationsVersion row.page =
    some content.modifications

/-- A row is a numbered page of a version. -/
structure IsPageRow (current : Nat) (page : Nat × TermPage size) (row : IndexTableRow Blob) :
    Prop where
  tag : row.tag = env.pageTag current page.2.term page.1
  version : row.version = current
  page : env.decryptTermPage current row.tag row.page = some page.2

/-- A table stores a content. -/
structure Stores (table : IndexTable Blob) (content : IndexContent size) : Prop where
  metadataRow : ∃ row, selectTag table metadataTag = [row] ∧ env.IsMetadataRow content row
  modificationsRow : ∃ row, selectTag table modificationsTag = [row] ∧
    env.IsModificationsRow content row
  pages : List.Forall₂ (env.IsPageRow content.version) content.pages (pageRows table)

theorem decryptAsMetadata_of_isMetadataRow {content : IndexContent size}
    (is : env.IsMetadataRow content row) :
    env.decryptAsMetadata row = some ⟨content.version, content.metadata⟩ := by
  simp [decryptAsMetadata, is.page, is.version]

theorem decryptAsModifications_of_isModificationsRow {content : IndexContent size}
    (is : env.IsModificationsRow content row) :
    env.decryptAsModifications content.version row =
      some ⟨content.modificationsVersion, content.modifications⟩ := by
  simp [decryptAsModifications, is.page, content.modificationsVersion_lt, is.version]

theorem tag_ne_of_isPageRow {version : Nat} {page : Nat × TermPage size}
    (is : env.IsPageRow version page row) :
    row.tag ≠ metadataTag ∧ row.tag ≠ modificationsTag := by
  rw [is.tag]
  exact ⟨env.pageTag_ne_metadataTag _ _ _, env.pageTag_ne_modificationsTag _ _ _⟩

/-! ## Loading the metadata -/

def currentCache (content : IndexContent size) : CachedIndexState size :=
  ⟨some ⟨content.version, content.metadata⟩,
    some ⟨content.modificationsVersion, content.modifications⟩⟩

end IndexEnvironment

/-- The cached state is no newer than the content, and what is cached under its versions is
its content. -/
structure CachedIndexState.Consistent (cache : CachedIndexState size)
    (content : IndexContent size) : Prop where
  older : ∀ metadata, cache.metadata = some metadata → metadata.version ≤ content.version
  metadata : ∀ metadata, cache.metadata = some metadata → metadata.version = content.version →
    metadata.metadata = content.metadata
  olderChanges : ∀ metadata changes, cache.metadata = some metadata →
    cache.changes = some changes → metadata.version = content.version →
    changes.modificationsVersion ≤ content.modificationsVersion
  changes : ∀ metadata changes, cache.metadata = some metadata → cache.changes = some changes →
    metadata.version = content.version →
    changes.modificationsVersion = content.modificationsVersion →
    changes.modifications = content.modifications

theorem CachedIndexState.consistent_empty (content : IndexContent size) :
    (CachedIndexState.empty : CachedIndexState size).Consistent content := by
  constructor <;> intro metadata <;> simp [CachedIndexState.empty]

theorem consistent_currentCache (content : IndexContent size) :
    (IndexEnvironment.currentCache content).Consistent content := by
  constructor <;> simp [IndexEnvironment.currentCache]

theorem CachedIndexState.Consistent.of_newer {content next : IndexContent size}
    (consistent : cache.Consistent content) (newer : content.version < next.version) :
    cache.Consistent next := by
  have older : ∀ metadata, cache.metadata = some metadata → metadata.version < next.version :=
    fun metadata cached => Nat.lt_of_le_of_lt (consistent.older metadata cached) newer
  exact
    { older := fun metadata cached => Nat.le_of_lt (older metadata cached)
      metadata := fun metadata cached current =>
        absurd current (Nat.ne_of_lt (older metadata cached))
      olderChanges := fun metadata _ cached _ current =>
        absurd current (Nat.ne_of_lt (older metadata cached))
      changes := fun metadata _ cached _ current =>
        absurd current (Nat.ne_of_lt (older metadata cached)) }

theorem CachedIndexState.Consistent.of_changed {content next : IndexContent size}
    (consistent : cache.Consistent content) (version : next.version = content.version)
    (metadata : next.metadata = content.metadata)
    (newer : content.modificationsVersion < next.modificationsVersion) :
    cache.Consistent next where
  older page cached := version ▸ consistent.older page cached
  metadata page cached current := metadata ▸ consistent.metadata page cached (current.trans version)
  olderChanges page changes cached cachedChanges current := Nat.le_of_lt (Nat.lt_of_le_of_lt
    (consistent.olderChanges page changes cached cachedChanges (current.trans version)) newer)
  changes page changes cached cachedChanges current same := by
    have bound := consistent.olderChanges page changes cached cachedChanges
      (current.trans version)
    omega

namespace IndexEnvironment

variable (env : IndexEnvironment size Blob) {table : IndexTable Blob}

/-- The test by which a row counts as newer than the cached state. -/
def isNewer (cache : CachedIndexState size) (row : IndexTableRow Blob) : Bool :=
  (row.tag = metadataTag && (cache.metadata.map (·.version)).getD 0 < row.version) ||
    (row.tag = modificationsTag &&
      row.version ≠ (cache.changes.map (·.modificationsVersion)).getD 0)

theorem newerRows_eq {first second : IndexTableRow Blob}
    (metadataRow : selectTag table metadataTag = [first])
    (modificationsRow : selectTag table modificationsTag = [second])
    (cache : CachedIndexState size) :
    newerRows table cache = [first, second].filter (isNewer cache) ∨
      newerRows table cache = [second, first].filter (isNewer cache) := by
  have narrowed : newerRows table cache = (table.filter fun row =>
      decide (row.tag = metadataTag) || decide (row.tag = modificationsTag)).filter
        (isNewer cache) := by
    rw [List.filter_filter]
    refine List.filter_congr fun row _ => ?_
    by_cases metadata : row.tag = metadataTag
    · simp [isNewer, metadata]
    · by_cases modifications : row.tag = modificationsTag
      · simp [isNewer, modifications]
      · simp [metadata, modifications]
  have exclusive : ∀ row : IndexTableRow Blob, decide (row.tag = metadataTag) = true →
      decide (row.tag = modificationsTag) = false := by
    intro row isMetadata
    rw [decide_eq_true_eq] at isMetadata
    rw [isMetadata]
    decide
  rw [narrowed]
  obtain order | order :=
    Library.Rows.filter_or_of_singletons exclusive metadataRow modificationsRow
  · exact .inl (by rw [order])
  · exact .inr (by rw [order])

theorem loadMetadata_without_changes {content : IndexContent size}
    (stores : env.Stores table content) (rounds : Nat) :
    env.loadMetadata table (rounds + 1) ⟨some ⟨content.version, content.metadata⟩, none⟩ =
      some (currentCache content) := by
  obtain ⟨first, firstRow, isMetadata⟩ := stores.metadataRow
  obtain ⟨second, secondRow, isModifications⟩ := stores.modificationsRow
  have rows : newerRows table (⟨some ⟨content.version, content.metadata⟩, none⟩ :
      CachedIndexState size) = [second] := by
    have positive : content.modificationsVersion ≠ 0 :=
      Nat.pos_iff_ne_zero.mp content.modificationsVersion_pos
    have reserved : metadataTag ≠ modificationsTag := by decide
    obtain order | order := newerRows_eq firstRow secondRow
        (⟨some ⟨content.version, content.metadata⟩, none⟩ : CachedIndexState size) <;>
      simp [order, isNewer, isMetadata.tag, isMetadata.version, isModifications.tag,
        isModifications.version, positive, reserved]
  rw [loadMetadata, rows]
  have reserved : modificationsTag ≠ metadataTag := by decide
  simp [isModifications.tag, reserved, currentCache,
    env.decryptAsModifications_of_isModificationsRow isModifications]

theorem loadMetadata_eq {content : IndexContent size} (stores : env.Stores table content)
    (consistent : cache.Consistent content) :
    env.loadMetadata table 2 cache = some (currentCache content) := by
  obtain ⟨first, firstRow, isMetadata⟩ := stores.metadataRow
  obtain ⟨second, secondRow, isModifications⟩ := stores.modificationsRow
  have decryptedMetadata := env.decryptAsMetadata_of_isMetadataRow isMetadata
  have decryptedChanges := env.decryptAsModifications_of_isModificationsRow isModifications
  have reserved : metadataTag ≠ modificationsTag := by decide
  -- A row that is not newer holds what is cached.
  have cachedMetadata (old : isNewer cache first = false) :
      cache.metadata = some ⟨content.version, content.metadata⟩ := by
    simp only [isNewer, isMetadata.tag, isMetadata.version, reserved] at old
    cases cached : cache.metadata with
    | none => exact absurd content.version_pos (by simpa [cached] using old)
    | some metadata =>
      have same : metadata.version = content.version :=
        Nat.le_antisymm (consistent.older metadata cached) (by simpa [cached] using old)
      rw [← same, ← consistent.metadata metadata cached same]
  have cachedChanges (old : isNewer cache second = false) : ∃ changes,
      cache.changes = some changes ∧
        changes.modificationsVersion = content.modificationsVersion := by
    simp only [isNewer, isModifications.tag, isModifications.version, reserved.symm] at old
    cases cached : cache.changes with
    | none => exact absurd content.modificationsVersion_pos (by simp_all)
    | some changes => exact ⟨changes, rfl, Eq.symm (by simpa [cached] using old)⟩
  have rows := newerRows_eq firstRow secondRow cache
  rw [loadMetadata]
  cases newMetadata : isNewer cache first <;> cases newChanges : isNewer cache second
  · have nothing : newerRows table cache = [] := by simpa [newMetadata, newChanges] using rows
    have current := cachedMetadata newMetadata
    obtain ⟨changes, cached, same⟩ := cachedChanges newChanges
    have sameChanges := consistent.changes _ changes current cached rfl same
    obtain ⟨cacheMetadata, cacheChanges⟩ := cache
    cases current
    cases cached
    simp [nothing, currentCache, ← same, ← sameChanges]
  · have single : newerRows table cache = [second] := by
      simpa [newMetadata, newChanges] using rows
    simp [single, isModifications.tag, reserved.symm, cachedMetadata newMetadata,
      decryptedChanges, currentCache]
  · have single : newerRows table cache = [first] := by
      simpa [newMetadata, newChanges] using rows
    obtain ⟨changes, cached, -⟩ := cachedChanges newChanges
    simp [single, isMetadata.tag, decryptedMetadata, cached,
      env.loadMetadata_without_changes stores]
  · obtain order | order := rows <;>
      simp [order, newMetadata, newChanges, isMetadata.tag, isModifications.tag,
        decryptedMetadata, decryptedChanges, currentCache, reserved, reserved.symm]

end IndexEnvironment

end SecureFusion.Inverted
