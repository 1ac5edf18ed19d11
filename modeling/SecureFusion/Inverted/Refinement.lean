import SecureFusion.Inverted.Contents

/-!
# The inverted index refines the abstract index

Each operation, when it succeeds on a table that stores some content, leaves a
table that stores a new content, and the index that the content stands for changes
as the abstract operation says. A rebuild changes the pages but not the index.
-/

namespace SecureFusion.Inverted

open Std Library ModificationsTable List Library.Rows

variable {size : RowIdColumnSize} {Blob : Type} {pages : List (Nat × TermPage size)}
  {content : IndexContent size} {table : IndexTable Blob} {version : Nat}
  {rows : List (IndexTableRow Blob)} {page : Blob} {permuted : List (Nat × TermPage size)}
  {committed : IndexTable Blob} {currentVersion : Nat}

/-! ## Truncated modification keys -/

namespace ModificationsTable

theorem truncated_empty : (empty : ModificationsTable size).Truncated := by
  intro term listed
  simp [empty] at listed

variable {table : ModificationsTable size} (document : IndexedDocumentId size)

theorem Truncated.swap (truncated : table.Truncated) : table.swap.Truncated :=
  fun term listed => truncated term listed.symm

theorem truncated_insertTerms (truncated : table.Truncated) (document : IndexedDocumentId size)
    (terms : List RawIndexTerm) :
    (table.insertTerms document terms).Truncated := by
  induction terms generalizing table with
  | nil => exact truncated
  | cons term terms ih =>
    refine ih fun key listed => ?_
    by_cases same : resizeTerm term = key
    · rw [← same, resizeTerm_resizeTerm]
    · refine truncated key ?_
      simpa only [insertTerm, ExtTreeMap.contains_eq_isSome_getElem?, ExtTreeMap.getElem?_modify,
        Library.OrderedMap.getElem?_alter_ite, Std.compare_eq_iff_eq, same, if_false] using listed

/-- A change of the table that keeps it disjoint and truncated and acts on the index. -/
structure Simulates (modifier : ModificationsTable size → ModificationsTable size)
    (action : AbstractIndex size → AbstractIndex size) : Prop where
  disjoint : ∀ table, table.Disjoint → (modifier table).Disjoint
  truncated : ∀ table, table.Truncated → (modifier table).Truncated
  apply : ∀ table stored, (modifier table).apply stored = action (table.apply stored)

theorem simulates_insertTerms (terms : List RawIndexTerm) :
    Simulates (fun table => table.insertTerms document terms)
      (fun index => index.insertTerms document terms) where
  disjoint _ disjoint := disjoint_insertTerms disjoint document terms
  truncated _ truncated := truncated_insertTerms truncated document terms
  apply table stored := apply_insertTerms table stored document terms

theorem simulates_removeTerms (terms : List RawIndexTerm) :
    Simulates (fun table => table.removeTerms document terms)
      (fun index => index.removeTerms document terms) where
  disjoint _ disjoint := disjoint_removeTerms disjoint document terms
  truncated table truncated := by
    have swapped := truncated_insertTerms truncated.swap document terms
    rw [← swap_removeTerms] at swapped
    exact swapped.swap
  apply table stored := apply_removeTerms table stored document terms

theorem Simulates.comp {first second : ModificationsTable size → ModificationsTable size}
    {firstAction secondAction : AbstractIndex size → AbstractIndex size}
    (one : Simulates first firstAction) (two : Simulates second secondAction) :
    Simulates (fun table => second (first table))
      (fun index => secondAction (firstAction index)) where
  disjoint table disjoint := two.disjoint _ (one.disjoint table disjoint)
  truncated table truncated := two.truncated _ (one.truncated table truncated)
  apply table stored := by rw [two.apply, one.apply]

theorem Simulates.foldl {α : Type} {modifier : α → ModificationsTable size → ModificationsTable size}
    {action : α → AbstractIndex size → AbstractIndex size}
    (each : ∀ element, Simulates (modifier element) (action element)) (elements : List α) :
    Simulates (fun table => elements.foldl (fun acc element => modifier element acc) table)
      (fun index => elements.foldl (fun acc element => action element acc) index) := by
  induction elements with
  | nil => exact ⟨fun _ disjoint => disjoint, fun _ truncated => truncated, fun _ _ => rfl⟩
  | cons element rest ih => exact (each element).comp ih

end ModificationsTable

namespace AbstractIndex

def insertMany (source : List (IndexedDocumentId size × List RawIndexTerm))
    (index : AbstractIndex size) : AbstractIndex size :=
  source.foldl (fun acc entry => acc.insertTerms entry.1 entry.2) index

/-- Adds documents to their first terms and removes them from their second terms. -/
def updateMany
    (source : List (IndexedDocumentId size × List RawIndexTerm × List RawIndexTerm))
    (index : AbstractIndex size) : AbstractIndex size :=
  source.foldl (fun acc entry =>
    (acc.insertTerms entry.1 entry.2.1).removeTerms entry.1 entry.2.2) index

end AbstractIndex

theorem simulates_insertMany (source : List (IndexedDocumentId size × List RawIndexTerm)) :
    ModificationsTable.Simulates (ModificationsTable.insertMany source)
      (AbstractIndex.insertMany source) := by
  have each := ModificationsTable.Simulates.foldl
    (fun entry : IndexedDocumentId size × List RawIndexTerm =>
      simulates_insertTerms entry.1 entry.2) source
  exact each

def AbstractIndex.change (index : AbstractIndex size) : IndexChange size → AbstractIndex size
  | .insertMany source => index.insertMany source
  | .updateMany source => index.updateMany source
  | .delete document terms => index.removeTerms document terms

theorem simulates_modifier (change : IndexChange size) :
    ModificationsTable.Simulates change.modifier (AbstractIndex.change · change) := by
  cases change with
  | insertMany source => exact simulates_insertMany source
  | updateMany source =>
    have each := ModificationsTable.Simulates.foldl
      (fun entry : IndexedDocumentId size × List RawIndexTerm × List RawIndexTerm =>
        (simulates_insertTerms entry.1 entry.2.1).comp
          (simulates_removeTerms entry.1 entry.2.2)) source
    exact each
  | delete document terms => exact simulates_removeTerms document terms

/-- Whatever changes a modifications page collects, no document is both added to and removed from a
term, and over any stored index the page gives the index with the changes made in order. -/
theorem collected_changes (changes : List (IndexChange size)) (stored : AbstractIndex size) :
    let table := changes.foldl (fun table change => change.modifier table) .empty
    table.Disjoint ∧ table.Truncated ∧
      table.apply stored = changes.foldl AbstractIndex.change stored := by
  have collected := Simulates.foldl simulates_modifier changes
  refine ⟨collected.disjoint _ disjoint_empty, collected.truncated _ truncated_empty, ?_⟩
  rw [collected.apply, apply_empty]

/-! ## Updates -/

namespace IndexEnvironment

variable {modifier : ModificationsTable size → ModificationsTable size}
  (env : IndexEnvironment size Blob) {action : AbstractIndex size → AbstractIndex size}
  {inserted : IndexTable Blob} {updated : IndexTable Blob} {row : IndexTableRow Blob}

theorem stores_updateRows {next : IndexContent size} (stores : env.Stores table content)
    (written : env.updateRows table modificationsTag next.modificationsVersion page = some updated)
    (sameVersion : next.version = content.version) (sameMetadata : next.metadata = content.metadata)
    (samePages : next.pages = content.pages)
    (decrypted : env.decryptModifications next.version next.modificationsVersion page =
      some next.modifications) :
    env.Stores updated next := by
  rw [updateRows] at written
  split at written
  case isFalse => cases written
  cases written
  obtain ⟨first, firstRow, isMetadata⟩ := stores.metadataRow
  obtain ⟨second, secondRow, isModifications⟩ := stores.modificationsRow
  let replaced (row : IndexTableRow Blob) : IndexTableRow Blob :=
    if row.tag = modificationsTag then ⟨modificationsTag, next.modificationsVersion, page⟩ else row
  have filtered (p : IndexTag → Bool) : (table.map replaced).filter (fun row => p row.tag) =
      (table.filter fun row => p row.tag).map replaced := by
    rw [filter_map]
    congr 2
    funext row
    by_cases tag : row.tag = modificationsTag <;> simp [replaced, tag]
  have untouched (p : IndexTag → Bool) (excluded : p modificationsTag = false) :
      (table.map replaced).filter (fun row => p row.tag) = table.filter fun row => p row.tag := by
    rw [filtered]
    refine (map_congr_left fun row inside => if_neg fun tag => ?_).trans (map_id _)
    have chosen := (mem_filter.mp inside).2
    rw [tag, excluded] at chosen
    cases chosen
  refine ⟨⟨first, ?_, ?_⟩, ⟨⟨modificationsTag, next.modificationsVersion, page⟩, ?_, ?_⟩, ?_⟩
  · rw [← firstRow]
    exact untouched (fun tag => decide (tag = metadataTag)) (by decide)
  · exact ⟨isMetadata.tag, sameVersion ▸ isMetadata.version, by
      rw [sameVersion, sameMetadata]
      exact isMetadata.page⟩
  · rw [selectTag, filtered (fun tag => decide (tag = modificationsTag)), ← selectTag, secondRow]
    simp [replaced, isModifications.tag]
  · exact ⟨rfl, rfl, decrypted⟩
  · have rows := untouched (fun tag => tag ≠ metadataTag && tag ≠ modificationsTag) (by decide)
    rw [pageRows, samePages, sameVersion]
    exact rows ▸ stores.pages

theorem changedModifications_spec (stores : env.Stores table content)
    (ran : env.changedModifications table content.version modifier = some (version, page)) :
    version = content.modificationsVersion + 1 ∧
      env.decryptModifications content.version version page =
        some (modifier content.modifications) := by
  obtain ⟨row, rowFound, isModifications⟩ := stores.modificationsRow
  have decrypted := env.decryptAsModifications_of_isModificationsRow isModifications
  simp only [changedModifications, rowFound, head?_cons, Option.bind_eq_bind,
    Option.bind_some, decrypted] at ran
  rw [Option.bind_eq_some_iff] at ran
  obtain ⟨encryptedPage, encrypted, ran⟩ := ran
  cases ran
  exact ⟨rfl, env.decryptModifications_of_encrypt encrypted⟩

theorem stores_changedModifications (simulates : ModificationsTable.Simulates modifier action)
    (stores : env.Stores table content) (next : version = content.modificationsVersion + 1)
    (decrypted : env.decryptModifications content.version version page =
      some (modifier content.modifications))
    (written : env.updateRows table modificationsTag version page = some updated) :
    ∃ next : IndexContent size, env.Stores updated next ∧
      next.modifications = modifier content.modifications ∧ next.pages = content.pages ∧
      next.version = content.version ∧ next.metadata = content.metadata ∧
      content.modificationsVersion < next.modificationsVersion := by
  have fits : version ≤ maxVersion := by
    rw [updateRows] at written
    split at written
    case isFalse => cases written
    case isTrue fits =>
      simp only [fitsColumns, Bool.and_eq_true, decide_eq_true_eq] at fits
      exact fits.1
  let changed : IndexContent size :=
    { content with
      modificationsVersion := version
      modifications := modifier content.modifications
      modificationsVersion_pos := by omega
      modificationsVersion_lt := Nat.lt_of_le_of_lt fits (by decide)
      disjoint := simulates.disjoint _ content.disjoint
      truncated := simulates.truncated _ content.truncated }
  have newer : content.modificationsVersion < changed.modificationsVersion := by
    show content.modificationsVersion < version
    omega
  exact ⟨changed, env.stores_updateRows stores written rfl rfl rfl decrypted, rfl, rfl, rfl, rfl,
    newer⟩

theorem updateChangeset_spec {state updated : IndexState size Blob} {rebuild : Option Nat}
    (simulates : ModificationsTable.Simulates modifier action)
    (stores : env.Stores state.table content) (consistent : state.cache.Consistent content)
    (ran : env.updateChangeset modifier state = some (updated, rebuild)) :
    ∃ next : IndexContent size, env.Stores updated.table next ∧ updated.cache.Consistent next ∧
      next.index = action content.index := by
  have loaded := env.loadMetadata_eq stores consistent
  simp only [updateChangeset, loaded, currentCache, Option.bind_eq_bind, Option.bind_some] at ran
  rw [Option.bind_eq_some_iff] at ran
  obtain ⟨⟨version, page⟩, changed, ran⟩ := ran
  rw [Option.bind_eq_some_iff] at ran
  obtain ⟨table, written, ran⟩ := ran
  cases ran
  obtain ⟨newVersion, decrypted⟩ := env.changedModifications_spec stores changed
  obtain ⟨next, storesNext, modifications, pages, sameVersion, metadata, newer⟩ :=
    env.stores_changedModifications simulates stores newVersion decrypted written
  refine ⟨next, storesNext,
    (consistent_currentCache content).of_changed sameVersion metadata newer, ?_⟩
  rw [IndexContent.index, modifications, pages, simulates.apply]
  rfl

/-! ## Rebuilds -/

theorem isPageRow_of_pageRow {keyword : RawIndexTerm} {page : Nat × TermPage size}
    (encrypted : env.pageRow version keyword page = some row) (term : page.2.term = keyword) :
    env.IsPageRow version page row := by
  simp only [pageRow, bind_some_iff, Option.some.injEq] at encrypted
  obtain ⟨blob, encrypted, rfl⟩ := encrypted
  exact ⟨by rw [term], rfl, env.decryptTermPage_of_encrypt encrypted⟩

theorem foldlM_nextVersionStep {changes : ModificationsTable size}
    (are : List.Forall₂ (env.IsPageRow version) pages rows)
    {acc result : List (IndexTableRow Blob) × Placement size}
    (ran : rows.foldlM (env.nextVersionStep version changes) acc = some result) :
    result.2 = placePages changes (pages.map Prod.snd) acc.2 ∧
      ∃ kept, result.1 = acc.1 ++ kept ∧
        List.Forall₂ (env.IsPageRow (version + 1)) (keptPages changes (pages.map Prod.snd)) kept := by
  induction are generalizing acc with
  | nil =>
    simp only [foldlM_nil, Option.pure_def, Option.some.injEq] at ran
    subst ran
    exact ⟨rfl, [], by simp, .nil⟩
  | @cons page row pages rows is _ ih =>
    simp only [foldlM_cons, bind_some_iff] at ran
    obtain ⟨middle, step, ran⟩ := ran
    obtain ⟨placed, kept, collected, areKept⟩ := ih ran
    simp only [nextVersionStep, is.page, Option.bind_eq_bind, Option.bind_some] at step
    have flag := placePage_kept changes acc.2 page.2
    cases placement : placePage changes acc.2 page.2 with
    | mk next isKept =>
      rw [placement] at step flag
      simp only at flag
      cases isKept with
      | false =>
        simp only [Option.some.injEq] at step
        subst step
        refine ⟨by simp [placed, placePages, placement], kept, collected, ?_⟩
        rwa [map_cons, keptPages, filter_cons_of_neg (by simp [← flag])]
      | true =>
        simp only [Option.bind_eq_some_iff, Option.some.injEq] at step
        obtain ⟨first, encrypted, rfl⟩ := step
        refine ⟨by simp [placed, placePages, placement], first :: kept, ?_, ?_⟩
        · rw [collected]
          simp
        · rw [map_cons, keptPages, filter_cons_of_pos (by simp [← flag]), map_cons]
          exact .cons (env.isPageRow_of_pageRow encrypted rfl) areKept

theorem forall₂_of_mapM_pageRow {pages : List (RawIndexTerm × Nat × TermPage size)}
    (encrypted : pages.mapM (fun page => env.pageRow version page.1 page.2) = some rows)
    (terms : ∀ page ∈ pages, page.2.2.term = page.1) :
    List.Forall₂ (env.IsPageRow version) (pages.map Prod.snd) rows := by
  rw [mapM_eq_some_iff] at encrypted
  rw [forall₂_map_left_iff]
  have both := (forall₂_and_left (p := fun page => page.2.2.term = page.1) _ _).mpr
    ⟨terms, encrypted⟩
  exact both.imp fun page row found => env.isPageRow_of_pageRow found.2 found.1

theorem insertRow_spec (ran : env.insertRow table row = some inserted) :
    inserted = table ++ [row] ∧ env.fitsColumns row = true ∧
      ∀ other ∈ table, (other.version, other.tag) ≠ (row.version, row.tag) := by
  rw [insertRow] at ran
  split at ran
  case isFalse => cases ran
  case isTrue accepted =>
    simp only [Bool.and_eq_true, Bool.not_eq_true', any_eq_false, decide_eq_true_eq,
      not_and] at accepted
    refine ⟨(Option.some.inj ran).symm, accepted.1, fun other member same => ?_⟩
    exact accepted.2 other member (Prod.mk.inj same).1 (Prod.mk.inj same).2

theorem insertRows_spec (ran : env.insertRows table rows = some inserted) :
    inserted = table ++ rows ∧ (rows.map fun row => (row.version, row.tag)).Nodup ∧
      ∀ row ∈ rows, ∀ other ∈ table, (other.version, other.tag) ≠ (row.version, row.tag) := by
  induction rows generalizing table with
  | nil =>
    simp only [insertRows, foldlM_nil, Option.pure_def, Option.some.injEq] at ran
    simp [ran]
  | cons row rows ih =>
    simp only [insertRows, foldlM_cons, bind_some_iff] at ran
    obtain ⟨middle, first, rest⟩ := ran
    obtain ⟨rfl, _, fresh⟩ := env.insertRow_spec first
    obtain ⟨rfl, distinct, freshRest⟩ := ih rest
    refine ⟨by simp, ?_, ?_⟩
    · rw [map_cons, nodup_cons]
      refine ⟨fun repeated => ?_, distinct⟩
      obtain ⟨other, member, same⟩ := mem_map.mp repeated
      exact freshRest other member row (by simp) same.symm
    · intro other member
      rw [mem_cons] at member
      obtain rfl | member := member
      · exact fresh
      · exact fun earlier inside => freshRest other member earlier (mem_append_left _ inside)

theorem nodup_pages_of_nodup_rows (are : List.Forall₂ (env.IsPageRow version) pages rows)
    (distinct : (rows.map fun row => (row.version, row.tag)).Nodup) :
    (pages.map fun page => (page.2.term, page.1)).Nodup := by
  have keys : rows.map (fun row => (row.version, row.tag)) =
      (pages.map fun page => (page.2.term, page.1)).map
        fun key => (version, env.pageTag version key.1 key.2) := by
    rw [map_map]
    clear distinct
    induction are with
    | nil => rfl
    | cons is _ ih => simp [is.tag, is.version, ih]
  rw [keys] at distinct
  exact distinct.of_map _

end IndexEnvironment

theorem WellNumbered.perm {metadata : MetadataPage} (numbered : WellNumbered pages metadata)
    (perm : permuted.Perm pages) :
    WellNumbered permuted metadata where
  header page member := numbered.header page (perm.mem_iff.mp member)
  unique := (perm.map _).nodup_iff.mpr numbered.unique
  truncated page member := numbered.truncated page (perm.mem_iff.mp member)
  fits page member := numbered.fits page (perm.mem_iff.mp member)
  full page member number below := by
    obtain ⟨earlier, inside, found⟩ := numbered.full page (perm.mem_iff.mp member) number below
    exact ⟨earlier, perm.mem_iff.mpr inside, found⟩
  bounded page member := numbered.bounded page (perm.mem_iff.mp member)

theorem storedIndex_perm (perm : permuted.Perm pages) :
    storedIndex permuted = storedIndex pages := by
  funext term
  ext document
  simp only [storedIndex, perm.mem_iff]

namespace IndexEnvironment

variable (env : IndexEnvironment size Blob)

/-- What a prepared version contains, in terms of the content it was prepared from. -/
structure Prepares (content : IndexContent size) (prepared : PreparedVersion size Blob)
    (pages : List (Nat × TermPage size)) : Prop where
  version : prepared.version = content.version
  changes : prepared.changes = content.modifications
  metadata : prepared.metadata = (rebuiltPages content.modifications
    (content.pages.map Prod.snd) content.metadata).2
  rows : List.Forall₂ (env.IsPageRow (content.version + 1)) pages prepared.rows
  pages : pages.Perm (rebuiltPages content.modifications (content.pages.map Prod.snd)
    content.metadata).1

theorem filter_page_rows (stores : env.Stores table content) :
    (table.filter fun row => row.version = content.version && row.tag ≠ metadataTag &&
      row.tag ≠ modificationsTag) = pageRows table := by
  have narrowed : (table.filter fun row => row.version = content.version &&
      row.tag ≠ metadataTag && row.tag ≠ modificationsTag) =
      (pageRows table).filter fun row => row.version = content.version := by
    rw [pageRows, filter_filter]
    refine filter_congr fun row _ => ?_
    rw [Bool.and_assoc]
  rw [narrowed, filter_eq_self]
  intro row member
  obtain ⟨page, _, is⟩ := exists_of_forall₂_right stores.pages member
  simp [is.version]

theorem prepareNextVersion_spec (stores : env.Stores table content)
    {prepared : PreparedVersion size Blob}
    (ran : env.prepareNextVersion currentVersion table = some (some prepared)) :
    ∃ pages, env.Prepares content prepared pages := by
  obtain ⟨first, firstRow, isMetadata⟩ := stores.metadataRow
  obtain ⟨second, secondRow, isModifications⟩ := stores.modificationsRow
  rw [prepareNextVersion, firstRow] at ran
  simp only [isMetadata.version] at ran
  by_cases current : content.version = currentVersion
  case neg => simp [current] at ran
  subst current
  simp only [ne_eq, not_true_eq_false, if_false, env.decryptAsMetadata_of_isMetadataRow isMetadata,
    secondRow, env.decryptAsModifications_of_isModificationsRow isModifications,
    Option.bind_eq_bind, Option.bind_some] at ran
  have rows := env.filter_page_rows stores
  simp only [ne_eq] at rows
  rw [rows, Option.bind_eq_some_iff] at ran
  obtain ⟨⟨kept, placement⟩, placed, ran⟩ := ran
  obtain ⟨rfl, _, rfl, areKept⟩ := env.foldlM_nextVersionStep stores.pages placed
  rw [Option.bind_eq_some_iff] at ran
  obtain ⟨new, encrypted, ran⟩ := ran
  cases ran
  have areNew := env.forall₂_of_mapM_pageRow encrypted fun page created =>
    (createdPage_term content.numbered content.truncated created).1
  have areAll := rel_append areKept areNew
  obtain ⟨pages, perm, shuffled⟩ := forall₂_perm areAll (env.shuffle_perm _)
  exact ⟨pages, rfl, rfl, rfl, shuffled, perm⟩

theorem selectTag_of_pageRows (are : List.Forall₂ (env.IsPageRow version) pages rows)
    {tag : IndexTag} (reserved : tag = metadataTag ∨ tag = modificationsTag) :
    selectTag rows tag = [] := by
  rw [selectTag, filter_eq_nil_iff]
  intro row member
  obtain ⟨page, _, is⟩ := exists_of_forall₂_right are member
  have other := env.tag_ne_of_isPageRow is
  obtain rfl | rfl := reserved
  · simp [other.1]
  · simp [other.2]

theorem stores_append (are : List.Forall₂ (env.IsPageRow content.version) content.pages rows)
    {first second : IndexTableRow Blob} (isMetadata : env.IsMetadataRow content first)
    (isModifications : env.IsModificationsRow content second) :
    env.Stores (rows ++ [first, second]) content := by
  have reserved : metadataTag ≠ modificationsTag := by decide
  refine ⟨⟨first, ?_, isMetadata⟩, ⟨second, ?_, isModifications⟩, ?_⟩
  · have none_ := env.selectTag_of_pageRows are (.inl rfl)
    simp only [selectTag] at none_ ⊢
    simp [filter_append, none_, isMetadata.tag, isModifications.tag, reserved.symm]
  · have none_ := env.selectTag_of_pageRows are (.inr rfl)
    simp only [selectTag] at none_ ⊢
    simp [filter_append, none_, isMetadata.tag, isModifications.tag, reserved]
  · have allRows : pageRows (rows ++ [first, second]) = rows := by
      have kept : rows.filter (fun row => row.tag ≠ metadataTag && row.tag ≠ modificationsTag) =
          rows := by
        rw [filter_eq_self]
        intro row member
        obtain ⟨page, _, is⟩ := exists_of_forall₂_right are member
        simp [env.tag_ne_of_isPageRow is]
      rw [pageRows, filter_append, kept]
      simp [isMetadata.tag, isModifications.tag]
    rw [allRows]
    exact are

theorem filter_old_rows (stores : env.Stores table content) :
    (table.filter fun row =>
      !(row.version = content.version || row.tag = modificationsTag)) = [] := by
  obtain ⟨first, firstRow, isMetadata⟩ := stores.metadataRow
  rw [filter_eq_nil_iff]
  intro row member
  by_cases modifications : row.tag = modificationsTag
  · simp [modifications]
  by_cases metadata : row.tag = metadataTag
  · have inside : row ∈ selectTag table metadataTag :=
      mem_filter.mpr ⟨member, by simp [metadata]⟩
    rw [firstRow, mem_singleton] at inside
    simp [inside, isMetadata.version]
  · have inside : row ∈ pageRows table :=
      mem_filter.mpr ⟨member, by simp [metadata, modifications]⟩
    obtain ⟨page, _, is⟩ := exists_of_forall₂_right stores.pages inside
    simp [is.version]

theorem commitNextVersion_spec (stores : env.Stores table content)
    {prepared : PreparedVersion size Blob} (version : prepared.version = content.version)
    (are : List.Forall₂ (env.IsPageRow (content.version + 1)) pages prepared.rows)
    (numbered : (pages.map fun page => (page.2.term, page.1)).Nodup →
      WellNumbered pages prepared.metadata)
    (disjoint : (content.modifications.subtractTerms prepared.changes).Disjoint)
    (truncated : (content.modifications.subtractTerms prepared.changes).Truncated)
    (ran : env.commitNextVersion prepared table = some committed) :
    ∃ next : IndexContent size, env.Stores committed next ∧
      next.version = content.version + 1 ∧ next.pages = pages ∧
      next.modifications = content.modifications.subtractTerms prepared.changes ∧
      (pages.map fun page => (page.2.term, page.1)).Nodup := by
  obtain ⟨first, firstRow, isMetadata⟩ := stores.metadataRow
  obtain ⟨second, secondRow, isModifications⟩ := stores.modificationsRow
  simp only [commitNextVersion, bind_some_iff] at ran
  obtain ⟨inserted, insertedRows, row, rowFound, current, decrypted, modificationsPage,
    encryptedModifications, metadataPage, encryptedMetadata, withMetadata, insertedMetadata,
    insertedModifications⟩ := ran
  obtain ⟨rfl, distinct, _⟩ := env.insertRows_spec insertedRows
  have unique := env.nodup_pages_of_nodup_rows are distinct
  -- The locked row is the modifications row of the table.
  have sameRow : second = row := by
    have none_ := env.selectTag_of_pageRows are (.inr rfl)
    rw [selectTag] at none_ secondRow
    rw [selectTag, filter_append, none_, secondRow] at rowFound
    exact Option.some.inj rowFound
  subst sameRow
  rw [version, env.decryptAsModifications_of_isModificationsRow isModifications] at decrypted
  cases decrypted
  -- Only the prepared rows survive the deletion.
  have remaining : ((table ++ prepared.rows).filter fun row =>
      !(row.version = prepared.version || row.tag = modificationsTag)) = prepared.rows := by
    rw [filter_append, version, env.filter_old_rows stores, nil_append, filter_eq_self]
    intro row member
    obtain ⟨page, _, is⟩ := exists_of_forall₂_right are member
    simp [is.version, (env.tag_ne_of_isPageRow is).2]
  rw [remaining] at insertedMetadata
  obtain ⟨rfl, _, _⟩ := env.insertRow_spec insertedMetadata
  obtain ⟨rfl, _, _⟩ := env.insertRow_spec insertedModifications
  rw [version] at encryptedModifications encryptedMetadata
  obtain ⟨shrunk, decryptedMetadata, grows⟩ := env.decryptMetadata_of_encrypt encryptedMetadata
  have decryptedModifications := env.decryptModifications_of_encrypt encryptedModifications
  let next : IndexContent size :=
    { version := content.version + 1
      modificationsVersion := 1
      metadata := shrunk
      modifications := content.modifications.subtractTerms prepared.changes
      pages := pages
      version_pos := Nat.succ_pos _
      modificationsVersion_pos := Nat.one_pos
      modificationsVersion_lt := by decide
      numbered := (numbered unique).mono grows
      disjoint := disjoint
      truncated := truncated }
  refine ⟨next, ?_, rfl, rfl, rfl, unique⟩
  rw [append_assoc]
  exact env.stores_append are ⟨rfl, by rw [version], decryptedMetadata⟩
    ⟨rfl, rfl, decryptedModifications⟩

end IndexEnvironment

namespace ModificationsTable

variable {table : ModificationsTable size}

theorem documents_foldl_erase (entries changes : TermMap (DocumentSet size))
    (term : RawIndexTerm) :
    documents (changes.keys.foldl (fun acc key => acc.erase key) entries) term =
      if changes.contains term then ∅ else documents entries term := by
  simp only [documents, Library.OrderedMap.getElem?_foldl_erase, ExtTreeMap.mem_keys,
    ExtTreeMap.contains_iff_mem]
  split <;> rfl

theorem disjoint_subtractTerms (disjoint : table.Disjoint) (changes : ModificationsTable size) :
    (table.subtractTerms changes).Disjoint := by
  intro term document added removed
  rw [subtractTerms, documents_foldl_erase] at added removed
  split at added
  · simp at added
  · split at removed
    · simp at removed
    · exact disjoint term document added removed

theorem truncated_subtractTerms (truncated : table.Truncated) (changes : ModificationsTable size) :
    (table.subtractTerms changes).Truncated := by
  intro term listed
  refine truncated term ?_
  simp only [subtractTerms, ExtTreeMap.contains_eq_isSome_getElem?,
    Library.OrderedMap.getElem?_foldl_erase] at listed ⊢
  have kept {condition : Prop} {_ : Decidable condition} {entry : Option (DocumentSet size)}
      (isSome : (if condition then none else entry).isSome = true) : entry.isSome = true := by
    split at isSome
    · cases isSome
    · exact isSome
  exact listed.imp kept kept

/-- What may become of modifications while a rebuild works on a copy of them: their documents
move between being added and being removed, and no document is new under a term of the copy. -/
structure Continues (base table : ModificationsTable size) : Prop where
  added : ∀ term, base.addedEntries.contains term → ∀ document,
    document ∈ documents table.addedEntries term → document ∈ documents base.addedEntries term
  removed : ∀ term, base.removedEntries.contains term → ∀ document,
    document ∈ documents table.removedEntries term → document ∈ documents base.removedEntries term
  stillAdded : ∀ term document, document ∈ documents base.addedEntries term →
    document ∈ documents table.addedEntries term ∨ document ∈ documents table.removedEntries term
  stillRemoved : ∀ term document, document ∈ documents base.removedEntries term →
    document ∈ documents table.removedEntries term ∨ document ∈ documents table.addedEntries term

theorem Continues.refl (table : ModificationsTable size) : table.Continues table where
  added _ _ _ := id
  removed _ _ _ := id
  stillAdded _ _ := .inl
  stillRemoved _ _ := .inl

theorem apply_subtractTerms {base : ModificationsTable size} (continues : base.Continues table)
    (baseDisjoint : base.Disjoint) (disjoint : table.Disjoint) (stored : AbstractIndex size) :
    (table.subtractTerms base).apply (base.apply stored) = table.apply stored := by
  funext term
  ext document
  have added := fun listed => continues.added term listed document
  have removed := fun listed => continues.removed term listed document
  have stillAdded := continues.stillAdded term document
  have stillRemoved := continues.stillRemoved term document
  have baseApart := baseDisjoint term document
  have apart := disjoint term document
  -- A term without an entry in the copy has no documents there.
  have noneAdded (absent : base.addedEntries.contains term = false) :=
    not_mem_documents absent document
  have noneRemoved (absent : base.removedEntries.contains term = false) :=
    not_mem_documents absent document
  simp only [apply, subtractTerms, Set.mem_ofPred_eq, documents_foldl_erase,
    apply_ite (document ∈ ·), ExtTreeSet.not_mem_empty]
  generalize (document ∈ documents base.addedEntries term) = isAdded at *
  generalize (document ∈ documents base.removedEntries term) = isRemoved at *
  generalize (document ∈ documents table.addedEntries term) = nowAdded at *
  generalize (document ∈ documents table.removedEntries term) = nowRemoved at *
  generalize (document ∈ stored term) = isStored
  cases hasAdded : base.addedEntries.contains term <;>
    cases hasRemoved : base.removedEntries.contains term <;>
    simp only [hasAdded, hasRemoved, Bool.false_eq_true, if_false, if_true, forall_const] at * <;>
    grind

end ModificationsTable

namespace IndexEnvironment

variable (env : IndexEnvironment size Blob)

theorem commitNextVersion_index {base : IndexContent size} {prepared : PreparedVersion size Blob}
    (prepares : env.Prepares base prepared pages) (stores : env.Stores table content)
    (sameVersion : base.version = content.version) (samePages : base.pages = content.pages)
    (continues : base.modifications.Continues content.modifications)
    (ran : env.commitNextVersion prepared table = some committed) :
    ∃ next : IndexContent size, env.Stores committed next ∧ next.index = content.index ∧
      content.version < next.version := by
  have uniqueRebuilt : (pages.map fun page => (page.2.term, page.1)).Nodup →
      ((rebuiltPages base.modifications (base.pages.map Prod.snd)
        base.metadata).1.map fun page => (page.2.term, page.1)).Nodup :=
    (prepares.pages.map _).nodup_iff.mp
  have numbered : (pages.map fun page => (page.2.term, page.1)).Nodup →
      WellNumbered pages prepared.metadata := by
    intro unique
    rw [prepares.metadata]
    exact (wellNumbered_rebuiltPages base.numbered base.truncated
      (uniqueRebuilt unique)).perm prepares.pages
  obtain ⟨next, storesNext, version, newPages, modifications, unique⟩ :=
    env.commitNextVersion_spec stores (prepares.version.trans sameVersion)
      (sameVersion ▸ prepares.rows) numbered
      (disjoint_subtractTerms content.disjoint _)
      (truncated_subtractTerms content.truncated _) ran
  refine ⟨next, storesNext, ?_, by omega⟩
  calc next.index
      = (content.modifications.subtractTerms base.modifications).apply (storedIndex pages) := by
        rw [IndexContent.index, modifications, newPages, prepares.changes]
    _ = (content.modifications.subtractTerms base.modifications).apply
          (base.modifications.apply (storedIndex content.pages)) := by
        rw [storedIndex_perm prepares.pages, ← samePages, storedIndex_rebuiltPages base.numbered
          base.truncated base.disjoint (uniqueRebuilt unique)]
    _ = content.index :=
        apply_subtractTerms continues base.disjoint content.disjoint _

theorem doNextVersion_spec {rebuilt : IndexTable Blob} (stores : env.Stores table content)
    (ran : env.doNextVersion currentVersion table = some rebuilt) :
    ∃ next : IndexContent size, env.Stores rebuilt next ∧ next.index = content.index ∧
      (next = content ∨ content.version < next.version) := by
  simp only [doNextVersion, bind_some_iff] at ran
  obtain ⟨prepared, preparation, ran⟩ := ran
  cases prepared with
  | none =>
    cases ran
    exact ⟨content, stores, rfl, .inl rfl⟩
  | some prepared =>
    obtain ⟨pages, prepares⟩ := env.prepareNextVersion_spec stores preparation
    obtain ⟨next, storesNext, same, newer⟩ := env.commitNextVersion_index prepares stores rfl rfl
      (ModificationsTable.Continues.refl _) ran
    exact ⟨next, storesNext, same, .inr newer⟩

end IndexEnvironment

end SecureFusion.Inverted
