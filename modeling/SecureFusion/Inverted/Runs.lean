import SecureFusion.Inverted.Refinement

/-!
# Runs of the inverted index

Operations on one index that are executed one after the other, each committed before the next
begins. The initial provisioning establishes, and every operation keeps, that the table stores some
content and that the cached state agrees with it. So the content of a run stands for the index to
which the abstract operations lead, and queries return exactly the abstract sets.
-/

namespace SecureFusion.Inverted

open Std Library List Library.Rows ModificationsTable

variable {size : RowIdColumnSize} {Blob : Type}
  {source : List (IndexedDocumentId size × List RawIndexTerm)} {state : IndexState size Blob}
  {table : IndexTable Blob}

namespace IndexEnvironment

variable {content : IndexContent size} (env : IndexEnvironment size Blob)
  (metadata : VersionedMetadataPage)

/-! ## Queries -/

theorem getElem?_foldl_insert_pageTag (version : Nat) (keyword : RawIndexTerm) (count : Nat)
    (tags : ExtTreeMap IndexTag RawIndexTerm) (tag : IndexTag) :
    ((List.range count).foldl (fun acc page => acc.insert (env.pageTag version keyword page) keyword)
      tags)[tag]? =
      if ∃ page < count, env.pageTag version keyword page = tag then some keyword
      else tags[tag]? := by
  induction count with
  | zero => simp
  | succ count ih =>
    rw [range_succ, foldl_append, foldl_cons, foldl_nil, ExtTreeMap.getElem?_insert, ih]
    simp only [Nat.exists_lt_succ_right, Std.compare_eq_iff_eq]
    by_cases last : env.pageTag version keyword count = tag
    · simp [last]
    · simp [last]

theorem getElem?_tagToKeyword (terms : List RawIndexTerm) (tag : IndexTag)
    (keyword : RawIndexTerm) :
    (env.tagToKeyword metadata terms)[tag]? = some keyword ↔
      keyword ∈ terms ∧ ∃ page < metadata.metadata.getNumPages keyword,
        env.pageTag metadata.version keyword page = tag := by
  induction terms using reverseRecOn with
  | nil => simp [tagToKeyword]
  | append_singleton terms last ih =>
    rw [tagToKeyword, foldl_append, ← tagToKeyword, foldl_cons, foldl_nil,
      getElem?_foldl_insert_pageTag]
    split
    case isTrue own =>
      obtain ⟨number, below, found⟩ := own
      constructor
      · rintro ⟨⟩
        exact ⟨by simp, number, below, found⟩
      · rintro ⟨_, page, _, same⟩
        rw [(env.pageTag_injective (same.trans found.symm)).1]
    case isFalse other =>
      rw [ih, mem_append, mem_singleton]
      constructor
      · rintro ⟨member, found⟩
        exact ⟨.inl member, found⟩
      · rintro ⟨member | rfl, found⟩
        · exact ⟨member, found⟩
        · exact absurd found other

theorem getElem?_emptyAnswers (terms : List RawIndexTerm) (keyword : RawIndexTerm) :
    ((emptyAnswers metadata terms)[keyword]? : Option (List (IndexedDocumentId size))).getD [] =
      [] := by
  induction terms using reverseRecOn with
  | nil => simp [emptyAnswers]
  | append_singleton terms last ih =>
    rw [emptyAnswers, foldl_append, ← emptyAnswers, foldl_cons, foldl_nil]
    split
    · rw [ExtTreeMap.getElem?_insert]
      split
      · rfl
      · exact ih
    · exact ih

theorem filter_query_rows (stores : env.Stores table content) (terms : List RawIndexTerm) :
    let tags := env.tagToKeyword ⟨content.version, content.metadata⟩ terms
    let msb := tags.keys.map (·.take tagPrefixSize)
    ((table.filter fun row => msb.contains (row.tag.take tagPrefixSize) &&
        row.version = content.version).filter fun row => tags.contains row.tag) =
      (pageRows table).filter fun row => tags.contains row.tag := by
  intro tags msb
  rw [filter_filter, pageRows, filter_filter]
  refine filter_congr fun row member => ?_
  by_cases listed : tags.contains row.tag
  case neg => simp [listed]
  have prefixed : row.tag.take tagPrefixSize ∈ msb :=
    mem_map_of_mem (ExtTreeMap.mem_keys.mpr (ExtTreeMap.contains_iff_mem.mp listed))
  -- A listed tag is a page tag, so the row is a page row and has the current version.
  rw [ExtTreeMap.contains_eq_isSome_getElem?, Option.isSome_iff_exists] at listed
  obtain ⟨keyword, found⟩ := listed
  obtain ⟨_, number, _, tag⟩ := (env.getElem?_tagToKeyword _ _ _ _).mp found
  have notMetadata : row.tag ≠ metadataTag := tag ▸ env.pageTag_ne_metadataTag _ _ _
  have notModifications : row.tag ≠ modificationsTag := tag ▸ env.pageTag_ne_modificationsTag _ _ _
  have inside : row ∈ pageRows table :=
    mem_filter.mpr ⟨member, by simp [notMetadata, notModifications]⟩
  obtain ⟨page, _, is⟩ := exists_of_forall₂_right stores.pages inside
  simp [prefixed, is.version, notMetadata, notModifications]

theorem queryPages_spec (stores : env.Stores table content) (terms : List RawIndexTerm) :
    ∃ answers, env.queryPages table (env.tagToKeyword ⟨content.version, content.metadata⟩ terms)
        content.version = some answers ∧
      ∀ answer, answer ∈ answers ↔ ∃ page ∈ content.pages, page.2.term ∈ terms ∧
        answer = (env.pageTag content.version page.2.term page.1, page.2) := by
  have decrypts : ∀ row ∈ (pageRows table).filter fun row =>
      (env.tagToKeyword ⟨content.version, content.metadata⟩ terms).contains row.tag,
      ∃ page ∈ content.pages, env.IsPageRow content.version page row := fun row member =>
    exists_of_forall₂_right stores.pages (mem_filter.mp member).1
  obtain ⟨answers, read⟩ := exists_mapM (f := fun row : IndexTableRow Blob =>
      (env.decryptTermPage content.version row.tag row.page).bind fun page => some (row.tag, page))
    fun row member => by
      obtain ⟨page, _, is⟩ := decrypts row member
      exact ⟨(row.tag, page.2), by simp [is.page]⟩
  refine ⟨answers, ?_, fun answer => ?_⟩
  · rw [queryPages, env.filter_query_rows stores terms]
    exact read
  rw [mapM_eq_some_iff] at read
  constructor
  · intro member
    obtain ⟨row, inside, decrypted⟩ := exists_of_forall₂_right read member
    obtain ⟨page, stored, is⟩ := decrypts row inside
    rw [is.page, Option.bind_some, Option.some.injEq] at decrypted
    have listed := (mem_filter.mp inside).2
    rw [ExtTreeMap.contains_eq_isSome_getElem?, Option.isSome_iff_exists] at listed
    obtain ⟨keyword, found⟩ := listed
    obtain ⟨requested, number, _, tag⟩ := (env.getElem?_tagToKeyword _ _ _ _).mp found
    have same := (env.pageTag_injective (tag.trans is.tag)).1
    exact ⟨page, stored, same ▸ requested, by rw [← decrypted, is.tag]⟩
  · rintro ⟨page, stored, requested, rfl⟩
    obtain ⟨row, inTable, is⟩ := exists_of_forall₂_left stores.pages stored
    have listed : (env.tagToKeyword ⟨content.version, content.metadata⟩ terms).contains row.tag := by
      rw [ExtTreeMap.contains_eq_isSome_getElem?, Option.isSome_iff_exists]
      exact ⟨page.2.term, (env.getElem?_tagToKeyword _ _ _ _).mpr ⟨requested, page.1,
        content.numbered.bounded page stored, is.tag.symm⟩⟩
    obtain ⟨answer, member, decrypted⟩ := exists_of_forall₂_left read
      (mem_filter.mpr ⟨inTable, listed⟩)
    rw [is.page, Option.bind_some, Option.some.injEq] at decrypted
    rw [← is.tag, decrypted]
    exact member

theorem foldlM_answers (tags : ExtTreeMap IndexTag RawIndexTerm)
    (answers : List (IndexTag × TermPage size))
    (known : ∀ answer ∈ answers, tags[answer.1]? = some answer.2.term)
    (acc : TermMap (List (IndexedDocumentId size))) :
    ∃ output, answers.foldlM (fun acc (tag, page) => do
        let keyword ← tags[tag]?
        some (acc.alter keyword fun items => some (items.getD [] ++ page.items))) acc = some output ∧
      ∀ keyword document, document ∈ output[keyword]?.getD [] ↔
        document ∈ acc[keyword]?.getD [] ∨
          ∃ answer ∈ answers, answer.2.term = keyword ∧ document ∈ answer.2.items := by
  induction answers generalizing acc with
  | nil => exact ⟨acc, rfl, by simp⟩
  | cons first rest ih =>
    obtain ⟨output, collected, spec⟩ := ih (fun answer member => known answer (by simp [member]))
      (acc.alter first.2.term fun items => some (items.getD [] ++ first.2.items))
    refine ⟨output, ?_, fun keyword document => ?_⟩
    · rw [foldlM_cons]
      simp only [known first (by simp), Option.bind_eq_bind, Option.bind_some]
      exact collected
    · rw [spec, Library.OrderedMap.getElem?_alter_ite]
      by_cases same : first.2.term = keyword
      · simp [same, or_assoc]
      · simp [same]

theorem queryTerms_spec (stores : env.Stores state.table content)
    (consistent : state.cache.Consistent content) (terms : List RawIndexTerm) :
    ∃ output, env.queryTerms state terms = some (output, currentCache content) ∧
      ∀ keyword ∈ terms, ∀ document,
        document ∈ output[keyword]?.getD [] ↔ document ∈ storedIndex content.pages keyword := by
  obtain ⟨answers, read, members⟩ := env.queryPages_spec stores terms
  have known : ∀ answer ∈ answers,
      (env.tagToKeyword ⟨content.version, content.metadata⟩ terms)[answer.1]? =
        some answer.2.term := by
    intro answer member
    obtain ⟨page, stored, requested, rfl⟩ := (members answer).mp member
    exact (env.getElem?_tagToKeyword _ _ _ _).mpr
      ⟨requested, page.1, content.numbered.bounded page stored, rfl⟩
  obtain ⟨output, collected, spec⟩ := foldlM_answers _ answers known
    (emptyAnswers ⟨content.version, content.metadata⟩ terms)
  refine ⟨output, ?_, fun keyword requested document => ?_⟩
  · simp only [queryTerms, env.loadMetadata_eq stores consistent, Option.bind_eq_bind,
      Option.bind_some]
    simp only [currentCache, Option.bind_some, read]
    simp only [Option.bind_eq_bind] at collected
    rw [collected, Option.bind_some]
  · rw [spec, getElem?_emptyAnswers]
    simp only [not_mem_nil, false_or, members, storedIndex, Set.mem_ofPred_eq]
    constructor
    · rintro ⟨_, ⟨page, stored, _, rfl⟩, term, inside⟩
      exact ⟨page, stored, term, inside⟩
    · rintro ⟨page, stored, term, inside⟩
      exact ⟨_, ⟨page, stored, term ▸ requested, rfl⟩, term, inside⟩

theorem query_spec (stores : env.Stores state.table content)
    (consistent : state.cache.Consistent content) (queries : List RawIndexQuery) :
    ∃ answers, env.query state queries = some (answers, ⟨state.table, currentCache content⟩) ∧
      answers.map (fun answer : Finset (IndexedDocumentId size) => (answer : Set _)) =
        queries.map content.index.evaluate := by
  obtain ⟨output, read, spec⟩ := env.queryTerms_spec stores consistent
    ((queries.map RawIndexQuery.checkMaxLengths).flatMap RawIndexQuery.collectTerms).dedup
  refine ⟨(queries.map RawIndexQuery.checkMaxLengths).map
    (·.evaluate output content.modifications), ?_, ?_⟩
  · simp only [query, read, currentCache, Option.bind_eq_bind, Option.bind_some]
  · rw [map_map, map_map]
    refine map_congr_left fun query member => ?_
    refine query.coe_evaluate output content.modifications (storedIndex content.pages) ?_
    intro keyword inside document
    refine spec keyword ?_ document
    rw [mem_dedup, mem_flatMap]
    exact ⟨query.checkMaxLengths, mem_map_of_mem member, inside⟩

/-! ## Initial provisioning -/

theorem addedEntries_insertTerms (document : IndexedDocumentId size) (terms : List RawIndexTerm)
    (table : ModificationsTable size) :
    (table.insertTerms document terms).addedEntries = terms.foldl (fun acc term =>
      acc.alter (resizeTerm term) fun existing => some ((existing.getD ∅).insert document))
      table.addedEntries := by
  induction terms generalizing table with
  | nil => rfl
  | cons term rest ih => exact ih _

theorem documentsForTerm_eq (source : List (IndexedDocumentId size × List RawIndexTerm)) :
    documentsForTerm source = (ModificationsTable.insertMany source .empty).addedEntries := by
  induction source using reverseRecOn with
  | nil => rfl
  | append_singleton source entry ih =>
    rw [documentsForTerm, foldl_append, ← documentsForTerm, ih, insertMany, insertMany,
      foldl_append, foldl_cons, foldl_nil, foldl_cons, foldl_nil, addedEntries_insertTerms]

end IndexEnvironment

theorem openDocuments_nil (changes : ModificationsTable size) :
    openDocuments changes [] = changes.addedEntries := by
  refine ExtTreeMap.ext_getElem? fun term => ?_
  have noPages : (oldPlacement changes []).partialPages = ∅ := rfl
  rw [openDocuments, noPages, incorporated, getElem?_incorporateAdditions]
  cases changes.addedEntries[term]? with
  | none =>
    rw [getElem?_incorporateDeletions]
    simp
  | some added =>
    have nothing : documents (incorporateDeletions changes ∅) term = ∅ := by
      simp [documents, getElem?_incorporateDeletions]
    rw [nothing]
    refine congrArg some (ExtTreeSet.ext_mem fun document => ?_)
    simp [ExtTreeSet.mem_insertMany_list, ExtTreeSet.mem_toList]

theorem AbstractIndex.mem_insertMany (source : List (IndexedDocumentId size × List RawIndexTerm))
    (index : AbstractIndex size) (term : RawIndexTerm) (document : IndexedDocumentId size) :
    document ∈ index.insertMany source term ↔
      document ∈ index term ∨ document ∈ ofDocuments source term := by
  induction source generalizing index with
  | nil => simp [insertMany, ofDocuments]
  | cons entry rest ih =>
    rw [insertMany, foldl_cons, ← insertMany, ih]
    obtain ⟨own, terms⟩ := entry
    simp only [insertTerms, ofDocuments, Set.mem_ofPred_eq, mem_cons, Prod.mk.injEq,
      or_and_right, exists_or, and_assoc, exists_and_left, exists_eq_left, or_assoc]

theorem apply_insertMany_empty (source : List (IndexedDocumentId size × List RawIndexTerm)) :
    (ModificationsTable.insertMany source .empty).apply (storedIndex []) =
      AbstractIndex.ofDocuments source := by
  rw [(simulates_insertMany source).apply, apply_empty]
  funext term
  ext document
  rw [AbstractIndex.mem_insertMany]
  simp [storedIndex]

namespace IndexEnvironment

variable (env : IndexEnvironment size Blob)

theorem doInitialProvisioning_spec (ran : env.doInitialProvisioning source = some table) :
    ∃ content : IndexContent size, env.Stores table content ∧
      content.index = AbstractIndex.ofDocuments source := by
  -- The provisioned pages are those of a rebuild from no pages that adds the documents.
  let changes := insertMany source (.empty : ModificationsTable size)
  have simulates := simulates_insertMany source
  have truncated : changes.Truncated :=
    simulates.truncated _ truncated_empty
  have disjoint : changes.Disjoint := simulates.disjoint _ disjoint_empty
  have noPages : WellNumbered ([] : List (Nat × TermPage size)) (.new size.bytes) :=
    by constructor <;> simp
  simp only [doInitialProvisioning, bind_some_iff] at ran
  obtain ⟨rows, encrypted, modificationsPage, encryptedModifications, metadataPage,
    encryptedMetadata, inserted⟩ := ran
  have created : documentsForTerm source = openDocuments changes [] := by
    rw [openDocuments_nil, documentsForTerm_eq]
  rw [created] at encrypted encryptedMetadata
  have areNew := env.forall₂_of_mapM_pageRow encrypted fun page member =>
    (createdPage_term noPages truncated member).1
  obtain ⟨pages, perm, are⟩ := forall₂_perm areNew (env.shuffle_perm _)
  obtain ⟨rfl, distinct, _⟩ := env.insertRows_spec inserted
  rw [map_append] at distinct
  have unique := (perm.map _).nodup_iff.mp
    (env.nodup_pages_of_nodup_rows are distinct.of_append_left)
  have numbered := wellNumbered_rebuiltPages noPages truncated unique
  obtain ⟨shrunk, decryptedMetadata, grows⟩ := env.decryptMetadata_of_encrypt encryptedMetadata
  let content : IndexContent size :=
    { version := 1
      modificationsVersion := 1
      metadata := shrunk
      modifications := .empty
      pages := pages
      version_pos := Nat.one_pos
      modificationsVersion_pos := Nat.one_pos
      modificationsVersion_lt := by decide
      numbered := (numbered.perm perm).mono grows
      disjoint := disjoint_empty
      truncated := truncated_empty }
  refine ⟨content, ?_, ?_⟩
  · rw [nil_append]
    exact env.stores_append are ⟨rfl, rfl, decryptedMetadata⟩
      ⟨rfl, rfl, env.decryptModifications_of_encrypt encryptedModifications⟩
  · rw [IndexContent.index, apply_empty, storedIndex_perm perm, ← apply_insertMany_empty]
    exact storedIndex_rebuiltPages noPages truncated disjoint unique

end IndexEnvironment

/-! ## Runs -/

/-- The operations that follow the provisioning of an index. -/
inductive IndexOperation (size : RowIdColumnSize) where
  | change (change : IndexChange size)
  | nextVersion (currentVersion : Nat)
  | query (queries : List RawIndexQuery)

def AbstractIndex.execute (index : AbstractIndex size) :
    IndexOperation size → AbstractIndex size
  | .change change => index.change change
  | .nextVersion _ => index
  | .query _ => index

/-- The index after provisioning and operations. -/
def AbstractIndex.run (source : List (IndexedDocumentId size × List RawIndexTerm))
    (operations : List (IndexOperation size)) : AbstractIndex size :=
  operations.foldl AbstractIndex.execute (ofDocuments source)

namespace IndexEnvironment

variable (env : IndexEnvironment size Blob) {updated : IndexState size Blob}
  {index : AbstractIndex size}

def execute (state : IndexState size Blob) :
    IndexOperation size → Option (IndexState size Blob)
  | .change change => (env.updateChangeset change.modifier state).map Prod.fst
  | .nextVersion currentVersion =>
    (env.doNextVersion currentVersion state.table).map fun table => ⟨table, state.cache⟩
  | .query queries => (env.query state queries).map Prod.snd

/-- Provisions an index and executes operations one after the other. -/
def run (source : List (IndexedDocumentId size × List RawIndexTerm))
    (operations : List (IndexOperation size)) : Option (IndexState size Blob) := do
  let table ← env.doInitialProvisioning source
  operations.foldlM env.execute ⟨table, .empty⟩

/-- The state stores the index, and its cache agrees with the table. -/
def Represents (state : IndexState size Blob) (index : AbstractIndex size) : Prop :=
  ∃ content : IndexContent size, env.Stores state.table content ∧
    state.cache.Consistent content ∧ content.index = index

theorem represents_execute (represents : env.Represents state index)
    (operation : IndexOperation size) (ran : env.execute state operation = some updated) :
    env.Represents updated (index.execute operation) := by
  obtain ⟨content, stores, consistent, rfl⟩ := represents
  cases operation with
  | change change =>
    rw [execute, Option.map_eq_some_iff] at ran
    obtain ⟨⟨result, rebuild⟩, ran, rfl⟩ := ran
    exact env.updateChangeset_spec (simulates_modifier change) stores consistent ran
  | nextVersion currentVersion =>
    rw [execute, Option.map_eq_some_iff] at ran
    obtain ⟨table, rebuilt, rfl⟩ := ran
    obtain ⟨next, storesNext, same, changed⟩ := env.doNextVersion_spec stores rebuilt
    refine ⟨next, storesNext, ?_, same⟩
    obtain rfl | newer := changed
    · exact consistent
    · exact consistent.of_newer newer
  | query queries =>
    obtain ⟨answers, answered, _⟩ := env.query_spec stores consistent queries
    rw [execute, answered] at ran
    cases ran
    exact ⟨content, stores, consistent_currentCache content, rfl⟩

theorem represents_foldlM (represents : env.Represents state index)
    (operations : List (IndexOperation size))
    (ran : operations.foldlM env.execute state = some updated) :
    env.Represents updated (operations.foldl AbstractIndex.execute index) := by
  induction operations generalizing state index with
  | nil =>
    cases ran
    exact represents
  | cons operation rest ih =>
    rw [foldlM_cons, bind_some_iff] at ran
    obtain ⟨middle, first, ran⟩ := ran
    exact ih (env.represents_execute represents operation first) ran

theorem represents_run {operations : List (IndexOperation size)}
    (ran : env.run source operations = some state) :
    env.Represents state (AbstractIndex.run source operations) := by
  rw [run, bind_some_iff] at ran
  obtain ⟨table, provisioned, ran⟩ := ran
  obtain ⟨content, stores, index⟩ := env.doInitialProvisioning_spec provisioned
  exact env.represents_foldlM
    ⟨content, stores, CachedIndexState.consistent_empty content, index⟩ operations ran

end IndexEnvironment

/-! ## An index with symbolic encryption -/

/-- A page, or a blob under the key of a version. -/
inductive SymbolicBlob (size : RowIdColumnSize) where
  | metadata (page : MetadataPage)
  | modifications (table : ModificationsTable size)
  | terms (page : TermPage size)
  | encrypted (key : Nat) (content : SymbolicBlob size)

namespace SymbolicBlob

/-- The cipher of a key opens what was encrypted under this key. -/
def cipher (key : Nat) : Cipher (SymbolicBlob size) where
  nonceSize := 12
  encryptWithFixedNonce plaintext _ _ := some (.encrypted key plaintext)
  decryptWithNonceDetached
    | .encrypted used content, _, _ => if used = key then some content else none
    | _, _, _ => none
  decrypt_of_encrypt encryption := by
    cases encryption
    simp

def pageTag (_version : Nat) (term : RawIndexTerm) (number : Nat) : IndexTag :=
  List.replicate number 1 ++ 0 :: term

theorem pageTag_inj {version number otherNumber : Nat} {term other : RawIndexTerm}
    (same : pageTag version term number = pageTag version other otherNumber) :
    term = other ∧ number = otherNumber := by
  induction number generalizing otherNumber with
  | zero =>
    cases otherNumber with
    | zero => exact ⟨(cons.inj same).2, rfl⟩
    | succ _ => exact absurd (cons.inj same).1 (by decide)
  | succ number ih =>
    cases otherNumber with
    | zero => exact absurd (cons.inj same).1 (by decide)
    | succ otherNumber =>
      obtain ⟨terms, numbers⟩ := ih (cons.inj same).2
      exact ⟨terms, congrArg Nat.succ numbers⟩

theorem pageTag_ne {reserved : IndexTag} (start : reserved.head? = some 109) (version : Nat)
    (term : RawIndexTerm) (number : Nat) : pageTag version term number ≠ reserved := by
  rintro rfl
  cases number with
  | zero | succ _ => exact absurd (Option.some.inj start) (by decide)

/-- An index whose pages are inserted in the order in which they are created. -/
def environment (size : RowIdColumnSize) : IndexEnvironment size (SymbolicBlob size) where
  length _ := 0
  metadataCodec := ⟨.metadata, fun | .metadata page => some page | _ => none, fun _ => rfl⟩
  modificationsCodec :=
    ⟨.modifications, fun | .modifications table => some table | _ => none, fun _ => rfl⟩
  termPageCodec := ⟨.terms, fun | .terms page => some page | _ => none, fun _ => rfl⟩
  metadataCipher := cipher 0
  versionCipher := cipher
  pageTag := pageTag
  pageTag_injective := pageTag_inj
  pageTag_ne_metadataTag := pageTag_ne rfl
  pageTag_ne_modificationsTag := pageTag_ne rfl
  shuffle rows := rows
  shuffle_perm _ := .refl _

def document (number : UInt8) : IndexedDocumentId .size4Bytes := #v[number, 0, 0, 0]

end SymbolicBlob

namespace IndexEnvironment

variable (env : IndexEnvironment size Blob)

/-! ## Answers after a run -/

/-- After a run every query returns the set that it denotes in the abstract index. -/
theorem query_run {state : IndexState size Blob}
    {source : List (IndexedDocumentId size × List RawIndexTerm)}
    {operations : List (IndexOperation size)} (ran : env.run source operations = some state)
    (queries : List RawIndexQuery) :
    ∃ answers updated, env.query state queries = some (answers, updated) ∧
      answers.map (fun answer : Finset (IndexedDocumentId size) => (answer : Set _)) =
        queries.map (AbstractIndex.run source operations).evaluate := by
  obtain ⟨content, stores, consistent, index⟩ := env.represents_run ran
  obtain ⟨answers, answered, sets⟩ := env.query_spec stores consistent queries
  exact ⟨answers, _, answered, by rw [sets, index]⟩

/-- Two documents that are indexed at first. -/
def exampleSource : List (IndexedDocumentId .size4Bytes × List RawIndexTerm) :=
  [(SymbolicBlob.document 1, [[5], [6]]), (SymbolicBlob.document 2, [[5]])]

/-- An insertion, an update, a query, a rebuild and a deletion. -/
def exampleOperations : List (IndexOperation .size4Bytes) :=
  [.change (.insertMany [(SymbolicBlob.document 3, [[6], [7]])]),
    .change (.updateMany [(SymbolicBlob.document 1, [[7]], [[5]])]), .query [.term [7]],
    .nextVersion 1, .change (.delete (SymbolicBlob.document 2) [[5]])]

/-- The run commits, and its table has a page for each of three terms beside the two pages of the
index itself. -/
theorem run_exampleOperations : ∃ state,
    (SymbolicBlob.environment .size4Bytes).run exampleSource exampleOperations = some state ∧
      state.table.length = 5 := by
  have committed : ((SymbolicBlob.environment .size4Bytes).run exampleSource
      exampleOperations).map (·.table.length) = some 5 := by
    decide +kernel
  simpa only [Option.map_eq_some_iff] using committed

/-- A run with every operation, and the answers after it. -/
theorem query_run_every_operation :
    let source := [(SymbolicBlob.document 1, [[5], [6]]), (SymbolicBlob.document 2, [[5]])]
    let operations : List (IndexOperation .size4Bytes) :=
      [.change (.insertMany [(SymbolicBlob.document 3, [[6], [7]])]),
        .change (.updateMany [(SymbolicBlob.document 1, [[7]], [[5]])]), .query [.term [7]],
        .nextVersion 1, .change (.delete (SymbolicBlob.document 2) [[5]])]
    ∃ state, (SymbolicBlob.environment .size4Bytes).run source operations = some state ∧
      ∀ queries, ∃ answers updated,
        (SymbolicBlob.environment .size4Bytes).query state queries = some (answers, updated) ∧
        answers.map (fun answer : Finset (IndexedDocumentId .size4Bytes) => (answer : Set _)) =
          queries.map (AbstractIndex.run source operations).evaluate := by
  obtain ⟨state, ran, -⟩ := run_exampleOperations
  exact ⟨state, ran, query_run _ ran⟩

/-- After every run the pages of each term are numbered without gaps and only the last one has
space, and the cache is no newer than the table. -/
theorem stores_run {source operations state} (ran : env.run source operations = some state) :
    ∃ content : IndexContent size, env.Stores state.table content ∧
      WellNumbered content.pages content.metadata ∧ state.cache.Consistent content := by
  obtain ⟨content, stores, consistent, -⟩ := env.represents_run ran
  exact ⟨content, stores, content.numbered, consistent⟩

/-- What a run with every operation stores. -/
theorem stores_run_every_operation : ∃ (state : IndexState _ _) (content : IndexContent _),
    (SymbolicBlob.environment .size4Bytes).run exampleSource exampleOperations = some state ∧
      state.table.length = 5 ∧ (SymbolicBlob.environment .size4Bytes).Stores state.table content ∧
      WellNumbered content.pages content.metadata ∧ state.cache.Consistent content := by
  obtain ⟨state, ran, rows⟩ := run_exampleOperations
  obtain ⟨content, stores⟩ := stores_run _ ran
  exact ⟨state, content, ran, rows, stores⟩

end IndexEnvironment

end SecureFusion.Inverted
