import SecureFusion.Inverted.AbstractIndex

/-!
# Rebuilding the pages of an index

A rebuild reads every page of the old version once. A page of a term with removed documents, or with
free space for added ones, is dissolved into the open documents of its term; every other page is
kept under its old number. The open documents, with the modifications applied, are cut into new
pages numbered after the kept ones. The pages of a term are numbered from zero and only the last one
has free space, which is why the new numbers meet the old ones.
-/

namespace SecureFusion.Inverted

open Std List Library.OrderedMap

variable {size : RowIdColumnSize} {entries : DocumentSet size}

/-- The open documents and the highest kept page of each modified term. -/
structure Placement (size : RowIdColumnSize) where
  partialPages : TermMap (DocumentSet size)
  lastFullPage : TermMap Nat

/-- Adds the documents of a page to the open documents of its term. -/
def dissolvePage (partialPages : TermMap (DocumentSet size)) (page : TermPage size) :
    TermMap (DocumentSet size) :=
  partialPages.alter page.term fun open_ => some ((open_.getD ∅).insertMany page.items)

/-- Places one page of the old version; the flag tells whether it is kept. -/
def placePage (changes : ModificationsTable size) (placement : Placement size)
    (page : TermPage size) : Placement size × Bool :=
  if changes.removedEntries.contains page.term then
    ({ placement with partialPages := dissolvePage placement.partialPages page }, false)
  else if changes.addedEntries.contains page.term then
    if 0 < page.freeSpace then
      ({ placement with partialPages := dissolvePage placement.partialPages page }, false)
    else
      ({ placement with
          lastFullPage := placement.lastFullPage.alter page.term fun last =>
            some (max (last.getD 0) page.pageNumber) }, true)
  else (placement, true)

/-- Takes removed documents out of the open ones. -/
def incorporateDeletions (changes : ModificationsTable size)
    (partialPages : TermMap (DocumentSet size)) : TermMap (DocumentSet size) :=
  changes.removedEntries.toList.foldl (fun acc entry =>
    acc.alter entry.1 (Option.map fun documents => entry.2.toList.foldl (·.erase ·) documents))
    partialPages

/-- Adds new documents to the open ones. -/
def incorporateAdditions (changes : ModificationsTable size)
    (partialPages : TermMap (DocumentSet size)) : TermMap (DocumentSet size) :=
  changes.addedEntries.toList.foldl (fun acc entry =>
    acc.alter entry.1 fun documents => some ((documents.getD ∅).insertMany entry.2.toList))
    partialPages

def firstNewPage (lastFullPage : TermMap Nat) (term : RawIndexTerm) : Nat :=
  (lastFullPage[term]?.map (· + 1)).getD 0

def newPagesOf (lastFullPage : TermMap Nat) (keyword : RawIndexTerm)
    (entries : DocumentSet size) : List (Nat × TermPage size) :=
  chunkPages keyword entries.toList.length (firstNewPage lastFullPage keyword) entries.toList

/-- Creates the pages of several terms one after the other, each with its keyword. -/
def createPagesFrom (lastFullPage : TermMap Nat)
    (entries : List (RawIndexTerm × DocumentSet size))
    (start : List (RawIndexTerm × Nat × TermPage size) × MetadataPage) :
    List (RawIndexTerm × Nat × TermPage size) × MetadataPage :=
  entries.foldl (fun (pages, metadata) (keyword, entries) =>
    let new := newPagesOf lastFullPage keyword entries
    (pages ++ new.map (keyword, ·),
      metadata.insertEntry keyword (firstNewPage lastFullPage keyword + new.length)))
    start

/-- Cuts the open documents into pages and records the numbers of pages. -/
def createPages (lastFullPage : TermMap Nat) (partialPages : TermMap (DocumentSet size))
    (metadata : MetadataPage) : List (RawIndexTerm × Nat × TermPage size) × MetadataPage :=
  createPagesFrom lastFullPage partialPages.toList ([], metadata)

/-! ## Cutting documents into pages -/

section Chunks

variable {term : RawIndexTerm} (fuel start : Nat)

theorem mem_chunkPages_items (entries : List (IndexedDocumentId size))
    (enough : entries.length ≤ fuel) (document : IndexedDocumentId size) :
    (∃ page ∈ chunkPages term fuel start entries, document ∈ page.2.items) ↔
      document ∈ entries := by
  induction fuel generalizing start entries with
  | zero =>
    have none_ : entries = [] := length_eq_zero_iff.mp (Nat.le_zero.mp enough)
    simp [chunkPages, none_]
  | succ fuel ih =>
    cases entries with
    | nil => simp [chunkPages]
    | cons first rest =>
      have positive := maxEntries_pos size
      have shorter : ((first :: rest).drop (maxEntries size)).length ≤ fuel := by
        rw [length_drop]
        simp only [length_cons] at enough ⊢
        omega
      simp only [chunkPages, isEmpty_cons, Bool.false_eq_true, if_false,
        exists_mem_cons_iff, ih _ _ shorter, TermPage.fromIterator]
      rw [← mem_append, take_append_drop]

theorem chunkPages_shape (entries : List (IndexedDocumentId size)) :
    ∀ page ∈ chunkPages term fuel start entries,
      page.2.term = resizeTerm term ∧ page.2.pageNumber = page.1 % pageNumberRange ∧
        page.2.items.length ≤ maxEntries size := by
  induction fuel generalizing start entries with
  | zero => simp [chunkPages]
  | succ fuel ih =>
    intro page member
    by_cases done : entries.isEmpty
    · simp [chunkPages, done] at member
    simp only [chunkPages, done, Bool.false_eq_true, if_false, mem_cons] at member
    obtain rfl | later := member
    · refine ⟨rfl, rfl, ?_⟩
      simp only [TermPage.fromIterator, length_take]
      omega
    · exact ih _ _ page later

theorem chunkPages_numbers (entries : List (IndexedDocumentId size)) :
    (chunkPages term fuel start entries).map Prod.fst =
      List.range' start (chunkPages term fuel start entries).length := by
  induction fuel generalizing start entries with
  | zero => rfl
  | succ fuel ih =>
    by_cases done : entries.isEmpty
    · simp [chunkPages, done]
    · simp [chunkPages, done, ih, range'_succ]

theorem chunkPages_full (entries : List (IndexedDocumentId size)) :
    ∀ page ∈ chunkPages term fuel start entries, ∀ number, start ≤ number → number < page.1 →
      ∃ earlier ∈ chunkPages term fuel start entries, earlier.1 = number ∧
        earlier.2.items.length = maxEntries size := by
  induction fuel generalizing start entries with
  | zero => simp [chunkPages]
  | succ fuel ih =>
    intro page member number above below
    by_cases done : entries.isEmpty
    · simp [chunkPages, done] at member
    simp only [chunkPages, done, Bool.false_eq_true, if_false, mem_cons] at member ⊢
    obtain rfl | later := member
    · exact absurd below (by simpa using above)
    · by_cases first : number = start
      · -- A later page exists, so documents are left after the first page, which is full.
        subst first
        refine ⟨_, .inl rfl, rfl, ?_⟩
        have remaining : entries.drop (maxEntries size) ≠ [] := by
          intro nothing
          rw [nothing] at later
          cases fuel <;> simp [chunkPages] at later
        have long : maxEntries size < entries.length := by
          by_contra short
          exact remaining (drop_eq_nil_iff.mpr (by omega))
        simp only [TermPage.fromIterator, length_take]
        omega
      · obtain ⟨earlier, inside, found⟩ :=
          ih (start + 1) _ page later number (by omega) below
        exact ⟨earlier, .inr inside, found⟩

end Chunks

/-! ## Placing the old pages -/

section Placing

variable (changes : ModificationsTable size) (pages : List (TermPage size))
  (placement : Placement size)

/-- A page is kept when its term has no removed documents, and no added ones or no free space. -/
def keepsPage (page : TermPage size) : Bool :=
  !changes.removedEntries.contains page.term &&
    (!changes.addedEntries.contains page.term || page.freeSpace = 0)

/-- Places the pages of the old version one after the other. -/
def placePages (pages : List (TermPage size)) (placement : Placement size) : Placement size :=
  pages.foldl (fun acc page => (placePage changes acc page).1) placement

/-- What placing a page does, by whether the page is kept. -/
theorem placePage_eq (page : TermPage size) : placePage changes placement page =
    if keepsPage changes page then
      (if changes.addedEntries.contains page.term then
        { placement with
          lastFullPage := placement.lastFullPage.alter page.term fun last =>
            some (max (last.getD 0) page.pageNumber) }
      else placement, true)
    else ({ placement with partialPages := dissolvePage placement.partialPages page }, false) := by
  rw [placePage, keepsPage]
  cases changes.removedEntries.contains page.term <;>
    cases changes.addedEntries.contains page.term <;>
    by_cases full : page.freeSpace = 0 <;> simp [full, Nat.pos_iff_ne_zero]

theorem placePage_kept (page : TermPage size) :
    (placePage changes placement page).2 = keepsPage changes page := by
  rw [placePage_eq]
  split_ifs with kept <;> simp [kept]

theorem placePage_partialPages (page : TermPage size) :
    (placePage changes placement page).1.partialPages =
      if keepsPage changes page then placement.partialPages
      else dissolvePage placement.partialPages page := by
  rw [placePage_eq]
  split_ifs <;> rfl

theorem firstNewPage_placePage (page : TermPage size) (term : RawIndexTerm) :
    firstNewPage (placePage changes placement page).1.lastFullPage term =
      if keepsPage changes page ∧ changes.addedEntries.contains page.term ∧ page.term = term then
        max (firstNewPage placement.lastFullPage term) (page.pageNumber + 1)
      else firstNewPage placement.lastFullPage term := by
  rw [placePage_eq]
  by_cases kept : keepsPage changes page <;>
    by_cases added : changes.addedEntries.contains page.term <;>
    simp only [kept, added, if_true, true_and, false_and, if_false, Bool.false_eq_true]
  rw [firstNewPage, firstNewPage, getElem?_alter_ite]
  by_cases same : page.term = term
  · cases placement.lastFullPage[term]? <;> simp [same]
  · simp [same]

theorem mem_documents_dissolvePage (partialPages : TermMap (DocumentSet size))
    (page : TermPage size) (term : RawIndexTerm) (document : IndexedDocumentId size) :
    document ∈ documents (dissolvePage partialPages page) term ↔
      document ∈ documents partialPages term ∨ (page.term = term ∧ document ∈ page.items) := by
  rw [documents, documents, dissolvePage, getElem?_alter_ite]
  by_cases same : page.term = term
  · simp [same, ExtTreeSet.mem_insertMany_list]
  · simp [same]

theorem contains_dissolvePage (partialPages : TermMap (DocumentSet size))
    (page : TermPage size) (term : RawIndexTerm) :
    (dissolvePage partialPages page).contains term ↔
      partialPages.contains term ∨ page.term = term := by
  simp only [ExtTreeMap.contains_eq_isSome_getElem?, dissolvePage, getElem?_alter_ite]
  by_cases same : page.term = term
  · simp [same]
  · simp [same]

theorem mem_documents_placePages (placement : Placement size) (term : RawIndexTerm)
    (document : IndexedDocumentId size) :
    document ∈ documents (placePages changes pages placement).partialPages term ↔
      document ∈ documents placement.partialPages term ∨
        ∃ page ∈ pages, keepsPage changes page = false ∧ page.term = term ∧
          document ∈ page.items := by
  induction pages generalizing placement with
  | nil => simp [placePages]
  | cons page pages ih =>
    rw [placePages, foldl_cons, ← placePages, ih, placePage_partialPages]
    by_cases kept : keepsPage changes page
    · simp [kept]
    · simp [kept, mem_documents_dissolvePage, or_assoc]

theorem contains_placePages (placement : Placement size) (term : RawIndexTerm) :
    (placePages changes pages placement).partialPages.contains term ↔
      placement.partialPages.contains term ∨
        ∃ page ∈ pages, keepsPage changes page = false ∧ page.term = term := by
  induction pages generalizing placement with
  | nil => simp [placePages]
  | cons page pages ih =>
    rw [placePages, foldl_cons, ← placePages, ih, placePage_partialPages]
    by_cases kept : keepsPage changes page
    · simp [kept]
    · simp only [kept, Bool.false_eq_true, if_false, contains_dissolvePage,
        exists_mem_cons_iff, true_and, or_assoc]

theorem lt_firstNewPage (placement : Placement size) (term : RawIndexTerm)
    (added : changes.addedEntries.contains term) :
    firstNewPage placement.lastFullPage term ≤
        firstNewPage (placePages changes pages placement).lastFullPage term ∧
      ∀ page ∈ pages, keepsPage changes page → page.term = term →
        page.pageNumber < firstNewPage (placePages changes pages placement).lastFullPage term := by
  induction pages generalizing placement with
  | nil => simp [placePages]
  | cons page pages ih =>
    obtain ⟨grows, later⟩ := ih (placePage changes placement page).1
    rw [firstNewPage_placePage] at grows
    rw [placePages, foldl_cons, ← placePages]
    refine ⟨?_, ?_⟩
    · split at grows <;> omega
    · intro other member kept same
      rw [mem_cons] at member
      obtain rfl | member := member
      · rw [if_pos ⟨kept, same ▸ added, same⟩] at grows
        omega
      · exact later other member kept same

theorem exists_before_firstNewPage (placement : Placement size) (term : RawIndexTerm) :
    firstNewPage (placePages changes pages placement).lastFullPage term =
        firstNewPage placement.lastFullPage term ∨
      ∃ page ∈ pages, keepsPage changes page ∧ changes.addedEntries.contains page.term ∧
        page.term = term ∧
        page.pageNumber + 1 = firstNewPage (placePages changes pages placement).lastFullPage term := by
  induction pages generalizing placement with
  | nil => exact .inl rfl
  | cons page pages ih =>
    rw [placePages, foldl_cons, ← placePages]
    obtain same | ⟨other, member, found⟩ := ih (placePage changes placement page).1
    · rw [same, firstNewPage_placePage]
      split
      case isTrue counted =>
        obtain below | above := Nat.le_total (firstNewPage placement.lastFullPage term)
          (page.pageNumber + 1)
        · refine .inr ⟨page, mem_cons_self, counted.1, counted.2.1, counted.2.2, ?_⟩
          omega
        · exact .inl (by omega)
      case isFalse => exact .inl rfl
    · exact .inr ⟨other, mem_cons_of_mem _ member, found⟩

end Placing

/-! ## Applying the modifications to the open documents -/

section Incorporating

variable (changes : ModificationsTable size) (partialPages : TermMap (DocumentSet size))
  (term : RawIndexTerm)

theorem getElem?_incorporateDeletions :
    (incorporateDeletions changes partialPages)[term]? =
      partialPages[term]?.map fun open_ =>
        (documents changes.removedEntries term).toList.foldl (·.erase ·) open_ := by
  rw [incorporateDeletions, getElem?_foldl_entries
    (fun removed : DocumentSet size =>
      Option.map fun open_ : DocumentSet size => removed.toList.foldl (·.erase ·) open_)]
  cases removed : changes.removedEntries[term]? with
  | none =>
    have nothing : (∅ : DocumentSet size).toList = [] := rfl
    simp [documents, removed, nothing]
  | some => simp [documents, removed]

theorem getElem?_incorporateAdditions :
    (incorporateAdditions changes partialPages)[term]? =
      match changes.addedEntries[term]? with
      | some added => some ((documents partialPages term).insertMany added.toList)
      | none => partialPages[term]? := by
  rw [incorporateAdditions, getElem?_foldl_entries
    (fun added : DocumentSet size => fun open_ : Option (DocumentSet size) =>
      some ((open_.getD ∅).insertMany added.toList))]
  cases changes.addedEntries[term]? <;> rfl

def incorporated : TermMap (DocumentSet size) :=
  incorporateAdditions changes (incorporateDeletions changes partialPages)

theorem mem_documents_incorporated (document : IndexedDocumentId size) :
    document ∈ documents (incorporated changes partialPages) term ↔
      (document ∈ documents partialPages term ∧
          document ∉ documents changes.removedEntries term) ∨
        document ∈ documents changes.addedEntries term := by
  have deletions : document ∈ documents (incorporateDeletions changes partialPages) term ↔
      document ∈ documents partialPages term ∧
        document ∉ documents changes.removedEntries term := by
    rw [documents, documents, getElem?_incorporateDeletions]
    cases partialPages[term]? with
    | none => simp
    | some open_ => simp [mem_foldl_erase, ExtTreeSet.mem_toList]
  rw [incorporated, documents, getElem?_incorporateAdditions, ← deletions]
  cases added : changes.addedEntries[term]? with
  | none => simp [documents, added]
  | some set =>
    simp [documents, added, ExtTreeSet.mem_insertMany_list, ExtTreeSet.mem_toList]

theorem open_of_incorporated (listed : (incorporated changes partialPages)[term]? = some entries) :
    partialPages.contains term ∨ changes.addedEntries.contains term := by
  rw [incorporated, getElem?_incorporateAdditions, getElem?_incorporateDeletions] at listed
  simp only [ExtTreeMap.contains_eq_isSome_getElem?]
  cases added : changes.addedEntries[term]? with
  | some set => exact .inr rfl
  | none =>
    rw [added] at listed
    obtain ⟨open_, isOpen, -⟩ := Option.map_eq_some_iff.mp listed
    exact .inl (isOpen ▸ rfl)

end Incorporating

/-! ## Creating the new pages -/

section Creating

variable (lastFullPage : TermMap Nat) (entries : List (RawIndexTerm × DocumentSet size))

theorem mem_createPagesFrom (start : List (RawIndexTerm × Nat × TermPage size) × MetadataPage)
    (page : RawIndexTerm × Nat × TermPage size) :
    page ∈ (createPagesFrom lastFullPage entries start).1 ↔
      page ∈ start.1 ∨ ∃ entry ∈ entries, page.1 = entry.1 ∧
        page.2 ∈ newPagesOf lastFullPage entry.1 entry.2 := by
  induction entries generalizing start with
  | nil => simp [createPagesFrom]
  | cons entry rest ih =>
    have own : page ∈ (newPagesOf lastFullPage entry.1 entry.2).map (entry.1, ·) ↔
        page.1 = entry.1 ∧ page.2 ∈ newPagesOf lastFullPage entry.1 entry.2 := by
      simp [Prod.ext_iff, eq_comm, and_comm]
    rw [createPagesFrom, foldl_cons, ← createPagesFrom, ih, mem_append, own,
      exists_mem_cons_iff, or_assoc]

theorem getNumPages_createPagesFrom_of_absent
    (start : List (RawIndexTerm × Nat × TermPage size) × MetadataPage) (term : RawIndexTerm)
    (absent : ∀ entry ∈ entries, entry.1 ≠ term) :
    (createPagesFrom lastFullPage entries start).2.getNumPages term = start.2.getNumPages term := by
  induction entries generalizing start with
  | nil => rfl
  | cons entry rest ih =>
    rw [createPagesFrom, foldl_cons, ← createPagesFrom, ih _ (forall_mem_cons.mp absent).2,
      MetadataPage.getNumPages_insertEntry_of_ne _ (absent entry mem_cons_self)]

theorem le_getNumPages_createPagesFrom
    (distinct : entries.Pairwise fun a b => ¬ compare a.1 b.1 = .eq)
    (start : List (RawIndexTerm × Nat × TermPage size) × MetadataPage) :
    ∀ entry ∈ entries,
      firstNewPage lastFullPage entry.1 + (newPagesOf lastFullPage entry.1 entry.2).length ≤
        (createPagesFrom lastFullPage entries start).2.getNumPages entry.1 := by
  induction entries generalizing start with
  | nil => simp
  | cons entry rest ih =>
    intro other member
    rw [pairwise_cons] at distinct
    rw [createPagesFrom, foldl_cons, ← createPagesFrom]
    rw [mem_cons] at member
    obtain rfl | member := member
    · rw [getNumPages_createPagesFrom_of_absent]
      · exact MetadataPage.le_getNumPages_insertEntry _ _ _
      · intro later inside same
        exact distinct.1 later inside (by simp [same])
    · exact ih distinct.2 _ other member

theorem mem_createPages (partialPages : TermMap (DocumentSet size)) (metadata : MetadataPage)
    (page : RawIndexTerm × Nat × TermPage size) :
    page ∈ (createPages lastFullPage partialPages metadata).1 ↔
      ∃ entries, partialPages[page.1]? = some entries ∧
        page.2 ∈ newPagesOf lastFullPage page.1 entries := by
  rw [createPages, mem_createPagesFrom]
  constructor
  · rintro (none_ | ⟨⟨key, entries⟩, listed, keyword, cut⟩)
    · cases none_
    · rw [ExtTreeMap.mem_toList_iff_getElem?_eq_some] at listed
      exact ⟨entries, keyword ▸ listed, keyword ▸ cut⟩
  · rintro ⟨entries, listed, cut⟩
    exact .inr ⟨(page.1, entries), ExtTreeMap.mem_toList_iff_getElem?_eq_some.mpr listed, rfl, cut⟩

theorem getNumPages_createPages_of_absent (partialPages : TermMap (DocumentSet size))
    (metadata : MetadataPage) (term : RawIndexTerm) (absent : partialPages[term]? = none) :
    (createPages lastFullPage partialPages metadata).2.getNumPages term =
      metadata.getNumPages term := by
  refine getNumPages_createPagesFrom_of_absent lastFullPage partialPages.toList ([], metadata) term ?_
  rintro ⟨key, entries⟩ member rfl
  rw [ExtTreeMap.mem_toList_iff_getElem?_eq_some] at member
  rw [member] at absent
  cases absent

theorem le_getNumPages_createPages (partialPages : TermMap (DocumentSet size))
    (metadata : MetadataPage) (term : RawIndexTerm) (entries : DocumentSet size)
    (listed : partialPages[term]? = some entries) :
    firstNewPage lastFullPage term + (newPagesOf lastFullPage term entries).length ≤
      (createPages lastFullPage partialPages metadata).2.getNumPages term :=
  le_getNumPages_createPagesFrom lastFullPage partialPages.toList
    ExtTreeMap.distinct_keys_toList ([], metadata) (term, entries)
    (ExtTreeMap.mem_toList_iff_getElem?_eq_some.mpr listed)

end Creating

/-! ## The rebuilt pages -/

def ModificationsTable.Truncated (changes : ModificationsTable size) : Prop :=
  ∀ term, changes.addedEntries.contains term ∨ changes.removedEntries.contains term →
    resizeTerm term = term

/-- The documents of each term in a list of numbered pages. -/
def storedIndex (pages : List (Nat × TermPage size)) : AbstractIndex size :=
  fun term => {document | ∃ page ∈ pages, page.2.term = term ∧ document ∈ page.2.items}

/-- The pages of each term are numbered from zero, below the bound of the term, and only the
last one has free space. -/
structure WellNumbered (pages : List (Nat × TermPage size)) (metadata : MetadataPage) : Prop where
  /-- The header of a page has its number. -/
  header : ∀ page ∈ pages, page.2.pageNumber = page.1 % pageNumberRange
  /-- No two pages of a term have one number. -/
  unique : (pages.map fun page => (page.2.term, page.1)).Nodup
  /-- Terms are truncated. -/
  truncated : ∀ page ∈ pages, resizeTerm page.2.term = page.2.term
  /-- No page is overfull. -/
  fits : ∀ page ∈ pages, page.2.items.length ≤ maxEntries size
  /-- Every number below that of a page belongs to a full page of its term. -/
  full : ∀ page ∈ pages, ∀ number < page.1, ∃ earlier ∈ pages, earlier.2.term = page.2.term ∧
    earlier.1 = number ∧ earlier.2.items.length = maxEntries size
  /-- The metadata bounds the numbers. -/
  bounded : ∀ page ∈ pages, page.1 < metadata.getNumPages page.2.term

theorem WellNumbered.mono {pages : List (Nat × TermPage size)} {metadata larger : MetadataPage}
    (numbered : WellNumbered pages metadata)
    (grows : ∀ term, metadata.getNumPages term ≤ larger.getNumPages term) :
    WellNumbered pages larger :=
  { numbered with
    bounded := fun page member => Nat.lt_of_lt_of_le (numbered.bounded page member) (grows _) }

/-- The pages of the old version that are kept, under the numbers in their headers. -/
def keptPages (changes : ModificationsTable size) (pages : List (TermPage size)) :
    List (Nat × TermPage size) :=
  (pages.filter (keepsPage changes)).map fun page => (page.pageNumber, page)

def oldPlacement (changes : ModificationsTable size) (pages : List (TermPage size)) :
    Placement size := placePages changes pages ⟨∅, ∅⟩

/-- The open documents of each term once the modifications are applied. -/
def openDocuments (changes : ModificationsTable size) (pages : List (TermPage size)) :
    TermMap (DocumentSet size) :=
  incorporated changes (oldPlacement changes pages).partialPages

def rebuiltPages (changes : ModificationsTable size) (pages : List (TermPage size))
    (metadata : MetadataPage) : List (Nat × TermPage size) × MetadataPage :=
  let created := createPages (oldPlacement changes pages).lastFullPage
    (openDocuments changes pages) metadata
  (keptPages changes pages ++ created.1.map Prod.snd, created.2)

section Abbreviations

variable (changes : ModificationsTable size) (pages : List (Nat × TermPage size))
  (metadata : MetadataPage)

abbrev lastFullPages : TermMap Nat := (oldPlacement changes (pages.map Prod.snd)).lastFullPage

abbrev openTerms : TermMap (DocumentSet size) := openDocuments changes (pages.map Prod.snd)

abbrev createdPages : List (Nat × TermPage size) :=
  (createPages (lastFullPages changes pages) (openTerms changes pages) metadata).1.map Prod.snd

end Abbreviations

section Rebuilt

variable {changes : ModificationsTable size} {pages : List (Nat × TermPage size)}
  {metadata : MetadataPage} {page : TermPage size}

theorem keepsPage_of_full {page earlier : TermPage size} (kept : keepsPage changes page)
    (same : earlier.term = page.term) (full : earlier.items.length = maxEntries size) :
    keepsPage changes earlier := by
  simp only [keepsPage, same, TermPage.freeSpace, full] at kept ⊢
  simp_all

theorem full_of_keepsPage (kept : keepsPage changes page)
    (added : changes.addedEntries.contains page.term)
    (fits : page.items.length ≤ maxEntries size) : page.items.length = maxEntries size := by
  simp only [keepsPage, added, Bool.not_true, Bool.false_or, Bool.and_eq_true,
    decide_eq_true_eq] at kept
  have noSpace : maxEntries size - page.items.length = 0 := kept.2
  omega

theorem added_of_kept_of_incorporated (kept : keepsPage changes page)
    (listed : (openTerms changes pages)[page.term]? = some entries) :
    changes.addedEntries.contains page.term := by
  obtain placed | added := open_of_incorporated changes _ _ listed
  · obtain start | ⟨other, _, dissolved, sameTerm⟩ :=
      (contains_placePages changes _ _ _).mp placed
    · simp at start
    · by_contra unchanged
      have removed : changes.removedEntries.contains page.term = true := by
        simpa [keepsPage, sameTerm, unchanged] using dissolved
      simp [keepsPage, removed] at kept
  · exact added

theorem unique_keptPages (unique : ((rebuiltPages changes (pages.map Prod.snd) metadata).1.map
      fun page => (page.2.term, page.1)).Nodup) :
    ((keptPages changes (pages.map Prod.snd)).map fun page => (page.2.term, page.1)).Nodup := by
  rw [rebuiltPages, map_append] at unique
  exact unique.of_append_left

theorem keptPages_eq_map :
    keptPages changes (pages.map Prod.snd) =
      (pages.filter fun page => keepsPage changes page.2).map
        fun page => (page.2.pageNumber, page.2) := by
  simp [keptPages, filter_map, Function.comp_def]

section Numbered

variable (numbered : WellNumbered pages metadata) {page : Nat × TermPage size}

include numbered

section Unique

variable (unique : ((keptPages changes (pages.map Prod.snd)).map
  fun page => (page.2.term, page.1)).Nodup)

include unique

theorem number_lt_range (member : page ∈ pages) (kept : keepsPage changes page.2) :
    page.1 < pageNumberRange := by
  by_contra large
  obtain ⟨earlier, inside, sameTerm, number, full⟩ :=
    numbered.full page member (page.1 - pageNumberRange) (by simp [pageNumberRange] at *; omega)
  have keptEarlier := keepsPage_of_full kept sameTerm full
  rw [keptPages_eq_map, map_map] at unique
  have same : earlier = page := by
    refine inj_on_of_nodup_map unique (mem_filter.mpr ⟨inside, keptEarlier⟩)
      (mem_filter.mpr ⟨member, kept⟩) ?_
    simp only [Function.comp, sameTerm, numbered.header page member,
      numbered.header earlier inside, number]
    rw [Prod.mk.injEq]
    refine ⟨rfl, ?_⟩
    have sum : page.1 = page.1 - pageNumberRange + pageNumberRange := by omega
    conv_rhs => rw [sum, Nat.add_mod_right]
  rw [same] at number
  simp only [pageNumberRange] at number large
  omega

theorem keptPages_eq_filter :
    keptPages changes (pages.map Prod.snd) =
      pages.filter fun page => keepsPage changes page.2 := by
  rw [keptPages_eq_map]
  refine (map_congr_left fun page inside => ?_).trans (map_id _)
  obtain ⟨member, kept⟩ := mem_filter.mp inside
  rw [numbered.header page member, Nat.mod_eq_of_lt (number_lt_range numbered unique member kept)]
  rfl

theorem kept_before_firstNewPage (term : RawIndexTerm) {number : Nat}
    (before : number < firstNewPage (lastFullPages changes pages) term) :
    ∃ page ∈ pages, keepsPage changes page.2 ∧ page.2.term = term ∧ page.1 = number ∧
      page.2.items.length = maxEntries size := by
  rw [lastFullPages, oldPlacement] at before
  obtain start | ⟨last, inside, kept, added, sameTerm, next⟩ :=
    exists_before_firstNewPage changes (pages.map Prod.snd) ⟨∅, ∅⟩ term
  · rw [start] at before
    simp [firstNewPage] at before
  obtain ⟨page, member, rfl⟩ := mem_map.mp inside
  have lastFull := full_of_keepsPage kept added (numbered.fits page member)
  rw [numbered.header page member,
    Nat.mod_eq_of_lt (number_lt_range numbered unique member kept)] at next
  by_cases last : number = page.1
  · exact ⟨page, member, kept, sameTerm, last.symm, lastFull⟩
  · obtain ⟨earlier, earlierInside, earlierTerm, earlierNumber, earlierFull⟩ :=
      numbered.full page member number (by omega)
    exact ⟨earlier, earlierInside, keepsPage_of_full kept earlierTerm earlierFull,
      earlierTerm.trans sameTerm, earlierNumber, earlierFull⟩

end Unique

section Truncated

variable (truncated : changes.Truncated)

include truncated

theorem truncated_of_incorporated {term : RawIndexTerm}
    (listed : (openTerms changes pages)[term]? = some entries) :
    resizeTerm term = term := by
  obtain placed | added := open_of_incorporated changes _ term listed
  · obtain start | ⟨page, inside, _, rfl⟩ := (contains_placePages changes _ _ term).mp placed
    · simp at start
    · obtain ⟨numberedPage, member, rfl⟩ := mem_map.mp inside
      exact numbered.truncated numberedPage member
  · exact truncated term (.inl added)

theorem createdPage_term {keyword : RawIndexTerm} (created : (keyword, page) ∈
      (createPages (lastFullPages changes pages) (openTerms changes pages) metadata).1) :
    page.2.term = keyword ∧ resizeTerm keyword = keyword := by
  obtain ⟨entries, listed, inside⟩ := (mem_createPages _ _ _ _).mp created
  have fixed := truncated_of_incorporated numbered truncated listed
  exact ⟨(chunkPages_shape _ _ _ page inside).1.trans fixed, fixed⟩

theorem mem_createdPages_iff : page ∈ createdPages changes pages metadata ↔
    ∃ entries, (openTerms changes pages)[page.2.term]? = some entries ∧
      page ∈ newPagesOf (lastFullPages changes pages) page.2.term entries ∧
      resizeTerm page.2.term = page.2.term := by
  constructor
  · intro created
    obtain ⟨⟨keyword, page⟩, member, rfl⟩ := mem_map.mp created
    obtain ⟨rfl, fixed⟩ := createdPage_term numbered truncated member
    obtain ⟨entries, listed, inside⟩ := (mem_createPages _ _ _ _).mp member
    exact ⟨entries, listed, inside, fixed⟩
  · rintro ⟨entries, listed, inside, -⟩
    exact mem_map.mpr ⟨(page.2.term, page), (mem_createPages _ _ _ _).mpr
      ⟨entries, listed, inside⟩, rfl⟩

theorem wellNumbered_rebuiltPages
    (unique : ((rebuiltPages changes (pages.map Prod.snd) metadata).1.map
      fun page => (page.2.term, page.1)).Nodup) :
    WellNumbered (rebuiltPages changes (pages.map Prod.snd) metadata).1
      (rebuiltPages changes (pages.map Prod.snd) metadata).2 := by
  have uniqueKept := unique_keptPages unique
  have keptEq := keptPages_eq_filter numbered uniqueKept
  have isKept : ∀ page ∈ pages, keepsPage changes page.2 →
      page ∈ (rebuiltPages changes (pages.map Prod.snd) metadata).1 := by
    intro page member kept
    rw [rebuiltPages, keptEq]
    exact mem_append_left _ (mem_filter.mpr ⟨member, kept⟩)
  have split (page) (inside : page ∈ (pages.filter fun page => keepsPage changes page.2) ++
      createdPages changes pages metadata) :=
    (mem_append.mp inside).imp mem_filter.mp (mem_createdPages_iff numbered truncated).mp
  rw [← keptEq] at split
  refine ⟨?_, unique, ?_, ?_, ?_, ?_⟩
  · intro page inside
    obtain ⟨member, _⟩ | ⟨entries, _, cut, _⟩ := split page inside
    · exact numbered.header page member
    · exact (chunkPages_shape _ _ _ page cut).2.1
  · intro page inside
    obtain ⟨member, _⟩ | ⟨entries, _, _, fixed⟩ := split page inside
    · exact numbered.truncated page member
    · exact fixed
  · intro page inside
    obtain ⟨member, _⟩ | ⟨entries, _, cut, _⟩ := split page inside
    · exact numbered.fits page member
    · exact (chunkPages_shape _ _ _ page cut).2.2
  · intro page inside number below
    obtain ⟨member, kept⟩ | ⟨entries, listed, cut, fixed⟩ := split page inside
    · obtain ⟨earlier, earlierInside, sameTerm, sameNumber, full⟩ :=
        numbered.full page member number below
      exact ⟨earlier, isKept earlier earlierInside (keepsPage_of_full kept sameTerm full),
        sameTerm, sameNumber, full⟩
    · by_cases old : number <
          firstNewPage (lastFullPages changes pages) page.2.term
      · obtain ⟨earlier, member, kept, found⟩ :=
          kept_before_firstNewPage numbered uniqueKept page.2.term old
        exact ⟨earlier, isKept earlier member kept, found⟩
      · obtain ⟨earlier, earlierCut, sameNumber, full⟩ :=
          chunkPages_full _ _ _ page cut number (Nat.le_of_not_lt old) below
        have sameTerm := (chunkPages_shape _ _ _ earlier earlierCut).1.trans fixed
        refine ⟨earlier, mem_append_right _ ?_, sameTerm, sameNumber, full⟩
        rw [← sameTerm] at listed earlierCut fixed
        exact (mem_createdPages_iff numbered truncated).mpr ⟨entries, listed, earlierCut, fixed⟩
  · intro page inside
    obtain ⟨member, kept⟩ | ⟨entries, listed, cut, _⟩ := split page inside
    · cases listed : (openTerms changes pages)[page.2.term]? with
      | none =>
        exact (getNumPages_createPages_of_absent _ _ metadata _ listed) ▸
          numbered.bounded page member
      | some entries =>
        have added := added_of_kept_of_incorporated kept listed
        have below := (lt_firstNewPage changes (pages.map Prod.snd) ⟨∅, ∅⟩ page.2.term added).2
          page.2 (mem_map_of_mem member) kept rfl
        rw [numbered.header page member,
          Nat.mod_eq_of_lt (number_lt_range numbered uniqueKept member kept)] at below
        have bound := le_getNumPages_createPages
          (lastFullPages changes pages) _ metadata _ entries listed
        exact Nat.lt_of_lt_of_le below (Nat.le_trans (Nat.le_add_right _ _) bound)
    · have bound := le_getNumPages_createPages
        (lastFullPages changes pages) _ metadata _ entries listed
      have number : page.1 ∈ (newPagesOf (lastFullPages changes pages)
          page.2.term entries).map Prod.fst := mem_map_of_mem cut
      rw [newPagesOf, chunkPages_numbers, mem_range'_1] at number
      exact Nat.lt_of_lt_of_le number.2 bound

theorem storedIndex_rebuiltPages (disjoint : changes.Disjoint)
    (unique : ((rebuiltPages changes (pages.map Prod.snd) metadata).1.map
      fun page => (page.2.term, page.1)).Nodup) :
    storedIndex (rebuiltPages changes (pages.map Prod.snd) metadata).1 =
      changes.apply (storedIndex pages) := by
  have uniqueKept := unique_keptPages unique
  funext term
  ext document
  have new : (∃ page ∈ createdPages changes pages metadata,
      page.2.term = term ∧ document ∈ page.2.items) ↔
      document ∈ documents (openTerms changes pages) term := by
    constructor
    · rintro ⟨page, created, rfl, inside⟩
      obtain ⟨entries, listed, cut, _⟩ := (mem_createdPages_iff numbered truncated).mp created
      rw [documents, listed]
      have inEntries := (mem_chunkPages_items _ _ _ (Nat.le_refl _) document).mp ⟨page, cut, inside⟩
      exact ExtTreeSet.mem_toList.mp inEntries
    · intro inside
      cases listed : (openTerms changes pages)[term]? with
      | none => simp [documents, listed] at inside
      | some entries =>
        rw [documents, listed] at inside
        have fixed := truncated_of_incorporated numbered truncated listed
        obtain ⟨page, cut, found⟩ : ∃ page ∈ newPagesOf
            (lastFullPages changes pages) term entries,
            document ∈ page.2.items :=
          (mem_chunkPages_items _ _ _ (Nat.le_refl _) document).mpr (ExtTreeSet.mem_toList.mpr inside)
        have sameTerm := (chunkPages_shape _ _ _ page cut).1.trans fixed
        cases sameTerm
        exact ⟨page, (mem_createdPages_iff numbered truncated).mpr ⟨entries, listed, cut, fixed⟩,
          rfl, found⟩
  have kept : (∃ page ∈ keptPages changes (pages.map Prod.snd), page.2.term = term ∧
      document ∈ page.2.items) ↔ ∃ page ∈ pages, keepsPage changes page.2 ∧
        page.2.term = term ∧ document ∈ page.2.items := by
    rw [keptPages_eq_filter numbered uniqueKept]
    simp only [mem_filter, and_assoc]
  have opened : document ∈ documents (openTerms changes pages) term ↔
      ((∃ page ∈ pages, keepsPage changes page.2 = false ∧ page.2.term = term ∧
          document ∈ page.2.items) ∧ document ∉ documents changes.removedEntries term) ∨
        document ∈ documents changes.addedEntries term := by
    have nothing : document ∉ documents (∅ : TermMap (DocumentSet size)) term := by
      simp [documents]
    rw [openTerms, openDocuments, mem_documents_incorporated, oldPlacement, mem_documents_placePages]
    simp only [nothing, false_or, mem_map, exists_exists_and_eq_and]
  have parts : document ∈ storedIndex (rebuiltPages changes (pages.map Prod.snd) metadata).1 term ↔
      (∃ page ∈ pages, keepsPage changes page.2 ∧ page.2.term = term ∧
          document ∈ page.2.items) ∨
        document ∈ documents (openTerms changes pages) term := by
    rw [← kept, ← new]
    simp only [storedIndex, rebuiltPages, Set.mem_ofPred_eq, mem_append, or_and_right, exists_or]
  rw [parts, opened]
  simp only [ModificationsTable.apply, storedIndex, Set.mem_ofPred_eq]
  constructor
  · rintro (⟨page, member, keeps, rfl, inside⟩ | ⟨⟨page, member, _, rfl, inside⟩, present⟩ | added)
    · refine ⟨.inl ⟨page, member, rfl, inside⟩, not_mem_documents ?_ document⟩
      simp only [keepsPage, Bool.and_eq_true, Bool.not_eq_true'] at keeps
      exact keeps.1
    · exact ⟨.inl ⟨page, member, rfl, inside⟩, present⟩
    · exact ⟨.inr added, disjoint term document added⟩
  · rintro ⟨⟨page, member, rfl, inside⟩ | added, present⟩
    · cases keeps : keepsPage changes page.2 with
      | true => exact .inl ⟨page, member, keeps, rfl, inside⟩
      | false => exact .inr (.inl ⟨⟨page, member, keeps, rfl, inside⟩, present⟩)
    · exact .inr (.inr added)

end Truncated

end Numbered

end Rebuilt

end SecureFusion.Inverted
