import Mathlib.Algebra.GroupWithZero.Nat
import Mathlib.Data.Finset.Basic
import SecureFusion.Library.OrderedMap

/-!
# Pages of the encrypted inverted index

The plaintext of the three kinds of page: the metadata page with an upper bound of the number of
pages of each term, the modifications page with the documents added to and removed from each term
since the last rebuild, and the term pages with the documents of one term. Document identifiers are
byte arrays of the width of the row identifier.
-/

namespace SecureFusion.Inverted

open Std

/-- Widths of a row identifier. -/
inductive RowIdColumnSize where
  | size4Bytes | size8Bytes | size12Bytes | size16Bytes
deriving DecidableEq, Repr

def RowIdColumnSize.bytes : RowIdColumnSize → Nat
  | .size4Bytes => 4
  | .size8Bytes => 8
  | .size12Bytes => 12
  | .size16Bytes => 16

abbrev RawIndexTerm := List UInt8

abbrev TermMap (β : Type) := ExtTreeMap RawIndexTerm β

abbrev IndexedDocumentId (size : RowIdColumnSize) := Vector UInt8 size.bytes

instance (size : RowIdColumnSize) : TransOrd (IndexedDocumentId size) := inferInstance

abbrev DocumentSet (size : RowIdColumnSize) := ExtTreeSet (IndexedDocumentId size)

def maxTermSize : Nat := 64

/-- The part of a term that is kept. -/
def resizeTerm (term : RawIndexTerm) : RawIndexTerm := term.take maxTermSize

@[simp] theorem resizeTerm_resizeTerm (term : RawIndexTerm) :
    resizeTerm (resizeTerm term) = resizeTerm term := by
  simp [resizeTerm, List.take_take]

variable {size : RowIdColumnSize}

def documents (entries : TermMap (DocumentSet size)) (term : RawIndexTerm) : DocumentSet size :=
  entries[term]?.getD ∅

theorem not_mem_documents {entries : TermMap (DocumentSet size)} {term : RawIndexTerm}
    (absent : entries.contains term = false) (document : IndexedDocumentId size) :
    document ∉ documents entries term := by
  rw [ExtTreeMap.contains_eq_isSome_getElem?] at absent
  simp only [Option.isSome_eq_false_iff, Option.isNone_iff_eq_none] at absent
  simp [documents, absent]

/-! ## Metadata page -/

/-- Upper bounds of the numbers of pages. -/
structure MetadataPage where
  numPages : TermMap Nat
  /-- The number of pages of a term that is not listed. -/
  defaultNumPages : Nat
  keySize : Nat
deriving DecidableEq

namespace MetadataPage

def new (keySize : Nat) : MetadataPage := ⟨∅, 0, keySize⟩

/-- A bound of the number of pages of a term. -/
def getNumPages (page : MetadataPage) (term : RawIndexTerm) : Nat :=
  page.numPages[term]?.getD page.defaultNumPages

/-- Records the number of pages of a term. -/
def insertEntry (page : MetadataPage) (keyword : RawIndexTerm) (numPages : Nat) : MetadataPage :=
  if page.defaultNumPages < numPages then
    { page with numPages := page.numPages.insert keyword numPages }
  else { page with numPages := page.numPages.erase keyword }

/-- Raises the default and drops the entries that it now covers. -/
def shrink (page : MetadataPage) : MetadataPage :=
  let default := page.defaultNumPages + 1
  { page with
    defaultNumPages := default
    numPages := page.numPages.filter fun _ numPages => default < numPages }

variable (page : MetadataPage)

theorem le_getNumPages_insertEntry (keyword : RawIndexTerm) (count : Nat) :
    count ≤ (page.insertEntry keyword count).getNumPages keyword := by
  unfold insertEntry getNumPages
  by_cases listed : page.defaultNumPages < count
  · simp [listed]
  · simp [listed]
    omega

theorem getNumPages_insertEntry_of_ne {keyword term : RawIndexTerm} (other : keyword ≠ term)
    (count : Nat) :
    (page.insertEntry keyword count).getNumPages term = page.getNumPages term := by
  unfold insertEntry getNumPages
  by_cases listed : page.defaultNumPages < count
  · simp [listed, ExtTreeMap.getElem?_insert, other]
  · simp [listed, ExtTreeMap.getElem?_erase, other]

theorem getNumPages_le_shrink (term : RawIndexTerm) :
    page.getNumPages term ≤ page.shrink.getNumPages term := by
  unfold shrink getNumPages
  rw [ExtTreeMap.getElem?_filter]
  cases listed : page.numPages[term]? with
  | none => simp
  | some count =>
    by_cases kept : page.defaultNumPages + 1 < count
    · simp [Option.filter, kept]
    · simp [Option.filter, kept]
      omega

end MetadataPage

/-! ## Modifications page -/

/-- Documents added to and removed from each term since the last rebuild. -/
structure ModificationsTable (size : RowIdColumnSize) where
  addedEntries : TermMap (DocumentSet size)
  removedEntries : TermMap (DocumentSet size)
deriving DecidableEq

namespace ModificationsTable

def empty : ModificationsTable size := ⟨∅, ∅⟩

def insertTerm (document : IndexedDocumentId size) (table : ModificationsTable size)
    (term : RawIndexTerm) : ModificationsTable size :=
  { removedEntries := table.removedEntries.modify (resizeTerm term) (·.erase document)
    addedEntries := table.addedEntries.alter (resizeTerm term) fun existing =>
      some ((existing.getD ∅).insert document) }

def removeTerm (document : IndexedDocumentId size) (table : ModificationsTable size)
    (term : RawIndexTerm) : ModificationsTable size :=
  { addedEntries := table.addedEntries.modify (resizeTerm term) (·.erase document)
    removedEntries := table.removedEntries.alter (resizeTerm term) fun existing =>
      some ((existing.getD ∅).insert document) }

def insertTerms (table : ModificationsTable size) (document : IndexedDocumentId size)
    (terms : List RawIndexTerm) : ModificationsTable size :=
  terms.foldl (insertTerm document) table

def removeTerms (table : ModificationsTable size) (document : IndexedDocumentId size)
    (terms : List RawIndexTerm) : ModificationsTable size :=
  terms.foldl (removeTerm document) table

end ModificationsTable

/-! ## Term pages -/

def pageSize : Nat := 4096 - 16

/-- Number of bytes of a page header: count, term length, term and page number. -/
def termPageHeaderSize : Nat := 2 + 1 + maxTermSize + 5

/-- The number of ids on a full page. -/
def maxEntries (size : RowIdColumnSize) : Nat := (pageSize - termPageHeaderSize) / size.bytes

theorem maxEntries_pos (size : RowIdColumnSize) : 0 < maxEntries size := by
  cases size <;> decide

/-- Number of values of the five bytes of a page number. -/
def pageNumberRange : Nat := 2 ^ 40

/-- Some of the documents of one term. -/
structure TermPage (size : RowIdColumnSize) where
  term : RawIndexTerm
  /-- The position of the page among those of its term, in five bytes. -/
  pageNumber : Nat
  items : List (IndexedDocumentId size)
deriving DecidableEq

namespace TermPage

def fromIterator (term : RawIndexTerm) (pageNumber : Nat)
    (items : List (IndexedDocumentId size)) : TermPage size :=
  ⟨resizeTerm term, pageNumber % pageNumberRange, items⟩

def freeSpace (page : TermPage size) : Nat := maxEntries size - page.items.length

end TermPage

/-- Cuts the documents of a term into pages numbered from a start. -/
def chunkPages (term : RawIndexTerm) : Nat → Nat → List (IndexedDocumentId size) →
    List (Nat × TermPage size)
  | 0, _, _ => []
  | fuel + 1, pageNumber, entries =>
    if entries.isEmpty then []
    else (pageNumber, .fromIterator term pageNumber (entries.take (maxEntries size))) ::
      chunkPages term fuel (pageNumber + 1) (entries.drop (maxEntries size))

/-! ## Queries -/

/-- A set expression over terms. -/
inductive RawIndexQuery where
  | intersect (a b : RawIndexQuery)
  | difference (a b : RawIndexQuery)
  | union (a b : RawIndexQuery)
  | term (keyword : RawIndexTerm)
deriving DecidableEq, Repr

namespace RawIndexQuery

def collectTerms : RawIndexQuery → List RawIndexTerm
  | .intersect a b | .difference a b | .union a b => a.collectTerms ++ b.collectTerms
  | .term keyword => [keyword]

/-- Cuts the terms of a query. -/
def checkMaxLengths : RawIndexQuery → RawIndexQuery
  | .intersect a b => .intersect a.checkMaxLengths b.checkMaxLengths
  | .difference a b => .difference a.checkMaxLengths b.checkMaxLengths
  | .union a b => .union a.checkMaxLengths b.checkMaxLengths
  | .term keyword => .term (resizeTerm keyword)

/-- The answer of a query, from the documents read from the pages and the modifications. -/
def evaluate (response : TermMap (List (IndexedDocumentId size)))
    (modifications : ModificationsTable size) : RawIndexQuery → Finset (IndexedDocumentId size)
  | .term keyword =>
    let stream := response[keyword]?.getD [] ++ (documents modifications.addedEntries keyword).toList
    (stream.filter fun document =>
      !(documents modifications.removedEntries keyword).contains document).toFinset
  | .union a b => a.evaluate response modifications ∪ b.evaluate response modifications
  | .difference a b => a.evaluate response modifications \ b.evaluate response modifications
  | .intersect a b => a.evaluate response modifications ∩ b.evaluate response modifications

end RawIndexQuery

end SecureFusion.Inverted
