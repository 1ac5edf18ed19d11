import SecureFusion.Crypto.Columns
import SecureFusion.Inverted.Pages
import SecureFusion.Library.Outcome

/-!
# Layout of term pages

A term page is a header with the term and five bytes of the page number, and an area of fixed size
into which the document identifiers are packed one after the other. Reading a page gives back what
was packed, as long as the identifiers fit.
-/

namespace SecureFusion.Inverted.Layout

open Library Crypto List

/-! ## Areas -/

/-- Copies bytes to a position of an area; a range that is not in the area panics. -/
def copyFromSlice (area : Bytes) (position : Nat) (bytes : Bytes) :
    Evaluated Bytes :=
  if position + bytes.length ≤ area.length then
    .ok (area.take position ++ bytes ++ area.drop (position + bytes.length))
  else .error (.panic "range end index out of range for slice")

def slice (area : Bytes) (length : Nat) : Evaluated Bytes :=
  if length ≤ area.length then .ok (area.take length)
  else .error (.panic "range end index out of range for slice")

theorem copyFromSlice_zeros (front : Bytes) {bytes : Bytes} {free : Nat}
    (fits : bytes.length ≤ free) :
    copyFromSlice (front ++ replicate free 0) front.length bytes =
      .ok (front ++ bytes ++ replicate (free - bytes.length) 0) := by
  rw [copyFromSlice, if_pos (by simpa using fits), take_left, ← drop_drop, drop_left,
    drop_replicate]

theorem slice_append (front back : Bytes) :
    slice (front ++ back) front.length = .ok front := by
  rw [slice, if_pos (by simp), take_left]

/-! ## Headers -/

structure TermPageHeader where
  numPresent : Nat
  termLen : Nat
  term : Bytes
  pageNumber : Bytes

namespace TermPageHeader

def pageNumLen : Nat := 5 - maxTermSize % 8

def new (term : RawIndexTerm) (pageNum : Nat) : Evaluated TermPageHeader := do
  let termLen := min term.length maxTermSize
  let termArray ← copyFromSlice (replicate maxTermSize 0) 0 (term.take termLen)
  .ok ⟨0, termLen, termArray, (leBytes 8 pageNum).take pageNumLen⟩

def readTerm (header : TermPageHeader) : Evaluated Bytes := slice header.term header.termLen

def readPageNumber (header : TermPageHeader) : Evaluated Nat := do
  let pageNumber ← copyFromSlice (replicate 8 0) 0 header.pageNumber
  .ok (ofLeBytes pageNumber)

end TermPageHeader

/-! ## Pages -/

variable {size : RowIdColumnSize}

def entriesDataSize : Nat := pageSize - termPageHeaderSize

structure TermPage (size : RowIdColumnSize) where
  header : TermPageHeader
  entriesData : Bytes

/-- The first chunks of an area that have the size of an identifier. -/
def asChunks : Nat → Bytes → List (IndexedDocumentId size)
  | 0, _ => []
  | count + 1, bytes =>
    if full : size.bytes ≤ bytes.length then
      ⟨(bytes.take size.bytes).toArray, by simpa using full⟩ ::
        asChunks count (bytes.drop size.bytes)
    else []

namespace TermPage

def new (term : RawIndexTerm) (pageNum : Nat) : Evaluated (TermPage size) := do
  let header ← TermPageHeader.new term pageNum
  .ok ⟨header, replicate entriesDataSize 0⟩

/-- One turn of the loop that fills a page, with the position in the area. -/
def push (state : TermPage size × Nat) (elem : IndexedDocumentId size) :
    Evaluated (TermPage size × Nat) := do
  let (page, position) := state
  let entriesData ← copyFromSlice page.entriesData position elem.toList
  let position := position + size.bytes
  let numPresent := page.header.numPresent + 1
  if 2 ^ 16 ≤ numPresent then .error (.panic "attempt to add with overflow")
  else if entriesData.length < position then .error (.panic "assertion failed")
  else .ok (⟨{ page.header with numPresent }, entriesData⟩, position)

/-- A page filled with ids. -/
def fromIterator (term : RawIndexTerm) (pageNum : Nat) (items : List (IndexedDocumentId size)) :
    Evaluated (TermPage size) := do
  let page ← new term pageNum
  let filled ← items.foldlM push (page, 0)
  .ok filled.1

def items (page : TermPage size) : Evaluated (List (IndexedDocumentId size)) := do
  let occupied ← slice page.entriesData (size.bytes * page.header.numPresent)
  .ok (asChunks (occupied.length / size.bytes) occupied)

/-- What is read from a page. -/
def read (page : TermPage size) : Evaluated (Inverted.TermPage size) := do
  .ok ⟨← page.header.readTerm, ← page.header.readPageNumber, ← page.items⟩

/-! ## Reading what was written -/

variable (items : List (IndexedDocumentId size))

def bytesOf : Bytes := items.flatMap Vector.toList

theorem length_bytesOf : (bytesOf items).length = size.bytes * items.length := by
  simp [bytesOf, length_flatMap, Nat.mul_comm]

theorem asChunks_bytesOf : asChunks items.length (bytesOf items) = items := by
  induction items with
  | nil => rfl
  | cons first rest ih =>
    have cut : (bytesOf (first :: rest)).take size.bytes = first.toList ∧
        (bytesOf (first :: rest)).drop size.bytes = bytesOf rest :=
      ⟨take_left' first.length_toList, drop_left' first.length_toList⟩
    have full : size.bytes ≤ (bytesOf (first :: rest)).length := by
      rw [length_bytesOf]
      exact Nat.le_mul_of_pos_right _ (Nat.succ_pos _)
    rw [length_cons, asChunks, dif_pos full, cut.2, ih]
    exact congrArg (· :: rest) (Vector.toList_inj.mp cut.1)

/-- The page with a term, a number and identifiers at the front of its area. -/
def packed (term : RawIndexTerm) (pageNum : Nat) : TermPage size where
  header :=
    { numPresent := items.length
      termLen := (resizeTerm term).length
      term := resizeTerm term ++ replicate (maxTermSize - (resizeTerm term).length) 0
      pageNumber := leBytes 5 pageNum }
  entriesData := bytesOf items ++ replicate (entriesDataSize - (bytesOf items).length) 0

variable {items} (term : RawIndexTerm) (pageNum : Nat)

theorem new_eq : new term pageNum = .ok (@packed size [] term pageNum) := by
  have taken : term.take (min term.length maxTermSize) = resizeTerm term := by
    rw [Nat.min_comm, ← take_eq_take_min, resizeTerm]
  have length : min term.length maxTermSize = (resizeTerm term).length := by
    rw [resizeTerm, length_take, Nat.min_comm]
  have copied : copyFromSlice (replicate maxTermSize 0) 0 (resizeTerm term) =
      .ok (resizeTerm term ++ replicate (maxTermSize - (resizeTerm term).length) 0) :=
    copyFromSlice_zeros [] (length_take_le _ _)
  have number : (leBytes 8 pageNum).take TermPageHeader.pageNumLen = leBytes 5 pageNum := by
    rw [leBytes, ← map_take, take_range]
    rfl
  simp only [new, TermPageHeader.new, taken, copied, Outcome.ok_bind, number]
  rw [length]
  rfl

theorem push_packed (elem : IndexedDocumentId size) (free : items.length < maxEntries size) :
    push (packed items term pageNum, size.bytes * items.length) elem =
      .ok (packed (items ++ [elem]) term pageNum, size.bytes * (items ++ [elem]).length) := by
  have counted : maxEntries size < 2 ^ 16 := by cases size <;> decide
  have room : size.bytes * (items.length + 1) ≤ entriesDataSize :=
    (Nat.mul_le_mul_left _ free).trans (Nat.mul_div_le _ _)
  rw [Nat.mul_succ, ← length_bytesOf] at room
  have bytes : bytesOf (items ++ [elem]) = bytesOf items ++ elem.toList := by simp [bytesOf]
  have fits : elem.toList.length ≤ entriesDataSize - (bytesOf items).length := by
    rw [elem.length_toList]
    omega
  have copied := copyFromSlice_zeros (bytesOf items) fits
  simp only [push, packed, ← length_bytesOf, copied, Outcome.ok_bind, bytes, length_append,
    length_replicate, elem.length_toList, length_singleton]
  rw [if_neg (by omega), if_neg (by omega), Nat.sub_sub, Nat.mul_succ, length_bytesOf]

theorem foldlM_push {done : List (IndexedDocumentId size)}
    (fits : (done ++ items).length ≤ maxEntries size) :
    items.foldlM push (packed done term pageNum, size.bytes * done.length) =
      .ok (packed (done ++ items) term pageNum, size.bytes * (done ++ items).length) := by
  induction items generalizing done with
  | nil => rw [append_nil]; rfl
  | cons first rest ih =>
    rw [append_cons] at fits ⊢
    have free : done.length < maxEntries size := by
      simp only [length_append, length_singleton] at fits
      omega
    rw [foldlM_cons, push_packed term pageNum first free, Outcome.ok_bind, ih fits]

/-- Filling a page with identifiers that fit does not panic. -/
theorem fromIterator_eq (fits : items.length ≤ maxEntries size) :
    fromIterator term pageNum items = .ok (packed items term pageNum) := by
  have filled : items.foldlM push (packed [] term pageNum, 0) =
      .ok (packed items term pageNum, _) := @foldlM_push size items term pageNum [] fits
  rw [fromIterator, new_eq, Outcome.ok_bind, filled, Outcome.ok_bind]

theorem readPageNumber_packed :
    (packed items term pageNum).header.readPageNumber = .ok (pageNum % pageNumberRange) := by
  have copied : copyFromSlice (replicate 8 0) 0 (leBytes 5 pageNum) =
      .ok (leBytes 5 pageNum ++ replicate 3 0) := copyFromSlice_zeros []
        (show (leBytes 5 pageNum).length ≤ 8 by simp)
  rw [TermPageHeader.readPageNumber, packed, copied, Outcome.ok_bind, ofLeBytes_append_zeros,
    ofLeBytes_leBytes]
  rfl

theorem items_packed : (packed items term pageNum).items = .ok items := by
  have positive : 0 < size.bytes := by cases size <;> decide
  rw [TermPage.items, packed, ← length_bytesOf, slice_append, Outcome.ok_bind, length_bytesOf,
    Nat.mul_div_cancel_left _ positive, asChunks_bytesOf]

/-- A page reads as the model of pages has it. -/
theorem read_packed :
    (packed items term pageNum).read = .ok (.fromIterator term pageNum items) := by
  have named : (packed items term pageNum).header.readTerm = .ok (resizeTerm term) :=
    slice_append _ _
  rw [read, named, readPageNumber_packed, items_packed]
  rfl

/-- A page that is filled with identifiers that fit has them, the first bytes of the term and the
number of the page. -/
theorem read_fromIterator {pageNum : Nat} (inRange : pageNum < 2 ^ 40)
    (fits : items.length ≤ maxEntries size) :
    ∃ page, fromIterator term pageNum items = .ok page ∧ page.items = .ok items ∧
      page.header.readTerm = .ok (term.take 64) ∧ page.header.readPageNumber = .ok pageNum := by
  refine ⟨_, fromIterator_eq term pageNum fits, items_packed term pageNum, slice_append _ _, ?_⟩
  rw [readPageNumber_packed, pageNumberRange, Nat.mod_eq_of_lt inRange]

theorem read_fromIterator_two :
    let ids : List (IndexedDocumentId .size4Bytes) := [#v[1, 0, 0, 0], #v[2, 0, 0, 0]]
    ∃ page, fromIterator [97] 7 ids = .ok page ∧ page.items = .ok ids ∧
      page.header.readTerm = .ok [97] ∧ page.header.readPageNumber = .ok 7 :=
  read_fromIterator [97] (by decide) (by decide)

end TermPage

end SecureFusion.Inverted.Layout
