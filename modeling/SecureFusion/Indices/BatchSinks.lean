import SecureFusion.Indices.UpdateSink

/-!
# Batches of the sinks of the inverted index

The sinks read the ids and the terms of a batch column by column. Each column is read without
its nulls, and the results are paired afterwards. They get their batches from the multiplexing
sink, which declares all of these columns as non-nullable.
-/

namespace SecureFusion.Indices

open Inverted

/-- A row of a batch, with nulls for what is missing; an insertion has no old terms. -/
structure SinkRow where
  id : Option (List UInt8)
  terms : Option (List (Option RawIndexTerm))
  oldTerms : Option (List (Option RawIndexTerm))

/-- A batch of the projection: the ids are those of one table, which are integers of one type or
the bytes of a column of one fixed size. -/
structure SinkBatch where
  rows : List SinkRow
  idLength : Nat
  oneLength : ∀ row ∈ rows, ∀ id ∈ row.id, id.length = idLength

/-- A column that a sink declares as non-nullable. -/
structure SinkColumn where
  name : String
  isNull : SinkRow → Bool

/-- The columns of the sink for insertions. -/
def insertColumns (indexName : String) : List SinkColumn :=
  [⟨s!"_idx_{indexName}_id", (·.id.isNone)⟩, ⟨s!"_idx_{indexName}_terms", (·.terms.isNone)⟩]

/-- The columns of the sink for updates. -/
def updateColumns (indexName : String) : List SinkColumn :=
  insertColumns indexName ++ [⟨s!"_idx_{indexName}_old_terms", (·.oldTerms.isNone)⟩]

/-- The rows that the multiplexing sink hands over to a sink, by `RecordBatch::try_new` with its
columns. -/
def tryNew (columns : List SinkColumn) (rows : List SinkRow) : Except String (List SinkRow) :=
  match columns.find? fun column => rows.any column.isNull with
  | some column =>
    .error s!"Column '{column.name}' is declared as non-nullable but contains null values"
  | none => .ok rows

/-- The set of the terms of a row, without nulls. -/
def termSet (terms : List (Option RawIndexTerm)) : Finset RawIndexTerm :=
  (terms.filterMap id).toFinset

section

variable (size : RowIdColumnSize) (batch : List SinkRow)

/-- The id of a row, none if it is null or has another length. -/
def SinkRow.document (row : SinkRow) : Option (IndexedDocumentId size) :=
  row.id.bind (documentOfBytes size)

/-- The pairs that an insertion passes on. -/
def insertSinkBatch : List (IndexedDocumentId size × Finset RawIndexTerm) :=
  (batch.filterMap (·.document size)).zip (batch.filterMap (·.terms.map termSet))

/-- The ids that an update passes on, with their added and removed terms. -/
def updateSinkBatch :
    List (IndexedDocumentId size × Finset RawIndexTerm × Finset RawIndexTerm) :=
  let termsColumn := batch.filterMap (·.terms.map termSet)
  let oldTermsColumn := batch.filterMap (·.oldTerms.map termSet)
  (batch.filterMap (·.document size)).zip
    ((termsColumn.zip oldTermsColumn).map fun (new, old) => (new \ old, old \ new))

/-- An insertion passes on the valid ids, each with the terms of its own row. -/
def InsertPairsRows : Prop :=
  insertSinkBatch size batch = batch.filterMap fun row =>
    (row.document size).map fun id => (id, termSet (row.terms.getD []))

/-- An update passes on the valid ids, each with the changes of the terms of its own row. -/
def UpdatePairsRows : Prop :=
  updateSinkBatch size batch = batch.filterMap fun row => (row.document size).map fun id =>
    let new := termSet (row.terms.getD [])
    let old := termSet (row.oldTerms.getD [])
    (id, new \ old, old \ new)

end

theorem zip_filterMap {α β γ : Type} {first : α → Option β} {second : α → Option γ}
    {entries : List α} (aligned : ∀ entry ∈ entries, (first entry).isSome = (second entry).isSome) :
    (entries.filterMap first).zip (entries.filterMap second) = entries.filterMap fun entry =>
      (first entry).bind fun left => (second entry).map (left, ·) := by
  induction entries with
  | nil => rfl
  | cons entry rest ih =>
    have others := ih (List.forall_mem_cons.mp aligned).2
    have here := aligned entry List.mem_cons_self
    cases isFirst : first entry <;> cases isSecond : second entry <;> simp_all

/-- Ids are paired with their terms where an id is valid exactly if its row has terms, and for an
update old ones too. -/
theorem pairsRows_of_aligned {size : RowIdColumnSize} {batch : List SinkRow}
    (aligned : ∀ row ∈ batch, (row.document size).isSome = row.terms.isSome) :
    InsertPairsRows size batch ∧
      ((∀ row ∈ batch, row.oldTerms.isSome = row.terms.isSome) → UpdatePairsRows size batch) := by
  constructor
  · rw [InsertPairsRows, insertSinkBatch,
      zip_filterMap fun row isIn => by simpa using aligned row isIn]
    apply List.filterMap_congr
    intro row isIn
    have here := aligned row isIn
    revert here
    cases row.document size <;> cases row.terms <;> simp
  · intro alignedOld
    have differences : ((batch.filterMap (·.terms.map termSet)).zip
        (batch.filterMap (·.oldTerms.map termSet))).map (fun (new, old) => (new \ old, old \ new)) =
        batch.filterMap fun row => row.terms.bind fun new => row.oldTerms.map fun old =>
          (termSet new \ termSet old, termSet old \ termSet new) := by
      rw [zip_filterMap fun row isIn => by simpa using (alignedOld row isIn).symm,
        List.map_filterMap]
      apply List.filterMap_congr
      intro row _
      cases row.terms <;> cases row.oldTerms <;> rfl
    have both : ∀ row ∈ batch, (row.document size).isSome = row.terms.isSome ∧
        row.oldTerms.isSome = row.terms.isSome :=
      fun row isIn => ⟨aligned row isIn, alignedOld row isIn⟩
    rw [UpdatePairsRows, updateSinkBatch, differences, zip_filterMap]
    · apply List.filterMap_congr
      intro row isIn
      have here := both row isIn
      revert here
      cases row.document size <;> cases row.terms <;> cases row.oldTerms <;> simp
    · intro row isIn
      have here := both row isIn
      revert here
      cases row.document size <;> cases row.terms <;> cases row.oldTerms <;> simp

/-- The rows that a sink gets are those of the batch, without a null in its columns. -/
theorem tryNew_eq_ok_iff {columns : List SinkColumn} {rows received : List SinkRow} :
    tryNew columns rows = .ok received ↔
      received = rows ∧ ∀ column ∈ columns, ∀ row ∈ rows, column.isNull row = false := by
  unfold tryNew
  cases found : columns.find? fun column => rows.any column.isNull with
  | some column =>
    refine iff_of_false nofun fun ⟨_, noNulls⟩ => ?_
    obtain ⟨row, isIn, isNull⟩ : ∃ row ∈ rows, column.isNull row = true := by
      simpa using List.find?_some found
    rw [noNulls column (List.mem_of_find?_eq_some found) row isIn] at isNull
    cases isNull
  | none =>
    have noNulls : ∀ column ∈ columns, ∀ row ∈ rows, column.isNull row = false := by
      simpa using found
    exact ⟨fun same => ⟨(Except.ok.inj same).symm, noNulls⟩, fun same => congrArg _ same.1.symm⟩

/-- Rows whose ids all have the size of the index are aligned, if there is no null. -/
theorem isSome_document {size : RowIdColumnSize} {row : SinkRow} {length : Nat}
    (present : row.id.isNone = false) (isLength : ∀ id ∈ row.id, id.length = length) :
    (row.document size).isSome = decide (length = size.bytes) := by
  obtain ⟨id, isId⟩ := Option.isSome_iff_exists.mp (Option.isNone_eq_false_iff.mp present)
  rw [SinkRow.document, isId, ← isLength id isId, Option.bind_some, documentOfBytes]
  split
  case isTrue fits => exact (decide_eq_true fits).symm
  case isFalse other => exact (decide_eq_false other).symm

/-- The sinks of the inverted index pass on each valid id with the terms of its own row, for every
batch that they get. -/
theorem received_rows_paired (size : RowIdColumnSize) (indexName : String) (batch : SinkBatch)
    (received : List SinkRow) :
    (tryNew (insertColumns indexName) batch.rows = .ok received →
      InsertPairsRows size received) ∧
    (tryNew (updateColumns indexName) batch.rows = .ok received →
      UpdatePairsRows size received) := by
  -- No row has a null, so the ids are all valid or none is.
  have paired (noIds : ∀ row ∈ batch.rows, row.id.isNone = false)
      (noTerms : ∀ row ∈ batch.rows, row.terms.isNone = false) :
      InsertPairsRows size batch.rows ∧
        ((∀ row ∈ batch.rows, row.oldTerms.isNone = false) → UpdatePairsRows size batch.rows) := by
    have valid (row) (isIn : row ∈ batch.rows) :=
      @isSome_document size _ _ (noIds row isIn) (batch.oneLength row isIn)
    by_cases fits : batch.idLength = size.bytes
    · have aligned (row) (isIn : row ∈ batch.rows) :
          (row.document size).isSome = row.terms.isSome := by
        rw [valid row isIn, Option.isNone_eq_false_iff.mp (noTerms row isIn)]
        exact decide_eq_true fits
      refine ⟨(pairsRows_of_aligned aligned).1, fun noOld => ?_⟩
      refine (pairsRows_of_aligned aligned).2 fun row isIn => ?_
      rw [Option.isNone_eq_false_iff.mp (noOld row isIn),
        Option.isNone_eq_false_iff.mp (noTerms row isIn)]
    · have none (row) (isIn : row ∈ batch.rows) : row.document size = none := by
        have noDocument := valid row isIn
        rw [decide_eq_false fits] at noDocument
        simpa using noDocument
      have noIds : batch.rows.filterMap (·.document size) = [] :=
        List.filterMap_eq_nil_iff.mpr none
      constructor
      · rw [InsertPairsRows, insertSinkBatch, noIds, List.zip_nil_left, eq_comm,
          List.filterMap_eq_nil_iff]
        exact fun row isIn => by rw [none row isIn]; rfl
      · intro _
        rw [UpdatePairsRows, updateSinkBatch, noIds, List.zip_nil_left, eq_comm,
          List.filterMap_eq_nil_iff]
        exact fun row isIn => by rw [none row isIn]; rfl
  constructor
  · intro given
    obtain ⟨rfl, noNulls⟩ := tryNew_eq_ok_iff.mp given
    exact (paired (noNulls _ List.mem_cons_self)
      (noNulls _ (List.mem_cons_of_mem _ List.mem_cons_self))).1
  · intro given
    obtain ⟨rfl, noNulls⟩ := tryNew_eq_ok_iff.mp given
    have columns := List.forall_mem_append.mp noNulls
    exact (paired (columns.1 _ List.mem_cons_self)
      (columns.1 _ (List.mem_cons_of_mem _ List.mem_cons_self))).2
      (columns.2 _ List.mem_cons_self)

/-- A batch of two rows with ids of four bytes. -/
def twoRows : SinkBatch where
  rows := [⟨some [1, 2, 3, 4], some [some [5], none], some [none]⟩,
    ⟨some [1, 2, 3, 5], some [some [6]], some [some [5], some [6]]⟩]
  idLength := 4
  oneLength := by decide

/-- The rows of a batch without nulls are paired. -/
theorem received_rows_paired_two :
    InsertPairsRows .size4Bytes twoRows.rows ∧ UpdatePairsRows .size4Bytes twoRows.rows :=
  ⟨(received_rows_paired .size4Bytes "by_words" twoRows twoRows.rows).1 rfl,
    (received_rows_paired .size4Bytes "by_words" twoRows twoRows.rows).2 rfl⟩

/-- A batch with a null in a column is not handed over. -/
example : tryNew (insertColumns "by_words") [⟨none, some [], none⟩] =
    .error "Column '_idx_by_words_id' is declared as non-nullable but contains null values" := rfl

end SecureFusion.Indices
