import SecureFusion.Crypto.Arrow
import SecureFusion.Indices.InvertedIndex

/-!
# Updates of the inverted index

The sink of the inverted index gets the new and the current values of the modified columns and
turns them into terms. It adds the row to the terms that are only new and removes it from those
that are only current. Columns that are not modified are not seen, so a term that one of them
still has can be removed; without any modified column there is nothing to concatenate, which is
an error. A row whose key does not have the size of the ids is skipped.
-/

namespace SecureFusion.Indices

variable {name : String} {α β : Type} {make : α → Option (List β)} {inputs : List α}

open Library Sql Inverted List AbstractIndex

/-- First part of the names under which the planner selects current values. -/
def currentValuePrefix : String := "__pr_cur__"

/-- First part of the names under which the planner selects the current primary key. -/
def filterPrefix : String := "__pr_flt__"

def defaultRowidColumnName : String := "__sf_rowid"

/-- Where the ids of the rows come from. -/
inductive RowIdColumnSource where
  | directPrimaryKey
  | derivedFromPrimaryColumns (columns : List String)
  | randomGenerated
deriving DecidableEq, Repr

/-- The column with the ids of the rows. -/
structure RowIdColumn where
  columnName : String
  source : RowIdColumnSource
deriving DecidableEq, Repr

def RowIdColumn.isHidden (column : RowIdColumn) : Bool :=
  column.columnName = defaultRowidColumnName

/-- What the planner knows of a table whose rows are updated. -/
structure UpdatedTable where
  rowId : RowIdColumn
  primaryKey : List String
  /-- The columns whose current values some index asks for. -/
  updatesTracking : List String

/-- The values that an UPDATE of one row projects: the assignments, the current values of the
modified columns that are tracked, the current primary key and a hidden row id. -/
def updateProjection (table : UpdatedTable) (current : Row)
    (assignments : List (String × ScalarValue)) : List (String × ScalarValue) :=
  assignments ++
    ((assignments.map Prod.fst).filter table.updatesTracking.contains).map
      (fun name => (currentValuePrefix ++ name, current name)) ++
    table.primaryKey.map (fun name => (filterPrefix ++ name, current name)) ++
    if table.rowId.isHidden then
      [(currentValuePrefix ++ table.rowId.columnName, current table.rowId.columnName)]
    else []

/-- The row id as it is found in a batch, under a name with a first part; the key of a table is
encoded. None on an error. -/
def RowIdColumn.rowidBinPhysicalPrefixed (column : RowIdColumn) (start : String)
    (batch : List (String × ScalarValue)) : Option ScalarValue := do
  let base ← batch.lookup (start ++ column.columnName)
  match column.source with
  | .directPrimaryKey => (Crypto.encodeToBinary base).map (.bytes .binary)
  | _ => some base

def RowIdColumn.getIdColumn (column : RowIdColumn) (batch : List (String × ScalarValue)) :
    Option ScalarValue :=
  if column.isHidden then column.rowidBinPhysicalPrefixed currentValuePrefix batch
  else column.rowidBinPhysicalPrefixed filterPrefix batch

/-- The bytes of an id, if there are as many as an id has. -/
def documentOfBytes (size : RowIdColumnSize) (bytes : Bytes) :
    Option (IndexedDocumentId size) :=
  if length : bytes.toArray.size = size.bytes then some ⟨bytes.toArray, length⟩ else none

/-- The id in a value; a value of another size has none inside, a value of another type is an
error. -/
def extractIdColumn (size : RowIdColumnSize) :
    ScalarValue → Option (Option (IndexedDocumentId size))
  | .bytes .binary content => some (content.bind (documentOfBytes size))
  | _ => none

/-- The row after the assignments. -/
def updatedRow (current : Row) (assignments : List (String × ScalarValue)) : Row :=
  fun name => (assignments.lookup name).getD (current name)

/-- Concatenates lists; without arguments this is an error. -/
def arrayConcat {α : Type} : List (List α) → Option (List α)
  | [] => none
  | lists => some lists.flatten

namespace InvertedIndex

variable {size : RowIdColumnSize} (index : InvertedIndex size)

-- The cast of columns.
variable (castTo : DataType → ScalarValue → Option ScalarValue)

/-- The terms of a value of a watched boolean column; none if it is not cast. -/
def processBooleanColumn (terms : RawIndexTerm × RawIndexTerm) (value : ScalarValue) :
    Option (List RawIndexTerm) := do
  let boolean ← match value with
    | .boolean content => some (.boolean content)
    | other => castTo .boolean other
  match boolean with
  | .boolean content => some (content.elim [] fun content =>
      [if content then terms.1 else terms.2])
  | _ => none

/-- The terms of a value of a watched column of texts; none if it is not cast. -/
def processStringColumn (value : ScalarValue) : Option (List RawIndexTerm) := do
  let text ← match value with
    | .text .utf8 content => some (.text .utf8 content)
    | .text .largeUtf8 content => some (.text .largeUtf8 content)
    | other => castTo (.text .utf8) other
  match text with
  | .text _ content => some (content.elim [] index.parseLikeString)
  | _ => none

/-- The terms of a column's value. -/
def processColumn (name : String) (value : ScalarValue) : Option (List RawIndexTerm) :=
  match index.watchedBooleanColumns.lookup name with
  | some terms => processBooleanColumn castTo terms value
  | none => index.processStringColumn castTo value

/-- The terms of the tracked columns that are found, under names that may have a first part. -/
def projectTransformIntoTerms (start : Option String) (batch : List (String × ScalarValue)) :
    Option (List RawIndexTerm) := do
  let found := index.trackedColumns.filterMap fun name =>
    (batch.lookup (start.elim name (· ++ name))).map fun value => (name, value)
  let intermediateValues ← found.mapM fun (name, value) => index.processColumn castTo name value
  arrayConcat intermediateValues

/-- The change that the sink makes for one row, nothing for a row without an id; none on an
error. -/
def updateSink (rowId : RowIdColumn) (batch : List (String × ScalarValue)) :
    Option (IndexChange size) := do
  let idValue ← rowId.getIdColumn batch
  let new ← index.projectTransformIntoTerms castTo none batch
  let old ← index.projectTransformIntoTerms castTo (some currentValuePrefix) batch
  let id ← extractIdColumn size idValue
  let added := new.filter fun term => !old.contains term
  let removed := old.filter fun term => !new.contains term
  some (.updateMany (id.toList.map fun id => (id, added, removed)))

/-! ## Terms of a row -/

/-- The terms of a tracked column of a row; a value that is not cast has none. -/
def columnTerms (row : Row) (name : String) : List RawIndexTerm :=
  (index.processColumn castTo name (row name)).getD []

/-- The row is indexed under a keyword exactly if one of its tracked columns contains it; terms are
compared as they are kept. -/
def InSync (abstract : AbstractIndex size) (id : IndexedDocumentId size) (row : Row) : Prop :=
  ∀ term, term.head? = some termPrefixKeyword →
    (id ∈ abstract.evaluate (.term term) ↔ ∃ name ∈ index.trackedColumns,
      resizeTerm term ∈ (index.columnTerms castTo row name).map resizeTerm)

end InvertedIndex

/-! ## What the sink sees -/

/-- A name that does not start as a name of the planner, and is not that of a hidden row id. -/
structure Unreserved (name : String) : Prop where
  current : ∀ other, name ≠ currentValuePrefix ++ other
  filter : ∀ other, name ≠ filterPrefix ++ other
  hidden : name ≠ defaultRowidColumnName

theorem currentValue_ne_filter (name other : String) :
    currentValuePrefix ++ name ≠ filterPrefix ++ other := by
  intro same
  have characters := congrArg (fun text => text.toList[5]?) same
  simp only [String.toList_append] at characters
  rw [getElem?_append_left (by decide), getElem?_append_left (by decide)] at characters
  exact absurd characters (by decide)

theorem lookup_extended (start : String) (names : List String) (row : Row) (name : String) :
    (names.map fun name => (start ++ name, row name)).lookup (start ++ name) =
      if name ∈ names then some (row name) else none := by
  induction names with
  | nil => rfl
  | cons first rest ih =>
    rw [map_cons, lookup_cons, ih]
    by_cases same : name = first
    · subst same
      simp
    · have differ : (start ++ name == start ++ first) = false := by
        rw [beq_eq_false_iff_ne, Ne, String.append_right_inj]
        exact same
      rw [differ]
      simp [same]

theorem lookup_extended_none {start : String} (other : ∀ rest, name ≠ start ++ rest)
    (names : List String) (row : Row) :
    (names.map fun name => (start ++ name, row name)).lookup name = none := by
  rw [lookup_eq_none_iff]
  intro entry isIn
  obtain ⟨rest, _, rfl⟩ := mem_map.mp isIn
  exact bne_iff_ne.mpr (other rest)

section Projection

variable {table : UpdatedTable} {current : Row} {assignments : List (String × ScalarValue)}
  {size : RowIdColumnSize}

theorem lookup_hidden (name : String) :
    (if table.rowId.isHidden then
        [(currentValuePrefix ++ table.rowId.columnName, current table.rowId.columnName)]
      else []).lookup name =
      if table.rowId.isHidden = true ∧ name = currentValuePrefix ++ defaultRowidColumnName then
        some (current defaultRowidColumnName) else none := by
  by_cases hidden : table.rowId.isHidden = true
  · have named : table.rowId.columnName = defaultRowidColumnName := of_decide_eq_true hidden
    rw [if_pos hidden, named, lookup_cons]
    by_cases same : name = currentValuePrefix ++ defaultRowidColumnName
    · simp [hidden, same]
    · rw [beq_eq_false_iff_ne.mpr same, if_neg fun both => same both.2]
      rfl
  · simp [hidden]

theorem lookup_new (unreserved : Unreserved name) :
    (updateProjection table current assignments).lookup name = assignments.lookup name := by
  rw [updateProjection, lookup_append, lookup_append, lookup_append,
    lookup_extended_none unreserved.current, lookup_extended_none unreserved.filter, lookup_hidden,
    if_neg fun hidden => unreserved.current _ hidden.2]
  simp

variable (unreserved : ∀ entry ∈ assignments, Unreserved entry.1)

include unreserved

theorem lookup_assignments_none (apart : ∀ other, Unreserved other → other ≠ name) :
    assignments.lookup name = none := by
  rw [lookup_eq_none_iff]
  intro entry isIn
  exact bne_iff_ne.mpr (apart entry.1 (unreserved entry isIn)).symm

theorem lookup_current (isTracked : name ∈ table.updatesTracking) (named : Unreserved name) :
    (updateProjection table current assignments).lookup (currentValuePrefix ++ name) =
      if (assignments.lookup name).isSome then some (current name) else none := by
  have modified : name ∈ (assignments.map Prod.fst).filter table.updatesTracking.contains ↔
      (assignments.lookup name).isSome = true := by
    rw [mem_filter, contains_iff_mem, lookup_isSome_iff, mem_map]
    constructor
    · rintro ⟨⟨entry, isIn, rfl⟩, _⟩
      exact ⟨entry, isIn, beq_self_eq_true _⟩
    · rintro ⟨entry, isIn, same⟩
      exact ⟨⟨entry, isIn, (beq_iff_eq.mp same).symm⟩, isTracked⟩
  rw [updateProjection, lookup_append, lookup_append, lookup_append,
    lookup_assignments_none unreserved fun other free => free.current name, lookup_extended,
    lookup_extended_none (currentValue_ne_filter name), lookup_hidden]
  simp only [modified, String.append_right_inj, named.hidden, and_false, if_false, Option.none_or,
    Option.or_none]

theorem lookup_filter (isKey : name ∈ table.primaryKey) :
    (updateProjection table current assignments).lookup (filterPrefix ++ name) =
      some (current name) := by
  rw [updateProjection, lookup_append, lookup_append, lookup_append,
    lookup_assignments_none unreserved fun other free => free.filter name,
    lookup_extended_none fun rest => (currentValue_ne_filter rest name).symm, lookup_extended,
    if_pos isKey]
  rfl

theorem lookup_hidden_rowId (hidden : table.rowId.isHidden = true) :
    (updateProjection table current assignments).lookup
      (currentValuePrefix ++ defaultRowidColumnName) = some (current defaultRowidColumnName) := by
  have notModified : defaultRowidColumnName ∉
      (assignments.map Prod.fst).filter table.updatesTracking.contains := by
    intro isIn
    obtain ⟨entry, inAssignments, same⟩ := mem_map.mp (mem_filter.mp isIn).1
    exact (unreserved entry inAssignments).hidden same
  rw [updateProjection, lookup_append, lookup_append, lookup_append,
    lookup_assignments_none unreserved fun other free => free.current defaultRowidColumnName,
    lookup_extended, if_neg notModified,
    lookup_extended_none (currentValue_ne_filter defaultRowidColumnName), lookup_hidden,
    if_pos ⟨hidden, rfl⟩]
  rfl

omit unreserved

/-- The row has an id: a hidden column holds it, or it is the encoded key. -/
def UpdatedTable.Identifies {size : RowIdColumnSize} (table : UpdatedTable) (row : Row)
    (id : IndexedDocumentId size) : Prop :=
  if table.rowId.isHidden then
    table.rowId.source ≠ .directPrimaryKey ∧
      row defaultRowidColumnName = .bytes .binary (some id.toList)
  else table.rowId.source = .directPrimaryKey ∧ table.rowId.columnName ∈ table.primaryKey ∧
    Crypto.encodeToBinary (row table.rowId.columnName) = some (some id.toList)

theorem documentOfBytes_toList (id : IndexedDocumentId size) :
    documentOfBytes size id.toList = some id := by
  have length : id.toList.toArray.size = size.bytes := by simp
  rw [documentOfBytes, dif_pos length, Option.some.injEq, ← Vector.toArray_inj]
  exact Array.toArray_toList

include unreserved

theorem extractIdColumn_of_identifies {id : IndexedDocumentId size}
    (identifies : table.Identifies current id) :
    ∃ value, table.rowId.getIdColumn (updateProjection table current assignments) = some value ∧
      extractIdColumn size value = some (some id) := by
  have found : extractIdColumn size (.bytes .binary (some id.toList)) = some (some id) :=
    congrArg some (documentOfBytes_toList id)
  by_cases hidden : table.rowId.isHidden = true
  · rw [UpdatedTable.Identifies, if_pos hidden] at identifies
    have named : table.rowId.columnName = defaultRowidColumnName := of_decide_eq_true hidden
    refine ⟨_, ?_, found⟩
    rw [RowIdColumn.getIdColumn, if_pos hidden, RowIdColumn.rowidBinPhysicalPrefixed, named,
      lookup_hidden_rowId unreserved hidden, identifies.2]
    cases isSource : table.rowId.source with
    | directPrimaryKey => exact absurd isSource identifies.1
    | derivedFromPrimaryColumns | randomGenerated => rfl
  · rw [UpdatedTable.Identifies, if_neg hidden] at identifies
    refine ⟨_, ?_, found⟩
    rw [RowIdColumn.getIdColumn, if_neg hidden, RowIdColumn.rowidBinPhysicalPrefixed,
      lookup_filter unreserved identifies.2.1, identifies.1]
    simp only [Option.bind_eq_bind, Option.bind_some, identifies.2.2]
    rfl

end Projection

/-! ## Terms of the modified columns -/

theorem arrayConcat_mapM_eq_some_iff {joined : List β} :
    (inputs.mapM make).bind arrayConcat = some joined ↔
      inputs ≠ [] ∧ (∀ input ∈ inputs, (make input).isSome) ∧
        (inputs.flatMap fun input => (make input).getD []) = joined := by
  have mapped (lists : List (List β)) : inputs.mapM make = some lists ↔
      (∀ input ∈ inputs, (make input).isSome) ∧
        (inputs.map fun input => (make input).getD []) = lists := by
    induction inputs generalizing lists with
    | nil => simp
    | cons input rest ih =>
      cases made : make input <;> simp [made, ih, Option.bind_eq_some_iff, and_assoc]
  simp only [Option.bind_eq_some_iff, mapped]
  cases inputs <;> simp [arrayConcat, flatMap_def, and_assoc]

namespace InvertedIndex

variable {size : RowIdColumnSize} {index : InvertedIndex size}
  {castTo : DataType → ScalarValue → Option ScalarValue}

theorem projectTransformIntoTerms_of_lookup {start : Option String}
    {batch : List (String × ScalarValue)} {isFound : String → Bool} {row : Row}
    (looked : ∀ name ∈ index.trackedColumns, batch.lookup (start.elim name (· ++ name)) =
      if isFound name then some (row name) else none) :
    index.projectTransformIntoTerms castTo start batch =
      ((index.trackedColumns.filter isFound).mapM fun name =>
        index.processColumn castTo name (row name)).bind arrayConcat := by
  have found : (index.trackedColumns.filterMap fun name =>
      (batch.lookup (start.elim name (· ++ name))).map fun value => (name, value)) =
        (index.trackedColumns.filter isFound).map fun name => (name, row name) := by
    rw [← filterMap_eq_map', ← filterMap_eq_filter, filterMap_filterMap]
    refine filterMap_congr fun name isIn => ?_
    rw [looked name isIn]
    by_cases here : isFound name <;> simp [here, Option.guard]
  rw [projectTransformIntoTerms, found, mapM_map]
  rfl

section Updates

variable {table : UpdatedTable} {current : Row} {assignments : List (String × ScalarValue)}
  {id : IndexedDocumentId size}

def isModified (assignments : List (String × ScalarValue)) (name : String) : Bool :=
  (assignments.lookup name).isSome

theorem updatedRow_of_not_modified (kept : isModified assignments name = false) :
    updatedRow current assignments name = current name := by
  rw [isModified, Option.isSome_eq_false_iff, Option.isNone_iff_eq_none] at kept
  rw [updatedRow, kept]
  rfl

/-- The table tracks the columns of the index, the names of the planner are not used for columns,
and the row has an id that the update does not change. -/
structure Planned (index : InvertedIndex size) (table : UpdatedTable) (current : Row)
    (assignments : List (String × ScalarValue)) (id : IndexedDocumentId size) : Prop where
  isTracked : ∀ name ∈ index.trackedColumns, name ∈ table.updatesTracking
  tracked : ∀ name ∈ index.trackedColumns, Unreserved name
  assigned : ∀ entry ∈ assignments, Unreserved entry.1
  identifies : table.Identifies current id
  keepsId : isModified assignments table.rowId.columnName = false

theorem newTerms (planned : Planned index table current assignments id) :
    index.projectTransformIntoTerms castTo none
        (updateProjection table current assignments) =
      ((index.trackedColumns.filter (isModified assignments)).mapM fun name =>
        index.processColumn castTo name (updatedRow current assignments name)).bind
          arrayConcat := by
  refine projectTransformIntoTerms_of_lookup fun name isIn => ?_
  rw [Option.elim_none, lookup_new (planned.tracked name isIn), isModified, updatedRow]
  cases assignments.lookup name <;> rfl

theorem oldTerms (planned : Planned index table current assignments id) :
    index.projectTransformIntoTerms castTo (some currentValuePrefix)
        (updateProjection table current assignments) =
      ((index.trackedColumns.filter (isModified assignments)).mapM fun name =>
        index.processColumn castTo name (current name)).bind arrayConcat := by
  refine projectTransformIntoTerms_of_lookup fun name isIn => ?_
  rw [Option.elim_some, lookup_current planned.assigned (planned.isTracked name isIn)
    (planned.tracked name isIn)]
  rfl

def ModifiedHas (index : InvertedIndex size)
    (castTo : DataType → ScalarValue → Option ScalarValue)
    (assignments : List (String × ScalarValue)) (row : Row) (term : RawIndexTerm) : Prop :=
  ∃ name ∈ index.trackedColumns, isModified assignments name = true ∧
    term ∈ index.columnTerms castTo row name

/-- What an update must be so that the index follows it: a tracked column is modified, the values of
the modified columns are cast, and no keyword that the update removes from the modified columns is a
keyword of the row after the update, as keywords are kept. -/
structure Follows (index : InvertedIndex size)
    (castTo : DataType → ScalarValue → Option ScalarValue) (current : Row)
    (assignments : List (String × ScalarValue)) : Prop where
  modified : ∃ name ∈ index.trackedColumns, isModified assignments name = true
  casts : ∀ name ∈ index.trackedColumns, isModified assignments name = true →
    (index.processColumn castTo name (current name)).isSome ∧
      (index.processColumn castTo name (updatedRow current assignments name)).isSome
  removed : ∀ term, term.head? = some termPrefixKeyword →
    index.ModifiedHas castTo assignments current term →
    ¬ index.ModifiedHas castTo assignments (updatedRow current assignments) term →
    ∀ name ∈ index.trackedColumns, resizeTerm term ∉
      (index.columnTerms castTo (updatedRow current assignments) name).map resizeTerm

theorem mem_modified (row : Row) (term : RawIndexTerm) :
    (term ∈ (index.trackedColumns.filter (isModified assignments)).flatMap fun name =>
      (index.processColumn castTo name (row name)).getD []) ↔
        index.ModifiedHas castTo assignments row term := by
  simp only [mem_flatMap, mem_filter, and_assoc]
  rfl

/-- The sink makes a change: a tracked column is modified, and the values are cast. -/
def Sinks (index : InvertedIndex size) (castTo : DataType → ScalarValue → Option ScalarValue)
    (current : Row) (assignments : List (String × ScalarValue)) : Prop :=
  (∃ name ∈ index.trackedColumns, isModified assignments name = true) ∧
    ∀ name ∈ index.trackedColumns, isModified assignments name = true →
      (index.processColumn castTo name (current name)).isSome ∧
        (index.processColumn castTo name (updatedRow current assignments name)).isSome

/-- The terms of the modified columns of one row that those of another one do not have. -/
def Lost (index : InvertedIndex size) (castTo : DataType → ScalarValue → Option ScalarValue)
    (assignments : List (String × ScalarValue)) (row other : Row) (terms : List RawIndexTerm) :
    Prop :=
  ∀ term, term ∈ terms ↔ index.ModifiedHas castTo assignments row term ∧
    ¬ index.ModifiedHas castTo assignments other term

theorem of_updateSink (planned : Planned index table current assignments id)
    {change : IndexChange size} (sunk : index.updateSink castTo table.rowId
      (updateProjection table current assignments) = some change) :
    index.Sinks castTo current assignments ∧
      ∃ added removed, change = .updateMany [(id, added, removed)] ∧
        index.Lost castTo assignments (updatedRow current assignments) current added ∧
        index.Lost castTo assignments current (updatedRow current assignments) removed := by
  obtain ⟨value, isValue, extracted⟩ :=
    extractIdColumn_of_identifies planned.assigned planned.identifies
  simp only [updateSink, isValue, extracted, Option.bind_eq_bind, Option.bind_some,
    Option.bind_eq_some_iff, Option.some.injEq] at sunk
  obtain ⟨new, isNew, old, isOld, rfl⟩ := sunk
  rw [newTerms planned, arrayConcat_mapM_eq_some_iff] at isNew
  rw [oldTerms planned, arrayConcat_mapM_eq_some_iff] at isOld
  obtain ⟨nonempty, newCasts, rfl⟩ := isNew
  obtain ⟨_, oldCasts, rfl⟩ := isOld
  refine ⟨⟨?_, fun name isIn modified => ?_⟩, _, _, rfl, fun term => ?_, fun term => ?_⟩
  · obtain ⟨name, isModified⟩ := exists_mem_of_ne_nil _ nonempty
    exact ⟨name, mem_filter.mp isModified⟩
  · have isIn := mem_filter.mpr ⟨isIn, modified⟩
    exact ⟨oldCasts name isIn, newCasts name isIn⟩
  all_goals rw [mem_filter, mem_modified, Bool.not_eq_true', ← Bool.not_eq_true,
    contains_iff_mem, mem_modified]

theorem exists_updateSink (planned : Planned index table current assignments id)
    (sinks : index.Sinks castTo current assignments) :
    ∃ change, index.updateSink castTo table.rowId
      (updateProjection table current assignments) = some change := by
  obtain ⟨⟨name, isIn, isModified⟩, casts⟩ := sinks
  have nonempty := ne_nil_of_mem (mem_filter.mpr ⟨isIn, isModified⟩)
  have both := fun name isIn =>
    casts name (mem_filter.mp isIn).1 (mem_filter.mp isIn).2
  have isNew := arrayConcat_mapM_eq_some_iff.mpr
    ⟨nonempty, fun name isIn => (both name isIn).2, rfl⟩
  have isOld := arrayConcat_mapM_eq_some_iff.mpr
    ⟨nonempty, fun name isIn => (both name isIn).1, rfl⟩
  obtain ⟨value, isValue, extracted⟩ :=
    extractIdColumn_of_identifies planned.assigned planned.identifies
  rw [updateSink, isValue, newTerms planned, oldTerms planned, isNew, isOld]
  simp only [Option.bind_eq_bind, Option.bind_some, extracted]
  exact ⟨_, rfl⟩

/-! ## Terms after the update -/

/-- A column that is not modified has a term, as it is kept. -/
def UnmodifiedKeeps (index : InvertedIndex size)
    (castTo : DataType → ScalarValue → Option ScalarValue)
    (assignments : List (String × ScalarValue)) (current : Row) (term : RawIndexTerm) : Prop :=
  ∃ name ∈ index.trackedColumns, isModified assignments name = false ∧
    term ∈ (index.columnTerms castTo current name).map resizeTerm

theorem rowTerms_iff {row : Row} (same : ∀ name, isModified assignments name = false →
      row name = current name) (term : RawIndexTerm) :
    (∃ name ∈ index.trackedColumns,
        term ∈ (index.columnTerms castTo row name).map resizeTerm) ↔
      (∃ other, index.ModifiedHas castTo assignments row other ∧ resizeTerm other = term) ∨
        index.UnmodifiedKeeps castTo assignments current term := by
  constructor
  · rintro ⟨name, isIn, isTerm⟩
    cases modified : isModified assignments name with
    | true =>
      obtain ⟨other, isOther, rfl⟩ := mem_map.mp isTerm
      exact .inl ⟨other, ⟨name, isIn, modified, isOther⟩, rfl⟩
    | false =>
      rw [columnTerms, same name modified] at isTerm
      exact .inr ⟨name, isIn, modified, isTerm⟩
  · rintro (⟨other, ⟨name, isIn, _, isOther⟩, rfl⟩ | ⟨name, isIn, modified, isTerm⟩)
    · exact ⟨name, isIn, mem_map_of_mem isOther⟩
    · refine ⟨name, isIn, ?_⟩
      rw [columnTerms, same name modified]
      exact isTerm

theorem mem_change_iff (abstract : AbstractIndex size) (id : IndexedDocumentId size)
    (added removed : List RawIndexTerm) (term : RawIndexTerm) :
    id ∈ (abstract.change (.updateMany [(id, added, removed)])).evaluate (.term term) ↔
      (id ∈ abstract.evaluate (.term term) ∨ resizeTerm term ∈ added.map resizeTerm) ∧
        resizeTerm term ∉ removed.map resizeTerm := by
  simp only [change, updateMany, foldl_cons, foldl_nil, evaluate, insertTerms, removeTerms,
    Set.mem_ofPred_eq, true_and]

theorem head?_of_resizeTerm {term other : RawIndexTerm} (same : resizeTerm term = resizeTerm other) :
    term.head? = other.head? := by
  have heads := congrArg head? same
  rwa [resizeTerm, resizeTerm, head?_take, head?_take] at heads

theorem inSync_change_iff {abstract : AbstractIndex size}
    (before : index.InSync castTo abstract id current) {added removed : List RawIndexTerm}
    (mem_added : index.Lost castTo assignments (updatedRow current assignments) current added)
    (mem_removed : index.Lost castTo assignments current (updatedRow current assignments) removed) :
    index.InSync castTo (abstract.change (.updateMany [(id, added, removed)])) id
        (updatedRow current assignments) ↔
      ∀ term, term.head? = some termPrefixKeyword →
        index.ModifiedHas castTo assignments current term →
        ¬ index.ModifiedHas castTo assignments (updatedRow current assignments) term →
        ∀ name ∈ index.trackedColumns, resizeTerm term ∉
          (index.columnTerms castTo (updatedRow current assignments) name).map resizeTerm := by
  have oldTerms := @rowTerms_iff size index castTo current assignments current fun _ _ => rfl
  have newTerms := @rowTerms_iff size index castTo current assignments
    (updatedRow current assignments) fun _ kept => updatedRow_of_not_modified kept
  constructor
  · intro after term keyword wasThere isGone name isIn isTerm
    have isRemoved := mem_map_of_mem (f := resizeTerm) ((mem_removed term).mpr
      ⟨wasThere, isGone⟩)
    have stillIndexed := (after term keyword).mpr ⟨name, isIn, isTerm⟩
    rw [mem_change_iff] at stillIndexed
    exact stillIndexed.2 isRemoved
  · intro apart term keyword
    rw [mem_change_iff, before term keyword, oldTerms, newTerms]
    constructor
    · rintro ⟨(⟨other, wasThere, same⟩ | kept) | isAdded, notRemoved⟩
      · -- A term that was there is still there, or it is removed.
        by_cases isNew : index.ModifiedHas castTo assignments (updatedRow current assignments) other
        · exact .inl ⟨other, isNew, same⟩
        · rw [← same] at notRemoved
          exact absurd (mem_map_of_mem ((mem_removed other).mpr ⟨wasThere, isNew⟩)) notRemoved
      · exact .inr kept
      · obtain ⟨other, isOther, same⟩ := mem_map.mp isAdded
        exact .inl ⟨other, ((mem_added other).mp isOther).1, same⟩
    · intro hasTerm
      refine ⟨?_, fun isRemoved => ?_⟩
      · rcases hasTerm with ⟨other, isNew, same⟩ | kept
        · by_cases wasThere : index.ModifiedHas castTo assignments current other
          · exact .inl (.inl ⟨other, wasThere, same⟩)
          · rw [← same]
            exact .inr (mem_map_of_mem ((mem_added other).mpr ⟨isNew, wasThere⟩))
        · exact .inl (.inr kept)
      · obtain ⟨other, isOther, same⟩ := mem_map.mp isRemoved
        obtain ⟨wasThere, isGone⟩ := (mem_removed other).mp isOther
        rw [← head?_of_resizeTerm same] at keyword
        rw [← newTerms, ← same] at hasTerm
        obtain ⟨name, isIn, isTerm⟩ := hasTerm
        exact apart other keyword wasThere isGone name isIn isTerm

/-- After every run of an index that is in sync with a row, the sink makes a change after which the
index is in sync with the updated row exactly if the update meets the condition; the index answers
its queries from the state that the change leads to. -/
theorem updateSink_inSync_iff {Blob : Type} (env : IndexEnvironment size Blob)
    {state : IndexState size Blob} {source : List (IndexedDocumentId size × List RawIndexTerm)}
    {operations : List (IndexOperation size)} (ran : env.run source operations = some state)
    (planned : Planned index table current assignments id)
    (before : index.InSync castTo (AbstractIndex.run source operations) id current) :
    ((∃ change, index.updateSink castTo table.rowId
        (updateProjection table current assignments) = some change ∧
      index.InSync castTo (AbstractIndex.run source (operations ++ [.change change])) id
        (updatedRow current assignments)) ↔ index.Follows castTo current assignments) ∧
    ∀ change updated, index.updateSink castTo table.rowId
        (updateProjection table current assignments) = some change →
      env.execute state (.change change) = some updated →
      (RawInvertedIndex.ofState env updated).Answers
        (AbstractIndex.run source (operations ++ [.change change])) := by
  have appended : ∀ change : IndexChange size,
      run source (operations ++ [.change change]) =
        (run source operations).change change := by
    intro change
    rw [run, foldl_append]
    rfl
  refine ⟨⟨?_, fun follows => ?_⟩, fun change updated _ executed => ?_⟩
  · rintro ⟨change, sunk, after⟩
    obtain ⟨⟨modified, casts⟩, added, removed, rfl, mem_added, mem_removed⟩ :=
      of_updateSink planned sunk
    rw [appended] at after
    exact ⟨modified, casts, (inSync_change_iff before mem_added mem_removed).mp after⟩
  · obtain ⟨change, sunk⟩ := exists_updateSink planned ⟨follows.modified, follows.casts⟩
    obtain ⟨_, added, removed, rfl, mem_added, mem_removed⟩ := of_updateSink planned sunk
    refine ⟨_, sunk, ?_⟩
    rw [appended]
    exact (inSync_change_iff before mem_added mem_removed).mpr follows.removed
  · refine answers_of_run env ?_
    obtain ⟨table, provisioned, ran⟩ := Option.bind_eq_some_iff.mp ran
    refine Option.bind_eq_some_iff.mpr ⟨table, provisioned, ?_⟩
    rw [foldlM_append, ran]
    simp only [Option.bind_eq_bind, Option.bind_some, foldlM_cons, foldlM_nil, executed]
    rfl

end Updates

end InvertedIndex

/-! ## An index of two columns -/

/-- An index of the columns x and y; words are separated by spaces. -/
def notesIndex : InvertedIndex .size4Bytes where
  inner := .ofState (SymbolicBlob.environment .size4Bytes) ⟨[], .empty⟩
  watchedStringColumns := ["x", "y"]
  watchedBooleanColumns := []
  collation := ⟨false, true, true⟩
  functions := ⟨(· = ' '), fun _ => true, id⟩

def notesSource : List (IndexedDocumentId .size4Bytes × List RawIndexTerm) :=
  [(SymbolicBlob.document 1, [keywordToTerm "bar", keywordToTerm "foo"])]

def notesRow : Row := fun name =>
  if name = "id" then .primitive .int32 (some 1)
  else .text .utf8 (some (if name = "x" then "bar foo" else "foo"))

def notesTable : UpdatedTable := ⟨⟨"id", .directPrimaryKey⟩, ["id"], ["x", "y"]⟩

theorem notesRow_terms :
    notesIndex.columnTerms Semantics.basic.cast notesRow "x" =
        [keywordToTerm "bar", keywordToTerm "foo"] ∧
      notesIndex.columnTerms Semantics.basic.cast notesRow "y" = [keywordToTerm "foo"] := by
  decide +kernel

theorem mem_notesSource_iff {term : RawIndexTerm} :
    SymbolicBlob.document 1 ∈ (AbstractIndex.run notesSource []).evaluate (.term term) ↔
      resizeTerm term ∈ [keywordToTerm "bar", keywordToTerm "foo"].map resizeTerm := by
  constructor
  · rintro ⟨terms, listed, isTerm⟩
    cases mem_singleton.mp listed
    exact isTerm
  · exact fun isTerm => ⟨_, mem_singleton_self _, isTerm⟩

theorem notesIndex_inSync : notesIndex.InSync Semantics.basic.cast
    (AbstractIndex.run notesSource []) (SymbolicBlob.document 1) notesRow := by
  intro term _
  rw [mem_notesSource_iff]
  constructor
  · intro isTerm
    refine ⟨"x", by decide, ?_⟩
    rw [notesRow_terms.1]
    exact isTerm
  · rintro ⟨name, isIn, isTerm⟩
    rcases mem_cons.mp isIn with rfl | isIn
    · rwa [notesRow_terms.1] at isTerm
    · cases mem_singleton.mp isIn
      rw [notesRow_terms.2] at isTerm
      exact mem_cons_of_mem _ isTerm

theorem unreserved_of_length (short : name.length < 10) : Unreserved name := by
  constructor
  · rintro other rfl
    rw [String.length_append] at short
    have long : currentValuePrefix.length = 10 := by decide
    omega
  · rintro other rfl
    rw [String.length_append] at short
    have long : filterPrefix.length = 10 := by decide
    omega
  · rintro rfl
    exact absurd short (by decide)

theorem notesIndex_planned (text : String) :
    InvertedIndex.Planned notesIndex notesTable notesRow [("x", .text .utf8 (some text))]
      (SymbolicBlob.document 1) where
  isTracked _ isIn := isIn
  tracked name isIn := unreserved_of_length
    ((by decide : ∀ name ∈ notesIndex.trackedColumns, name.length < 10) name isIn)
  assigned entry isIn := by
    cases mem_singleton.mp isIn
    exact unreserved_of_length (show "x".length < 10 by decide)
  identifies := ⟨rfl, by decide, by decide +kernel⟩
  keepsId := rfl

/-- SET x = 'baz foo' removes the word bar, which is nowhere else. -/
theorem updateSink_inSync_iff_word :
    ∃ change, notesIndex.updateSink Semantics.basic.cast notesTable.rowId
        (updateProjection notesTable notesRow [("x", .text .utf8 (some "baz foo"))]) =
          some change ∧
      notesIndex.InSync Semantics.basic.cast (AbstractIndex.run notesSource [.change change])
        (SymbolicBlob.document 1)
        (updatedRow notesRow [("x", .text .utf8 (some "baz foo"))]) := by
  have provisioned : ((SymbolicBlob.environment .size4Bytes).run notesSource []).isSome = true := by
    decide +kernel
  obtain ⟨state, ran⟩ := Option.isSome_iff_exists.mp provisioned
  have newTerms : notesIndex.columnTerms Semantics.basic.cast
      (updatedRow notesRow [("x", .text .utf8 (some "baz foo"))]) "x" =
        [keywordToTerm "baz", keywordToTerm "foo"] := by
    decide +kernel
  have gone : ∀ name ∈ notesIndex.trackedColumns, resizeTerm (keywordToTerm "bar") ∉
      (notesIndex.columnTerms Semantics.basic.cast
        (updatedRow notesRow [("x", .text .utf8 (some "baz foo"))]) name).map resizeTerm := by
    decide +kernel
  refine (InvertedIndex.updateSink_inSync_iff (SymbolicBlob.environment .size4Bytes) ran
    (notesIndex_planned "baz foo") notesIndex_inSync).1.mpr
      ⟨⟨"x", by decide, by decide⟩, by decide +kernel, ?_⟩
  rintro term _ ⟨name, isIn, modified, wasThere⟩ isGone
  have isX : name = "x" := by
    rcases mem_cons.mp isIn with rfl | isIn
    · rfl
    · cases mem_singleton.mp isIn
      cases modified
  subst isX
  rw [notesRow_terms.1] at wasThere
  rcases mem_cons.mp wasThere with rfl | isFoo
  · exact gone
  · rw [mem_singleton] at isFoo
    refine absurd ⟨"x", isIn, modified, ?_⟩ isGone
    rw [newTerms, isFoo]
    exact mem_cons_of_mem _ (mem_singleton_self _)

/-- Without a modified tracked column the sink fails. SET x = 'bar' removes the row from the word
foo, which y still has. A row whose key is an 8-bit integer is skipped. -/
theorem updateSink_loses_words :
    notesIndex.updateSink Semantics.basic.cast notesTable.rowId
        (updateProjection notesTable notesRow [("z", .text .utf8 (some "a"))]) = none ∧
      (∃ change, notesIndex.updateSink Semantics.basic.cast notesTable.rowId
          (updateProjection notesTable notesRow [("x", .text .utf8 (some "bar"))]) =
            some change ∧
        notesIndex.InSync Semantics.basic.cast (AbstractIndex.run notesSource [])
          (SymbolicBlob.document 1) notesRow ∧
        keywordToTerm "foo" ∈ notesIndex.columnTerms Semantics.basic.cast
          (updatedRow notesRow [("x", .text .utf8 (some "bar"))]) "y" ∧
        SymbolicBlob.document 1 ∉ (AbstractIndex.run notesSource [.change change]).evaluate
          (.term (keywordToTerm "foo"))) ∧
      notesIndex.updateSink Semantics.basic.cast notesTable.rowId (updateProjection notesTable
        (fun name => if name = "id" then .primitive .int8 (some 1) else notesRow name)
        [("x", .text .utf8 (some "baz"))]) = some (.updateMany []) := by
  refine ⟨by decide +kernel, ⟨.updateMany [(SymbolicBlob.document 1, [], [keywordToTerm "foo"])],
    by decide +kernel, notesIndex_inSync, by decide +kernel, ?_⟩, by decide +kernel⟩
  intro indexed
  have kept := (InvertedIndex.mem_change_iff (ofDocuments notesSource)
    (SymbolicBlob.document 1) [] [keywordToTerm "foo"] (keywordToTerm "foo")).mp indexed
  exact kept.2 (mem_singleton_self _)

end SecureFusion.Indices
