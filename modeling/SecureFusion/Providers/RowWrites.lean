import SecureFusion.Indices.BlindIndex
import SecureFusion.Indices.RangeQueries
import SecureFusion.Providers.RowProjection
import SecureFusion.Sinks.RowEffects

/-!
# Rows with the columns of indices

A blind or a range index stores what it computes from its column in a hidden column of the
same table. It looks for its column among the fields of the input of the sink by its plain
name, in an INSERT and in an UPDATE alike; a value that the input has for a row that exists
already has another name.
-/

namespace SecureFusion.Indices

open Library Sql Crypto

/-- A hidden column that an index adds to its table. -/
structure AddedColumn where
  indexedColumn : String
  indexColumnName : String
  /-- What is stored for a value of the indexed column; none if its type is not indexable. -/
  forArray : ScalarValue → Option ScalarValue
  /-- What is stored is sent as what it stands for. -/
  arrives : ∀ value stored, forArray value = some stored → Sinks.bindable stored = true
  /-- A null is stored for a null. -/
  null : ∀ value stored, forArray value = some stored → value.isNull = true → stored.isNull = true

def BlindIndex.addedColumn (index : BlindIndex)
    (generator : IdentifierContext → Bytes → Nat → String) (table : ResolvedTableReference) :
    AddedColumn where
  indexedColumn := index.indexedColumn
  indexColumnName := index.indexColumnName
  forArray := index.forArray generator table
  arrives := by
    intro value stored computed
    obtain ⟨bytes, -, rfl⟩ := Option.map_eq_some_iff.mp computed
    rfl
  null := by
    intro value stored computed isNull
    obtain ⟨bytes, encoded, rfl⟩ := Option.map_eq_some_iff.mp computed
    have none : bytes = none := by
      unfold encodeToBinary at encoded
      cases value with
      | null => exact (Option.some.inj encoded).symm
      | primitive type content =>
        cases content with
        | none => cases type <;> simp_all
        | some word => cases isNull
      | boolean content | text _ content | bytes _ content | float32List _ content =>
        cases content with
        | none => exact (Option.some.inj encoded).symm
        | some _ => cases isNull
      | struct => cases encoded
    rw [none]
    rfl

def RangeIndex.addedColumn (index : RangeIndex) : AddedColumn where
  indexedColumn := index.indexedColumn
  indexColumnName := index.indexColumnName
  forArray := index.forArray
  arrives := by
    intro value stored computed
    unfold RangeIndex.forArray at computed
    split at computed
    · cases computed
      rfl
    · rename_i type content
      obtain ⟨number, -, rfl⟩ := Option.map_eq_some_iff.mp computed
      cases content <;> rfl
    · cases computed
  null := by
    intro value stored computed isNull
    unfold RangeIndex.forArray at computed
    split at computed
    · cases computed
      rfl
    · rename_i type content
      obtain ⟨number, -, rfl⟩ := Option.map_eq_some_iff.mp computed
      cases content with
      | none => rfl
      | some word => cases isNull
    · cases computed

end SecureFusion.Indices

namespace SecureFusion.Providers

open Library Sql Crypto Sinks Server Indices List PlannedColumn

variable {values : List (String × ScalarValue)} {column : PlannedColumn}

/-! ## Index columns -/

/-- What the indices of a table do in statements that write rows. -/
structure WriteIndices where
  addedColumns : List AddedColumn
  demands : IndexDemands
  /-- What indices with a storage of their own read. -/
  additional : List String → List ProjectionExpr
  /-- The first projection leaves the columns plain that indices read. -/
  tracked : ∀ added ∈ addedColumns, added.indexedColumn ∈ demands.trackedColumns

def projectionOf (added : AddedColumn) : ProjectionExpr :=
  ⟨.ofIndex added.indexColumnName, added.indexColumnName⟩

/-- The value of a hidden column for a row of the input. -/
def computeAdded (input : PlannedColumn → ScalarValue) (added : AddedColumn) :
    Evaluated (String × ScalarValue) :=
  match added.forArray (input ⟨.value, added.indexedColumn⟩) with
  | some stored => .ok (added.indexColumnName, stored)
  | none => .error (.execution "unsupported data type")

namespace WriteIndices

variable (indices : WriteIndices)

/-- The hidden columns whose indexed column is in the input. -/
def forwarded (schema : List String) : List AddedColumn :=
  indices.addedColumns.filter fun added => added.indexedColumn ∈ schema

def forward (schema : List String) : List ProjectionExpr :=
  (indices.forwarded schema).map projectionOf

/-- The values of the hidden columns for a row of the input. -/
def addedValues (schema : List String) (input : PlannedColumn → ScalarValue) :
    Evaluated (List (String × ScalarValue)) :=
  (indices.forwarded schema).mapM (computeAdded input)

def hiddenNames : List String :=
  indices.demands.hiddenRowId.toList ++ indices.addedColumns.map AddedColumn.indexColumnName

end WriteIndices

/-- A row of the input with the values of the hidden columns. -/
def withAdded (values : List (String × ScalarValue)) (input : PlannedColumn → ScalarValue) :
    PlannedColumn → ScalarValue := fun column =>
  if column.role = .value then (values.lookup column.name).getD (input column) else input column

/-! ## Writes -/

section Write

variable (provider : MySqlTableProvider) (server : TableServer) (typeName : DataType → Bytes)
  (indices : WriteIndices)

def WriteIndices.sinkColumns (planned : List PlannedColumn) : List PlannedColumn :=
  Providers.sinkColumns planned (indices.forward (planned.map PlannedColumn.fieldName))

/-- Projects rows and writes them one by one. -/
def MySqlTableProvider.writeRows (kind : WriteKind) (planned : List PlannedColumn)
    (inputs : List (PlannedColumn → ScalarValue)) (rows : List StoredRow) :
    Evaluated (List StoredRow) := do
  let schema := planned.map PlannedColumn.fieldName
  let (projected, names) ← provider.projectInsertUpdate indices.demands (indices.forward schema)
    (indices.additional schema) (kind = .update) schema
  let cells ← inputs.mapM fun input => do
    let values ← indices.addedValues schema input
    sinkRow typeName (rowBatch (inputRow planned input)) (withAdded values input)
      (projected.take names.length)
  server.write kind provider.tableReference names cells rows

/-- The columns of the table as the server has them: their names are different words without a
prefix of the planner, and those that matter are known to the planner. -/
structure WellNamed : Prop where
  schema : isUnquotedName server.reserved (utf8Bytes provider.tableReference.schema) = true
  table : isWord (utf8Bytes provider.tableReference.table) = true
  words : ∀ name ∈ provider.columnNames ++ indices.hiddenNames,
    isUnquotedName server.reserved (utf8Bytes name) = true
  distinct : (provider.columnNames ++ indices.hiddenNames).Nodup
  unmarked : ∀ name ∈ provider.columnNames ++ indices.hiddenNames,
    ∀ namePrefix ∈ [duplicateValuePfx, currentValuePrefix, filterPrefix],
      hasPrefix namePrefix name = false
  indexed : ∀ added ∈ indices.addedColumns, added.indexedColumn ∈ provider.columnNames
  encrypted : ∀ name ∈ provider.encryptedNames, name ∈ provider.columnNames
  key : ∀ name ∈ provider.primaryKey, name ∈ provider.columnNames

/-- What a column of the primary key is in the input of a sink. -/
def keyRole : WriteKind → ColumnRole
  | .update => .filter
  | _ => .value

/-- The columns that a plan gives to its sink. -/
structure Writable (kind : WriteKind) (planned : List PlannedColumn) : Prop where
  roles : ∀ column ∈ planned, column.role ∈ kind.roles
  named : ∀ column ∈ planned,
    column.name ∈ provider.columnNames ++ indices.demands.hiddenRowId.toList
  distinct : planned.Nodup
  key : ∀ name ∈ provider.primaryKey, ⟨keyRole kind, name⟩ ∈ planned
  /-- An INSERT sets some column, and an UPDATE finds its rows by some. -/
  complete : ∃ name, ⟨keyRole kind, name⟩ ∈ planned

theorem keyField (kind : WriteKind) (name : String) :
    (⟨keyRole kind, name⟩ : PlannedColumn).fieldName =
      (if (kind = .update : Bool) then filterPrefix else "") ++ name := by
  cases kind with
  | insert | delete => exact String.empty_append.symm
  | update => rfl

/-- The values of the primary key in a row of the input. -/
def MySqlTableProvider.inputKey (kind : WriteKind) (input : PlannedColumn → ScalarValue) :
    List ScalarValue :=
  provider.primaryKey.map fun name => input ⟨keyRole kind, name⟩

/-- The values of the hidden columns, if they can be computed. -/
def WriteIndices.addedOf (planned : List PlannedColumn) (input : PlannedColumn → ScalarValue) :
    List (String × ScalarValue) :=
  match indices.addedValues (planned.map PlannedColumn.fieldName) input with
  | .ok values => values
  | .error _ => []

def MySqlTableProvider.inputCell (kind : WriteKind) (planned : List PlannedColumn)
    (input : PlannedColumn → ScalarValue) (column : PlannedColumn) : Cell :=
  provider.sealCell typeName (provider.inputKey kind input) (insertTarget column.fieldName)
    (withAdded (indices.addedOf planned input) input column)

end Write

/-! ## Columns of the sink -/

variable {added : AddedColumn}

section Columns

variable {provider : MySqlTableProvider} {server : TableServer} {typeName : DataType → Bytes}
  {indices : WriteIndices} {kind : WriteKind} {planned : List PlannedColumn}
  {input : PlannedColumn → ScalarValue}

theorem mem_sinkColumns_iff :
    column ∈ indices.sinkColumns planned ↔ column ∈ planned ∨ ∃ added ∈ indices.addedColumns,
      added.indexedColumn ∈ planned.map PlannedColumn.fieldName ∧
        column = ⟨.value, added.indexColumnName⟩ := by
  rw [WriteIndices.sinkColumns, sinkColumns, mem_append]
  refine or_congr_right ?_
  simp only [WriteIndices.forward, WriteIndices.forwarded, mem_map, mem_filter,
    decide_eq_true_eq]
  constructor
  · rintro ⟨_, ⟨added, ⟨isAdded, isIn⟩, rfl⟩, rfl⟩
    exact ⟨added, isAdded, isIn, rfl⟩
  · rintro ⟨added, isAdded, isIn, rfl⟩
    exact ⟨_, ⟨added, ⟨isAdded, isIn⟩, rfl⟩, rfl⟩

theorem Writable.mem_names (writable : Writable provider indices kind planned)
    (isIn : column ∈ indices.sinkColumns planned) :
    column.name ∈ provider.columnNames ++ indices.hiddenNames := by
  rcases mem_sinkColumns_iff.mp isIn with isPlanned | ⟨added, isAdded, -, rfl⟩
  · rcases mem_append.mp (writable.named column isPlanned) with isColumn | isHidden
    · exact mem_append_left _ isColumn
    · exact mem_append_right _ (mem_append_left _ isHidden)
  · exact mem_append_right _ (mem_append_right _ (mem_map_of_mem isAdded))

theorem WellNamed.hidden_plain (named : WellNamed provider server indices)
    (isAdded : added ∈ indices.addedColumns) :
    provider.getColumnMetadata added.indexColumnName = none := by
  rw [MySqlTableProvider.getColumnMetadata, lookup_eq_none_iff]
  intro entry isEntry
  rw [bne_iff_ne]
  intro same
  have isColumn := named.encrypted entry.1 (mem_map_of_mem isEntry)
  have isHidden : entry.1 ∈ indices.hiddenNames := by
    rw [← same]
    exact mem_append_right _ (mem_map_of_mem isAdded)
  exact (nodup_append.mp named.distinct).2.2 _ isColumn _ isHidden rfl

variable (named : WellNamed provider server indices)
  (writable : Writable provider indices kind planned) {inputs : List (PlannedColumn → ScalarValue)}
  {schema : List String} {name : String}

include named

theorem WellNamed.mem_schema_iff (isColumn : name ∈ provider.columnNames) :
    name ∈ planned.map PlannedColumn.fieldName ↔ ⟨.value, name⟩ ∈ planned := by
  rw [mem_map]
  constructor
  · rintro ⟨⟨role, other⟩, isIn, rfl⟩
    have unmarked := named.unmarked _ (mem_append_left _ isColumn)
    cases role with
    | value => exact isIn
    | duplicate | current | filter => simp [fieldName] at unmarked
  · intro isIn
    exact ⟨_, isIn, rfl⟩

include writable

theorem Writable.hidden_notMem (isAdded : added ∈ indices.addedColumns) :
    ⟨.value, added.indexColumnName⟩ ∉ planned := by
  intro isPlanned
  have isName := writable.named _ isPlanned
  have distinct := named.distinct
  rw [WriteIndices.hiddenNames, ← append_assoc] at distinct
  exact (nodup_append.mp distinct).2.2 _ isName _ (mem_map_of_mem isAdded) rfl

theorem Writable.hidden_mem_iff (isAdded : added ∈ indices.addedColumns) :
    ⟨.value, added.indexColumnName⟩ ∈ indices.sinkColumns planned ↔
      ⟨.value, added.indexedColumn⟩ ∈ planned := by
  rw [mem_sinkColumns_iff, or_iff_right (writable.hidden_notMem named isAdded),
    ← named.mem_schema_iff (named.indexed added isAdded)]
  constructor
  · rintro ⟨other, isOther, isIn, same⟩
    have sameColumn : added = other := by
      have hidden := (nodup_append.mp (nodup_append.mp named.distinct).2.1).2.1
      exact inj_on_of_nodup_map hidden isAdded isOther (mk.inj same).2
    rwa [sameColumn]
  · intro isIn
    exact ⟨added, isAdded, isIn, rfl⟩

theorem Writable.nodup_sinkColumns : (indices.sinkColumns planned).Nodup := by
  have hidden := (nodup_append.mp (nodup_append.mp named.distinct).2.1).2.1
  have forwarded : ((indices.forwarded (planned.map fieldName)).map
      AddedColumn.indexColumnName).Nodup := (hidden.sublist (filter_sublist.map _))
  rw [WriteIndices.sinkColumns, sinkColumns, WriteIndices.forward, map_map]
  refine nodup_append.mpr ⟨writable.distinct, ?_, ?_⟩
  · have columns := forwarded.map (f := PlannedColumn.mk .value) fun _ _ same =>
      (PlannedColumn.mk.inj same).2
    rw [List.map_map] at columns
    exact columns
  · rintro column isPlanned other isOther rfl
    obtain ⟨added, isAdded, rfl⟩ := mem_map.mp isOther
    exact writable.hidden_notMem named (mem_filter.mp isAdded).1 isPlanned

theorem Writable.insertTarget_eq (isIn : column ∈ indices.sinkColumns planned)
    (written : column.role = .value ∨
      column.role = .duplicate) : insertTarget column.fieldName = column.name := by
  have unmarked := named.unmarked _ (writable.mem_names isIn) _ mem_cons_self
  obtain ⟨role, name⟩ := column
  rcases written with rfl | rfl
  · simp [insertTarget, fieldName, unmarked]
  · simp [insertTarget, fieldName]

omit named in
theorem Writable.roles_sinkColumns :
    ∀ column ∈ indices.sinkColumns planned, column.role ∈ kind.roles := by
  intro column isIn
  rcases mem_sinkColumns_iff.mp isIn with isPlanned | ⟨added, -, -, rfl⟩
  · exact writable.roles column isPlanned
  · cases kind <;> exact mem_cons_self

theorem Writable.unmarked_sinkColumns : Unmarked kind (indices.sinkColumns planned) := by
  intro column isIn _ namePrefix isPrefix
  refine named.unmarked _ (writable.mem_names isIn) namePrefix ?_
  cases kind <;> simp_all [WriteKind.prefixes]

theorem Writable.nodup_fieldNames : (planned.map PlannedColumn.fieldName).Nodup := by
  refine List.Nodup.map_on (fun first isFirst second isSecond => ?_) writable.distinct
  exact fieldName_inj writable.roles_sinkColumns (writable.unmarked_sinkColumns named)
    (mem_sinkColumns_iff.mpr (.inl isFirst)) (mem_sinkColumns_iff.mpr (.inl isSecond))

theorem Writable.lookup_key (values : PlannedColumn → ScalarValue) :
    List.Forall₂ (fun name value => (inputRow planned values).lookup
        ((if (kind = .update : Bool) then filterPrefix else "") ++ name) = some value)
      provider.primaryKey (provider.inputKey kind values) := by
  rw [MySqlTableProvider.inputKey, forall₂_map_right_iff, forall₂_same]
  intro name isKey
  have isIn := writable.key name isKey
  have distinct : ((inputRow planned values).map Prod.fst).Nodup := by
    rw [inputRow, map_map]
    exact writable.nodup_fieldNames named
  have entry : ((⟨keyRole kind, name⟩ : PlannedColumn).fieldName, values ⟨keyRole kind, name⟩) ∈
      inputRow planned values := mem_map_of_mem isIn
  rw [← keyField]
  exact Rows.lookup_of_mem distinct entry

/-! ## Inversion of writes -/

omit named writable in
theorem addedValues_spec (computed : indices.addedValues schema input = .ok values) :
    values.map Prod.fst = (indices.forwarded schema).map AddedColumn.indexColumnName ∧
      ∀ added ∈ indices.forwarded schema, ∃ stored,
        added.forArray (input ⟨.value, added.indexedColumn⟩) = some stored ∧
          (added.indexColumnName, stored) ∈ values := by
  have related := Outcome.mapM_eq_ok_iff.mp computed
  have each : List.Forall₂ (fun added entry =>
      added.forArray (input ⟨.value, added.indexedColumn⟩) = some entry.2 ∧
        entry.1 = added.indexColumnName) (indices.forwarded schema) values := by
    refine related.imp fun added entry one => ?_
    rw [computeAdded] at one
    cases stored : added.forArray (input ⟨.value, added.indexedColumn⟩) with
    | none =>
      rw [stored] at one
      cases one
    | some value =>
      rw [stored] at one
      cases one
      exact ⟨rfl, rfl⟩
  clear related computed
  generalize indices.forwarded schema = forwarded at each
  induction each with
  | nil => exact ⟨rfl, nofun⟩
  | @cons added entry rest others here _ ih =>
    rw [map_cons, map_cons, ih.1, here.2, forall_mem_cons]
    refine ⟨rfl, ⟨entry.2, here.1, ?_⟩, fun other isOther => ?_⟩
    · rw [← here.2]
      exact mem_cons_self
    · obtain ⟨stored, isStored, isIn⟩ := ih.2 other isOther
      exact ⟨stored, isStored, mem_cons_of_mem _ isIn⟩

theorem Writable.withAdded_planned
    (computed : indices.addedValues (planned.map PlannedColumn.fieldName) input = .ok values)
    (isIn : column ∈ planned) :
    withAdded values input column = input column := by
  rw [withAdded]
  split_ifs with isValue
  · have absent : values.lookup column.name = none := by
      rw [lookup_eq_none_iff]
      intro entry isEntry
      rw [bne_iff_ne]
      intro same
      have isHidden : entry.1 ∈ values.map Prod.fst := mem_map_of_mem isEntry
      rw [(addedValues_spec computed).1, mem_map] at isHidden
      obtain ⟨added, isAdded, isName⟩ := isHidden
      apply writable.hidden_notMem named (mem_filter.mp isAdded).1
      rwa [isName, ← same, ← isValue]
    rw [absent]
    rfl
  · rfl

omit writable in
theorem WellNamed.withAdded_hidden
    (computed : indices.addedValues (planned.map PlannedColumn.fieldName) input = .ok values)
    (isAdded : added ∈ indices.addedColumns) (isIn : ⟨.value, added.indexedColumn⟩ ∈ planned) :
    added.forArray (input ⟨.value, added.indexedColumn⟩) =
      some (withAdded values input ⟨.value, added.indexColumnName⟩) := by
  have isForwarded : added ∈ indices.forwarded (planned.map fieldName) := by
    refine mem_filter.mpr ⟨isAdded, decide_eq_true ?_⟩
    exact (named.mem_schema_iff (named.indexed added isAdded)).mpr isIn
  obtain ⟨names, each⟩ := addedValues_spec computed
  obtain ⟨stored, isStored, isEntry⟩ := each added isForwarded
  have hidden := (nodup_append.mp (nodup_append.mp named.distinct).2.1).2.1
  have distinct : (values.map Prod.fst).Nodup := by
    rw [names]
    exact hidden.sublist (filter_sublist.map _)
  have found : values.lookup added.indexColumnName = some stored :=
    Rows.lookup_of_mem distinct isEntry
  rw [isStored, withAdded, if_pos rfl, found]
  rfl

omit named writable in
theorem withRole_ne_nil {role : ColumnRole} (isIn : ⟨role, name⟩ ∈ planned) :
    withRole planned role ≠ [] := by
  intro none
  have isFirst : (⟨role, name⟩ : PlannedColumn) ∈ (withRole planned role).map Prod.fst := by
    rw [withRole_map_fst]
    exact mem_filter.mpr ⟨isIn, decide_eq_true rfl⟩
  rw [none] at isFirst
  cases isFirst

theorem Writable.words_placeholders :
    ∀ placeholder ∈ kind.placeholders (indices.sinkColumns planned),
      isUnquotedName server.reserved (utf8Bytes placeholder.1.name) = true := by
  intro placeholder isIn
  have there := getElem?_placeholder isIn
  exact named.words _ (writable.mem_names (mem_of_getElem? there))

theorem Writable.expressible
    (assigns : withRole (indices.sinkColumns planned) .value ≠ []) :
    Expressible server.reserved kind provider.tableReference (indices.sinkColumns planned) where
  roles := writable.roles_sinkColumns
  schema := named.schema
  table := named.table
  names := writable.words_placeholders named
  unmarked := writable.unmarked_sinkColumns named
  complete := by
    have values : namesWithRole (indices.sinkColumns planned) .value ≠ [] := by
      rwa [namesWithRole, ne_eq, map_eq_nil_iff]
    obtain ⟨name, isIn⟩ := writable.complete
    have isSunk : ⟨keyRole kind, name⟩ ∈ indices.sinkColumns planned :=
      mem_sinkColumns_iff.mpr (.inl isIn)
    have keys : namesWithRole (indices.sinkColumns planned) (keyRole kind) ≠ [] := by
      rw [namesWithRole, ne_eq, map_eq_nil_iff]
      exact withRole_ne_nil isSunk
    cases kind <;> simp_all [WriteKind.statement, WriteStatement.required, keyRole]
  distinct := fun _ => writable.nodup_sinkColumns named

/-- What a successful write has done. -/
structure Wrote (provider : MySqlTableProvider) (server : TableServer)
    (typeName : DataType → Bytes) (indices : WriteIndices) (kind : WriteKind)
    (planned : List PlannedColumn) (inputs : List (PlannedColumn → ScalarValue))
    (rows final : List StoredRow) : Prop where
  expressible :
    Expressible server.reserved kind provider.tableReference (indices.sinkColumns planned)
  computed : ∀ input ∈ inputs, indices.addedValues (planned.map PlannedColumn.fieldName) input =
    .ok (indices.addedOf planned input)
  written : server.write kind provider.tableReference
    ((indices.sinkColumns planned).map PlannedColumn.fieldName)
    (inputs.map fun input => (indices.sinkColumns planned).map
      (provider.inputCell typeName indices kind planned input)) rows = .ok final

section Row

variable {projected : List ProjectionExpr} {names : List String} {additional : List ProjectionExpr}
  {values : List (String × ScalarValue)}
  (isProjected : provider.projectInsertUpdate indices.demands
    (indices.forward (planned.map PlannedColumn.fieldName)) additional (kind = .update)
    (planned.map PlannedColumn.fieldName) = .ok (projected, names))
  (computed : indices.addedValues (planned.map PlannedColumn.fieldName) input = .ok values)

omit named writable in
theorem map_sealCell_withAdded
    (computed : indices.addedValues (planned.map PlannedColumn.fieldName) input = .ok values) :
    ((indices.sinkColumns planned).map fun column => provider.sealCell typeName
        (provider.inputKey kind input) (insertTarget column.fieldName)
        (withAdded values input column)) =
      (indices.sinkColumns planned).map
        (provider.inputCell typeName indices kind planned input) := by
  have isAdded : indices.addedOf planned input = values := by
    rw [WriteIndices.addedOf, computed]
  refine map_congr_left fun column _ => ?_
  rw [MySqlTableProvider.inputCell, isAdded]

theorem Writable.forward_plain :
    ∀ added ∈ indices.forward (planned.map PlannedColumn.fieldName),
      added.expr = .ofIndex added.name ∧ insertTarget added.name = added.name ∧
        provider.getColumnMetadata added.name = none := by
  refine forall_mem_map.mpr fun added isForwarded => ⟨rfl, ?_, ?_⟩
  · have isIn : ⟨.value, added.indexColumnName⟩ ∈ indices.sinkColumns planned :=
      mem_sinkColumns_iff.mpr (.inr ⟨added, (mem_filter.mp isForwarded).1,
        of_decide_eq_true (mem_filter.mp isForwarded).2, rfl⟩)
    exact writable.insertTarget_eq named isIn (.inl rfl)
  · exact named.hidden_plain (mem_filter.mp isForwarded).1

include computed in
theorem Writable.inputRow_withAdded :
    inputRow planned input = inputRow planned (withAdded values input) := by
  refine map_congr_left fun column isIn => ?_
  rw [writable.withAdded_planned named computed isIn]

include isProjected computed

theorem Writable.sinkRow_inputCell {cells : List Cell}
    (sunk : MySqlTableProvider.sinkRow typeName (rowBatch (inputRow planned input))
      (withAdded values input) (projected.take names.length) = .ok cells) :
    cells = (indices.sinkColumns planned).map
      (provider.inputCell typeName indices kind planned input) := by
  have isKey := writable.lookup_key named input
  rw [writable.inputRow_withAdded named computed] at sunk isKey
  rw [← map_sealCell_withAdded computed]
  exact sinkRow_sealed isProjected (writable.forward_plain named) isKey sunk

end Row

theorem Writable.wrote {rows final : List StoredRow}
    (succeeds : provider.writeRows server typeName indices kind planned inputs rows = .ok final) :
    Wrote provider server typeName indices kind planned inputs rows final := by
  obtain ⟨⟨projected, names⟩, isProjected, rest⟩ := Outcome.bind_eq_ok_iff.mp succeeds
  obtain ⟨cells, sunk, written⟩ := Outcome.bind_eq_ok_iff.mp rest
  have isNames : names = (indices.sinkColumns planned).map fieldName :=
    names_projected isProjected
  have each : List.Forall₂ (fun input row =>
      indices.addedValues (planned.map fieldName) input =
          .ok (indices.addedOf planned input) ∧
        row = (indices.sinkColumns planned).map
          (provider.inputCell typeName indices kind planned input)) inputs cells := by
    refine (Outcome.mapM_eq_ok_iff.mp sunk).imp fun input row one => ?_
    obtain ⟨values, computed, isRow⟩ := Outcome.bind_eq_ok_iff.mp one
    refine ⟨?_, writable.sinkRow_inputCell named isProjected computed isRow⟩
    rw [WriteIndices.addedOf, computed]
  have isCells := Outcome.eq_map_of_forall₂ (each.imp fun _ _ both => both.2)
  rw [isNames, isCells] at written
  have assigns : withRole (indices.sinkColumns planned) .value ≠ [] := by
    intro empty
    by_cases isUpdate : kind = .update
    · subst isUpdate
      have unparsed : parseWrite server.reserved (WriteKind.update.text provider.tableReference
          ((indices.sinkColumns planned).map fieldName)) = none :=
        parseWrite_text_empty writable.roles_sinkColumns named.schema named.table
          (writable.words_placeholders named) (writable.unmarked_sinkColumns named)
          (writable.nodup_sinkColumns named) empty
      rw [TableServer.write, unparsed] at written
      cases written
    · obtain ⟨name, isIn⟩ := writable.complete
      have role : keyRole kind = .value := by
        cases kind with
        | insert | delete => rfl
        | update => exact absurd rfl isUpdate
      rw [role] at isIn
      exact withRole_ne_nil (mem_sinkColumns_iff.mpr (.inl isIn)) empty
  refine ⟨writable.expressible named assigns, fun input isIn => ?_, written⟩
  obtain ⟨row, -, one⟩ := Rows.exists_of_forall₂_left each isIn
  exact one.1

end Columns

end SecureFusion.Providers
