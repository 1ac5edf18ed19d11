import SecureFusion.Providers.TableProvider

/-!
# Agreement of the additional data of writes and reads

A row that was written can be read only if both paths compute the same additional
data from its primary key. They do exactly if Arrow casts the types of the key
columns to binary, and every name is read as the name of a column with the same
bytes, which is the column itself unless the name is taken for SQL text.
-/

namespace SecureFusion.Providers

open Library Sql Crypto List Outcome

variable {table : ResolvedTableReference} {batch : RecordBatch} {keys : List ArrowArray}
  {key : ArrowArray} {name : String}

def columnNamed (batch : RecordBatch) (name : String) : Option ArrowArray :=
  (batch.names.idxOf? name).bind (batch.columns[·]?)

/-- The column of the scan of a table that a logical column denotes. -/
def columnDenoted (table : ResolvedTableReference) (batch : RecordBatch) (column : Column) :
    Option ArrowArray :=
  (indexOfColumn table batch.names column).bind (batch.columns[·]?)

/-- The bytes of a column, as the read path converts it. -/
def readBytes (column : ArrowArray) : List Bytes :=
  entryBytes (column.rows.map (encodedValue column.dataType))

/-- A name of the key is read as a column with the bytes of the key column. -/
def ReadsKey (classes : CharClasses) (table : ResolvedTableReference) (batch : RecordBatch)
    (name : String) (key : ArrowArray) : Prop :=
  canCastToBinary key.dataType = true ∧
    ∃ column, columnDenoted table batch (Column.fromQualifiedName classes name) = some column ∧
      encodable column.dataType = true ∧ readBytes column = castBytes key

theorem ReadsKey.of_name {classes : CharClasses}
    (plain : Column.fromQualifiedName classes name = .fromName name)
    (stored : columnNamed batch name = some key) (casts : canCastToBinary key.dataType = true) :
    ReadsKey classes table batch name key := by
  refine ⟨casts, key, ?_, ?_, ?_⟩
  · rw [plain]
    exact stored
  · rw [Crypto.encodable, casts, Bool.true_or]
  · rw [readBytes, castBytes]
    exact congrArg entryBytes (map_congr_left fun row _ => if_pos casts)

section

variable {provider : MySqlTableProvider} {classes : CharClasses} {typeName : Bytes}
  {values : List ColumnarValue} {result : ColumnarValue} {value : ColumnarValue}
  {namePrefix : String} {names : List String} {index : Nat}

theorem length_rows_of_getElem? {column : ArrowArray}
    (found : batch.columns[index]? = some column) : column.rows.length = batch.numRows :=
  batch.sized column (mem_of_getElem? found)

theorem readColumn_eq_ok_iff :
    readColumn index batch = .ok value ↔
      ∃ column, batch.columns[index]? = some column ∧ value = .array column := by
  unfold readColumn
  cases batch.columns[index]? with
  | none => simp
  | some column =>
    simp only [Except.ok.injEq, Option.some.injEq, exists_eq_left']
    exact eq_comm

theorem physicalCol_evaluates (present : columnNamed batch name = some key)
    (value : ColumnarValue) :
    (∃ expr, physicalCol batch.names name = .ok expr ∧ expr batch = .ok value) ↔
      value = .array key := by
  obtain ⟨index, position, found⟩ := Option.bind_eq_some_iff.mp present
  rw [physicalCol, position]
  simp only [Except.ok.injEq, exists_eq_left', readColumn_eq_ok_iff, found, Option.some.injEq]

theorem planColumn_evaluates {column : Column} :
    (∃ expr, planColumn table batch.names column = .ok expr ∧
        (expr batch >>= encodeColumnarValueToBinary) = .ok value) ↔
      ∃ array, columnDenoted table batch column = some array ∧
        encodeColumnarValueToBinary (.array array) = .ok value := by
  unfold planColumn columnDenoted
  cases indexOfColumn table batch.names column with
  | none => simp
  | some index =>
    simp only [Except.ok.injEq, exists_eq_left', Option.bind_some, bind_eq_ok_iff,
      readColumn_eq_ok_iff]
    constructor
    · rintro ⟨_, ⟨array, found, rfl⟩, encodes⟩
      exact ⟨array, found, encodes⟩
    · rintro ⟨array, found, encodes⟩
      exact ⟨_, ⟨array, found, rfl⟩, encodes⟩

theorem physicalCols_evaluate
    (written : List.Forall₂ (fun name key => columnNamed batch (namePrefix ++ name) = some key)
      names keys) :
    List.Forall₂ (fun name value => ∃ expr,
      physicalCol batch.names (namePrefix ++ name) = .ok expr ∧ expr batch = .ok value)
        names values ↔ values = keys.map .array := by
  induction written generalizing values with
  | nil => exact forall₂_nil_left_iff
  | cons present _ ih =>
    rw [forall₂_cons_left_iff]
    simp only [physicalCol_evaluates present, ih]
    constructor
    · rintro ⟨_, _, rfl, rfl, rfl⟩
      rfl
    · rintro rfl
      exact ⟨_, _, rfl, rfl, rfl⟩

theorem writeAad_eq_ok_iff (bound : provider.rowBindingAad = true)
    (written : List.Forall₂ (fun name key => columnNamed batch (namePrefix ++ name) = some key)
      provider.primaryKey keys) :
    provider.writeAad typeName namePrefix batch = .ok result ↔
      keys.length ≤ 255 ∧ (∀ key ∈ keys, canCastToBinary key.dataType = true) ∧
        aadSize typeName (keys.map castBytes) batch.numRows ≤ maxOffset ∧
        result = aadColumn typeName (keys.map castBytes) batch.numRows := by
  have nonempty : keys ≠ [] := by
    intro none
    subst none
    exact provider.key_of_binding bound (forall₂_nil_right_iff.mp written)
  have sized : ∀ key ∈ keys, key.rows.length = batch.numRows := by
    intro key member
    obtain ⟨name, _, present⟩ := Rows.exists_of_forall₂_right written member
    obtain ⟨index, _, found⟩ := Option.bind_eq_some_iff.mp present
    exact length_rows_of_getElem? found
  rw [← evaluateAad_arrays_iff nonempty sized]
  unfold MySqlTableProvider.writeAad MySqlTableProvider.getAadSourcePhysical computeAadExpr
  rw [if_pos bound, bind_eq_ok_iff]
  constructor
  · rintro ⟨source, planned, rest⟩
    obtain ⟨evaluated, evaluates, computed⟩ := bind_eq_ok_iff.mp rest
    have same := (physicalCols_evaluate written).mp
      (mapM_mapM_eq_ok_iff.mp ⟨source, planned, evaluates⟩)
    rwa [same] at computed
  · intro computed
    obtain ⟨source, planned, evaluates⟩ :=
      mapM_mapM_eq_ok_iff.mpr ((physicalCols_evaluate written).mpr rfl)
    exact ⟨source, planned, bind_eq_ok_iff.mpr ⟨_, evaluates, computed⟩⟩

def encodedArray (column : ArrowArray) : ArrowArray :=
  .ofBinary (column.rows.map (encodedValue column.dataType))

theorem castBytes_encodedArray (column : ArrowArray) :
    castBytes (encodedArray column) = readBytes column := by
  apply congrArg entryBytes
  show ((column.rows.map (encodedValue column.dataType)).map (ScalarValue.bytes .binary)).map
    castValueToBinary = column.rows.map (encodedValue column.dataType)
  rw [map_map]
  exact map_id' _

/-- The columns that logical columns denote have a binary form. -/
abbrev Denotes (table : ResolvedTableReference) (batch : RecordBatch) (column : Column)
    (array : ArrowArray) : Prop :=
  columnDenoted table batch column = some array ∧ encodable array.dataType = true

theorem planColumns_evaluate {names : List Column} :
    List.Forall₂ (fun column value => ∃ expr, planColumn table batch.names column = .ok expr ∧
        (expr batch >>= encodeColumnarValueToBinary) = .ok value) names values ↔
      ∃ arrays, List.Forall₂ (Denotes table batch) names arrays ∧
        (∀ array ∈ arrays, ((readBytes array).map List.length).sum ≤ maxOffset) ∧
        values = (arrays.map encodedArray).map .array := by
  simp only [planColumn_evaluates, encodeColumnarValueToBinary_array_iff, size_eq_entryBytes]
  constructor
  · intro related
    induction related with
    | nil => exact ⟨[], .nil, fun _ member => (by cases member), rfl⟩
    | cons here _ ih =>
      obtain ⟨array, denoted, typed, fits, rfl⟩ := here
      obtain ⟨arrays, others, fit, rfl⟩ := ih
      refine ⟨array :: arrays, .cons ⟨denoted, typed⟩ others, ?_, rfl⟩
      exact forall_mem_cons.mpr ⟨fits, fit⟩
  · rintro ⟨arrays, denote, fit, rfl⟩
    induction denote with
    | nil => exact .nil
    | cons here _ ih =>
      obtain ⟨fits, others⟩ := forall_mem_cons.mp fit
      exact .cons ⟨_, here.1, here.2, fits, rfl⟩ (ih others)

theorem readAad_eq_ok_iff (bound : provider.rowBindingAad = true) :
    provider.readAad classes typeName batch = .ok result ↔
      ∃ columns, columns.length ≤ 255 ∧
        List.Forall₂ (Denotes provider.tableReference batch)
          (provider.primaryKey.map (Column.fromQualifiedName classes)) columns ∧
        aadSize typeName (columns.map readBytes) batch.numRows ≤ maxOffset ∧
        result = aadColumn typeName (columns.map readBytes) batch.numRows := by
  have sourceIs : provider.getAadSource classes =
      provider.primaryKey.map (Column.fromQualifiedName classes) := if_pos bound
  have bytes : ∀ columns : List ArrowArray,
      (columns.map encodedArray).map castBytes = columns.map readBytes := by
    intro columns
    rw [map_map]
    exact map_congr_left fun column _ => castBytes_encodedArray column
  -- the additional data of converted columns, which all can be cast
  have computes : ∀ columns, List.Forall₂ (Denotes provider.tableReference batch)
      (provider.primaryKey.map (Column.fromQualifiedName classes)) columns →
      (evaluateAad noSlots typeName batch.numRows ((columns.map encodedArray).map .array) = .ok result ↔
        columns.length ≤ 255 ∧ aadSize typeName (columns.map readBytes) batch.numRows ≤ maxOffset ∧
          result = aadColumn typeName (columns.map readBytes) batch.numRows) := by
    intro columns denote
    have nonempty : columns.map encodedArray ≠ [] := by
      intro none
      rw [map_eq_nil_iff] at none
      subst none
      have empty := forall₂_nil_right_iff.mp denote
      exact provider.key_of_binding bound (map_eq_nil_iff.mp empty)
    have sized : ∀ array ∈ columns.map encodedArray, array.rows.length = batch.numRows := by
      intro array member
      obtain ⟨column, there, rfl⟩ := mem_map.mp member
      obtain ⟨name, _, denoted⟩ := Rows.exists_of_forall₂_right denote there
      obtain ⟨index, _, found⟩ := Option.bind_eq_some_iff.mp denoted.1
      rw [encodedArray, ArrowArray.ofBinary, length_map, length_map]
      exact length_rows_of_getElem? found
    have casts : ∀ array ∈ columns.map encodedArray, canCastToBinary array.dataType = true := by
      intro array member
      obtain ⟨column, _, rfl⟩ := mem_map.mp member
      rfl
    rw [evaluateAad_arrays_iff nonempty sized, bytes, length_map]
    exact ⟨fun ⟨few, _, rest⟩ => ⟨few, rest⟩, fun ⟨few, rest⟩ => ⟨few, casts, rest⟩⟩
  unfold MySqlTableProvider.readAad computeAadUdf
  rw [sourceIs, bind_eq_ok_iff]
  constructor
  · rintro ⟨source, planned, rest⟩
    obtain ⟨values, evaluates, computed⟩ := bind_eq_ok_iff.mp rest
    obtain ⟨columns, denote, _, rfl⟩ := planColumns_evaluate.mp
      (mapM_mapM_eq_ok_iff.mp ⟨source, planned, evaluates⟩)
    obtain ⟨few, fits, same⟩ := (computes columns denote).mp computed
    exact ⟨columns, few, denote, fits, same⟩
  · rintro ⟨columns, few, denote, fits, same⟩
    have each : ∀ column ∈ columns, ((readBytes column).map length).sum ≤ maxOffset := by
      intro column member
      obtain ⟨name, _, denoted⟩ := Rows.exists_of_forall₂_right denote member
      obtain ⟨index, _, found⟩ := Option.bind_eq_some_iff.mp denoted.1
      have length : (readBytes column).length = batch.numRows := by
        rw [readBytes, entryBytes, length_map, length_map]
        exact length_rows_of_getElem? found
      exact Nat.le_trans (size_le_aadRows _ (mem_map_of_mem member) length) fits
    obtain ⟨source, planned, evaluates⟩ := mapM_mapM_eq_ok_iff.mpr
      (planColumns_evaluate.mpr ⟨columns, denote, each, rfl⟩)
    have computed := (computes columns denote).mpr ⟨few, fits, same⟩
    exact ⟨source, planned, bind_eq_ok_iff.mpr ⟨_, evaluates, computed⟩⟩

theorem aadRows_eq_of_rows {first second : List (List Bytes)} {numRows : Nat}
    (count : first.length = second.length)
    (same : (aadColumn typeName first numRows).rows numRows =
      (aadColumn typeName second numRows).rows numRows) :
    aadRows (baseAad typeName first.length) first numRows =
      aadRows (baseAad typeName first.length) second numRows := by
  have rows : ((aadRows (baseAad typeName first.length) first numRows).map some).map
      (ScalarValue.bytes .binary) =
      ((aadRows (baseAad typeName second.length) second numRows).map some).map
        (ScalarValue.bytes .binary) := same
  rw [← count, map_map, map_map] at rows
  apply map_injective_iff.mpr _ rows
  intro left right equal
  cases equal
  rfl

theorem forall₂_readsKey_iff :
    List.Forall₂ (ReadsKey classes table batch) names keys ↔
      (∀ key ∈ keys, canCastToBinary key.dataType = true) ∧
        ∃ columns, List.Forall₂ (Denotes table batch)
          (names.map (Column.fromQualifiedName classes)) columns ∧
          keys.map castBytes = columns.map readBytes := by
  constructor
  · intro reads
    induction reads with
    | nil => exact ⟨fun _ member => (by cases member), [], .nil, rfl⟩
    | cons here _ ih =>
      obtain ⟨casts, column, denoted, typed, same⟩ := here
      obtain ⟨others, columns, denote, sames⟩ := ih
      refine ⟨forall_mem_cons.mpr ⟨casts, others⟩, column :: columns,
        .cons ⟨denoted, typed⟩ denote, ?_⟩
      rw [map_cons, map_cons, same, sames]
  · rintro ⟨casts, columns, denote, same⟩
    have denoteNames := forall₂_map_left_iff.mp denote
    clear denote
    induction denoteNames generalizing keys with
    | nil =>
      rw [map_nil, map_eq_nil_iff] at same
      subst same
      exact .nil
    | cons here _ ih =>
      cases keys with
      | nil => cases same
      | cons key keys =>
        rw [map_cons, map_cons, cons.injEq] at same
        obtain ⟨keyCasts, others⟩ := forall_mem_cons.mp casts
        exact .cons ⟨keyCasts, _, here.1, here.2, same.1.symm⟩ (ih others same.2)

/-- Both paths compute the same additional data exactly if the key has at most 255 columns, all
of types that are cast to binary, the names are read as columns with the same bytes, and the
additional data fits in a column. -/
theorem writeAad_eq_readAad_iff (bound : provider.rowBindingAad = true) {namePrefix : String}
    {write read : RecordBatch} (sameRows : write.numRows = read.numRows)
    {keys : List ArrowArray}
    (written : List.Forall₂ (fun name key => columnNamed write (namePrefix ++ name) = some key)
      provider.primaryKey keys) :
    (∃ writeResult readResult, provider.writeAad typeName namePrefix write = .ok writeResult ∧
        provider.readAad classes typeName read = .ok readResult ∧
        writeResult.rows write.numRows = readResult.rows read.numRows) ↔
      keys.length ≤ 255 ∧
        List.Forall₂ (ReadsKey classes provider.tableReference read) provider.primaryKey keys ∧
        aadSize typeName (keys.map castBytes) write.numRows ≤ maxOffset := by
  rw [forall₂_readsKey_iff]
  constructor
  · rintro ⟨writeResult, readResult, wrote, readOk, same⟩
    obtain ⟨few, casts, fits, rfl⟩ := (writeAad_eq_ok_iff bound written).mp wrote
    obtain ⟨columns, _, denote, readFits, rfl⟩ := (readAad_eq_ok_iff bound).mp readOk
    refine ⟨few, ⟨casts, columns, denote, ?_⟩, fits⟩
    rw [← sameRows] at same readFits
    have count : (keys.map castBytes).length = (columns.map readBytes).length := by
      rw [length_map, length_map, ← written.length_eq, ← denote.length_eq, length_map]
    have keysSized : ∀ column ∈ keys.map castBytes, column.length = write.numRows := by
      intro column member
      obtain ⟨key, there, rfl⟩ := mem_map.mp member
      obtain ⟨name, _, present⟩ := Rows.exists_of_forall₂_right written there
      obtain ⟨index, _, found⟩ := Option.bind_eq_some_iff.mp present
      rw [castBytes, entryBytes, length_map, length_map]
      exact length_rows_of_getElem? found
    have columnsSized : ∀ column ∈ columns.map readBytes, column.length = write.numRows := by
      intro column member
      obtain ⟨array, there, rfl⟩ := mem_map.mp member
      obtain ⟨name, _, denoted⟩ := Rows.exists_of_forall₂_right denote there
      obtain ⟨index, _, found⟩ := Option.bind_eq_some_iff.mp denoted.1
      rw [readBytes, entryBytes, length_map, length_map, sameRows]
      exact length_rows_of_getElem? found
    have small : maxOffset < 2 ^ 64 := by decide
    apply aadRows_inj count keysSized columnsSized _ _ (aadRows_eq_of_rows count same)
    · intro column member
      have part := size_le_aadRows (baseAad typeName (keys.map castBytes).length) member
        (keysSized column member)
      exact Nat.lt_of_le_of_lt (Nat.le_trans part fits) small
    · intro column member
      have part := size_le_aadRows (baseAad typeName (columns.map readBytes).length) member
        (columnsSized column member)
      exact Nat.lt_of_le_of_lt (Nat.le_trans part readFits) small
  · rintro ⟨few, ⟨casts, columns, denote, same⟩, fits⟩
    have count : columns.length = keys.length := by
      rw [← denote.length_eq, length_map, written.length_eq]
    refine ⟨_, _, (writeAad_eq_ok_iff bound written).mpr ⟨few, casts, fits, rfl⟩,
      (readAad_eq_ok_iff bound).mpr ⟨columns, count ▸ few, denote, ?_, rfl⟩, ?_⟩
    · rw [← same, ← sameRows]
      exact fits
    · rw [← same, ← sameRows]

end

theorem lookup_id : [("secret", DataType.text .utf8)].lookup "id" = none := rfl

def usersTable (keyName : String) (keyType : DataType)
    (plain : [("secret", DataType.text .utf8)].lookup keyName = none) : MySqlTableProvider where
  tableReference := ⟨"def", "app", "users"⟩
  tableSchema := [⟨keyName, keyType⟩, ⟨"secret", .text .utf8⟩]
  encryptedColumns := [("secret", .text .utf8)]
  primaryKey := [keyName]
  rowBindingAad := true
  keyColumns_plain := by
    intro name member
    rw [List.mem_singleton.mp member]
    exact plain
  key_of_binding := fun _ => List.cons_ne_nil _ _

def oneRow (value : ScalarValue) : ArrowArray := toArrayOfSize value 1

def oneRowBatch (name : String) (value : ScalarValue) : RecordBatch where
  names := [name]
  columns := [oneRow value]
  numRows := 1
  named := rfl
  sized := by
    intro column member
    rw [List.mem_singleton.mp member]
    rfl

def userKey : ScalarValue := .primitive .int32 (some 5)

/-- The additional data of a row with a lower-case integer key agrees. -/
theorem writeAad_eq_readAad_user :
    ∃ writeResult readResult,
      (usersTable "id" (.primitive .int32) rfl).writeAad [85] "__pr_flt__"
        (oneRowBatch "__pr_flt__id" userKey) = .ok writeResult ∧
      (usersTable "id" (.primitive .int32) rfl).readAad .ascii [85]
        (oneRowBatch "id" userKey) = .ok readResult ∧
      writeResult.rows 1 = readResult.rows 1 := by
  have written : List.Forall₂ (fun name key =>
      columnNamed (oneRowBatch "__pr_flt__id" userKey) ("__pr_flt__" ++ name) = some key)
      (usersTable "id" (.primitive .int32) rfl).primaryKey [oneRow userKey] :=
    .cons rfl .nil
  have stored : columnNamed (oneRowBatch "id" userKey) "id" = some (oneRow userKey) := rfl
  have plain : Column.fromQualifiedName .ascii "id" = .fromName "id" := by decide +kernel
  have sameRows : (oneRowBatch "__pr_flt__id" userKey).numRows =
    (oneRowBatch "id" userKey).numRows := rfl
  refine (writeAad_eq_readAad_iff rfl sameRows written).mpr ⟨?_, ?_, ?_⟩
  · decide
  · exact .cons (ReadsKey.of_name plain stored rfl) .nil
  · decide +kernel

/-- The read path does not find a key column with an upper-case letter, and the write path does
not cast a date. -/
theorem writeAad_ne_readAad :
    (∃ message, (usersTable "Id" (.primitive .int32) rfl).readAad .ascii [85]
        (oneRowBatch "Id" userKey) = .error (.execution message)) ∧
      ∃ message, (usersTable "day" (.primitive .date32) rfl).writeAad [85] ""
        (oneRowBatch "day" (.primitive .date32 (some 5))) = .error (.execution message) :=
  ⟨⟨_, rfl⟩, ⟨_, rfl⟩⟩

end SecureFusion.Providers
