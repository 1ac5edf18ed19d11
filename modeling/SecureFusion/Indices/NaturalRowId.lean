import SecureFusion.Crypto.Decoding
import SecureFusion.Indices.UpdateSink

/-!
# Row ids that are primary keys

A table with a suitable primary key needs no hidden row id: the bytes of the key are the ids of the
inverted index. They are computed when a row is inserted, when it is updated and when the index is
provisioned, and the answers of the index are turned back into literals for the key column.
-/

namespace SecureFusion.Indices

open Library Sql Inverted Crypto

/-! ## The row id column -/

/-- What is looked at in the definition of a primary key column; the Arrow type is missing if there
is none for the type of the column. -/
structure KeyColumnDef where
  name : String
  dataType : Option DataType
  isNullable : Bool
  isAutoIncrement : Bool
  hasDefault : Bool
deriving DecidableEq, Repr

/-- A row id column that is the primary key. -/
structure NaturalRowId where
  columnName : String
  size : RowIdColumnSize
  dataType : DataType
deriving DecidableEq, Repr

/-- The size of the ids for keys of a type. -/
def rowIdSize : DataType → Option RowIdColumnSize
  | .primitive .int8 | .primitive .int16 | .primitive .int32
  | .primitive .uint8 | .primitive .uint16 | .primitive .uint32 => some .size4Bytes
  | .primitive .int64 | .primitive .uint64 => some .size8Bytes
  | .bytes (.fixedSizeBinary size) =>
    if size ≤ 4 then some .size4Bytes
    else if size ≤ 8 then some .size8Bytes
    else if size ≤ 12 then some .size12Bytes
    else if size ≤ 16 then some .size16Bytes
    else none
  | _ => none

/-- The primary key as row id, if it is suitable. -/
def getNaturalIfAny : List KeyColumnDef → Option NaturalRowId
  | [key] =>
    if key.isNullable || key.isAutoIncrement || key.hasDefault then none
    else do
      let dataType ← key.dataType
      let size ← rowIdSize dataType
      return ⟨key.name, size, dataType⟩
  | _ => none

namespace NaturalRowId

variable (column : NaturalRowId)

def rowIdColumn : RowIdColumn := ⟨column.columnName, .directPrimaryKey⟩

/-- The column as answers are turned into literals for it. -/
noncomputable def idColumn : IdColumn column.size where
  name := column.columnName
  dataType := column.dataType
  iterate := Finset.toList
  mem_iterate _ _ := Finset.mem_toList

/-! ## Ids of rows -/

section Insert

variable (castTo : DataType → ScalarValue → Option ScalarValue)

/-- The row id of an inserted row: the key, cast to the type of the key. -/
def rowidBinPhysical (batch : List (String × ScalarValue)) : Option ScalarValue := do
  let base ← batch.lookup column.columnName
  if base.hasType column.dataType then some base else castTo column.dataType base

/-- The columns of a batch are handed to the sinks under their schemas: the ids must be binary. -/
def splitIdColumn (value : ScalarValue) : Evaluated ScalarValue :=
  if dataTypeOf value = .bytes .binary then .ok value
  else .error (.execution "column types must match schema types")

/-- The id that the insert sink computes; none inside for a row that is skipped. -/
def insertId (batch : List (String × ScalarValue)) :
    Evaluated (Option (IndexedDocumentId column.size)) :=
  match column.rowidBinPhysical castTo batch with
  | none => .error (.execution "Schema error")
  | some value => do
    let id ← splitIdColumn value
    match extractIdColumn column.size id with
    | none => .error (.panic "byte array")
    | some id => .ok id

end Insert

/-- The id that the update sink computes; none inside for a row that is skipped. -/
def updateId (batch : List (String × ScalarValue)) :
    Option (Option (IndexedDocumentId column.size)) :=
  (column.rowIdColumn.getIdColumn batch).bind (extractIdColumn column.size)

/-- The id that is computed when the index is provisioned; none inside for a row that is skipped. -/
def provisionId (key : ScalarValue) : Option (Option (IndexedDocumentId column.size)) :=
  (encodeToBinary key).map fun id => id.bind (documentOfBytes column.size)

def currentName : String :=
  (if column.rowIdColumn.isHidden then currentValuePrefix else filterPrefix) ++ column.columnName

end NaturalRowId

/-! ## Keys -/

/-- A value of a primary key. -/
structure KeyValue (dataType : DataType) where
  value : ScalarValue
  typed : value.hasType dataType = true
  notNull : value.isNull = false
  sized : HasFixedSize value

def numberOf : ScalarValue → Option Int
  | .primitive type (some word) => type.key word
  | _ => none

/-- A literal stands for a key: the same number, or the same bytes. -/
def Denotes (literal : ScalarValue) : ScalarValue → Prop
  | .primitive type (some word) => numberOf literal = type.key word
  | .bytes _ (some content) => literal = .bytes .binary (some content)
  | _ => False

def keyBytes : DataType → Nat
  | .primitive type => type.bytes
  | .bytes (.fixedSizeBinary size) => size
  | _ => 0

def NotNegative (key : ScalarValue) : Prop :=
  ∀ number, numberOf key = some number → 0 ≤ number

section Natural

variable {column : NaturalRowId} {primaryKey : List KeyColumnDef} {type : PrimitiveType}
  {size : RowIdColumnSize} {bytes : Bytes} {batch : List (String × ScalarValue)}
  {key : ScalarValue} {length : Nat}

theorem rowIdSize_of_natural (accepted : getNaturalIfAny primaryKey = some column) :
    rowIdSize column.dataType = some column.size := by
  unfold getNaturalIfAny at accepted
  split at accepted
  · split_ifs at accepted
    simp only [bind_some_iff] at accepted
    obtain ⟨dataType, -, size, isSize, same⟩ := accepted
    cases same
    exact isSize
  · cases accepted

theorem type_of_rowIdSize {dataType : DataType} (isSize : rowIdSize dataType = some size) :
    (∃ type, dataType = .primitive type ∧ isInteger type = true ∧ type.bytes ≤ 8 ∧
      size.bytes ≤ 8) ∨ ∃ length, dataType = .bytes (.fixedSizeBinary length) := by
  cases dataType with
  | primitive type =>
    refine .inl ⟨type, rfl, ?_⟩
    cases type <;> cases isSize <;> decide
  | bytes layout =>
    cases layout with
    | fixedSizeBinary length => exact .inr ⟨length, rfl⟩
    | _ => cases isSize
  | _ => cases isSize

theorem KeyValue.exists_word (key : KeyValue (.primitive type)) :
    ∃ word, key.value = .primitive type (some word) := by
  obtain ⟨value, typed, notNull, -⟩ := key
  cases value with
  | primitive other content =>
    have same := of_decide_eq_true typed
    subst same
    cases content with
    | none => cases notNull
    | some word => exact ⟨word, rfl⟩
  | _ => cases typed

theorem KeyValue.exists_content (key : KeyValue (.bytes (.fixedSizeBinary length))) :
    ∃ content, key.value = .bytes (.fixedSizeBinary length) (some content) ∧
      content.length = length := by
  obtain ⟨value, typed, notNull, sized⟩ := key
  cases value with
  | bytes other content =>
    have same := of_decide_eq_true typed
    subst same
    cases content with
    | none => cases notNull
    | some bytes => exact ⟨bytes, rfl, sized⟩
  | _ => cases typed

theorem encodeToBinary_integer (integer : isInteger type = true) (word : BitVec type.width) :
    encodeToBinary (.primitive type (some word)) =
      some (some (leBytes type.bytes word.toNat)) := by
  cases type with
  | decimal256 => cases integer
  | _ => rfl

theorem documentOfBytes_eq_some_iff
    {id : IndexedDocumentId size} : documentOfBytes size bytes = some id ↔ bytes = id.toList := by
  constructor
  · intro found
    unfold documentOfBytes at found
    split_ifs at found
    cases found
    simp
  · rintro rfl
    exact documentOfBytes_toList id

theorem key_eq_toNat_iff (integer : isInteger type = true) (word : BitVec type.width) :
    some (word.toNat : Int) = type.key word ↔
      ∀ number, type.key word = some number → 0 ≤ number := by
  have signed : some (word.toNat : Int) = some word.toInt ↔
      ∀ number, some word.toInt = some number → 0 ≤ number := by
    have reading := word.toInt_eq_toNat_cond
    have bound := word.isLt
    simp only [Option.some.injEq, forall_eq']
    split_ifs at reading <;> omega
  have unsigned : some (word.toNat : Int) = some (word.toNat : Int) ↔
      ∀ number, some (word.toNat : Int) = some number → 0 ≤ number := by
    simp
  cases type <;> first
    | exact signed
    | exact unsigned
    | cases integer

theorem literal_integer_iff (isType : column.dataType = .primitive type)
    (integer : isInteger type = true) (small : type.bytes ≤ 8) (sizeSmall : column.size.bytes ≤ 8)
    {word : BitVec type.width} {id : IndexedDocumentId column.size}
    (isId : leBytes type.bytes word.toNat = id.toList) :
    (∃ literal, column.idColumn.literal id = some literal ∧
        Denotes literal (.primitive type (some word))) ↔
      NotNegative (.primitive type (some word)) := by
  have fits : word.toNat < 256 ^ type.bytes := by
    have bound : word.toNat < 2 ^ (8 * type.bytes) := word.isLt
    rwa [Nat.pow_mul] at bound
  have fitsWord : word.toNat < 2 ^ 64 := by
    have larger : 256 ^ type.bytes ≤ 256 ^ 8 := Nat.pow_le_pow_right (by decide) small
    omega
  have number : column.idColumn.valueIsNumber = true := by
    have same : column.idColumn.dataType = .primitive type := isType
    rw [IdColumn.valueIsNumber, same]
    cases type <;> first
      | rfl
      | cases integer
  have literal : column.idColumn.literal id =
      some (.primitive .uint64 (some (BitVec.ofNat 64 word.toNat))) := by
    rw [IdColumn.literal, if_pos number, asU64, if_pos sizeSmall, ← isId, ofLeBytes_leBytes,
      Nat.mod_eq_of_lt fits]
    rfl
  have denoted : numberOf (.primitive .uint64 (some (BitVec.ofNat 64 word.toNat))) =
      some (word.toNat : Int) := by
    change some ((BitVec.ofNat 64 word.toNat).toNat : Int) = _
    rw [BitVec.toNat_ofNat, Nat.mod_eq_of_lt fitsWord]
  rw [literal]
  simp only [Option.some.injEq, exists_eq_left', Denotes, denoted]
  exact key_eq_toNat_iff integer word

theorem literal_bytes (isType : column.dataType = .bytes (.fixedSizeBinary length))
    (id : IndexedDocumentId column.size) :
    column.idColumn.literal id = some (.bytes .binary (some id.toList)) := by
  have same : column.idColumn.dataType = .bytes (.fixedSizeBinary length) := isType
  have noNumber : column.idColumn.valueIsNumber = false := by
    rw [IdColumn.valueIsNumber, same]
  rw [IdColumn.literal, noNumber]
  rfl

theorem dataTypeOf_natural (isSize : rowIdSize column.dataType = some column.size)
    (key : KeyValue column.dataType) : dataTypeOf key.value ≠ .bytes .binary := by
  obtain ⟨name, size, dataType⟩ := column
  rcases type_of_rowIdSize isSize with ⟨type, rfl, -⟩ | ⟨length, rfl⟩
  · obtain ⟨word, isKey⟩ := key.exists_word
    rw [isKey]
    nofun
  · obtain ⟨content, isKey, -⟩ := key.exists_content
    rw [isKey]
    nofun

theorem insertId_fails (castTo : DataType → ScalarValue → Option ScalarValue)
    (isSize : rowIdSize column.dataType = some column.size) (key : KeyValue column.dataType)
    (isInserted : batch.lookup column.columnName = some key.value) :
    column.insertId castTo batch = .error (.execution "column types must match schema types") := by
  have projected : column.rowidBinPhysical castTo batch = some key.value := by
    rw [NaturalRowId.rowidBinPhysical, isInserted]
    exact if_pos key.typed
  rw [NaturalRowId.insertId, projected]
  dsimp only
  rw [NaturalRowId.splitIdColumn, if_neg (dataTypeOf_natural isSize key)]
  rfl

theorem updateId_eq (isUpdated : batch.lookup column.currentName = some key) :
    column.updateId batch = column.provisionId key := by
  have found : column.rowIdColumn.getIdColumn batch =
      (encodeToBinary key).map (.bytes .binary) := by
    rw [NaturalRowId.currentName] at isUpdated
    unfold RowIdColumn.getIdColumn RowIdColumn.rowidBinPhysicalPrefixed
    split_ifs with hidden
    · rw [if_pos hidden] at isUpdated
      rw [NaturalRowId.rowIdColumn, isUpdated]
      rfl
    · rw [if_neg hidden] at isUpdated
      rw [NaturalRowId.rowIdColumn, isUpdated]
      rfl
  rw [NaturalRowId.updateId, found, NaturalRowId.provisionId]
  cases encodeToBinary key with
  | none => rfl
  | some id => rfl

theorem provisionId_eq_some_iff (encoded : encodeToBinary key = some (some bytes))
    (id : IndexedDocumentId column.size) :
    column.provisionId key = some (some id) ↔ bytes = id.toList := by
  rw [NaturalRowId.provisionId, encoded, Option.map_some, Option.some.injEq, Option.bind_some,
    documentOfBytes_eq_some_iff]

theorem exists_id_iff :
    (∃ id : IndexedDocumentId size, bytes = id.toList) ↔ bytes.length = size.bytes := by
  constructor
  · rintro ⟨id, rfl⟩
    exact Vector.length_toList
  · intro length
    exact ⟨⟨bytes.toArray, length⟩, rfl⟩

theorem provisioned_iff (isSize : rowIdSize column.dataType = some column.size)
    (key : KeyValue column.dataType) :
    (∃ id, column.provisionId key.value = some (some id) ∧
        ∃ literal, column.idColumn.literal id = some literal ∧ Denotes literal key.value) ↔
      keyBytes column.dataType = column.size.bytes ∧ NotNegative key.value := by
  obtain ⟨name, size, dataType⟩ := column
  rcases type_of_rowIdSize isSize with ⟨type, rfl, integer, small, sizeSmall⟩ | ⟨length, rfl⟩
  · obtain ⟨word, isKey⟩ := key.exists_word
    rw [isKey]
    have encoded := encodeToBinary_integer integer word
    simp only [provisionId_eq_some_iff encoded]
    have reads : (∃ id : IndexedDocumentId size, leBytes type.bytes word.toNat = id.toList) ↔
        type.bytes = size.bytes := by
      rw [exists_id_iff, length_leBytes]
    change _ ↔ type.bytes = size.bytes ∧ _
    rw [← reads]
    constructor
    · rintro ⟨id, isId, denotes⟩
      exact ⟨⟨id, isId⟩,
        (@literal_integer_iff ⟨name, size, _⟩ type rfl integer small sizeSmall _ _ isId).mp denotes⟩
    · rintro ⟨⟨id, isId⟩, notNegative⟩
      exact ⟨id, isId, (@literal_integer_iff ⟨name, size, _⟩ type rfl integer small sizeSmall _ _
        isId).mpr notNegative⟩
  · obtain ⟨content, isKey, isLength⟩ := key.exists_content
    rw [isKey]
    have encoded : encodeToBinary (.bytes (.fixedSizeBinary length) (some content)) =
        some (some content) := rfl
    have notNegative : NotNegative (.bytes (.fixedSizeBinary length) (some content)) := nofun
    simp only [provisionId_eq_some_iff encoded]
    change _ ↔ length = size.bytes ∧ _
    rw [and_iff_left notNegative, ← isLength, ← exists_id_iff]
    refine exists_congr fun id => and_iff_left_of_imp fun isId => ?_
    exact ⟨_, @literal_bytes ⟨name, size, _⟩ _ rfl id, by rw [Denotes, isId]⟩

end Natural

/-- For every accepted key the insert sink fails, and updates and provisioning compute the same id.
There is one, and the literal for it stands for the key, exactly if the keys of this type have as
many bytes as the ids of the index and the key is not negative. -/
theorem natural_ids_iff (castTo : DataType → ScalarValue → Option ScalarValue)
    (primaryKey : List KeyColumnDef) (column : NaturalRowId)
    (accepted : getNaturalIfAny primaryKey = some column) (key : KeyValue column.dataType)
    (inserted updated : List (String × ScalarValue))
    (isInserted : inserted.lookup column.columnName = some key.value)
    (isUpdated : updated.lookup column.currentName = some key.value) :
    column.insertId castTo inserted = .error (.execution "column types must match schema types") ∧
    column.updateId updated = column.provisionId key.value ∧
    ((∃ id, column.provisionId key.value = some (some id) ∧
        ∃ literal, column.idColumn.literal id = some literal ∧ Denotes literal key.value) ↔
      keyBytes column.dataType = column.size.bytes ∧ NotNegative key.value) :=
  have isSize := rowIdSize_of_natural accepted
  ⟨insertId_fails castTo isSize key isInserted, updateId_eq isUpdated, provisioned_iff isSize key⟩

def integerKey (type : PrimitiveType) : List KeyColumnDef :=
  [⟨"id", some (.primitive type), false, false, false⟩]

def integerValue {type : PrimitiveType} (word : BitVec type.width) :
    KeyValue (.primitive type) where
  value := .primitive type (some word)
  typed := decide_eq_true rfl
  notNull := rfl
  sized := trivial

/-- The key 7 of 32 bits has an id in updates and provisioning, whose literal stands for it. -/
theorem natural_ids_seven :
    ∃ id, NaturalRowId.provisionId ⟨"id", .size4Bytes, .primitive .int32⟩
        (.primitive .int32 (some 7)) = some (some id) ∧
      ∃ literal, (NaturalRowId.idColumn ⟨"id", .size4Bytes, .primitive .int32⟩).literal id =
        some literal ∧ Denotes literal (.primitive .int32 (some 7)) :=
  (natural_ids_iff (fun _ => some) (integerKey .int32) ⟨"id", .size4Bytes, .primitive .int32⟩ rfl
    (integerValue (7 : BitVec 32)) [("id", .primitive .int32 (some 7))]
    [("__pr_flt__id", .primitive .int32 (some 7))] rfl rfl).2.2.mpr
    ⟨rfl, by intro number same; cases same; decide⟩

/-- The insert sink fails for the key 7; the key 7 of 16 bits has no id; and the literal for the id
of the key -1 is 4294967295. -/
theorem natural_ids_differ :
    NaturalRowId.insertId ⟨"id", .size4Bytes, .primitive .int32⟩ (fun _ => some)
        [("id", .primitive .int32 (some 7))] =
      .error (.execution "column types must match schema types") ∧
    getNaturalIfAny (integerKey .int16) = some ⟨"id", .size4Bytes, .primitive .int16⟩ ∧
    NaturalRowId.provisionId ⟨"id", .size4Bytes, .primitive .int16⟩
        (.primitive .int16 (some 7)) = some none ∧
    ∃ id, NaturalRowId.provisionId ⟨"id", .size4Bytes, .primitive .int32⟩
        (.primitive .int32 (some (-1))) = some (some id) ∧
      (NaturalRowId.idColumn ⟨"id", .size4Bytes, .primitive .int32⟩).literal id =
        some (.primitive .uint64 (some 4294967295)) :=
  ⟨rfl, rfl, by decide, #v[255, 255, 255, 255], by decide, by decide⟩

end SecureFusion.Indices
