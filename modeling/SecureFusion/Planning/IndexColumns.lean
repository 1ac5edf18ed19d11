import SecureFusion.Planning.Delete
import SecureFusion.Planning.TableWrites

/-!
# Hidden columns of indices in runs

Every statement that sets an indexed column under its plain name sets the hidden column of
the index with it. The clause for rows that exist sets an indexed column alone: the hidden
column keeps what was computed from the old value.
-/

namespace SecureFusion.Planning

open Library Sql Crypto Filtering Providers Sinks Server Indices MySqlTableProvider List

def plaintext : Cell → ScalarValue
  | .plain value => value
  | .ciphertext _ _ value => value

/-- A hidden column holds what its index computes from the indexed column, which is a null for a
null. -/
structure InSync (added : AddedColumn) (stored : StoredRow) : Prop where
  computed : ∃ value,
    added.forArray (plaintext (stored (utf8Bytes added.indexedColumn))) = some value ∧
      stored (utf8Bytes added.indexColumnName) = .plain value
  null : (plaintext (stored (utf8Bytes added.indexedColumn))).isNull = true →
    (plaintext (stored (utf8Bytes added.indexColumnName))).isNull = true

variable {added : AddedColumn}

theorem InSync.of_computed {stored : StoredRow} {source value : ScalarValue}
    (isSource : plaintext (stored (utf8Bytes added.indexedColumn)) = source)
    (computed : added.forArray source = some value)
    (isStored : stored (utf8Bytes added.indexColumnName) = .plain value) : InSync added stored where
  computed := ⟨value, isSource ▸ computed, isStored⟩
  null := by
    intro isNull
    rw [isStored]
    exact added.null source value computed (isSource ▸ isNull)

theorem InSync.of_same {stored after : StoredRow} (sync : InSync added stored)
    (indexed : after (utf8Bytes added.indexedColumn) = stored (utf8Bytes added.indexedColumn))
    (hidden : after (utf8Bytes added.indexColumnName) = stored (utf8Bytes added.indexColumnName)) :
    InSync added after := by
  obtain ⟨⟨value, computed, isStored⟩, -⟩ := sync
  exact .of_computed (congrArg plaintext indexed) computed (hidden.trans isStored)

namespace Writer

variable (writer : Writer)

def Arrives (name : String) (value : ScalarValue) : Prop :=
  writer.provider.getColumnMetadata name ≠ none ∨ bindable value = true

/-- The statements that keep the hidden columns in sync: no clause for rows that exist assigns an
indexed or a hidden column, and what is written to an indexed column arrives. -/
def KeepsIndexed (_ : List StoredRow) : Write → Prop
  | .insert insert =>
    (∀ target ∈ insert.targets, target ∈ writer.provider.columnNames ∧
      ∀ added ∈ writer.indices.addedColumns, target ≠ added.indexedColumn) ∧
    ∀ row ∈ insert.rows, ∀ added ∈ writer.indices.addedColumns,
      writer.Arrives added.indexedColumn (row added.indexedColumn)
  | .update update selected =>
    ∀ row ∈ selected, ∀ added ∈ writer.indices.addedColumns,
      writer.Arrives added.indexedColumn (update.newRow writer.semantics row added.indexedColumn)

variable {writer}

theorem WellFormed.plaintext_arrived (wellFormed : writer.WellFormed) {name : String}
    {value : ScalarValue} (arrives : writer.Arrives name value) (key : List ScalarValue) :
    plaintext (writer.server.arrived
      (writer.provider.sealCell writer.typeName key name value)) = value := by
  rw [sealCell]
  cases metadata : writer.provider.getColumnMetadata name with
  | none =>
    have sent : bindable value = true := arrives.resolve_left fun encrypted => encrypted metadata
    have arrived : writer.server.arrived (.plain value) = .plain value :=
      writer.server.arrived_of_bindable sent
    exact congrArg plaintext arrived
  | some type =>
    dsimp only
    split_ifs with isNull
    · rw [TableServer.arrived, wellFormed.nulls value isNull]
      rfl
    · rw [TableServer.arrived, writer.server.bind_ciphertext]
      rfl

section Assigned

variable (wellFormed : writer.WellFormed) {kind : WriteKind} {planned : List PlannedColumn}
  (writable : Writable writer.provider writer.indices kind planned)
  {input : PlannedColumn → ScalarValue} (isAdded : added ∈ writer.indices.addedColumns)
  {stored : StoredRow}

include wellFormed writable isAdded

theorem WellFormed.inSync_assigned
    (computed : writer.indices.addedValues (planned.map PlannedColumn.fieldName) input =
      .ok (writer.indices.addedOf planned input))
    (isIn : ⟨.value, added.indexedColumn⟩ ∈ planned)
    (arrives : writer.Arrives added.indexedColumn (input ⟨.value, added.indexedColumn⟩)) :
    InSync added (writer.server.assignRole (writer.indices.sinkColumns planned) .value
      (writer.provider.inputCell writer.typeName writer.indices kind planned input) stored) := by
  have distinct := writable.nodup_sinkColumns wellFormed.named
  have isIndexed : ⟨.value, added.indexedColumn⟩ ∈ writer.indices.sinkColumns planned :=
    mem_sinkColumns_iff.mpr (.inl isIn)
  have isHidden : ⟨.value, added.indexColumnName⟩ ∈ writer.indices.sinkColumns planned :=
    (writable.hidden_mem_iff wellFormed.named isAdded).mpr isIn
  have value := wellFormed.named.withAdded_hidden computed isAdded isIn
  refine .of_computed ?_ value ?_
  · rw [assignRole_of_mem distinct isIndexed, inputCell,
      writable.insertTarget_eq wellFormed.named isIndexed (.inl rfl),
      writable.withAdded_planned wellFormed.named computed isIn]
    exact wellFormed.plaintext_arrived arrives _
  · have plain := wellFormed.named.hidden_plain isAdded
    rw [assignRole_of_mem distinct isHidden, inputCell,
      writable.insertTarget_eq wellFormed.named isHidden (.inl rfl), sealCell, plain]
    exact writer.server.arrived_of_bindable (added.arrives _ _ value)

omit writable in
theorem WellFormed.inSync_unassigned {role : ColumnRole} (sync : InSync added stored)
    (indexed : ⟨role, added.indexedColumn⟩ ∉ planned)
    (hidden : ⟨role, added.indexColumnName⟩ ∉ writer.indices.sinkColumns planned) :
    InSync added (writer.server.assignRole (writer.indices.sinkColumns planned) role
      (writer.provider.inputCell writer.typeName writer.indices kind planned input) stored) := by
  have notIndexed : ⟨role, added.indexedColumn⟩ ∉ writer.indices.sinkColumns planned := fun isIn =>
    indexed (wellFormed.mem_planned (wellFormed.named.indexed added isAdded) isIn)
  exact sync.of_same (assignRole_of_notMem notIndexed) (assignRole_of_notMem hidden)

end Assigned

theorem WellFormed.execute_keeps_inSync (wellFormed : writer.WellFormed) {write : Write}
    {rows final : List StoredRow} (allowed : writer.KeepsIndexed rows write)
    (executed : writer.execute rows write = .ok final)
    (before : ∀ stored ∈ rows, ∀ added ∈ writer.indices.addedColumns, InSync added stored) :
    ∀ stored ∈ final, ∀ added ∈ writer.indices.addedColumns, InSync added stored := by
  cases write with
  | insert insert =>
    obtain ⟨targets, arrive⟩ := allowed
    have columns : ∀ target ∈ insert.targets, target ∈ writer.provider.columnNames :=
      fun target isTarget => (targets target isTarget).1
    refine wellFormed.insert_keeps columns executed before fun plan accepted row isIn computed => ?_
    obtain ⟨isPlanned, writable⟩ := wellFormed.writable_insert columns accepted
    refine ⟨fun added isAdded => ?_, fun stored _ sync added isAdded => ?_⟩
    · have isColumn := wellFormed.named.indexed added isAdded
      have isValue : ⟨.value, added.indexedColumn⟩ ∈ plan.planned := by
        rw [isPlanned]
        exact mem_append_left _ (mem_append_left _ (mem_map_of_mem isColumn))
      refine wellFormed.inSync_assigned writable isAdded computed isValue ?_
      rw [wellFormed.insertInput_value plan row isColumn]
      exact arrive row isIn added isAdded
    · have notTarget : ∀ name, ⟨.duplicate, name⟩ ∈ plan.planned → name ∈ insert.targets := by
        intro name isName
        rw [isPlanned] at isName
        simpa using isName
      refine wellFormed.inSync_unassigned isAdded (sync added isAdded) ?_ ?_
      · intro isDuplicate
        exact (targets _ (notTarget _ isDuplicate)).2 added isAdded rfl
      · intro isDuplicate
        rcases mem_sinkColumns_iff.mp isDuplicate with isName | ⟨_, _, _, same⟩
        · have isColumn := columns _ (notTarget _ isName)
          have isHidden : added.indexColumnName ∈ writer.indices.hiddenNames :=
            mem_append_right _ (mem_map_of_mem isAdded)
          exact (nodup_append.mp wellFormed.named.distinct).2.2 _ isColumn _ isHidden rfl
        · cases same
  | update update selected =>
    refine wellFormed.update_keeps executed before fun plan accepted row isIn computed stored _ sync
      added isAdded => ?_
    have writable := wellFormed.writable_update accepted
    have planned := planned_of_accepted accepted
    by_cases isValue : ⟨.value, added.indexedColumn⟩ ∈ plan.planned
    · refine wellFormed.inSync_assigned writable isAdded computed isValue ?_
      rw [updateInput_value planned row ((mem_planned_value_iff planned).mp isValue)]
      exact allowed row isIn added isAdded
    · refine wellFormed.inSync_unassigned isAdded (sync added isAdded) isValue ?_
      rwa [writable.hidden_mem_iff wellFormed.named isAdded]

/-- In every run in which no clause for rows that exist assigns an indexed or a hidden column, and
what is written to indexed columns arrives, every hidden column of every row holds what its index
computes from the current value of the indexed column. -/
theorem WellFormed.index_columns_in_sync (wellFormed : writer.WellFormed)
    {start final : List StoredRow} (reaches : writer.Reaches writer.KeepsIndexed start final)
    (before : ∀ stored ∈ start, ∀ added ∈ writer.indices.addedColumns, InSync added stored) :
    ∀ stored ∈ final, ∀ added ∈ writer.indices.addedColumns, InSync added stored :=
  reaches.induction writer before fun _ _ _ allowed executed =>
    wellFormed.execute_keeps_inSync allowed executed

end Writer

/-! ## A table of users with a blind index -/

def secretIndex : BlindIndex := ⟨"by_secret", "secret", 16, "prox_blid_by_secret_16"⟩

/-- The writer of users whose identifiers tell the secret "a" from others. -/
def usersWriter : Writer where
  provider := usersTable "id" (.primitive .int32) lookup_id
  server := usersServer
  indices := {
    addedColumns := [secretIndex.addedColumn (BlindIndex.tellsApart (utf8Bytes "a"))
      ⟨"def", "app", "users"⟩]
    demands := ⟨["secret"], [], none⟩
    additional := fun _ => []
    tracked := by decide +kernel }
  typeName := fun _ => []
  semantics := .basic
  operations := ⟨id, fun _ left _ => left, fun _ _ => .null, fun _ _ => .null⟩
  known := fun _ => false
  rowId := fun _ => .null

theorem usersWriter_wellFormed : usersWriter.WellFormed where
  named := {
    schema := by decide +kernel
    table := by decide +kernel
    words := by decide +kernel
    distinct := by decide +kernel
    unmarked := by decide +kernel
    indexed := by decide +kernel
    encrypted := by decide +kernel
    key := by decide +kernel }
  columns := by decide +kernel
  nulls := fun _ _ => rfl

def firstUser (secret : String) : Row := fun name => if name = "id" then int32 1 else utf8 secret

/-- INSERT of the first user; if it exists, some columns get the inserted values. -/
def insertUser (secret : String) (targets : List String) : Insert :=
  ⟨[firstUser secret], targets.map fun column =>
    ⟨[column], .function "values" [.identifier column]⟩⟩

theorem targets_insertUser (secret : String) (targets : List String) :
    (insertUser secret targets).targets = targets := by
  simp [Insert.targets, insertUser, filterMap_map, Function.comp_def]

/-- The clause for rows that exist assigns the number of the user: the hidden column stays in
sync. -/
theorem index_columns_in_sync_users :
    ∃ final, usersWriter.Reaches usersWriter.KeepsIndexed [] final ∧ final ≠ [] ∧
      ∀ stored ∈ final, ∀ added ∈ usersWriter.indices.addedColumns, InSync added stored := by
  have run : ((usersWriter.execute [] (.insert (insertUser "a" []))).toOption.any fun first =>
      (usersWriter.execute first (.insert (insertUser "b" ["id"]))).toOption.any fun final =>
        !final.isEmpty) = true := by
    decide +kernel
  obtain ⟨first, inserted, run⟩ := Outcome.exists_ok_of_any run
  obtain ⟨final, updated, isSome⟩ := Outcome.exists_ok_of_any run
  have arrives : ∀ secret, ∀ row ∈ (insertUser secret []).rows,
      ∀ added ∈ usersWriter.indices.addedColumns,
        usersWriter.Arrives added.indexedColumn (row added.indexedColumn) := by
    intro secret row _ added isAdded
    rw [mem_singleton.mp isAdded]
    exact .inl nofun
  have allowed : ∀ secret rows, ∀ targets ∈ [[], ["id"]],
      usersWriter.KeepsIndexed rows (.insert (insertUser secret targets)) := by
    intro secret rows targets isIn
    refine ⟨?_, arrives secret⟩
    rw [targets_insertUser]
    revert targets
    decide +kernel
  have reaches := Writer.Reaches.step
    (.step .refl (allowed "a" [] [] (by decide)) inserted)
    (allowed "b" first ["id"] (by decide)) updated
  refine ⟨final, reaches, ?_, usersWriter_wellFormed.index_columns_in_sync reaches nofun⟩
  rintro rfl
  cases isSome

/-- The clause for rows that exist assigns the secret: the hidden column keeps the identifier of the
old secret "a". -/
theorem duplicate_update_loses_sync :
    ∃ first final, usersWriter.execute [] (.insert (insertUser "a" [])) = .ok first ∧
      usersWriter.execute first (.insert (insertUser "b" ["secret"])) = .ok final ∧
      ∃ stored ∈ final, plaintext (stored (utf8Bytes "secret")) = utf8 "b" ∧
        stored (utf8Bytes "prox_blid_by_secret_16") =
          .plain (.bytes .binary (some (utf8Bytes "00"))) ∧
        ∃ added ∈ usersWriter.indices.addedColumns, ¬ InSync added stored := by
  have run : ((usersWriter.execute [] (.insert (insertUser "a" []))).toOption.any fun first =>
      (usersWriter.execute first (.insert (insertUser "b" ["secret"]))).toOption.any fun final =>
        final.any fun stored => decide (plaintext (stored (utf8Bytes "secret")) = utf8 "b" ∧
          stored (utf8Bytes "prox_blid_by_secret_16") =
            .plain (.bytes .binary (some (utf8Bytes "00"))))) = true := by
    decide +kernel
  obtain ⟨first, inserted, run⟩ := Outcome.exists_ok_of_any run
  obtain ⟨final, updated, run⟩ := Outcome.exists_ok_of_any run
  obtain ⟨stored, isIn, shown⟩ := any_eq_true.mp run
  obtain ⟨secret, hidden⟩ := of_decide_eq_true shown
  refine ⟨first, final, inserted, updated, stored, isIn, secret, hidden, _,
    mem_singleton_self _, fun sync => ?_⟩
  obtain ⟨value, computed, isStored⟩ := sync.computed
  have isValue : Cell.plain value = .plain (.bytes .binary (some (utf8Bytes "00"))) :=
    isStored.symm.trans hidden
  cases isValue
  change secretIndex.forArray _ _ (plaintext (stored (utf8Bytes "secret"))) = _ at computed
  rw [secret] at computed
  exact absurd computed (by decide +kernel)

end SecureFusion.Planning
