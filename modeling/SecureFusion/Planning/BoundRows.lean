import SecureFusion.Planning.IndexColumns

/-!
# Ciphertexts that are bound to rows

The additional data of a ciphertext is computed from the primary key in the input of the
statement that writes it: the inserted key in an INSERT, also for a row that exists already,
and the old key in an UPDATE. It stays what it was when the key of the row changes.
-/

namespace SecureFusion.Planning

open Library Sql Crypto Filtering Providers Sinks Server Indices
open MySqlTableProvider List PlannedColumn

variable {name : String}

namespace Writer

variable (writer : Writer) {stored : StoredRow}

/-- Every encrypted cell of a row is the one of its value under the key of the row. -/
def Bound (stored : StoredRow) : Prop :=
  ∃ key, writer.provider.storedKey stored = some key ∧
    ∀ name ∈ writer.provider.encryptedNames, stored (utf8Bytes name) =
      writer.provider.sealCell writer.typeName key name (plaintext (stored (utf8Bytes name)))

def keyOf (row : Row) : List ScalarValue := writer.provider.primaryKey.map row

/-- Rows that may not be in the table together have the same primary key. -/
def ConflictsByKey : Prop :=
  ∀ new stored, writer.server.conflicts new stored = true →
    writer.provider.storedKey new = writer.provider.storedKey stored

/-- The statements that keep ciphertexts bound to their rows. What is written to key columns
arrives, and no key is changed; the clause for rows that exist assigns an encrypted column only if
rows are in conflict by their key alone, and the key of a row that is updated finds no row with
another key. -/
def KeepsBinding (rows : List StoredRow) : Write → Prop
  | .insert insert =>
    (∀ target ∈ insert.targets, target ∈ writer.provider.columnNames ∧
      target ∉ writer.provider.primaryKey ∧
      (target ∈ writer.provider.encryptedNames → writer.ConflictsByKey)) ∧
    ∀ row ∈ insert.rows, ∀ value ∈ writer.keyOf row, bindable value = true
  | .update update selected =>
    ∀ row ∈ selected, (∀ value ∈ writer.keyOf row, bindable value = true) ∧
      writer.keyOf (update.newRow writer.semantics row) = writer.keyOf row ∧
      ∀ stored ∈ rows, writer.server.selects (writer.provider.primaryKey.map utf8Bytes)
          ((writer.keyOf row).map .plain) stored = true →
        writer.provider.storedKey stored = some (writer.keyOf row)

variable {writer}

theorem Bound.view_eq (bound : writer.Bound stored)
    (encrypted : name ∈ writer.provider.encryptedNames) :
    writer.provider.view writer.typeName stored name =
      some (plaintext (stored (utf8Bytes name))) := by
  obtain ⟨key, isKey, cells⟩ := bound
  exact view_eq_some isKey (cells name encrypted)

theorem sealCell_plaintext (key : List ScalarValue) (name : String) (value : ScalarValue) :
    plaintext (writer.provider.sealCell writer.typeName key name value) = value := by
  rw [sealCell]
  cases writer.provider.getColumnMetadata name with
  | none => rfl
  | some type =>
    dsimp only
    split_ifs <;> rfl

theorem WellFormed.arrived_encrypted (wellFormed : writer.WellFormed)
    (encrypted : name ∈ writer.provider.encryptedNames) (key : List ScalarValue)
    (value : ScalarValue) :
    writer.server.arrived (writer.provider.sealCell writer.typeName key name value) =
      writer.provider.sealCell writer.typeName key name value := by
  obtain ⟨type, metadata⟩ := writer.provider.exists_getColumnMetadata encrypted
  rw [sealCell, metadata]
  dsimp only
  split_ifs with isNull
  · rw [TableServer.arrived, wellFormed.nulls value isNull]
  · rw [TableServer.arrived, writer.server.bind_ciphertext]

theorem storedKey_eq_some_iff {row : Row} :
    writer.provider.storedKey stored = some (writer.keyOf row) ↔
      ∀ name ∈ writer.provider.primaryKey, stored (utf8Bytes name) = .plain (row name) := by
  rw [storedKey, Rows.mapM_eq_some_iff, keyOf, forall₂_map_right_iff, forall₂_same]
  refine forall₂_congr fun name _ => ?_
  cases stored (utf8Bytes name) <;> simp

theorem storedKey_congr {other : StoredRow}
    (same : ∀ name ∈ writer.provider.primaryKey, stored (utf8Bytes name) = other (utf8Bytes name)) :
    writer.provider.storedKey stored = writer.provider.storedKey other := by
  rw [storedKey, storedKey]
  refine Outcome.mapM_congr fun name isKey => ?_
  rw [same name isKey]

theorem getColumnMetadata_key (isKey : name ∈ writer.provider.primaryKey) :
    writer.provider.getColumnMetadata name = none :=
  writer.provider.keyColumns_plain name isKey

section Assigned

variable (wellFormed : writer.WellFormed) {kind : WriteKind} {planned : List PlannedColumn}
  (writable : Writable writer.provider writer.indices kind planned)
  {input : PlannedColumn → ScalarValue} {role : ColumnRole}
  (written : role = .value ∨ role = .duplicate)

include wellFormed writable written

theorem WellFormed.inputCell_eq
    (computed : writer.indices.addedValues (planned.map PlannedColumn.fieldName) input =
      .ok (writer.indices.addedOf planned input)) (isIn : ⟨role, name⟩ ∈ planned) :
    writer.provider.inputCell writer.typeName writer.indices kind planned input ⟨role, name⟩ =
      writer.provider.sealCell writer.typeName (writer.provider.inputKey kind input) name
        (input ⟨role, name⟩) := by
  have isSunk : ⟨role, name⟩ ∈ writer.indices.sinkColumns planned :=
    mem_sinkColumns_iff.mpr (.inl isIn)
  rw [inputCell, writable.insertTarget_eq wellFormed.named isSunk written,
    writable.withAdded_planned wellFormed.named computed isIn]

variable (computed : writer.indices.addedValues (planned.map PlannedColumn.fieldName) input =
  .ok (writer.indices.addedOf planned input))

include computed

theorem WellFormed.assigned_key (isKey : name ∈ writer.provider.primaryKey)
    (isIn : ⟨role, name⟩ ∈ planned) (arrives : bindable (input ⟨role, name⟩) = true) :
    writer.server.assignRole (writer.indices.sinkColumns planned) role
        (writer.provider.inputCell writer.typeName writer.indices kind planned input) stored
        (utf8Bytes name) = .plain (input ⟨role, name⟩) := by
  have isSunk : ⟨role, name⟩ ∈ writer.indices.sinkColumns planned :=
    mem_sinkColumns_iff.mpr (.inl isIn)
  rw [assignRole_of_mem (writable.nodup_sinkColumns wellFormed.named) isSunk,
    wellFormed.inputCell_eq writable written computed isIn, sealCell, getColumnMetadata_key isKey]
  exact writer.server.arrived_of_bindable arrives

theorem WellFormed.bound_assigned {key : List ScalarValue}
    (isKey : writer.provider.storedKey (writer.server.assignRole
      (writer.indices.sinkColumns planned) role
      (writer.provider.inputCell writer.typeName writer.indices kind planned input) stored) =
        some key)
    (assigned : ∀ name ∈ writer.provider.encryptedNames, ⟨role, name⟩ ∈ planned →
      writer.provider.inputKey kind input = key)
    (kept : ∀ name ∈ writer.provider.encryptedNames, ⟨role, name⟩ ∉ planned →
      stored (utf8Bytes name) =
        writer.provider.sealCell writer.typeName key name (plaintext (stored (utf8Bytes name)))) :
    writer.Bound (writer.server.assignRole (writer.indices.sinkColumns planned) role
      (writer.provider.inputCell writer.typeName writer.indices kind planned input) stored) := by
  refine ⟨key, isKey, fun name encrypted => ?_⟩
  have isColumn := wellFormed.named.encrypted name encrypted
  by_cases isIn : ⟨role, name⟩ ∈ planned
  · have isSunk : ⟨role, name⟩ ∈ writer.indices.sinkColumns planned :=
      mem_sinkColumns_iff.mpr (.inl isIn)
    rw [assignRole_of_mem (writable.nodup_sinkColumns wellFormed.named) isSunk,
      wellFormed.inputCell_eq writable written computed isIn, assigned name encrypted isIn,
      wellFormed.arrived_encrypted encrypted, sealCell_plaintext]
  · have notSunk : ⟨role, name⟩ ∉ writer.indices.sinkColumns planned := fun isSunk =>
      isIn (wellFormed.mem_planned isColumn isSunk)
    rw [assignRole_of_notMem notSunk]
    exact kept name encrypted isIn

end Assigned

/-! ## Steps -/

theorem WellFormed.inputKey_insert (wellFormed : writer.WellFormed) (plan : InsertPlan)
    (row : Row) :
    writer.provider.inputKey .insert (writer.insertInput plan row) = writer.keyOf row :=
  map_congr_left fun name isKey =>
    wellFormed.insertInput_value plan row (wellFormed.named.key name isKey)

section Insert

variable (wellFormed : writer.WellFormed) {insert : Insert} {plan : InsertPlan}
  (targets : ∀ target ∈ insert.targets, target ∈ writer.provider.columnNames)
  (accepted : planInsert writer.provider writer.indices.demands writer.known insert = .ok plan)
  {row : Row} (computed : writer.indices.addedValues (plan.planned.map PlannedColumn.fieldName)
    (writer.insertInput plan row) =
      .ok (writer.indices.addedOf plan.planned (writer.insertInput plan row)))
  (arrives : ∀ value ∈ writer.keyOf row, bindable value = true)

include wellFormed targets accepted computed arrives

theorem WellFormed.storedKey_newRow :
    writer.provider.storedKey (writer.server.newRow (writer.indices.sinkColumns plan.planned)
      (writer.insertCell plan row)) = some (writer.keyOf row) := by
  obtain ⟨-, writable⟩ := wellFormed.writable_insert targets accepted
  refine storedKey_eq_some_iff.mpr fun name isKey => ?_
  have value := wellFormed.insertInput_value plan row (wellFormed.named.key name isKey)
  have isBindable : bindable (writer.insertInput plan row ⟨.value, name⟩) = true := by
    rw [value]
    exact arrives _ (mem_map_of_mem isKey)
  rw [← value]
  exact wellFormed.assigned_key writable (.inl rfl) computed isKey (writable.key name isKey)
    isBindable

theorem WellFormed.newRow_bound :
    writer.Bound (writer.server.newRow (writer.indices.sinkColumns plan.planned)
      (writer.insertCell plan row)) := by
  obtain ⟨isPlanned, writable⟩ := wellFormed.writable_insert targets accepted
  refine wellFormed.bound_assigned writable (.inl rfl) computed
    (wellFormed.storedKey_newRow targets accepted computed arrives)
    (fun _ _ _ => wellFormed.inputKey_insert plan row) fun name encrypted notPlanned => ?_
  apply absurd _ notPlanned
  rw [isPlanned]
  exact mem_append_left _ (mem_append_left _
    (mem_map_of_mem (wellFormed.named.encrypted name encrypted)))

theorem WellFormed.duplicate_bound
    (keeps : ∀ target ∈ insert.targets, target ∉ writer.provider.primaryKey ∧
      (target ∈ writer.provider.encryptedNames → writer.ConflictsByKey))
    (conflict : writer.server.conflicts (writer.server.newRow
      (writer.indices.sinkColumns plan.planned) (writer.insertCell plan row)) stored = true)
    (bound : writer.Bound stored) :
    writer.Bound (writer.server.assignRole (writer.indices.sinkColumns plan.planned) .duplicate
      (writer.insertCell plan row) stored) := by
  obtain ⟨isPlanned, writable⟩ := wellFormed.writable_insert targets accepted
  have isTarget : ∀ name, ⟨.duplicate, name⟩ ∈ plan.planned → name ∈ insert.targets := by
    intro name isIn
    rw [isPlanned] at isIn
    simpa using isIn
  obtain ⟨key, isKey, cells⟩ := bound
  have newKey : writer.provider.storedKey (writer.server.assignRole
      (writer.indices.sinkColumns plan.planned) .duplicate (writer.insertCell plan row) stored) =
        some key := by
    rw [← isKey]
    refine storedKey_congr fun name isKeyName => assignRole_of_notMem fun isSunk => ?_
    have isIn := wellFormed.mem_planned (wellFormed.named.key name isKeyName) isSunk
    exact (keeps name (isTarget name isIn)).1 isKeyName
  refine wellFormed.bound_assigned writable (.inr rfl) computed newKey
    (fun name encrypted isIn => ?_) fun name encrypted _ => cells name encrypted
  have byKey := (keeps name (isTarget name isIn)).2 encrypted _ _ conflict
  rw [wellFormed.storedKey_newRow targets accepted computed arrives, isKey] at byKey
  exact (wellFormed.inputKey_insert plan row).trans (Option.some.inj byKey)

end Insert

theorem filter_columns {update : Update} {plan : UpdatePlan}
    (planned : Planned writer.provider writer.indices.demands update plan) :
    (writer.indices.sinkColumns plan.planned).filter (fun column => column.role = .filter) =
      writer.provider.primaryKey.map (⟨.filter, ·⟩) := by
  have none : ∀ (names : List String) {role : ColumnRole}, role ≠ .filter →
      (names.map (PlannedColumn.mk role)).filter (fun column => column.role = .filter) = [] := by
    intro names role other
    rw [filter_eq_nil_iff, forall_mem_map]
    intro name _
    simp [other]
  have all : (writer.provider.primaryKey.map (PlannedColumn.mk .filter)).filter
      (fun column => column.role = .filter) =
        writer.provider.primaryKey.map (PlannedColumn.mk .filter) := by
    rw [List.filter_eq_self, List.forall_mem_map]
    intro name _
    simp
  have added : (writer.indices.forward (plan.planned.map fieldName)).map
      (fun added => PlannedColumn.mk .value added.name) =
        ((writer.indices.forward (plan.planned.map PlannedColumn.fieldName)).map
          ProjectionExpr.name).map (PlannedColumn.mk .value) := (List.map_map ..).symm
  rw [WriteIndices.sinkColumns, sinkColumns, added, planned.planned]
  simp only [filter_append, none _ (by decide : ColumnRole.value ≠ .filter),
    none _ (by decide : ColumnRole.current ≠ .filter), all, nil_append, append_nil]

section Update

variable (wellFormed : writer.WellFormed) {update : Update} {plan : UpdatePlan}
  (accepted : planUpdate writer.provider writer.indices.demands update = .ok plan) {row : Row}
  (computed : writer.indices.addedValues (plan.planned.map PlannedColumn.fieldName)
    (writer.updateInput plan row) =
      .ok (writer.indices.addedOf plan.planned (writer.updateInput plan row)))

include wellFormed accepted computed

theorem WellFormed.updateCell_filter (isKey : name ∈ writer.provider.primaryKey) :
    writer.updateCell plan row ⟨.filter, name⟩ = .plain (row name) := by
  have writable := wellFormed.writable_update accepted
  have isIn : ⟨.filter, name⟩ ∈ plan.planned := writable.key name isKey
  have target : insertTarget (⟨.filter, name⟩ : PlannedColumn).fieldName =
      filterPrefix ++ name := by
    rw [insertTarget, if_neg]
    · rfl
    · simp [fieldName, hasPrefix, filterPrefix, duplicateValuePfx]
  have plain : writer.provider.getColumnMetadata (filterPrefix ++ name) = none := by
    rw [getColumnMetadata, lookup_eq_none_iff]
    intro entry isEntry
    rw [bne_iff_ne]
    intro same
    have isColumn := wellFormed.named.encrypted entry.1 (mem_map_of_mem isEntry)
    have unmarked := wellFormed.named.unmarked entry.1 (mem_append_left _ isColumn)
      filterPrefix (by decide)
    rw [← same, hasPrefix_append] at unmarked
    cases unmarked
  rw [updateCell, inputCell, target, sealCell, plain,
    writable.withAdded_planned wellFormed.named computed isIn]
  rfl

theorem WellFormed.selects_key (arrives : ∀ value ∈ writer.keyOf row, bindable value = true)
    (stored : StoredRow) :
    writer.server.selects (namesWithRole (writer.indices.sinkColumns plan.planned) .filter)
        (writer.server.cellsWithRole (writer.indices.sinkColumns plan.planned) .filter
          (writer.updateCell plan row)) stored =
      writer.server.selects (writer.provider.primaryKey.map utf8Bytes)
        ((writer.keyOf row).map .plain) stored := by
  have columns : (withRole (writer.indices.sinkColumns plan.planned) .filter).map Prod.fst =
      writer.provider.primaryKey.map (⟨.filter, ·⟩) := by
    rw [withRole_map_fst, filter_columns (planned_of_accepted accepted)]
  have names : namesWithRole (writer.indices.sinkColumns plan.planned) .filter =
      writer.provider.primaryKey.map utf8Bytes := by
    have mapped := congrArg (map fun column => utf8Bytes column.name) columns
    rw [map_map, map_map] at mapped
    exact mapped
  have cells : writer.server.cellsWithRole (writer.indices.sinkColumns plan.planned) .filter
      (writer.updateCell plan row) = writer.provider.primaryKey.map fun name =>
        writer.server.arrived (writer.updateCell plan row ⟨.filter, name⟩) := by
    have mapped := congrArg
      (map fun column => writer.server.arrived (writer.updateCell plan row column)) columns
    rw [map_map, map_map] at mapped
    exact mapped
  have plain : ∀ name ∈ writer.provider.primaryKey,
      writer.server.arrived (writer.updateCell plan row ⟨.filter, name⟩) = .plain (row name) := by
    intro name isKey
    have isBindable : bindable (row name) = true := arrives _ (mem_map_of_mem isKey)
    rw [wellFormed.updateCell_filter accepted computed isKey]
    exact writer.server.arrived_of_bindable isBindable
  rw [names, cells, map_congr_left plain, keyOf, map_map]
  rfl

theorem WellFormed.update_bound (arrives : ∀ value ∈ writer.keyOf row, bindable value = true)
    (sameKey : writer.keyOf (update.newRow writer.semantics row) = writer.keyOf row)
    (isKey : writer.provider.storedKey stored = some (writer.keyOf row))
    (bound : writer.Bound stored) :
    writer.Bound (writer.server.assignRole (writer.indices.sinkColumns plan.planned) .value
        (writer.updateCell plan row) stored) ∧
      ∀ name ∈ writer.provider.primaryKey, writer.server.assignRole
          (writer.indices.sinkColumns plan.planned) .value (writer.updateCell plan row) stored
          (utf8Bytes name) = stored (utf8Bytes name) := by
  have planned := planned_of_accepted accepted
  have writable := wellFormed.writable_update accepted
  have keyCells := storedKey_eq_some_iff.mp isKey
  have same : ∀ name ∈ writer.provider.primaryKey,
      update.newRow writer.semantics row name = row name := map_inj_left.mp sameKey
  have keeps : ∀ name ∈ writer.provider.primaryKey, writer.server.assignRole
      (writer.indices.sinkColumns plan.planned) .value (writer.updateCell plan row) stored
      (utf8Bytes name) = stored (utf8Bytes name) := by
    intro name isKeyName
    by_cases isIn : ⟨.value, name⟩ ∈ plan.planned
    · have value : writer.updateInput plan row ⟨.value, name⟩ = row name := by
        rw [updateInput_value planned row ((mem_planned_value_iff planned).mp isIn),
          same name isKeyName]
      have isBindable : bindable (writer.updateInput plan row ⟨.value, name⟩) = true := by
        rw [value]
        exact arrives _ (mem_map_of_mem isKeyName)
      rw [keyCells name isKeyName, ← value]
      exact wellFormed.assigned_key writable (.inl rfl) computed isKeyName isIn isBindable
    · exact assignRole_of_notMem fun isSunk =>
        isIn (wellFormed.mem_planned (wellFormed.named.key name isKeyName) isSunk)
  refine ⟨?_, keeps⟩
  obtain ⟨key, isOwn, cells⟩ := bound
  have own : key = writer.keyOf row := Option.some.inj (isOwn.symm.trans isKey)
  subst own
  have newKey : writer.provider.storedKey (writer.server.assignRole
      (writer.indices.sinkColumns plan.planned) .value (writer.updateCell plan row) stored) =
        some (writer.keyOf row) :=
    storedKey_eq_some_iff.mpr fun name isKeyName =>
      (keeps name isKeyName).trans (keyCells name isKeyName)
  exact wellFormed.bound_assigned writable (.inl rfl) computed newKey (fun _ _ _ => rfl)
    fun name encrypted _ => cells name encrypted

end Update

theorem WellFormed.execute_keeps_bound (wellFormed : writer.WellFormed) {write : Write}
    {rows final : List StoredRow} (allowed : writer.KeepsBinding rows write)
    (executed : writer.execute rows write = .ok final)
    (before : ∀ stored ∈ rows, writer.Bound stored) : ∀ stored ∈ final, writer.Bound stored := by
  cases write with
  | insert insert =>
    obtain ⟨keeps, arrive⟩ := allowed
    have columns : ∀ target ∈ insert.targets, target ∈ writer.provider.columnNames :=
      fun target isTarget => (keeps target isTarget).1
    refine wellFormed.insert_keeps columns executed before fun plan accepted row isIn computed => ?_
    have arrives := arrive row isIn
    exact ⟨wellFormed.newRow_bound columns accepted computed arrives, fun stored conflict bound =>
      wellFormed.duplicate_bound columns accepted computed arrives
        (fun target isTarget => (keeps target isTarget).2) conflict bound⟩
  | update update selected =>
    -- A row that is updated twice is found by the key that it had before.
    have kept : ∀ stored ∈ final, writer.Bound stored ∧ ∃ old ∈ rows,
        ∀ name ∈ writer.provider.primaryKey, stored (utf8Bytes name) = old (utf8Bytes name) := by
      refine wellFormed.update_keeps executed
        (fun stored isIn => ⟨before stored isIn, stored, isIn, fun _ _ => rfl⟩)
        fun plan accepted row isIn computed stored found ⟨bound, old, isOld, sameCells⟩ => ?_
      obtain ⟨arrives, sameKey, finds⟩ := allowed row isIn
      have foundOld : writer.server.selects (writer.provider.primaryKey.map utf8Bytes)
          ((writer.keyOf row).map .plain) old = true := by
        rw [wellFormed.selects_key accepted computed arrives, TableServer.selects,
          keyOf, map_map, zip_map', all_map] at found
        rw [TableServer.selects, keyOf, map_map, zip_map', all_map]
        rw [all_eq_true] at found ⊢
        intro name isKey
        have here := found name isKey
        simp only [Function.comp_apply] at here ⊢
        rwa [← sameCells name isKey]
      have isKey := (storedKey_congr sameCells).trans (finds old isOld foundOld)
      obtain ⟨after, keeps⟩ :=
        wellFormed.update_bound accepted computed arrives sameKey isKey bound
      exact ⟨after, old, isOld, fun name isKeyName =>
        (keeps name isKeyName).trans (sameCells name isKeyName)⟩
    exact fun stored isIn => (kept stored isIn).1

/-- In every run whose statements keep the binding, every encrypted cell is encrypted for the
current key of its row, and decrypts to its value. -/
theorem WellFormed.cells_bound_to_rows (wellFormed : writer.WellFormed)
    {start final : List StoredRow} (reaches : writer.Reaches writer.KeepsBinding start final)
    (before : ∀ stored ∈ start, writer.Bound stored) :
    ∀ stored ∈ final, writer.Bound stored ∧ ∀ name ∈ writer.provider.encryptedNames,
      writer.provider.view writer.typeName stored name =
        some (plaintext (stored (utf8Bytes name))) := by
  have bound := reaches.induction writer before fun _ _ _ allowed executed =>
    wellFormed.execute_keeps_bound allowed executed
  intro stored isIn
  exact ⟨bound stored isIn, fun _ encrypted => (bound stored isIn).view_eq encrypted⟩

end Writer

/-! ## Updates of a user -/

def updateUser (column : String) (value : ScalarValue) : Update :=
  ⟨[(column, .literal value)], none⟩

/-- The first user gets another secret, which is encrypted for its number. -/
theorem cells_bound_to_rows_users :
    ∃ final, usersWriter.Reaches usersWriter.KeepsBinding [] final ∧ final ≠ [] ∧
      ∀ stored ∈ final, usersWriter.Bound stored ∧
        ∀ name ∈ usersWriter.provider.encryptedNames,
          usersWriter.provider.view usersWriter.typeName stored name =
            some (plaintext (stored (utf8Bytes name))) := by
  have run : ((usersWriter.execute [] (.insert (insertUser "a" []))).toOption.any fun first =>
      (first.all fun stored => decide (usersWriter.provider.storedKey stored = some [int32 1])) &&
        (usersWriter.execute first (.update (updateUser "secret" (utf8 "b"))
          [firstUser "a"])).toOption.any fun final => !final.isEmpty) = true := by
    decide +kernel
  obtain ⟨first, inserted, run⟩ := Outcome.exists_ok_of_any run
  obtain ⟨isFirst, run⟩ := Bool.and_eq_true_iff.mp run
  obtain ⟨final, updated, some⟩ := Outcome.exists_ok_of_any run
  have insertKeeps : usersWriter.KeepsBinding [] (.insert (insertUser "a" [])) := by
    refine ⟨by rintro _ ⟨⟩, ?_⟩
    rw [insertUser, forall_mem_singleton]
    decide +kernel
  have updateKeeps : usersWriter.KeepsBinding first
      (.update (updateUser "secret" (utf8 "b")) [firstUser "a"]) := by
    refine forall_mem_singleton.mpr ⟨by decide +kernel, rfl, fun stored isIn _ => ?_⟩
    exact of_decide_eq_true (all_eq_true.mp isFirst stored isIn)
  have reaches := Writer.Reaches.step (.step .refl insertKeeps inserted) updateKeeps updated
  refine ⟨final, reaches, ?_, usersWriter_wellFormed.cells_bound_to_rows reaches (by simp)⟩
  rintro rfl
  cases some

/-- The first user gets another number: its secret is encrypted for the old one, and is lost. -/
theorem key_update_loses_secret :
    ∃ first final, usersWriter.execute [] (.insert (insertUser "a" [])) = .ok first ∧
      usersWriter.execute first (.update (updateUser "id" (int32 2)) [firstUser "a"]) = .ok final ∧
      ∃ stored ∈ final, usersWriter.provider.view usersWriter.typeName stored "id" =
          some (int32 2) ∧
        plaintext (stored (utf8Bytes "secret")) = utf8 "a" ∧ ¬ usersWriter.Bound stored ∧
        usersWriter.provider.view usersWriter.typeName stored "secret" = none := by
  have run : ((usersWriter.execute [] (.insert (insertUser "a" []))).toOption.any fun first =>
      (usersWriter.execute first (.update (updateUser "id" (int32 2))
        [firstUser "a"])).toOption.any fun final => final.any fun stored =>
          decide (usersWriter.provider.view usersWriter.typeName stored "id" = some (int32 2) ∧
            plaintext (stored (utf8Bytes "secret")) = utf8 "a" ∧
            usersWriter.provider.view usersWriter.typeName stored "secret" = none)) = true := by
    decide +kernel
  obtain ⟨first, inserted, run⟩ := Outcome.exists_ok_of_any run
  obtain ⟨final, updated, run⟩ := Outcome.exists_ok_of_any run
  obtain ⟨stored, isIn, shown⟩ := any_eq_true.mp run
  obtain ⟨number, secret, lost⟩ := of_decide_eq_true shown
  refine ⟨first, final, inserted, updated, stored, isIn, number, secret, fun bound => ?_, lost⟩
  have encrypted : "secret" ∈ usersWriter.provider.encryptedNames := by decide +kernel
  have found := bound.view_eq encrypted
  rw [lost] at found
  cases found

end SecureFusion.Planning
