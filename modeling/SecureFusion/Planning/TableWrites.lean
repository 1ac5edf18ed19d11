import SecureFusion.Planning.OnDuplicate
import SecureFusion.Planning.Update
import SecureFusion.Providers.RowWrites

/-!
# Runs of statements that write rows

An INSERT, with or without a clause for rows that exist, and an UPDATE are planned, and the
sink writes the rows of their input. The planner fills in the columns that an INSERT leaves
out, so that every inserted row has all visible columns of the table. A statement that fails
leaves the table as it is.
-/

namespace SecureFusion.Planning

open Library Sql Crypto Providers Sinks Server Indices List Outcome

variable {name : String} {update : Update}

/-! ## Statements -/

/-- An INSERT of rows, with its clause for rows that exist. -/
structure Insert where
  rows : List Row
  onDuplicate : List Assignment

/-- The columns that the clause for rows that exist assigns, as they are written. -/
def Insert.targets (insert : Insert) : List String :=
  insert.onDuplicate.filterMap fun assignment => assignment.target.head?

/-- The plan of an INSERT: the assignments for rows that exist, and the columns of the input of the
sink. -/
structure InsertPlan where
  assigned : List (String × RowExpr)
  planned : List PlannedColumn

/-- Plans an INSERT with its clause for duplicates. -/
def planInsert (provider : MySqlTableProvider) (demands : IndexDemands) (known : String → Bool)
    (insert : Insert) : Evaluated InsertPlan := do
  let assigned ← planOnDuplicate provider.tableReference.table provider.columnNames known
    insert.onDuplicate
  let planned ← provider.plan demands
    (.insert provider.columnNames (insert.onDuplicate.map Assignment.target))
  .ok ⟨assigned, planned⟩

/-- A statement that writes rows. An UPDATE comes with the rows that its query returns. -/
inductive Write where
  | insert (insert : Insert)
  | update (update : Update) (selected : List Row)

/-! ## Execution -/

/-- What executes statements on a table. -/
structure Writer where
  provider : MySqlTableProvider
  server : TableServer
  indices : WriteIndices
  /-- The name of a type in the additional data. -/
  typeName : DataType → Bytes
  semantics : Semantics
  /-- What the planner makes of operators and functions in the clause for rows that exist. -/
  operations : Operations ScalarValue
  /-- The functions that the planner knows. -/
  known : String → Bool
  /-- The generated row id of an inserted row. -/
  rowId : Row → ScalarValue

namespace Writer

variable (writer : Writer)

def insertInput (plan : InsertPlan) (row : Row) (column : PlannedColumn) : ScalarValue :=
  match column.role with
  | .value =>
    if column.name ∈ writer.indices.demands.hiddenRowId then writer.rowId row else row column.name
  | .duplicate =>
    -- The planned expressions have no columns of the row that exists.
    ((plan.assigned.lookup column.name).map fun expr =>
      expr.eval writer.operations row row).getD .null
  | .current | .filter => .null

def updateInput (plan : UpdatePlan) (row : Row) (column : PlannedColumn) : ScalarValue :=
  match column.role with
  | .value =>
    ((plan.modified.lookup column.name).map fun expr => expr.eval writer.semantics row).getD
      (row column.name)
  | .current | .filter => row column.name
  | .duplicate => .null

/-- Plans and executes a write. -/
def execute (rows : List StoredRow) : Write → Evaluated (List StoredRow)
  | .insert insert => do
    let plan ← planInsert writer.provider writer.indices.demands writer.known insert
    writer.provider.writeRows writer.server writer.typeName writer.indices .insert plan.planned
      (insert.rows.map (writer.insertInput plan)) rows
  | .update update selected => do
    let plan ← planUpdate writer.provider writer.indices.demands update
    writer.provider.writeRows writer.server writer.typeName writer.indices .update plan.planned
      (selected.map (writer.updateInput plan)) rows

/-- The tables that statements of some kind lead to. -/
inductive Reaches (allowed : List StoredRow → Write → Prop) (start : List StoredRow) :
    List StoredRow → Prop where
  | refl : Reaches allowed start start
  | step {rows final : List StoredRow} {write : Write} : Reaches allowed start rows →
      allowed rows write → writer.execute rows write = .ok final → Reaches allowed start final

/-- The tables on which the statements can be executed. -/
structure WellFormed : Prop where
  named : WellNamed writer.provider writer.server writer.indices
  columns : writer.provider.columnNames ≠ []
  /-- A null is sent as a null. -/
  nulls : ∀ value : ScalarValue, value.isNull = true →
    writer.server.bind (.plain value) = .ok (.plain value)

theorem Reaches.induction {allowed : List StoredRow → Write → Prop} {start final : List StoredRow}
    {holds : List StoredRow → Prop} (reaches : writer.Reaches allowed start final)
    (before : holds start)
    (keeps : ∀ rows write final, allowed rows write → writer.execute rows write = .ok final →
      holds rows → holds final) : holds final := by
  induction reaches with
  | refl => exact before
  | step _ isAllowed executed ih => exact keeps _ _ _ isAllowed executed ih

/-! ## Plans -/

variable {writer} {plan : UpdatePlan} {insert : Insert} {rows final : List StoredRow}
  {Kept : StoredRow → Prop} {selected : List Row}

theorem nodup_of_tryProject {columns planned : List PlannedColumn}
    (accepted : tryProject columns = .ok planned) : columns.Nodup ∧ planned = columns := by
  rw [tryProject] at accepted
  split_ifs at accepted with distinct
  cases accepted
  exact ⟨distinct.of_map _, rfl⟩

theorem WellFormed.hiddenRowId_notMem (wellFormed : writer.WellFormed)
    (isHidden : name ∈ writer.indices.demands.hiddenRowId.toList) :
    name ∉ writer.provider.columnNames := fun isColumn =>
  (nodup_append.mp wellFormed.named.distinct).2.2 _ isColumn _
    (mem_append_left _ isHidden) rfl

/-- Columns of the table are writable together with a hidden row id. -/
theorem WellFormed.writable_append (wellFormed : writer.WellFormed) {kind : WriteKind}
    {columns : List PlannedColumn} {role : ColumnRole} (allowed : role ∈ kind.roles)
    (distinct : columns.Nodup) (roles : ∀ column ∈ columns, column.role ∈ kind.roles)
    (named : ∀ column ∈ columns, column.name ∈ writer.provider.columnNames)
    (key : ∀ name ∈ writer.provider.primaryKey, ⟨keyRole kind, name⟩ ∈ columns)
    (complete : ∃ name, ⟨keyRole kind, name⟩ ∈ columns) :
    Writable writer.provider writer.indices kind
      (columns ++ writer.indices.demands.hiddenRowId.toList.map (⟨role, ·⟩)) where
  roles := forall_mem_append.mpr ⟨roles, forall_mem_map.mpr fun _ _ => allowed⟩
  named := forall_mem_append.mpr
    ⟨fun column isIn => mem_append_left _ (named column isIn),
      forall_mem_map.mpr fun _ isHidden => mem_append_right _ isHidden⟩
  distinct := by
    refine nodup_append.mpr ⟨distinct, ?_, ?_⟩
    · cases writer.indices.demands.hiddenRowId with
      | none => exact nodup_nil
      | some name => exact nodup_singleton _
    · rintro column isIn other isHidden rfl
      obtain ⟨name, isName, rfl⟩ := mem_map.mp isHidden
      exact wellFormed.hiddenRowId_notMem isName (named _ isIn)
  key name isKey := mem_append_left _ (key name isKey)
  complete := complete.imp fun _ isIn => mem_append_left _ isIn

theorem WellFormed.writable_insert (wellFormed : writer.WellFormed) {plan : InsertPlan}
    (targets : ∀ target ∈ insert.targets, target ∈ writer.provider.columnNames)
    (accepted : planInsert writer.provider writer.indices.demands writer.known insert = .ok plan) :
    plan.planned = writer.provider.columnNames.map (⟨.value, ·⟩) ++
        insert.targets.map (⟨.duplicate, ·⟩) ++
        writer.indices.demands.hiddenRowId.toList.map (⟨.value, ·⟩) ∧
      Writable writer.provider writer.indices .insert plan.planned := by
  obtain ⟨assigned, -, rest⟩ := bind_eq_ok_iff.mp accepted
  obtain ⟨planned, isPlanned, same⟩ := bind_eq_ok_iff.mp rest
  cases same
  have isTargets : (WriteRequest.insert writer.provider.columnNames
      (insert.onDuplicate.map Assignment.target)).targets = insert.targets := by
    rw [WriteRequest.targets, Insert.targets, filterMap_map]
    rfl
  have columns := plan_insert_eq isPlanned
  rw [isTargets] at columns
  rw [MySqlTableProvider.plan, bind_eq_ok_iff] at isPlanned
  obtain ⟨parsed, isParsed, projects⟩ := isPlanned
  obtain ⟨projected, isProjected, -⟩ := bind_eq_ok_iff.mp projects
  have sameTargets : parsed = insert.targets := (parseTargets_eq isParsed).trans isTargets
  rw [sameTargets] at isProjected
  have distinct := (nodup_of_tryProject isProjected).1
  obtain ⟨first, isFirst⟩ := exists_mem_of_ne_nil _ wellFormed.columns
  refine ⟨columns, columns ▸ wellFormed.writable_append (by decide) distinct ?_ ?_ ?_ ?_⟩
  · simp only [forall_mem_append, forall_mem_map]
    simp [WriteKind.roles]
  · exact forall_mem_append.mpr ⟨forall_mem_map.mpr fun _ isColumn => isColumn,
      forall_mem_map.mpr targets⟩
  · exact fun name isKey =>
      mem_append_left _ (mem_map_of_mem (wellFormed.named.key name isKey))
  · exact ⟨first, mem_append_left _ (mem_map_of_mem isFirst)⟩

theorem WellFormed.writable_update (wellFormed : writer.WellFormed)
    (accepted : planUpdate writer.provider writer.indices.demands update = .ok plan) :
    Writable writer.provider writer.indices .update plan.planned := by
  have planned := planned_of_accepted accepted
  have modified : ∀ name ∈ plan.modified.map Prod.fst, name ∈ writer.provider.columnNames :=
    forall_mem_map.mpr planned.columns
  have distinct : ((plan.modified.map Prod.fst).map (PlannedColumn.mk .value) ++
      ((plan.modified.map Prod.fst).filter fun name =>
        name ∈ writer.indices.demands.updatesTracking).map (PlannedColumn.mk .current) ++
      writer.provider.primaryKey.map (PlannedColumn.mk .filter)).Nodup := by
    unfold planUpdate at accepted
    split at accepted
    · cases accepted
    · simp only [bind_eq_ok_iff] at accepted
      obtain ⟨names, -, columns, isPlanned, same⟩ := accepted
      cases same
      rw [MySqlTableProvider.plan] at isPlanned
      split_ifs at isPlanned
      obtain ⟨projected, isProjected, -⟩ := bind_eq_ok_iff.mp isPlanned
      exact (nodup_of_tryProject isProjected).1
  obtain ⟨first, isFirst⟩ := exists_mem_of_ne_nil _ planned.keyed
  rw [planned.planned]
  refine wellFormed.writable_append (by decide) distinct ?_ ?_ ?_ ?_
  · simp only [forall_mem_append, forall_mem_map]
    simp [WriteKind.roles]
  · simp only [forall_mem_append, forall_mem_map]
    exact ⟨⟨planned.columns, fun name isIn => modified name (mem_filter.mp isIn).1⟩,
      wellFormed.named.key⟩
  · exact fun name isKey => mem_append_right _ (mem_map_of_mem isKey)
  · exact ⟨first, mem_append_right _ (mem_map_of_mem isFirst)⟩

theorem WellFormed.mem_planned (wellFormed : writer.WellFormed) {planned : List PlannedColumn}
    {role : ColumnRole} (isColumn : name ∈ writer.provider.columnNames)
    (isIn : ⟨role, name⟩ ∈ writer.indices.sinkColumns planned) : ⟨role, name⟩ ∈ planned := by
  rcases mem_sinkColumns_iff.mp isIn with isPlanned | ⟨added, isAdded, -, same⟩
  · exact isPlanned
  · have isHidden : name ∈ writer.indices.hiddenNames := by
      rw [(PlannedColumn.mk.inj same).2]
      exact mem_append_right _ (mem_map_of_mem isAdded)
    exact absurd rfl
      ((nodup_append.mp wellFormed.named.distinct).2.2 _ isColumn _ isHidden)

/-! ## Properties of rows that statements keep -/

variable (writer) in
/-- The cell that the sink of an INSERT gets for a column. -/
def insertCell (plan : InsertPlan) (row : Row) : PlannedColumn → Cell :=
  writer.provider.inputCell writer.typeName writer.indices .insert plan.planned
    (writer.insertInput plan row)

variable (writer) in
/-- The cell that the sink of an UPDATE gets for a column. -/
def updateCell (plan : UpdatePlan) (row : Row) : PlannedColumn → Cell :=
  writer.provider.inputCell writer.typeName writer.indices .update plan.planned
    (writer.updateInput plan row)

section WellFormed

variable (wellFormed : writer.WellFormed)

include wellFormed

theorem WellFormed.insert_keeps
    (targets : ∀ target ∈ insert.targets, target ∈ writer.provider.columnNames)
    (executed : writer.execute rows (.insert insert) = .ok final)
    (before : ∀ stored ∈ rows, Kept stored)
    (keeps : ∀ plan, planInsert writer.provider writer.indices.demands writer.known insert =
        .ok plan → ∀ row ∈ insert.rows, writer.indices.addedValues
          (plan.planned.map PlannedColumn.fieldName) (writer.insertInput plan row) =
            .ok (writer.indices.addedOf plan.planned (writer.insertInput plan row)) →
      let columns := writer.indices.sinkColumns plan.planned
      Kept (writer.server.newRow columns (writer.insertCell plan row)) ∧
        ∀ stored, writer.server.conflicts
            (writer.server.newRow columns (writer.insertCell plan row)) stored = true →
          Kept stored →
            Kept (writer.server.assignRole columns .duplicate (writer.insertCell plan row)
              stored)) :
    ∀ stored ∈ final, Kept stored := by
  obtain ⟨plan, accepted, written⟩ := bind_eq_ok_iff.mp executed
  obtain ⟨-, writable⟩ := wellFormed.writable_insert targets accepted
  have wrote := writable.wrote wellFormed.named written
  have sent := wrote.written
  rw [map_map] at sent
  refine write_keeps wrote.expressible sent before fun row isIn current after ran kept => ?_
  obtain ⟨appended, assigned⟩ := keeps plan accepted row isIn
    (wrote.computed _ (mem_map_of_mem isIn))
  rw [run_insert_eq] at ran
  exact insertRow_keeps ran kept appended fun stored _ => assigned stored

theorem WellFormed.update_keeps
    (executed : writer.execute rows (.update update selected) = .ok final)
    (before : ∀ stored ∈ rows, Kept stored)
    (keeps : ∀ plan, planUpdate writer.provider writer.indices.demands update = .ok plan →
      ∀ row ∈ selected, writer.indices.addedValues
          (plan.planned.map PlannedColumn.fieldName) (writer.updateInput plan row) =
            .ok (writer.indices.addedOf plan.planned (writer.updateInput plan row)) →
      let columns := writer.indices.sinkColumns plan.planned
      ∀ stored, writer.server.selects (namesWithRole columns .filter)
          (writer.server.cellsWithRole columns .filter (writer.updateCell plan row)) stored = true →
        Kept stored →
          Kept (writer.server.assignRole columns .value (writer.updateCell plan row) stored)) :
    ∀ stored ∈ final, Kept stored := by
  obtain ⟨plan, accepted, written⟩ := bind_eq_ok_iff.mp executed
  have writable := wellFormed.writable_update accepted
  have wrote := writable.wrote wellFormed.named written
  have sent := wrote.written
  rw [map_map] at sent
  refine write_keeps wrote.expressible sent before fun row isIn current after ran kept => ?_
  have assigned := keeps plan accepted row isIn (wrote.computed _ (mem_map_of_mem isIn))
  rw [run_update_eq] at ran
  exact updateKey_keeps ran kept fun stored _ => assigned stored

theorem WellFormed.insertInput_value (plan : InsertPlan) (row : Row)
    (isColumn : name ∈ writer.provider.columnNames) :
    writer.insertInput plan row ⟨.value, name⟩ = row name := by
  refine if_neg fun isHidden => wellFormed.hiddenRowId_notMem ?_ isColumn
  exact Option.mem_toList.mpr isHidden

end WellFormed

theorem updateInput_value (planned : Planned writer.provider writer.indices.demands update plan)
    (row : Row) (isModified : name ∈ plan.modified.map Prod.fst) :
    writer.updateInput plan row ⟨.value, name⟩ = update.newRow writer.semantics row name := by
  obtain ⟨entry, isEntry, rfl⟩ := mem_map.mp isModified
  have found : plan.modified.lookup entry.1 = some entry.2 :=
    Rows.lookup_of_mem planned.distinct isEntry
  rw [updateInput]
  simp only [found, Option.map_some, Option.getD_some]
  exact planned.values entry isEntry writer.semantics row

theorem mem_planned_value_iff
    (planned : Planned writer.provider writer.indices.demands update plan) :
    ⟨.value, name⟩ ∈ plan.planned ↔ name ∈ plan.modified.map Prod.fst := by
  rw [planned.planned]
  simp

end Writer

end SecureFusion.Planning
