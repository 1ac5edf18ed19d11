import SecureFusion.Sinks.Execution

/-!
# Properties that writes keep

A statement of a sink appends one row or assigns columns of rows that are there. A property
of all rows is kept by a whole write if it holds for the rows that are appended and is kept
by the assignments, with the values as they arrive at the server.
-/

namespace SecureFusion.Sinks

open Library Sql Crypto Server Indices TableServer List

variable {rows : List StoredRow} {cellOf : PlannedColumn → Cell} {final : List StoredRow}

/-! ## Parameters -/

def TableServer.arrived (server : TableServer) (cell : Cell) : Cell :=
  match server.bind cell with
  | .ok arrived => arrived
  | .error _ => cell

theorem TableServer.arrived_of_bindable (server : TableServer) {cell : Cell}
    (arrives : cell.Bindable) : server.arrived cell = cell := by
  rw [arrived, server.bind_of_bindable arrives]

section Parameters

variable {server : TableServer} {kind : WriteKind} {targetTable : ResolvedTableReference}
  {planned : List PlannedColumn} {role : ColumnRole} {row : StoredRow} {name : String} {α : Type}
  {items : List α}

theorem parameters_arrived {parameters : List Cell}
    (sent : server.parameters ((kind.placeholders planned).map Prod.snd) (planned.map cellOf) =
      .ok parameters) :
    parameters = (kind.placeholders planned).map fun placeholder =>
      server.arrived (cellOf placeholder.1) := by
  rw [TableServer.parameters, Outcome.mapM_eq_ok_iff, List.forall₂_map_left_iff] at sent
  apply Outcome.eq_map_of_forall₂
  have there : List.Forall₂ (fun placeholder (_ : Cell) =>
      planned[placeholder.2]? = some placeholder.1) (kind.placeholders planned) parameters := by
    rw [forall₂_iff_zip]
    refine ⟨sent.length_eq, fun isIn => getElem?_placeholder (of_mem_zip isIn).1⟩
  refine (Outcome.forall₂_and sent there).imp fun placeholder cell both => ?_
  have bound := both.1
  rw [getElem?_map, both.2] at bound
  have binds : server.bind (cellOf placeholder.1) = .ok cell := bound
  rw [arrived, binds]

/-- The cells of the columns with a role, as they arrive. -/
def TableServer.cellsWithRole (server : TableServer) (planned : List PlannedColumn)
    (role : ColumnRole) (cellOf : PlannedColumn → Cell) : List Cell :=
  (withRole planned role).map fun column => server.arrived (cellOf column.1)

def TableServer.assignRole (server : TableServer) (planned : List PlannedColumn)
    (role : ColumnRole) (cellOf : PlannedColumn → Cell) (row : StoredRow) : StoredRow :=
  assignCells (namesWithRole planned role) (server.cellsWithRole planned role cellOf) row

def TableServer.newRow (server : TableServer) (planned : List PlannedColumn)
    (cellOf : PlannedColumn → Cell) : StoredRow :=
  server.assignRole planned .value cellOf server.blank

/-! ## Assigned columns -/

theorem assignRole_of_notMem (absent : ⟨role, name⟩ ∉ planned) :
    server.assignRole planned role cellOf row (utf8Bytes name) = row (utf8Bytes name) := by
  apply assignCells_of_notMem
  rw [mem_map]
  rintro ⟨column, isIn, same⟩
  obtain ⟨isColumn, hasRole⟩ := mem_filter.mp isIn
  apply absent
  have isPlanned := fst_mem_of_mem_zipIdx isColumn
  rwa [← utf8Bytes_injective same, ← of_decide_eq_true hasRole]

theorem assignRole_of_mem (distinct : planned.Nodup) (isIn : ⟨role, name⟩ ∈ planned) :
    server.assignRole planned role cellOf row (utf8Bytes name) =
      server.arrived (cellOf ⟨role, name⟩) := by
  have once : ((withRole planned role).map fun column => utf8Bytes column.1.name).Nodup := by
    have columns : ((withRole planned role).map Prod.fst).Nodup := by
      rw [withRole_map_fst]
      exact distinct.filter _
    have named : ((withRole planned role).map Prod.fst).Pairwise fun first second =>
        utf8Bytes first.name ≠ utf8Bytes second.name := by
      refine columns.imp_of_mem fun {first second} isFirst isSecond different same => different ?_
      rw [withRole_map_fst, mem_filter, decide_eq_true_eq] at isFirst isSecond
      have sameRole : first.role = second.role := isFirst.2.trans isSecond.2.symm
      have sameName := utf8Bytes_injective same
      cases first
      cases second
      simp_all
    rw [pairwise_map] at named
    rw [List.Nodup, pairwise_map]
    exact named
  obtain ⟨position, there⟩ := mem_iff_getElem?.mp isIn
  have isColumn : ((⟨role, name⟩, position) : PlannedColumn × Nat) ∈ withRole planned role :=
    mem_filter.mpr ⟨mem_zipIdx_iff_getElem?.mpr there, decide_eq_true rfl⟩
  exact assignCells_of_mem once isColumn

/-! ## Kept properties -/

variable {Kept : StoredRow → Prop}

/-- Appends a row, or assigns columns of the first row that is in conflict with it. -/
def TableServer.insertRow (server : TableServer) (planned : List PlannedColumn)
    (cellOf : PlannedColumn → Cell) (rows : List StoredRow) : Evaluated (List StoredRow) :=
  match rows.findIdx? (server.conflicts (server.newRow planned cellOf)) with
  | none => .ok (rows ++ [server.newRow planned cellOf])
  | some position =>
    if namesWithRole planned .duplicate = [] then .error (.execution "Duplicate entry")
    else server.guardUnique (rows.modify position (server.assignRole planned .duplicate cellOf))

theorem run_insert_eq (cellOf : PlannedColumn → Cell) (rows : List StoredRow) :
    server.run (WriteKind.insert.statement targetTable planned)
        ((WriteKind.insert.placeholders planned).map fun placeholder =>
          server.arrived (cellOf placeholder.1)) rows =
      server.insertRow planned cellOf rows := by
  have length : (namesWithRole planned .value).length =
      (server.cellsWithRole planned .value cellOf).length := by
    rw [namesWithRole, cellsWithRole, length_map, length_map]
  have cells : ((WriteKind.insert.placeholders planned).map fun placeholder =>
      server.arrived (cellOf placeholder.1)) = server.cellsWithRole planned .value cellOf ++
        server.cellsWithRole planned .duplicate cellOf := map_append
  rw [cells, WriteKind.statement, run, length, take_left, drop_left]
  rfl

theorem insertRow_keeps (ran : server.insertRow planned cellOf rows = .ok final)
    (before : ∀ row ∈ rows, Kept row) (appended : Kept (server.newRow planned cellOf))
    (assigned : ∀ row ∈ rows, server.conflicts (server.newRow planned cellOf) row = true →
      Kept row → Kept (server.assignRole planned .duplicate cellOf row)) :
    ∀ row ∈ final, Kept row := by
  rw [insertRow] at ran
  cases found : rows.findIdx? (server.conflicts (server.newRow planned cellOf)) with
  | none =>
    rw [found] at ran
    cases ran
    rw [forall_mem_append, forall_mem_singleton]
    exact ⟨before, appended⟩
  | some position =>
    obtain ⟨below, conflicting, -⟩ := findIdx?_eq_some_iff_getElem.mp found
    simp only [found] at ran
    split_ifs at ran
    rw [guardUnique] at ran
    split_ifs at ran
    cases ran
    refine Rows.forall_mem_modify before fun row here => ?_
    have isRow : row = rows[position] :=
      (Option.some.inj ((getElem?_eq_getElem below).symm.trans here)).symm
    have isIn : row ∈ rows := mem_of_getElem? here
    exact assigned row isIn (isRow ▸ conflicting) (before row isIn)

theorem run_update_eq (cellOf : PlannedColumn → Cell) (rows : List StoredRow) :
    server.run (WriteKind.update.statement targetTable planned)
        ((WriteKind.update.placeholders planned).map fun placeholder =>
          server.arrived (cellOf placeholder.1)) rows =
      server.updateKey (namesWithRole planned .filter)
        (server.cellsWithRole planned .filter cellOf)
        (server.assignRole planned .value cellOf) rows := by
  have cells : ((WriteKind.update.placeholders planned).map fun placeholder =>
      server.arrived (cellOf placeholder.1)) = server.cellsWithRole planned .value cellOf ++
        server.cellsWithRole planned .filter cellOf := map_append
  rw [cells]
  exact run_update (utf8Bytes targetTable.schema) (utf8Bytes targetTable.table)
    (withRole planned .value) (fun column => utf8Bytes column.1.name)
    (fun column => server.arrived (cellOf column.1)) (server.cellsWithRole planned .filter cellOf)
    rows

theorem updateKey_keeps {conditions : List Bytes} {cells : List Cell}
    {assign : StoredRow → StoredRow}
    (ran : server.updateKey conditions cells assign rows = .ok final)
    (before : ∀ row ∈ rows, Kept row)
    (assigned : ∀ row ∈ rows, server.selects conditions cells row = true → Kept row →
      Kept (assign row)) : ∀ row ∈ final, Kept row := by
  rw [updateKey, guardUnique] at ran
  split_ifs at ran
  cases ran
  rw [forall_mem_map]
  intro row isIn
  split_ifs with selected
  · exact assigned row isIn selected (before row isIn)
  · exact before row isIn

theorem write_keeps (expressible : Expressible server.reserved kind targetTable planned)
    {cellOf : α → PlannedColumn → Cell}
    (wrote : server.write kind targetTable (planned.map PlannedColumn.fieldName)
      (items.map fun item => planned.map (cellOf item)) rows = .ok final)
    (before : ∀ row ∈ rows, Kept row)
    (keeps : ∀ item ∈ items, ∀ rows final, server.run (kind.statement targetTable planned)
        ((kind.placeholders planned).map fun placeholder =>
          server.arrived (cellOf item placeholder.1)) rows = .ok final →
      (∀ row ∈ rows, Kept row) → ∀ row ∈ final, Kept row) :
    ∀ row ∈ final, Kept row := by
  rw [write, parseWrite_text expressible, projection_eq expressible] at wrote
  dsimp only at wrote
  induction items generalizing rows with
  | nil =>
    cases wrote
    exact before
  | cons item rest ih =>
    rw [map_cons, foldlM_cons] at wrote
    obtain ⟨middle, first, others⟩ := Outcome.bind_eq_ok_iff.mp wrote
    obtain ⟨parameters, sent, ran⟩ := Outcome.bind_eq_ok_iff.mp first
    rw [parameters_arrived sent] at ran
    exact ih others (keeps item mem_cons_self rows middle ran before)
      (forall_mem_cons.mp keeps).2

end Parameters

end SecureFusion.Sinks
