import SecureFusion.Indices.UpdateSink
import SecureFusion.Server.Statements
import SecureFusion.Sinks.Params
import SecureFusion.Sql.Identifiers

/-!
# Sinks that write rows

A sink builds one statement from the column names of its input and executes it for
every row. The planner marks what a column is for by a prefix of its name: the values for
a row that exists already, the values of the row before an update, and the values that
identify the row. The sinks tell the columns apart by these prefixes again, and write the
names into the text as they are.
-/

namespace SecureFusion.Sinks

open Library Sql Crypto Server Indices

/-- The prefix of the columns for a row that exists already. -/
def duplicateValuePfx : String := "__pr_dup__"

def hasPrefix (namePrefix name : String) : Bool := namePrefix.toList.isPrefixOf name.toList

def withoutPrefix (namePrefix name : String) : String :=
  String.ofList (name.toList.drop namePrefix.toList.length)

/-- The columns of a statement in its two clauses, each with the position of its parameter in the
input. -/
structure Clauses where
  first : List (String × Nat)
  second : List (String × Nat)

/-- All columns of a statement in the order of their placeholders. -/
def Clauses.all (clauses : Clauses) : List (String × Nat) := clauses.first ++ clauses.second

/-- The columns that an INSERT sets, and those that it updates if the row exists. -/
def insertClauses (insertSchema : List String) : Clauses where
  first := insertSchema.zipIdx.filter fun field => !hasPrefix duplicateValuePfx field.1
  second := (insertSchema.zipIdx.filter fun field => hasPrefix duplicateValuePfx field.1).map
    fun field => (withoutPrefix duplicateValuePfx field.1, field.2)

/-- The columns that an UPDATE sets, and those that identify the row. -/
def updateClauses (updateSchema : List String) : Clauses :=
  let written := updateSchema.filter fun name => !hasPrefix currentValuePrefix name
  let filters := written.filter fun name => hasPrefix filterPrefix name
  let updates := written.filter fun name => !hasPrefix filterPrefix name
  { first := updates.map fun name => (name, updateSchema.idxOf name)
    second := filters.map fun name => (withoutPrefix filterPrefix name, updateSchema.idxOf name) }

/-- A sink for a statement with placeholders. -/
structure MySqlDmlSink where
  queryString : String
  /-- The columns of the input in the order of the placeholders. -/
  columnsProjection : List Nat

def onTable (verb : String) (targetTable : ResolvedTableReference) (clause : String) : String :=
  verb ++ targetTable.schema ++ "." ++ targetTable.table ++ clause

/-- The text of an INSERT of columns, with the columns to update if the row exists. -/
def insertQuery (targetTable : ResolvedTableReference) (columns duplicateUpdates : List String) :
    String :=
  let insertSet := ",".intercalate (columns.map (· ++ "=?"))
  let onDuplicateSet := ",".intercalate (duplicateUpdates.map (· ++ "=?"))
  let onDuplicate :=
    if onDuplicateSet = "" then "" else " ON DUPLICATE KEY UPDATE " ++ onDuplicateSet
  onTable "INSERT INTO " targetTable " SET " ++ insertSet ++ onDuplicate

/-- The sink of an INSERT. -/
def MySqlDmlSink.insert (targetTable : ResolvedTableReference) (insertSchema : List String) :
    MySqlDmlSink :=
  let clauses := insertClauses insertSchema
  { queryString :=
      insertQuery targetTable (clauses.first.map Prod.fst) (clauses.second.map Prod.fst)
    columnsProjection := clauses.all.map Prod.snd }

/-- The text of an UPDATE of columns, with the columns that identify the row. -/
def updateQuery (targetTable : ResolvedTableReference) (updates filters : List String) : String :=
  onTable "UPDATE " targetTable " SET " ++ ", ".intercalate (updates.map (· ++ " = ?")) ++
    " WHERE " ++ " AND ".intercalate (filters.map (· ++ " = ?"))

/-- The sink of an UPDATE. -/
def MySqlDmlSink.update (targetTable : ResolvedTableReference) (updateSchema : List String) :
    MySqlDmlSink :=
  let clauses := updateClauses updateSchema
  { queryString :=
      updateQuery targetTable (clauses.first.map Prod.fst) (clauses.second.map Prod.fst)
    columnsProjection := clauses.all.map Prod.snd }

/-- The text of a DELETE by key. -/
def deleteQuery (targetTable : ResolvedTableReference) (primaryKeySchema : List String) : String :=
  onTable "DELETE FROM " targetTable " WHERE " ++
    " AND ".intercalate (primaryKeySchema.map (· ++ " = ?"))

/-- The statements that sinks write rows with. -/
inductive WriteKind where
  | insert | update | delete
deriving DecidableEq, Repr

/-- The text that a sink prepares, and the parameters that it executes it with for the rows of a
batch. -/
def WriteKind.handleBatch (kind : WriteKind) (targetTable : ResolvedTableReference)
    (batch : RecordBatch) : Evaluated (String × List (List Value)) :=
  match kind with
  | .insert => do
    let sink := MySqlDmlSink.insert targetTable batch.names
    let rows ← mapRowsToParamsReordered batch (some sink.columnsProjection)
    .ok (sink.queryString, rows)
  | .update => do
    let sink := MySqlDmlSink.update targetTable batch.names
    let rows ← mapRowsToParamsReordered batch (some sink.columnsProjection)
    .ok (sink.queryString, rows)
  | .delete => do
    let rows ← mapRowsToParams batch
    .ok (deleteQuery targetTable batch.names, rows)

namespace WriteKind

/-- The text that a sink prepares for some input columns. -/
def text (kind : WriteKind) (targetTable : ResolvedTableReference) (names : List String) : String :=
  match kind with
  | .insert => (MySqlDmlSink.insert targetTable names).queryString
  | .update => (MySqlDmlSink.update targetTable names).queryString
  | .delete => deleteQuery targetTable names

def projection (kind : WriteKind) (targetTable : ResolvedTableReference) (names : List String) :
    List Nat :=
  match kind with
  | .insert => (MySqlDmlSink.insert targetTable names).columnsProjection
  | .update => (MySqlDmlSink.update targetTable names).columnsProjection
  | .delete => List.range names.length

theorem handleBatch_eq_text (kind : WriteKind) (targetTable : ResolvedTableReference)
    (batch : RecordBatch) :
    kind.handleBatch targetTable batch = (do
      let rows ← mapRowsToParamsReordered batch (some (kind.projection targetTable batch.names))
      .ok (kind.text targetTable batch.names, rows)) := by
  cases kind with
  | insert | update => rfl
  | delete =>
    rw [handleBatch, mapRowsToParams_eq, projection, text, batch.named]

end WriteKind

/-! ## What the planner means -/

/-- What a column of the input of a sink is for. -/
inductive ColumnRole where
  | value | duplicate | current | filter
deriving DecidableEq, Repr

/-- A column of the table in the input of a sink. -/
structure PlannedColumn where
  role : ColumnRole
  name : String
deriving DecidableEq, Repr

/-- The name that the planner gives to a column of the input. -/
def PlannedColumn.fieldName (column : PlannedColumn) : String :=
  match column.role with
  | .value => column.name
  | .duplicate => duplicateValuePfx ++ column.name
  | .current => currentValuePrefix ++ column.name
  | .filter => filterPrefix ++ column.name

/-- The columns of the input with a role, with their positions. -/
def withRole (planned : List PlannedColumn) (role : ColumnRole) : List (PlannedColumn × Nat) :=
  planned.zipIdx.filter fun column => column.1.role = role

def namesWithRole (planned : List PlannedColumn) (role : ColumnRole) : List Bytes :=
  (withRole planned role).map fun column => utf8Bytes column.1.name

namespace WriteKind

def roles : WriteKind → List ColumnRole
  | .insert => [.value, .duplicate]
  | .update => [.value, .current, .filter]
  | .delete => [.value]

/-- The columns of the input whose values are parameters, in their order. -/
def placeholders (kind : WriteKind) (planned : List PlannedColumn) : List (PlannedColumn × Nat) :=
  match kind with
  | .insert => withRole planned .value ++ withRole planned .duplicate
  | .update => withRole planned .value ++ withRole planned .filter
  | .delete => withRole planned .value

def statement (kind : WriteKind) (targetTable : ResolvedTableReference)
    (planned : List PlannedColumn) : WriteStatement :=
  let schema := utf8Bytes targetTable.schema
  let table := utf8Bytes targetTable.table
  match kind with
  | .insert => .insert schema table (namesWithRole planned .value) (namesWithRole planned .duplicate)
  | .update => .update schema table (namesWithRole planned .value) (namesWithRole planned .filter)
  | .delete => .delete schema table (namesWithRole planned .value)

/-- The prefixes by which a sink tells columns apart from those that are written. -/
def prefixes : WriteKind → List String
  | .insert => [duplicateValuePfx]
  | .update => [currentValuePrefix, filterPrefix]
  | .delete => []

end WriteKind

end SecureFusion.Sinks
