import SecureFusion.Sql.Identifiers
import SecureFusion.Crypto.AssociatedData

/-!
# Tables with encrypted columns

What the planner knows about a table: its columns, which of them are encrypted and
of which type they were, and its primary key. If the additional data of ciphertexts
is bound to rows, it is computed from the primary key: the write path looks the key
columns up by their names, the read path parses the names as SQL text.
-/

namespace SecureFusion.Providers

open Library Sql Crypto

/-- A column of a schema. -/
structure Field where
  name : String
  dataType : DataType
deriving DecidableEq, Repr

/-- A table of the server. -/
structure MySqlTableProvider where
  tableReference : ResolvedTableReference
  tableSchema : List Field
  /-- The encrypted columns with their original types. -/
  encryptedColumns : List (String × DataType)
  primaryKey : List String
  /-- Whether the additional data of ciphertexts contains the primary key. -/
  rowBindingAad : Bool
  /-- A column of the primary key is never encrypted. -/
  keyColumns_plain : ∀ name ∈ primaryKey, encryptedColumns.lookup name = none
  /-- Ciphertexts are bound to rows only if there is a primary key. -/
  key_of_binding : rowBindingAad = true → primaryKey ≠ []

namespace MySqlTableProvider

variable (provider : MySqlTableProvider)

def columnNames : List String := provider.tableSchema.map Field.name

def encryptedNames : List String := provider.encryptedColumns.map Prod.fst

def getColumnMetadata (name : String) : Option DataType := provider.encryptedColumns.lookup name

/-- The columns that the read path computes the additional data from. -/
def getAadSource (classes : CharClasses) : List Column :=
  if provider.rowBindingAad then provider.primaryKey.map (Column.fromQualifiedName classes)
  else []

end MySqlTableProvider

def readColumn (index : Nat) : PhysicalExpr := fun batch =>
  match batch.columns[index]? with
  | some column => .ok (.array column)
  | none => .error (.panic "index out of bounds")

/-- The expression of the column of a schema with a name. -/
def physicalCol (schema : List String) (name : String) : Evaluated PhysicalExpr :=
  match schema.idxOf? name with
  | some index => .ok (readColumn index)
  | none => .error (.execution ("Unable to get field named " ++ name))

/-- The expressions that the write path computes the additional data from. -/
def MySqlTableProvider.getAadSourcePhysical (provider : MySqlTableProvider) (schema : List String)
    (namePrefix : String) : Evaluated (List PhysicalExpr) :=
  if provider.rowBindingAad then
    provider.primaryKey.mapM fun name => physicalCol schema (namePrefix ++ name)
  else .ok []

/-- The expression of a logical column over the scan of a table. -/
def planColumn (table : ResolvedTableReference) (names : List String) (column : Column) :
    Evaluated PhysicalExpr :=
  match indexOfColumn table names column with
  | some index => .ok (readColumn index)
  | none => .error (.execution ("No field named " ++ column.name))

/-- The additional data that the write path computes for a batch. -/
def MySqlTableProvider.writeAad (provider : MySqlTableProvider) (typeName : Bytes)
    (namePrefix : String) (batch : RecordBatch) : Evaluated ColumnarValue := do
  let source ← provider.getAadSourcePhysical batch.names namePrefix
  computeAadExpr source typeName batch

/-- The additional data that the read path computes for a batch of the scan of the table. -/
def MySqlTableProvider.readAad (provider : MySqlTableProvider) (classes : CharClasses)
    (typeName : Bytes) (batch : RecordBatch) : Evaluated ColumnarValue := do
  let source ← (provider.getAadSource classes).mapM
    (planColumn provider.tableReference batch.names)
  computeAadUdf source typeName batch

end SecureFusion.Providers
