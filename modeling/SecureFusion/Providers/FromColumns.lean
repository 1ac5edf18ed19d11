import Mathlib.Data.List.Nodup

/-!
# Table providers of introspected tables

A provider hides the columns that the proxy has added to a table. Its schema is built from
the other columns, while its defaults and the positions of its primary key come from passes
over all columns.
-/

namespace SecureFusion.Providers

open List

/-- What is read of a column definition of the server. -/
structure ColumnDef where
  name : String
  defaultValue : Option String
  isAutoIncrement : Bool
deriving DecidableEq

/-- What is read of a field of the schema; an encrypted one carries its own default value. -/
structure SchemaField where
  name : String
  isEncrypted : Bool
  rawSourceType : String
  defaultValue : Option String
deriving DecidableEq

inductive ColumnDefault where
  | expr (sql : String)
  | autoIncrement
deriving DecidableEq

structure IntrospectedProvider where
  tableSchema : List SchemaField
  columnsDefaults : String → Option ColumnDefault
  /-- The column indices of the primary key constraint. -/
  primaryKey : Option (List Nat)

section

-- The field of a column and whether it is hidden, both from the metadata of the table, and the
-- parser of the default values of a type.
variable (buildField : ColumnDef → SchemaField) (isColumnHidden : String → Bool)
  (parseDefaultValue : String → String → Option String)

/-- The default of a column, none if there is none or if it cannot be parsed. -/
def buildColumnDefault (column : ColumnDef) (field : SchemaField) : Option ColumnDefault :=
  if field.isEncrypted then do
    some (.expr (← parseDefaultValue field.rawSourceType (← field.defaultValue)))
  else match column.defaultValue with
    | some value => some (.expr value)
    | none => if column.isAutoIncrement then some .autoIncrement else none

def visibleColumns (columns : List ColumnDef) : List ColumnDef :=
  columns.filter fun column => !isColumnHidden column.name

def keyIndices (primaryKey : List String) (columns : List ColumnDef) : List Nat :=
  (columns.zipIdx.filter fun entry => entry.1.name ∈ primaryKey).map Prod.snd

/-- The provider that is read off the columns of a table. -/
def fromColumns (columns : List ColumnDef) (primaryKey : List String) : IntrospectedProvider :=
  let schema := (visibleColumns isColumnHidden columns).map buildField
  { tableSchema := schema
    columnsDefaults := fun name => (columns.zip schema).findSome? fun (column, field) =>
      if column.name = name then buildColumnDefault parseDefaultValue column field else none
    primaryKey := if primaryKey.isEmpty then none else some (keyIndices primaryKey columns) }

/-- Each visible column has its own default, and the constraint is on the key columns of the
schema. -/
def Faithful (columns : List ColumnDef) (primaryKey : List String) : Prop :=
  let provider := fromColumns buildField isColumnHidden parseDefaultValue columns primaryKey
  (∀ column ∈ visibleColumns isColumnHidden columns,
    provider.columnsDefaults column.name =
      buildColumnDefault parseDefaultValue column (buildField column)) ∧
  ∀ indices ∈ provider.primaryKey,
    indices = keyIndices primaryKey (visibleColumns isColumnHidden columns)

end

theorem findSome?_of_agree {α β : Type} {matched : α → Prop} [DecidablePred matched]
    {value : α → Option β} {result : Option β} {entries : List α}
    (agree : ∀ entry ∈ entries, matched entry → value entry = result)
    (found : (∃ entry ∈ entries, matched entry) ∨ result = none) :
    (entries.findSome? fun entry => if matched entry then value entry else none) = result := by
  cases result with
  | none => exact findSome?_eq_none_iff.mpr fun entry isIn => ite_eq_right_iff.mpr (agree entry isIn)
  | some _ =>
    obtain ⟨entry, isIn, isMatched⟩ := found.resolve_right (by simp)
    have isSome : (entries.findSome? fun entry =>
        if matched entry then value entry else none).isSome := by
      rw [findSome?_isSome_iff]
      exact ⟨entry, isIn, by rw [if_pos isMatched, agree entry isIn isMatched]; rfl⟩
    obtain ⟨other, equal⟩ := Option.isSome_iff_exists.mp isSome
    obtain ⟨first, isFirst, taken⟩ := exists_of_findSome?_eq_some equal
    obtain ⟨firstMatched, taken⟩ := Option.ite_none_right_eq_some.mp taken
    rw [equal, ← taken, agree first isFirst firstMatched]

theorem keyIndices_append {primaryKey : List String} {columns rest : List ColumnDef}
    (noKey : ∀ column ∈ rest, column.name ∉ primaryKey) :
    keyIndices primaryKey (columns ++ rest) = keyIndices primaryKey columns := by
  have none : (rest.zipIdx columns.length).filter (fun entry => entry.1.name ∈ primaryKey) = [] := by
    apply filter_eq_nil_iff.mpr
    intro entry member isKey
    exact noKey _ (fst_mem_of_mem_zipIdx member) (of_decide_eq_true isKey)
  rw [keyIndices, zipIdx_append, filter_append, Nat.zero_add, none, append_nil, keyIndices]

end SecureFusion.Providers
