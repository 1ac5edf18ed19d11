import Mathlib.Data.List.Nodup

/-!
# Scans of joined tables

A scan of several tables is a tree of joins. Each join selects columns of its two sides, which
are subqueries, by the names of their output columns. To find the table of an output column,
its position is compared with the number of columns of the left side.
-/

namespace SecureFusion.Planning

open List

variable {P : Type}

/-- The side of a join that a column is selected from, an alias of its subquery. -/
inductive Side where
  | left | right
deriving DecidableEq

/-- A tree of joins over the providers of tables. -/
inductive ScanHierarchyComponent (P : Type) where
  /-- The columns that are selected from a table. -/
  | leaf (tableReference : P) (projection : List String)
  | join (left right : ScanHierarchyComponent P) (projectColumns : List (Side × String))

namespace ScanHierarchyComponent

/-- The names of the output columns. -/
def outputNames : ScanHierarchyComponent P → List String
  | .leaf _ projection => projection
  | .join _ _ projectColumns => projectColumns.map Prod.snd

/-- The number of output columns. -/
def numColumns (scan : ScanHierarchyComponent P) : Nat := scan.outputNames.length

/-- The provider that is taken for the table of an output column. -/
def getTableReference : ScanHierarchyComponent P → Nat → P
  | .leaf tableReference _, _ => tableReference
  | .join left right _, columnIndex =>
    if columnIndex < left.numColumns then left.getTableReference columnIndex
    else right.getTableReference (columnIndex - left.numColumns)

/-- The table that a column of the generated SELECT comes from, none if there is no such column. -/
def sourceTable : ScanHierarchyComponent P → Nat → Option P
  | .leaf tableReference projection, column => projection[column]?.map fun _ => tableReference
  | .join left right projectColumns, column => do
    match ← projectColumns[column]? with
    | (.left, name) => left.sourceTable (left.outputNames.idxOf name)
    | (.right, name) => right.sourceTable (right.outputNames.idxOf name)

/-- The columns of a join without a projection. -/
def allColumns (left right : ScanHierarchyComponent P) : List (Side × String) :=
  left.outputNames.map (.left, ·) ++ right.outputNames.map (.right, ·)

/-- The join of two scans; a projection outside of their columns panics. -/
def joinWith (left right : ScanHierarchyComponent P) (project : Option (List Nat)) :
    Option (ScanHierarchyComponent P) := do
  let columns := allColumns left right
  match project with
  | none => some (.join left right columns)
  | some offsets => some (.join left right (← offsets.mapM (columns[·]?)))

/-- The table that a selected column of a join comes from. -/
def sourceOf (left right : ScanHierarchyComponent P) : Side × String → Option P
  | (.left, name) => left.sourceTable (left.outputNames.idxOf name)
  | (.right, name) => right.sourceTable (right.outputNames.idxOf name)

/-- Each side of a join has distinct column names; the server rejects any other SELECT. -/
def Distinct : ScanHierarchyComponent P → Prop
  | .leaf .. => True
  | .join left right _ =>
    left.outputNames.Nodup ∧ right.outputNames.Nodup ∧ left.Distinct ∧ right.Distinct

/-- A join selects a column of the same table as the one that stands there without a projection. -/
def KeepsTable : ScanHierarchyComponent P → Nat → Prop
  | .leaf .., _ => True
  | .join left right projectColumns, column =>
    projectColumns[column]?.bind (sourceOf left right) =
      (allColumns left right)[column]?.bind (sourceOf left right)

/-- The joins that are visited on the way to a column, below the first one, keep its table. -/
def KeptBelow : ScanHierarchyComponent P → Nat → Prop
  | .leaf .., _ => True
  | .join left right _, column =>
    if column < left.numColumns then left.KeepsTable column ∧ left.KeptBelow column
    else
      column - left.numColumns < right.numColumns ∧
        right.KeepsTable (column - left.numColumns) ∧ right.KeptBelow (column - left.numColumns)

/-- The position of a name among distinct ones. -/
theorem idxOf_of_getElem? {names : List String} (distinct : names.Nodup) {position : Nat}
    {name : String} (there : names[position]? = some name) : names.idxOf name = position := by
  obtain ⟨inside, rfl⟩ := List.getElem?_eq_some_iff.mp there
  exact distinct.idxOf_getElem position inside

/-- A column of the left side without a projection is one of the left side. -/
theorem sourceOf_left {left : ScanHierarchyComponent P} (right : ScanHierarchyComponent P)
    (distinct : left.outputNames.Nodup) {column : Nat} (inside : column < left.numColumns) :
    (allColumns left right)[column]?.bind (sourceOf left right) = left.sourceTable column := by
  obtain ⟨name, there⟩ : ∃ name, left.outputNames[column]? = some name :=
    ⟨_, getElem?_eq_getElem inside⟩
  rw [allColumns, getElem?_append_left (by rwa [length_map]), getElem?_map, there]
  show left.sourceTable _ = _
  rw [idxOf_of_getElem? distinct there]

/-- A column behind those of the left side is one of the right side. -/
theorem sourceOf_right (left : ScanHierarchyComponent P) {right : ScanHierarchyComponent P}
    (distinct : right.outputNames.Nodup) {column : Nat} (behind : ¬column < left.numColumns)
    (inside : column - left.numColumns < right.numColumns) :
    (allColumns left right)[column]?.bind (sourceOf left right) =
      right.sourceTable (column - left.numColumns) := by
  obtain ⟨name, there⟩ : ∃ name, right.outputNames[column - left.numColumns]? = some name :=
    ⟨_, getElem?_eq_getElem inside⟩
  rw [allColumns, getElem?_append_right (by rw [length_map]; exact Nat.not_lt.mp behind),
    length_map, ← numColumns, getElem?_map, there]
  show right.sourceTable _ = _
  rw [idxOf_of_getElem? distinct there]

/-- Where the joins below it keep the table of an output column, the table is found exactly if the
join itself keeps it. -/
theorem sourceTable_eq_iff {scan : ScanHierarchyComponent P} (distinct : scan.Distinct)
    {column : Nat} (inside : column < scan.numColumns) (below : scan.KeptBelow column) :
    scan.sourceTable column = some (scan.getTableReference column) ↔ scan.KeepsTable column := by
  induction scan generalizing column with
  | leaf tableReference projection =>
    refine iff_of_true ?_ trivial
    obtain ⟨name, there⟩ : ∃ name, projection[column]? = some name :=
      ⟨_, getElem?_eq_getElem inside⟩
    rw [sourceTable, there]
    rfl
  | join left right projectColumns ihLeft ihRight =>
    obtain ⟨leftNames, rightNames, leftDistinct, rightDistinct⟩ := distinct
    -- The provider that is found is that of the column without the projection.
    have found : (allColumns left right)[column]?.bind (sourceOf left right) =
        some ((join left right projectColumns).getTableReference column) := by
      rw [KeptBelow] at below
      rw [getTableReference]
      split_ifs at below ⊢ with isLeft
      · rw [sourceOf_left right leftNames isLeft]
        exact (ihLeft leftDistinct isLeft below.2).mpr below.1
      · obtain ⟨isRight, keeps, below⟩ := below
        rw [sourceOf_right left rightNames isLeft isRight]
        exact (ihRight rightDistinct isRight below).mpr keeps
    have source : (join left right projectColumns).sourceTable column =
        projectColumns[column]?.bind (sourceOf left right) := rfl
    rw [KeepsTable, found, source]

/-- A table joined with a join that has a projection. -/
def besideProjected : ScanHierarchyComponent String :=
  .join (.leaf "a" ["x"]) (.join (.leaf "b" ["y"]) (.leaf "c" ["z"]) [(.right, "z")])
    [(.left, "x"), (.right, "z")]

/-- The table of a column is found beside a join with a projection, which is not visited. -/
theorem sourceTable_eq_beside : besideProjected.sourceTable 0 = some "a" := by
  have distinct : besideProjected.Distinct :=
    ⟨by decide, by decide, trivial, by decide, by decide, trivial, trivial⟩
  have below : besideProjected.KeptBelow 0 := ⟨trivial, trivial⟩
  exact (sourceTable_eq_iff distinct (by decide) below).mpr rfl

/-- The output column is one of the right side, and the left side is taken for its table. -/
theorem sourceTable_of_projected :
    ∃ scan, joinWith (.leaf "a" ["x"]) (.leaf "b" ["y"]) (some [1]) = some scan ∧
      scan.sourceTable 0 = some "b" ∧ scan.getTableReference 0 = "a" :=
  ⟨_, rfl, rfl, rfl⟩

end ScanHierarchyComponent

end SecureFusion.Planning
