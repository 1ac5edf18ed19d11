import SecureFusion.Providers.TableProvider
import SecureFusion.Sinks.DmlSinks

/-!
# Plans that write rows

The planner gives the sink of an INSERT or UPDATE an input whose columns are named after
the columns of the table, with a prefix for values that are not simply written. Between
this input and the sink stand two projections: the first encrypts what no index reads, the
second encrypts the rest and adds the columns of the indices. Whether a column is encrypted
is decided by its name alone.
-/

namespace SecureFusion.Providers

open Library Sql Crypto Sinks Indices List

/-! ## Logical plans -/

/-- A statement that writes rows, as far as it names columns. -/
inductive WriteRequest where
  /-- The columns of the inserted rows, and the targets of the ON DUPLICATE KEY UPDATE clause with
  the parts of their names. -/
  | insert (columns : List String) (onDuplicate : List (List String))
  /-- The columns that the statement changes. -/
  | update (columns : List String)
deriving DecidableEq, Repr

def WriteRequest.kind : WriteRequest → WriteKind
  | .insert .. => .insert
  | .update _ => .update

/-- The columns that the planner has found in the table. -/
def WriteRequest.columns : WriteRequest → List String
  | .insert columns _ => columns
  | .update columns => columns

/-- The column that an assignment is for: the first part of its target. -/
def parseTarget : List String → Evaluated String
  | [] => .error (.execution "invalid empty target for SET expression")
  | first :: _ => .ok first

/-- A projection, whose columns must have different names. -/
def tryProject (planned : List PlannedColumn) : Evaluated (List PlannedColumn) :=
  if (planned.map PlannedColumn.fieldName).Nodup then .ok planned
  else .error (.execution "Projections require unique expression names")

/-- What the indices of a table need of its rows. -/
structure IndexDemands where
  /-- The columns that some index reads. -/
  trackedColumns : List String
  /-- The columns whose old value some index reads in an update. -/
  updatesTracking : List String
  /-- A generated column with row ids. -/
  hiddenRowId : Option String

/-- The columns that the planner gives to the sink of a statement. -/
def MySqlTableProvider.plan (provider : MySqlTableProvider) (demands : IndexDemands) :
    WriteRequest → Evaluated (List PlannedColumn)
  | .insert columns onDuplicate => do
    let targets ← onDuplicate.mapM parseTarget
    let planned ← tryProject (columns.map (⟨.value, ·⟩) ++ targets.map (⟨.duplicate, ·⟩))
    .ok (planned ++ demands.hiddenRowId.toList.map (⟨.value, ·⟩))
  | .update columns =>
    if provider.primaryKey = [] then .error (.execution "Cannot UPDATE without a primary key")
    else do
      let tracked := columns.filter fun name => name ∈ demands.updatesTracking
      let planned ← tryProject (columns.map (⟨.value, ·⟩) ++ tracked.map (⟨.current, ·⟩) ++
        provider.primaryKey.map (⟨.filter, ·⟩))
      .ok (planned ++ demands.hiddenRowId.toList.map (⟨.current, ·⟩))

/-! ## Projections -/

/-- An expression of a projection. -/
inductive PlanExpr where
  | column (name : String) (index : Nat)
  | toBinary (child : PlanExpr)
  /-- Encryption with the key of a column. The additional data is computed from some columns and the
  original type. -/
  | encrypt (child : PlanExpr) (aadSource : List Crypto.PhysicalExpr) (sourceType : DataType)
      (cipherColumn : String)
  /-- What an index computes from the rows. -/
  | ofIndex (name : String)

/-- An expression with the name of its column. -/
structure ProjectionExpr where
  expr : PlanExpr
  name : String

/-- An expression over the columns of another projection. -/
def PlanExpr.over (layer : List ProjectionExpr) : PlanExpr → PlanExpr
  | .column name index => ((layer[index]?).map ProjectionExpr.expr).getD (.column name index)
  | .toBinary child => .toBinary (child.over layer)
  | .encrypt child aadSource sourceType cipherColumn =>
    .encrypt (child.over layer) aadSource sourceType cipherColumn
  | .ofIndex name => .ofIndex name

/-- A column of a projection over the columns of another one. -/
def ProjectionExpr.over (layer : List ProjectionExpr) (projection : ProjectionExpr) :
    ProjectionExpr :=
  { projection with expr := projection.expr.over layer }

namespace MySqlTableProvider

variable (provider : MySqlTableProvider)

/-- The encrypted column that a field of the input is for, with its original type. -/
def fieldMetadata (field : String) : Option (String × DataType) :=
  let name := if hasPrefix duplicateValuePfx field then withoutPrefix duplicateValuePfx field
    else field
  (provider.getColumnMetadata name).map fun type => (name, type)

def encryptField (aadSource : List Crypto.PhysicalExpr) (column : String × DataType)
    (field : String × Nat) : PlanExpr :=
  .encrypt (.toBinary (.column field.1 field.2)) aadSource column.2 column.1

def layer1Field (trackedColumns : List String) (aadSource : List Crypto.PhysicalExpr)
    (field : String × Nat) : ProjectionExpr :=
  { expr := match provider.fieldMetadata field.1 with
      | none => .column field.1 field.2
      | some column =>
        if field.1 ∈ trackedColumns then .column field.1 field.2
        else encryptField aadSource column field
    name := field.1 }

def layer2Field (trackedColumns : List String) (aadSource : List Crypto.PhysicalExpr)
    (field : String × Nat) : ProjectionExpr :=
  { expr := match provider.fieldMetadata field.1 with
      | none => .column field.1 field.2
      | some column =>
        if field.1 ∈ trackedColumns then encryptField aadSource column field
        else .column field.1 field.2
    name := field.1 }

/-- The columns that the sinks read, and the names of those that are written to the table. The
indices add columns to the table (`forward`) and to their own sinks (`additional`). -/
def projectInsertUpdate (demands : IndexDemands) (forward additional : List ProjectionExpr)
    (isUpdate : Bool) (schema : List String) :
    Evaluated (List ProjectionExpr × List String) := do
  let aadSource ← provider.getAadSourcePhysical schema (if isUpdate then filterPrefix else "")
  let layer1 := schema.zipIdx.map (provider.layer1Field demands.trackedColumns aadSource)
  if demands.trackedColumns = [] ∧ forward = [] ∧ additional = [] then
    .ok (layer1, layer1.map ProjectionExpr.name)
  else
    let layer2 := schema.zipIdx.map (provider.layer2Field demands.trackedColumns aadSource) ++
      forward ++ additional
    let project := layer2.map (ProjectionExpr.over layer1)
    .ok (project, (project.map ProjectionExpr.name).take (layer1.length + forward.length))

def writtenField (aadSource : List Crypto.PhysicalExpr) (field : String × Nat) : ProjectionExpr :=
  { expr := match provider.fieldMetadata field.1 with
      | none => .column field.1 field.2
      | some column => encryptField aadSource column field
    name := field.1 }

theorem layer2Field_over {trackedColumns schema : List String}
    {aadSource : List Crypto.PhysicalExpr} {field : String × Nat} (member : field ∈ schema.zipIdx) :
    (provider.layer2Field trackedColumns aadSource field).over
        (schema.zipIdx.map (provider.layer1Field trackedColumns aadSource)) =
      provider.writtenField aadSource field := by
  have below : (schema.zipIdx.map (provider.layer1Field trackedColumns aadSource))[field.2]? =
      some (provider.layer1Field trackedColumns aadSource field) := by
    have there := mem_zipIdx_iff_getElem?.mp member
    rw [getElem?_map, getElem?_zipIdx, there]
    simp
  have column : PlanExpr.over (schema.zipIdx.map (provider.layer1Field trackedColumns aadSource))
      (.column field.1 field.2) = (provider.layer1Field trackedColumns aadSource field).expr := by
    rw [PlanExpr.over, below]
    rfl
  rw [ProjectionExpr.over, layer2Field, writtenField]
  congr 1
  cases metadata : provider.fieldMetadata field.1 with
  | none =>
    dsimp only
    rw [column, layer1Field, metadata]
  | some encrypted =>
    by_cases tracked : field.1 ∈ trackedColumns
    · simp only [tracked, if_true, encryptField, PlanExpr.over, below, Option.map_some,
        Option.getD_some, layer1Field, metadata]
    · simp only [tracked, if_false]
      rw [column, layer1Field, metadata]
      simp only [tracked, if_false]

theorem projectInsertUpdate_spec {demands : IndexDemands} {forward additional : List ProjectionExpr}
    {isUpdate : Bool} {schema : List String} {projected : List ProjectionExpr}
    {names : List String}
    (planned : provider.projectInsertUpdate demands forward additional isUpdate schema =
      .ok (projected, names)) :
    names = schema ++ forward.map ProjectionExpr.name ∧
      ∃ aadSource layer rest,
        provider.getAadSourcePhysical schema (if isUpdate then filterPrefix else "") =
          .ok aadSource ∧
        projected = schema.zipIdx.map (provider.writtenField aadSource) ++
          (forward.map (ProjectionExpr.over layer) ++ rest) := by
  rw [projectInsertUpdate, Outcome.bind_eq_ok_iff] at planned
  obtain ⟨aadSource, isSource, rest⟩ := planned
  have fieldNames : ∀ {f : String × Nat → ProjectionExpr}, (∀ field, (f field).name = field.1) →
      (schema.zipIdx.map f).map ProjectionExpr.name = schema := by
    intro f same
    rw [map_map]
    exact (map_congr_left fun field _ => same field).trans (zipIdx_map_fst 0 schema)
  split_ifs at rest with direct
  · cases rest
    have layer : schema.zipIdx.map (provider.layer1Field demands.trackedColumns aadSource) =
        schema.zipIdx.map (provider.writtenField aadSource) := by
      refine map_congr_left fun field _ => ?_
      simp only [layer1Field, direct.1, not_mem_nil, if_false, writtenField]
    refine ⟨?_, aadSource, [], [], isSource, ?_⟩
    · rw [layer, fieldNames fun _ => rfl, direct.2.1, map_nil, append_nil]
    · rw [layer, direct.2.1, map_nil, append_nil, append_nil]
  · cases rest
    have base : (schema.zipIdx.map (provider.layer2Field demands.trackedColumns aadSource)).map
        (ProjectionExpr.over
          (schema.zipIdx.map (provider.layer1Field demands.trackedColumns aadSource))) =
        schema.zipIdx.map (provider.writtenField aadSource) := by
      rw [map_map]
      exact map_congr_left fun field member => provider.layer2Field_over member
    have forwardNames : ∀ layer, (forward.map (ProjectionExpr.over layer)).map
        ProjectionExpr.name = forward.map ProjectionExpr.name := by
      intro layer
      rw [map_map]
      rfl
    simp only [map_append, base, append_assoc, forwardNames]
    refine ⟨?_, aadSource, _, _, isSource, rfl⟩
    rw [fieldNames fun _ => rfl]
    simp [take_append, take_of_length_le]

end MySqlTableProvider

end SecureFusion.Providers
