import SecureFusion.Providers.Confidentiality
import SecureFusion.Providers.StoredRows

/-!
# Projections on single rows

The projections in front of a sink, evaluated on one row of its input. A field that is for
an encrypted column becomes the ciphertext of its value, with the additional data of the key
that the input names: the old key in an UPDATE, the new one in an INSERT.
-/

namespace SecureFusion.Providers

open Library Sql Crypto Sinks Indices List MySqlTableProvider Outcome PlannedColumn

/-! ## Additional data of one row -/

/-- The bytes of the additional data of the only row of a batch. -/
def onlyAad (aad : ColumnarValue) : Evaluated Bytes :=
  match aad.rows 1 with
  | [.bytes _ (some bytes)] => .ok bytes
  | _ => .error (.execution "AAD is null")

variable {value : ScalarValue} {name : String}

theorem columnNamed_rowBatch {cells : List (String × ScalarValue)}
    (found : cells.lookup name = some value) :
    columnNamed (rowBatch cells) name = some (toArrayOfSize value 1) := by
  change ((cells.map Prod.fst).idxOf? name).bind
    ((cells.map fun cell => toArrayOfSize cell.2 1)[·]?) = _
  induction cells with
  | nil => cases found
  | cons cell rest ih =>
    rw [map_cons, map_cons, idxOf?_cons]
    by_cases same : cell.1 = name
    · rw [lookup_cons, same, beq_self_eq_true] at found
      cases found
      rw [if_pos (beq_iff_eq.mpr same)]
      rfl
    · rw [lookup_cons, beq_false_of_ne (Ne.symm same)] at found
      rw [if_neg (by simpa using same), Option.bind_map]
      exact ih found

section Aad

variable {provider : MySqlTableProvider} {typeName : DataType → Bytes}
  {key : List ScalarValue} {namePrefix : String} {cells : List (String × ScalarValue)}

theorem columnsNamed_rowBatch
    (isKey : List.Forall₂ (fun name value => cells.lookup (namePrefix ++ name) = some value)
      provider.primaryKey key) :
    List.Forall₂ (fun name array => columnNamed (rowBatch cells) (namePrefix ++ name) = some array)
      provider.primaryKey (key.map (toArrayOfSize · 1)) :=
  forall₂_map_right_iff.mpr (isKey.imp fun _ _ => columnNamed_rowBatch)

theorem aadRows_key (bound : provider.rowBindingAad = true) (type : DataType) :
    aadRows (baseAad (typeName type) key.length) ((key.map (toArrayOfSize · 1)).map castBytes) 1 =
      [provider.cellAad typeName type key] := by
  simp only [aadRows, cellAad, bound, if_true, map_map]
  rfl

theorem aadColumn_key (bound : provider.rowBindingAad = true) (type : DataType) :
    aadColumn (typeName type) ((key.map (toArrayOfSize · 1)).map castBytes) 1 =
      .array (.ofBinary [some (provider.cellAad typeName type key)]) := by
  rw [aadColumn, length_map, length_map, aadRows_key bound]
  rfl

theorem writeAad_unbound (unbound : ¬ provider.rowBindingAad = true) (type : DataType) :
    (provider.writeAad (typeName type) namePrefix (rowBatch cells)).bind onlyAad =
      .ok (provider.cellAad typeName type key) := by
  have source : provider.getAadSourcePhysical (rowBatch cells).names namePrefix = .ok [] :=
    if_neg unbound
  rw [writeAad, source, cellAad, if_neg unbound]
  have base : rowAad (baseAad (typeName type) 0) [] = baseAad (typeName type) 0 :=
    append_nil _
  exact (congrArg Except.ok base).symm

theorem eq_cellAad_of_writeAad {type : DataType} {bytes : Bytes}
    (isKey : List.Forall₂ (fun name value => cells.lookup (namePrefix ++ name) = some value)
      provider.primaryKey key)
    (computed : (provider.writeAad (typeName type) namePrefix (rowBatch cells)).bind onlyAad =
      .ok bytes) : bytes = provider.cellAad typeName type key := by
  by_cases bound : provider.rowBindingAad = true
  · obtain ⟨column, written, only⟩ := bind_eq_ok_iff.mp computed
    have same := ((writeAad_eq_ok_iff bound (columnsNamed_rowBatch isKey)).mp written).2.2.2
    have isColumn : column = .array (.ofBinary [some (provider.cellAad typeName type key)]) :=
      same.trans (aadColumn_key bound type)
    rw [isColumn] at only
    cases only
    rfl
  · exact Except.ok.inj (computed.symm.trans (writeAad_unbound bound type))

end Aad

/-! ## Expressions on one row -/

/-- The value of an expression of a projection on a batch of one row. -/
def PlanExpr.cell (typeName : DataType → Bytes) (indexCell : String → Cell)
    (batch : RecordBatch) : PlanExpr → Evaluated Cell
  | .column _ index =>
    match batch.columns[index]? with
    | some array => do .ok (.plain (← tryFromArray array 0))
    | none => .error (.panic "index out of bounds")
  -- The binary form of a value stands for the value.
  | .toBinary child => child.cell typeName indexCell batch
  | .encrypt child aadSource sourceType cipherColumn => do
    let plain ← child.cell typeName indexCell batch
    let aad ← (computeAadExpr aadSource (typeName sourceType) batch).bind onlyAad
    match plain with
    | .plain value =>
      .ok (if value.isNull then .plain value else .ciphertext cipherColumn aad value)
    | .ciphertext .. => .error (.execution "expected a plaintext")
  | .ofIndex name => .ok (indexCell name)

section Written

variable {provider : MySqlTableProvider} {typeName : DataType → Bytes}
  {indexCell : String → Cell} {key : List ScalarValue} {namePrefix : String}
  {cells : List (String × ScalarValue)} {aadOf : DataType → Evaluated Bytes}

/-- The cell that is written for a value of a column, if its additional data can be computed. -/
def MySqlTableProvider.writtenCell (provider : MySqlTableProvider)
    (aadOf : DataType → Evaluated Bytes) (name : String) (value : ScalarValue) :
    Evaluated Cell :=
  match provider.getColumnMetadata name with
  | none => .ok (.plain value)
  | some type => do
    let aad ← aadOf type
    .ok (if value.isNull then .plain value else .ciphertext name aad value)

theorem writtenCell_eq_sealCell {cell : Cell}
    (ofKey : ∀ type bytes, aadOf type = .ok bytes → bytes = provider.cellAad typeName type key)
    (written : provider.writtenCell aadOf name value = .ok cell) :
    cell = provider.sealCell typeName key name value := by
  rw [writtenCell] at written
  rw [sealCell]
  cases metadata : provider.getColumnMetadata name with
  | none =>
    rw [metadata] at written
    cases written
    rfl
  | some type =>
    rw [metadata] at written
    obtain ⟨aad, computed, same⟩ := bind_eq_ok_iff.mp written
    cases same
    rw [ofKey type aad computed]

theorem cell_writtenField {aadSource : List Crypto.PhysicalExpr}
    (source : provider.getAadSourcePhysical (cells.map Prod.fst) namePrefix = .ok aadSource)
    {position : Nat} {field : String} (here : cells[position]? = some (field, value)) :
    (provider.writtenField aadSource (field, position)).expr.cell typeName indexCell
        (rowBatch cells) =
      provider.writtenCell (fun type =>
        (provider.writeAad (typeName type) namePrefix (rowBatch cells)).bind onlyAad)
        (insertTarget field) value := by
  have read : (PlanExpr.column field position).cell typeName indexCell (rowBatch cells) =
      .ok (.plain value) := by
    have column : (rowBatch cells).columns[position]? = some (toArrayOfSize value 1) := by
      simp [rowBatch, here]
    rw [PlanExpr.cell, column]
    rfl
  have metadata : provider.fieldMetadata field =
      (provider.getColumnMetadata (insertTarget field)).map fun type =>
        (insertTarget field, type) := rfl
  rw [writtenField, metadata, writtenCell]
  cases provider.getColumnMetadata (insertTarget field) with
  | none => exact read
  | some type =>
    have names : (rowBatch cells).names = cells.map Prod.fst := rfl
    simp only [writeAad, names, source, ok_bind, Option.map_some, encryptField, PlanExpr.cell]
    rw [PlanExpr.cell] at read
    simp only [read, ok_bind]

def inputRow (planned : List PlannedColumn) (valueOf : PlannedColumn → ScalarValue) :
    List (String × ScalarValue) :=
  planned.map fun column => (column.fieldName, valueOf column)

/-- The columns of the sink: those of the plan, and those that indices add to the table. -/
def sinkColumns (planned : List PlannedColumn) (forward : List ProjectionExpr) :
    List PlannedColumn :=
  planned ++ forward.map fun added => ⟨.value, added.name⟩

def MySqlTableProvider.sinkRow (typeName : DataType → Bytes) (batch : RecordBatch)
    (valueOf : PlannedColumn → ScalarValue) (projected : List ProjectionExpr) :
    Evaluated (List Cell) :=
  projected.mapM fun one =>
    one.expr.cell typeName (fun name => .plain (valueOf ⟨.value, name⟩)) batch

section Sink

variable {demands : IndexDemands} {forward additional : List ProjectionExpr} {isUpdate : Bool}
  {planned : List PlannedColumn} {valueOf : PlannedColumn → ScalarValue}
  {projected : List ProjectionExpr} {names : List String}
  (isProjected : provider.projectInsertUpdate demands forward additional isUpdate
    (planned.map PlannedColumn.fieldName) = .ok (projected, names))
  (ofIndices : ∀ added ∈ forward, added.expr = .ofIndex added.name ∧
    insertTarget added.name = added.name ∧ provider.getColumnMetadata added.name = none)

include isProjected

theorem names_projected : names = (sinkColumns planned forward).map PlannedColumn.fieldName := by
  obtain ⟨rfl, -⟩ := provider.projectInsertUpdate_spec isProjected
  rw [sinkColumns, map_append, map_map]
  rfl

include ofIndices

theorem sinkRow_eq :
    MySqlTableProvider.sinkRow typeName (rowBatch (inputRow planned valueOf)) valueOf
        (projected.take names.length) =
      (sinkColumns planned forward).mapM fun column =>
        provider.writtenCell (fun type => (provider.writeAad (typeName type)
            (if isUpdate then filterPrefix else "") (rowBatch (inputRow planned valueOf))).bind
              onlyAad) (insertTarget column.fieldName) (valueOf column) := by
  obtain ⟨rfl, aadSource, layer, rest, source, rfl⟩ := provider.projectInsertUpdate_spec isProjected
  have fieldNames : (inputRow planned valueOf).map Prod.fst =
      planned.map fieldName := by
    rw [inputRow, map_map]
    rfl
  have taken : ((planned.map fieldName).zipIdx.map (provider.writtenField aadSource)
      ++ (forward.map (ProjectionExpr.over layer) ++ rest)).take
        (planned.map fieldName ++ forward.map ProjectionExpr.name).length =
      (planned.map fieldName).zipIdx.map (provider.writtenField aadSource) ++
        forward.map (ProjectionExpr.over layer) := by
    rw [← append_assoc]
    exact take_left' (by simp)
  have positions : ∀ f : PlannedColumn → Evaluated Cell,
      planned.mapM f = planned.zipIdx.mapM fun entry => f entry.1 := by
    intro f
    conv_lhs => rw [← zipIdx_map_fst 0 planned, mapM_map]
    rfl
  rw [taken, sinkRow, sinkColumns, mapM_append, mapM_append]
  congr 1
  · rw [positions, zipIdx_map, map_map, mapM_map]
    refine mapM_congr fun entry member => ?_
    have there := mem_zipIdx_iff_getElem?.mp member
    have here : (inputRow planned valueOf)[entry.2]? =
        some (entry.1.fieldName, valueOf entry.1) := by
      rw [inputRow, getElem?_map, there]
      rfl
    exact cell_writtenField (fieldNames ▸ source) here
  · funext written
    congr 1
    rw [mapM_map, mapM_map]
    refine mapM_congr fun added isAdded => ?_
    obtain ⟨isIndex, target, plain⟩ := ofIndices added isAdded
    have named : insertTarget (fieldName ⟨.value, added.name⟩) = added.name := target
    simp only [Function.comp_apply, named, writtenCell, plain,
      ProjectionExpr.over, isIndex, PlanExpr.over, PlanExpr.cell]

variable (isKey : List.Forall₂ (fun name value => (inputRow planned valueOf).lookup
  ((if isUpdate then filterPrefix else "") ++ name) = some value) provider.primaryKey key)

include isKey

theorem sinkRow_sealed {cells : List Cell}
    (sunk : MySqlTableProvider.sinkRow typeName (rowBatch (inputRow planned valueOf)) valueOf
      (projected.take names.length) = .ok cells) :
    cells = (sinkColumns planned forward).map fun column =>
      provider.sealCell typeName key (insertTarget column.fieldName) (valueOf column) := by
  rw [sinkRow_eq isProjected ofIndices, mapM_eq_ok_iff] at sunk
  refine eq_map_of_forall₂ (sunk.imp fun column cell written => ?_)
  exact writtenCell_eq_sealCell (fun _ _ computed => eq_cellAad_of_writeAad isKey computed) written

end Sink

end Written

end SecureFusion.Providers
