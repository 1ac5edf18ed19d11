import SecureFusion.Providers.WritePlan
import SecureFusion.Sinks.Binding

/-!
# Encrypted columns of written rows

The server compares the names of columns without regard to letter case, the planner
compares them exactly. The names of inserted and updated columns come from the table; the
targets of an ON DUPLICATE KEY UPDATE clause are used as they are written, so that another
spelling of an encrypted column gets past the encryption.
-/

namespace SecureFusion.Providers

open Library Sql Crypto Sinks Indices List MySqlTableProvider PlannedColumn ProjectionExpr

variable {columns : List String} {provider : MySqlTableProvider} {onDuplicate : List (List String)}
  {column : String × Nat} {planned : List PlannedColumn} {demands : IndexDemands}

/-- The clauses of the statement that a sink sends for its input columns. -/
def WriteRequest.clauses (request : WriteRequest) (names : List String) : Clauses :=
  match request with
  | .insert .. => insertClauses names
  | .update _ => updateClauses names

def WriteRequest.targets : WriteRequest → List String
  | .insert _ onDuplicate => onDuplicate.filterMap List.head?
  | .update _ => []

namespace MySqlTableProvider

variable (provider : MySqlTableProvider)

/-- The columns of the statement that the proxy sends, with the expressions whose values are bound to
their placeholders. -/
def boundColumns (demands : IndexDemands) (forward additional : List ProjectionExpr)
    (request : WriteRequest) : Evaluated (List (String × Option PlanExpr)) := do
  let planned ← provider.plan demands request
  let (projected, names) ← provider.projectInsertUpdate demands forward additional
    (request.kind = .update) (planned.map PlannedColumn.fieldName)
  .ok ((request.clauses names).all.map fun column =>
    (column.1, (projected[column.2]?).map ProjectionExpr.expr))

end MySqlTableProvider

/-- The value of an expression is the output of an encryption with the key of a column. -/
def EncryptsFor (column : String) (expr : Option PlanExpr) : Prop :=
  ∃ child aadSource sourceType, expr = some (.encrypt child aadSource sourceType column)

/-- Every value that is bound for an encrypted column is the output of its encryption. The server
takes one name for the other if they are the `same`. -/
def MySqlTableProvider.BindsCiphertexts (provider : MySqlTableProvider)
    (same : String → String → Bool) (bound : List (String × Option PlanExpr)) : Prop :=
  ∀ placeholder ∈ bound, ∀ column ∈ provider.encryptedNames, same placeholder.1 column = true →
    EncryptsFor column placeholder.2

/-- The names that the planner relies on: encrypted columns and keys are columns of the table, the
server tells the columns of the table apart, takes no column of an index for an encrypted
column, and no column has a name with a prefix of the planner. -/
structure MySqlTableProvider.Names (provider : MySqlTableProvider)
    (same : String → String → Bool) (added : List String) : Prop where
  encrypted : ∀ column ∈ provider.encryptedNames, column ∈ provider.columnNames
  key : ∀ column ∈ provider.primaryKey, column ∈ provider.columnNames
  distinct : ∀ first ∈ provider.columnNames, ∀ second ∈ provider.columnNames,
    same first second = true → first = second
  separate : ∀ name ∈ added, ∀ column ∈ provider.encryptedNames, same name column = false
  unmarked : ∀ name ∈ provider.columnNames ++ added,
    ∀ namePrefix ∈ [duplicateValuePfx, currentValuePrefix, filterPrefix],
      hasPrefix namePrefix name = false

/-! ## Columns of the statement and fields of the input -/

/-- The column that an INSERT sets for a field of its input. -/
def insertTarget (field : String) : String :=
  if hasPrefix duplicateValuePfx field then withoutPrefix duplicateValuePfx field else field

/-- The column that an UPDATE sets or compares for a field of its input. -/
def updateTarget (field : String) : String :=
  if hasPrefix filterPrefix field then withoutPrefix filterPrefix field else field

theorem mem_insertClauses_iff {names : List String} :
    column ∈ (insertClauses names).all ↔
      ∃ field, names[column.2]? = some field ∧ column.1 = insertTarget field := by
  obtain ⟨name, position⟩ := column
  simp only [Clauses.all, insertClauses, mem_append, mem_filter, mem_map,
    mem_zipIdx_iff_getElem?, insertTarget]
  constructor
  · rintro (⟨here, unprefixed⟩ | ⟨field, ⟨here, isPrefixed⟩, same⟩)
    · exact ⟨name, here, by rw [if_neg (by simpa using unprefixed)]⟩
    · cases same
      exact ⟨field.1, here, by rw [if_pos isPrefixed]⟩
  · rintro ⟨field, here, same⟩
    by_cases isPrefixed : hasPrefix duplicateValuePfx field = true
    · rw [if_pos isPrefixed] at same
      exact .inr ⟨(field, position), ⟨here, isPrefixed⟩, by rw [same]⟩
    · rw [if_neg isPrefixed] at same
      rw [same]
      exact .inl ⟨here, by simpa using isPrefixed⟩

theorem exists_of_mem_updateClauses {names : List String}
    (member : column ∈ (updateClauses names).all) :
    ∃ field, names[column.2]? = some field ∧ hasPrefix currentValuePrefix field = false ∧
      column.1 = updateTarget field := by
  simp only [Clauses.all, updateClauses, mem_append, mem_map, mem_filter] at member
  rcases member with ⟨field, ⟨⟨isField, notCurrent⟩, notFilter⟩, rfl⟩ |
    ⟨field, ⟨⟨isField, notCurrent⟩, isFilter⟩, rfl⟩
  · refine ⟨field, getElem?_idxOf isField, by simpa using notCurrent, ?_⟩
    rw [updateTarget, if_neg (by simpa using notFilter)]
  · refine ⟨field, getElem?_idxOf isField, by simpa using notCurrent, ?_⟩
    rw [updateTarget, if_pos isFilter]

theorem MySqlTableProvider.exists_getColumnMetadata (provider : MySqlTableProvider) {column : String}
    (encrypted : column ∈ provider.encryptedNames) :
    ∃ type, provider.getColumnMetadata column = some type := by
  obtain ⟨entry, member, isName⟩ := mem_map.mp encrypted
  rw [getColumnMetadata, ← Option.isSome_iff_exists, lookup_isSome_iff]
  exact ⟨entry, member, beq_iff_eq.mpr isName.symm⟩

theorem encryptsFor_writtenField_iff {aadSource : List Crypto.PhysicalExpr} {field : String × Nat}
    {column : String} (encrypted : column ∈ provider.encryptedNames) :
    EncryptsFor column (some (provider.writtenField aadSource field).expr) ↔
      insertTarget field.1 = column := by
  have metadata : provider.fieldMetadata field.1 =
      (provider.getColumnMetadata (insertTarget field.1)).map fun type =>
        (insertTarget field.1, type) := rfl
  rw [writtenField, metadata]
  constructor
  · rintro ⟨child, source, type, same⟩
    cases found : provider.getColumnMetadata (insertTarget field.1) with
    | none =>
      rw [found] at same
      cases same
    | some original =>
      rw [found] at same
      cases same
      rfl
  · intro same
    rw [same]
    obtain ⟨type, found⟩ := provider.exists_getColumnMetadata encrypted
    rw [found]
    exact ⟨_, _, _, rfl⟩

theorem parseTargets_eq {targets : List String}
    (parsed : onDuplicate.mapM parseTarget = .ok targets) :
    targets = onDuplicate.filterMap List.head? := by
  have related := Outcome.mapM_eq_ok_iff.mp parsed
  clear parsed
  induction related with
  | nil => rfl
  | @cons parts target _ _ first _ ih =>
    cases parts with
    | nil => cases first
    | cons head tail =>
      cases first
      simp [ih]

theorem plan_insert_eq
    (accepted : provider.plan demands (.insert columns onDuplicate) = .ok planned) :
    planned = columns.map (⟨.value, ·⟩) ++
      (WriteRequest.insert columns onDuplicate).targets.map (⟨.duplicate, ·⟩) ++
      demands.hiddenRowId.toList.map (⟨.value, ·⟩) := by
  rw [plan, Outcome.bind_eq_ok_iff] at accepted
  obtain ⟨targets, parsed, rest⟩ := accepted
  obtain ⟨projected, unique, same⟩ := Outcome.bind_eq_ok_iff.mp rest
  have isTargets : targets = (WriteRequest.insert columns onDuplicate).targets :=
    parseTargets_eq parsed
  rw [tryProject] at unique
  split_ifs at unique
  cases unique
  cases same
  rw [isTargets]

theorem plan_update_eq (accepted : provider.plan demands (.update columns) = .ok planned) :
    planned = columns.map (⟨.value, ·⟩) ++
      (columns.filter fun name => name ∈ demands.updatesTracking).map (⟨.current, ·⟩) ++
      provider.primaryKey.map (⟨.filter, ·⟩) ++ demands.hiddenRowId.toList.map (⟨.current, ·⟩) := by
  rw [plan] at accepted
  split_ifs at accepted
  obtain ⟨projected, unique, same⟩ := Outcome.bind_eq_ok_iff.mp accepted
  rw [tryProject] at unique
  split_ifs at unique
  cases unique
  cases same
  rfl

section Columns

variable {forward : List ProjectionExpr} {same : String → String → Bool}
  (names : provider.Names same (demands.hiddenRowId.toList ++ forward.map ProjectionExpr.name))
  {name : String}

include names

theorem insertTarget_eq (isIn : name ∈ provider.columnNames ++
    (demands.hiddenRowId.toList ++ forward.map ProjectionExpr.name)) :
    insertTarget name = name := by
  have unmarked := names.unmarked name isIn duplicateValuePfx mem_cons_self
  rw [insertTarget, unmarked]
  rfl

theorem updateTarget_eq (isIn : name ∈ provider.columnNames ++
    (demands.hiddenRowId.toList ++ forward.map ProjectionExpr.name)) :
    updateTarget name = name := by
  have unmarked := names.unmarked name isIn filterPrefix (by simp)
  rw [updateTarget, unmarked]
  rfl

theorem insert_origin (ofTable : ∀ name ∈ columns, name ∈ provider.columnNames)
    (accepted : provider.plan demands (.insert columns onDuplicate) = .ok planned)
    (member : column ∈ (insertClauses (planned.map PlannedColumn.fieldName ++
      forward.map ProjectionExpr.name)).all) :
    (∃ field, (planned.map PlannedColumn.fieldName)[column.2]? = some field ∧
        insertTarget field = column.1 ∧ (column.1 ∈ provider.columnNames ∨
          column.1 ∈ (WriteRequest.insert columns onDuplicate).targets)) ∨
      column.1 ∈ demands.hiddenRowId.toList ++ forward.map ProjectionExpr.name := by
  obtain ⟨field, there, isTarget⟩ := mem_insertClauses_iff.mp member
  rw [getElem?_append] at there
  split_ifs at there with inside
  · have isField := mem_of_getElem? there
    rw [plan_insert_eq accepted] at isField
    simp only [map_append, map_map, mem_append, mem_map] at isField
    rcases isField with (⟨name, isColumn, rfl⟩ | ⟨target, isTarget', rfl⟩) | ⟨hidden, isHidden, rfl⟩
    · have isName : insertTarget name = name :=
        insertTarget_eq names (mem_append_left _ (ofTable name isColumn))
      have isName' : column.1 = name := isTarget.trans isName
      refine .inl ⟨_, there, isTarget.symm, .inl ?_⟩
      rw [isName']
      exact ofTable name isColumn
    · have isName : column.1 = target := by
        rw [isTarget]
        simp [insertTarget, fieldName]
      refine .inl ⟨_, there, isTarget.symm, .inr ?_⟩
      rw [isName]
      exact isTarget'
    · have isAdded : hidden ∈ demands.hiddenRowId.toList ++ forward.map ProjectionExpr.name :=
        List.mem_append_left _ isHidden
      have isName : insertTarget hidden = hidden :=
        insertTarget_eq names (mem_append_right _ isAdded)
      have isName' : column.1 = hidden := isTarget.trans isName
      exact .inr (isName' ▸ isAdded)
  · have isAdded : field ∈ demands.hiddenRowId.toList ++ forward.map ProjectionExpr.name :=
      List.mem_append_right _ (List.mem_of_getElem? there)
    have isName := insertTarget_eq names (mem_append_right _ isAdded)
    rw [isTarget, isName]
    exact .inr isAdded

theorem update_origin (ofTable : ∀ name ∈ columns, name ∈ provider.columnNames)
    (accepted : provider.plan demands (.update columns) = .ok planned)
    (member : column ∈ (updateClauses (planned.map PlannedColumn.fieldName ++
      forward.map ProjectionExpr.name)).all) :
    (∃ field, (planned.map PlannedColumn.fieldName)[column.2]? = some field ∧
        insertTarget field = column.1 ∧ column.1 ∈ provider.columnNames) ∨
      column.1 ∈ provider.primaryKey ∨
      column.1 ∈ demands.hiddenRowId.toList ++ forward.map ProjectionExpr.name := by
  obtain ⟨field, there, notCurrent, isTarget⟩ := exists_of_mem_updateClauses member
  rw [getElem?_append] at there
  split_ifs at there with inside
  · have isField := mem_of_getElem? there
    rw [plan_update_eq accepted] at isField
    simp only [map_append, map_map, mem_append, mem_map] at isField
    rcases isField with ((⟨name, isColumn, rfl⟩ | ⟨name, -, rfl⟩) | ⟨name, isKey, rfl⟩) | ⟨name, -, rfl⟩
    · have isIn := mem_append_left (demands.hiddenRowId.toList ++
        forward.map ProjectionExpr.name) (ofTable name isColumn)
      have isName : column.1 = name := isTarget.trans (updateTarget_eq names isIn)
      have sameTarget : insertTarget name = name := insertTarget_eq names isIn
      refine .inl ⟨_, there, ?_, isName ▸ ofTable name isColumn⟩
      rw [isName]
      exact sameTarget
    · simp [fieldName] at notCurrent
    · have isName : column.1 = name := by
        rw [isTarget]
        simp [updateTarget, fieldName]
      exact .inr (.inl (isName ▸ isKey))
    · simp [fieldName] at notCurrent
  · have isAdded : field ∈ demands.hiddenRowId.toList ++ forward.map ProjectionExpr.name :=
      List.mem_append_right _ (List.mem_of_getElem? there)
    have isName := updateTarget_eq names (mem_append_right _ isAdded)
    rw [isTarget, isName]
    exact .inr (.inr isAdded)

end Columns

/-- A statement that is accepted binds only ciphertexts for encrypted columns, if and only if its
ON DUPLICATE KEY UPDATE clause names encrypted columns exactly as the table does. -/
theorem boundColumns_encrypted_iff {provider : MySqlTableProvider} {demands : IndexDemands}
    {forward additional : List ProjectionExpr} {request : WriteRequest}
    {same : String → String → Bool} {bound : List (String × Option PlanExpr)}
    (names : provider.Names same
      (demands.hiddenRowId.toList ++ forward.map ProjectionExpr.name))
    (columns : ∀ name ∈ request.columns, name ∈ provider.columnNames)
    (accepted : provider.boundColumns demands forward additional request = .ok bound) :
    provider.BindsCiphertexts same bound ↔
      ∀ target ∈ request.targets, ∀ column ∈ provider.encryptedNames,
        same target column = true → target = column := by
  rw [boundColumns, Outcome.bind_eq_ok_iff] at accepted
  obtain ⟨planned, isPlanned, rest⟩ := accepted
  obtain ⟨⟨projected, kept⟩, isProjected, isBound⟩ := Outcome.bind_eq_ok_iff.mp rest
  obtain ⟨rfl, aadSource, layer, more, -, rfl⟩ := provider.projectInsertUpdate_spec isProjected
  cases isBound
  generalize forward.map (ProjectionExpr.over layer) ++ more = others
  have exprAt : ∀ {position : Nat} {field : String},
      (planned.map fieldName)[position]? = some field →
      (((planned.map fieldName).zipIdx.map (provider.writtenField aadSource) ++
        others)[position]?).map expr =
          some (provider.writtenField aadSource (field, position)).expr := by
    intro position field there
    have inside : position < ((planned.map fieldName).zipIdx.map
        (provider.writtenField aadSource)).length := by
      rw [length_map, length_zipIdx]
      exact (List.getElem?_eq_some_iff.mp there).1
    rw [List.getElem?_append_left inside, List.getElem?_map, List.getElem?_zipIdx, there]
    simp
  constructor
  · intro binds target isTarget column encrypted isSame
    cases request with
    | update => cases isTarget
    | insert inserted onDuplicate =>
      have isField : duplicateValuePfx ++ target ∈ planned.map fieldName := by
        rw [plan_insert_eq isPlanned]
        simp only [map_append, mem_append, mem_map]
        exact .inl (.inr ⟨⟨.duplicate, target⟩, ⟨target, isTarget, rfl⟩, rfl⟩)
      obtain ⟨position, there⟩ := mem_iff_getElem?.mp isField
      have isTargetOf : insertTarget (duplicateValuePfx ++ target) = target := by
        simp [insertTarget]
      have isColumn : (target, position) ∈ (insertClauses (planned.map fieldName ++
          forward.map ProjectionExpr.name)).all := by
        refine mem_insertClauses_iff.mpr ⟨duplicateValuePfx ++ target, ?_, isTargetOf.symm⟩
        rw [List.getElem?_append_left (List.getElem?_eq_some_iff.mp there).1]
        exact there
      have encrypts := binds _ (List.mem_map_of_mem isColumn) column encrypted isSame
      rw [exprAt there, encryptsFor_writtenField_iff encrypted] at encrypts
      exact isTargetOf.symm.trans encrypts
  · rintro exact' placeholder isPlaceholder column encrypted isSame
    obtain ⟨bound, isBound, rfl⟩ := mem_map.mp isPlaceholder
    have ofField : ∀ {field}, (planned.map fieldName)[bound.2]? = some field →
        insertTarget field = bound.1 → bound.1 = column →
        EncryptsFor column ((((planned.map fieldName).zipIdx.map
          (provider.writtenField aadSource) ++ others)[bound.2]?).map expr) := by
      intro field there isTarget isName
      rw [exprAt there, encryptsFor_writtenField_iff encrypted]
      exact isTarget.trans isName
    have notAdded : bound.1 ∉ demands.hiddenRowId.toList ++ forward.map ProjectionExpr.name := by
      intro isAdded
      have different := names.separate bound.1 isAdded column encrypted
      rw [isSame] at different
      cases different
    have ofTable : bound.1 ∈ provider.columnNames → bound.1 = column := fun isIn =>
      names.distinct bound.1 isIn column (names.encrypted column encrypted) isSame
    cases request with
    | insert inserted onDuplicate =>
      rcases insert_origin names columns isPlanned isBound with
        ⟨field, there, isTarget, origin⟩ | isAdded
      · rcases origin with isIn | isIn
        · exact ofField there isTarget (ofTable isIn)
        · exact ofField there isTarget (exact' bound.1 isIn column encrypted isSame)
      · exact absurd isAdded notAdded
    | update updated =>
      rcases update_origin names columns isPlanned isBound with
        ⟨field, there, isTarget, isIn⟩ | isKey | isAdded
      · exact ofField there isTarget (ofTable isIn)
      · have isName := ofTable (names.key bound.1 isKey)
        obtain ⟨type, found⟩ := provider.exists_getColumnMetadata encrypted
        have plain := provider.keyColumns_plain bound.1 isKey
        rw [isName] at plain
        rw [getColumnMetadata, plain] at found
        cases found
      · exact absurd isAdded notAdded

/-- Whether two names differ at most in the case of ASCII letters. -/
def sameIgnoringCase (first second : String) : Bool :=
  first.toList.map Char.toLower = second.toList.map Char.toLower

def notesProvider : MySqlTableProvider where
  tableReference := notesTable
  tableSchema := [⟨"id", .primitive .int32⟩, ⟨"secret", .bytes .binary⟩]
  encryptedColumns := [("secret", .text .utf8)]
  primaryKey := ["id"]
  rowBindingAad := false
  keyColumns_plain := by decide +kernel
  key_of_binding := by decide

def noDemands : IndexDemands := ⟨[], [], none⟩

theorem notesProvider_names : notesProvider.Names sameIgnoringCase [] where
  encrypted := by decide +kernel
  key := by decide +kernel
  distinct := by decide +kernel
  separate := by decide +kernel
  unmarked := by decide +kernel

/-- An INSERT of a note that replaces the text of one that exists. -/
theorem boundColumns_encrypted_note :
    ∃ bound, notesProvider.boundColumns noDemands [] [] (.insert ["id", "secret"] [["secret"]]) =
        .ok bound ∧ notesProvider.BindsCiphertexts sameIgnoringCase bound := by
  have names : notesProvider.Names sameIgnoringCase
      (noDemands.hiddenRowId.toList ++ [].map ProjectionExpr.name) := notesProvider_names
  have columns : ∀ name ∈ (WriteRequest.insert ["id", "secret"] [["secret"]]).columns,
      name ∈ notesProvider.columnNames := by decide +kernel
  have accepted : notesProvider.boundColumns noDemands [] []
      (.insert ["id", "secret"] [["secret"]]) = .ok _ := rfl
  exact ⟨_, accepted, (boundColumns_encrypted_iff names columns accepted).mpr (by decide +kernel)⟩

/-- With another spelling in the ON DUPLICATE KEY UPDATE clause, the plaintext is bound. -/
theorem boundColumns_plaintext :
    ∃ bound, notesProvider.Names sameIgnoringCase [] ∧
      notesProvider.boundColumns noDemands [] [] (.insert ["id", "secret"] [["SECRET"]]) =
        .ok bound ∧
      ("SECRET", some (.column "__pr_dup__SECRET" 2)) ∈ bound ∧
      ¬ notesProvider.BindsCiphertexts sameIgnoringCase bound := by
  refine ⟨_, notesProvider_names, rfl, ?_, fun binds => ?_⟩
  · exact mem_cons_of_mem _ (mem_cons_of_mem _ mem_cons_self)
  · obtain ⟨child, source, type, same⟩ := binds ("SECRET", some (.column "__pr_dup__SECRET" 2))
      (mem_cons_of_mem _ (mem_cons_of_mem _ mem_cons_self)) "secret"
      (by decide +kernel) (by decide +kernel)
    cases same

end SecureFusion.Providers
