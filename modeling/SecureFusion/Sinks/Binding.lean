import SecureFusion.Sinks.DmlSinks

/-!
# Statements of sinks and their parameters

The text of a sink is the statement that the planner means, and its parameters are the
values of the columns that the statement names, if the names are words that need no quotes
and no column that is written has a name with a prefix of the planner.
-/

namespace SecureFusion.Sinks

open Library Sql Crypto Server Indices List Reads WriteStatement PlannedColumn WriteKind

variable {kind : WriteKind} {targetTable : ResolvedTableReference} {planned : List PlannedColumn}
  {batch : RecordBatch} (namePrefix name : String)

/-! ## Texts -/

def Unquoted (reserved : Bytes → Bool) (names : List String) : Prop :=
  ∀ name ∈ names, isUnquotedName reserved (utf8Bytes name) = true

section Texts

variable {reserved : Bytes → Bool} {names : List String}

theorem Unquoted.bytes (unquoted : Unquoted reserved names) :
    ∀ column ∈ names.map utf8Bytes, isUnquotedName reserved column = true :=
  forall_mem_map.mpr unquoted

theorem reads_bindings (unquoted : Unquoted reserved names) {separator equation : String}
    {between : List Token} (readsBetween : lexer.run .blank (utf8Bytes separator) = (.blank, between))
    (readsEquation : lexer.run .blank (utf8Bytes equation) =
      (.blank, [.symbol 0x3D, .symbol 0x3F]))
    (ends : (utf8Bytes equation).head?.any (!isWordByte ·) = true) :
    Reads (utf8Bytes (separator.intercalate (names.map (· ++ equation))))
      (between.intercalate ((names.map utf8Bytes).map bindingTokens)) := by
  rw [utf8Bytes_intercalate, map_map, map_map]
  refine (of_run readsBetween).intercalate fun name member => ?_
  have word := isWord_of_isUnquotedName (unquoted name member)
  obtain ⟨first, head, ends⟩ := (Option.any_eq_true _ _).mp ends
  have one := word_append word (of_run readsEquation) head (by simpa using ends)
  simpa [utf8Bytes_append, bindingTokens] using one

theorem reads_onTable (schema : isUnquotedName reserved (utf8Bytes targetTable.schema) = true)
    (table : isWord (utf8Bytes targetTable.table) = true) {verb clause : String}
    {verbTokens clauseTokens : List Token} (readsVerb : Reads (utf8Bytes verb) verbTokens)
    (readsClause : Reads (utf8Bytes clause) clauseTokens)
    (head : (utf8Bytes clause).head? = some 0x20) :
    Reads (utf8Bytes (onTable verb targetTable clause))
      (verbTokens ++
        (tableTokens (utf8Bytes targetTable.schema) (utf8Bytes targetTable.table) ++
          clauseTokens)) := by
  have period : Reads (utf8Bytes ".") [.symbol 0x2E] := of_run (by decide +kernel)
  have periodHead : (utf8Bytes ".").head? = some 0x2E := by decide +kernel
  have readsSchema := word_append (isWord_of_isUnquotedName schema) period periodHead
    (by decide)
  have readsTable := word_append table readsClause head (by decide)
  have all := readsVerb.append (readsSchema.append readsTable)
  simpa [onTable, utf8Bytes_append, tableTokens, append_assoc] using all

theorem reads_insertSet (unquoted : Unquoted reserved names) :
    Reads (utf8Bytes (",".intercalate (names.map (· ++ "=?"))))
      (assignmentTokens (names.map utf8Bytes)) :=
  reads_bindings unquoted (by decide +kernel) (by decide +kernel) (by decide +kernel)

theorem reads_condition (unquoted : Unquoted reserved names) :
    Reads (utf8Bytes (" AND ".intercalate (names.map (· ++ " = ?"))))
      (conditionTokens (names.map utf8Bytes)) :=
  reads_bindings unquoted (by decide +kernel) (by decide +kernel) (by decide +kernel)

theorem insertSet_eq_empty_iff : ",".intercalate (names.map (· ++ "=?")) = "" ↔ names = [] := by
  match names with
  | [] => simp
  | [name] => simp
  | name :: another :: names => simp [String.intercalate_cons_cons]

variable (schema : isUnquotedName reserved (utf8Bytes targetTable.schema) = true)
  (table : isWord (utf8Bytes targetTable.table) = true) {updates filters : List String}
  {columns : List String}

include schema table

theorem parseWrite_insertQuery {columns duplicateUpdates : List String} (some : columns ≠ [])
    (unquoted : Unquoted reserved columns) (unquotedUpdates : Unquoted reserved duplicateUpdates) :
    parseWrite reserved (insertQuery targetTable columns duplicateUpdates) =
      .some (.insert (utf8Bytes targetTable.schema) (utf8Bytes targetTable.table)
        (columns.map utf8Bytes) (duplicateUpdates.map utf8Bytes)) := by
  have verb : Reads (utf8Bytes "INSERT INTO ") [keywordToken "INSERT", keywordToken "INTO"] :=
    of_run (by decide +kernel)
  have set : Reads (utf8Bytes " SET ") [keywordToken "SET"] := of_run (by decide +kernel)
  have onDuplicate : Reads (utf8Bytes " ON DUPLICATE KEY UPDATE ") [keywordToken "ON",
      keywordToken "DUPLICATE", keywordToken "KEY", keywordToken "UPDATE"] :=
    of_run (by decide +kernel)
  have begins := (reads_onTable schema table verb set (by decide +kernel)).append
    (reads_insertSet unquoted)
  refine parseWrite_of_reads ?_ schema ?_ ?_
  · by_cases none : duplicateUpdates = []
    · simpa [insertQuery, utf8Bytes_append, tokens, none, insertSet_eq_empty_iff]
        using begins
    · have reads := begins.append (onDuplicate.append (reads_insertSet unquotedUpdates))
      simpa [insertQuery, utf8Bytes_append, tokens, none, insertSet_eq_empty_iff,
        append_assoc] using reads
  · exact forall_mem_append.mpr ⟨unquoted.bytes, unquotedUpdates.bytes⟩
  · simpa [required] using some

theorem reads_updateQuery (unquoted : Unquoted reserved updates)
    (unquotedFilters : Unquoted reserved filters) :
    Reads (utf8Bytes (updateQuery targetTable updates filters))
      (WriteStatement.update (utf8Bytes targetTable.schema) (utf8Bytes targetTable.table)
        (updates.map utf8Bytes) (filters.map utf8Bytes)).tokens := by
  have verb : Reads (utf8Bytes "UPDATE ") [keywordToken "UPDATE"] := of_run (by decide +kernel)
  have set : Reads (utf8Bytes " SET ") [keywordToken "SET"] := of_run (by decide +kernel)
  have condition : Reads (utf8Bytes " WHERE ") [keywordToken "WHERE"] :=
    of_run (by decide +kernel)
  have begins := reads_onTable schema table verb set (by decide +kernel)
  have assignments : Reads (utf8Bytes (", ".intercalate (updates.map (· ++ " = ?"))))
      (assignmentTokens (updates.map utf8Bytes)) :=
    reads_bindings unquoted (by decide +kernel) (by decide +kernel) (by decide +kernel)
  have reads := ((begins.append assignments).append condition).append
    (reads_condition unquotedFilters)
  simpa [updateQuery, utf8Bytes_append, tokens, append_assoc] using reads

theorem parseWrite_updateQuery (some : updates ≠ []) (someFilters : filters ≠ [])
    (unquoted : Unquoted reserved updates) (unquotedFilters : Unquoted reserved filters) :
    parseWrite reserved (updateQuery targetTable updates filters) =
      .some (.update (utf8Bytes targetTable.schema) (utf8Bytes targetTable.table)
        (updates.map utf8Bytes) (filters.map utf8Bytes)) := by
  refine parseWrite_of_reads (reads_updateQuery schema table unquoted unquotedFilters) schema ?_ ?_
  · exact forall_mem_append.mpr ⟨unquoted.bytes, unquotedFilters.bytes⟩
  · simpa [required] using And.intro some someFilters

theorem parseWrite_updateQuery_nil {filters : List String}
    (unquotedFilters : Unquoted reserved filters) :
    parseWrite reserved (updateQuery targetTable [] filters) = none :=
  parseWrite_of_reads_empty (reads_updateQuery schema table nofun unquotedFilters) schema rfl

theorem reads_deleteQuery (unquoted : Unquoted reserved columns) :
    Reads (utf8Bytes (deleteQuery targetTable columns))
      (WriteStatement.delete (utf8Bytes targetTable.schema) (utf8Bytes targetTable.table)
        (columns.map utf8Bytes)).tokens := by
  have verb : Reads (utf8Bytes "DELETE FROM ") [keywordToken "DELETE", keywordToken "FROM"] :=
    of_run (by decide +kernel)
  have condition : Reads (utf8Bytes " WHERE ") [keywordToken "WHERE"] :=
    of_run (by decide +kernel)
  have begins := reads_onTable schema table verb condition (by decide +kernel)
  have reads := begins.append (reads_condition unquoted)
  simpa [deleteQuery, utf8Bytes_append, tokens, append_assoc] using reads

theorem parseWrite_deleteQuery (some : columns ≠ []) (unquoted : Unquoted reserved columns) :
    parseWrite reserved (deleteQuery targetTable columns) =
      .some (.delete (utf8Bytes targetTable.schema) (utf8Bytes targetTable.table)
        (columns.map utf8Bytes)) := by
  refine parseWrite_of_reads (reads_deleteQuery schema table unquoted) schema unquoted.bytes ?_
  simpa [required] using some

theorem parseWrite_deleteQuery_nil : parseWrite reserved (deleteQuery targetTable []) = none :=
  parseWrite_of_reads_empty (reads_deleteQuery schema table nofun) schema rfl

end Texts

/-! ## Columns and their roles -/

@[simp] theorem hasPrefix_append : hasPrefix namePrefix (namePrefix ++ name) = true := by
  simp [hasPrefix]

@[simp] theorem withoutPrefix_append : withoutPrefix namePrefix (namePrefix ++ name) = name := by
  simp [withoutPrefix]

/-- No column that is written has a name with a prefix that the sink looks for. -/
def Unmarked (kind : WriteKind) (planned : List PlannedColumn) : Prop :=
  ∀ column ∈ planned, column.role = .value →
    ∀ namePrefix ∈ kind.prefixes, hasPrefix namePrefix column.name = false

instance (kind : WriteKind) (planned : List PlannedColumn) : Decidable (Unmarked kind planned) :=
  inferInstanceAs (Decidable (∀ column ∈ planned, column.role = .value →
    ∀ namePrefix ∈ kind.prefixes, hasPrefix namePrefix column.name = false))

/-- What the sinks can express: words as names, no column to write with a prefix of the planner, and
no empty clause. -/
structure Expressible (reserved : Bytes → Bool) (kind : WriteKind)
    (targetTable : ResolvedTableReference) (planned : List PlannedColumn) : Prop where
  roles : ∀ column ∈ planned, column.role ∈ kind.roles
  schema : isUnquotedName reserved (utf8Bytes targetTable.schema) = true
  table : isWord (utf8Bytes targetTable.table) = true
  names : ∀ placeholder ∈ kind.placeholders planned,
    isUnquotedName reserved (utf8Bytes placeholder.1.name) = true
  unmarked : Unmarked kind planned
  complete : ∀ clause ∈ (kind.statement targetTable planned).required, clause ≠ []
  /-- An UPDATE finds the columns of its input by their names. -/
  distinct : kind = .update → planned.Nodup

section Roles

variable {reserved : Bytes → Bool} (role : ColumnRole)

theorem zipIdx_filter_fieldName {marked : String → Bool} {role : ColumnRole}
    (same : ∀ column ∈ planned, marked column.fieldName = decide (column.role = role)) :
    (planned.map PlannedColumn.fieldName).zipIdx.filter (fun field => marked field.1) =
      (withRole planned role).map (Prod.map PlannedColumn.fieldName id) := by
  rw [zipIdx_map, filter_map, withRole]
  refine congrArg _ (filter_congr fun column member => ?_)
  exact same column.1 (fst_mem_of_mem_zipIdx member)

/-- The prefixes of the planner and the roles that they mark. -/
def roleMarks : List (String × ColumnRole) :=
  [(duplicateValuePfx, .duplicate), (currentValuePrefix, .current), (filterPrefix, .filter)]

variable {role namePrefix} in
theorem hasPrefix_fieldName {column : PlannedColumn} (isMark : (namePrefix, role) ∈ roleMarks)
    (plain : column.role = .value → hasPrefix namePrefix column.name = false) :
    hasPrefix namePrefix column.fieldName = decide (column.role = role) := by
  simp only [roleMarks, mem_cons, Prod.mk.injEq, not_mem_nil, or_false] at isMark
  obtain ⟨ownRole, name⟩ := column
  cases ownRole with
  | value => rcases isMark with ⟨rfl, rfl⟩ | ⟨rfl, rfl⟩ | ⟨rfl, rfl⟩ <;> exact plain rfl
  | duplicate | current | filter =>
    rcases isMark with ⟨rfl, rfl⟩ | ⟨rfl, rfl⟩ | ⟨rfl, rfl⟩ <;>
      simp only [fieldName, hasPrefix, duplicateValuePfx, currentValuePrefix,
        filterPrefix, String.toList_append] <;> rfl

theorem fieldName_inj (roles : ∀ column ∈ planned, column.role ∈ kind.roles)
    (unmarked : Unmarked kind planned) {first second : PlannedColumn} (isFirst : first ∈ planned)
    (isSecond : second ∈ planned) (same : first.fieldName = second.fieldName) : first = second := by
  have marks : ∀ mark ∈ roleMarks, mark.2 ∈ kind.roles →
      (first.role = mark.2 ↔ second.role = mark.2) := by
    intro mark isMark isRole
    have looked : mark.1 ∈ kind.prefixes := by
      revert mark
      cases kind <;> decide
    have marked := fun column isIn => @hasPrefix_fieldName mark.1 mark.2 column isMark
      fun isValue => unmarked column isIn isValue _ looked
    have onFirst := marked first isFirst
    rw [same, marked second isSecond] at onFirst
    exact decide_eq_decide.mp onFirst.symm
  have firstAllowed := roles first isFirst
  have secondAllowed := roles second isSecond
  obtain ⟨firstRole, firstName⟩ := first
  obtain ⟨secondRole, secondName⟩ := second
  have sameRole : firstRole = secondRole := by
    simp only [roleMarks, forall_mem_cons] at marks
    cases firstRole <;> cases secondRole <;> simp_all
  subst sameRole
  cases firstRole <;> simp_all [fieldName]

theorem withRole_map_fst :
    (withRole planned role).map Prod.fst = planned.filter fun column => column.role = role := by
  conv_rhs => rw [← zipIdx_map_fst 0 planned, filter_map]
  rfl

theorem withRole_map_congr {β : Type} {role : ColumnRole} {f g : PlannedColumn × Nat → β}
    (same : ∀ column, column.1.role = role → f column = g column) :
    (withRole planned role).map f = (withRole planned role).map g :=
  map_congr_left fun column member =>
    same column (of_decide_eq_true (mem_filter.mp member).2)

/-- A column of the input by the name that it has in the table. -/
def named (column : PlannedColumn × Nat) : String × Nat := (column.1.name, column.2)

theorem insertClauses_eq (roles : ∀ column ∈ planned, column.role ∈ WriteKind.insert.roles)
    (unmarked : Unmarked .insert planned) :
    insertClauses (planned.map PlannedColumn.fieldName) =
      ⟨(withRole planned .value).map named, (withRole planned .duplicate).map named⟩ := by
  have marked : ∀ column ∈ planned,
      hasPrefix duplicateValuePfx column.fieldName = decide (column.role = .duplicate) :=
    fun column member => hasPrefix_fieldName (by decide) fun isValue =>
      unmarked column member isValue _ List.mem_cons_self
  have plain : ∀ column ∈ planned,
      (!hasPrefix duplicateValuePfx column.fieldName) = decide (column.role = .value) := by
    intro column member
    have allowed := roles column member
    rw [marked column member]
    cases role : column.role <;> simp [role, WriteKind.roles] at allowed ⊢
  have duplicates := zipIdx_filter_fieldName marked
  have values := @zipIdx_filter_fieldName planned (fun name => !hasPrefix duplicateValuePfx name)
    .value plain
  rw [insertClauses, duplicates, values, List.map_map]
  congr 1
  · exact withRole_map_congr fun column role => by
      simp [PlannedColumn.fieldName, role, named, Prod.map]
  · exact withRole_map_congr fun column role => by
      simp [PlannedColumn.fieldName, role, named, Prod.map]

section RolesAgain

variable (roles : ∀ column ∈ planned, column.role ∈ WriteKind.update.roles)

include roles

theorem updateClauses_eq (unmarked : Unmarked .update planned) (distinct : planned.Nodup) :
    updateClauses (planned.map PlannedColumn.fieldName) =
      ⟨(withRole planned .value).map named, (withRole planned .filter).map named⟩ := by
  have marked : ∀ column ∈ planned,
      hasPrefix currentValuePrefix column.fieldName = decide (column.role = .current) ∧
      hasPrefix filterPrefix column.fieldName = decide (column.role = .filter) := by
    intro column member
    have plain := unmarked column member
    exact ⟨hasPrefix_fieldName (by decide) fun isValue => plain isValue _ List.mem_cons_self,
      hasPrefix_fieldName (by decide) fun isValue =>
        plain isValue _ (List.mem_cons_of_mem _ List.mem_cons_self)⟩
  have select : ∀ {keep : String → Bool} {role : ColumnRole},
      (∀ column ∈ planned, keep column.fieldName = decide (column.role = role)) →
      (planned.map PlannedColumn.fieldName).filter keep =
        (withRole planned role).map fun column => column.1.fieldName := by
    intro keep role same
    have names : (withRole planned role).map (fun column => column.1.fieldName) =
        ((withRole planned role).map Prod.fst).map PlannedColumn.fieldName := by
      rw [List.map_map]
      rfl
    rw [names, withRole_map_fst, List.filter_map]
    exact congrArg _ (List.filter_congr same)
  have filters : ((planned.map PlannedColumn.fieldName).filter fun name =>
        !hasPrefix currentValuePrefix name).filter (fun name => hasPrefix filterPrefix name) =
      (withRole planned .filter).map fun column => column.1.fieldName := by
    rw [List.filter_filter]
    refine select fun column member => ?_
    rw [(marked column member).1, (marked column member).2]
    cases column.role <;> rfl
  have updates : ((planned.map PlannedColumn.fieldName).filter fun name =>
        !hasPrefix currentValuePrefix name).filter (fun name => !hasPrefix filterPrefix name) =
      (withRole planned .value).map fun column => column.1.fieldName := by
    rw [List.filter_filter]
    refine select fun column member => ?_
    have allowed := roles column member
    rw [(marked column member).1, (marked column member).2]
    cases role : column.role <;> simp [role, WriteKind.roles] at allowed ⊢
  have positions : ∀ column ∈ planned.zipIdx,
      (planned.map PlannedColumn.fieldName).idxOf column.1.fieldName = column.2 := by
    rintro ⟨column, position⟩ member
    obtain ⟨bound, isThere⟩ := List.mem_zipIdx' member
    have inSchema : position < (planned.map PlannedColumn.fieldName).length := by
      rwa [List.length_map]
    have there : (planned.map PlannedColumn.fieldName)[position] = column.fieldName := by
      rw [List.getElem_map, isThere]
    rw [← there]
    have nodup := List.Nodup.map_on (fun _ isFirst _ isSecond =>
      fieldName_inj roles unmarked isFirst isSecond) distinct
    exact nodup.idxOf_getElem position inSchema
  have ofRole : ∀ {role : ColumnRole} {strip : String → String},
      (∀ column : PlannedColumn, column.role = role → strip column.fieldName = column.name) →
      ((withRole planned role).map fun column => column.1.fieldName).map
          (fun name => (strip name, (planned.map PlannedColumn.fieldName).idxOf name)) =
        (withRole planned role).map named := by
    intro role strip stripped
    rw [List.map_map]
    refine List.map_congr_left fun column member => ?_
    have selected := List.mem_filter.mp member
    exact Prod.ext (stripped column.1 (of_decide_eq_true selected.2)) (positions column selected.1)
  rw [updateClauses]
  simp only [filters, updates]
  congr 1
  · exact ofRole fun column role => by simp [PlannedColumn.fieldName, role]
  · exact ofRole fun column role => by simp [PlannedColumn.fieldName, role]

end RolesAgain

theorem unquoted_withRole {role : ColumnRole}
    (expressible : Expressible reserved kind targetTable planned)
    (placeholders : ∀ column ∈ withRole planned role, column ∈ kind.placeholders planned) :
    Unquoted reserved ((withRole planned role).map fun column => column.1.name) :=
  forall_mem_map.mpr fun column member => expressible.names column (placeholders column member)

theorem namesWithRole_eq :
    namesWithRole planned role =
      ((withRole planned role).map fun column => column.1.name).map utf8Bytes := by
  rw [namesWithRole, map_map]
  rfl

theorem names_ne_nil {role : ColumnRole} (some : namesWithRole planned role ≠ []) :
    (withRole planned role).map (fun column => column.1.name) ≠ [] := by
  intro none
  rw [namesWithRole_eq, none] at some
  exact some rfl

theorem withRole_delete (roles : ∀ column ∈ planned, column.role ∈ WriteKind.delete.roles) :
    withRole planned .value = planned.zipIdx := by
  refine filter_eq_self.mpr fun column member => ?_
  have role := roles column.1 (fst_mem_of_mem_zipIdx member)
  simpa [WriteKind.roles] using role

theorem parseWrite_text (expressible : Expressible reserved kind targetTable planned) :
    parseWrite reserved (kind.text targetTable (planned.map PlannedColumn.fieldName)) =
      some (kind.statement targetTable planned) := by
  have complete := expressible.complete
  cases kind with
  | insert =>
    have some : namesWithRole planned .value ≠ [] := complete _ mem_cons_self
    have parsed := parseWrite_insertQuery expressible.schema expressible.table (names_ne_nil some)
      (unquoted_withRole expressible fun column member => mem_append_left _ member)
      (unquoted_withRole expressible fun column member => mem_append_right _ member)
    rw [← namesWithRole_eq, ← namesWithRole_eq] at parsed
    rw [text, MySqlDmlSink.insert, insertClauses_eq expressible.roles expressible.unmarked]
    simp only [map_map]
    exact parsed
  | update =>
    have some : namesWithRole planned .value ≠ [] := complete _ mem_cons_self
    have someFilters : namesWithRole planned .filter ≠ [] :=
      complete _ (mem_cons_of_mem _ mem_cons_self)
    have parsed := parseWrite_updateQuery expressible.schema expressible.table (names_ne_nil some)
      (names_ne_nil someFilters)
      (unquoted_withRole expressible fun column member => mem_append_left _ member)
      (unquoted_withRole expressible fun column member => mem_append_right _ member)
    rw [← namesWithRole_eq, ← namesWithRole_eq] at parsed
    rw [text, MySqlDmlSink.update,
      updateClauses_eq expressible.roles expressible.unmarked (expressible.distinct rfl)]
    simp only [map_map]
    exact parsed
  | delete =>
    have some : namesWithRole planned .value ≠ [] := complete _ mem_cons_self
    have parsed := parseWrite_deleteQuery expressible.schema expressible.table (names_ne_nil some)
      (unquoted_withRole expressible fun column member => member)
    have names : planned.map fieldName =
        (withRole planned .value).map fun column => column.1.name := by
      have same : (withRole planned .value).map (fun column => column.1.name) =
          (withRole planned .value).map fun column => column.1.fieldName :=
        withRole_map_congr fun column role => by simp [fieldName, role]
      rw [same, withRole_delete expressible.roles]
      conv_lhs => rw [← zipIdx_map_fst 0 planned, map_map]
      rfl
    rw [← namesWithRole_eq] at parsed
    rw [text, names]
    exact parsed

theorem parseWrite_text_empty
    (roles : ∀ column ∈ planned, column.role ∈ WriteKind.update.roles)
    (schema : isUnquotedName reserved (utf8Bytes targetTable.schema) = true)
    (table : isWord (utf8Bytes targetTable.table) = true)
    (names : ∀ placeholder ∈ WriteKind.update.placeholders planned,
      isUnquotedName reserved (utf8Bytes placeholder.1.name) = true)
    (unmarked : Unmarked .update planned) (distinct : planned.Nodup)
    (empty : withRole planned .value = []) :
    parseWrite reserved (WriteKind.update.text targetTable (planned.map PlannedColumn.fieldName)) =
      none := by
  have filters : Unquoted reserved ((withRole planned .filter).map fun column => column.1.name) :=
    forall_mem_map.mpr fun column member => names column (mem_append_right _ member)
  rw [text, MySqlDmlSink.update, updateClauses_eq roles unmarked distinct, empty]
  simp only [map_map, map_nil]
  exact parseWrite_updateQuery_nil schema table filters

theorem projection_eq (expressible : Expressible reserved kind targetTable planned) :
    kind.projection targetTable (planned.map PlannedColumn.fieldName) =
      (kind.placeholders planned).map Prod.snd := by
  cases kind with
  | insert =>
    rw [projection, MySqlDmlSink.insert, insertClauses_eq expressible.roles expressible.unmarked]
    simp only [Clauses.all, ← map_append, map_map]
    rfl
  | update =>
    rw [projection, MySqlDmlSink.update,
      updateClauses_eq expressible.roles expressible.unmarked (expressible.distinct rfl)]
    simp only [Clauses.all, ← map_append, map_map]
    rfl
  | delete =>
    rw [projection, placeholders, withRole_delete expressible.roles,
      zipIdx_map_snd, length_map, range_eq_range']

end Roles

/-! ## Whole batches -/

/-- The text of a sink is parsed as the statement that the planner means, and in every row each
placeholder is bound to the value of its column. -/
def Binds (reserved : Bytes → Bool) (kind : WriteKind) (targetTable : ResolvedTableReference)
    (planned : List PlannedColumn) (batch : RecordBatch) : Prop :=
  ∃ text rows, kind.handleBatch targetTable batch = .ok (text, rows) ∧
    parseWrite reserved text = some (kind.statement targetTable planned) ∧
    List.Forall₂ (fun row params => List.Forall₂ (fun placeholder value =>
        (cell batch placeholder.2 row).bind serverValue = some value)
      (kind.placeholders planned) params) (List.range batch.numRows) rows

theorem getElem?_placeholder {placeholder : PlannedColumn × Nat}
    (member : placeholder ∈ kind.placeholders planned) :
    planned[placeholder.2]? = some placeholder.1 := by
  have ofRole : ∀ {role}, placeholder ∈ withRole planned role →
      planned[placeholder.2]? = some placeholder.1 :=
    fun isIn => mem_zipIdx_iff_getElem?.mp (mem_filter.mp isIn).1
  cases kind with
  | insert | update => rcases mem_append.mp member with isIn | isIn <;> exact ofRole isIn
  | delete => exact ofRole member

theorem position_lt {placeholder : PlannedColumn × Nat}
    (member : placeholder ∈ kind.placeholders planned) : placeholder.2 < planned.length :=
  (List.getElem?_eq_some_iff.mp (getElem?_placeholder member)).1

theorem exists_cell {position row : Nat} (column : position < batch.columns.length)
    (inside : row < batch.numRows) :
    ∃ content, cell batch position row = some content := by
  have sized := batch.sized _ (getElem_mem column)
  rw [cell, getElem?_eq_getElem column, Option.bind_some, getElem?_eq_getElem (sized.symm ▸ inside)]
  exact ⟨_, rfl⟩

/-- With names that the sinks can express, a sink binds the values of a batch exactly if all of them
can be sent as what they stand for. -/
theorem handleBatch_binds_iff {reserved : Bytes → Bool} {kind : WriteKind}
    {targetTable : ResolvedTableReference} {planned : List PlannedColumn} {batch : RecordBatch}
    (expressible : Expressible reserved kind targetTable planned)
    (fields : batch.names = planned.map PlannedColumn.fieldName) :
    Binds reserved kind targetTable planned batch ↔
      ∀ placeholder ∈ kind.placeholders planned, ∀ row < batch.numRows, ∀ content,
        cell batch placeholder.2 row = some content → bindable content = true := by
  have parsed := parseWrite_text expressible
  have handled := kind.handleBatch_eq_text targetTable batch
  rw [fields, projection_eq expressible] at handled
  have length : batch.columns.length = planned.length := by
    rw [← batch.named, fields, length_map]
  have inBatch : ∀ position ∈ (kind.placeholders planned).map Prod.snd,
      position < batch.columns.length :=
    forall_mem_map.mpr fun placeholder member => length ▸ position_lt member
  constructor
  · rintro ⟨sentText, rows, sent, -, bound⟩ placeholder member row inside content isCell
    rw [handled, Outcome.bind_eq_ok_iff] at sent
    obtain ⟨sentRows, isSent, same⟩ := sent
    cases same
    have sentParams := (mapRowsToParamsReordered_eq_ok_iff inBatch).mp isSent
    simp only [forall₂_map_left_iff] at sentParams
    obtain ⟨params, -, here⟩ := Rows.exists_of_forall₂_left
      (Outcome.forall₂_and sentParams bound) (mem_range.mpr inside)
    obtain ⟨value, -, ⟨other, isOther, converted⟩, expected⟩ := Rows.exists_of_forall₂_left
      (Outcome.forall₂_and here.1 here.2) member
    rw [isCell] at isOther expected
    cases isOther
    exact (toValue_eq_ok_iff content).mp ⟨value, converted, expected⟩
  · intro all
    have each : ∀ row ∈ range batch.numRows, ∃ params, List.Forall₂ (fun placeholder value =>
        (∃ content, cell batch placeholder.2 row = some content ∧ toValue content = .ok value) ∧
          (cell batch placeholder.2 row).bind serverValue = some value)
        (kind.placeholders planned) params := by
      intro row inRange
      have inside := mem_range.mp inRange
      refine Outcome.exists_forall₂ fun placeholder member => ?_
      obtain ⟨content, isCell⟩ := exists_cell (length ▸ position_lt member) inside
      obtain ⟨value, converted, expected⟩ :=
        (toValue_eq_ok_iff content).mpr (all placeholder member row inside content isCell)
      exact ⟨value, ⟨content, isCell, converted⟩, by rw [isCell]; exact expected⟩
    obtain ⟨rows, related⟩ := Outcome.exists_forall₂ each
    have sent : mapRowsToParamsReordered batch
        (some ((kind.placeholders planned).map Prod.snd)) = .ok rows := by
      rw [mapRowsToParamsReordered_eq_ok_iff inBatch]
      simp only [forall₂_map_left_iff]
      exact related.imp fun _ _ params => params.imp fun _ _ both => both.1
    refine ⟨_, rows, ?_, parsed, related.imp fun _ _ params => params.imp fun _ _ both => both.2⟩
    rw [handled, sent]
    rfl

def rowBatch (cells : List (String × ScalarValue)) : RecordBatch where
  names := cells.map Prod.fst
  columns := cells.map fun cell => toArrayOfSize cell.2 1
  numRows := 1
  named := by rw [List.length_map, List.length_map]
  sized := by
    intro column member
    obtain ⟨cell, -, rfl⟩ := List.mem_map.mp member
    exact List.length_replicate

def commonReserved (word : Bytes) : Bool :=
  ["and", "delete", "from", "group", "insert", "into", "key", "on", "order", "select", "set",
    "update", "where"].any fun keyword => utf8Bytes keyword = word

def notesTable : ResolvedTableReference := ⟨"default", "app", "notes"⟩

/-- An update of the text of one note. -/
theorem handleBatch_binds_note :
    Binds commonReserved .update notesTable [⟨.value, "body"⟩, ⟨.filter, "id"⟩]
      (rowBatch [("body", .text .utf8 (some "it's")), ("__pr_flt__id", .primitive .int32 (some 7))])
    := by
  have expressible : Expressible commonReserved .update notesTable
      [⟨.value, "body"⟩, ⟨.filter, "id"⟩] := {
    roles := by decide
    schema := by decide +kernel
    table := by decide +kernel
    names := by decide +kernel
    unmarked := by decide +kernel
    complete := by decide +kernel
    distinct := fun _ => by decide }
  refine (handleBatch_binds_iff expressible (by decide)).mpr fun placeholder member row inside => ?_
  have positions : placeholder.2 = 0 ∨ placeholder.2 = 1 := by
    have small := position_lt member
    simp at small
    omega
  have first : row = 0 := Nat.lt_one_iff.mp inside
  rw [first]
  rcases positions with isFirst | isSecond
  · rw [isFirst]
    rintro content ⟨⟩
    rfl
  · rw [isSecond]
    rintro content ⟨⟩
    rfl

theorem not_binds_of_parse {reserved : Bytes → Bool} {text : String} {rows : List (List Value)}
    (handled : kind.handleBatch targetTable batch = .ok (text, rows))
    (different : parseWrite reserved text ≠ some (kind.statement targetTable planned)) :
    ¬ Binds reserved kind targetTable planned batch := by
  rintro ⟨otherText, otherRows, other, parsed, -⟩
  rw [handled] at other
  cases other
  exact different parsed

/-- A reserved word, a name with a blank, a name with a backquote, and names with the prefixes of the
planner give another statement or none; a date is bound as a number, and the text of an ENUM column
is not bound. -/
theorem handleBatch_unbound :
    ¬ Binds commonReserved .insert notesTable [⟨.value, "order"⟩]
      (rowBatch [("order", .primitive .int32 (some 1))]) ∧
    ¬ Binds commonReserved .delete notesTable [⟨.value, "note id"⟩]
      (rowBatch [("note id", .primitive .int32 (some 1))]) ∧
    ¬ Binds commonReserved .insert notesTable [⟨.value, "a\x60b"⟩]
      (rowBatch [("a\x60b", .primitive .int32 (some 1))]) ∧
    ¬ Binds commonReserved .insert notesTable [⟨.value, "id"⟩, ⟨.value, "__pr_dup__x"⟩]
      (rowBatch [("id", .primitive .int32 (some 1)), ("__pr_dup__x", .primitive .int32 (some 2))]) ∧
    ¬ Binds commonReserved .update notesTable
      [⟨.value, "body"⟩, ⟨.value, "__pr_cur__x"⟩, ⟨.filter, "id"⟩]
      (rowBatch [("body", .text .utf8 none), ("__pr_cur__x", .primitive .int32 (some 2)),
        ("__pr_flt__id", .primitive .int32 (some 1))]) ∧
    ¬ Binds commonReserved .insert notesTable [⟨.value, "day"⟩]
      (rowBatch [("day", .primitive .date32 (some 1))]) ∧
    ¬ Binds commonReserved .insert notesTable [⟨.value, "kind"⟩]
      (rowBatch [("kind", .text .dictionary (some "a"))]) := by
  refine ⟨not_binds_of_parse rfl (by decide +kernel), not_binds_of_parse rfl (by decide +kernel),
    not_binds_of_parse rfl (by decide +kernel), not_binds_of_parse rfl (by decide +kernel),
    not_binds_of_parse rfl (by decide +kernel), ?_, ?_⟩
  · rintro ⟨text, rows, sent, -, bound⟩
    cases sent
    cases bound with
    | cons params _ =>
      cases params with
      | cons date _ => exact absurd date (by decide +kernel)
  · rintro ⟨text, rows, sent, -⟩
    cases sent

end SecureFusion.Sinks
