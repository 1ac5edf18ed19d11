import SecureFusion.Planning.TableAccess
import SecureFusion.Sql.PrintedText

/-!
# Deletion of rows

A DELETE without a condition is given to the delete sink with no key columns. A DELETE with a
condition is printed and sent to the server if no index has to know the rows and the table
answers the condition exactly. In all other cases the planner selects the primary keys of the
rows and the sink deletes the rows one by one.
-/

namespace SecureFusion.Planning

open Library Sql Crypto Filtering Providers Sinks Server List

/-! ## Plans -/

/-- A relation of a FROM clause: a table with the parts of its name, or anything else. -/
inductive TableFactor where
  | table (name : List Ident)
  | other
deriving DecidableEq, Repr

/-- A relation with the relations that are joined to it. -/
structure TableWithJoins where
  relation : TableFactor
  joins : List TableFactor
deriving DecidableEq, Repr

/-- What rows are deleted from. -/
inductive FromTable where
  | withFromKeyword (tables : List TableWithJoins)
  | withoutKeyword (tables : List TableWithJoins)
deriving DecidableEq, Repr

/-- A DELETE; its condition is given as the planner understands it. -/
structure Delete where
  source : FromTable
  selection : Option Expr

def Delete.tableName (delete : Delete) : Evaluated (List Ident) :=
  match delete.source with
  | .withoutKeyword _ => .error (.execution "DELETE without FROM is not supported")
  | .withFromKeyword [] => .error (.execution "DELETE without any relation is not supported")
  | .withFromKeyword [⟨.table name, []⟩] => .ok name
  | .withFromKeyword _ =>
    .error (.execution "DELETE with more than one relation is not supported")

/-- The reference of a name with at most three parts. -/
def tableNameToRef (name : List Ident) : Evaluated TableReference :=
  match name.map fun part => String.ofList part.value with
  | [catalog, schema, table] => .ok (.full catalog schema table)
  | [schema, table] => .ok (.partially schema table)
  | [table] => .ok (.bare table)
  | _ => .error (.panic "invalid object name")

def displayReference : TableReference → String
  | .bare table => table
  | .partially schema table => schema ++ "." ++ table
  | .full catalog schema table => catalog ++ "." ++ schema ++ "." ++ table

/-- How a DELETE is executed. -/
inductive DeletePlan where
  /-- By the sink, with key columns of the rows that a query with the condition returns, or of no
  row. -/
  | dml (keys : List String) (input : Option Expr)
  /-- By the server, which gets the statement with the name of the table. -/
  | forward (name : List Ident) (condition : Expr)

section Plan

variable {D : Type}

def QueryTable.forwards (table : QueryTable D) (condition : Expr) : Bool :=
  !table.hasIndexStorage &&
    (table.resolver.supportsFiltersPushdown [condition])[0]? = some .exact

/-- Plans a DELETE by its condition. -/
def QueryTable.planDelete (table : QueryTable D) (name : List Ident) :
    Option Expr → Evaluated DeletePlan
  | none => .ok (.dml [] none)
  | some condition =>
    if table.forwards condition then .ok (.forward name condition)
    else if table.provider.primaryKey = [] then
      .error (.execution "Cannot DELETE without a primary key")
    else .ok (.dml table.provider.primaryKey (some condition))

/-- The plan of a DELETE, with the table that it is for. The default schema is put in front of a
name without a schema, without quotes. -/
def planDelete (defaultSchema : String) (catalog : TableReference → Option (QueryTable D))
    (delete : Delete) : Evaluated (QueryTable D × DeletePlan) := do
  let given ← delete.tableName
  let name := if given.length = 1 then ⟨defaultSchema.toList, false⟩ :: given else given
  let objName ← tableNameToRef name
  match catalog objName with
  | none => .error (.execution ("Table not found " ++ displayReference objName))
  | some table => do
    let plan ← table.planDelete name delete.selection
    .ok (table, plan)

theorem planDelete_eq_ok {defaultSchema : String} {catalog : TableReference → Option (QueryTable D)}
    {delete : Delete} {table : QueryTable D} {plan : DeletePlan}
    (accepted : planDelete defaultSchema catalog delete = .ok (table, plan)) :
    ∃ name, table.planDelete name delete.selection = .ok plan := by
  simp only [planDelete, Outcome.bind_eq_ok_iff] at accepted
  obtain ⟨given, -, objName, -, found⟩ := accepted
  split at found
  · cases found
  · obtain ⟨other, planned, same⟩ := Outcome.bind_eq_ok_iff.mp found
    cases same
    exact ⟨_, planned⟩

/-- The server reads the name that a statement was printed with. -/
def readsName (reserved : Bytes → Bool) (name : List Ident) : Bool :=
  match name with
  | [schema, table] => (Server.lex (utf8Bytes (printName name))).bind (parseTable reserved) =
      some (utf8Bytes (String.ofList schema.value), utf8Bytes (String.ofList table.value), [])
  | _ => false

end Plan

/-! ## Execution -/

namespace Environment

variable {D : Type} {table : QueryTable D} (environment : Environment table)

/-- What the server does with a statement whose text it does not read as it was meant. -/
abbrev Misreading := List Ident → Expr → List StoredRow → Evaluated (List StoredRow)

/-- Executes a plan on the stored rows; a query gives the rows that it returns. -/
def executeDelete (misread : Misreading) (query : Expr → Evaluated (List environment.TableRow))
    (rows : List StoredRow) : DeletePlan → Evaluated (List StoredRow)
  | .forward name condition =>
    if readsName environment.server.reserved name && condition.hasPlainTexts then
      .ok (rows.filter fun stored => environment.serverTruth condition stored ≠ .true)
    else misread name condition rows
  | .dml keys input => do
    let selected ← match input with
      | none => .ok []
      | some condition => query condition
    environment.server.write .delete table.provider.tableReference keys
      (selected.map fun readable => keys.map fun key => .plain (readable.row key)) rows

/-- The rows that a DELETE should leave. -/
def survivors (selection : Option Expr) (rows : List environment.TableRow) :
    List environment.TableRow :=
  match selection with
  | none => []
  | some condition =>
    rows.filter fun readable => condition.truth environment.semantics readable.row ≠ .true

def keyColumns (table : QueryTable D) : List PlannedColumn :=
  table.provider.primaryKey.map (⟨.value, ·⟩)

/-- Rows that the delete sink can tell apart: the names need no quotes, the values of the key arrive
at the server, and there they select the row that they are of. -/
structure Deletable (rows : List environment.TableRow) : Prop where
  schema : isUnquotedName environment.server.reserved
    (utf8Bytes table.provider.tableReference.schema) = true
  name : isWord (utf8Bytes table.provider.tableReference.table) = true
  keys : ∀ key ∈ table.provider.primaryKey,
    isUnquotedName environment.server.reserved (utf8Bytes key) = true
  arrive : ∀ readable ∈ rows, ∀ key ∈ table.provider.primaryKey,
    bindable (readable.row key) = true
  identifies : ∀ first ∈ rows, ∀ second ∈ rows,
    environment.server.selects (table.provider.primaryKey.map utf8Bytes)
      (table.provider.primaryKey.map fun key => .plain (first.row key)) second.stored = true ↔
        first = second

/-! ## What the sink deletes -/

section Sink

variable {environment} {rows : List environment.TableRow}

theorem fieldNames_keyColumns :
    (keyColumns table).map PlannedColumn.fieldName = table.provider.primaryKey := by
  rw [keyColumns, map_map]
  exact map_id _

theorem withRole_keyColumns : withRole (keyColumns table) .value = (keyColumns table).zipIdx :=
  withRole_delete (forall_mem_map.mpr fun _ _ => mem_singleton_self _)

theorem placeholders_keyColumns {β : Type} (f : PlannedColumn → β) :
    (WriteKind.delete.placeholders (keyColumns table)).map (fun placeholder => f placeholder.1) =
      table.provider.primaryKey.map fun key => f ⟨.value, key⟩ := by
  rw [WriteKind.placeholders, withRole_keyColumns]
  have positions : (keyColumns table).zipIdx.map (fun placeholder => f placeholder.1) =
      ((keyColumns table).zipIdx.map Prod.fst).map f := (map_map ..).symm
  rw [positions, zipIdx_map_fst, keyColumns, map_map]
  rfl

theorem mem_placeholders_keyColumns {placeholder : PlannedColumn × Nat}
    (member : placeholder ∈ WriteKind.delete.placeholders (keyColumns table)) :
    placeholder.1.name ∈ table.provider.primaryKey := by
  rw [WriteKind.placeholders, withRole_keyColumns] at member
  obtain ⟨key, isKey, same⟩ := mem_map.mp (fst_mem_of_mem_zipIdx member)
  rw [← same]
  exact isKey

theorem statement_keyColumns :
    WriteKind.delete.statement table.provider.tableReference (keyColumns table) =
      .delete (utf8Bytes table.provider.tableReference.schema)
        (utf8Bytes table.provider.tableReference.table)
        (table.provider.primaryKey.map utf8Bytes) :=
  congrArg _ (placeholders_keyColumns fun column => utf8Bytes column.name)

theorem Deletable.expressible (deletable : environment.Deletable rows)
    (keyed : table.provider.primaryKey ≠ []) :
    Expressible environment.server.reserved .delete table.provider.tableReference
      (keyColumns table) where
  roles := forall_mem_map.mpr fun _ _ => mem_singleton_self _
  schema := deletable.schema
  table := deletable.name
  names := fun _ member => deletable.keys _ (mem_placeholders_keyColumns member)
  unmarked := fun _ _ _ _ none => by cases none
  complete := by
    rw [statement_keyColumns]
    simpa [WriteStatement.required] using keyed
  distinct := nofun

theorem foldlM_delete {α : Type} (server : TableServer) (schema name : Bytes)
    (conditions : List Bytes) (cells : α → List Cell) (items : List α)
    (rows : List StoredRow) :
    items.foldlM (fun rows item => server.run (.delete schema name conditions) (cells item) rows)
        rows =
      .ok (rows.filter fun row => items.all fun item =>
        !server.selects conditions (cells item) row) := by
  induction items generalizing rows with
  | nil => exact congrArg _ (filter_true rows).symm
  | cons item rest ih =>
    rw [foldlM_cons]
    refine (ih _).trans (congrArg _ ?_)
    rw [filter_filter]
    refine filter_congr fun row _ => ?_
    rw [all_cons, Bool.and_comm]

theorem Deletable.write_deletes (deletable : environment.Deletable rows)
    (keyed : table.provider.primaryKey ≠ []) {selected : List environment.TableRow}
    (ofTable : ∀ readable ∈ selected, readable ∈ rows) (survives : environment.TableRow → Bool)
    (left : ∀ readable ∈ rows, survives readable = true ↔ readable ∉ selected) :
    environment.server.write .delete table.provider.tableReference table.provider.primaryKey
        (selected.map fun readable =>
          table.provider.primaryKey.map fun key => .plain (readable.row key))
        (rows.map (·.stored)) =
      .ok ((rows.filter survives).map (·.stored)) := by
  have arrive : ∀ readable ∈ selected,
      ∀ placeholder ∈ WriteKind.delete.placeholders (keyColumns table),
      (Cell.plain (readable.row placeholder.1.name)).Bindable :=
    fun readable isSelected placeholder member =>
      deletable.arrive readable (ofTable readable isSelected) _ (mem_placeholders_keyColumns member)
  have written := @write_eq environment.server .delete table.provider.tableReference
    (keyColumns table) _ (deletable.expressible keyed)
    (fun readable column => .plain (readable.row column.name)) selected arrive
    (rows.map (·.stored))
  have inputs : ∀ readable : environment.TableRow,
      ((keyColumns table).map fun column => Cell.plain (readable.row column.name)) =
        table.provider.primaryKey.map fun key => .plain (readable.row key) := by
    intro readable
    rw [keyColumns, map_map]
    rfl
  have parameters : ∀ readable : environment.TableRow,
      (WriteKind.delete.placeholders (keyColumns table)).map
          (fun placeholder => Cell.plain (readable.row placeholder.1.name)) =
        table.provider.primaryKey.map fun key => .plain (readable.row key) := fun readable =>
    placeholders_keyColumns fun column => Cell.plain (readable.row column.name)
  simp only [fieldNames_keyColumns, inputs, statement_keyColumns, parameters, foldlM_delete]
    at written
  rw [written, filter_map]
  refine congrArg (fun kept => Except.ok (map _ kept)) (filter_congr fun readable isIn => ?_)
  rw [Bool.eq_iff_iff, left readable isIn, Function.comp_apply, all_eq_true]
  constructor
  · intro none isSelected
    have kept := none readable isSelected
    rw [(deletable.identifies readable isIn readable isIn).mpr rfl] at kept
    cases kept
  · intro notSelected other isSelected
    rw [Bool.not_eq_true', ← Bool.not_eq_true,
      deletable.identifies other (ofTable other isSelected) readable isIn]
    rintro rfl
    exact notSelected isSelected

end Sink

/-! ## Exactness -/

section Exact

variable {environment} {rows : List environment.TableRow} {condition : Expr}

theorem filter_serverTruth (forwarded : table.forwards condition = true)
    (visible : ∀ column ∈ condition.hidden, table.resolver.encrypts column = false)
    (resolved : ∀ column ∈ condition.columnRefs, column.name ∈ table.provider.columnNames) :
    (rows.map (·.stored)).filter
        (fun stored => environment.serverTruth condition stored ≠ .true) =
      (environment.survivors (some condition) rows).map (·.stored) := by
  have plain := QueryTable.metadata_of_exact
    (of_decide_eq_true (Bool.and_eq_true_iff.mp forwarded).2)
  rw [filter_map, survivors]
  refine congrArg _ (filter_congr fun readable _ => ?_)
  rw [Function.comp_apply, environment.serverTruth_plain condition readable.stored readable.row
    visible fun column isIn =>
      readable.stored_plain (resolved column isIn) (plain column isIn)]

section Deletable

variable (deletable : environment.Deletable rows)

include deletable

theorem Deletable.stored_inj {first second : environment.TableRow} (isFirst : first ∈ rows)
    (isSecond : second ∈ rows) (same : first.stored = second.stored) : first = second := by
  rw [← deletable.identifies first isFirst second isSecond, ← same,
    deletable.identifies first isFirst first isFirst]

theorem Deletable.filter_inj {kept left : environment.TableRow → Bool}
    (same : (rows.filter kept).map (·.stored) = (rows.filter left).map (·.stored)) :
    ∀ readable ∈ rows, kept readable = left readable := by
  have implies : ∀ {kept left : environment.TableRow → Bool},
      (rows.filter kept).map (·.stored) = (rows.filter left).map (·.stored) →
      ∀ readable ∈ rows, kept readable = true → left readable = true := by
    intro kept left same readable isIn isKept
    have stored : readable.stored ∈ (rows.filter left).map (·.stored) :=
      same ▸ mem_map_of_mem (mem_filter.mpr ⟨isIn, isKept⟩)
    obtain ⟨other, isOther, sameStored⟩ := mem_map.mp stored
    have there := mem_filter.mp isOther
    exact deletable.stored_inj there.1 isIn sameStored ▸ there.2
  intro readable isIn
  exact Bool.eq_iff_iff.mpr ⟨implies same readable isIn, implies same.symm readable isIn⟩

theorem Deletable.execute_iff (keyed : table.provider.primaryKey ≠ [])
    {misread : Misreading} {query : Expr → Evaluated (List environment.TableRow)}
    (queries : environment.Queries rows condition (query condition)) :
    environment.executeDelete misread query (rows.map (·.stored))
          (.dml table.provider.primaryKey (some condition)) =
        .ok ((environment.survivors (some condition) rows).map (·.stored)) ↔
      environment.SelectsExactly rows condition := by
  classical
  by_cases answers : table.resolver.Answers environment.execute condition
  · obtain ⟨selected, isOk, -, members⟩ := queries.answered answers
    have written := deletable.write_deletes keyed
      (fun readable isSelected => ((members readable).mp isSelected).1)
      (fun readable => decide (readable ∉ selected)) (fun readable _ => decide_eq_true_iff)
    have returned : ∀ readable ∈ rows, readable ∈ selected ↔
        table.resolver.Returns environment.execute environment.semantics condition readable.row :=
      fun readable isIn => (members readable).trans (and_iff_right isIn)
    rw [executeDelete]
    simp only [isOk, Outcome.ok_bind, written, Except.ok.injEq, survivors]
    constructor
    · intro same
      refine ⟨answers, fun readable isIn => ?_⟩
      have agree := decide_eq_decide.mp (deletable.filter_inj same readable isIn)
      rw [← returned readable isIn]
      exact not_iff_not.mp agree
    · intro exactly
      refine congrArg _ (filter_congr fun readable isIn => ?_)
      exact decide_eq_decide.mpr
        (not_congr ((returned readable isIn).trans (exactly.returns readable isIn)))
  · obtain ⟨failure, isError⟩ := queries.unanswered answers
    rw [executeDelete]
    simp only [isError]
    exact iff_of_false nofun fun exactly => answers exactly.answers

end Deletable

end Exact

end Environment

/-- A server that stores what it gets, with users that are told apart by their number. -/
def usersServer : TableServer where
  reserved := commonReserved
  equals
    | .plain stored, .plain value => stored = value
    | _, _ => false
  conflicts first second :=
    match first (utf8Bytes "id"), second (utf8Bytes "id") with
    | .plain one, .plain other => one = other
    | _, _ => false
  blank := fun _ => .plain .null
  bind := .ok
  bind_plain := fun _ _ => rfl
  bind_ciphertext := fun _ _ _ => rfl

def usersQueryTable : QueryTable Empty where
  provider := usersTable "id" (.primitive .int32) lookup_id
  indices := []
  statistics := .forEmptyTable
  castTo := Semantics.basic.cast
  hasIndexStorage := false

/-- An environment in which the server evaluates conditions as the proxy does. -/
def usersEnvironment : Environment usersQueryTable where
  server := usersServer
  typeName := fun _ => []
  semantics := .basic
  execute := fun filter => nomatch filter
  serverTruth condition stored :=
    condition.truth .basic fun name =>
      match stored (utf8Bytes name) with
      | .plain value => value
      | .ciphertext .. => .null
  serverTruth_plain := by
    intro condition stored row _ plain
    refine congrArg _ (Expr.eval_congr condition fun column isIn => ?_)
    rw [plain column isIn]

def user (id : Int) (secret : String) : usersEnvironment.TableRow :=
  .ofRow (fun name => if name = "id" then int32 id else utf8 secret) (by decide +kernel)

def secretIs (text : String) : Expr :=
  .binary (.column (.fromName "secret")) .eq (.literal (utf8 text))

/-- A condition on a plain column. -/
def idIsOne : Expr := .binary (.column (.fromName "id")) .eq (.literal (int32 1))

/-- The catalog with the users in one schema. -/
def usersCatalog (schema : String) (reference : TableReference) : Option (QueryTable Empty) :=
  if reference = .partially schema "users" then some usersQueryTable else none

def deleteUsers (selection : Option Expr) : Delete :=
  ⟨.withFromKeyword [⟨.table [⟨"users".toList, false⟩], []⟩], selection⟩

theorem planDelete_secret (text : String) :
    planDelete "app" (usersCatalog "app") (deleteUsers (some (secretIs text))) =
      .ok (usersQueryTable, .dml ["id"] (some (secretIs text))) := rfl

theorem users_ne : user 1 "a" ≠ user 2 "b" := by
  intro same
  have ids := congrArg (fun readable => readable.row "id") same
  exact absurd ids (by decide +kernel)

theorem users_deletable : usersEnvironment.Deletable [user 1 "a", user 2 "b"] where
  schema := by decide +kernel
  name := by decide +kernel
  keys := by decide +kernel
  arrive := by decide +kernel
  identifies := by
    intro first isFirst second isSecond
    simp only [mem_cons, not_mem_nil, or_false] at isFirst isSecond
    rcases isFirst with rfl | rfl <;> rcases isSecond with rfl | rfl
    · exact iff_of_true (by decide +kernel) rfl
    · exact iff_of_false (by decide +kernel) users_ne
    · exact iff_of_false (by decide +kernel) users_ne.symm
    · exact iff_of_true (by decide +kernel) rfl

theorem users_selects (rows : List usersEnvironment.TableRow) (text : String) :
    usersEnvironment.SelectsExactly rows (secretIs text) := by
  have evaluated : ∀ row : Row, (secretIs text).truth usersEnvironment.semantics.withoutSearch row =
      (secretIs text).truth usersEnvironment.semantics row := fun row =>
    congrArg ScalarValue.truth (Expr.eval_withoutSearch row (secretIs text) rfl)
  have left : usersQueryTable.resolver.residualFilters (secretIs text) = [secretIs text] := rfl
  refine ⟨⟨⟨[], []⟩, rfl, nofun⟩, fun readable _ => ?_⟩
  rw [IndexResolver.Returns, left]
  simp only [forall_mem_singleton, evaluated]
  constructor
  · rintro ⟨_, _, _, holds⟩
    exact holds
  · intro holds
    exact ⟨⟨[], []⟩, rfl, ⟨nofun, nofun⟩, holds⟩

/-- A server that rejects what it does not read as it was meant. -/
def rejects : Environment.Misreading :=
  fun _ _ _ => .error (.execution "You have an error in your SQL syntax")

end SecureFusion.Planning
