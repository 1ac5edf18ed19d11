import Mathlib.Logic.Function.Basic
import SecureFusion.Crypto.Columns
import SecureFusion.TransactionControl

/-!
# Creating a row-id column

The plan adds a nullable column, fills it through an update sink, makes it mandatory and saves the
metadata. The sink has a transaction of its own, unless the session has one. A step that fails
leaves the plan at once, so that the clean-up at its end is never reached: the column stays.
-/

namespace SecureFusion.Planning

open Crypto Sql

open Transactions (TransactionControl)

variable {Row Id : Type} [DecidableEq Row]

/-- A table while its row-id column is created. -/
structure RowidTable (Row Id : Type) where
  /-- The ids on the server, once the column is there. -/
  column : Option (Row → Option Id)
  registered : Bool
  saved : Bool

/-- How the steps end, with an error or none: the statements on the table, those of the transaction
of the sink, the start of the fill plan, the scan of the table, and the updates of its rows. -/
structure RowidAnswers (Row : Type) where
  query : String → Option String
  transaction : Transactions.Statement → Option String
  fillStarts : Option String
  collects : Option String
  fillRow : Row → Option String
  hasSchema : Bool
  hasTable : Bool
  saves : Bool

/-- A step keeps its effects if it fails. -/
abbrev RowidStep (Row Id : Type) := RowidTable Row Id → Option Failure × RowidTable Row Id

/-- The second step follows if the first one succeeds. -/
def RowidStep.andThen (first second : RowidStep Row Id) : RowidStep Row Id := fun table =>
  match first table with
  | (none, next) => second next
  | failed => failed

/-- The plan, with the transaction control of the session when it starts. -/
structure CreateRowidPlan (Row Id : Type) where
  control : TransactionControl
  rowId : Row → Id
  columnName : String
  columnDef : String
  tableReference : ResolvedTableReference

namespace CreateRowidPlan

section Definitions

variable (plan : CreateRowidPlan Row Id) (answers : RowidAnswers Row)

/-- An ALTER TABLE statement for the table. -/
def alter (change : String) : String :=
  "ALTER TABLE " ++ plan.tableReference.schema ++ "." ++ plan.tableReference.table ++ " " ++ change

/-- The statement that adds the column. -/
def createText : String :=
  plan.alter ("ADD COLUMN " ++ plan.columnDef ++ " NULL,ADD UNIQUE INDEX (" ++ plan.columnName ++ ")")

/-- The statement that makes the column mandatory. -/
def finishText : String := plan.alter ("MODIFY " ++ plan.columnDef ++ " NOT NULL")

/-- Sends a statement; its error is one of the plan. -/
def queryDrop (verb text : String) : RowidStep Row Id := fun table =>
  ((answers.query text).map fun error =>
    .execution ("Failed to " ++ verb ++ " the indexable column: " ++ error), table)

/-- Adds the column, with nulls. -/
def createColumn : RowidStep Row Id :=
  (queryDrop answers "create" plan.createText).andThen fun table =>
    (none, { table with column := some fun _ => none })

/-- The whole definition is sent, although DROP COLUMN takes a name. -/
def rollback : RowidStep Row Id :=
  (queryDrop answers "drop" (plan.alter ("DROP COLUMN " ++ plan.columnDef))).andThen fun table =>
    (none, { table with column := none })

/-- The updates of the sink, row by row until one fails. -/
def fillRows : List Row → RowidStep Row Id
  | [], table => (none, table)
  | row :: rows, table =>
    match answers.fillRow row with
    | some error => (some (.execution error), table)
    | none => fillRows rows { table with
      column := table.column.map fun ids => Function.update ids row (some (plan.rowId row)) }

/-- The statements of the transaction control when the sink starts. -/
def startStatements : List Transactions.Statement := plan.control.weakStartTransaction.2

/-- The statements of the transaction control when the sink has succeeded. -/
def commitStatements : List Transactions.Statement :=
  plan.control.weakStartTransaction.1.weakCommit.2

/-- The statements of the transaction control when the sink has failed. -/
def rollbackStatements : List Transactions.Statement :=
  plan.control.weakStartTransaction.1.weakRollback.2

/-- The control panics if one of its statements is rejected. -/
def weakly (statements : List Transactions.Statement) : RowidStep Row Id := fun table =>
  ((statements.findSome? answers.transaction).map fun error =>
    .panic ("called `Result::unwrap()` on an `Err` value: " ++ error), table)

/-- The sink reads the whole table and updates its rows. -/
def handleBatches (rows : List Row) : RowidStep Row Id := fun table =>
  match answers.collects with
  | some error => (some (.execution error), table)
  | none => plan.fillRows answers rows table

/-- The fill plan: a sink that fails is rolled back, one that succeeds is committed. -/
def fillTable (rows : List Row) : RowidStep Row Id := fun table =>
  match answers.fillStarts with
  | some error => (some (.execution error), table)
  | none =>
    (weakly answers plan.startStatements).andThen (fun table =>
      match plan.handleBatches answers rows table with
      | (some failure, filled) =>
        (weakly answers plan.rollbackStatements).andThen
          (fun filled => (some failure, if plan.rollbackStatements.isEmpty then filled else table))
          filled
      | (none, filled) => weakly answers plan.commitStatements filled) table

/-- Makes the column mandatory. -/
def finishColumnSetup : RowidStep Row Id := queryDrop answers "update" plan.finishText

/-- The table is taken from the schema, changed, registered again and saved. -/
def saveUpdatedMetadata : RowidStep Row Id := fun table =>
  if !answers.hasSchema then
    (some (.execution ("no such schema " ++ plan.tableReference.schema)), table)
  else if !answers.hasTable then
    (some (.execution ("Table " ++ plan.tableReference.table ++
      " does not exist in local schema")), table)
  else if !answers.saves then
    (some (.panic "failed to insert save metadata to disk!"), { table with registered := true })
  else (none, { table with registered := true, saved := true })

/-- The end of the plan, for the result of its block. -/
def conclude : Option Failure → RowidStep Row Id
  | some failure => (plan.rollback answers).andThen fun table => (some failure, table)
  | none => fun table => (none, table)

/-- An error in the block leaves the whole plan, so that the result of the block is a success. -/
def execute (rows : List Row) : RowidStep Row Id :=
  (plan.createColumn answers).andThen ((plan.fillTable answers rows).andThen
    ((plan.finishColumnSetup answers).andThen ((plan.saveUpdatedMetadata answers).andThen
      (plan.conclude answers none))))

/-- No step of the fill plan fails, from the start of its transaction to the COMMIT. -/
structure Fills (rows : List Row) : Prop where
  starts : answers.fillStarts = none
  transaction : ∀ statement ∈ plan.startStatements, answers.transaction statement = none
  collects : answers.collects = none
  updates : ∀ row ∈ rows, answers.fillRow row = none
  commit : ∀ statement ∈ plan.commitStatements, answers.transaction statement = none

/-- No step after the creation of the column fails. -/
def Succeeds (rows : List Row) : Prop :=
  plan.Fills answers rows ∧
    answers.query plan.finishText = none ∧ answers.hasSchema ∧ answers.hasTable ∧ answers.saves

/-- If a step fails after the column was added, the column is dropped and mentioned nowhere; if
none fails, every row has its id. -/
def Sound (rows : List Row) : Prop :=
  match plan.execute answers rows ⟨none, false, false⟩ with
  | (some _, table) => answers.query plan.createText = none → table = ⟨none, false, false⟩
  | (none, table) => ∃ ids, table.column = some ids ∧ ∀ row ∈ rows, ids row = some (plan.rowId row)

end Definitions

variable {plan : CreateRowidPlan Row Id} {answers : RowidAnswers Row}

/-- The updates fail with the first error, and give every row its id if there is none. -/
theorem fillRows_spec (rows : List Row) {table : RowidTable Row Id} {ids : Row → Option Id}
    (there : table.column = some ids) :
    ∃ filled, plan.fillRows answers rows table =
        ((rows.findSome? answers.fillRow).map .execution, { table with column := some filled }) ∧
      ((∀ row ∈ rows, answers.fillRow row = none) →
        ∀ row, row ∈ rows ∨ ids row = some (plan.rowId row) →
          filled row = some (plan.rowId row)) := by
  -- A row that is filled stays so, as every update gives it the same id.
  induction rows generalizing table ids with
  | nil => exact ⟨ids, by rw [← there]; rfl, fun _ row isIn => isIn.resolve_left List.not_mem_nil⟩
  | cons row rows ih =>
    rw [fillRows, List.findSome?_cons, List.forall_mem_cons]
    cases answer : answers.fillRow row with
    | some error => exact ⟨ids, by rw [← there]; rfl, fun both => nomatch both.1⟩
    | none =>
      obtain ⟨filled, run, all⟩ := @ih { table with column := _ } _ (congrArg (Option.map _) there)
      refine ⟨filled, run, fun both other isIn => all both.2 other ?_⟩
      by_cases same : other = row
      · rw [same]
        exact .inr (Function.update_self ..)
      · exact isIn.imp (fun isIn => (List.mem_cons.mp isIn).resolve_left same)
          (Function.update_of_ne same _ ids).trans

/-- The sink fails if a step of it does, and gives every row its id otherwise. -/
theorem handleBatches_spec (rows : List Row) :
    ∃ failure filled, plan.handleBatches answers rows ⟨some fun _ => none, false, false⟩ =
        (failure, ⟨some filled, false, false⟩) ∧
      (failure = none ↔ answers.collects = none ∧ ∀ row ∈ rows, answers.fillRow row = none) ∧
      (failure = none → ∀ row ∈ rows, filled row = some (plan.rowId row)) := by
  unfold handleBatches
  cases answers.collects with
  | some error => exact ⟨_, _, rfl, by simp, nofun⟩
  | none =>
    obtain ⟨filled, run, ids⟩ := @fillRows_spec _ _ _ plan answers rows
      ⟨some fun _ => none, false, false⟩ _ rfl
    refine ⟨_, filled, run, by simp, fun done row isIn => ids ?_ row (.inl isIn)⟩
    simpa using done

omit [DecidableEq Row] in
/-- The control leaves the table alone, and fails if one of its statements is rejected. -/
theorem weakly_spec (statements : List Transactions.Statement) (table : RowidTable Row Id) :
    ∃ failure, weakly answers statements table = (failure, table) ∧
      (failure = none ↔ ∀ statement ∈ statements, answers.transaction statement = none) :=
  ⟨_, rfl, by simp⟩

/-- The fill plan leaves the column, and gives every row its id if no step of it fails. -/
theorem fillTable_spec (rows : List Row) :
    ∃ failure filled, plan.fillTable answers rows ⟨some fun _ => none, false, false⟩ =
        (failure, ⟨some filled, false, false⟩) ∧
      (failure = none ↔ plan.Fills answers rows) ∧
      (failure = none → ∀ row ∈ rows, filled row = some (plan.rowId row)) := by
  unfold fillTable
  cases starts : answers.fillStarts with
  | some error =>
    have fails (fills : plan.Fills answers rows) : False := nomatch starts.symm.trans fills.starts
    exact ⟨_, _, rfl, iff_of_false nofun fails, nofun⟩
  | none =>
    obtain ⟨started, isStarted, starting⟩ := @weakly_spec _ _ answers plan.startStatements
      (⟨some fun _ => none, false, false⟩ : RowidTable Row Id)
    dsimp only
    rw [RowidStep.andThen, isStarted]
    cases started with
    | some failure =>
      have fails (fills : plan.Fills answers rows) : False :=
        nomatch starting.mpr fills.transaction
      exact ⟨_, _, rfl, iff_of_false nofun fails, nofun⟩
    | none =>
      obtain ⟨handled, filled, isHandled, handling, ids⟩ := @handleBatches_spec _ _ _ plan answers rows
      dsimp only
      rw [isHandled]
      cases handled with
      | some failure =>
        -- The error is returned, or the ROLLBACK panics.
        have fails (outcome : Option Failure) (isError : outcome ≠ none) :
            outcome = none ↔ plan.Fills answers rows :=
          iff_of_false isError fun fills => nomatch handling.mpr ⟨fills.collects, fills.updates⟩
        obtain ⟨undone, isUndone, -⟩ := @weakly_spec _ _ answers plan.rollbackStatements
          (⟨some filled, false, false⟩ : RowidTable Row Id)
        dsimp only
        rw [RowidStep.andThen, isUndone]
        cases undone with
        | some panic => exact ⟨_, _, rfl, fails _ nofun, nofun⟩
        | none =>
          dsimp only
          split
          · exact ⟨_, _, rfl, fails _ nofun, nofun⟩
          · exact ⟨_, _, rfl, fails _ nofun, nofun⟩
      | none =>
        obtain ⟨committed, isCommitted, committing⟩ := @weakly_spec _ _ answers
          plan.commitStatements (⟨some filled, false, false⟩ : RowidTable Row Id)
        obtain ⟨collects, updates⟩ := handling.mp rfl
        refine ⟨committed, filled, isCommitted, committing.trans ?_, fun _ => ids rfl⟩
        exact ⟨fun commit => ⟨starts, starting.mp rfl, collects, updates, commit⟩,
          fun fills => fills.commit⟩

omit [DecidableEq Row] in
/-- The last steps leave the column, and succeed if each of them does. -/
theorem metadata_spec (table : RowidTable Row Id) :
    ∃ failure registered saved,
      (plan.finishColumnSetup answers).andThen ((plan.saveUpdatedMetadata answers).andThen
          (plan.conclude answers none)) table = (failure, ⟨table.column, registered, saved⟩) ∧
        (failure = none ↔ answers.query plan.finishText = none ∧ answers.hasSchema ∧
          answers.hasTable ∧ answers.saves) := by
  simp only [RowidStep.andThen, finishColumnSetup, queryDrop, saveUpdatedMetadata, conclude]
  cases answers.query plan.finishText with
  | some error => exact ⟨_, _, _, rfl, by simp⟩
  | none =>
    cases answers.hasSchema <;> cases answers.hasTable <;> cases answers.saves <;>
      exact ⟨_, _, _, rfl, by simp⟩

/-- A plan for a table in a session in autocommit mode. -/
def notesPlan : CreateRowidPlan Unit Nat :=
  ⟨{}, fun _ => 7, "id", "id INT", ⟨"default", "app", "notes"⟩⟩

/-- Answers in which only the update of the row or the COMMIT of the sink may fail. -/
def notesAnswers (update commit : Option String) : RowidAnswers Unit where
  query _ := none
  transaction statement := if statement = .commit then commit else none
  fillStarts := none
  collects := none
  fillRow _ := update
  hasSchema := true
  hasTable := true
  saves := true

end CreateRowidPlan

end SecureFusion.Planning
