import Mathlib.Data.Prod.Lex
import SecureFusion.TransactionControl

/-!
# Creation of a columnar index

The plan locks the table, adds the index column, fills it through an update sink, makes it
NOT NULL, unlocks the table and registers the index. It names the table without its schema,
where the sink names it in full; and the sink opens a transaction, which releases the lock.
-/

namespace SecureFusion.ColumnarIndex

open List

open Function (update update_self update_of_ne)
open Transactions (TransactionControl)

variable {K V T : Type} [DecidableEq K] {index : K → Option T} {row : K × T} {key : K}
  (first second : List (K × T))

/-! ## The server -/

/-- A table: its rows by primary key, the plaintexts of the indexed column, and the index column
if there is one. -/
structure Table (K V T : Type) where
  keys : List K
  value : K → V
  index : Option (K → Option T)
  notNull : Bool

/-- What the plan can fail at: its statements and those of its sink, and the update of the
metadata. -/
inductive Statement (K : Type) where
  | lockTable
  | addColumn
  | startTransaction
  | select
  | prepare
  | update (key : K)
  | commit
  | rollback
  | modifyColumn
  | unlockTables
  | updateMetadata
deriving DecidableEq

/-- The tables of the given name by schema, what the connection of the plan holds (its table lock
and its uncommitted index values), and the indices in the metadata of the table. -/
structure World (K V T : Type) where
  tables : String → Option (Table K V T)
  lock : Option String := none
  uncommitted : List (K × T) := []
  metadata : List String

def writeIndex (rows : List (K × T)) (index : K → Option T) : K → Option T :=
  rows.foldl (fun current row => update current row.1 (some row.2)) index

namespace Table

/-- The index value of a row, none if it is NULL or has no column. -/
def indexAt (table : Table K V T) (key : K) : Option T :=
  table.index.bind fun index => index key

def write (rows : List (K × T)) (table : Table K V T) : Table K V T :=
  { table with index := table.index.map (writeIndex rows) }

def addColumn (table : Table K V T) : Option (Table K V T) :=
  if table.index.isSome then none
  else some { table with index := some fun _ => none, notNull := false }

def modifyColumn (table : Table K V T) : Option (Table K V T) :=
  if table.index.isSome && table.keys.all fun key => (table.indexAt key).isSome then
    some { table with notNull := true }
  else none

end Table

namespace World

/-- A connection that has locked a table can use no other one. -/
def permits (world : World K V T) (schema : String) : Bool := world.lock.all (· == schema)

/-- Alters the table of this name in the current database. -/
def alter (database : Option String)
    (change : Table K V T → Option (Table K V T)) (world : World K V T) :
    Option (World K V T) := do
  let schema ← database
  guard (world.permits schema)
  let changed ← (world.tables schema).bind change
  return { world with tables := update world.tables schema (some changed) }

/-- Makes the uncommitted tags visible. -/
def commit (schema : String) (world : World K V T) : World K V T :=
  { world with
    tables := update world.tables schema ((world.tables schema).map (.write world.uncommitted))
    uncommitted := [] }

end World

/-! ## The plan -/

/-- The plan: the resolved schema of its table, the default database of the connection, the index
with its value for a plaintext, and the transaction control of the session. No sink is running
when the plan starts. -/
structure CreateColumnarIndexPlan (V T : Type) where
  schema : String
  database : Option String
  indexName : String
  indexValue : V → Option T
  control : TransactionControl
  noSink : ∀ depth, control.currentTransaction ≠ some (.weak depth)

/-- Where the plan is. -/
inductive Phase (K T : Type) where
  | lock
  | addColumn
  | start
  | select
  | prepare (rows : List (K × T))
  | update (rows : List (K × T))
  | commit
  | rollback
  | modify
  | unlock
  | register
  | done (registered : Bool)

structure State (K V T : Type) where
  phase : Phase K T
  world : World K V T

/-- A statement succeeds if the server accepts it and it can be executed. -/
def advance (accepted : Bool) (result : Option (World K V T)) (next failed : Phase K T)
    (world : World K V T) : State K V T :=
  match accepted, result with
  | true, some changed => ⟨next, changed⟩
  | _, _ => ⟨failed, world⟩

namespace CreateColumnarIndexPlan

variable (plan : CreateColumnarIndexPlan V T) (accepts : Statement K → Bool)

/-- The session is in autocommit mode and the client has opened no transaction. -/
def Idle : Prop :=
  plan.control.autocommit = true ∧ plan.control.currentTransaction = none

instance : Decidable plan.Idle := inferInstanceAs (Decidable (_ ∧ _))

def starts : Bool :=
  plan.control.weakStartTransaction.2.contains .startTransaction

def commits : Bool :=
  plan.control.weakStartTransaction.1.weakCommit.2.contains .commit

def rollsBack : Bool :=
  plan.control.weakStartTransaction.1.weakRollback.2.contains .rollback

/-- The input of the sink: a key and the index value for each row. -/
def rows (table : Table K V T) : List (K × T) :=
  table.keys.filterMap fun key => (plan.indexValue (table.value key)).map fun tag => (key, tag)

/-- The sink reads its input: the projection refuses a row without an index value. -/
def scan (world : World K V T) : Option (List (K × T)) := do
  guard (world.permits plan.schema)
  let table ← world.tables plan.schema
  guard (table.keys.all fun key => (plan.indexValue (table.value key)).isSome)
  return plan.rows table

def lockTable (world : World K V T) : Option (World K V T) := do
  let schema ← plan.database
  guard (world.tables schema).isSome
  return { world with lock := some schema }

def prepare (world : World K V T) : Option (World K V T) := do
  guard (world.permits plan.schema)
  let table ← world.tables plan.schema
  guard table.index.isSome
  return world

/-- UPDATE of a row: uncommitted in the transaction of the sink and without autocommit. -/
def write (world : World K V T) (row : K × T) : World K V T :=
  if plan.starts || !plan.control.autocommit then
    { world with uncommitted := world.uncommitted ++ [row] }
  else
    { world with
      tables := update world.tables plan.schema ((world.tables plan.schema).map (.write [row])) }

/-- The next step of the plan. The calls of the control panic if their statement is rejected; the
other ones return the error. An ALTER TABLE commits first. -/
def step (state : State K V T) : State K V T :=
  let world := state.world
  match state.phase with
  | .lock => advance (accepts .lockTable) (plan.lockTable world) .addColumn (.done false) world
  | .addColumn =>
    advance (accepts .addColumn) ((world.commit plan.schema).alter plan.database Table.addColumn)
      .start (.done false) world
  | .start =>
    if plan.starts then
      advance (accepts .startTransaction) (some { world with lock := none }) .select (.done false)
        world
    else ⟨.select, world⟩
  | .select =>
    match accepts .select, plan.scan world with
    | true, some rows => ⟨.prepare rows, world⟩
    | _, _ => ⟨.rollback, world⟩
  | .prepare rows => advance (accepts .prepare) (plan.prepare world) (.update rows) .rollback world
  | .update [] => ⟨.commit, world⟩
  | .update (row :: rest) =>
    advance (accepts (.update row.1)) (some (plan.write world row)) (.update rest) .rollback world
  | .commit =>
    if plan.commits then
      advance (accepts .commit) (some (world.commit plan.schema)) .modify (.done false) world
    else ⟨.modify, world⟩
  | .rollback =>
    if plan.rollsBack then
      advance (accepts .rollback) (some { world with uncommitted := [] }) (.done false)
        (.done false) world
    else ⟨.done false, world⟩
  | .modify =>
    advance (accepts .modifyColumn)
      ((world.commit plan.schema).alter plan.database Table.modifyColumn) .unlock (.done false)
      world
  | .unlock =>
    advance (accepts .unlockTables) (some { world with lock := none }) .register (.done false)
      world
  | .register =>
    advance (accepts .updateMetadata)
      (some { world with metadata := world.metadata ++ [plan.indexName] }) (.done true)
      (.done false) world
  | .done _ => state

end CreateColumnarIndexPlan

def Phase.number : Phase K T → Nat
  | .lock => 10
  | .addColumn => 9
  | .start => 8
  | .select => 7
  | .prepare _ => 6
  | .update _ => 5
  | .commit => 4
  | .modify => 3
  | .unlock => 2
  | .register | .rollback => 1
  | .done _ => 0

def Phase.updates : Phase K T → Nat
  | .update rows => rows.length
  | _ => 0

omit [DecidableEq K] in
theorem advance_phase (accepted : Bool) (result : Option (World K V T))
    (next failed : Phase K T) (world : World K V T) :
    (advance accepted result next failed world).phase = next ∨
      (advance accepted result next failed world).phase = failed := by
  unfold advance
  split
  · exact .inl rfl
  · exact .inr rfl

namespace CreateColumnarIndexPlan

variable (plan : CreateColumnarIndexPlan V T) (accepts : Statement K → Bool) (state : State K V T)

theorem step_lt (running : state.phase.number ≠ 0) :
    Prod.Lex (· < ·) (· < ·)
      ((plan.step accepts state).phase.number, (plan.step accepts state).phase.updates)
      (state.phase.number, state.phase.updates) := by
  have either (accepted : Bool) (result : Option (World K V T))
      (next failed : Phase K T) (before : Nat × Nat)
      (isNext : Prod.Lex (· < ·) (· < ·) (next.number, next.updates) before)
      (isFailed : Prod.Lex (· < ·) (· < ·) (failed.number, failed.updates) before) :
      Prod.Lex (· < ·) (· < ·)
        ((advance accepted result next failed state.world).phase.number,
          (advance accepted result next failed state.world).phase.updates) before := by
    rcases advance_phase accepted result next failed state.world with isPhase | isPhase
    · rw [isPhase]
      exact isNext
    · rw [isPhase]
      exact isFailed
  obtain ⟨phase, world⟩ := state
  dsimp only [step]
  split
  case h_4 => split <;> exact .left _ _ (by simp [Phase.number])
  case h_6 => exact .left _ _ (by simp [Phase.number])
  case h_7 =>
    exact either _ _ _ _ _ (.right _ (by simp [Phase.updates]))
      (.left _ _ (by simp [Phase.number]))
  case h_13 => exact absurd rfl running
  all_goals
    try split
    all_goals first
      | exact either _ _ _ _ _ (.left _ _ (by simp [Phase.number]))
          (.left _ _ (by simp [Phase.number]))
      | exact .left _ _ (by simp [Phase.number])

def finish (state : State K V T) : World K V T :=
  if state.phase.number = 0 then state.world else finish (plan.step accepts state)
termination_by (state.phase.number, state.phase.updates)
decreasing_by exact plan.step_lt accepts state ‹_›

theorem finish_done (registered : Bool) (world : World K V T) :
    plan.finish accepts ⟨.done registered, world⟩ = world := by
  rw [finish]
  exact if_pos rfl

theorem finish_step :
    plan.finish accepts state = plan.finish accepts (plan.step accepts state) := by
  obtain ⟨phase, world⟩ := state
  cases phase with
  | done registered => rfl
  | _ => rw [finish]; exact if_neg (by simp [Phase.number])

/-! ## The sink and its transaction -/

theorem starts_iff : plan.starts = true ↔ plan.Idle := by
  obtain ⟨_, _, _, _, ⟨autocommit, current⟩, noSink⟩ := plan
  cases autocommit <;> rcases current with - | - | depth <;>
    simp [starts, Idle, TransactionControl.weakStartTransaction]

theorem commits_eq : plan.commits = plan.starts := by
  obtain ⟨_, _, _, _, ⟨autocommit, current⟩, noSink⟩ := plan
  cases autocommit <;> rcases current with - | - | depth <;>
    first
    | rfl
    | exact absurd rfl (noSink depth)

end CreateColumnarIndexPlan

/-! ## What the statements write -/

theorem writeIndex_eq {rows : List (K × T)} {expected : K → Option T}
    (consistent : ∀ row ∈ rows, expected row.1 = some row.2) (index : K → Option T)
    (key : K) :
    writeIndex rows index key = if key ∈ rows.map Prod.fst then expected key else index key := by
  induction rows generalizing index with
  | nil => rfl
  | cons row rest ih =>
    have later := ih (forall_mem_cons.mp consistent).2
      (update index row.1 (some row.2))
    change writeIndex rest (update index row.1 (some row.2)) key = _
    rw [later]
    by_cases same : key = row.1
    · have head := consistent row mem_cons_self
      rw [same, update_self, map_cons, if_pos mem_cons_self, ← head, ite_self]
    · have tail : key ∈ (row :: rest).map Prod.fst ↔ key ∈ rest.map Prod.fst := by
        rw [map_cons, mem_cons, or_iff_right same]
      rw [update_of_ne same]
      exact if_congr tail.symm rfl rfl

theorem writeIndex_append (index : K → Option T) :
    writeIndex (first ++ second) index = writeIndex second (writeIndex first index) :=
  foldl_append

@[simp] theorem Table.write_nil : (Table.write [] : Table K V T → Table K V T) = id := by
  funext table
  cases table with
  | mk keys value index notNull => cases index <;> rfl

theorem Table.write_append (table : Table K V T) :
    table.write (first ++ second) = (table.write first).write second := by
  cases table with
  | mk keys value index notNull =>
    cases index with
    | none => rfl
    | some index => simp [Table.write, writeIndex_append]

namespace CreateColumnarIndexPlan

variable {table : Table K V T} {world : World K V T} (plan : CreateColumnarIndexPlan V T)
  (accepts : Statement K → Bool) {database : Option String} {altered : World K V T}
  {before : World K V T} {target : Table K V T} (rows : List (K × T))

omit [DecidableEq K] in
theorem mem_rows_iff :
    row ∈ plan.rows table ↔
      row.1 ∈ table.keys ∧ plan.indexValue (table.value row.1) = some row.2 := by
  obtain ⟨key, tag⟩ := row
  simp [rows, and_comm]

/-- The resolved table has the index value of each row in its index column. -/
def Populated (world : World K V T) : Prop :=
  ∃ table, world.tables plan.schema = some table ∧ table.index.isSome = true ∧
    ∀ key ∈ table.keys, table.indexAt key = plan.indexValue (table.value key)

theorem indexAt_write_rows (isIndex : table.index = some index)
    (noNull : ∀ key ∈ table.keys, (plan.indexValue (table.value key)).isSome = true)
    (member : key ∈ table.keys) :
    (table.write (plan.rows table)).indexAt key = plan.indexValue (table.value key) := by
  obtain ⟨tag, isTag⟩ := Option.isSome_iff_exists.mp (noNull key member)
  have consistent : ∀ row ∈ plan.rows table, plan.indexValue (table.value row.1) = some row.2 :=
    fun row isRow => (plan.mem_rows_iff.mp isRow).2
  have written := @writeIndex_eq _ _ _ _ (fun key => plan.indexValue (table.value key)) consistent
    index key
  rw [Table.indexAt, Table.write, isIndex]
  refine written.trans (if_pos (mem_map.mpr ⟨(key, tag), ?_, rfl⟩))
  exact plan.mem_rows_iff.mpr ⟨member, isTag⟩

theorem foldl_write_eq (world : World K V T) :
    rows.foldl plan.write world =
      if plan.starts || !plan.control.autocommit then
        { world with uncommitted := world.uncommitted ++ rows }
      else
        { world with
          tables := update world.tables plan.schema
            ((world.tables plan.schema).map (.write rows)) } := by
  induction rows generalizing world with
  | nil => split_ifs <;> simp
  | cons row rest ih =>
    rw [foldl_cons, ih, write]
    split_ifs
    · simp
    · simp [Function.comp_def, ← Table.write_append]

theorem foldl_write_of_starts (starts : plan.starts = true) (rows : List (K × T))
    (world : World K V T) :
    rows.foldl plan.write world = { world with uncommitted := world.uncommitted ++ rows } := by
  rw [foldl_write_eq, starts]
  rfl

theorem foldl_write_frame (world : World K V T) :
    (rows.foldl plan.write world).lock = world.lock ∧
      (rows.foldl plan.write world).metadata = world.metadata ∧
      ∃ written, (rows.foldl plan.write world).tables plan.schema =
        (world.tables plan.schema).map (.write written) := by
  rw [foldl_write_eq]
  split_ifs
  · exact ⟨rfl, rfl, [], by simp⟩
  · exact ⟨rfl, rfl, rows, update_self ..⟩

theorem commit_foldl_write (clean : world.uncommitted = []) :
    (rows.foldl plan.write world).commit plan.schema =
      { world with
        tables := update world.tables plan.schema
          ((world.tables plan.schema).map (.write rows)) } := by
  rw [foldl_write_eq]
  split_ifs
  · simp [World.commit, clean]
  · simp [World.commit, clean]

/-! ## All or nothing -/

/-- The connection holds no lock, and either the index is there and registered or the resolved
table and the metadata are as they were. -/
def Atomic (before after : World K V T) : Prop :=
  after.lock = none ∧
    (plan.Populated after ∧ after.metadata = before.metadata ++ [plan.indexName] ∨
      after.tables plan.schema = before.tables plan.schema ∧ after.metadata = before.metadata)

/-- The sink succeeds on a table that has the index column. -/
structure Populates (table : Table K V T) : Prop where
  selected : accepts .select = true
  noNull : ∀ key ∈ table.keys, (plan.indexValue (table.value key)).isSome = true
  prepared : accepts .prepare = true
  updated : ∀ key ∈ table.keys, accepts (.update key) = true
  committed : plan.Idle → accepts .commit = true

/-- The steps after the sink succeed. -/
structure Registers : Prop where
  modified : accepts .modifyColumn = true
  unlocked : accepts .unlockTables = true
  registered : accepts .updateMetadata = true

omit [DecidableEq K] in
theorem atomic_iff_of_unregistered (after : World K V T)
    (metadata : after.metadata = before.metadata) :
    plan.Atomic before after ↔
      after.lock = none ∧ after.tables plan.schema = before.tables plan.schema := by
  refine and_congr_right fun _ => ⟨?_, fun same => .inr ⟨same, metadata⟩⟩
  rintro (⟨-, registered⟩ | ⟨same, -⟩)
  · simp [metadata] at registered
  · exact same

theorem atomic_unlock_iff (metadata : world.metadata = before.metadata)
    (populated : plan.Populated world)
    (free : world.tables plan.schema = before.tables plan.schema → world.lock = none) :
    plan.Atomic before (plan.finish accepts ⟨.unlock, world⟩) ↔
      (accepts .unlockTables = true ∧ accepts .updateMetadata = true) ∨
        world.tables plan.schema = before.tables plan.schema := by
  rw [finish_step]
  cases unlocked : accepts .unlockTables with
  | false =>
    simpa [step, unlocked, advance, finish_done] using
      (plan.atomic_iff_of_unregistered world metadata).trans (and_iff_right_of_imp free)
  | true =>
    rw [finish_step]
    cases registered : accepts .updateMetadata with
    | false =>
      simpa [step, unlocked, registered, advance, finish_done] using
        plan.atomic_iff_of_unregistered { world with lock := none } metadata
    | true =>
      simp only [step, unlocked, registered, advance, finish_done, and_self, true_or, iff_true]
      exact ⟨rfl, .inl ⟨populated, by rw [metadata]⟩⟩

omit [DecidableEq K] in
theorem alter_eq_some_iff {change : Table K V T → Option (Table K V T)} :
    world.alter database change = some altered ↔
      ∃ schema table changed, database = some schema ∧ world.permits schema = true ∧
        world.tables schema = some table ∧ change table = some changed ∧
        altered = { world with tables := update world.tables schema (some changed) } := by
  simp only [World.alter, Option.bind_eq_bind, Option.bind_eq_some_iff, Option.guard_eq_some',
    Option.pure_def, Option.some.injEq]
  grind

omit [DecidableEq K] in
theorem modifyColumn_eq_some_iff {changed : Table K V T} :
    table.modifyColumn = some changed ↔
      table.index.isSome = true ∧ (∀ key ∈ table.keys, (table.indexAt key).isSome = true) ∧
        { table with notNull := true } = changed := by
  simp only [Table.modifyColumn, Option.ite_none_right_eq_some, Bool.and_eq_true, all_eq_true,
    Option.some.injEq, and_assoc]

omit [DecidableEq K] in
theorem populated_alter (isAltered : world.alter database Table.modifyColumn = some altered)
    (populated : plan.Populated world) : plan.Populated altered := by
  obtain ⟨schema, table, changed, -, -, isTable, isChanged, rfl⟩ := alter_eq_some_iff.mp isAltered
  obtain ⟨-, -, rfl⟩ := modifyColumn_eq_some_iff.mp isChanged
  obtain ⟨target, isTarget, hasColumn, right⟩ := populated
  by_cases same : plan.schema = schema
  · subst same
    cases isTable.symm.trans isTarget
    exact ⟨_, update_self .., hasColumn, right⟩
  · exact ⟨target, (update_of_ne same ..).trans isTarget, hasColumn, right⟩

theorem atomic_modify_iff (before world : World K V T)
    (metadata : world.metadata = before.metadata)
    (populated : plan.Populated (world.commit plan.schema))
    (free : world.tables plan.schema = before.tables plan.schema → world.lock = none)
    (frame : ∀ altered, (world.commit plan.schema).alter plan.database Table.modifyColumn =
      some altered → (altered.tables plan.schema = before.tables plan.schema ↔
        world.tables plan.schema = before.tables plan.schema)) :
    plan.Atomic before (plan.finish accepts ⟨.modify, world⟩) ↔
      (Registers accepts ∧
        ((world.commit plan.schema).alter plan.database Table.modifyColumn).isSome = true) ∨
        world.tables plan.schema = before.tables plan.schema := by
  have unmodified := (plan.atomic_iff_of_unregistered world metadata).trans
    (and_iff_right_of_imp free)
  rw [finish_step]
  cases modified : accepts .modifyColumn with
  | false =>
    have not : ¬Registers accepts := fun registers => by simp [registers.modified] at modified
    simpa [step, modified, advance, finish_done, not] using unmodified
  | true =>
    cases isAltered : (world.commit plan.schema).alter plan.database Table.modifyColumn with
    | none => simpa [step, modified, isAltered, advance, finish_done] using unmodified
    | some altered =>
      have same := frame altered isAltered
      obtain ⟨schema, table, changed, -, -, -, -, isWorld⟩ := alter_eq_some_iff.mp isAltered
      have rest := plan.atomic_unlock_iff accepts
        (show altered.metadata = before.metadata by rw [isWorld]; exact metadata)
        (plan.populated_alter isAltered populated)
        (fun unchanged => by rw [isWorld]; exact free (same.mp unchanged))
      simp only [step, modified, isAltered, advance, Option.isSome_some, and_true]
      refine rest.trans (or_congr ⟨fun ⟨unlocked, registered⟩ => ⟨modified, unlocked, registered⟩,
        fun registers => ⟨registers.unlocked, registers.registered⟩⟩ same)

omit [DecidableEq K] in
theorem scan_eq_some_iff {rows : List (K × T)} :
    plan.scan world = some rows ↔ world.permits plan.schema = true ∧
      ∃ table, world.tables plan.schema = some table ∧
        (∀ key ∈ table.keys, (plan.indexValue (table.value key)).isSome = true) ∧
        plan.rows table = rows := by
  simp [scan, Option.bind_eq_some_iff, Option.guard_eq_some']

omit [DecidableEq K] in
theorem prepare_eq_some_iff {prepared : World K V T} :
    plan.prepare world = some prepared ↔ world.permits plan.schema = true ∧
      (∃ table, world.tables plan.schema = some table ∧ table.index.isSome = true) ∧
        world = prepared := by
  simp [prepare, Option.bind_eq_some_iff, Option.guard_eq_some', ← and_assoc]

theorem finish_rollback (world : World K V T) :
    ∃ uncommitted, plan.finish accepts ⟨.rollback, world⟩ =
      { world with uncommitted := uncommitted } := by
  rw [finish_step]
  dsimp only [step]
  split_ifs
  · cases accepts .rollback with
    | true => exact ⟨[], finish_done ..⟩
    | false => exact ⟨_, finish_done ..⟩
  · exact ⟨_, finish_done ..⟩

theorem finish_update (world : World K V T) :
    (∀ row ∈ rows, accepts (.update row.1) = true) ∧
        plan.finish accepts ⟨.update rows, world⟩ =
          plan.finish accepts ⟨.commit, rows.foldl plan.write world⟩ ∨
      (¬∀ row ∈ rows, accepts (.update row.1) = true) ∧
        ∃ written : List (K × T), plan.finish accepts ⟨.update rows, world⟩ =
          plan.finish accepts ⟨.rollback, written.foldl plan.write world⟩ := by
  induction rows generalizing world with
  | nil => exact .inl ⟨nofun, plan.finish_step accepts ⟨.update [], world⟩⟩
  | cons row rest ih =>
    rw [finish_step]
    cases accepted : accepts (.update row.1) with
    | false =>
      refine .inr ⟨fun all => ?_, [], by simp [step, accepted, advance]⟩
      simp [all row mem_cons_self] at accepted
    | true =>
      simp only [step, accepted, advance]
      rcases ih (plan.write world row) with ⟨all, isEnd⟩ | ⟨notAll, written, isEnd⟩
      · exact .inl ⟨forall_mem_cons.mpr ⟨accepted, all⟩, isEnd⟩
      · exact .inr ⟨fun all => notAll (forall_mem_cons.mp all).2, row :: written, isEnd⟩

omit [DecidableEq K] in
theorem updated_iff (noNull : ∀ key ∈ table.keys, (plan.indexValue (table.value key)).isSome = true)
    :
    (∀ row ∈ plan.rows table, accepts (.update row.1) = true) ↔
      ∀ key ∈ table.keys, accepts (.update key) = true := by
  constructor
  · intro all key member
    obtain ⟨tag, isTag⟩ := Option.isSome_iff_exists.mp (noNull key member)
    exact all (key, tag) (plan.mem_rows_iff.mpr ⟨member, isTag⟩)
  · exact fun all row member => all row.1 (plan.mem_rows_iff.mp member).1

theorem finish_select_of_populates (permitted : world.permits plan.schema = true)
    (isTarget : world.tables plan.schema = some target) (hasColumn : target.index.isSome = true)
    (populates : plan.Populates accepts target) :
    plan.finish accepts ⟨.select, world⟩ =
      plan.finish accepts ⟨.modify,
        if plan.starts then ((plan.rows target).foldl plan.write world).commit plan.schema
        else (plan.rows target).foldl plan.write world⟩ := by
  have scanned := plan.scan_eq_some_iff.mpr ⟨permitted, target, isTarget, populates.noNull, rfl⟩
  have prepared := plan.prepare_eq_some_iff.mpr ⟨permitted, ⟨target, isTarget, hasColumn⟩, rfl⟩
  have updated := (plan.updated_iff accepts populates.noNull).mpr populates.updated
  rw [finish_step]
  simp only [step, populates.selected, scanned]
  rw [finish_step]
  simp only [step, populates.prepared, prepared, advance]
  obtain ⟨-, isEnd⟩ := (plan.finish_update accepts (plan.rows target) world).resolve_right
    fun rejected => rejected.1 updated
  rw [isEnd, finish_step]
  dsimp only [step]
  rw [commits_eq]
  split_ifs with starts
  · simp only [populates.committed (plan.starts_iff.mp starts), advance]
  · rfl

/-- The rows of the resolved table can be selected and updated. -/
def CanPopulate (world : World K V T) : Prop :=
  ∃ target, world.permits plan.schema = true ∧ world.tables plan.schema = some target ∧
    target.index.isSome = true ∧ plan.Populates accepts target

theorem finish_select_of_not (fails : ¬plan.CanPopulate accepts world) :
    ∃ (rows : List (K × T)) (uncommitted : List (K × T)),
      plan.finish accepts ⟨.select, world⟩ = { rows.foldl plan.write world with uncommitted := uncommitted } := by
  have failed : ∃ uncommitted, plan.finish accepts ⟨.rollback, world⟩ =
      { ([] : List (K × T)).foldl plan.write world with uncommitted := uncommitted } :=
    plan.finish_rollback accepts world
  rw [finish_step]
  dsimp only [step]
  split
  case h_2 => exact ⟨[], failed⟩
  case h_1 rows selected scanned =>
    obtain ⟨permitted, target, isTarget, noNull, rfl⟩ := plan.scan_eq_some_iff.mp scanned
    rw [finish_step]
    dsimp only [step, advance]
    split
    case h_2 => exact ⟨[], failed⟩
    case h_1 world prepared isPrepared =>
      obtain ⟨-, ⟨table, isTable, hasColumn⟩, rfl⟩ := plan.prepare_eq_some_iff.mp isPrepared
      cases isTable.symm.trans isTarget
      rcases plan.finish_update accepts (plan.rows target) world with
        ⟨updated, isEnd⟩ | ⟨-, written, isEnd⟩
      · rw [isEnd, finish_step]
        dsimp only [step, advance]
        have rejected : ¬(plan.Idle → accepts .commit = true) := fun committed => fails
          ⟨target, permitted, isTarget, hasColumn, selected, noNull, prepared,
            (plan.updated_iff accepts noNull).mp updated, committed⟩
        obtain ⟨idle, rejected⟩ := Classical.not_imp.mp rejected
        rw [commits_eq, plan.starts_iff.mpr idle, if_pos rfl, eq_false_of_ne_true rejected]
        exact ⟨_, _, plan.finish_done ..⟩
      · rw [isEnd]
        exact ⟨written, plan.finish_rollback accepts _⟩

theorem atomic_select_of_not (before world : World K V T)
    (metadata : world.metadata = before.metadata)
    (fails : ¬plan.CanPopulate accepts world) :
    ∃ rows : List (K × T), plan.Atomic before (plan.finish accepts ⟨.select, world⟩) ↔
      world.lock = none ∧
        (rows.foldl plan.write world).tables plan.schema = before.tables plan.schema := by
  obtain ⟨rows, uncommitted, isEnd⟩ := plan.finish_select_of_not accepts fails
  obtain ⟨isLock, isMetadata, -⟩ := plan.foldl_write_frame rows world
  have unregistered := plan.atomic_iff_of_unregistered (plan.finish accepts ⟨.select, world⟩)
    (show _ = before.metadata by rw [isEnd]; exact isMetadata.trans metadata)
  rw [isEnd] at unregistered ⊢
  exact ⟨rows, unregistered.trans (by rw [← isLock])⟩

theorem write_rows_eq_iff (isIndex : table.index = some index)
    (noNull : ∀ key ∈ table.keys, (plan.indexValue (table.value key)).isSome = true) :
    table.write (plan.rows table) = table ↔
      ∀ key ∈ table.keys, index key = plan.indexValue (table.value key) := by
  constructor
  · intro same key member
    have written := plan.indexAt_write_rows isIndex noNull member
    rwa [same, Table.indexAt, isIndex] at written
  · intro right
    have consistent (row) (isRow : row ∈ plan.rows table) : index row.1 = some row.2 := by
      obtain ⟨member, isTag⟩ := plan.mem_rows_iff.mp isRow
      rw [right row.1 member, isTag]
    have unchanged : writeIndex (plan.rows table) index = index :=
      funext fun key => (writeIndex_eq consistent index key).trans (ite_self _)
    cases table with
    | mk keys value column notNull =>
      obtain rfl : column = some index := isIndex
      simpa only [Table.write, Option.map_some, Table.mk.injEq, Option.some.injEq, true_and,
        and_true] using unchanged

theorem commit_of_clean (clean : world.uncommitted = []) (schema : String) :
    world.commit schema = world := by
  cases world with
  | mk tables lock uncommitted metadata =>
    obtain rfl : uncommitted = [] := clean
    simp [World.commit]

theorem commit_after_sink (world : World K V T) :
    (if plan.starts then world.commit plan.schema else world).commit plan.schema =
      world.commit plan.schema := by
  split_ifs
  · exact commit_of_clean rfl _
  · rfl

/-- The pre-states and the patterns for which the creation is all or nothing. LOCK TABLE fails; or
the table is in the default database and every statement succeeds; or a table of the same name is
altered in another schema, and the resolved one stays as it was or happens to be filled. -/
def AtomicWhen (tables : String → Option (Table K V T)) : Prop :=
  accepts .lockTable = false ∨ plan.database.bind tables = none ∨
    ∃ database table, plan.database = some database ∧ tables database = some table ∧
      accepts .addColumn = true ∧ table.index = none ∧
      (plan.Idle → accepts .startTransaction = true) ∧
      (database = plan.schema ∧ plan.Populates accepts table ∧ Registers accepts ∨
        database ≠ plan.schema ∧ plan.Idle ∧ ∀ target index,
          tables plan.schema = some target → target.index = some index →
          plan.Populates accepts target →
            (∀ key ∈ target.keys, index key = plan.indexValue (target.value key)) ∨
              Registers accepts ∧ table.keys = [])

def addedWorld (tables : String → Option (Table K V T)) (metadata : List String)
    (database : String) (table : Table K V T) : World K V T where
  tables := update tables database
    (some { table with index := some fun _ => none, notNull := false })
  lock := if plan.Idle then none else some database
  metadata := metadata

variable {plan accepts} {tables : String → Option (Table K V T)} {metadata : List String}
  {database : String}

theorem populated_after_sink (clean : world.uncommitted = [])
    (isTarget : world.tables plan.schema = some target) (hasColumn : target.index.isSome = true)
    (populates : plan.Populates accepts target) :
    plan.Populated (((plan.rows target).foldl plan.write world).commit plan.schema) := by
  obtain ⟨index, isIndex⟩ := Option.isSome_iff_exists.mp hasColumn
  rw [plan.commit_foldl_write _ clean]
  refine ⟨target.write (plan.rows target), by simp [isTarget], by simp [Table.write, isIndex], ?_⟩
  exact fun key member => plan.indexAt_write_rows isIndex populates.noNull member

theorem atomic_select_of_same (isTable : before.tables plan.schema = some table)
    (absent : table.index = none) (isDatabase : plan.database = some plan.schema) :
    plan.Atomic before (plan.finish accepts ⟨.select,
        plan.addedWorld before.tables before.metadata plan.schema table⟩) ↔
      plan.Populates accepts table ∧ Registers accepts := by
  set world := plan.addedWorld before.tables before.metadata plan.schema table with isWorld
  set target : Table K V T := { table with index := some fun _ => none, notNull := false }
  have isTarget : world.tables plan.schema = some target := update_self ..
  have permitted : world.permits plan.schema = true := by
    simp only [isWorld, World.permits, addedWorld]
    split_ifs <;> simp
  -- From here on the column is there, which it was not before.
  have changed {after : World K V T} {present : Table K V T}
      (isPresent : after.tables plan.schema = some present)
      (hasColumn : present.index.isSome = true) :
      after.tables plan.schema ≠ before.tables plan.schema := by
    rw [isPresent, isTable]
    rintro ⟨⟩
    simp [absent] at hasColumn
  have stays (rows : List (K × T)) :
      ((rows.foldl plan.write world).tables plan.schema ≠ before.tables plan.schema) := by
    obtain ⟨-, -, written, isWritten⟩ := plan.foldl_write_frame rows world
    rw [isTarget] at isWritten
    exact changed isWritten rfl
  by_cases populates : plan.Populates accepts table
  case neg =>
    have fails : ¬plan.CanPopulate accepts world := by
      rintro ⟨other, -, isOther, -, ⟨selected, noNull, prepared, updated, committed⟩⟩
      cases isTarget.symm.trans isOther
      exact populates ⟨selected, noNull, prepared, updated, committed⟩
    obtain ⟨rows, isAtomic⟩ := plan.atomic_select_of_not accepts before world rfl fails
    exact isAtomic.trans (iff_of_false (fun same => stays rows same.2) fun both =>
      populates both.1)
  case pos =>
    have filled : plan.Populates accepts target := ⟨populates.selected, populates.noNull,
      populates.prepared, populates.updated, populates.committed⟩
    have clean : world.uncommitted = [] := rfl
    have populated := populated_after_sink clean isTarget rfl filled
    rw [plan.finish_select_of_populates accepts permitted isTarget rfl filled]
    set sunk := (plan.rows target).foldl plan.write world with isSunk
    set after := if plan.starts then sunk.commit plan.schema else sunk with isAfter
    have committed : after.commit plan.schema = sunk.commit plan.schema :=
      plan.commit_after_sink sunk
    obtain ⟨isLock, isMetadata, -⟩ := plan.foldl_write_frame (plan.rows target) world
    have isFilled : (sunk.commit plan.schema).tables plan.schema =
        some (target.write (plan.rows target)) := by
      rw [isSunk, plan.commit_foldl_write _ clean]
      simp [isTarget]
    have unlike : after.tables plan.schema ≠ before.tables plan.schema := by
      rw [isAfter]
      split_ifs
      · exact changed isFilled rfl
      · exact stays _
    have modified : (target.write (plan.rows target)).modifyColumn =
        some { target.write (plan.rows target) with notNull := true } :=
      modifyColumn_eq_some_iff.mpr ⟨rfl, fun key member => by
        rw [plan.indexAt_write_rows rfl filled.noNull member]
        exact filled.noNull key member, rfl⟩
    have permits : (sunk.commit plan.schema).permits plan.schema = true := by
      rw [World.permits, show (sunk.commit plan.schema).lock = world.lock from isLock]
      exact permitted
    have altered := alter_eq_some_iff.mpr
      ⟨plan.schema, _, _, isDatabase, permits, isFilled, modified, rfl⟩
    have isEnd := plan.atomic_modify_iff accepts before after
      (by rw [isAfter]; split_ifs <;> exact isMetadata)
      (by rw [committed]; exact populated) (fun same => absurd same unlike) (by
        intro other isOther
        rw [committed, altered] at isOther
        cases isOther
        exact iff_of_false (changed (update_self ..) rfl) unlike)
    rw [isEnd, committed, altered]
    simp [unlike, populates]

theorem atomic_select_of_other (isDatabase : plan.database = some database)
    (other : database ≠ plan.schema) :
    plan.Atomic before (plan.finish accepts ⟨.select,
        plan.addedWorld before.tables before.metadata database table⟩) ↔
      plan.Idle ∧ ∀ target index, before.tables plan.schema = some target → target.index = some index →
        plan.Populates accepts target →
          (∀ key ∈ target.keys, index key = plan.indexValue (target.value key)) ∨
            Registers accepts ∧ table.keys = [] := by
  set world := plan.addedWorld before.tables before.metadata database table with isWorld
  have sameTable : world.tables plan.schema = before.tables plan.schema :=
    update_of_ne other.symm ..
  by_cases idle : plan.Idle
  case neg =>
    have isLock : world.lock = some database := if_neg idle
    obtain ⟨rows, isAtomic⟩ := plan.atomic_select_of_not accepts before world rfl
      (by rintro ⟨target, permitted, -⟩; simp [World.permits, isLock, other] at permitted)
    exact isAtomic.trans (iff_of_false (fun free => by simp [isLock] at free) fun both =>
      idle both.1)
  have isLock : world.lock = none := if_pos idle
  have starts := plan.starts_iff.mpr idle
  by_cases populates : plan.CanPopulate accepts world
  case neg =>
    obtain ⟨rows, isAtomic⟩ := plan.atomic_select_of_not accepts before world rfl populates
    rw [plan.foldl_write_of_starts starts] at isAtomic
    refine isAtomic.trans (iff_of_true ⟨isLock, sameTable⟩ ⟨idle, ?_⟩)
    intro target index isTarget isIndex filled
    exact absurd ⟨target, by simp [World.permits, isLock], sameTable.trans isTarget,
      by simp [isIndex], filled⟩ populates
  case pos =>
    obtain ⟨target, permitted, isTarget, hasColumn, filled⟩ := populates
    obtain ⟨index, isIndex⟩ := Option.isSome_iff_exists.mp hasColumn
    have clean : world.uncommitted = [] := rfl
    have populated := populated_after_sink clean isTarget hasColumn filled
    rw [plan.finish_select_of_populates accepts permitted isTarget hasColumn filled, if_pos starts,
      plan.commit_foldl_write _ clean]
    rw [plan.commit_foldl_write _ clean] at populated
    set sunk : World K V T := { world with
      tables := update world.tables plan.schema
        ((world.tables plan.schema).map (.write (plan.rows target))) } with isSunk
    have committed : sunk.commit plan.schema = sunk := commit_of_clean rfl _
    have isFilled : sunk.tables plan.schema = some (target.write (plan.rows target)) := by
      simp [isSunk, isTarget]
    have isLocal : sunk.tables database =
        some { table with index := some fun _ => none, notNull := false } :=
      (update_of_ne other ..).trans (update_self ..)
    have same : sunk.tables plan.schema = before.tables plan.schema ↔
        ∀ key ∈ target.keys, index key = plan.indexValue (target.value key) := by
      rw [isFilled, ← sameTable, isTarget, Option.some.injEq]
      exact plan.write_rows_eq_iff isIndex filled.noNull
    have modifiable : (sunk.alter plan.database Table.modifyColumn).isSome = true ↔
        table.keys = [] := by
      rw [Option.isSome_iff_exists]
      constructor
      · rintro ⟨altered, isAltered⟩
        obtain ⟨schema, present, _, isSchema, -, isPresent, isChanged, -⟩ :=
          alter_eq_some_iff.mp isAltered
        cases isDatabase.symm.trans isSchema
        cases isLocal.symm.trans isPresent
        obtain ⟨-, filled, -⟩ := modifyColumn_eq_some_iff.mp isChanged
        exact eq_nil_iff_forall_not_mem.mpr fun key member => by
          simpa [Table.indexAt] using filled key member
      · intro empty
        have permits : sunk.permits database = true := by
          rw [World.permits, show sunk.lock = none from isLock]
          rfl
        exact ⟨_, alter_eq_some_iff.mpr ⟨database, _, _, isDatabase, permits, isLocal,
          modifyColumn_eq_some_iff.mpr ⟨rfl, by simp [empty], rfl⟩, rfl⟩⟩
    have isEnd := plan.atomic_modify_iff accepts before sunk rfl
      (by rw [committed]; exact populated) (fun _ => isLock) (by
        intro altered isAltered
        rw [committed] at isAltered
        obtain ⟨schema, _, _, isSchema, -, -, -, rfl⟩ := alter_eq_some_iff.mp isAltered
        cases isDatabase.symm.trans isSchema
        dsimp only
        rw [update_of_ne other.symm])
    rw [isEnd, committed, modifiable, same]
    constructor
    · rintro (registers | right)
      · exact ⟨idle, fun _ _ _ _ _ => .inr registers⟩
      · refine ⟨idle, fun other column isOther isColumn _ => .inl ?_⟩
        cases isTarget.symm.trans (sameTable.trans isOther)
        cases isIndex.symm.trans isColumn
        exact right
    · rintro ⟨-, right⟩
      exact (right target index (sameTable.symm.trans isTarget) isIndex filled).symm

theorem atomic_lock_iff (locked : accepts .lockTable = true)
    (isDatabase : plan.database = some database) (isTable : tables database = some table) :
    plan.Atomic { tables := tables, metadata := metadata }
        (plan.finish accepts ⟨.lock, { tables := tables, metadata := metadata }⟩) ↔
      accepts .addColumn = true ∧ table.index = none ∧
        (plan.Idle → accepts .startTransaction = true) ∧
        plan.Atomic { tables := tables, metadata := metadata }
          (plan.finish accepts ⟨.select, plan.addedWorld tables metadata database table⟩) := by
  have isLocked : plan.lockTable { tables := tables, metadata := metadata } =
      some { tables := tables, lock := some database, metadata := metadata } := by
    simp [lockTable, isDatabase, isTable]
  rw [finish_step]
  simp only [step, locked, isLocked, advance]
  rw [finish_step]
  dsimp only [step]
  rw [commit_of_clean rfl]
  cases added : accepts .addColumn with
  | false => exact iff_of_false (fun atomic => by simp [advance, finish_done, Atomic] at atomic) (by simp)
  | true =>
    cases isIndex : table.index with
    | some index =>
      have refused : World.alter plan.database Table.addColumn
          { tables := tables, lock := some database, metadata := metadata } = none := by
        simp [World.alter, isDatabase, isTable, Table.addColumn, isIndex]
      rw [refused]
      exact iff_of_false (fun atomic => by simp [advance, finish_done, Atomic] at atomic) (by simp)
    | none =>
      have altered : World.alter plan.database Table.addColumn
          { tables := tables, lock := some database, metadata := metadata } =
          some { tables := update tables database
                  (some { table with index := some fun _ => none, notNull := false }),
                 lock := some database, metadata := metadata } := by
        simp [World.alter, isDatabase, isTable, Table.addColumn, isIndex, World.permits]
      rw [altered]
      simp only [advance, true_and]
      rw [finish_step]
      dsimp only [step]
      by_cases idle : plan.Idle
      · rw [plan.starts_iff.mpr idle, if_pos rfl]
        cases started : accepts .startTransaction with
        | false => exact iff_of_false (fun atomic => by simp [advance, finish_done, Atomic] at atomic) (by simp [idle])
        | true => simp [advance, addedWorld, idle]
      · rw [if_neg (mt plan.starts_iff.mp idle)]
        simp [addedWorld, idle]

/-- The creation is all or nothing exactly in these cases. -/
theorem creation_atomic_iff (plan : CreateColumnarIndexPlan V T)
    (accepts : Statement K → Bool) (tables : String → Option (Table K V T))
    (metadata : List String) :
    plan.Atomic { tables := tables, metadata := metadata }
        (plan.finish accepts ⟨.lock, { tables := tables, metadata := metadata }⟩) ↔
      plan.AtomicWhen accepts tables := by
  by_cases locked : accepts .lockTable = true
  case neg =>
    have rejected := eq_false_of_ne_true locked
    rw [finish_step]
    simp only [step, rejected, advance, finish_done]
    exact ⟨fun _ => .inl rejected, fun _ => ⟨rfl, .inr ⟨rfl, rfl⟩⟩⟩
  cases resolved : plan.database.bind tables with
  | none =>
    have unlockable : plan.lockTable { tables := tables, metadata := metadata } = none := by
      cases isDatabase : plan.database with
      | none => simp [lockTable, isDatabase]
      | some database =>
        rw [isDatabase, Option.bind_some] at resolved
        simp [lockTable, isDatabase, resolved]
    rw [finish_step]
    simp only [step, locked, unlockable, advance, finish_done]
    exact ⟨fun _ => .inr (.inl resolved), fun _ => ⟨rfl, .inr ⟨rfl, rfl⟩⟩⟩
  | some table =>
    obtain ⟨database, isDatabase, isTable⟩ := Option.bind_eq_some_iff.mp resolved
    rw [atomic_lock_iff locked isDatabase isTable, AtomicWhen]
    simp only [locked, isDatabase, isTable, Option.bind_some, reduceCtorEq, false_or,
      Option.some.injEq, exists_eq_left', Bool.true_eq_false, exists_and_left]
    refine and_congr_right fun _ => and_congr_right fun absent => and_congr_right fun _ => ?_
    by_cases same : database = plan.schema
    · subst same
      simpa using atomic_select_of_same isTable absent isDatabase
    · simpa [same] using atomic_select_of_other isDatabase same

end CreateColumnarIndexPlan

/-! ## Statements of other connections -/

/-- An INSERT or UPDATE of one row by another connection. It writes the index column if it was
planned with the index. -/
structure Write (K V : Type) where
  inserts : Bool
  indexed : Bool
  key : K
  value : V

def Table.put (key : K) (value : V) (tag : Option T) (table : Table K V T) :
    Table K V T :=
  { table with
    keys := if key ∈ table.keys then table.keys else key :: table.keys
    value := update table.value key value
    index := table.index.map fun index => update index key tag }

/-- An INSERT that does not know the column leaves it NULL, an UPDATE leaves it as it is. -/
def Table.execute (indexValue : V → Option T) (write : Write K V)
    (table : Table K V T) : Option (Table K V T) := do
  guard (write.inserts = decide (write.key ∉ table.keys))
  if write.indexed then
    guard (table.index.isSome && !(table.notNull && (indexValue write.value).isNone))
    return table.put write.key write.value (indexValue write.value)
  else
    guard !(write.inserts && table.notNull)
    return table.put write.key write.value
      (if write.inserts then none else table.indexAt write.key)

/-- A step of the plan, or a statement of another connection. -/
inductive Event (K V : Type) where
  | step
  | write (statement : Write K V)

def Phase.isRegistered : Phase K T → Bool
  | .done registered => registered
  | _ => false

namespace CreateColumnarIndexPlan

variable (plan : CreateColumnarIndexPlan V T) (accepts : Statement K → Bool) {table : Table K V T}

/-- The state after an event. A statement of another connection waits for the table lock and for
the rows of an open transaction. -/
def apply (state : State K V T) : Event K V → Option (State K V T)
  | .step => some (plan.step accepts state)
  | .write statement => do
    guard (state.world.lock ≠ some plan.schema)
    guard (statement.key ∉ state.world.uncommitted.map Prod.fst)
    guard (!statement.indexed || state.phase.isRegistered)
    let table ← (state.world.tables plan.schema).bind (Table.execute plan.indexValue statement)
    return { state with
      world := { state.world with tables := update state.world.tables plan.schema (some table) } }

/-- Other statements are executed before the sink reads the table, or know the index. -/
def Timely (state : State K V T) : Event K V → Prop
  | .step => True
  | .write statement => statement.indexed = true ∨ 7 ≤ state.phase.number

/-- Every event of a run comes at its time. -/
def TimelyRun (state : State K V T) : List (Event K V) → Prop
  | [] => True
  | event :: rest =>
    Timely state event ∧
      ∀ next, plan.apply accepts state event = some next → TimelyRun next rest

variable {plan accepts} in
/-- A run goes on in time after steps of the plan. -/
theorem TimelyRun.steps {state : State K V T} {rest : List (Event K V)} (count : Nat)
    (timely : plan.TimelyRun accepts ((plan.step accepts)^[count] state) rest) :
    plan.TimelyRun accepts state (replicate count .step ++ rest) := by
  induction count generalizing state with
  | zero => exact timely
  | succ count ih =>
    refine ⟨trivial, fun next isNext => ?_⟩
    cases isNext
    exact ih timely

variable {plan accepts} in
/-- A run goes on in time after a statement of another connection that is in time. -/
theorem TimelyRun.write {state next : State K V T} {statement : Write K V}
    {rest : List (Event K V)} (timely : Timely state (.write statement))
    (isNext : plan.apply accepts state (.write statement) = some next)
    (timelyRest : plan.TimelyRun accepts next rest) :
    plan.TimelyRun accepts state (.write statement :: rest) := by
  refine ⟨timely, fun other isOther => ?_⟩
  rw [isNext] at isOther
  cases isOther
  exact timelyRest

/-- The rows that are left to write; the other ones have their index value. -/
structure Writing (rows : List (K × T)) (world : World K V T)
    (table : Table K V T) (index : K → Option T) : Prop where
  isTable : world.tables plan.schema = some table
  isIndex : table.index = some index
  clean : (plan.starts || !plan.control.autocommit) = false → world.uncommitted = []
  consistent : ∀ row ∈ rows, plan.indexValue (table.value row.1) = some row.2
  right : ∀ key ∈ table.keys, key ∈ rows.map Prod.fst ∨
    writeIndex world.uncommitted index key = plan.indexValue (table.value key)

def Invariant (state : State K V T) : Prop :=
  match state.phase with
  | .lock | .addColumn | .start | .select => state.world.uncommitted = []
  | .prepare rows => state.world.uncommitted = [] ∧ plan.scan state.world = some rows
  | .update rows => ∃ table index, plan.Writing rows state.world table index
  | .commit | .modify => ∃ table index, plan.Writing [] state.world table index
  | .unlock | .register | .done true =>
    state.world.uncommitted = [] ∧ plan.Populated state.world
  | .rollback | .done false => True

variable {plan} {world : World K V T}

theorem invariant_advance {accepted : Bool} {result : Option (World K V T)}
    {next failed : Phase K T} (isFailed : plan.Invariant ⟨failed, world⟩)
    (isNext : ∀ changed, result = some changed → plan.Invariant ⟨next, changed⟩) :
    plan.Invariant (advance accepted result next failed world) := by
  unfold advance
  split
  · exact isNext _ rfl
  · exact isFailed

theorem Writing.write {rest : List (K × T)}
    (writing : plan.Writing (row :: rest) world table index) :
    ∃ table index, plan.Writing rest (plan.write world row) table index := by
  have isTag := writing.consistent row mem_cons_self
  have consistent (other) (member : other ∈ rest) :=
    writing.consistent other (mem_cons_of_mem row member)
  have right (key) (member : key ∈ table.keys) : key ∈ rest.map Prod.fst ∨
      writeIndex [row] (writeIndex world.uncommitted index) key =
        plan.indexValue (table.value key) := by
    by_cases same : key = row.1
    · subst same
      exact .inr ((update_self ..).trans isTag.symm)
    · have unchanged : writeIndex [row] (writeIndex world.uncommitted index) key =
          writeIndex world.uncommitted index key := update_of_ne same ..
      rw [unchanged]
      have before := writing.right key member
      rwa [map_cons, mem_cons, or_iff_right same] at before
  unfold CreateColumnarIndexPlan.write
  split_ifs with isOpen
  · exact ⟨table, index, writing.isTable, writing.isIndex, by simp [isOpen], consistent,
      fun key member => by rw [writeIndex_append]; exact right key member⟩
  · have clean := writing.clean (eq_false_of_ne_true isOpen)
    refine ⟨table.write [row], writeIndex [row] index, by simp [writing.isTable],
      by simp [Table.write, writing.isIndex], fun _ => clean, consistent, fun key member => ?_⟩
    dsimp only
    rw [clean] at right ⊢
    exact right key member

theorem Writing.commit (writing : plan.Writing [] world table index) :
    plan.Writing [] (world.commit plan.schema) (table.write world.uncommitted)
      (writeIndex world.uncommitted index) where
  isTable := by simp [World.commit, writing.isTable]
  isIndex := by simp [Table.write, writing.isIndex]
  clean _ := rfl
  consistent := nofun
  right key member := writing.right key member

theorem Writing.populated (writing : plan.Writing [] world table index) :
    plan.Populated (world.commit plan.schema) := by
  have committed := writing.commit
  refine ⟨_, committed.isTable, by simp [committed.isIndex], fun key member => ?_⟩
  have right := (committed.right key member).resolve_left (by simp)
  rwa [Table.indexAt, committed.isIndex]

theorem Invariant.step {state : State K V T} (invariant : plan.Invariant state) :
    plan.Invariant (plan.step accepts state) := by
  obtain ⟨phase, world⟩ := state
  have kept {database : Option String} {change : Table K V T → Option (Table K V T)}
      {altered : World K V T}
      (isAltered : (world.commit plan.schema).alter database change = some altered) :
      altered.uncommitted = [] := by
    obtain ⟨_, _, _, -, -, -, -, rfl⟩ := alter_eq_some_iff.mp isAltered
    rfl
  cases phase with
  | lock =>
    refine invariant_advance trivial fun changed isChanged => ?_
    simp only [lockTable, Option.bind_eq_bind, Option.bind_eq_some_iff] at isChanged
    obtain ⟨_, -, -, -, isChanged⟩ := isChanged
    cases isChanged
    exact invariant
  | addColumn => exact invariant_advance trivial fun _ isAltered => kept isAltered
  | start =>
    dsimp only [CreateColumnarIndexPlan.step]
    split_ifs
    · exact invariant_advance trivial fun _ isChanged => by cases isChanged; exact invariant
    · exact invariant
  | select =>
    dsimp only [CreateColumnarIndexPlan.step]
    split
    · exact ⟨invariant, ‹_›⟩
    · trivial
  | prepare rows =>
    refine invariant_advance trivial fun changed isChanged => ?_
    obtain ⟨clean, scanned⟩ := invariant
    obtain ⟨-, table, isTable, noNull, rfl⟩ := plan.scan_eq_some_iff.mp scanned
    obtain ⟨-, ⟨other, isOther, hasColumn⟩, rfl⟩ := plan.prepare_eq_some_iff.mp isChanged
    cases isTable.symm.trans isOther
    obtain ⟨index, isIndex⟩ := Option.isSome_iff_exists.mp hasColumn
    refine ⟨table, index, isTable, isIndex, fun _ => clean,
      fun row isRow => (plan.mem_rows_iff.mp isRow).2, fun key member => .inl ?_⟩
    obtain ⟨tag, isTag⟩ := Option.isSome_iff_exists.mp (noNull key member)
    exact mem_map.mpr ⟨(key, tag), plan.mem_rows_iff.mpr ⟨member, isTag⟩, rfl⟩
  | update rows =>
    obtain ⟨table, index, writing⟩ := invariant
    cases rows with
    | nil => exact ⟨table, index, writing⟩
    | cons row rest =>
      exact invariant_advance trivial fun _ isChanged => by cases isChanged; exact writing.write
  | commit =>
    obtain ⟨table, index, writing⟩ := invariant
    dsimp only [CreateColumnarIndexPlan.step]
    split_ifs
    · exact invariant_advance trivial fun _ isChanged => by
        cases isChanged
        exact ⟨_, _, writing.commit⟩
    · exact ⟨table, index, writing⟩
  | modify =>
    obtain ⟨table, index, writing⟩ := invariant
    exact invariant_advance trivial fun _ isAltered =>
      ⟨kept isAltered, plan.populated_alter isAltered writing.populated⟩
  | unlock | register =>
    exact invariant_advance trivial fun _ isChanged => by cases isChanged; exact invariant
  | rollback =>
    dsimp only [CreateColumnarIndexPlan.step]
    split_ifs
    · exact invariant_advance trivial fun _ _ => trivial
    · trivial
  | done registered => exact invariant

theorem populated_put (value : V) (isTable : world.tables plan.schema = some table)
    (populated : plan.Populated world) :
    plan.Populated { world with
      tables := update world.tables plan.schema
        (some (table.put key value (plan.indexValue value))) } := by
  obtain ⟨other, isOther, hasColumn, right⟩ := populated
  cases isTable.symm.trans isOther
  obtain ⟨index, isIndex⟩ := Option.isSome_iff_exists.mp hasColumn
  refine ⟨_, update_self .., by simp [Table.put, isIndex], fun other member => ?_⟩
  simp only [Table.indexAt, Table.put, isIndex, Option.map_some, Option.bind_some]
  by_cases same : other = key
  · rw [same, update_self, update_self]
  · have isOld : other ∈ table.keys := by
      dsimp only [Table.put] at member
      split_ifs at member
      · exact member
      · exact (mem_cons.mp member).resolve_left same
    have old := right other isOld
    rw [Table.indexAt, isIndex] at old
    rw [update_of_ne same, update_of_ne same]
    exact old

theorem Invariant.apply {state next : State K V T} {event : Event K V}
    (invariant : plan.Invariant state) (timely : Timely state event)
    (applied : plan.apply accepts state event = some next) : plan.Invariant next := by
  cases event with
  | step =>
    cases applied
    exact invariant.step accepts
  | write statement =>
    simp only [CreateColumnarIndexPlan.apply, Option.bind_eq_bind, Option.bind_eq_some_iff,
      Option.guard_eq_some', Option.pure_def, Option.some.injEq] at applied
    obtain ⟨-, -, -, -, -, knows, changed, ⟨table, isTable, isChanged⟩, rfl⟩ := applied
    obtain ⟨phase, world⟩ := state
    rcases timely with indexed | early
    · rw [indexed] at knows
      cases phase with
      | done registered =>
        cases registered with
        | false => cases knows
        | true =>
          simp only [Table.execute, indexed, ↓reduceIte, Option.bind_eq_bind,
            Option.bind_eq_some_iff, Option.pure_def, Option.some.injEq] at isChanged
          obtain ⟨-, -, -, -, rfl⟩ := isChanged
          exact ⟨invariant.1, populated_put _ isTable invariant.2⟩
      | _ => cases knows
    · cases phase with
      | lock | addColumn | start | select => exact invariant
      | _ => simp [Phase.number] at early

end CreateColumnarIndexPlan

/-- An index on the table of the default database, in a session in autocommit mode. -/
def examplePlan : CreateColumnarIndexPlan Nat Nat where
  schema := "app"
  database := some "app"
  indexName := "by_value"
  indexValue := some
  control := {}
  noSink := nofun

/-- One row with the plaintext 3, without the index column. -/
def exampleWorld : World Nat Nat Nat where
  tables schema := if schema = "app" then some ⟨[1], fun _ => 3, none, false⟩ else none
  metadata := []

/-- Another connection inserts a row before the lock and updates one before the sink reads the
table, and it updates a row with its index value after the registration. -/
def exampleEvents : List (Event Nat Nat) :=
  .write ⟨true, false, 2, 5⟩ :: (replicate 3 .step ++
    .write ⟨false, false, 1, 7⟩ :: (replicate 9 .step ++ [.write ⟨false, true, 2, 9⟩]))

theorem failed_alter_keeps_lock :
    ¬examplePlan.Atomic exampleWorld
      (examplePlan.finish (fun statement => decide (statement ≠ .addColumn))
        ⟨.lock, exampleWorld⟩) := by
  rintro ⟨unlocked, -⟩
  rw [CreateColumnarIndexPlan.finish_step, CreateColumnarIndexPlan.finish_step] at unlocked
  rw [show examplePlan.step _ (examplePlan.step _ _) =
    ⟨.done false, { exampleWorld with lock := some "app" }⟩ from rfl,
    CreateColumnarIndexPlan.finish_done] at unlocked
  cases unlocked

end SecureFusion.ColumnarIndex
