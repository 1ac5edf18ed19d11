import SecureFusion.Sinks.Binding

/-!
# Writes on a stored table

A sink prepares its statement once, even if it has no row, and then executes it for each
row of its input. The server parses the text, so that a text it cannot parse fails before
any row is written. A ciphertext is opaque: it stands for a value of one column under some
additional data.
-/

namespace SecureFusion.Sinks

open Library Sql Crypto Server Indices List

/-! ## Stored rows -/

/-- What a row holds in a column. -/
inductive Cell where
  | plain (value : ScalarValue)
  /-- A ciphertext, which opens for its column with its additional data only. -/
  | ciphertext (column : String) (aad : Bytes) (value : ScalarValue)
deriving DecidableEq

abbrev StoredRow := Bytes → Cell

/-- What the server knows of a table and of the parameters that it gets. -/
structure TableServer where
  reserved : Bytes → Bool
  /-- Comparison of a stored value with a parameter. -/
  equals : Cell → Cell → Bool
  /-- Two rows that may not be in the table together. -/
  conflicts : StoredRow → StoredRow → Bool
  /-- The default values. -/
  blank : StoredRow
  /-- What arrives of a parameter. -/
  bind : Cell → Evaluated Cell
  /-- Ciphertexts, and values that are sent as what they stand for, arrive. -/
  bind_plain : ∀ value, bindable value = true → bind (.plain value) = .ok (.plain value)
  bind_ciphertext : ∀ column aad value,
    bind (.ciphertext column aad value) = .ok (.ciphertext column aad value)

def assignCells (columns : List Bytes) (cells : List Cell) (row : StoredRow) : StoredRow :=
  (columns.zip cells).foldl (fun row entry => Function.update row entry.1 entry.2) row

theorem assignCells_of_notMem {α : Type} {name : α → Bytes} {cell : α → Cell} :
    ∀ {items : List α} {row : StoredRow} {bytes : Bytes}, bytes ∉ items.map name →
      assignCells (items.map name) (items.map cell) row bytes = row bytes
  | [], _, _, _ => rfl
  | item :: rest, row, bytes, absent => by
    rw [map_cons, mem_cons, not_or] at absent
    have later := @assignCells_of_notMem α name cell rest
      (Function.update row (name item) (cell item)) bytes absent.2
    rw [Function.update_of_ne absent.1] at later
    exact later

theorem assignCells_of_mem {α : Type} {name : α → Bytes} {cell : α → Cell} :
    ∀ {items : List α} {row : StoredRow} {item : α}, (items.map name).Nodup → item ∈ items →
      assignCells (items.map name) (items.map cell) row (name item) = cell item
  | first :: rest, row, item, distinct, isIn => by
    rw [map_cons, nodup_cons] at distinct
    rcases mem_cons.mp isIn with rfl | isLater
    · have kept := @assignCells_of_notMem α name cell rest
        (Function.update row (name item) (cell item)) (name item) distinct.1
      rw [Function.update_self] at kept
      exact kept
    · exact @assignCells_of_mem α name cell rest
        (Function.update row (name first) (cell first)) item distinct.2 isLater

namespace TableServer

variable (server : TableServer)

/-- A row that satisfies the conditions. -/
def selects (columns : List Bytes) (cells : List Cell) (row : StoredRow) : Bool :=
  (columns.zip cells).all fun entry => server.equals (row entry.1) entry.2

def unique (rows : List StoredRow) : Bool :=
  decide (rows.Pairwise fun first second => server.conflicts first second = false)

def guardUnique (rows : List StoredRow) : Evaluated (List StoredRow) :=
  if server.unique rows then .ok rows else .error (.execution "Duplicate entry")

/-- The rows after a statement with its parameters. -/
def run (statement : WriteStatement) (cells : List Cell) (rows : List StoredRow) :
    Evaluated (List StoredRow) :=
  match statement with
  | .delete _ _ conditions => .ok (rows.filter fun row => !server.selects conditions cells row)
  | .update _ _ assigned conditions =>
    server.guardUnique (rows.map fun row =>
      if server.selects conditions (cells.drop assigned.length) row then
        assignCells assigned (cells.take assigned.length) row
      else row)
  | .insert _ _ columns onDuplicate =>
    let new := assignCells columns (cells.take columns.length) server.blank
    match rows.findIdx? (server.conflicts new) with
    | none => .ok (rows ++ [new])
    | some position =>
      if onDuplicate = [] then .error (.execution "Duplicate entry")
      else server.guardUnique
        (rows.modify position (assignCells onDuplicate (cells.drop columns.length)))

end TableServer

/-! ## Sinks -/

def TableServer.parameters (server : TableServer) (positions : List Nat) (input : List Cell) :
    Evaluated (List Cell) :=
  positions.mapM fun position =>
    match input[position]? with
    | some cell => server.bind cell
    | none => .error (.panic "index out of bounds")

/-- A sink writes the rows of its input. If a row fails, so does the whole write, and the
transaction is rolled back. -/
def TableServer.write (server : TableServer) (kind : WriteKind)
    (targetTable : ResolvedTableReference) (names : List String) (input : List (List Cell))
    (rows : List StoredRow) : Evaluated (List StoredRow) :=
  match parseWrite server.reserved (kind.text targetTable names) with
  | none => .error (.execution "You have an error in your SQL syntax")
  | some statement => input.foldlM (fun rows cells => do
      let parameters ← server.parameters (kind.projection targetTable names) cells
      server.run statement parameters rows) rows

/-! ## What a sink with expressible names does -/

section Write

variable {server : TableServer} {kind : WriteKind} {targetTable : ResolvedTableReference}
  {planned : List PlannedColumn}

def Cell.Bindable : Cell → Prop
  | .plain value => bindable value = true
  | .ciphertext .. => True

theorem TableServer.bind_of_bindable (server : TableServer) {cell : Cell} (arrives : cell.Bindable) :
    server.bind cell = .ok cell := by
  cases cell with
  | plain value => exact server.bind_plain value arrives
  | ciphertext column aad value => exact server.bind_ciphertext column aad value

theorem parameters_eq {cellOf : PlannedColumn → Cell}
    (arrive : ∀ placeholder ∈ kind.placeholders planned, (cellOf placeholder.1).Bindable) :
    server.parameters ((kind.placeholders planned).map Prod.snd) (planned.map cellOf) =
      .ok ((kind.placeholders planned).map fun placeholder => cellOf placeholder.1) := by
  rw [TableServer.parameters, Outcome.mapM_eq_ok_iff, forall₂_map_left_iff,
    forall₂_map_right_iff, forall₂_same]
  intro placeholder member
  rw [getElem?_map, getElem?_placeholder member]
  exact server.bind_of_bindable (arrive placeholder member)

theorem write_eq {α : Type} (expressible : Expressible server.reserved kind targetTable planned)
    {cellOf : α → PlannedColumn → Cell} {items : List α}
    (arrive : ∀ item ∈ items, ∀ placeholder ∈ kind.placeholders planned,
      (cellOf item placeholder.1).Bindable) (rows : List StoredRow) :
    server.write kind targetTable (planned.map PlannedColumn.fieldName)
        (items.map fun item => planned.map (cellOf item)) rows =
      items.foldlM (fun rows item => server.run (kind.statement targetTable planned)
        ((kind.placeholders planned).map fun placeholder => cellOf item placeholder.1) rows)
        rows := by
  rw [TableServer.write, parseWrite_text expressible, projection_eq expressible]
  dsimp only
  induction items generalizing rows with
  | nil => rfl
  | cons item rest ih =>
    rw [map_cons, foldlM_cons, foldlM_cons,
      parameters_eq (arrive item mem_cons_self), Outcome.ok_bind]
    congr 1
    funext rows
    exact ih (forall_mem_cons.mp arrive).2 rows

end Write

/-! ## Updates by key -/

section Keyed

variable {server : TableServer} {conditions : List Bytes}

/-- Updates the rows with some values in the columns of the key. -/
def TableServer.updateKey (server : TableServer) (conditions : List Bytes)
    (cells : List Cell) (assign : StoredRow → StoredRow) (rows : List StoredRow) :
    Evaluated (List StoredRow) :=
  server.guardUnique (rows.map fun row =>
    if server.selects conditions cells row then assign row else row)

theorem run_update {β : Type} (schema table : Bytes) (items : List β)
    (name : β → Bytes) (cell : β → Cell) (keyCells : List Cell) (rows : List StoredRow) :
    server.run (.update schema table (items.map name) conditions) (items.map cell ++ keyCells) rows =
      server.updateKey conditions keyCells (assignCells (items.map name) (items.map cell)) rows := by
  have length : (items.map name).length = (items.map cell).length := by
    rw [length_map, length_map]
  rw [TableServer.run, TableServer.updateKey, length, take_left, drop_left]

end Keyed

end SecureFusion.Sinks
