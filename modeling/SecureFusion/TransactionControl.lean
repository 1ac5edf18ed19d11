import Mathlib.Data.UInt

/-!
# Transaction control

A session opens a transaction of its own around each sink. These weak transactions may be
nested, and they give way to a transaction that the client has opened. The control counts the
nesting in 32 bits, and what it remembers must agree with the connection at the server.
-/

namespace SecureFusion.Transactions

open List

/-! ## The control and its connection -/

/-- Who has opened the current transaction: the client, or a number of nested sinks. -/
inductive TransactionStatus where
  | forced
  | weak (depth : UInt32)
deriving DecidableEq, Repr

/-- What a session remembers of its transactions. -/
structure TransactionControl where
  autocommit : Bool := true
  currentTransaction : Option TransactionStatus := none
deriving DecidableEq, Repr

/-- The statements that the control sends to the server. -/
inductive Statement where
  | commit
  | rollback
  | startTransaction
  | setAutocommit (autocommit : Bool)
deriving DecidableEq, Repr

/-- The state of the connection at the server. -/
structure Connection where
  autocommit : Bool := true
  transaction : Bool := false
deriving DecidableEq, Repr

/-- The connection after a statement. -/
def Connection.execute (connection : Connection) : Statement → Connection
  | .commit => { connection with transaction := false }
  | .rollback => { connection with transaction := false }
  | .startTransaction => { connection with transaction := true }
  | .setAutocommit true => ⟨true, false⟩
  | .setAutocommit false => { connection with autocommit := false }

/-- The server executes a statement on data: without autocommit it opens a transaction. -/
def Connection.query (connection : Connection) : Connection :=
  { connection with transaction := connection.transaction || !connection.autocommit }

namespace TransactionControl

/-- COMMIT of the client, with the statements that are sent. -/
def commit (control : TransactionControl) : TransactionControl × List Statement :=
  ({ control with currentTransaction := none }, [.commit])

def rollback (control : TransactionControl) : TransactionControl × List Statement :=
  ({ control with currentTransaction := none }, [.rollback])

/-- START TRANSACTION of the client, which commits first. -/
def startTransaction (control : TransactionControl) : TransactionControl × List Statement :=
  let (committed, sent) := control.commit
  ({ committed with currentTransaction := some .forced }, sent ++ [.startTransaction])

def setAutocommit (autocommit : Bool) (control : TransactionControl) :
    TransactionControl × List Statement :=
  let sent := if autocommit then control.commit.2 else []
  (⟨autocommit, none⟩, sent ++ [.setAutocommit autocommit])

/-- Leaves a weak transaction; the outermost one is committed. -/
def weakCommit (control : TransactionControl) : TransactionControl × List Statement :=
  match control.autocommit, control.currentTransaction with
  | true, some (.weak depth) =>
    if 0 < depth then
      if depth - 1 = 0 then
        ({ control with currentTransaction := none }, [.commit])
      else ({ control with currentTransaction := some (.weak (depth - 1)) }, [])
    else (control, [])
  | _, _ => (control, [])

/-- A sink fails: the transaction of all sinks is rolled back. -/
def weakRollback (control : TransactionControl) : TransactionControl × List Statement :=
  match control.autocommit, control.currentTransaction with
  | true, some (.weak _) => ({ control with currentTransaction := none }, [.rollback])
  | _, _ => (control, [])

/-- A sink starts: the outermost one opens a transaction. The sum is one of 32 bits. -/
def weakStartTransaction (control : TransactionControl) : TransactionControl × List Statement :=
  match control.autocommit, control.currentTransaction with
  | true, some (.weak depth) =>
    ({ control with currentTransaction := some (.weak (depth + 1)) }, [])
  | true, none => ({ control with currentTransaction := some (.weak 1) }, [.startTransaction])
  | _, _ => (control, [])

end TransactionControl

open TransactionControl

/-- The calls of a session: those of the control, and statements on data. -/
inductive Call where
  | setAutocommit (autocommit : Bool)
  | startTransaction
  | commit
  | rollback
  | weakStart
  | weakCommit
  | weakRollback
  | query
deriving DecidableEq, Repr

/-- The control after a call, and the statements that the call sends. -/
def TransactionControl.step (control : TransactionControl) :
    Call → TransactionControl × List Statement
  | .setAutocommit autocommit => control.setAutocommit autocommit
  | .startTransaction => control.startTransaction
  | .commit => control.commit
  | .rollback => control.rollback
  | .weakStart => control.weakStartTransaction
  | .weakCommit => control.weakCommit
  | .weakRollback => control.weakRollback
  | .query => (control, [])

def TransactionControl.run (control : TransactionControl) (calls : List Call) :
    TransactionControl :=
  calls.foldl (fun current call => (current.step call).1) control

/-- The statements that each call sends. -/
def TransactionControl.trace (control : TransactionControl) : List Call → List (List Statement)
  | [] => []
  | call :: rest => (control.step call).2 :: (control.step call).1.trace rest

/-! ## Agreement with the server -/

/-- A control and the connection that it sends its statements on. -/
structure Session where
  control : TransactionControl := {}
  connection : Connection := {}
deriving DecidableEq, Repr

/-- A call, whose statements the server executes. -/
def Session.step (session : Session) : Call → Session
  | .query => { session with connection := session.connection.query }
  | call =>
    let (control, sent) := session.control.step call
    ⟨control, sent.foldl Connection.execute session.connection⟩

def Session.run (session : Session) (calls : List Call) : Session :=
  calls.foldl Session.step session

/-- The control agrees with the server. -/
structure Session.Agrees (session : Session) : Prop where
  mode : session.connection.autocommit = session.control.autocommit
  current : session.control.autocommit = true →
    (session.control.currentTransaction.isSome = true ↔ session.connection.transaction = true)

variable {session : Session} {inner : List Call}

theorem Session.Agrees.step (agrees : session.Agrees) (call : Call) :
    (session.step call).Agrees := by
  obtain ⟨⟨autocommit, current⟩, connection⟩ := session
  obtain ⟨mode, isCurrent⟩ := agrees
  dsimp only at mode isCurrent
  cases call with
  | setAutocommit on =>
    cases on with
    | true => exact ⟨rfl, fun _ => by simp [Session.step, TransactionControl.step,
        TransactionControl.setAutocommit, TransactionControl.commit, Connection.execute]⟩
    | false => exact ⟨rfl, nofun⟩
  | startTransaction => exact ⟨mode, fun _ => by simp [Session.step, TransactionControl.step,
      TransactionControl.startTransaction, TransactionControl.commit, Connection.execute]⟩
  | commit => exact ⟨mode, fun _ => by simp [Session.step, TransactionControl.step,
      TransactionControl.commit, Connection.execute]⟩
  | rollback => exact ⟨mode, fun _ => by simp [Session.step, TransactionControl.step,
      TransactionControl.rollback, Connection.execute]⟩
  | query => exact ⟨mode, fun on => by
      have on : autocommit = true := on
      simpa [Session.step, Connection.query, mode, on] using isCurrent on⟩
  | weakStart =>
    cases autocommit with
    | false => exact ⟨mode, nofun⟩
    | true =>
      rcases current with - | - | depth
      · exact ⟨mode, fun _ => by simp [Session.step, TransactionControl.step,
          TransactionControl.weakStartTransaction, Connection.execute]⟩
      · exact ⟨mode, isCurrent⟩
      · exact ⟨mode, isCurrent⟩
  | weakCommit =>
    dsimp only [Session.step, TransactionControl.step, TransactionControl.weakCommit]
    split
    · split_ifs
      · exact ⟨mode, fun _ => by simp [Connection.execute]⟩
      · exact ⟨mode, fun on => by simpa using isCurrent on⟩
      · exact ⟨mode, isCurrent⟩
    · exact ⟨mode, isCurrent⟩
  | weakRollback =>
    dsimp only [Session.step, TransactionControl.step, TransactionControl.weakRollback]
    split
    · exact ⟨mode, fun _ => by simp [Connection.execute]⟩
    · exact ⟨mode, isCurrent⟩

theorem Session.Agrees.new : Session.Agrees {} :=
  ⟨rfl, fun _ => by simp⟩

theorem Session.Agrees.run (agrees : session.Agrees) (calls : List Call) :
    (session.run calls).Agrees := by
  induction calls generalizing session with
  | nil => exact agrees
  | cons call rest ih => exact ih (agrees.step call)

/-- The work of a sink that succeeds: statements on data and the sinks of its input. -/
inductive Work where
  | done
  | query (rest : Work)
  | bracket (inner rest : Work)

/-- The work of a sink that fails: some work, then an error of the sink itself or of a sink of its
input, which ends the work at once. -/
inductive FailingWork where
  | error
  | query (rest : FailingWork)
  | bracket (inner : Work) (rest : FailingWork)
  | inside (inner : FailingWork)

/-- The calls of a sink that succeeds, around the calls of its work. -/
def succeeding (inner : List Call) : List Call :=
  .weakStart :: (inner ++ [.weakCommit])

def failing (inner : List Call) : List Call :=
  .weakStart :: (inner ++ [.weakRollback])

def Work.calls : Work → List Call
  | .done => []
  | .query rest => .query :: rest.calls
  | .bracket inner rest => succeeding inner.calls ++ rest.calls

def Work.depth : Work → Nat
  | .done => 0
  | .query rest => rest.depth
  | .bracket inner rest => max (inner.depth + 1) rest.depth

def FailingWork.calls : FailingWork → List Call
  | .error => []
  | .query rest => .query :: rest.calls
  | .bracket inner rest => succeeding inner.calls ++ rest.calls
  | .inside inner => failing inner.calls

/-- How deep the sinks in the work of a failing sink are nested. -/
def FailingWork.depth : FailingWork → Nat
  | .error => 0
  | .query rest => rest.depth
  | .bracket inner rest => max (inner.depth + 1) rest.depth
  | .inside inner => inner.depth + 1

def FailingWork.before : FailingWork → Nat
  | .error => 0
  | .query rest => rest.before + 1
  | .bracket inner rest => (succeeding inner.calls).length + rest.before
  | .inside inner => inner.before + 1

def FailingWork.levels : FailingWork → Nat
  | .error => 0
  | .query rest => rest.levels
  | .bracket _ rest => rest.levels
  | .inside inner => inner.levels + 1

section Trace

variable {control : TransactionControl} (calls more : List Call)

theorem trace_append :
    control.trace (calls ++ more) = control.trace calls ++ (control.run calls).trace more := by
  induction calls generalizing control with
  | nil => rfl
  | cons call rest ih =>
    rw [cons_append, trace, ih, trace, cons_append]
    rfl

theorem run_append : control.run (calls ++ more) = (control.run calls).run more :=
  foldl_append

end Trace

def Silent (control : TransactionControl) (calls : List Call) : Prop :=
  ∀ sent ∈ control.trace calls, sent = []

section Silence

variable {control : TransactionControl} {calls : List Call}

theorem trace_length : (control.trace calls).length = calls.length := by
  induction calls generalizing control with
  | nil => rfl
  | cons call rest ih => rw [trace, length_cons, ih, length_cons]

theorem silent_iff :
    Silent control calls ↔ control.trace calls = List.replicate calls.length [] := by
  rw [eq_replicate_iff, trace_length]
  exact (and_iff_right rfl).symm

theorem silent_append {more : List Call} :
    Silent control (calls ++ more) ↔ Silent control calls ∧ Silent (control.run calls) more := by
  rw [Silent, trace_append, forall_mem_append]
  rfl

theorem silent_cons {call : Call} :
    Silent control (call :: calls) ↔
      (control.step call).2 = [] ∧ Silent (control.step call).1 calls := by
  rw [Silent, trace, forall_mem_cons]
  rfl

end Silence

def nested (depth : UInt32) : TransactionControl :=
  ⟨true, some (.weak depth)⟩

section Nesting

variable {depth : UInt32} {work : Work}

theorem step_weakStart : (nested depth).step .weakStart = (nested (depth + 1), []) :=
  rfl

theorem step_weakCommit (inner : depth ≠ 0) (fits : depth + 1 ≠ 0) :
    (nested (depth + 1)).step .weakCommit = (nested depth, []) := by
  have positive : 0 < depth + 1 := UInt32.pos_iff_ne_zero.mpr fits
  dsimp only [step, weakCommit, nested]
  rw [if_pos positive, UInt32.add_sub_cancel, if_neg inner]

theorem toNat_succ (fits : depth.toNat + 1 < 2 ^ 32) : (depth + 1).toNat = depth.toNat + 1 := by
  rw [UInt32.toNat_add]
  exact Nat.mod_eq_of_lt fits

theorem succ_ne_zero (fits : depth.toNat + 1 < 2 ^ 32) : depth + 1 ≠ 0 := by
  intro zero
  have same := congrArg UInt32.toNat zero
  rw [toNat_succ fits] at same
  cases same

theorem silent_bracket {inner rest : List Call} :
    Silent (nested depth) (succeeding inner ++ rest) ↔
      Silent (nested (depth + 1)) inner ∧
        (((nested (depth + 1)).run inner).step .weakCommit).2 = [] ∧
        Silent (((nested (depth + 1)).run inner).step .weakCommit).1 rest := by
  rw [succeeding, cons_append, append_assoc, silent_cons, step_weakStart,
    silent_append, singleton_append, silent_cons]
  exact and_iff_right rfl

theorem run_bracket (inner rest : List Call) :
    (nested depth).run (succeeding inner ++ rest) =
      (((nested (depth + 1)).run inner).step .weakCommit).1.run rest := by
  rw [succeeding, run_append]
  change ((nested (depth + 1)).run (inner ++ [.weakCommit])).run rest = _
  rw [run_append]
  rfl

theorem run_work (counted : depth ≠ 0) (fits : depth.toNat + work.depth < 2 ^ 32) :
    Silent (nested depth) work.calls ∧ (nested depth).run work.calls = nested depth := by
  induction work generalizing depth with
  | done => exact ⟨nofun, rfl⟩
  | query rest ih =>
    obtain ⟨silent, same⟩ := ih counted fits
    exact ⟨silent_cons.mpr ⟨rfl, silent⟩, same⟩
  | bracket inner rest ihInner ihRest =>
    rw [Work.depth] at fits
    have below : depth.toNat + 1 < 2 ^ 32 := by omega
    have next := toNat_succ below
    have notZero := succ_ne_zero below
    obtain ⟨innerSilent, innerSame⟩ := ihInner notZero (by omega)
    obtain ⟨restSilent, restSame⟩ := ihRest counted (by omega)
    rw [Work.calls, silent_bracket, run_bracket, innerSame, step_weakCommit counted notZero]
    exact ⟨⟨innerSilent, rfl, restSilent⟩, restSame⟩

theorem trace_failingWork {work : FailingWork} (counted : depth ≠ 0)
    (fits : depth.toNat + work.depth < 2 ^ 32) :
    (nested depth).trace (work.calls ++ [.weakRollback]) =
        List.replicate work.before [] ++ [.rollback] :: List.replicate work.levels [] ∧
      (nested depth).run (work.calls ++ [.weakRollback]) = ⟨true, none⟩ := by
  induction work generalizing depth with
  | error => exact ⟨rfl, rfl⟩
  | query rest ih =>
    obtain ⟨sent, ends⟩ := ih counted fits
    refine ⟨?_, ends⟩
    rw [FailingWork.calls, cons_append, trace, FailingWork.before,
      replicate_succ, cons_append]
    exact congrArg _ sent
  | bracket inner rest ih =>
    rw [FailingWork.depth] at fits
    have bracket := @run_work depth (.bracket inner .done) counted
      (by rw [Work.depth, Work.depth]; omega)
    rw [Work.calls, Work.calls, append_nil, silent_iff] at bracket
    obtain ⟨sent, ends⟩ := ih counted (by omega)
    rw [FailingWork.calls, append_assoc, trace_append, run_append, bracket.1, bracket.2, sent,
      FailingWork.before, replicate_add, append_assoc]
    exact ⟨rfl, ends⟩
  | inside inner ih =>
    rw [FailingWork.depth] at fits
    have below : depth.toNat + 1 < 2 ^ 32 := by omega
    have next := toNat_succ below
    obtain ⟨sent, ends⟩ := ih (succ_ne_zero below) (by omega)
    rw [FailingWork.calls, failing, cons_append, trace, step_weakStart,
      trace_append, sent, ends, FailingWork.before, FailingWork.levels, replicate_succ,
      replicate_succ']
    refine ⟨by simp [trace, step,
      weakRollback], ?_⟩
    change (nested (depth + 1)).run (inner.calls ++ [.weakRollback] ++ [.weakRollback]) = _
    rw [run_append, ends]
    rfl

end Nesting

/-! ## Transactions of the client -/

def Call.OfSink (call : Call) : Prop :=
  call = .weakStart ∨ call = .weakCommit ∨ call = .weakRollback ∨ call = .query

theorem ofSink_succeeding (ofInner : ∀ call ∈ inner, call.OfSink) :
    ∀ call ∈ succeeding inner, call.OfSink := by
  simp only [succeeding, mem_cons, mem_append, not_mem_nil, or_false]
  rintro call (rfl | isInner | rfl)
  · exact .inl rfl
  · exact ofInner call isInner
  · exact .inr (.inl rfl)

theorem ofSink_failing (ofInner : ∀ call ∈ inner, call.OfSink) :
    ∀ call ∈ failing inner, call.OfSink := by
  simp only [failing, mem_cons, mem_append, not_mem_nil, or_false]
  rintro call (rfl | isInner | rfl)
  · exact .inl rfl
  · exact ofInner call isInner
  · exact .inr (.inr (.inl rfl))

theorem Work.ofSink (work : Work) : ∀ call ∈ work.calls, call.OfSink := by
  induction work with
  | done => exact nofun
  | query rest ih => exact forall_mem_cons.mpr ⟨.inr (.inr (.inr rfl)), ih⟩
  | bracket inner rest ihInner ihRest =>
    exact forall_mem_append.mpr ⟨ofSink_succeeding ihInner, ihRest⟩

theorem FailingWork.ofSink (work : FailingWork) : ∀ call ∈ work.calls, call.OfSink := by
  induction work with
  | error => exact nofun
  | query rest ih => exact forall_mem_cons.mpr ⟨.inr (.inr (.inr rfl)), ih⟩
  | bracket inner rest ih =>
    exact forall_mem_append.mpr ⟨ofSink_succeeding inner.ofSink, ih⟩
  | inside inner ih => exact ofSink_failing ih

theorem silent_of_forced {control : TransactionControl}
    (forced : control.currentTransaction = some .forced) {calls : List Call}
    (ofSink : ∀ call ∈ calls, call.OfSink) : Silent control calls := by
  obtain ⟨autocommit, current⟩ := control
  cases forced
  induction calls with
  | nil => exact nofun
  | cons call rest ih =>
    rw [forall_mem_cons] at ofSink
    have same : (⟨autocommit, some .forced⟩ : TransactionControl).step call =
        (⟨autocommit, some .forced⟩, []) := by
      rcases ofSink.1 with rfl | rfl | rfl | rfl <;> cases autocommit <;> rfl
    rw [silent_cons, same]
    exact ⟨rfl, ih ofSink.2⟩

/-! ## Main results -/

/-- A family of sinks that succeed opens one transaction and commits it once. -/
theorem trace_succeeding {inner : Work} (fits : inner.depth + 1 < 2 ^ 32) :
    (⟨true, none⟩ : TransactionControl).trace (succeeding inner.calls) =
      [.startTransaction] :: (List.replicate inner.calls.length [] ++ [[.commit]]) := by
  have first : (1 : UInt32).toNat = 1 := rfl
  obtain ⟨silent, same⟩ := @run_work 1 inner (by decide) (by omega)
  change [.startTransaction] :: (nested 1).trace (inner.calls ++ [.weakCommit]) = _
  rw [trace_append, silent_iff.mp silent, same]
  rfl

end SecureFusion.Transactions
