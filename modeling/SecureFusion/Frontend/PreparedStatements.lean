import Mathlib.Data.UInt
import SecureFusion.Frontend.CharUtils
import SecureFusion.Library.Bytes
import SecureFusion.Library.Outcome
import SecureFusion.Sql.Scalar

/-!
# Prepared statements of a connection

A prepared statement lives in two maps: the session keeps its plan under a number of its own, and the
connection keeps this number under the id that the client uses. A query with binary literals is
prepared, too, but only for the session. What the parser, the planner and the execution answer is part
of the commands.
-/

namespace SecureFusion.Frontend

open Library Sql

variable {statementId : UInt32}

/-! ## The session -/

/-- Errors of a command. -/
inductive CommandError where
  | dataFusion (message : String)
  | parser (message : String)
  | extract (error : ExtractError)
  | unknownStatement (statementId : UInt32)
  | unhandledCommand
deriving DecidableEq, Repr

/-- Why the handling of a command stops. -/
inductive CommandStop where
  | panic (message : String)
  | error (error : CommandError)
deriving DecidableEq, Repr

/-- The plan of a prepared statement, of which the types of the parameters are used here. -/
structure PreparedPlan where
  params : List (String × DataType)
deriving DecidableEq, Repr

/-- The session of a connection with its prepared statements. -/
structure DataFusionSession where
  preparedQueries : UInt64 → Option PreparedPlan
  currentPlanId : UInt64

/-- The answer of the session to a new statement. -/
structure StatementResponse where
  statementId : UInt64
  parameters : List (String × DataType)
deriving DecidableEq, Repr

/-- Opens a statement, given the parameters of its plan; the type of a parameter may be unknown. -/
def DataFusionSession.statementOpen (session : DataFusionSession)
    (planned : Except CommandError (List (String × Option DataType))) :
    Except CommandStop (StatementResponse × DataFusionSession) :=
  match planned with
  | .error error => .error (.error error)
  | .ok parameters =>
    match parameters.mapM fun (name, type) => type.map fun type => (name, type) with
    | none => .error (.panic "placeholder with no type encountered")
    | some paramTypes =>
      .ok (⟨session.currentPlanId, paramTypes⟩,
        { preparedQueries :=
            Function.update session.preparedQueries session.currentPlanId (some ⟨paramTypes⟩)
          currentPlanId := session.currentPlanId + 1 })

def DataFusionSession.statementClose (session : DataFusionSession) (statementId : UInt64) :
    DataFusionSession :=
  { session with preparedQueries := Function.update session.preparedQueries statementId none }

/-! ## The connection -/

/-- What the connection keeps of a statement. -/
structure SavedStatement where
  statementId : UInt32
  backendStatementId : UInt64
  shouldReturnOk : Bool
  parameters : List DataType
deriving DecidableEq, Repr

/-- The parameters of a statement by their numbers; a missing number panics. -/
def SavedStatement.newFromStatement (statementId : UInt32) (shouldReturnOk : Bool)
    (backendStatement : StatementResponse) : Option SavedStatement := do
  let parameters ← (List.range backendStatement.parameters.length).mapM fun index =>
    backendStatement.parameters.lookup ("$" ++ toString (index + 1))
  return ⟨statementId, backendStatement.statementId, shouldReturnOk, parameters⟩

/-- The state of a connection. -/
structure ClientWrapper where
  session : DataFusionSession
  statements : UInt32 → Option SavedStatement
  currentStatementId : UInt32

def ClientWrapper.new : ClientWrapper :=
  ⟨⟨fun _ => none, 0⟩, fun _ => none, 1⟩

/-- What is done with a parsed statement: it is planned, or answered by the connection itself. -/
inductive StatementAction where
  | forward (shouldReturnOk : Bool)
      (planned : Except CommandError (List (String × Option DataType)))
  | handleLocal

/-- What a handler answers, and the connection after it: what it has changed stays so when it fails. -/
abbrev Handled (α : Type) := Except CommandStop α × ClientWrapper

/-- Prepares the only statement of a text in the session. -/
def ClientWrapper.doPrepareStatement (wrapper : ClientWrapper)
    (actions : Except CommandError (List StatementAction)) : Handled SavedStatement :=
  match actions with
  | .error error => (.error (.error error), wrapper)
  | .ok [] => (.error (.error (.dataFusion "Empty statement.")), wrapper)
  | .ok [.forward shouldReturnOk planned] =>
    match wrapper.session.statementOpen planned with
    | .error stop => (.error stop, wrapper)
    | .ok (result, session) =>
      let statementId := wrapper.currentStatementId
      let after := { wrapper with session := session, currentStatementId := statementId + 1 }
      match SavedStatement.newFromStatement statementId shouldReturnOk result with
      | none => (.error (.panic "key not found"), after)
      | some saved => (.ok saved, after)
  | .ok [.handleLocal] => (.error (.panic "Prepared local commands"), wrapper)
  | .ok _ =>
    (.error (.error (.dataFusion
      "TODO: Multiple queries in single statement are not implemented yet.")), wrapper)

/-- Prepares a statement for the client, which gets its id. -/
def ClientWrapper.handlePrepare (wrapper : ClientWrapper)
    (actions : Except CommandError (List StatementAction)) : Handled UInt32 :=
  match wrapper.doPrepareStatement actions with
  | (.error stop, after) => (.error stop, after)
  | (.ok mappedStatement, after) =>
    let statementId := mappedStatement.statementId
    (.ok statementId, { after with
      statements := Function.update after.statements statementId (some mappedStatement) })

/-- The commands of a client with what is answered to them: the parsed statements of a text that is
prepared, and the outcome of everything that does not touch prepared statements. -/
inductive Command where
  | quit
  | initDb (outcome : Except CommandStop Unit)
  | query (text : Bytes) (actions : Except CommandError (List StatementAction))
      (outcome : Except CommandStop Unit)
  | fieldList
  | stmtPrepare (actions : Except CommandError (List StatementAction))
  | setOption
  | stmtExecute (statementId : UInt32) (outcome : Except CommandStop Unit)
  | stmtClose (statementId : UInt32)
  | ping
  /-- A command without a handler, such as the reset of a statement. -/
  | unhandled

/-- Handles a command that does not end the connection; the id of a new statement is returned. -/
def ClientWrapper.handlePacket (wrapper : ClientWrapper) : Command → Handled (Option UInt32)
  | .quit | .fieldList | .setOption | .ping => (.ok none, wrapper)
  | .initDb outcome => (outcome.map fun _ => none, wrapper)
  | .query text actions outcome =>
    match extractInvalidBytes text with
    | .error error => (.error (.error (.extract error)), wrapper)
    | .ok (_, some _) =>
      match wrapper.doPrepareStatement actions with
      | (.error stop, after) => (.error stop, after)
      | (.ok _, after) => (outcome.map fun _ => none, after)
    | .ok (_, none) => (outcome.map fun _ => none, wrapper)
  | .stmtPrepare actions =>
    let (result, after) := wrapper.handlePrepare actions
    (result.map some, after)
  | .stmtExecute statementId outcome =>
    match wrapper.statements statementId with
    | none => (.error (.error (.unknownStatement statementId)), wrapper)
    | some _ => (outcome.map fun _ => none, wrapper)
  | .stmtClose statementId =>
    match wrapper.statements statementId with
    | none => (.ok none, wrapper)
    | some statement =>
      (.ok none, { wrapper with
        statements := Function.update wrapper.statements statementId none
        session := wrapper.session.statementClose statement.backendStatementId })
  | .unhandled => (.error (.error .unhandledCommand), wrapper)

/-- The connection after a handler, if it is still there, and the id that the client gets. A panic ends
the thread of the connection, and everything that it owns is dropped. -/
def Handled.settle : Handled (Option UInt32) → Option ClientWrapper × Option UInt32
  | (.ok handed, after) => (some after, handed)
  | (.error (.error _), after) => (some after, none)
  | (.error (.panic _), _) => (none, none)

/-- The connection after a command, and the new id. -/
def ClientWrapper.handle (wrapper : ClientWrapper) (command : Command) :
    Option ClientWrapper × Option UInt32 :=
  match command with
  | .quit => (none, none)
  | command => Handled.settle (wrapper.handlePacket command)

def ClientWrapper.run (wrapper : ClientWrapper) (commands : List Command) : Option ClientWrapper :=
  commands.foldlM (fun current command => (current.handle command).1) wrapper

/-! ## What a command can do -/

/-- The connection after a statement has been opened in its session. -/
def ClientWrapper.opened (wrapper : ClientWrapper) (plan : PreparedPlan) : ClientWrapper where
  session :=
    { preparedQueries := Function.update wrapper.session.preparedQueries
        wrapper.session.currentPlanId (some plan)
      currentPlanId := wrapper.session.currentPlanId + 1 }
  statements := wrapper.statements
  currentStatementId := wrapper.currentStatementId + 1

/-- The connection after a statement has been registered for the client. -/
def ClientWrapper.registered (wrapper : ClientWrapper) (saved : SavedStatement) : ClientWrapper :=
  { wrapper with statements := Function.update wrapper.statements saved.statementId (some saved) }

def ClientWrapper.released (wrapper : ClientWrapper) (saved : SavedStatement)
    (statementId : UInt32) : ClientWrapper :=
  { wrapper with
    statements := Function.update wrapper.statements statementId none
    session := wrapper.session.statementClose saved.backendStatementId }

variable {saved : SavedStatement} {command : Command}

section Commands

variable {wrapper : ClientWrapper}

theorem newFromStatement_eq_some {shouldReturnOk : Bool} {response : StatementResponse}
    (built : SavedStatement.newFromStatement statementId shouldReturnOk response = some saved) :
    saved.statementId = statementId ∧ saved.backendStatementId = response.statementId := by
  simp only [SavedStatement.newFromStatement, bind_some_iff] at built
  obtain ⟨parameters, -, same⟩ := built
  cases same
  exact ⟨rfl, rfl⟩

theorem statementOpen_cases (session : DataFusionSession)
    (planned : Except CommandError (List (String × Option DataType))) :
    (∃ stop, session.statementOpen planned = .error stop) ∨
      ∃ paramTypes, session.statementOpen planned =
        .ok (⟨session.currentPlanId, paramTypes⟩,
          { preparedQueries :=
              Function.update session.preparedQueries session.currentPlanId (some ⟨paramTypes⟩)
            currentPlanId := session.currentPlanId + 1 }) := by
  unfold DataFusionSession.statementOpen
  split
  · exact .inl ⟨_, rfl⟩
  · split
    · exact .inl ⟨_, rfl⟩
    · exact .inr ⟨_, rfl⟩

theorem doPrepareStatement_cases (actions : Except CommandError (List StatementAction)) :
    (∃ stop, wrapper.doPrepareStatement actions = (.error stop, wrapper)) ∨
      (∃ message after,
        wrapper.doPrepareStatement actions = (.error (.panic message), after)) ∨
      ∃ saved plan, wrapper.doPrepareStatement actions = (.ok saved, wrapper.opened plan) ∧
        saved.statementId = wrapper.currentStatementId ∧
        saved.backendStatementId = wrapper.session.currentPlanId := by
  unfold ClientWrapper.doPrepareStatement
  split
  · exact .inl ⟨_, rfl⟩
  · exact .inl ⟨_, rfl⟩
  · rename_i shouldReturnOk planned
    rcases statementOpen_cases wrapper.session planned with ⟨stop, failed⟩ | ⟨paramTypes, opened⟩
    · rw [failed]
      exact .inl ⟨stop, rfl⟩
    · rw [opened]
      dsimp only
      split
      · exact .inr (.inl ⟨_, _, rfl⟩)
      · rename_i saved built
        exact .inr (.inr ⟨saved, ⟨paramTypes⟩, rfl, newFromStatement_eq_some built⟩)
  · exact .inl ⟨_, rfl⟩
  · exact .inl ⟨_, rfl⟩

def Command.IsText : Command → Prop
  | .query text _ _ => isUtf8 text = true
  | _ => True

/-- What a command does to a connection, if its text is UTF-8. -/
inductive Effect (wrapper : ClientWrapper) :
    Command → Option ClientWrapper → Option UInt32 → Prop where
  | ends (command : Command) : Effect wrapper command none none
  | keeps (command : Command) : Effect wrapper command (some wrapper) none
  | releases (statementId : UInt32) (saved : SavedStatement)
      (isOpen : wrapper.statements statementId = some saved) :
      Effect wrapper (.stmtClose statementId) (some (wrapper.released saved statementId)) none
  | registers (actions : Except CommandError (List StatementAction)) (saved : SavedStatement)
      (plan : PreparedPlan) (isNext : saved.statementId = wrapper.currentStatementId)
      (isPlan : saved.backendStatementId = wrapper.session.currentPlanId) :
      Effect wrapper (.stmtPrepare actions) (some ((wrapper.opened plan).registered saved))
        (some saved.statementId)

theorem effect_settle (command : Command) (result : Except CommandStop (Option UInt32))
    (nothing : ∀ handed, result = .ok handed → handed = none) :
    Effect wrapper command (Handled.settle (result, wrapper)).1
      (Handled.settle (result, wrapper)).2 := by
  match result with
  | .error (.error _) => exact .keeps command
  | .error (.panic _) => exact .ends command
  | .ok handed =>
    rw [nothing handed rfl]
    exact .keeps command

theorem handed_eq_none {outcome : Except CommandStop Unit} (handed : Option UInt32)
    (same : outcome.map (fun _ => none) = .ok handed) : handed = none := by
  cases outcome with
  | error => cases same
  | ok =>
    cases same
    rfl

theorem effect_handle (isText : command.IsText) :
    Effect wrapper command (wrapper.handle command).1 (wrapper.handle command).2 := by
  cases command with
  | quit => exact .ends _
  | fieldList | setOption | ping | unhandled => exact .keeps _
  | initDb outcome => exact effect_settle _ _ handed_eq_none
  | query text actions outcome =>
    have valid : isUtf8 text = true := isText
    dsimp only [ClientWrapper.handle, ClientWrapper.handlePacket]
    rw [extractInvalidBytes_of_isUtf8 valid]
    exact effect_settle _ _ handed_eq_none
  | stmtPrepare actions =>
    dsimp only [ClientWrapper.handle, ClientWrapper.handlePacket, ClientWrapper.handlePrepare]
    rcases doPrepareStatement_cases actions with ⟨stop, failed⟩ | ⟨message, after, failed⟩ |
      ⟨saved, plan, prepared, isNext, isPlan⟩
    · rw [failed]
      exact effect_settle _ (.error stop) nofun
    · rw [failed]
      exact .ends _
    · rw [prepared]
      exact .registers actions saved plan isNext isPlan
  | stmtExecute statementId outcome =>
    dsimp only [ClientWrapper.handle, ClientWrapper.handlePacket]
    split
    · exact .keeps _
    · exact effect_settle _ _ handed_eq_none
  | stmtClose statementId =>
    dsimp only [ClientWrapper.handle, ClientWrapper.handlePacket]
    split
    · exact .keeps _
    · rename_i saved isOpen
      exact .releases statementId saved isOpen

end Commands

/-! ## Ownership -/

/-- Every statement of the session is reachable through the statements of the client. -/
def ClientWrapper.Owned (wrapper : ClientWrapper) : Prop :=
  ∀ backendId, wrapper.session.preparedQueries backendId ≠ none →
    ∃ statementId saved, wrapper.statements statementId = some saved ∧
      saved.backendStatementId = backendId

/-- The ids of the statements of the client are among the first ones that have been handed out. -/
structure ClientWrapper.Numbered (wrapper : ClientWrapper) (count : Nat) : Prop where
  next : wrapper.currentStatementId = UInt32.ofNat (count + 1)
  handed : ∀ statementId, wrapper.statements statementId ≠ none →
    ∃ index < count, statementId = UInt32.ofNat (index + 1)

/-- The number of statements that a command may prepare for the client. -/
def Command.prepares : Command → Nat
  | .stmtPrepare _ => 1
  | _ => 0

section Ownership

variable {wrapper : ClientWrapper} {count : Nat} {plan : PreparedPlan}

theorem id_ne_next {index : Nat} (earlier : index < count) (fits : count < 2 ^ 32) :
    UInt32.ofNat (index + 1) ≠ UInt32.ofNat (count + 1) := by
  intro same
  have numbers := congrArg UInt32.toNat same
  rw [UInt32.toNat_ofNat', UInt32.toNat_ofNat'] at numbers
  omega

theorem ClientWrapper.Numbered.next_free (numbered : wrapper.Numbered count)
    (fits : count < 2 ^ 32) : wrapper.statements wrapper.currentStatementId = none := by
  by_contra used
  obtain ⟨index, earlier, same⟩ := numbered.handed _ used
  rw [numbered.next] at same
  exact id_ne_next earlier fits same.symm

theorem owned_released (owned : wrapper.Owned)
    (isOpen : wrapper.statements statementId = some saved) :
    (wrapper.released saved statementId).Owned := by
  intro backendId isPrepared
  have other : backendId ≠ saved.backendStatementId := by
    rintro rfl
    exact isPrepared (Function.update_self _ _ _)
  have wasPrepared : wrapper.session.preparedQueries backendId ≠ none := by
    intro absent
    exact isPrepared ((Function.update_of_ne other _ _).trans absent)
  obtain ⟨otherId, otherSaved, isSaved, isBackend⟩ := owned backendId wasPrepared
  have otherIds : otherId ≠ statementId := by
    rintro rfl
    rw [isOpen] at isSaved
    cases isSaved
    exact other isBackend.symm
  exact ⟨otherId, otherSaved, (Function.update_of_ne otherIds _ _).trans isSaved, isBackend⟩

theorem numbered_released (numbered : wrapper.Numbered count) :
    (wrapper.released saved statementId).Numbered count where
  next := numbered.next
  handed otherId isOpen := by
    refine numbered.handed otherId fun absent => isOpen ?_
    by_cases same : otherId = statementId
    · subst same
      exact Function.update_self _ _ _
    · exact (Function.update_of_ne same _ _).trans absent

theorem owned_registered (owned : wrapper.Owned)
    (free : wrapper.statements saved.statementId = none)
    (isPlan : saved.backendStatementId = wrapper.session.currentPlanId) :
    ((wrapper.opened plan).registered saved).Owned := by
  intro backendId isPrepared
  by_cases isNew : backendId = wrapper.session.currentPlanId
  · exact ⟨saved.statementId, saved, Function.update_self _ _ _, isPlan.trans isNew.symm⟩
  · have wasPrepared : wrapper.session.preparedQueries backendId ≠ none := by
      intro absent
      exact isPrepared ((Function.update_of_ne isNew _ _).trans absent)
    obtain ⟨otherId, otherSaved, isSaved, isBackend⟩ := owned backendId wasPrepared
    have otherIds : otherId ≠ saved.statementId := by
      rintro rfl
      rw [free] at isSaved
      cases isSaved
    exact ⟨otherId, otherSaved, (Function.update_of_ne otherIds _ _).trans isSaved, isBackend⟩

theorem numbered_registered (numbered : wrapper.Numbered count)
    (isNext : saved.statementId = wrapper.currentStatementId) :
    ((wrapper.opened plan).registered saved).Numbered (count + 1) where
  next := by
    change wrapper.currentStatementId + 1 = UInt32.ofNat (count + 1 + 1)
    rw [numbered.next, UInt32.ofNat_add (count + 1) 1]
    rfl
  handed otherId isOpen := by
    by_cases same : otherId = saved.statementId
    · exact ⟨count, Nat.lt_succ_self count, same.trans (isNext.trans numbered.next)⟩
    · have wasOpen : wrapper.statements otherId ≠ none := by
        intro absent
        exact isOpen ((Function.update_of_ne same _ _).trans absent)
      obtain ⟨index, earlier, isId⟩ := numbered.handed otherId wasOpen
      exact ⟨index, Nat.lt_succ_of_lt earlier, isId⟩

theorem effect_owned {result : Option ClientWrapper} {handed : Option UInt32}
    (effect : Effect wrapper command result handed) (owned : wrapper.Owned)
    (numbered : wrapper.Numbered count) (fits : count + command.prepares ≤ 2 ^ 32) :
    (∀ after, result = some after →
      after.Owned ∧ ∃ more ≤ count + command.prepares, after.Numbered more) ∧
    ∀ statementId, handed = some statementId → wrapper.statements statementId = none := by
  cases effect with
  | ends => exact ⟨nofun, nofun⟩
  | keeps =>
    refine ⟨?_, nofun⟩
    rintro after ⟨⟩
    exact ⟨owned, count, Nat.le_add_right _ _, numbered⟩
  | releases statementId saved isOpen =>
    refine ⟨?_, nofun⟩
    rintro after ⟨⟩
    exact ⟨owned_released owned isOpen, count, Nat.le_add_right _ _, numbered_released numbered⟩
  | registers actions saved plan isNext isPlan =>
    have free : wrapper.statements saved.statementId = none := by
      rw [isNext]
      exact numbered.next_free (Nat.lt_of_succ_le fits)
    refine ⟨?_, ?_⟩
    · rintro after ⟨⟩
      exact ⟨owned_registered owned free isPlan, count + 1, le_rfl,
        numbered_registered numbered isNext⟩
    · rintro statementId ⟨⟩
      exact free

theorem owned_run {commands : List Command} {after : ClientWrapper}
    (isText : ∀ command ∈ commands, command.IsText) (owned : wrapper.Owned)
    (numbered : wrapper.Numbered count)
    (fits : count + (commands.map Command.prepares).sum ≤ 2 ^ 32)
    (ran : wrapper.run commands = some after) :
    after.Owned ∧ ∃ more ≤ count + (commands.map Command.prepares).sum, after.Numbered more := by
  induction commands generalizing wrapper count with
  | nil =>
    cases ran
    exact ⟨owned, count, Nat.le_add_right _ _, numbered⟩
  | cons command rest ih =>
    rw [List.forall_mem_cons] at isText
    rw [List.map_cons, List.sum_cons] at fits ⊢
    simp only [ClientWrapper.run, List.foldlM_cons, bind_some_iff] at ran
    obtain ⟨next, isNext, later⟩ := ran
    obtain ⟨nextOwned, more, bound, nextNumbered⟩ :=
      (effect_owned (effect_handle isText.1) owned numbered (by omega)).1 next isNext
    obtain ⟨afterOwned, last, lastBound, afterNumbered⟩ :=
      ih isText.2 nextOwned nextNumbered (by omega) later
    exact ⟨afterOwned, last, by omega, afterNumbered⟩

end Ownership

/-- As long as every query is UTF-8 and no more than 4294967296 statements are prepared, every
statement of the session is reachable by the client or has been closed, and a new statement gets an
id that is not in use. -/
theorem statements_owned (commands : List Command) (command : Command)
    (isText : ∀ handled ∈ commands ++ [command], handled.IsText)
    (fits : ((commands ++ [command]).map Command.prepares).sum ≤ 2 ^ 32) (wrapper : ClientWrapper)
    (ran : ClientWrapper.new.run commands = some wrapper) :
    wrapper.Owned ∧ (∀ after, (wrapper.handle command).1 = some after → after.Owned) ∧
      ∀ statementId, (wrapper.handle command).2 = some statementId →
        wrapper.statements statementId = none := by
  have ownedNew : ClientWrapper.new.Owned := fun _ absent => absurd rfl absent
  have numberedNew : ClientWrapper.new.Numbered 0 := ⟨rfl, fun _ absent => absurd rfl absent⟩
  rw [List.forall_mem_append] at isText
  rw [List.map_append, List.sum_append] at fits
  have single : ([command].map Command.prepares).sum = command.prepares := by simp
  obtain ⟨owned, count, bound, numbered⟩ :=
    owned_run isText.1 ownedNew numberedNew (by omega) ran
  obtain ⟨keeps, free⟩ := effect_owned (effect_handle (isText.2 command (by simp))) owned numbered
    (by omega)
  exact ⟨owned, fun after isAfter => (keeps after isAfter).1, free⟩

def oneAction : Except CommandError (List StatementAction) :=
  .ok [.forward false (.ok [])]

/-- The second statement of a client gets an id of its own. -/
theorem statements_owned_twice :
    ∃ wrapper, ClientWrapper.new.run [.stmtPrepare oneAction, .stmtClose 1] = some wrapper ∧
      (wrapper.handle (.stmtPrepare oneAction)).2 = some 2 ∧ wrapper.Owned ∧
      wrapper.statements 2 = none := by
  refine ⟨_, rfl, rfl, ?_⟩
  have result := statements_owned [.stmtPrepare oneAction, .stmtClose 1] (.stmtPrepare oneAction)
    (by simp [Command.IsText]) (by decide) _ rfl
  exact ⟨result.1, result.2.2 2 rfl⟩

/-- A query that compares a binary column with a literal that is not UTF-8. -/
def binaryQuery : Bytes :=
  utf8Bytes "SELECT 1 FROM (SELECT X'41' AS x) t WHERE x = " ++ [quote, 0xFF, quote]

/-- The plan of the query, with a parameter in place of the literal. -/
def binaryAction : Except CommandError (List StatementAction) :=
  .ok [.forward false (.ok [("$1", some (.bytes .binary))])]

/-- A query with a binary literal leaves a statement open that no client can reach. -/
theorem binary_query_leaks :
    extractInvalidBytes binaryQuery =
        .ok (utf8Bytes "SELECT 1 FROM (SELECT X'41' AS x) t WHERE x = ?", some [[0xFF]]) ∧
      ∃ wrapper, ClientWrapper.new.run [.query binaryQuery binaryAction (.ok ())] = some wrapper ∧
        wrapper.session.preparedQueries 0 = some ⟨[("$1", .bytes .binary)]⟩ ∧
        ∀ statementId, wrapper.statements statementId = none := by
  have extracted : extractInvalidBytes binaryQuery =
      .ok (utf8Bytes "SELECT 1 FROM (SELECT X'41' AS x) t WHERE x = ?", some [[0xFF]]) := by
    decide +kernel
  refine ⟨extracted, ClientWrapper.new.opened ⟨[("$1", .bytes .binary)]⟩, ?_, rfl, fun _ => rfl⟩
  simp only [ClientWrapper.run, List.foldlM_cons, ClientWrapper.handle, ClientWrapper.handlePacket,
    extracted]
  rfl

end SecureFusion.Frontend
