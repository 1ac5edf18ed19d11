import Mathlib.Data.List.Nodup
import Mathlib.Logic.Relation

/-!
# Concurrent updates of the metadata of a schema

The metadata of a schema is one file. An update reads the file, changes what it has read
and writes it back: it creates the file anew, which makes it empty, and then fills it.
Calls of all sessions share the file, and nothing keeps them apart.
-/

namespace SecureFusion.Metadata

open Function (update)

variable {Call Meta : Type}

/-- The file of a schema: it may be missing, created but not yet filled, or hold metadata. -/
inductive File (Meta : Type) where
  | missing
  | created
  | filled (contents : Meta)

/-- The format of the file: what a missing file stands for, what an empty text is read as (none
if reading it panics), and which metadata can be written as text. -/
structure StoreToDisk (Meta : Type) where
  default : Meta
  empty : Option Meta
  serializes : Meta → Prop

def StoreToDisk.read (store : StoreToDisk Meta) : File Meta → Option Meta
  | .missing => some store.default
  | .created => store.empty
  | .filled contents => some contents

/-- Where a call is; a call that has read remembers how many calls had succeeded by then. -/
inductive Phase (Meta : Type) where
  | pending
  | updated (seen : Nat) (changed : Meta)
  | writing (changed : Meta)
  | succeeded
  | failed

/-- The file, the calls, and the calls that have succeeded in the order of their writes. -/
structure State (Call Meta : Type) where
  file : File Meta
  phase : Call → Phase Meta
  log : List Call

/-- The steps of a call, with the outcome of the access to the file. -/
inductive Step [DecidableEq Call] (store : StoreToDisk Meta)
    (updater : Call → Meta → Option Meta) :
    Call → Bool → State Call Meta → State Call Meta → Prop where
  /-- Reads the file and runs the updater. -/
  | read {state call contents changed} : state.phase call = .pending →
      store.read state.file = some contents → updater call contents = some changed →
      Step store updater call true state
        { state with phase := update state.phase call (.updated state.log.length changed) }
  /-- Reading panics, or the updater returns an error. -/
  | reject {state call ok} : state.phase call = .pending →
      (store.read state.file).bind (updater call) = none →
      Step store updater call ok state { state with phase := update state.phase call .failed }
  /-- Creates the file, which makes it empty. -/
  | create {state call seen changed} : state.phase call = .updated seen changed →
      store.serializes changed →
      Step store updater call true state
        { state with file := .created, phase := update state.phase call (.writing changed) }
  /-- The metadata has no text, or the file cannot be created. -/
  | giveUp {state call seen changed ok} : state.phase call = .updated seen changed →
      Step store updater call ok state { state with phase := update state.phase call .failed }
  /-- Fills the file and returns success. -/
  | fill {state call changed} : state.phase call = .writing changed →
      Step store updater call true state
        { file := .filled changed, phase := update state.phase call .succeeded,
          log := state.log ++ [call] }
  /-- The file cannot be filled. -/
  | lose {state call changed} : state.phase call = .writing changed →
      Step store updater call false state { state with phase := update state.phase call .failed }

def Phase.IsWriting (phase : Phase Meta) : Prop := ∃ changed, phase = .writing changed

/-- A step of a call that no other call disturbs: no call writes when it reads or creates the
file, no other call has written since it read, and the file is filled once it is created. -/
def Undisturbed (state : State Call Meta) (call : Call) (ok : Bool) : Prop :=
  match state.phase call with
  | .pending => ∀ other, ¬(state.phase other).IsWriting
  | .updated seen _ => seen = state.log.length ∧ ∀ other, ¬(state.phase other).IsWriting
  | .writing _ => ok = true
  | _ => True

/-- Runs of undisturbed steps. -/
inductive Runs [DecidableEq Call] (store : StoreToDisk Meta)
    (updater : Call → Meta → Option Meta) (initial : State Call Meta) :
    State Call Meta → Prop where
  | start : Runs store updater initial initial
  | step {state next call ok} : Runs store updater initial state →
      Undisturbed state call ok → Step store updater call ok state next →
      Runs store updater initial next

def State.initial (file : File Meta) : State Call Meta := ⟨file, fun _ => .pending, []⟩

def applyAll (updater : Call → Meta → Option Meta) (calls : List Call) (start : Meta) :
    Option Meta :=
  calls.foldlM (fun contents call => updater call contents) start

section Invariant

variable [DecidableEq Call] {store : StoreToDisk Meta} {updater : Call → Meta → Option Meta}
  {start : Meta} {state next : State Call Meta} {call : Call} {ok : Bool} {contents : Meta}

/-- What holds in undisturbed runs: the metadata is that of the successful calls in their order,
and so is what a call that is up to date has changed. -/
structure Serial (store : StoreToDisk Meta) (updater : Call → Meta → Option Meta) (start : Meta)
    (state : State Call Meta) (contents : Meta) : Prop where
  applied : applyAll updater state.log start = some contents
  stored : (∀ other, ¬(state.phase other).IsWriting) → store.read state.file = some contents
  writes : ∀ other changed, state.phase other = .writing changed →
    updater other contents = some changed
  fresh : ∀ other seen changed, state.phase other = .updated seen changed →
    seen ≤ state.log.length ∧ (seen = state.log.length → updater other contents = some changed)
  single : ∀ first second, (state.phase first).IsWriting → (state.phase second).IsWriting →
    first = second
  finished : ∀ other, other ∈ state.log ↔ state.phase other = .succeeded
  nodup : state.log.Nodup

theorem Serial.move (serial : Serial store updater start state contents) {phase : Phase Meta}
    (notDone : state.phase call ≠ .succeeded) (newPhase : phase ≠ .succeeded)
    (idle : ¬(state.phase call).IsWriting) (notWriting : ¬phase.IsWriting)
    (updated : ∀ seen changed, phase = .updated seen changed →
      seen = state.log.length ∧ updater call contents = some changed) :
    Serial store updater start { state with phase := update state.phase call phase } contents := by
  have writing : ∀ other, (update state.phase call phase other).IsWriting ↔
      (state.phase other).IsWriting := by
    intro other
    by_cases same : other = call
    · subst same
      rw [Function.update_self]
      exact iff_of_false notWriting idle
    · rw [Function.update_of_ne same]
  refine ⟨serial.applied, fun none => serial.stored fun other => (writing other).not.mp (none other),
    ?_, ?_, fun first second isFirst isSecond => serial.single first second
      ((writing first).mp isFirst) ((writing second).mp isSecond), ?_, serial.nodup⟩
  · intro other changed isWriting
    by_cases same : other = call
    · subst same
      exact (notWriting ⟨changed, by simpa using isWriting⟩).elim
    · exact serial.writes other changed (by simpa [same] using isWriting)
  · intro other seen changed isUpdated
    by_cases same : other = call
    · subst same
      have ⟨now, result⟩ := updated seen changed (by simpa using isUpdated)
      exact ⟨Nat.le_of_eq now, fun _ => result⟩
    · exact serial.fresh other seen changed (by simpa [same] using isUpdated)
  · intro other
    by_cases same : other = call
    · subst same
      simp [serial.finished, notDone, newPhase]
    · simp [serial.finished, same]

theorem Serial.step (serial : Serial store updater start state contents)
    (undisturbed : Undisturbed state call ok) (taken : Step store updater call ok state next) :
    ∃ contents, Serial store updater start next contents := by
  cases taken with
  | @read _ _ read changed pending isRead result =>
    rw [Undisturbed, pending] at undisturbed
    cases isRead.symm.trans (serial.stored undisturbed)
    refine ⟨contents, serial.move (by simp [pending]) (by simp) (undisturbed call)
      (by simp [Phase.IsWriting]) fun seen other same => ?_⟩
    cases same
    exact ⟨rfl, result⟩
  | reject pending =>
    exact ⟨contents, serial.move (by simp [pending]) (by simp) (by simp [pending, Phase.IsWriting])
      (by simp [Phase.IsWriting]) (by simp)⟩
  | giveUp isUpdated =>
    exact ⟨contents, serial.move (by simp [isUpdated]) (by simp)
      (by simp [isUpdated, Phase.IsWriting]) (by simp [Phase.IsWriting]) (by simp)⟩
  | lose isWriting =>
    rw [Undisturbed, isWriting] at undisturbed
    cases undisturbed
  | @create _ _ seen changed isUpdated =>
    rw [Undisturbed, isUpdated] at undisturbed
    obtain ⟨upToDate, nobody⟩ := undisturbed
    have result := (serial.fresh call seen changed isUpdated).2 upToDate
    have isCall : ∀ other, (update state.phase call (.writing changed) other).IsWriting →
        other = call := by
      intro other isWriting
      by_contra different
      rw [Function.update_of_ne different] at isWriting
      exact nobody other isWriting
    refine ⟨contents, serial.applied, fun none => (none call ⟨changed, by simp⟩).elim, ?_, ?_,
      fun first second isFirst isSecond => (isCall first isFirst).trans (isCall second isSecond).symm,
      ?_, serial.nodup⟩
    · intro other others isWriting
      obtain rfl := isCall other ⟨others, isWriting⟩
      have same : changed = others := by simpa using isWriting
      rwa [← same]
    · intro other seen others isOther
      have different : other ≠ call := by
        rintro rfl
        simp at isOther
      exact serial.fresh other seen others (by simpa [different] using isOther)
    · intro other
      by_cases same : other = call
      · subst same
        simp [serial.finished, isUpdated]
      · simp [serial.finished, same]
  | @fill _ _ changed isWriting =>
    have result := serial.writes call changed isWriting
    have isNew : call ∉ state.log := by simp [serial.finished, isWriting]
    have nobody : ∀ other, ¬(update state.phase call .succeeded other).IsWriting := by
      intro other ⟨others, found⟩
      by_cases same : other = call
      · subst same
        simp at found
      · have isOther : state.phase other = .writing others := by simpa [same] using found
        exact same (serial.single other call ⟨others, isOther⟩ ⟨changed, isWriting⟩)
    refine ⟨changed, ?_, fun _ => rfl, fun other others found => (nobody other ⟨others, found⟩).elim,
      ?_, fun first second isFirst => (nobody first isFirst).elim, ?_, ?_⟩
    · have before := serial.applied
      unfold applyAll at before ⊢
      rw [List.foldlM_append, before]
      simp [result]
    · intro other seen others isOther
      have different : other ≠ call := by
        rintro rfl
        simp at isOther
      have old := (serial.fresh other seen others (by simpa [different] using isOther)).1
      simp only [List.length_append, List.length_singleton]
      exact ⟨by omega, fun now => by omega⟩
    · intro other
      by_cases same : other = call
      · subst same
        simp
      · simp [serial.finished, same]
    · exact List.nodup_append.mpr ⟨serial.nodup, List.nodup_singleton _, by
        intro first isFirst second isSecond
        rw [List.mem_singleton.mp isSecond]
        rintro rfl
        exact isNew isFirst⟩

end Invariant

/-- Metadata that is a list of tables; an empty text cannot be read. -/
def tableStore : StoreToDisk (List String) := ⟨[], none, fun _ => True⟩

def addTable (call : Bool) (tables : List String) : Option (List String) :=
  some (tables ++ [if call then "b" else "a"])

def afterRead (state : State Bool (List String)) (call : Bool) (tables : List String) :
    State Bool (List String) :=
  { state with phase := update state.phase call (.updated state.log.length tables) }

def afterWrite (state : State Bool (List String)) (call : Bool) (tables : List String) :
    State Bool (List String) :=
  { file := .filled tables
    phase := update (update state.phase call (.writing tables)) call .succeeded
    log := state.log ++ [call] }

/-- A call that reads while no call writes, and then writes, continues an undisturbed run. -/
theorem Runs.update {initial state : State Bool (List String)}
    (runs : Runs tableStore addTable initial state) {call : Bool} {tables changed : List String}
    (pending : state.phase call = .pending) (isRead : tableStore.read state.file = some tables)
    (added : addTable call tables = some changed)
    (nobody : ∀ other, ¬(state.phase other).IsWriting) :
    Runs tableStore addTable initial (afterWrite (afterRead state call changed) call changed) := by
  have quiet : Undisturbed state call true := by
    rw [Undisturbed, pending]
    exact nobody
  have isUpdated : (afterRead state call changed).phase call = .updated state.log.length changed :=
    Function.update_self ..
  have upToDate : Undisturbed (afterRead state call changed) call true := by
    rw [Undisturbed, isUpdated]
    refine ⟨rfl, fun other => ?_⟩
    by_cases same : other = call
    · rw [same, isUpdated]
      rintro ⟨_, ⟨⟩⟩
    · have kept : (afterRead state call changed).phase other = state.phase other :=
        Function.update_of_ne same ..
      rw [kept]
      exact nobody other
  have created := (runs.step quiet (.read pending isRead added)).step upToDate
    (.create isUpdated trivial)
  have isWriting : (Function.update (afterRead state call changed).phase call
      (.writing changed)) call = .writing changed := Function.update_self ..
  refine created.step ?_ (.fill isWriting)
  simp [Undisturbed]

end SecureFusion.Metadata
