import SecureFusion.Library.Outcome

/-!
# Refreshes of the table statistics

A caller that finds the statistics stale sets their update signal and looks at its old value, where
true means that another caller refreshes them. The code reads it the other way round: the first
caller does nothing, and all later ones refresh.
-/

namespace SecureFusion.Statistics

open Function (update)

variable {Caller : Type} [DecidableEq Caller]

structure TableStatistics where
  updateSignal : Bool := false
  lastUpdate : Nat

/-- Where a call of the accessor is; it works on the statistics that it has read. -/
inductive Phase where
  | idle
  | read (object : Nat)
  | stale (object : Nat)
  | refreshing (object : Nat)
deriving DecidableEq

def Phase.isRefreshing : Phase → Bool
  | .refreshing _ => true
  | _ => false

/-- The clock in hours, all statistics there have been, and which of them are current. -/
structure State (Caller : Type) where
  now : Nat
  objects : List TableStatistics
  current : Nat
  phase : Caller → Phase

inductive Event (Caller : Type) where
  | tick
  | read (caller : Caller)
  | test (caller : Caller)
  | swap (caller : Caller)
  /-- The new statistics are built, or this fails. -/
  | finish (caller : Caller) (succeeds : Bool)

def refreshFreq : Nat := 4

def State.store (state : State Caller) (object : Nat) (signal : Bool) : State Caller :=
  { state with
    objects := state.objects.modify object fun statistics =>
      { statistics with updateSignal := signal } }

def State.go (state : State Caller) (caller : Caller) (phase : Phase) : State Caller :=
  { state with phase := update state.phase caller phase }

/-- A step of the clock or of a caller. -/
def step (state : State Caller) : Event Caller → Option (State Caller)
  | .tick => some { state with now := state.now + 1 }
  | .read caller => do
    let .idle := state.phase caller | none
    some (state.go caller (.read state.current))
  | .test caller => do
    let .read object := state.phase caller | none
    let statistics ← state.objects[object]?
    some (state.go caller
      (if refreshFreq < state.now - statistics.lastUpdate then .stale object else .idle))
  | .swap caller => do
    let .stale object := state.phase caller | none
    let statistics ← state.objects[object]?
    let shouldUpdate := statistics.updateSignal
    some ((state.store object true).go caller
      (if !shouldUpdate then .idle else .refreshing object))
  | .finish caller succeeds => do
    let .refreshing object := state.phase caller | none
    some ((if succeeds then
        { state with
          objects := state.objects ++ [⟨false, state.now⟩]
          current := state.objects.length }
      else state.store object false).go caller .idle)

/-- At most one refresh is in flight, and a caller that finds stale statistics while there is none
starts one. -/
def SingleFlight (state : State Caller) : List (Event Caller) → Prop
  | [] => True
  | event :: rest => ∀ next ∈ step state event,
    (∀ one other, (next.phase one).isRefreshing → (next.phase other).isRefreshing → one = other) ∧
      (∀ caller, event = .swap caller → (∀ other, ¬ (state.phase other).isRefreshing) →
        (next.phase caller).isRefreshing) ∧
      SingleFlight next rest

/-- No signal is set and no refresh is in flight. -/
structure State.Quiet (state : State Caller) : Prop where
  signals : ∀ statistics ∈ state.objects, statistics.updateSignal = false
  phases : ∀ caller, (state.phase caller).isRefreshing = false

variable {state next final : State Caller} {caller : Caller}

theorem State.Quiet.go (quiet : state.Quiet) {phase : Phase} (other : phase.isRefreshing = false) :
    (state.go caller phase).Quiet where
  signals := quiet.signals
  phases one := by
    by_cases same : one = caller
    · simpa [State.go, same] using other
    · simpa [State.go, same] using quiet.phases one

theorem State.Quiet.after {event : Event Caller} (quiet : state.Quiet)
    (other : ∀ caller, event ≠ .swap caller) (stepped : step state event = some next) :
    next.Quiet := by
  cases event with
  | tick =>
    cases stepped
    exact ⟨quiet.signals, quiet.phases⟩
  | read caller =>
    dsimp only [step] at stepped
    split at stepped
    · cases stepped
      exact quiet.go rfl
    · cases stepped
  | test caller =>
    dsimp only [step] at stepped
    split at stepped
    · obtain ⟨statistics, -, same⟩ := Library.bind_some_iff.mp stepped
      cases same
      apply quiet.go
      split_ifs <;> rfl
    · cases stepped
  | swap caller => exact absurd rfl (other caller)
  | finish caller succeeds =>
    dsimp only [step] at stepped
    have notThere := quiet.phases caller
    split at stepped
    · rw [‹state.phase caller = _›] at notThere
      cases notThere
    · cases stepped

theorem State.Quiet.swapped (quiet : state.Quiet) (stepped : step state (.swap caller) = some next) :
    (next.phase caller).isRefreshing = false := by
  dsimp only [step] at stepped
  split at stepped
  · obtain ⟨statistics, isObject, same⟩ := Library.bind_some_iff.mp stepped
    have unset := quiet.signals statistics (List.mem_of_getElem? isObject)
    cases same
    simp [State.go, unset, Phase.isRefreshing]
  · cases stepped

/-- In a run from quiet statistics, refreshes follow the law if and only if no caller finds the
statistics stale. -/
theorem refreshes_single_flight_iff (quiet : state.Quiet) (events : List (Event Caller))
    (ran : events.foldlM step state = some final) :
    SingleFlight state events ↔ ∀ caller, .swap caller ∉ events := by
  induction events generalizing state with
  | nil => simp [SingleFlight]
  | cons event rest ih =>
    rw [List.foldlM_cons] at ran
    obtain ⟨next, stepped, ran⟩ := Library.bind_some_iff.mp ran
    simp only [SingleFlight, stepped, Option.mem_some_iff, forall_eq']
    by_cases swaps : ∃ caller, event = .swap caller
    · obtain ⟨caller, rfl⟩ := swaps
      refine iff_of_false (fun law => ?_) fun none => none caller List.mem_cons_self
      have starts := law.2.1 caller rfl fun other => by simp [quiet.phases other]
      rw [quiet.swapped stepped] at starts
      cases starts
    · have after := quiet.after (not_exists.mp swaps) stepped
      rw [ih after ran]
      constructor
      · intro law caller isIn
        rcases List.mem_cons.mp isIn with isFirst | isLater
        · exact swaps ⟨caller, isFirst.symm⟩
        · exact law.2.2 caller isLater
      · intro none
        refine ⟨fun one _ refreshes => ?_, fun caller isSwap => ?_, fun caller isIn => ?_⟩
        · simp [after.phases one] at refreshes
        · exact absurd ⟨caller, isSwap⟩ swaps
        · exact none caller (List.mem_cons_of_mem _ isIn)

/-- Statistics that were built at the start. -/
def builtNow : State (Fin 3) := ⟨0, [⟨false, 0⟩], 0, fun _ => .idle⟩

theorem refreshes_single_flight_fresh :
    builtNow.Quiet ∧ SingleFlight builtNow [.tick, .read 0, .test 0] := by
  have quiet : builtNow.Quiet := ⟨by decide, fun _ => rfl⟩
  exact ⟨quiet, (refreshes_single_flight_iff quiet [.tick, .read 0, .test 0] rfl).mpr (by simp)⟩

/-- After five hours the first caller does nothing, and the other two refresh at the same time. -/
theorem refreshes_at_the_same_time :
    let call (caller : Fin 3) : List (Event (Fin 3)) := [.read caller, .test caller, .swap caller]
    ∃ state, (List.replicate 5 Event.tick ++ call 0 ++ call 1 ++ call 2).foldlM step builtNow =
        some state ∧
      state.phase 0 = .idle ∧ state.phase 1 = .refreshing 0 ∧ state.phase 2 = .refreshing 0 :=
  ⟨_, rfl, rfl, rfl, rfl⟩

end SecureFusion.Statistics
