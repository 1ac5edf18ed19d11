import Mathlib.Data.List.Basic

/-!
# Machines that read symbols and write tokens

A machine with a state for what it has read, which writes tokens while it reads and
may have to write more, or to reject, at the end. Reading is compositional, so that
what a text means in front of any other text is a statement about one state.
-/

namespace SecureFusion.Library

/-- A machine over symbols and tokens. -/
structure Transducer (σ α τ : Type) where
  start : σ
  step : σ → α → σ × List τ
  /-- The tokens that are written at the end; none if the end is not allowed here. -/
  finish : σ → Option (List τ)

namespace Transducer

variable {σ α τ : Type} (machine : Transducer σ α τ) (state : σ)

/-- The state after reading an input, and the tokens written on the way. -/
def run (state : σ) : List α → σ × List τ
  | [] => (state, [])
  | symbol :: rest =>
    let (next, written) := machine.step state symbol
    let (last, more) := run next rest
    (last, written ++ more)

/-- All tokens of an input that is read from some state to its end. -/
def output (state : σ) (input : List α) : Option (List τ) :=
  (machine.finish (machine.run state input).1).map ((machine.run state input).2 ++ ·)

def tokens (input : List α) : Option (List τ) := machine.output machine.start input

@[simp] theorem run_nil : machine.run state [] = (state, []) := rfl

theorem run_cons (symbol : α) (rest : List α) :
    machine.run state (symbol :: rest) =
      ((machine.run (machine.step state symbol).1 rest).1,
        (machine.step state symbol).2 ++ (machine.run (machine.step state symbol).1 rest).2) := rfl

theorem run_append (first second : List α) :
    machine.run state (first ++ second) =
      ((machine.run (machine.run state first).1 second).1,
        (machine.run state first).2 ++ (machine.run (machine.run state first).1 second).2) := by
  induction first generalizing state with
  | nil => rfl
  | cons symbol rest ih =>
    rw [List.cons_append, run_cons, ih, run_cons, List.append_assoc]

theorem output_append (first second : List α) :
    machine.output state (first ++ second) =
      (machine.output (machine.run state first).1 second).map
        ((machine.run state first).2 ++ ·) := by
  unfold output
  rw [run_append]
  cases machine.finish (machine.run (machine.run state first).1 second).1 with
  | none => rfl
  | some last => simp

theorem output_cons_of_silent {state next : σ} {symbol : α}
    (silent : machine.step state symbol = (next, [])) (rest : List α) :
    machine.output state (symbol :: rest) = machine.output next rest := by
  unfold output
  rw [run_cons, silent, List.nil_append]

theorem run_invariant {keeps : σ → Prop} {writes : τ → Prop} {reads : α → Prop}
    (step : ∀ state symbol, keeps state → reads symbol →
      keeps (machine.step state symbol).1 ∧
        ∀ token ∈ (machine.step state symbol).2, writes token)
    {state : σ} (initially : keeps state) {input : List α}
    (allowed : ∀ symbol ∈ input, reads symbol) :
    keeps (machine.run state input).1 ∧ ∀ token ∈ (machine.run state input).2, writes token := by
  induction input generalizing state with
  | nil => exact ⟨initially, nofun⟩
  | cons symbol rest ih =>
    rw [List.forall_mem_cons] at allowed
    obtain ⟨kept, written⟩ := step state symbol initially allowed.1
    obtain ⟨last, more⟩ := ih kept allowed.2
    rw [run_cons]
    exact ⟨last, List.forall_mem_append.mpr ⟨written, more⟩⟩

end Transducer

end SecureFusion.Library
