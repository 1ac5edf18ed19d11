import Mathlib.Data.List.Forall2

/-!
# Computations that may fail

A sequence of steps succeeds if every step does, each on the results of the steps
before it.
-/

namespace SecureFusion.Library

open List

theorem bind_some_iff {α β : Type} {first : Option α} {next : α → Option β} {result : β} :
    (first >>= next) = some result ↔ ∃ value, first = some value ∧ next value = some result :=
  Option.bind_eq_some_iff

namespace Outcome

variable {ε α β γ : Type} {f : α → Except ε β} {inputs : List α} {outputs : List β}

@[simp] theorem ok_bind (value : α) (next : α → Except ε β) :
    ((.ok value : Except ε α) >>= next) = next value := rfl

@[simp] theorem error_bind (failure : ε) (next : α → Except ε β) :
    ((.error failure : Except ε α) >>= next) = .error failure := rfl

/-- A computation whose result passes a check has a result. -/
theorem exists_ok_of_any {first : Except ε α} {check : α → Bool}
    (passes : first.toOption.any check = true) :
    ∃ value, first = .ok value ∧ check value = true := by
  cases first with
  | error failure => cases passes
  | ok value => exact ⟨value, rfl, passes⟩

theorem bind_eq_ok_iff {first : Except ε α} {next : α → Except ε β} {result : β} :
    (first >>= next) = .ok result ↔ ∃ value, first = .ok value ∧ next value = .ok result := by
  cases first with
  | error failure => simp
  | ok value => simp

theorem mapM_eq_ok_iff :
    inputs.mapM f = .ok outputs ↔
      List.Forall₂ (fun input output => f input = .ok output) inputs outputs := by
  induction inputs generalizing outputs with
  | nil =>
    rw [mapM_nil, forall₂_nil_left_iff]
    exact ⟨fun same => (Except.ok.inj same).symm, fun same => congrArg _ same.symm⟩
  | cons input rest ih =>
    rw [mapM_cons, bind_eq_ok_iff, forall₂_cons_left_iff]
    constructor
    · rintro ⟨output, first, others⟩
      obtain ⟨outputs, loop, same⟩ := bind_eq_ok_iff.mp others
      exact ⟨output, outputs, first, ih.mp loop, (Except.ok.inj same).symm⟩
    · rintro ⟨output, outputs, first, others, rfl⟩
      refine ⟨output, first, ?_⟩
      rw [ih.mpr others]
      rfl

theorem mapM_congr {m : Type → Type} [Monad m] [LawfulMonad m] {α β : Type} {f g : α → m β}
    {inputs : List α} (same : ∀ input ∈ inputs, f input = g input) :
    inputs.mapM f = inputs.mapM g := by
  induction inputs with
  | nil => rfl
  | cons input rest ih =>
    rw [mapM_cons, mapM_cons, same input mem_cons_self, ih (forall_mem_cons.mp same).2]

theorem eq_map_of_forall₂ {f : α → β}
    (related : List.Forall₂ (fun input output => output = f input) inputs outputs) :
    outputs = inputs.map f := by
  induction related with
  | nil => rfl
  | cons here _ ih => rw [map_cons, here, ih]

theorem mapM_mapM_eq_ok_iff {g : β → Except ε γ} {outputs : List γ} :
    (∃ middle, inputs.mapM f = .ok middle ∧ middle.mapM g = .ok outputs) ↔
      List.Forall₂ (fun input output => ∃ value, f input = .ok value ∧ g value = .ok output)
        inputs outputs := by
  simp only [mapM_eq_ok_iff]
  constructor
  · rintro ⟨middle, first, second⟩
    induction first generalizing outputs with
    | nil =>
      cases second
      exact .nil
    | cons here _ ih =>
      cases second with
      | cons there rest => exact .cons ⟨_, here, there⟩ (ih rest)
  · intro both
    induction both with
    | nil => exact ⟨[], .nil, .nil⟩
    | cons here _ ih =>
      obtain ⟨value, first, second⟩ := here
      obtain ⟨middle, firsts, seconds⟩ := ih
      exact ⟨value :: middle, .cons first firsts, .cons second seconds⟩

theorem exists_forall₂ {related : α → β → Prop}
    (each : ∀ input ∈ inputs, ∃ output, related input output) :
    ∃ outputs, List.Forall₂ related inputs outputs := by
  induction inputs with
  | nil => exact ⟨[], .nil⟩
  | cons input rest ih =>
    obtain ⟨output, first⟩ := each input mem_cons_self
    obtain ⟨outputs, others⟩ := ih (forall_mem_cons.mp each).2
    exact ⟨output :: outputs, .cons first others⟩

theorem exists_mapM (each : ∀ input ∈ inputs, ∃ output, f input = .ok output) :
    ∃ outputs, inputs.mapM f = .ok outputs := by
  obtain ⟨outputs, related⟩ := exists_forall₂ each
  exact ⟨outputs, mapM_eq_ok_iff.mpr related⟩

theorem forall₂_and {first second : α → β → Prop} (one : List.Forall₂ first inputs outputs)
    (other : List.Forall₂ second inputs outputs) :
    List.Forall₂ (fun input output => first input output ∧ second input output) inputs outputs :=
  one.mp (fun _ _ here there => ⟨here, there⟩) other

end Outcome

end SecureFusion.Library
