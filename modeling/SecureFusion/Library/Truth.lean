import Mathlib.Data.Fintype.Basic

/-!
# Three-valued truth

The truth values of SQL: a predicate over a row is true, false or, when a null
takes part in it, unknown. Conjunction and disjunction are the minimum and the
maximum of the order false, unknown, true; negation reverses that order. The
two-valued reading is the part of the type that `ofBool` reaches.
-/

namespace SecureFusion.Library

/-- The truth value of a predicate on one row. -/
inductive Truth where
  /-- The predicate does not hold. -/
  | false
  /-- A null decides the predicate. -/
  | unknown
  /-- The predicate holds. -/
  | true
deriving DecidableEq, Repr

namespace Truth

instance : Fintype Truth where
  elems := {.false, .unknown, .true}
  complete value := by cases value <;> decide

def ofBool (value : Bool) : Truth := if value then .true else .false

/-- The minimum of two truth values. -/
def conj : Truth → Truth → Truth
  | .false, _ => .false
  | _, .false => .false
  | .true, right => right
  | left, .true => left
  | .unknown, .unknown => .unknown

/-- The maximum of two truth values. -/
def disj : Truth → Truth → Truth
  | .true, _ => .true
  | _, .true => .true
  | .false, right => right
  | left, .false => left
  | .unknown, .unknown => .unknown

def neg : Truth → Truth
  | .false => .true
  | .unknown => .unknown
  | .true => .false

variable (left right : Truth)

@[simp] theorem conj_eq_true : left.conj right = .true ↔ left = .true ∧ right = .true := by
  revert left right; decide

@[simp] theorem disj_eq_true : left.disj right = .true ↔ left = .true ∨ right = .true := by
  revert left right; decide

@[simp] theorem disj_eq_false : left.disj right = .false ↔ left = .false ∧ right = .false := by
  revert left right; decide

variable (value : Truth) (first second third : Truth) (values : List Truth)

@[simp] theorem neg_neg : value.neg.neg = value := by
  revert value; decide

@[simp] theorem true_conj : Truth.true.conj value = value := by
  revert value; decide

@[simp] theorem conj_true : value.conj .true = value := by
  revert value; decide

@[simp] theorem false_disj : Truth.false.disj value = value := by
  revert value; decide

@[simp] theorem disj_false : value.disj .false = value := by
  revert value; decide

theorem neg_conj : (left.conj right).neg = left.neg.disj right.neg := by
  revert left right; decide

theorem neg_disj : (left.disj right).neg = left.neg.conj right.neg := by
  revert left right; decide

theorem conj_assoc : (first.conj second).conj third = first.conj (second.conj third) := by
  revert first second third; decide

theorem disj_assoc : (first.disj second).disj third = first.disj (second.disj third) := by
  revert first second third; decide

def any (values : List Truth) : Truth := values.foldr disj .false

@[simp] theorem any_nil : any [] = .false := rfl

@[simp] theorem any_cons (first : Truth) (rest : List Truth) :
    any (first :: rest) = first.disj (any rest) := rfl

theorem any_eq_true : any values = .true ↔ .true ∈ values := by
  induction values with
  | nil => simp
  | cons first rest ih => rw [any_cons, disj_eq_true, ih, List.mem_cons, eq_comm]

theorem any_eq_false : any values = .false ↔ ∀ value ∈ values, value = .false := by
  induction values with
  | nil => simp
  | cons first rest ih => rw [any_cons, disj_eq_false, ih, List.forall_mem_cons]

variable {first second : Truth}

theorem eq_of_agree (onTrue : first = .true ↔ second = .true)
    (onFalse : first = .false ↔ second = .false) : first = second := by
  revert first second; decide

theorem any_congr {first second : List Truth} (same : ∀ value, value ∈ first ↔ value ∈ second) :
    any first = any second := by
  apply eq_of_agree
  · rw [any_eq_true, any_eq_true, same]
  · simp only [any_eq_false, same]

def Agree (positive : Bool) (first second : Truth) : Prop :=
  if positive then first = .true ↔ second = .true else first = .false ↔ second = .false

instance (positive : Bool) (first second : Truth) : Decidable (Agree positive first second) :=
  inferInstanceAs (Decidable (if positive then _ else _))

theorem Agree.refl (positive : Bool) (value : Truth) : Agree positive value value := by
  cases positive <;> exact Iff.rfl

variable {positive : Bool} {a b c d : Truth}

theorem Agree.of_eq (same : first = second) :
    Agree positive first second := same ▸ Agree.refl positive first

theorem Agree.conj (first : Agree positive a b)
    (second : Agree positive c d) : Agree positive (a.conj c) (b.conj d) := by
  revert positive a b c d; decide

theorem Agree.disj (first : Agree positive a b)
    (second : Agree positive c d) : Agree positive (a.disj c) (b.disj d) := by
  revert positive a b c d; decide

theorem Agree.neg {a b : Truth} (opposite : Agree (!positive) a b) :
    Agree positive a.neg b.neg := by
  revert positive a b; decide

end Truth

end SecureFusion.Library
