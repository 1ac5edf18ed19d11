import Mathlib.Algebra.GroupWithZero.Nat

/-!
# Row-count estimates

The estimates that accompany every split of a filter. They order the candidate
plans; no decision of the filter code looks at the number itself, only at whether
an index reports one. Fractions of a table are 64-bit floats, as in the source.
-/

namespace SecureFusion.Filtering

def maxCount : Nat := 2 ^ 64 - 1

/-- An estimated count: known, approximated or unknown. -/
inductive Precision where
  | exact (count : Nat)
  | inexact (count : Nat)
  | absent

abbrev IndexSelectivity := Precision

namespace Precision

def getValue : Precision → Option Nat
  | .exact count => some count
  | .inexact count => some count
  | .absent => none

/-- Combines two counts; the result is exact when both operands are and no bound was met. -/
def combine (operation : Nat → Nat → Nat) (fits : Nat → Nat → Bool) :
    Precision → Precision → Precision
  | .exact a, .exact b => if fits a b then .exact (operation a b) else .inexact (operation a b)
  | .inexact a, .exact b => .inexact (operation a b)
  | .exact a, .inexact b => .inexact (operation a b)
  | .inexact a, .inexact b => .inexact (operation a b)
  | _, _ => .absent

def min : Precision → Precision → Precision := combine Nat.min fun _ _ => true

def add : Precision → Precision → Precision :=
  combine (fun a b => Nat.min (a + b) maxCount) fun a b => a + b ≤ maxCount

def sub : Precision → Precision → Precision := combine (· - ·) fun a b => b ≤ a

/-- The number of rows that a selectivity leaves. -/
def withEstimatedSelectivity (estimate : Precision) (selectivity : Float) : Precision :=
  match estimate.getValue with
  | some count => .inexact (Float.ofNat count * selectivity).ceil.toUInt64.toNat
  | none => .absent

end Precision

/-- Cardinalities of a table and of its index columns, as the server reports them. -/
structure TableStatistics where
  numRows : Precision
  indexingColumns : String → Option Precision

def TableStatistics.forEmptyTable : TableStatistics := ⟨.absent, fun _ => none⟩

/-- Fraction of the rows that one value of a column selects. -/
def TableStatistics.columnSelectivity (statistics : TableStatistics) (column : String) :
    Option Float :=
  ((statistics.indexingColumns column).bind Precision.getValue).map fun count =>
    if 1.0 / Float.ofNat count < 1.0 then 1.0 / Float.ofNat count else 1.0

end SecureFusion.Filtering
