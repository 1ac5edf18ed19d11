import SecureFusion.Library.Formula
import SecureFusion.Library.Outcome
import SecureFusion.Sql.Scalar
import SecureFusion.Filtering.Statistics

/-!
# Filter trees that indices understand

A filter expression of either planner becomes a tree of connectives over a few leaf shapes that an
index may answer; any other expression is an opaque leaf. The tree is rewritten (comparisons of one
column merged, negations moved) and then split into the part that an index answers and the part it
leaves. On a row, a tree denotes its propositional formula.
-/

namespace SecureFusion.Filtering

open Library Sql

/-- Comparison operators that an index may answer. -/
inductive EqualityOperator where
  | eq | gt | lt | ltEq | gtEq
deriving DecidableEq, Repr

namespace EqualityOperator

/-- The operator of the same comparison with its operands exchanged. -/
def inverseOrder : EqualityOperator → EqualityOperator
  | .eq => .eq
  | .gt => .lt
  | .lt => .gt
  | .ltEq => .gtEq
  | .gtEq => .ltEq

def isUpper : EqualityOperator → Bool
  | .lt | .ltEq => true
  | _ => false

def isLower : EqualityOperator → Bool
  | .gt | .gtEq => true
  | _ => false

end EqualityOperator

/-- A column, possibly under one cast. -/
structure ColumnWithCast where
  column : Column
  castTo : Option DataType
  /-- A failing cast gives null. -/
  orNull : Bool
deriving DecidableEq, Repr

namespace ColumnWithCast

def ofColumn (column : Column) : ColumnWithCast := ⟨column, none, false⟩

def raw (name : String) : ColumnWithCast := ⟨Column.fromName name, none, false⟩

/-- The column under a cast, which replaces any cast it had. -/
def cast (column : ColumnWithCast) (type : DataType) : ColumnWithCast :=
  ⟨column.column, some type, false⟩

/-- The column under a cast that may give null, which replaces any cast it had. -/
def tryCast (column : ColumnWithCast) (type : DataType) : ColumnWithCast :=
  ⟨column.column, some type, true⟩

end ColumnWithCast

/-- The left operand of a list membership test. -/
inductive ColumnOrTuple where
  | column (column : ColumnWithCast)
  | tuple (columns : List ColumnWithCast)
deriving DecidableEq, Repr

/-- A filter tree whose opaque leaves are expressions of type E. -/
inductive IndexableFilterExpr (E : Type) where
  | and (left right : IndexableFilterExpr E)
  | or (left right : IndexableFilterExpr E)
  | not (operand : IndexableFilterExpr E)
  /-- Comparison of a column with a value. -/
  | eq (column : ColumnWithCast) (operator : EqualityOperator) (value : ScalarValue)
  | between (column : ColumnWithCast) (low high : ScalarValue)
  /-- Membership in a set of values, listed in iteration order. -/
  | inList (column : ColumnOrTuple) (values : List ScalarValue)
  /-- Pattern match of a column. -/
  | kwSearchLike (column : ColumnWithCast) (pattern : String)
  /-- Keyword search over several columns. -/
  | kwMatch (columns : List Column) (searchString : String)
  | other (expr : E)
deriving DecidableEq, Repr

/-- Joins the parts of two operands, where both have one. -/
def recombine {α : Type} (left right : Option α) (combinator : α → α → α) : Option α :=
  match left, right with
  | some l, some r => some (combinator l r)
  | some a, none => some a
  | none, some a => some a
  | none, none => none

/-- Combines the members of a list from left to right, none if it is empty. -/
def reduce {α : Type} (combinator : α → α → α) : List α → Option α
  | [] => none
  | first :: rest => some (rest.foldl combinator first)

/-- What an index can answer. -/
structure SupportOptions (E : Type) where
  /-- The index answers negations of what it answers. -/
  supportsNot : Bool
  /-- The index answers disjunctions of what it answers. -/
  supportsOr : Bool
  /-- None when the index does not answer a node, an estimate when it does. -/
  isSupported : IndexableFilterExpr E → TableStatistics → Option IndexSelectivity

/-- The smaller of two non-null values of one comparable kind, the first one on ties. -/
def scalarMin : ScalarValue → ScalarValue → Option ScalarValue
  | .primitive s (some v), .primitive t (some w) =>
    if s.eraseParameters = t.eraseParameters ∧ comparable s then
      match s.key v, t.key w with
      | some a, some b =>
        if b < a then some (.primitive t (some w)) else some (.primitive s (some v))
      | _, _ => some (.primitive s (some v))
    else none
  | _, _ => none
where
  /-- Durations and intervals have no arm in the comparison. -/
  comparable : PrimitiveType → Bool
    | .duration _ => false
    | .intervalYearMonth => false
    | _ => true

namespace IndexableFilterExpr

variable {E : Type} (row : IndexableFilterExpr E → Truth)

/-- A tree as a formula over its leaves. -/
def formula : IndexableFilterExpr E → Formula (IndexableFilterExpr E)
  | .and left right => .and left.formula right.formula
  | .or left right => .or left.formula right.formula
  | .not operand => .not operand.formula
  | leaf => .atom leaf

/-- The value of a tree on a row, a truth value for each leaf. -/
def eval (row : IndexableFilterExpr E → Truth) (tree : IndexableFilterExpr E) : Truth :=
  tree.formula.eval row

/-- The leaves from left to right. -/
def leaves (tree : IndexableFilterExpr E) : List (IndexableFilterExpr E) := tree.formula.atoms

@[simp] theorem eval_and (left right) :
    (and left right).eval row = (left.eval row).conj (right.eval row) := rfl

@[simp] theorem eval_or (left right) :
    (or left right).eval row = (left.eval row).disj (right.eval row) := rfl

@[simp] theorem eval_not (operand) :
    (not operand).eval row = (operand.eval row).neg := rfl

/-- One comparison in place of two comparisons of the same column, none for other operands. -/
def mergeCmp : IndexableFilterExpr E → IndexableFilterExpr E → Option (IndexableFilterExpr E)
  | .eq leftCol leftOperator leftValue, .eq rightCol rightOperator rightValue =>
    if leftOperator ≠ .eq ∧ rightOperator ≠ .eq ∧ leftCol = rightCol then
      let unchanged := and (.eq leftCol leftOperator leftValue) (.eq rightCol rightOperator rightValue)
      match scalarMin leftValue rightValue with
      | none => some unchanged
      | some minimum =>
        let minIsLeft : Bool := minimum = leftValue
        if leftOperator.isUpper && rightOperator.isUpper then
          some (if minIsLeft then .eq leftCol leftOperator leftValue
            else .eq leftCol rightOperator rightValue)
        else if leftOperator.isLower && rightOperator.isLower then
          some (if minIsLeft then .eq leftCol rightOperator rightValue
            else .eq leftCol leftOperator leftValue)
        else if leftOperator.isLower && rightOperator.isUpper && minIsLeft then
          some (.between leftCol leftValue rightValue)
        else if leftOperator.isUpper && rightOperator.isLower && !minIsLeft then
          some (.between leftCol rightValue leftValue)
        else some unchanged
    else none
  | _, _ => none

/-- Rewrites two bounds on one column as one bound or as a range. -/
def optimizeCmp : IndexableFilterExpr E → IndexableFilterExpr E
  | .and left right =>
    match mergeCmp left right with
    | some merged => merged
    | none => .and left.optimizeCmp right.optimizeCmp
  | .or left right => .or left.optimizeCmp right.optimizeCmp
  | leaf => leaf

/-- The two parts of a split and the estimate for the supported one. -/
abbrev Split (E : Type) :=
  Option (IndexableFilterExpr E) × Option (IndexableFilterExpr E) × IndexSelectivity

/-- How the parts of two operands of a disjunction are combined. -/
def splitOr (statistics : TableStatistics) : Split E → Split E → Split E
  | (lSupp, lUnsupp, lSel), (rSupp, rUnsupp, rSel) =>
    if (lSupp.isSome && rSupp.isSome && lUnsupp.isNone && rUnsupp.isNone) ||
        (lSupp.isNone && rSupp.isNone && lUnsupp.isSome && rUnsupp.isSome) then
      (recombine lSupp rSupp .or, recombine lUnsupp rUnsupp .or, lSel.add rSel)
    else if lUnsupp.isNone then
      (recombine lSupp rSupp .or, recombine lSupp rUnsupp .or, lSel.add rSel)
    else if rUnsupp.isNone then
      (recombine lSupp rSupp .or, recombine lUnsupp rSupp .or, lSel.add rSel)
    else
      (none, recombine (recombine lSupp lUnsupp .and) (recombine rSupp rUnsupp .and) .or,
        statistics.numRows)

/-- Splits a tree into the part an index answers and the part it leaves. -/
def splitIntoSupportedUnsupported (options : SupportOptions E) (statistics : TableStatistics)
    (tree : IndexableFilterExpr E) : Split E :=
  match options.isSupported tree statistics with
  | some selectivity => (some tree, none, selectivity)
  | none =>
    match tree with
    | .and left right =>
      let (lSupp, lUnsupp, lSel) := left.splitIntoSupportedUnsupported options statistics
      let (rSupp, rUnsupp, rSel) := right.splitIntoSupportedUnsupported options statistics
      (recombine lSupp rSupp .and, recombine lUnsupp rUnsupp .and, lSel.min rSel)
    | .or left right =>
      if options.supportsOr then
        splitOr statistics (left.splitIntoSupportedUnsupported options statistics)
          (right.splitIntoSupportedUnsupported options statistics)
      else (none, some (.or left right), statistics.numRows)
    | .not operand =>
      if options.supportsNot then
        let (supp, unsupp, sel) := operand.splitIntoSupportedUnsupported options statistics
        (supp.map .not, unsupp.map .not, statistics.numRows.sub sel)
      else (none, some (.not operand), statistics.numRows)
    | leaf => (none, some leaf, statistics.numRows)

/-- A tree of conjunctions and disjunctions of leaves that an index reports as supported. -/
def AllSupported (options : SupportOptions E) (statistics : TableStatistics) :
    IndexableFilterExpr E → Prop
  | .and left right => left.AllSupported options statistics ∧ right.AllSupported options statistics
  | .or left right => left.AllSupported options statistics ∧ right.AllSupported options statistics
  | .not _ => False
  | leaf => (options.isSupported leaf statistics).isSome

end IndexableFilterExpr

end SecureFusion.Filtering
