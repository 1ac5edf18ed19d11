import SecureFusion.Sql.Semantics

/-!
# Expressions of the planner

Logical and physical expressions with the cases that the filter conversions tell
apart. Decryption is a case of its own: a row stands for the values that a query
is about, so that a decrypted column has the value of the column. Everything else
(null tests, arithmetic, conditionals, subqueries, other functions) is a function
of its operands.
-/

namespace SecureFusion.Sql

open Library

/-- Logical expressions. -/
inductive Expr where
  | column (reference : Column)
  | literal (value : ScalarValue)
  | aliased (expr : Expr)
  /-- A call of the decryption function. -/
  | decrypt (expr : Expr)
  | cast (expr : Expr) (type : DataType)
  | tryCast (expr : Expr) (type : DataType)
  | binary (left : Expr) (operator : Operator) (right : Expr)
  | between (negated : Bool) (expr low high : Expr)
  | like (negated caseInsensitive : Bool) (escapeChar : Option Char) (expr pattern : Expr)
  | inList (negated : Bool) (expr : Expr) (list : List Expr)
  | not (expr : Expr)
  | isTrue (expr : Expr)
  | isFalse (expr : Expr)
  | isNotTrue (expr : Expr)
  | isNotFalse (expr : Expr)
  /-- A call of the keyword search function. -/
  | kwSearch (args : List Expr)
  | function (name : String) (args : List Expr)
  /-- A subquery or a reference to an outer query, with its operands. The expressions of the plan
  of the subquery, or the column of the outer query, are inside. -/
  | nested (kind : String) (operands inner : List Expr)

variable {accepts : Ordering → Bool} {operator : Operator} (negated : Bool) (caseInsensitive : Bool)

namespace Expr

def eliminateDecryptInExpr : Expr → Expr
  | .decrypt expr => expr
  | expr => expr

def literalText : Expr → Option String
  | .literal (.text _ (some text)) => some text
  | _ => none

def tryAsCol : Expr → Option Column
  | .column reference => some reference
  | _ => none

/-- The columns of a keyword search are of one table, a column without a table being of any. -/
def sameTable (columns : List Column) : Bool :=
  match columns.filterMap Column.relation with
  | [] => true
  | table :: rest => rest.all (· = table)

/-- The columns and the search string of a keyword search, none if its arguments are invalid. -/
def splitArgs (args : List Expr) : Option (List Column × String) :=
  match args.reverse with
  | mode :: searchString :: reversedColumns => do
    guard (reversedColumns ≠ [])
    let text ← searchString.literalText
    let modeText ← mode.literalText
    guard (modeText = "BOOLEAN")
    let columns ← reversedColumns.reverse.mapM fun expr => expr.eliminateDecryptInExpr.tryAsCol
    guard (sameTable columns)
    some (columns, text)
  | _ => none

mutual

/-- The value of a logical expression on a row. -/
def eval (semantics : Semantics) (row : Row) : Expr → ScalarValue
  | .column reference => row reference.name
  | .literal value => value
  | .aliased expr => expr.eval semantics row
  | .decrypt expr => expr.eval semantics row
  | .cast expr type => semantics.castOrNull type (expr.eval semantics row)
  | .tryCast expr type => semantics.castOrNull type (expr.eval semantics row)
  | .binary left operator right =>
    let first := left.eval semantics row
    let second := right.eval semantics row
    match operator with
    | .and => .ofTruth (first.truth.conj second.truth)
    | .or => .ofTruth (first.truth.disj second.truth)
    | .other name => semantics.operator name first second
    | comparison => .ofTruth
      (semantics.compare (comparison.accepts.getD fun _ => false) first second)
  | .between negated expr low high => .ofTruth (negatedIf negated (semantics.between
      (expr.eval semantics row) (low.eval semantics row) (high.eval semantics row)))
  | .like negated caseInsensitive escapeChar expr pattern => .ofTruth (negatedIf negated
      (semantics.like caseInsensitive escapeChar (expr.eval semantics row)
        (pattern.eval semantics row)))
  | .inList negated expr list => .ofTruth (negatedIf negated
      (semantics.inList (expr.eval semantics row) (evalList semantics row list)))
  | .not expr => .ofTruth (expr.eval semantics row).truth.neg
  | .isTrue expr => .boolean (some ((expr.eval semantics row).truth = .true))
  | .isFalse expr => .boolean (some ((expr.eval semantics row).truth = .false))
  | .isNotTrue expr => .boolean (some ((expr.eval semantics row).truth ≠ .true))
  | .isNotFalse expr => .boolean (some ((expr.eval semantics row).truth ≠ .false))
  | .kwSearch args =>
    match splitArgs args with
    | some (columns, text) =>
      .ofTruth (semantics.kwMatch (columns.map fun column => row column.name) text)
    | none => semantics.function "kw_search" (evalList semantics row args)
  | .function name args => semantics.function name (evalList semantics row args)
  | .nested kind operands _ => semantics.function kind (evalList semantics row operands)

def evalList (semantics : Semantics) (row : Row) : List Expr → List ScalarValue
  | [] => []
  | expr :: rest => expr.eval semantics row :: evalList semantics row rest

end

mutual

/-- The columns that an expression refers to, not those inside a subquery. -/
def columnRefs : Expr → List Column
  | .column reference => [reference]
  | .literal _ => []
  | .aliased expr | .decrypt expr | .cast expr _ | .tryCast expr _ | .not expr | .isTrue expr
  | .isFalse expr | .isNotTrue expr | .isNotFalse expr => expr.columnRefs
  | .binary left _ right => left.columnRefs ++ right.columnRefs
  | .between _ expr low high => expr.columnRefs ++ low.columnRefs ++ high.columnRefs
  | .like _ _ _ expr pattern => expr.columnRefs ++ pattern.columnRefs
  | .inList _ expr list => expr.columnRefs ++ columnRefsList list
  | .kwSearch args => columnRefsList args
  | .function _ args => columnRefsList args
  | .nested _ operands _ => columnRefsList operands

def columnRefsList : List Expr → List Column
  | [] => []
  | expr :: rest => expr.columnRefs ++ columnRefsList rest

end

def truth (semantics : Semantics) (row : Row) (expr : Expr) : Truth :=
  (expr.eval semantics row).truth

section Truth

variable (semantics : Semantics) (row : Row) (expr : Expr)

@[simp] theorem truth_aliased :
    (aliased expr).truth semantics row = expr.truth semantics row := rfl

@[simp] theorem truth_decrypt :
    (decrypt expr).truth semantics row = expr.truth semantics row := rfl

@[simp] theorem truth_cast (type : DataType) : (cast expr type).truth semantics row =
    (semantics.castOrNull type (expr.eval semantics row)).truth := rfl

@[simp] theorem truth_tryCast (type : DataType) :
    (tryCast expr type).truth semantics row =
      (semantics.castOrNull type (expr.eval semantics row)).truth := rfl

@[simp] theorem truth_and (left right : Expr) : (binary left .and right).truth semantics row =
    (left.truth semantics row).conj (right.truth semantics row) :=
  ScalarValue.truth_ofTruth _

@[simp] theorem truth_or (left right : Expr) : (binary left .or right).truth semantics row =
    (left.truth semantics row).disj (right.truth semantics row) :=
  ScalarValue.truth_ofTruth _

theorem truth_comparison (left right : Expr)
    (is : operator.accepts = some accepts) : (binary left operator right).truth semantics row =
      semantics.compare accepts (left.eval semantics row) (right.eval semantics row) := by
  cases operator <;> cases is <;> exact ScalarValue.truth_ofTruth _

@[simp] theorem truth_between (expr low high : Expr) :
    (between negated expr low high).truth semantics row = negatedIf negated (semantics.between
      (expr.eval semantics row) (low.eval semantics row) (high.eval semantics row)) :=
  ScalarValue.truth_ofTruth _

@[simp] theorem truth_like (escapeChar : Option Char) (expr pattern : Expr) :
    (like negated caseInsensitive escapeChar expr pattern).truth semantics row =
      negatedIf negated (semantics.like caseInsensitive escapeChar (expr.eval semantics row)
        (pattern.eval semantics row)) :=
  ScalarValue.truth_ofTruth _

@[simp] theorem truth_inList (expr : Expr) (list : List Expr) :
    (inList negated expr list).truth semantics row = negatedIf negated
      (semantics.inList (expr.eval semantics row) (evalList semantics row list)) :=
  ScalarValue.truth_ofTruth _

@[simp] theorem truth_not : (not expr).truth semantics row = (expr.truth semantics row).neg :=
  ScalarValue.truth_ofTruth _

@[simp] theorem truth_isTrue :
    (isTrue expr).truth semantics row = .ofBool (expr.truth semantics row = .true) := rfl

@[simp] theorem truth_isFalse :
    (isFalse expr).truth semantics row = .ofBool (expr.truth semantics row = .false) := rfl

@[simp] theorem truth_isNotTrue :
    (isNotTrue expr).truth semantics row = .ofBool (expr.truth semantics row ≠ .true) := rfl

@[simp] theorem truth_isNotFalse :
    (isNotFalse expr).truth semantics row = .ofBool (expr.truth semantics row ≠ .false) := rfl

end Truth

end Expr

/-- Physical expressions. -/
inductive PhysicalExpr where
  | column (name : String)
  | literal (value : ScalarValue)
  | cast (expr : PhysicalExpr) (type : DataType)
  | tryCast (expr : PhysicalExpr) (type : DataType)
  | binary (left : PhysicalExpr) (operator : Operator) (right : PhysicalExpr)
  | like (negated caseInsensitive : Bool) (expr pattern : PhysicalExpr)
  | inList (negated : Bool) (expr : PhysicalExpr) (list : List PhysicalExpr)
  | not (expr : PhysicalExpr)
  /-- A call of the decryption function. -/
  | decrypt (expr : PhysicalExpr)
  /-- A call of the function that makes a tuple of its arguments. -/
  | struct (args : List PhysicalExpr)
  | function (name : String) (args : List PhysicalExpr)

namespace PhysicalExpr

mutual

def eval (semantics : Semantics) (row : Row) : PhysicalExpr → ScalarValue
  | .column name => row name
  | .literal value => value
  | .cast expr type => semantics.castOrNull type (expr.eval semantics row)
  | .tryCast expr type => semantics.castOrNull type (expr.eval semantics row)
  | .binary left operator right =>
    let first := left.eval semantics row
    let second := right.eval semantics row
    match operator with
    | .and => .ofTruth (first.truth.conj second.truth)
    | .or => .ofTruth (first.truth.disj second.truth)
    | .other name => semantics.operator name first second
    | comparison => .ofTruth
      (semantics.compare (comparison.accepts.getD fun _ => false) first second)
  | .like negated caseInsensitive expr pattern => .ofTruth (negatedIf negated
      (semantics.like caseInsensitive none (expr.eval semantics row) (pattern.eval semantics row)))
  | .inList negated expr list => .ofTruth (negatedIf negated
      (semantics.inList (expr.eval semantics row) (evalList semantics row list)))
  | .not expr => .ofTruth (expr.eval semantics row).truth.neg
  | .decrypt expr => expr.eval semantics row
  | .struct args => .struct (evalList semantics row args)
  | .function name args => semantics.function name (evalList semantics row args)

def evalList (semantics : Semantics) (row : Row) : List PhysicalExpr → List ScalarValue
  | [] => []
  | expr :: rest => expr.eval semantics row :: evalList semantics row rest

end

def truth (semantics : Semantics) (row : Row) (expr : PhysicalExpr) : Truth :=
  (expr.eval semantics row).truth

section Truth

variable (semantics : Semantics) (row : Row) (left right : PhysicalExpr)

@[simp] theorem truth_cast (expr : PhysicalExpr) (type : DataType) :
    (cast expr type).truth semantics row =
      (semantics.castOrNull type (expr.eval semantics row)).truth := rfl

@[simp] theorem truth_tryCast (expr : PhysicalExpr) (type : DataType) :
    (tryCast expr type).truth semantics row =
      (semantics.castOrNull type (expr.eval semantics row)).truth := rfl

@[simp] theorem truth_and :
    (binary left .and right).truth semantics row =
      (left.truth semantics row).conj (right.truth semantics row) :=
  ScalarValue.truth_ofTruth _

@[simp] theorem truth_or :
    (binary left .or right).truth semantics row =
      (left.truth semantics row).disj (right.truth semantics row) :=
  ScalarValue.truth_ofTruth _

theorem truth_comparison (is : operator.accepts = some accepts) :
    (binary left operator right).truth semantics row =
      semantics.compare accepts (left.eval semantics row) (right.eval semantics row) := by
  cases operator <;> cases is <;> exact ScalarValue.truth_ofTruth _

@[simp] theorem truth_like (expr pattern : PhysicalExpr) :
    (like negated caseInsensitive expr pattern).truth semantics row =
      negatedIf negated (semantics.like caseInsensitive none (expr.eval semantics row)
        (pattern.eval semantics row)) :=
  ScalarValue.truth_ofTruth _

@[simp] theorem truth_inList (expr : PhysicalExpr) (list : List PhysicalExpr) :
    (inList negated expr list).truth semantics row = negatedIf negated
      (semantics.inList (expr.eval semantics row) (evalList semantics row list)) :=
  ScalarValue.truth_ofTruth _

@[simp] theorem truth_not (expr : PhysicalExpr) :
    (not expr).truth semantics row = (expr.truth semantics row).neg :=
  ScalarValue.truth_ofTruth _

@[simp] theorem truth_decrypt (expr : PhysicalExpr) :
    (decrypt expr).truth semantics row = expr.truth semantics row := rfl

end Truth

end PhysicalExpr

end SecureFusion.Sql
