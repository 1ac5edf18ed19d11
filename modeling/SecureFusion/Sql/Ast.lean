import SecureFusion.Sql.Expr

/-!
# Expressions of the server

The part of the server's expression grammar that filters are rewritten to. An
expression of the planner that is handed to the unparser as a whole keeps its
meaning and stands as a leaf. Nothing here adds parentheses: a tree is text only
once a query is printed.
-/

namespace SecureFusion.Sql

open Library

/-- Expressions of the server. -/
inductive AstExpr where
  | identifier (name : String)
  | compoundIdentifier (table name : String)
  | value (value : ScalarValue)
  | cast (orNull : Bool) (expr : AstExpr) (type : DataType)
  | binaryOp (left : AstExpr) (op : Operator) (right : AstExpr)
  | unaryNot (expr : AstExpr)
  | between (negated : Bool) (expr low high : AstExpr)
  | inList (negated : Bool) (expr : AstExpr) (list : List AstExpr)
  | like (negated : Bool) (expr pattern : AstExpr)
  | tuple (exprs : List AstExpr)
  /-- What the unparser makes of an expression of the planner. -/
  | unparsed (expr : Expr)

namespace AstExpr

def and (left right : AstExpr) : AstExpr := .binaryOp left .and right

def or (left right : AstExpr) : AstExpr := .binaryOp left .or right

mutual

/-- The value of a server expression on a row. -/
def eval (semantics : Semantics) (row : Row) : AstExpr → ScalarValue
  | .identifier name => row name
  | .compoundIdentifier _ name => row name
  | .value literal => literal
  | .cast _ expr type => semantics.castOrNull type (expr.eval semantics row)
  | .binaryOp left op right =>
    let first := left.eval semantics row
    let second := right.eval semantics row
    match op with
    | .and => .ofTruth (first.truth.conj second.truth)
    | .or => .ofTruth (first.truth.disj second.truth)
    | .other name => semantics.operator name first second
    | comparison => .ofTruth
      (semantics.compare (comparison.accepts.getD fun _ => false) first second)
  | .unaryNot expr => .ofTruth (expr.eval semantics row).truth.neg
  | .between negated expr low high => .ofTruth (negatedIf negated (semantics.between
      (expr.eval semantics row) (low.eval semantics row) (high.eval semantics row)))
  | .inList negated expr list => .ofTruth (negatedIf negated
      (semantics.inList (expr.eval semantics row) (evalList semantics row list)))
  | .like negated expr pattern => .ofTruth (negatedIf negated
      (semantics.like false none (expr.eval semantics row) (pattern.eval semantics row)))
  | .tuple exprs => .struct (evalList semantics row exprs)
  | .unparsed expr => expr.eval semantics row

def evalList (semantics : Semantics) (row : Row) : List AstExpr → List ScalarValue
  | [] => []
  | expr :: rest => expr.eval semantics row :: evalList semantics row rest

end

variable (semantics : Semantics)

theorem evalList_eq_map (row : Row) (exprs : List AstExpr) :
    evalList semantics row exprs = exprs.map (eval semantics row) := by
  induction exprs with
  | nil => rfl
  | cons expr rest ih => rw [evalList, ih, List.map_cons]

def truth (semantics : Semantics) (row : Row) (expr : AstExpr) : Truth :=
  (expr.eval semantics row).truth

@[simp] theorem truth_and (row : Row) (left right : AstExpr) :
    (left.and right).truth semantics row =
      (left.truth semantics row).conj (right.truth semantics row) :=
  ScalarValue.truth_ofTruth _

@[simp] theorem truth_or (row : Row) (left right : AstExpr) :
    (left.or right).truth semantics row =
      (left.truth semantics row).disj (right.truth semantics row) :=
  ScalarValue.truth_ofTruth _

@[simp] theorem truth_unaryNot (row : Row) (expr : AstExpr) :
    (unaryNot expr).truth semantics row = (expr.truth semantics row).neg :=
  ScalarValue.truth_ofTruth _

end AstExpr

end SecureFusion.Sql
