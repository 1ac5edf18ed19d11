import SecureFusion.Filtering.Evaluation

/-!
# Logical filters as filter trees

The conversion of a logical filter expression to a filter tree, and of a tree back
to a server expression. Casts of literals are carried out during the conversion,
by the planner's cast, which is a parameter.
-/

namespace SecureFusion.Filtering

open Library Sql

abbrev IndexableLogicalExpr := IndexableFilterExpr Expr

section Conversion

variable (castTo : DataType → ScalarValue → Option ScalarValue)

/-- The literal below aliases and casts. -/
def asScalarValueLogical : Expr → Option ScalarValue
  | .literal value => some value
  | .aliased expr => asScalarValueLogical expr
  | .cast expr type => do castTo type (← asScalarValueLogical expr)
  | .tryCast expr type => do castTo type (← asScalarValueLogical expr)
  | _ => none

/-- The column under aliases and casts, and under one decryption at each level; the flag says
whether the decryption of this level is already stripped. -/
def asColumnLogicalFrom : (stripped : Bool) → Expr → Option ColumnWithCast
  | false, .decrypt expr => asColumnLogicalFrom true expr
  | _, .column reference => some (.ofColumn reference)
  | _, .aliased expr => asColumnLogicalFrom false expr
  | _, .cast expr type => (asColumnLogicalFrom false expr).map (·.cast type)
  | _, .tryCast expr type => (asColumnLogicalFrom false expr).map (·.tryCast type)
  | _, _ => none

def asColumnLogical (expr : Expr) : Option ColumnWithCast := asColumnLogicalFrom false expr

/-- The comparison of a column with a value that a binary expression is. -/
def comparisonLogical (left : Expr) (operator : Operator) (right : Expr) :
    Option IndexableLogicalExpr :=
  IndexableFilterExpr.comparison operator (asScalarValueLogical castTo left) (asScalarValueLogical castTo right)
    (asColumnLogical left) (asColumnLogical right)

/-- The leaf of a range test. -/
def betweenLogical (expr low high : Expr) : Option IndexableLogicalExpr := do
  let column ← asColumnLogical expr
  let low ← asScalarValueLogical castTo low
  let high ← asScalarValueLogical castTo high
  some (.between column low high)

/-- The pattern match of a column that an expression is. -/
def likeLogical (expr pattern : Expr) : Option IndexableLogicalExpr :=
  IndexableFilterExpr.patternMatch (asColumnLogical expr) (asScalarValueLogical castTo pattern)

/-- The membership test of a column that an expression is; the values are a set. -/
def inListLogical (expr : Expr) (list : List Expr) : Option IndexableLogicalExpr :=
  IndexableFilterExpr.membership ((asColumnLogical expr).map .column)
    (list.mapM (asScalarValueLogical castTo))

/-- The keyword search that the arguments of the function are. -/
def kwMatchLogical (args : List Expr) : Option IndexableLogicalExpr := do
  let (columns, searchString) ← Expr.splitArgs args
  some (.kwMatch columns searchString)

/-- Converts an expression below a stripped decryption, if there was one. -/
def ofExprBelow : (decrypted : Option Expr) → Expr → IndexableLogicalExpr
  | none, .decrypt expr => ofExprBelow (some (.decrypt expr)) expr
  | some _, .decrypt expr => .other (.decrypt expr)
  | _, .aliased expr => ofExprBelow none expr
  | decrypted, .column reference => .other (decrypted.getD (.column reference))
  | decrypted, .literal value => .other (decrypted.getD (.literal value))
  | _, .between negated expr low high =>
    (betweenLogical castTo expr low high).getD (.other (.between negated expr low high))
  | _, .binary left operator right =>
    match operator with
    | .and => .and (ofExprBelow none left) (ofExprBelow none right)
    | .or => .or (ofExprBelow none left) (ofExprBelow none right)
    | operator =>
      (comparisonLogical castTo left operator right).getD (.other (.binary left operator right))
  | decrypted, .like negated caseInsensitive escapeChar expr pattern =>
    (likeLogical castTo expr pattern).getD
      (.other (decrypted.getD (.like negated caseInsensitive escapeChar expr pattern)))
  | decrypted, .inList negated expr list =>
    (inListLogical castTo expr list).getD (.other (decrypted.getD (.inList negated expr list)))
  | decrypted, .kwSearch args =>
    (kwMatchLogical args).getD (.other (decrypted.getD (.kwSearch args)))
  | _, .not expr => .not (ofExprBelow none expr)
  | _, .isFalse expr => .not (ofExprBelow none expr)
  | _, .isNotTrue expr => .not (ofExprBelow none expr)
  | _, .isTrue expr => ofExprBelow none expr
  | _, .isNotFalse expr => ofExprBelow none expr
  | _, .cast expr _ => ofExprBelow none expr
  | _, .tryCast expr _ => ofExprBelow none expr
  | decrypted, .function name args => .other (decrypted.getD (.function name args))
  | decrypted, .nested kind operands inner =>
    .other (decrypted.getD (.nested kind operands inner))

/-- The tree of a logical filter. -/
def IndexableLogicalExpr.ofExpr (expr : Expr) : IndexableLogicalExpr :=
  ofExprBelow castTo none expr

end Conversion

/-- The server expression of a tree over logical expressions. -/
def IndexableLogicalExpr.toAst (tree : IndexableLogicalExpr) : Option AstExpr :=
  tree.toAstWith (fun expr => some (.unparsed expr)) .value

/-- What the unparser of the planner can write; the conversion unwraps its results. -/
structure Unparser where
  value : ScalarValue → Bool
  expr : Expr → Bool
  dataType : DataType → Bool

namespace Unparser

variable (unparser : Unparser)

def column (column : ColumnWithCast) : Bool := column.castTo.all unparser.dataType

/-- No unwrapped result of the unparser panics in the conversion of a leaf. -/
def leaf : IndexableLogicalExpr → Bool
  | .eq column _ value => unparser.column column && unparser.value value
  | .between column low high =>
    unparser.column column && unparser.value low && unparser.value high
  | .inList (.column column) values => unparser.column column && values.all unparser.value
  | .inList (.tuple columns) values =>
    columns.all unparser.column && values.all unparser.value
  | .kwSearchLike column _ => unparser.column column
  | .other expr => unparser.expr expr
  | .kwMatch _ _ | .and _ _ | .or _ _ | .not _ => true

end Unparser

/-! ## Operands -/

variable {semantics : Semantics} {row : Row} {expr : Expr} {stripped : Bool}
  {column : ColumnWithCast}

theorem eval_of_asScalarValueLogical {value : ScalarValue}
    (read : asScalarValueLogical semantics.cast expr = some value) :
    expr.eval semantics row = value := by
  fun_induction asScalarValueLogical semantics.cast expr generalizing value with
  | case1 literal => simpa [Expr.eval] using read
  | case2 expr ih =>
    rw [Expr.eval]
    exact ih read
  | case3 expr type ih | case4 expr type ih =>
    simp only [bind_some_iff] at read
    obtain ⟨inner, readInner, casted⟩ := read
    rw [Expr.eval, ih readInner, Semantics.castOrNull, casted]
    rfl
  | case5 => cases read

/-- No cast is below aliases and decryptions. -/
def castFreeLogical : Expr → Bool
  | .aliased expr => castFreeLogical expr
  | .decrypt expr => castFreeLogical expr
  | .cast _ _ => false
  | .tryCast _ _ => false
  | _ => true

/-- No cast of a column over another cast; a literal may be cast any number of times. -/
def singleCastLogical : Expr → Bool
  | .aliased expr => singleCastLogical expr
  | .decrypt expr => singleCastLogical expr
  | .cast expr _ => castFreeLogical expr || (asColumnLogical expr).isNone
  | .tryCast expr _ => castFreeLogical expr || (asColumnLogical expr).isNone
  | _ => true

theorem eval_of_asColumnLogicalFrom_castFreeLogical
    (read : asColumnLogicalFrom stripped expr = some column) (free : castFreeLogical expr) :
    column.castTo = none ∧ row column.column.name = expr.eval semantics row := by
  fun_induction asColumnLogicalFrom stripped expr generalizing column with
  | case1 expr ih =>
    rw [Expr.eval]
    exact ih read free
  | case2 _ reference =>
    cases read
    exact ⟨rfl, by rw [Expr.eval]; rfl⟩
  | case3 _ expr ih =>
    rw [Expr.eval]
    exact ih read free
  | case4 | case5 => cases free
  | case6 => cases read

theorem value_of_asColumnLogicalFrom (read : asColumnLogicalFrom stripped expr = some column)
    (single : singleCastLogical expr) :
    column.value semantics row = expr.eval semantics row := by
  fun_induction asColumnLogicalFrom stripped expr generalizing column with
  | case1 expr ih =>
    rw [Expr.eval]
    exact ih read single
  | case2 _ reference =>
    cases read
    rw [Expr.eval]
    rfl
  | case3 _ expr ih =>
    rw [Expr.eval]
    exact ih read single
  | case4 _ expr type ih | case5 _ expr type ih =>
    rw [Option.map_eq_some_iff] at read
    obtain ⟨inner, readInner, rfl⟩ := read
    have free : castFreeLogical expr := by
      simpa [singleCastLogical, asColumnLogical, readInner] using single
    have plain := @eval_of_asColumnLogicalFrom_castFreeLogical semantics row _ _ _ readInner free
    rw [Expr.eval, ← plain.2]
    rfl
  | case6 => cases read

theorem asColumnLogicalFrom_of_value (isValue : (asScalarValueLogical semantics.cast expr).isSome) :
    asColumnLogicalFrom stripped expr = none := by
  fun_induction asColumnLogicalFrom stripped expr with
  | case1 | case2 => cases isValue
  | case3 _ expr ih => exact ih isValue
  | case4 _ expr type ih | case5 _ expr type ih =>
    have inner : (asScalarValueLogical semantics.cast expr).isSome := by
      simp only [asScalarValueLogical, Option.bind_eq_bind] at isValue
      exact Option.isSome_of_isSome_bind isValue
    rw [ih inner]
    rfl
  | case6 => rfl

theorem evalList_of_mapM_asScalarValueLogical {list : List Expr} {values : List ScalarValue}
    (read : list.mapM (asScalarValueLogical semantics.cast) = some values) :
    Expr.evalList semantics row list = values := by
  have each := (Rows.mapM_eq_some_iff _ _ _).mp read
  clear read
  induction each with
  | nil => rfl
  | cons readFirst _ ih => rw [Expr.evalList, eval_of_asScalarValueLogical readFirst, ih]

end SecureFusion.Filtering
