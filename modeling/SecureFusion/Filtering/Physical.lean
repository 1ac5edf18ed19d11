import SecureFusion.Filtering.Evaluation

/-!
# Physical filters as filter trees

The conversion of a physical filter expression to a filter tree, and of a tree back
to a server expression, which fails on an opaque leaf. A membership test may be
about a tuple of columns, written with the function that makes a struct.
-/

namespace SecureFusion.Filtering

open Library Sql

abbrev IndexablePhysicalExpr := IndexableFilterExpr PhysicalExpr

section Conversion

variable (castTo : DataType → ScalarValue → Option ScalarValue)

/-- The literal below casts. -/
def asScalarValuePhysical : PhysicalExpr → Option ScalarValue
  | .literal value => some value
  | .cast expr type => do castTo type (← asScalarValuePhysical expr)
  | .tryCast expr type => do castTo type (← asScalarValuePhysical expr)
  | _ => none

/-- The column below casts. -/
def asColumnPhysical : PhysicalExpr → Option ColumnWithCast
  | .column name => some (.raw name)
  | .cast expr type => (asColumnPhysical expr).map (·.cast type)
  | .tryCast expr type => (asColumnPhysical expr).map (·.tryCast type)
  | _ => none

/-- A column, or a struct of columns. -/
def asColumnsPhysical (expr : PhysicalExpr) : Option ColumnOrTuple :=
  match asColumnPhysical expr with
  | some column => some (.column column)
  | none =>
    match expr with
    | .struct args => (args.mapM asColumnPhysical).map .tuple
    | _ => none

/-- The comparison of a column with a value that a binary expression is. -/
def comparisonPhysical (left : PhysicalExpr) (operator : Operator) (right : PhysicalExpr) :
    Option IndexablePhysicalExpr :=
  IndexableFilterExpr.comparison operator (asScalarValuePhysical castTo left)
    (asScalarValuePhysical castTo right) (asColumnPhysical left) (asColumnPhysical right)

/-- The pattern match of a column that an expression is. -/
def likePhysical (expr pattern : PhysicalExpr) : Option IndexablePhysicalExpr :=
  IndexableFilterExpr.patternMatch (asColumnPhysical expr) (asScalarValuePhysical castTo pattern)

/-- The membership test of columns that an expression is; the values are a set. -/
def inListPhysical (expr : PhysicalExpr) (list : List PhysicalExpr) :
    Option IndexablePhysicalExpr :=
  IndexableFilterExpr.membership (asColumnsPhysical expr)
    (list.mapM (asScalarValuePhysical castTo))

/-- The tree of a physical filter. -/
def IndexablePhysicalExpr.ofExpr : PhysicalExpr → IndexablePhysicalExpr
  | .binary left operator right =>
    match operator with
    | .and => .and (ofExpr left) (ofExpr right)
    | .or => .or (ofExpr left) (ofExpr right)
    | operator =>
      (comparisonPhysical castTo left operator right).getD (.other (.binary left operator right))
  | .like negated caseInsensitive expr pattern =>
    (likePhysical castTo expr pattern).getD (.other (.like negated caseInsensitive expr pattern))
  | .inList negated expr list =>
    (inListPhysical castTo expr list).getD (.other (.inList negated expr list))
  | .not expr => .not (ofExpr expr)
  | .decrypt expr => ofExpr expr
  | .cast expr _ => ofExpr expr
  | .tryCast expr _ => ofExpr expr
  | .struct args => .other (.struct args)
  | .function name args => .other (.function name args)
  | .column name => .other (.column name)
  | .literal value => .other (.literal value)

end Conversion

mutual

/-- The server expression of a value, a struct being a tuple. -/
def scalarOrStructToExpr : ScalarValue → AstExpr
  | .struct fields => .tuple (fieldsToExprs fields)
  | value => .value value

def fieldsToExprs : List ScalarValue → List AstExpr
  | [] => []
  | value :: rest => scalarOrStructToExpr value :: fieldsToExprs rest

end

/-- The server expression of a tree over physical expressions. -/
def IndexablePhysicalExpr.toAst (tree : IndexablePhysicalExpr) : Option AstExpr :=
  tree.toAstWith (fun _ => none) scalarOrStructToExpr

/-! ## Operands -/

variable {semantics : Semantics} {row : Row} {expr : PhysicalExpr}

theorem eval_of_asScalarValuePhysical {value : ScalarValue}
    (read : asScalarValuePhysical semantics.cast expr = some value) :
    expr.eval semantics row = value := by
  fun_induction asScalarValuePhysical semantics.cast expr generalizing value with
  | case1 literal => simpa [PhysicalExpr.eval] using read
  | case2 expr type ih | case3 expr type ih =>
    simp only [bind_some_iff] at read
    obtain ⟨inner, readInner, casted⟩ := read
    rw [PhysicalExpr.eval, ih readInner, Semantics.castOrNull, casted]
    rfl
  | case4 => cases read

theorem asColumnPhysical_of_value (isValue : (asScalarValuePhysical semantics.cast expr).isSome) :
    asColumnPhysical expr = none := by
  fun_induction asColumnPhysical expr with
  | case1 => cases isValue
  | case2 expr type ih | case3 expr type ih =>
    have inner : (asScalarValuePhysical semantics.cast expr).isSome := by
      simp only [asScalarValuePhysical, Option.bind_eq_bind] at isValue
      exact Option.isSome_of_isSome_bind isValue
    rw [ih inner]
    rfl
  | case4 => rfl

def castFreePhysical : PhysicalExpr → Bool
  | .cast _ _ => false
  | .tryCast _ _ => false
  | _ => true

/-- No cast of a column over another cast; a literal may be cast any number of times. -/
def singleCastPhysical : PhysicalExpr → Bool
  | .cast expr _ => castFreePhysical expr || (asColumnPhysical expr).isNone
  | .tryCast expr _ => castFreePhysical expr || (asColumnPhysical expr).isNone
  | _ => true

/-- A tuple of operands without a cast over another cast, or one of them. -/
def singleCastsPhysical : PhysicalExpr → Bool
  | .struct args => args.all singleCastPhysical
  | expr => singleCastPhysical expr

theorem value_of_asColumnPhysical {column : ColumnWithCast}
    (read : asColumnPhysical expr = some column) (single : singleCastPhysical expr) :
    column.value semantics row = expr.eval semantics row := by
  -- Under a cast only the column itself is left.
  have plain : ∀ {inner : PhysicalExpr} {reference : ColumnWithCast},
      asColumnPhysical inner = some reference → castFreePhysical inner →
        row reference.column.name = inner.eval semantics row := by
    intro inner reference readInner free
    cases inner with
    | column name =>
      cases readInner
      rw [PhysicalExpr.eval]
      rfl
    | cast | tryCast => cases free
    | _ => cases readInner
  cases expr with
  | column name =>
    cases read
    rw [PhysicalExpr.eval]
    rfl
  | cast inner type | tryCast inner type =>
    simp only [asColumnPhysical, Option.map_eq_some_iff] at read
    obtain ⟨reference, readInner, rfl⟩ := read
    have free : castFreePhysical inner := by
      simpa [singleCastPhysical, readInner] using single
    rw [PhysicalExpr.eval, ← plain readInner free]
    rfl
  | _ => cases read

theorem values_of_mapM_asColumnPhysical {args : List PhysicalExpr} {columns : List ColumnWithCast}
    (read : args.mapM asColumnPhysical = some columns) (single : args.all singleCastPhysical) :
    columns.map (·.value semantics row) = PhysicalExpr.evalList semantics row args := by
  have each := (Rows.mapM_eq_some_iff _ _ _).mp read
  clear read
  induction each with
  | nil => rfl
  | cons readFirst _ ih =>
    rw [List.all_cons, Bool.and_eq_true] at single
    rw [List.map_cons, PhysicalExpr.evalList, value_of_asColumnPhysical readFirst single.1,
      ih single.2]

theorem value_of_asColumnsPhysical {columns : ColumnOrTuple}
    (read : asColumnsPhysical expr = some columns) (single : singleCastsPhysical expr) :
    columns.value semantics row = expr.eval semantics row := by
  unfold asColumnsPhysical at read
  split at read
  case h_1 column readColumn =>
    cases read
    have one : singleCastPhysical expr := by
      cases expr with
      | struct => cases readColumn
      | _ => exact single
    exact value_of_asColumnPhysical readColumn one
  case h_2 =>
    split at read
    case h_1 args =>
      rw [Option.map_eq_some_iff] at read
      obtain ⟨references, readAll, rfl⟩ := read
      rw [ColumnOrTuple.value, values_of_mapM_asColumnPhysical readAll single, PhysicalExpr.eval]
    case h_2 => cases read

theorem evalList_of_mapM_asScalarValuePhysical {list : List PhysicalExpr}
    {values : List ScalarValue}
    (read : list.mapM (asScalarValuePhysical semantics.cast) = some values) :
    PhysicalExpr.evalList semantics row list = values := by
  have each := (Rows.mapM_eq_some_iff _ _ _).mp read
  clear read
  induction each with
  | nil => rfl
  | cons readFirst _ ih => rw [PhysicalExpr.evalList, eval_of_asScalarValuePhysical readFirst, ih]

end SecureFusion.Filtering
