import SecureFusion.Filtering.IndexableFilter
import SecureFusion.Library.Rows
import SecureFusion.Sql.Ast

/-!
# Filter trees on rows

The meaning of the leaves of a filter tree: what they compute from the values of
a row, and the server expressions that they are rewritten to, which compute the
same.
-/

namespace SecureFusion.Filtering

open Library Sql Option

variable {operator : Operator} (semantics : Semantics)

namespace EqualityOperator

variable {comparison : EqualityOperator} {outcome : Ordering}

/-- The comparison that an operator is, if an index may answer it. -/
def ofOperator : Operator → Option EqualityOperator
  | .eq => some .eq
  | .lt => some .lt
  | .ltEq => some .ltEq
  | .gt => some .gt
  | .gtEq => some .gtEq
  | _ => none

def toOperator : EqualityOperator → Operator
  | .eq => .eq
  | .gt => .gt
  | .lt => .lt
  | .ltEq => .ltEq
  | .gtEq => .gtEq

/-- The outcomes of a comparison that an operator accepts. -/
def accepts : EqualityOperator → Ordering → Bool
  | .eq, outcome => outcome = .eq
  | .gt, outcome => outcome = .gt
  | .lt, outcome => outcome = .lt
  | .ltEq, outcome => outcome ≠ .gt
  | .gtEq, outcome => outcome ≠ .lt

theorem accepts_ofOperator (is : ofOperator operator = some comparison) :
    operator.accepts = some comparison.accepts := by
  cases operator <;> cases is <;> rfl

theorem accepts_inverseOrder (comparison : EqualityOperator) (outcome : Ordering) :
    comparison.inverseOrder.accepts outcome = comparison.accepts outcome.swap := by
  cases comparison <;> cases outcome <;> rfl

/-- The relation of two numbers that a comparison asks for. -/
def relation : EqualityOperator → Int → Int → Prop
  | .eq, left, right => left = right
  | .gt, left, right => right < left
  | .lt, left, right => left < right
  | .ltEq, left, right => left ≤ right
  | .gtEq, left, right => right ≤ left

theorem accepts_compare (comparison : EqualityOperator) (left right : Int) :
    comparison.accepts (Ord.compare left right) = true ↔ comparison.relation left right := by
  cases comparison <;>
    simp [accepts, relation, Int.compare_eq_lt, Int.compare_eq_gt]

theorem accepts_isLower (lower : comparison.isLower)
    (accepted : comparison.accepts outcome) : outcome ≠ .lt := by
  cases comparison <;> cases outcome <;> simp_all [isLower, accepts]

theorem accepts_isUpper (upper : comparison.isUpper)
    (accepted : comparison.accepts outcome) : outcome ≠ .gt := by
  cases comparison <;> cases outcome <;> simp_all [isUpper, accepts]

end EqualityOperator

theorem compare_inverseOrder (comparison : EqualityOperator) (left right : ScalarValue) :
    semantics.compare comparison.inverseOrder.accepts left right =
      semantics.compare comparison.accepts right left := by
  rw [semantics.compare_swap comparison.accepts left right]
  exact congrArg (fun accepted => semantics.compare accepted left right)
    (funext comparison.accepts_inverseOrder)

namespace ColumnWithCast

def value (semantics : Semantics) (row : Row) (column : ColumnWithCast) : ScalarValue :=
  match column.castTo with
  | none => row column.column.name
  | some type => semantics.castOrNull type (row column.column.name)

def toAst (column : ColumnWithCast) : AstExpr :=
  let base := match column.column.relation with
    | some relation => .compoundIdentifier relation.table column.column.name
    | none => .identifier column.column.name
  match column.castTo with
  | none => base
  | some type => .cast column.orNull base type

theorem eval_toAst (row : Row) (column : ColumnWithCast) :
    column.toAst.eval semantics row = column.value semantics row := by
  obtain ⟨⟨relation, name⟩, castTo, orNull⟩ := column
  cases relation <;> cases castTo <;> rfl

end ColumnWithCast

namespace ColumnOrTuple

def value (semantics : Semantics) (row : Row) : ColumnOrTuple → ScalarValue
  | .column one => one.value semantics row
  | .tuple columns => .struct (columns.map (·.value semantics row))

/-- The server expression of a column or of a tuple of columns. -/
def toAst : ColumnOrTuple → AstExpr
  | .column one => one.toAst
  | .tuple columns => .tuple (columns.map ColumnWithCast.toAst)

theorem eval_toAst (row : Row) (columns : ColumnOrTuple) :
    columns.toAst.eval semantics row = columns.value semantics row := by
  cases columns with
  | column one => exact one.eval_toAst semantics row
  | tuple columns =>
    have each : (ColumnWithCast.toAst · |>.eval semantics row) =
        (ColumnWithCast.value semantics row : ColumnWithCast → ScalarValue) :=
      funext fun column => column.eval_toAst semantics row
    rw [toAst, AstExpr.eval, AstExpr.evalList_eq_map, List.map_map, value]
    exact congrArg (fun read => ScalarValue.struct (columns.map read)) each

end ColumnOrTuple

namespace IndexableFilterExpr

variable {E : Type} {tree : IndexableFilterExpr E}
  {leafAnswer : IndexableFilterExpr E → Option AstExpr} {left right merged : IndexableFilterExpr E}
  {otherTruth : E → Truth} {sql : AstExpr}

def leafTruth (semantics : Semantics) (row : Row) (otherTruth : E → Truth) :
    IndexableFilterExpr E → Truth
  | .eq column operator value =>
    semantics.compare operator.accepts (column.value semantics row) value
  | .between column low high => semantics.between (column.value semantics row) low high
  | .inList columns values => semantics.inList (columns.value semantics row) values
  | .kwSearchLike column pattern =>
    semantics.like false none (column.value semantics row) (.text .utf8 (some pattern))
  | .kwMatch columns searchString =>
    semantics.kwMatch (columns.map fun column => row column.name) searchString
  | .other expr => otherTruth expr
  | .and _ _ | .or _ _ | .not _ => .unknown

def truth (semantics : Semantics) (row : Row) (otherTruth : E → Truth)
    (tree : IndexableFilterExpr E) : Truth :=
  tree.eval (leafTruth semantics row otherTruth)

section Connectives

variable (row : Row) (otherTruth : E → Truth) (left right : IndexableFilterExpr E)

@[simp] theorem truth_and :
    (and left right).truth semantics row otherTruth =
      (left.truth semantics row otherTruth).conj (right.truth semantics row otherTruth) := rfl

@[simp] theorem truth_or :
    (or left right).truth semantics row otherTruth =
      (left.truth semantics row otherTruth).disj (right.truth semantics row otherTruth) := rfl

@[simp] theorem truth_not (operand : IndexableFilterExpr E) :
    (not operand).truth semantics row otherTruth =
      (operand.truth semantics row otherTruth).neg := rfl

end Connectives

/-! ## Leaves from operands -/

/-- The comparison of a column with a value, from what the two operands were read as. -/
def comparison (operator : Operator) (valueLeft valueRight : Option ScalarValue)
    (columnLeft columnRight : Option ColumnWithCast) : Option (IndexableFilterExpr E) := do
  let eqOp ← EqualityOperator.ofOperator operator
  let eqOp := if valueLeft.isSome then eqOp.inverseOrder else eqOp
  let value ← valueLeft.or valueRight
  let column ← columnLeft.or columnRight
  some (.eq column eqOp value)

/-- The pattern match of a column, from what the two operands were read as. -/
def patternMatch (column : Option ColumnWithCast) (pattern : Option ScalarValue) :
    Option (IndexableFilterExpr E) := do
  let column ← column
  match ← pattern with
  | .text .utf8 (some pattern) => some (.kwSearchLike column pattern)
  | _ => none

/-- The membership test of columns in a set, from what the operands were read as. -/
def membership (columns : Option ColumnOrTuple) (values : Option (List ScalarValue)) :
    Option (IndexableFilterExpr E) := do
  let columns ← columns
  let values ← values
  some (.inList columns values.dedup)

section Operands

variable {leaf : IndexableFilterExpr E} {semantics : Semantics} {row : Row}

theorem truth_of_comparison {left right : ScalarValue} {valueLeft valueRight : Option ScalarValue}
    {columnLeft columnRight : Option ColumnWithCast}
    (leftValue : ∀ value, valueLeft = some value → left = value)
    (rightValue : ∀ value, valueRight = some value → right = value)
    (leftColumn : ∀ column, columnLeft = some column → column.value semantics row = left)
    (rightColumn : ∀ column, columnRight = some column → column.value semantics row = right)
    (leftOne : valueLeft.isSome → columnLeft = none)
    (rightOne : valueRight.isSome → columnRight = none)
    (made : comparison operator valueLeft valueRight columnLeft columnRight = some leaf) :
    ∃ accepts, operator.accepts = some accepts ∧
      leaf.truth semantics row otherTruth = semantics.compare accepts left right := by
  simp only [comparison, bind_some_iff, some.injEq] at made
  obtain ⟨eqOp, is, value, hasValue, column, hasColumn, rfl⟩ := made
  refine ⟨eqOp.accepts, EqualityOperator.accepts_ofOperator is, ?_⟩
  cases valueLeft with
  | some read =>
    -- The value is on the left, so the column is on the right and the operator is reversed.
    rw [leftOne rfl, none_or] at hasColumn
    rw [some_or, some.injEq] at hasValue
    have atLeft := leftValue read rfl
    have atRight := rightColumn column hasColumn
    rw [← atRight, atLeft, hasValue]
    exact compare_inverseOrder semantics eqOp _ _
  | none =>
    rw [none_or] at hasValue
    have unread : columnRight = none := rightOne (by rw [hasValue]; rfl)
    rw [unread, or_none] at hasColumn
    have atLeft := leftColumn column hasColumn
    have atRight := rightValue value hasValue
    rw [← atLeft, atRight]
    rfl

theorem truth_of_patternMatch {expr patternValue : ScalarValue} {column : Option ColumnWithCast}
    {pattern : Option ScalarValue}
    (columnRead : ∀ one, column = some one → one.value semantics row = expr)
    (patternRead : ∀ value, pattern = some value → patternValue = value)
    (made : patternMatch column pattern = some leaf) :
    leaf.truth semantics row otherTruth = semantics.like false none expr patternValue := by
  simp only [patternMatch, bind_some_iff] at made
  obtain ⟨one, isColumn, value, isValue, made⟩ := made
  have atColumn := columnRead one isColumn
  have atPattern := patternRead value isValue
  split at made
  case h_1 text =>
    cases made
    rw [← atColumn, atPattern]
    rfl
  case h_2 => cases made

theorem truth_of_membership {expr : ScalarValue} {list : List ScalarValue}
    {columns : Option ColumnOrTuple} {values : Option (List ScalarValue)}
    (columnsRead : ∀ some_, columns = some some_ → some_.value semantics row = expr)
    (valuesRead : ∀ some_, values = some some_ → list = some_)
    (made : membership columns values = some leaf) :
    leaf.truth semantics row otherTruth = semantics.inList expr list := by
  simp only [membership, bind_some_iff, some.injEq] at made
  obtain ⟨read, isColumns, readValues, areValues, rfl⟩ := made
  have atColumns := columnsRead read isColumns
  have atValues := valuesRead readValues areValues
  rw [← atColumns, atValues]
  exact semantics.inList_congr _ fun _ => List.mem_dedup

end Operands

/-! ## Rewriting to the server -/

/-- The server expression of a tree, given those of its opaque leaves and of the values of a
list; a keyword search has none. -/
def toAstWith (otherAst : E → Option AstExpr) (valueAst : ScalarValue → AstExpr) :
    IndexableFilterExpr E → Option AstExpr
  | .and left right => do
    some ((← left.toAstWith otherAst valueAst).and (← right.toAstWith otherAst valueAst))
  | .or left right => do
    some ((← left.toAstWith otherAst valueAst).or (← right.toAstWith otherAst valueAst))
  | .not operand => do some (.unaryNot (← operand.toAstWith otherAst valueAst))
  | .eq column operator value => some (.binaryOp column.toAst operator.toOperator (.value value))
  | .between column low high => some (.between false column.toAst (.value low) (.value high))
  | .inList columns values => some (.inList false columns.toAst (values.map valueAst))
  | .kwSearchLike column pattern =>
    some (.like false column.toAst (.value (.text .utf8 (some pattern))))
  | .kwMatch _ _ => none
  | .other expr => otherAst expr

theorem truth_toAstWith (row : Row) {otherAst : E → Option AstExpr}
    {valueAst : ScalarValue → AstExpr} (others : ∀ expr sql, otherAst expr = some sql →
      sql.truth semantics row = otherTruth expr)
    (values : ∀ value, (valueAst value).eval semantics row = value)
    (rebuilt : tree.toAstWith otherAst valueAst = some sql) :
    sql.truth semantics row = tree.truth semantics row otherTruth := by
  induction tree generalizing sql with
  | and left right ihLeft ihRight =>
    simp only [toAstWith, bind_some_iff, some.injEq] at rebuilt
    obtain ⟨leftSql, leftRebuilt, rightSql, rightRebuilt, rfl⟩ := rebuilt
    rw [AstExpr.truth_and, ihLeft leftRebuilt, ihRight rightRebuilt, truth_and]
  | or left right ihLeft ihRight =>
    simp only [toAstWith, bind_some_iff, some.injEq] at rebuilt
    obtain ⟨leftSql, leftRebuilt, rightSql, rightRebuilt, rfl⟩ := rebuilt
    rw [AstExpr.truth_or, ihLeft leftRebuilt, ihRight rightRebuilt, truth_or]
  | not operand ih =>
    simp only [toAstWith, bind_some_iff, some.injEq] at rebuilt
    obtain ⟨operandSql, operandRebuilt, rfl⟩ := rebuilt
    rw [AstExpr.truth_unaryNot, ih operandRebuilt, truth_not]
  | eq column operator value =>
    cases rebuilt
    have read := column.eval_toAst semantics row
    cases operator <;>
      simp only [AstExpr.truth, AstExpr.eval, EqualityOperator.toOperator, read,
        ScalarValue.truth_ofTruth] <;> rfl
  | between column low high =>
    cases rebuilt
    have read := column.eval_toAst semantics row
    simp only [AstExpr.truth, AstExpr.eval, read, ScalarValue.truth_ofTruth]
    rfl
  | inList columns list =>
    cases rebuilt
    have read := columns.eval_toAst semantics row
    have listed : AstExpr.evalList semantics row (list.map valueAst) = list := by
      rw [AstExpr.evalList_eq_map, List.map_map]
      exact (List.map_congr_left fun value _ => values value).trans (List.map_id _)
    simp only [AstExpr.truth, AstExpr.eval, read, listed, ScalarValue.truth_ofTruth]
    rfl
  | kwSearchLike column pattern =>
    cases rebuilt
    have read := column.eval_toAst semantics row
    simp only [AstExpr.truth, AstExpr.eval, read, ScalarValue.truth_ofTruth]
    rfl
  | kwMatch => cases rebuilt
  | other expr => exact others expr sql rebuilt

/-! ## Answers of an index -/

/-- The server expression that answers a tree, given the answers to its leaves. -/
def answerWith (leafAnswer : IndexableFilterExpr E → Option AstExpr) :
    IndexableFilterExpr E → Option AstExpr
  | .and left right => do
    some ((← left.answerWith leafAnswer).and (← right.answerWith leafAnswer))
  | .or left right => do
    some ((← left.answerWith leafAnswer).or (← right.answerWith leafAnswer))
  | .not _ => none
  | leaf => leafAnswer leaf

theorem exists_answerWith {options : SupportOptions E} {statistics : TableStatistics}
    (answered : ∀ leaf, (options.isSupported leaf statistics).isSome →
      ∃ sql, leafAnswer leaf = some sql) (supported : tree.AllSupported options statistics) :
    ∃ sql, tree.answerWith leafAnswer = some sql := by
  induction tree with
  | and left right ihLeft ihRight | or left right ihLeft ihRight =>
    obtain ⟨leftSql, leftMade⟩ := ihLeft supported.1
    obtain ⟨rightSql, rightMade⟩ := ihRight supported.2
    exact ⟨_, by rw [answerWith, leftMade, rightMade]; rfl⟩
  | not => cases supported
  | _ => exact answered _ supported

theorem answerWith_holds {semantics : Semantics} {row : Row}
    (covered : ∀ leaf ∈ tree.leaves, ∀ sql, leafAnswer leaf = some sql →
      leaf.truth semantics row otherTruth = .true → sql.truth semantics row = .true)
    (made : tree.answerWith leafAnswer = some sql)
    (holds : tree.truth semantics row otherTruth = .true) : sql.truth semantics row = .true := by
  induction tree generalizing sql with
  | and left right ihLeft ihRight =>
    simp only [answerWith, bind_some_iff, some.injEq] at made
    obtain ⟨leftSql, leftMade, rightSql, rightMade, rfl⟩ := made
    rw [truth_and, Truth.conj_eq_true] at holds
    replace covered := List.forall_mem_append.mp covered
    have onLeft := ihLeft covered.1 leftMade holds.1
    have onRight := ihRight covered.2 rightMade holds.2
    rw [AstExpr.truth_and, onLeft, onRight]
    rfl
  | or left right ihLeft ihRight =>
    simp only [answerWith, bind_some_iff, some.injEq] at made
    obtain ⟨leftSql, leftMade, rightSql, rightMade, rfl⟩ := made
    rw [truth_or, Truth.disj_eq_true] at holds
    rw [AstExpr.truth_or, Truth.disj_eq_true]
    replace covered := List.forall_mem_append.mp covered
    exact holds.imp (ihLeft covered.1 leftMade) (ihRight covered.2 rightMade)
  | not => cases made
  | _ =>
    exact covered _ (List.mem_singleton.mpr rfl) sql made holds

theorem truth_binaryOp (row : Row) (left right : AstExpr) (operator : EqualityOperator) :
    (AstExpr.binaryOp left operator.toOperator right).truth semantics row =
      semantics.compare operator.accepts (left.eval semantics row) (right.eval semantics row) := by
  cases operator <;> exact ScalarValue.truth_ofTruth _

/-! ## Merged comparisons -/

theorem mergeCmp_cases (made : mergeCmp left right = some merged) :
    merged = and left right ∨ merged = left ∨ merged = right ∨
      ∃ column lower upper low high, EqualityOperator.isLower lower ∧
        EqualityOperator.isUpper upper ∧ merged = between column low high ∧
        ((left = eq column lower low ∧ right = eq column upper high) ∨
          (left = eq column upper high ∧ right = eq column lower low)) := by
  unfold mergeCmp at made
  split at made
  case h_2 => cases made
  case h_1 leftCol leftOperator leftValue rightCol rightOperator rightValue =>
    split at made
    case isFalse => cases made
    case isTrue mergeable =>
      obtain ⟨_, _, rfl⟩ := mergeable
      dsimp only at made
      split at made
      case h_1 => exact .inl (some.inj made).symm
      case h_2 minimum _ =>
        split_ifs at made with uppers first lowers second range reversed <;> cases made
        · exact .inr (.inl rfl)
        · exact .inr (.inr (.inl rfl))
        · exact .inr (.inr (.inl rfl))
        · exact .inr (.inl rfl)
        · rw [Bool.and_eq_true, Bool.and_eq_true] at range
          exact .inr (.inr (.inr ⟨_, _, _, _, _, range.1.1, range.1.2, rfl, .inl ⟨rfl, rfl⟩⟩))
        · rw [Bool.and_eq_true, Bool.and_eq_true] at reversed
          exact .inr (.inr (.inr ⟨_, _, _, _, _, reversed.1.2, reversed.1.1, rfl,
            .inr ⟨rfl, rfl⟩⟩))
        · exact .inl rfl

section Merged

variable {semantics : Semantics} {row : Row}

theorem between_holds {column : ColumnWithCast} {lower upper : EqualityOperator}
    {low high : ScalarValue} (isLower : lower.isLower) (isUpper : upper.isUpper)
    (above : (eq column lower low : IndexableFilterExpr E).truth semantics row otherTruth = .true)
    (below : (eq column upper high : IndexableFilterExpr E).truth semantics row otherTruth = .true) :
    (between column low high : IndexableFilterExpr E).truth semantics row otherTruth = .true := by
  have onLow : semantics.compare (· ≠ .lt) (column.value semantics row) low = .true :=
    semantics.compare_mono (fun _ accepted => by
      simpa using EqualityOperator.accepts_isLower isLower accepted) above
  have onHigh : semantics.compare (· ≠ .gt) (column.value semantics row) high = .true :=
    semantics.compare_mono (fun _ accepted => by
      simpa using EqualityOperator.accepts_isUpper isUpper accepted) below
  exact (Truth.conj_eq_true _ _).mpr ⟨onLow, onHigh⟩

theorem mergeCmp_holds (made : mergeCmp left right = some merged)
    (onLeft : left.truth semantics row otherTruth = .true)
    (onRight : right.truth semantics row otherTruth = .true) :
    merged.truth semantics row otherTruth = .true := by
  rcases mergeCmp_cases made with rfl | rfl | rfl |
    ⟨column, lower, upper, low, high, isLower, isUpper, rfl, bounds⟩
  · exact (Truth.conj_eq_true _ _).mpr ⟨onLeft, onRight⟩
  · exact onLeft
  · exact onRight
  · rcases bounds with ⟨rfl, rfl⟩ | ⟨rfl, rfl⟩
    · exact between_holds isLower isUpper onLeft onRight
    · exact between_holds isLower isUpper onRight onLeft

theorem optimizeCmp_holds (holds : tree.truth semantics row otherTruth = .true) :
    tree.optimizeCmp.truth semantics row otherTruth = .true := by
  fun_induction optimizeCmp tree with
  | case1 left right merged made =>
    rw [truth_and, Truth.conj_eq_true] at holds
    exact mergeCmp_holds made holds.1 holds.2
  | case2 left right unmerged ihLeft ihRight =>
    rw [truth_and, Truth.conj_eq_true] at holds ⊢
    exact ⟨ihLeft holds.1, ihRight holds.2⟩
  | case3 left right ihLeft ihRight =>
    rw [truth_or, Truth.disj_eq_true] at holds ⊢
    exact holds.imp ihLeft ihRight
  | case4 leaf => exact holds

end Merged

end IndexableFilterExpr

end SecureFusion.Filtering
