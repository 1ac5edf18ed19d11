import SecureFusion.Filtering.Conjuncts

/-!
# Columns of filters

The leaves of the filter tree of an expression refer to the columns of the expression. A filter
that the table answers exactly therefore has the same value for the server, which sees no
encrypted column in it, and for the planner.
-/

namespace SecureFusion.Sql.Expr

variable {list : List Expr} {expr : Expr} {column : Column} {text : String}

theorem mem_columnRefsList :
    column ∈ columnRefsList list ↔ ∃ expr ∈ list, column ∈ expr.columnRefs := by
  induction list with
  | nil => simp [columnRefsList]
  | cons expr rest ih => simp [columnRefsList, ih]

theorem columnRefs_of_tryAsCol (isColumn : expr.eliminateDecryptInExpr.tryAsCol = some column) :
    expr.columnRefs = [column] := by
  have plain : ∀ {inner : Expr}, inner.tryAsCol = some column → inner.columnRefs = [column] := by
    intro inner found
    cases inner <;> cases found
    rfl
  cases expr with
  | decrypt inner =>
    have inside : inner.columnRefs = [column] := plain isColumn
    exact inside
  | _ => exact plain isColumn

theorem columnRefs_of_literalText (isText : expr.literalText = some text) :
    expr.columnRefs = [] := by
  unfold literalText at isText
  split at isText
  · rfl
  · cases isText

theorem mem_columnRefsList_of_splitArgs {args : List Expr} {columns : List Column}
    (split : splitArgs args = some (columns, text)) :
    column ∈ columnRefsList args ↔ column ∈ columns := by
  unfold splitArgs at split
  split at split
  · rename_i mode searchString reversedColumns reversed
    simp only [Library.bind_some_iff, Option.some.injEq, Prod.mk.injEq] at split
    obtain ⟨_, -, _, isText, _, isMode, _, -, found, read, _, -, rfl, -⟩ := split
    have each := (Library.Rows.mapM_eq_some_iff _ _ _).mp read
    rw [mem_columnRefsList]
    constructor
    · rintro ⟨expr, isArg, refers⟩
      rw [← List.mem_reverse, reversed, List.mem_cons, List.mem_cons] at isArg
      rcases isArg with rfl | rfl | isColumn
      · rw [columnRefs_of_literalText isMode] at refers
        cases refers
      · rw [columnRefs_of_literalText isText] at refers
        cases refers
      · obtain ⟨other, isOther, asCol⟩ :=
          Library.Rows.exists_of_forall₂_left each (List.mem_reverse.mpr isColumn)
        rw [columnRefs_of_tryAsCol asCol, List.mem_singleton] at refers
        exact refers ▸ isOther
    · intro isIn
      obtain ⟨expr, isArg, asCol⟩ := Library.Rows.exists_of_forall₂_right each isIn
      refine ⟨expr, ?_, by rw [columnRefs_of_tryAsCol asCol]; exact List.mem_singleton_self _⟩
      rw [← List.mem_reverse, reversed]
      exact List.mem_cons_of_mem _ (List.mem_cons_of_mem _ (List.mem_reverse.mp isArg))
  · cases split

end SecureFusion.Sql.Expr

namespace SecureFusion.Filtering

open Library Sql List Option

variable {list : List Expr} {expr : Expr} {leaf : IndexableLogicalExpr} {column : Column}

/-- The columns that a tree refers to. -/
def IndexableLogicalExpr.columns : IndexableLogicalExpr → List Column
  | .and left right | .or left right => columns left ++ columns right
  | .not operand => columns operand
  | .eq column _ _ | .between column _ _ | .kwSearchLike column _ => [column.column]
  | .inList (.column column) _ => [column.column]
  | .inList (.tuple columns) _ => columns.map ColumnWithCast.column
  | .kwMatch columns _ => columns
  | .other expr => expr.columnRefs

/-! ## Operands -/

section Operands

variable {castTo : DataType → ScalarValue → Option ScalarValue}

theorem columnRefs_of_asScalarValueLogical {value : ScalarValue}
    (read : asScalarValueLogical castTo expr = some value) : expr.columnRefs = [] := by
  fun_induction asScalarValueLogical castTo expr generalizing value with
  | case1 literal => rfl
  | case2 expr ih => exact ih read
  | case3 expr type ih | case4 expr type ih =>
    obtain ⟨inner, readInner, _⟩ := bind_eq_some_iff.mp read
    exact ih readInner
  | case5 => cases read

theorem columnRefs_of_asColumnLogicalFrom {stripped : Bool} {column : ColumnWithCast}
    (read : asColumnLogicalFrom stripped expr = some column) :
    expr.columnRefs = [column.column] := by
  fun_induction asColumnLogicalFrom stripped expr generalizing column with
  | case1 expr ih => exact ih read
  | case2 _ reference =>
    cases read
    rfl
  | case3 _ expr ih => exact ih read
  | case4 _ expr type ih | case5 _ expr type ih =>
    obtain ⟨inner, readInner, rfl⟩ := map_eq_some_iff.mp read
    have inside : expr.columnRefs = [inner.column] := ih readInner
    exact inside
  | case6 => cases read

theorem columnRefsList_of_mapM {values : List ScalarValue}
    (read : list.mapM (asScalarValueLogical castTo) = some values) :
    Expr.columnRefsList list = [] := by
  have each := (Rows.mapM_eq_some_iff _ _ _).mp read
  rw [eq_nil_iff_forall_not_mem]
  intro column isIn
  obtain ⟨expr, isExpr, refers⟩ := Expr.mem_columnRefsList.mp isIn
  obtain ⟨value, _, isValue⟩ := Rows.exists_of_forall₂_left each isExpr
  rw [columnRefs_of_asScalarValueLogical isValue] at refers
  cases refers

end Operands

/-! ## Leaves -/

section Leaves

variable {castTo : DataType → ScalarValue → Option ScalarValue}

def InLeaves (column : Column) (tree : IndexableLogicalExpr) : Prop :=
  ∃ leaf ∈ tree.leaves, column ∈ IndexableLogicalExpr.columns leaf

theorem inLeaves_getD {made : Option IndexableLogicalExpr} (isIn : column ∈ expr.columnRefs)
    (leaf : ∀ one, made = some one → InLeaves column one) :
    InLeaves column (made.getD (.other expr)) := by
  cases made with
  | none => exact ⟨_, mem_singleton_self _, isIn⟩
  | some one => exact leaf one rfl

theorem inLeaves_comparisonLogical {left right : Expr} {operator : Operator}
    (made : comparisonLogical castTo left operator right = some leaf)
    (isIn : column ∈ left.columnRefs ++ right.columnRefs) :
    InLeaves column leaf := by
  simp only [comparisonLogical, IndexableFilterExpr.comparison, bind_some_iff, some.injEq,
    or_eq_some_iff] at made
  obtain ⟨comparison, -, value, isValue, operand, isOperand, rfl⟩ := made
  refine ⟨_, mem_singleton_self _, ?_⟩
  -- No operand is both a column and a value, so the other one is the column.
  have refs : left.columnRefs ++ right.columnRefs = [operand.column] := by
    rcases isValue with leftValue | ⟨-, rightValue⟩
    · have noRefs := columnRefs_of_asScalarValueLogical leftValue
      rcases isOperand with leftColumn | ⟨-, rightColumn⟩
      · rw [columnRefs_of_asColumnLogicalFrom leftColumn] at noRefs
        cases noRefs
      · rw [noRefs, columnRefs_of_asColumnLogicalFrom rightColumn]
        rfl
    · have noRefs := columnRefs_of_asScalarValueLogical rightValue
      rcases isOperand with leftColumn | ⟨-, rightColumn⟩
      · rw [noRefs, columnRefs_of_asColumnLogicalFrom leftColumn]
        rfl
      · rw [columnRefs_of_asColumnLogicalFrom rightColumn] at noRefs
        cases noRefs
  rw [refs] at isIn
  exact isIn

theorem inLeaves_betweenLogical {low high : Expr}
    (made : betweenLogical castTo expr low high = some leaf)
    (isIn : column ∈ expr.columnRefs ++ low.columnRefs ++ high.columnRefs) :
    InLeaves column leaf := by
  simp only [betweenLogical, bind_some_iff, some.injEq] at made
  obtain ⟨operand, isOperand, lowValue, isLow, highValue, isHigh, rfl⟩ := made
  rw [columnRefs_of_asColumnLogicalFrom isOperand, columnRefs_of_asScalarValueLogical isLow,
    columnRefs_of_asScalarValueLogical isHigh] at isIn
  exact ⟨_, mem_singleton_self _, isIn⟩

theorem inLeaves_likeLogical {pattern : Expr} (made : likeLogical castTo expr pattern = some leaf)
    (isIn : column ∈ expr.columnRefs ++ pattern.columnRefs) : InLeaves column leaf := by
  simp only [likeLogical, IndexableFilterExpr.patternMatch, bind_some_iff] at made
  obtain ⟨operand, isOperand, value, isValue, isLeaf⟩ := made
  rw [columnRefs_of_asColumnLogicalFrom isOperand, columnRefs_of_asScalarValueLogical isValue]
    at isIn
  split at isLeaf
  · cases isLeaf
    exact ⟨_, mem_singleton_self _, isIn⟩
  · cases isLeaf

theorem inLeaves_inListLogical (made : inListLogical castTo expr list = some leaf)
    (isIn : column ∈ expr.columnRefs ++ Expr.columnRefsList list) : InLeaves column leaf := by
  simp only [inListLogical, IndexableFilterExpr.membership, bind_some_iff, some.injEq,
    map_eq_some_iff] at made
  obtain ⟨_, ⟨operand, isOperand, rfl⟩, values, isValues, rfl⟩ := made
  rw [columnRefs_of_asColumnLogicalFrom isOperand, columnRefsList_of_mapM isValues] at isIn
  exact ⟨_, mem_singleton_self _, isIn⟩

theorem inLeaves_kwMatchLogical {args : List Expr} (made : kwMatchLogical args = some leaf)
    (isIn : column ∈ Expr.columnRefsList args) : InLeaves column leaf := by
  simp only [kwMatchLogical, bind_some_iff, some.injEq] at made
  obtain ⟨⟨columns, text⟩, split, rfl⟩ := made
  exact ⟨_, mem_singleton_self _, (Expr.mem_columnRefsList_of_splitArgs split).mp isIn⟩

theorem inLeaves_ofExprBelow (decrypted : Option Expr) (expr : Expr)
    (outer : ∀ whole, decrypted = some whole → whole.columnRefs = expr.columnRefs)
    (isIn : column ∈ expr.columnRefs) :
    InLeaves column (ofExprBelow castTo decrypted expr) := by
  have fresh : ∀ {expr : Expr} (whole : Expr), none = some whole →
      whole.columnRefs = expr.columnRefs := nofun
  -- What is kept as a whole refers to the same columns.
  have kept : ∀ {decrypted : Option Expr} {expr : Expr},
      (∀ whole, decrypted = some whole → whole.columnRefs = expr.columnRefs) →
      column ∈ expr.columnRefs → column ∈ (decrypted.getD expr).columnRefs := by
    intro decrypted expr outer isIn
    cases decrypted with
    | none => exact isIn
    | some whole => exact outer whole rfl ▸ isIn
  have whole : ∀ {expr : Expr}, column ∈ expr.columnRefs →
      InLeaves column (.other expr) := fun isIn => ⟨_, mem_singleton_self _, isIn⟩
  fun_induction ofExprBelow castTo decrypted expr with
  | case1 expr ih =>
    exact ih (fun whole same => by cases same; rfl) isIn
  | case2 => exact whole isIn
  | case3 _ expr ih => exact ih fresh isIn
  | case4 | case5 | case20 | case21 => exact whole (kept outer isIn)
  | case6 => exact inLeaves_getD isIn fun _ made => inLeaves_betweenLogical made isIn
  | case7 _ left right ihLeft ihRight | case8 _ left right ihLeft ihRight =>
    rcases mem_append.mp isIn with onLeft | onRight
    · obtain ⟨leaf, isLeaf, refers⟩ := ihLeft fresh onLeft
      exact ⟨leaf, mem_append_left _ isLeaf, refers⟩
    · obtain ⟨leaf, isLeaf, refers⟩ := ihRight fresh onRight
      exact ⟨leaf, mem_append_right _ isLeaf, refers⟩
  | case9 => exact inLeaves_getD isIn fun _ made => inLeaves_comparisonLogical made isIn
  | case10 => exact inLeaves_getD (kept outer isIn) fun _ made => inLeaves_likeLogical made isIn
  | case11 => exact inLeaves_getD (kept outer isIn) fun _ made => inLeaves_inListLogical made isIn
  | case12 => exact inLeaves_getD (kept outer isIn) fun _ made => inLeaves_kwMatchLogical made isIn
  | case13 _ expr ih | case14 _ expr ih | case15 _ expr ih | case16 _ expr ih | case17 _ expr ih
  | case18 _ expr _ ih | case19 _ expr _ ih => exact ih fresh isIn

end Leaves

/-! ## Exact filters -/

namespace IndexResolver

variable {D : Type} (resolver : IndexResolver D)

theorem isLeaf_of_canForward (statistics : TableStatistics) (node : IndexableLogicalExpr)
    (answered : (resolver.logicalSupportOptions.isSupported node statistics).isSome) :
    node.IsLeaf := by
  cases node with
  | and | or | not => cases answered
  | _ => rfl

theorem forwardable_of_canForward {statistics : TableStatistics}
    (answered : (resolver.canForwardExactLogical leaf statistics).isSome) :
    ∀ column ∈ IndexableLogicalExpr.columns leaf, resolver.forwardable column = true := by
  obtain ⟨entries, found, all⟩ := (resolver.isSome_canForwardExactLogical_iff _ _).mp answered
  cases leaf with
  | and | or | not | between => cases found
  | eq | kwSearchLike =>
    cases found
    exact forall_mem_singleton.mpr (all _ (mem_singleton_self _))
  | inList columns values =>
    cases columns with
    | column column =>
      cases found
      exact forall_mem_singleton.mpr (all _ (mem_singleton_self _))
    | tuple columns =>
      cases found
      exact forall_mem_map.mpr fun column member => all _ (mem_map_of_mem member)
  | kwMatch columns text | other expr =>
    cases found
    exact fun column member => all _ (mem_map_of_mem member)

theorem forwardable_of_exact {filter : Expr}
    (exact : resolver.filterSupportedForExpr filter = .exact) :
    ∀ column ∈ filter.columnRefs, resolver.forwardable column = true := by
  intro column isIn
  have found : InLeaves column (IndexableLogicalExpr.ofExpr resolver.castTo filter) :=
    inLeaves_ofExprBelow none filter nofun isIn
  obtain ⟨leaf, isLeaf, refers⟩ := found
  obtain ⟨selectivity, split⟩ := resolver.split_of_exact exact
  have answered := supported_leaves (resolver.isLeaf_of_canForward _) _ _
    (congrArg Prod.fst split) leaf isLeaf
  exact resolver.forwardable_of_canForward answered column refers

end IndexResolver

end SecureFusion.Filtering
