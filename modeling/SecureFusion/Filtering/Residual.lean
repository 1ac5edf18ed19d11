import SecureFusion.Filtering.ColumnRefs

/-!
# What the planner evaluates after a scan

A condition is cut into its conjuncts. Each of them is sent to the scan unless the table
says that it supports no part of it, and is evaluated on the returned rows unless the table
says that it is exact. In this second evaluation a keyword search is true on every row, so
that only the answer of the index can reject a row.
-/

namespace SecureFusion.Sql

open Library

/-- The operations of the planner after the scan: every keyword search is true. -/
def Semantics.withoutSearch (semantics : Semantics) : Semantics where
  order := semantics.order
  order_swap := semantics.order_swap
  cast := semantics.cast
  like := semantics.like
  kwMatch _ _ := .true
  operator := semantics.operator
  function name args :=
    if name = "kw_search" then .boolean (some true) else semantics.function name args

def Semantics.searching (semantics : Semantics) : Bool → Semantics
  | true => semantics
  | false => semantics.withoutSearch

namespace Expr

mutual

/-- An expression with a keyword search in it. -/
def hasSearch : Expr → Bool
  | .column _ | .literal _ => false
  | .aliased expr | .decrypt expr | .cast expr _ | .tryCast expr _ | .not expr | .isTrue expr
  | .isFalse expr | .isNotTrue expr | .isNotFalse expr => expr.hasSearch
  | .binary left _ right => left.hasSearch || right.hasSearch
  | .between _ expr low high => expr.hasSearch || low.hasSearch || high.hasSearch
  | .like _ _ _ expr pattern => expr.hasSearch || pattern.hasSearch
  | .inList _ expr list => expr.hasSearch || hasSearchList list
  | .kwSearch _ => true
  | .function name args => name = "kw_search" || hasSearchList args
  | .nested kind operands _ => kind = "kw_search" || hasSearchList operands

/-- One of several expressions contains a keyword search. -/
def hasSearchList : List Expr → Bool
  | [] => false
  | expr :: rest => expr.hasSearch || hasSearchList rest

end

variable {semantics : Semantics} {first second : Row}

mutual

theorem eval_searching (searches : Bool) :
    (expr : Expr) → (∀ column ∈ expr.columnRefs, first column.name = second column.name) →
      (!searches && expr.hasSearch) = false →
        expr.eval (semantics.searching searches) first = expr.eval semantics second
  | .column reference, same, _ => by
    rw [eval, eval]
    exact same reference (List.mem_singleton_self _)
  | .literal _, _, _ => by rw [eval, eval]
  | .aliased expr, same, free | .decrypt expr, same, free =>
    by rw [eval, eval, eval_searching searches expr same free]
  | .cast expr type, same, free | .tryCast expr type, same, free => by
    rw [eval, eval, eval_searching searches expr same free]
    cases searches <;> rfl
  | .not expr, same, free | .isTrue expr, same, free | .isFalse expr, same, free
  | .isNotTrue expr, same, free | .isNotFalse expr, same, free =>
    by rw [eval, eval, eval_searching searches expr same free]
  | .binary left operator right, same, free => by
    have parts := List.forall_mem_append.mp same
    rw [hasSearch, Bool.and_or_distrib_left, Bool.or_eq_false_iff] at free
    have onLeft := eval_searching searches left parts.1 free.1
    have onRight := eval_searching searches right parts.2 free.2
    cases operator with
    | and | or => rw [eval, eval, onLeft, onRight]
    | other =>
      rw [eval, eval, onLeft, onRight]
      cases searches <;> rfl
    | eq | notEq | lt | ltEq | gt | gtEq =>
      rw [eval, eval, onLeft, onRight]
      all_goals first | (cases searches <;> rfl) | nofun
  | .between negated expr low high, same, free => by
    have parts := List.forall_mem_append.mp same
    have bounds := List.forall_mem_append.mp parts.1
    simp only [hasSearch, Bool.and_or_distrib_left, Bool.or_eq_false_iff] at free
    rw [eval, eval, eval_searching searches expr bounds.1 free.1.1,
      eval_searching searches low bounds.2 free.1.2, eval_searching searches high parts.2 free.2]
    cases searches <;> rfl
  | .like negated caseInsensitive escapeChar expr pattern, same, free => by
    have parts := List.forall_mem_append.mp same
    rw [hasSearch, Bool.and_or_distrib_left, Bool.or_eq_false_iff] at free
    rw [eval, eval, eval_searching searches expr parts.1 free.1,
      eval_searching searches pattern parts.2 free.2]
    cases searches <;> rfl
  | .inList negated expr list, same, free => by
    have parts := List.forall_mem_append.mp same
    rw [hasSearch, Bool.and_or_distrib_left, Bool.or_eq_false_iff] at free
    rw [eval, eval, eval_searching searches expr parts.1 free.1,
      evalList_searching searches list parts.2 free.2]
    cases searches <;> rfl
  | .kwSearch args, same, free => by
    cases searches with
    | false => cases free
    | true =>
      rw [eval, eval]
      cases split : splitArgs args with
      | none => exact congrArg _ (evalList_searching true args same rfl)
      | some found =>
        obtain ⟨columns, text⟩ := found
        have values : (columns.map fun column => first column.name) =
            columns.map fun column => second column.name :=
          List.map_congr_left fun column isIn =>
            same column ((mem_columnRefsList_of_splitArgs split).mpr isIn)
        dsimp only
        rw [values]
        rfl
  | .function _ args, same, free | .nested _ args _, same, free => by
    rw [hasSearch, Bool.and_or_distrib_left, Bool.or_eq_false_iff] at free
    rw [eval, eval, evalList_searching searches args same free.2]
    cases searches with
    | false => exact if_neg (of_decide_eq_false free.1)
    | true => rfl

theorem evalList_searching (searches : Bool) :
    (list : List Expr) →
      (∀ column ∈ columnRefsList list, first column.name = second column.name) →
      (!searches && hasSearchList list) = false →
        evalList (semantics.searching searches) first list = evalList semantics second list
  | [], _, _ => by rw [evalList, evalList]
  | expr :: rest, same, free => by
    have parts := List.forall_mem_append.mp same
    rw [hasSearchList, Bool.and_or_distrib_left, Bool.or_eq_false_iff] at free
    rw [evalList, evalList, eval_searching searches expr parts.1 free.1,
      evalList_searching searches rest parts.2 free.2]

end

/-- The value of an expression depends only on the columns that it refers to. -/
theorem eval_congr (expr : Expr)
    (same : ∀ column ∈ expr.columnRefs, first column.name = second column.name) :
    expr.eval semantics first = expr.eval semantics second :=
  eval_searching true expr same rfl

theorem eval_withoutSearch (row : Row) (expr : Expr) (free : expr.hasSearch = false) :
    expr.eval semantics.withoutSearch row = expr.eval semantics row :=
  eval_searching false expr (fun _ _ => rfl) free

def splitConjunction : Expr → List Expr
  | .binary left .and right => left.splitConjunction ++ right.splitConjunction
  | .aliased expr => expr.splitConjunction
  | expr => [expr]

end Expr

end SecureFusion.Sql

namespace SecureFusion.Filtering

open Library Sql

/-! ## Rows that a query returns -/

section Selection

variable {D : Type}

/-- A row passes an answer, a dynamic one being executed. -/
def IndexQueryStrategy.Passes (execute : D → Option AstExpr) (semantics : Semantics) (row : Row) :
    IndexQueryStrategy D → Prop
  | .fixed sql => sql.truth semantics row = .true
  | .dynamic filter => ∃ sql, execute filter = some sql ∧ sql.truth semantics row = .true

namespace IndexResolver

variable (resolver : IndexResolver D)

/-- The conjuncts of a condition with what the table says about them. -/
def announcedConjuncts (condition : Expr) : List (Expr × FilterPushDown) :=
  condition.splitConjunction.zip (resolver.supportsFiltersPushdown condition.splitConjunction)

/-- The conjuncts that are sent to the scan. -/
def pushedFilters (condition : Expr) : List Expr :=
  ((resolver.announcedConjuncts condition).filter fun entry => entry.2 ≠ .unsupported).map
    Prod.fst

/-- The conjuncts that are evaluated on the returned rows. -/
def residualFilters (condition : Expr) : List Expr :=
  ((resolver.announcedConjuncts condition).filter fun entry => entry.2 ≠ .exact).map Prod.fst

/-- The query with a condition returns a row: it passes the filters of the scan and then those that
are evaluated afterwards. -/
def Returns (execute : D → Option AstExpr) (semantics : Semantics) (condition : Expr) (row : Row) :
    Prop :=
  ∃ result, resolver.resolveIndicesForLogicalFilters (resolver.pushedFilters condition) =
      some result ∧
    result.All (·.Passes execute semantics row) ∧
    ∀ filter ∈ resolver.residualFilters condition,
      filter.truth semantics.withoutSearch row = .true

end IndexResolver

end Selection

/-! ## Searches in a tree -/

def NoSearches {E : Type} (tree : IndexableFilterExpr E) : Prop :=
  ∀ leaf ∈ tree.leaves, ∀ columns text, leaf ≠ .kwMatch columns text

theorem isSome_toAst_iff {tree : IndexableLogicalExpr} : tree.toAst.isSome ↔ NoSearches tree := by
  induction tree with
  | and left right ihLeft ihRight | or left right ihLeft ihRight =>
    have leaves : NoSearches left ∧ NoSearches right ↔
        ∀ leaf ∈ left.leaves ++ right.leaves, ∀ columns text, leaf ≠ .kwMatch columns text :=
      List.forall_mem_append.symm
    rw [← ihLeft, ← ihRight] at leaves
    refine Iff.trans ?_ leaves
    simp only [IndexableLogicalExpr.toAst, IndexableFilterExpr.toAstWith, Option.bind_eq_bind,
      Option.isSome_bind]
    cases left.toAstWith (fun expr => some (.unparsed expr)) .value <;> simp
  | not operand ih =>
    refine Iff.trans ?_ ih
    simp only [IndexableLogicalExpr.toAst, IndexableFilterExpr.toAstWith, Option.bind_eq_bind]
    cases operand.toAstWith (fun expr => some (.unparsed expr)) .value <;> simp
  | kwMatch columns text =>
    refine ⟨by rintro ⟨⟩, fun free => ?_⟩
    exact absurd rfl (free _ (List.mem_singleton_self _) columns text)
  | eq | between | inList | kwSearchLike | other =>
    exact ⟨fun _ => List.forall_mem_singleton.mpr (by rintro _ _ ⟨⟩), fun _ => rfl⟩

end SecureFusion.Filtering
