import SecureFusion.Filtering.Logical
import SecureFusion.Filtering.Physical

/-!
# Resolving filters against a table and its indices

A filter is split into the part that the table answers exactly, which is forwarded as it is, and the
rest, which is offered to the indices of the table one after the other. An index answers its part
with a server expression, or with a dynamic filter that is executed before the scan. What the
planner is told about a filter is decided by another path, which for a table without encrypted
columns ignores the filter.
-/

namespace SecureFusion.Filtering

open Library Sql

/-- How an index answers a query; D is the type of dynamic filters. -/
inductive IndexQueryStrategy (D : Type) where
  | fixed (expr : AstExpr)
  | dynamic (filter : D)

/-- An index of a table; a query that fails gives none. -/
structure EncryptedIndex (D : Type) where
  logicalSupportOptions : SupportOptions Expr
  logicalQuery : IndexableLogicalExpr → Option (IndexQueryStrategy D)
  /-- None if the index does not answer physical filters. -/
  physicalSupportOptions : Option (SupportOptions PhysicalExpr)
  physicalQuery : IndexablePhysicalExpr → Option (IndexQueryStrategy D)

/-- A table as the resolver sees it. -/
structure IndexResolver (D : Type) where
  tableRef : ResolvedTableReference
  encryptedColumns : List String
  indices : List (EncryptedIndex D)
  statistics : TableStatistics
  /-- The planner's cast of literals. -/
  castTo : DataType → ScalarValue → Option ScalarValue

/-- What the planner is told about a filter. -/
inductive FilterPushDown where
  | unsupported | inexact | exact
deriving DecidableEq, Repr

/-- The filters that a scan sends to the server. -/
structure ResolveIndexResult (D : Type) where
  forwardedStatic : List AstExpr
  forwardedDynamic : List D

/-- Adds the answer of an index to what is sent. -/
def ResolveIndexResult.push {D : Type} (result : ResolveIndexResult D) :
    IndexQueryStrategy D → ResolveIndexResult D
  | .fixed expr => { result with forwardedStatic := result.forwardedStatic ++ [expr] }
  | .dynamic filter => { result with forwardedDynamic := result.forwardedDynamic ++ [filter] }

namespace IndexResolver

variable {D : Type} (resolver : IndexResolver D)

def hasEncryptedColumns : Bool := !resolver.encryptedColumns.isEmpty

/-- A column of the table that is not encrypted. -/
def forwardable (column : Column) : Bool :=
  (match column.relation with
    | none => true
    | some relation => relation.table = resolver.tableRef.table &&
      (match relation.schema with
        | none => true
        | some schema => schema = resolver.tableRef.schema)) &&
    !resolver.encryptedColumns.contains column.name

/-- The columns of a leaf that the table may answer, with the number of values compared. -/
def columnsWithNum : IndexableLogicalExpr → Option (List (ColumnWithCast × Precision))
  | .eq column operator _ => some [(column, if operator = .eq then .exact 1 else .absent)]
  | .inList (.column column) values => some [(column, .exact values.length)]
  | .kwSearchLike column _ => some [(column, .absent)]
  | .kwMatch columns _ => some (columns.map fun column => (.ofColumn column, .absent))
  | .inList (.tuple columns) values =>
    some (columns.map fun column => (column, .exact values.length))
  | .other expr => some (expr.columnRefs.map fun column => (.ofColumn column, .absent))
  | _ => none

/-- A step over the columns of a leaf, with the estimate so far. -/
def forwardStep (statistics : TableStatistics) (acc : Bool × IndexSelectivity)
    (entry : ColumnWithCast × Precision) : Bool × IndexSelectivity :=
  let (canForward, numRows) := acc
  if !canForward || !resolver.forwardable entry.1.column then (false, numRows)
  else match entry.2.getValue, statistics.columnSelectivity entry.1.column.name with
    | some multiplier, some selectivity =>
      (true, numRows.withEstimatedSelectivity (Float.ofNat multiplier * selectivity))
    | _, _ => (true, numRows.withEstimatedSelectivity 0.2)

/-- Whether the server answers a leaf exactly, with an estimate. -/
def canForwardExactLogical (leaf : IndexableLogicalExpr) (statistics : TableStatistics) :
    Option IndexSelectivity := do
  let columns ← columnsWithNum leaf
  let (canForward, numRows) :=
    columns.foldl (resolver.forwardStep statistics) (true, statistics.numRows)
  if canForward then some numRows else none

theorem foldl_forwardStep (statistics : TableStatistics)
    (entries : List (ColumnWithCast × Precision)) (acc : Bool × IndexSelectivity) :
    (entries.foldl (resolver.forwardStep statistics) acc).1 =
      (acc.1 && entries.all fun entry => resolver.forwardable entry.1.column) := by
  induction entries generalizing acc with
  | nil => simp
  | cons entry rest ih =>
    obtain ⟨canForward, numRows⟩ := acc
    rw [List.foldl_cons, ih, List.all_cons, ← Bool.and_assoc]
    congr 1
    cases canForward with
    | false => rfl
    | true =>
      simp only [forwardStep]
      cases resolver.forwardable entry.1.column with
      | false => rfl
      | true =>
        simp only [Bool.not_true, Bool.or_self, Bool.false_eq_true, if_false, Bool.and_self]
        split <;> rfl

theorem isSome_canForwardExactLogical_iff (leaf : IndexableLogicalExpr)
    (statistics : TableStatistics) :
    (resolver.canForwardExactLogical leaf statistics).isSome ↔
      ∃ entries, columnsWithNum leaf = some entries ∧
        ∀ entry ∈ entries, resolver.forwardable entry.1.column = true := by
  simp only [canForwardExactLogical, Option.bind_eq_bind]
  cases found : columnsWithNum leaf with
  | none => simp
  | some entries =>
    simp only [Option.bind_some, foldl_forwardStep, Bool.true_and, List.all_eq_true,
      Option.some.injEq, exists_eq_left']
    by_cases all : ∀ entry ∈ entries, resolver.forwardable entry.1.column = true
    · rw [if_pos all]
      exact iff_of_true rfl all
    · rw [if_neg all]
      exact iff_of_false (by simp) all

/-- What the table answers of a logical filter itself. -/
def logicalSupportOptions : SupportOptions Expr where
  supportsNot := true
  supportsOr := true
  isSupported := resolver.canForwardExactLogical

/-- What the planner is told about a filter on a table with encrypted columns. -/
def filterSupportedForExpr (expr : Expr) : FilterPushDown :=
  let tree := IndexableLogicalExpr.ofExpr resolver.castTo expr
  match tree.splitIntoSupportedUnsupported resolver.logicalSupportOptions resolver.statistics with
  | (_, none, _) => .exact
  | (some _, some _, _) => .inexact
  | (none, some unsupported, _) => tryIndices resolver.indices (some unsupported)
where
  /-- Offers what is left to each index until one takes a part. -/
  tryIndices : List (EncryptedIndex D) → Option IndexableLogicalExpr → FilterPushDown
    | index :: rest, some unsupported =>
      match unsupported.splitIntoSupportedUnsupported index.logicalSupportOptions
          resolver.statistics with
      | (some _, _, _) => .inexact
      | (none, left, _) => tryIndices rest left
    | _, _ => .unsupported

/-- What the planner is told about filters. -/
def supportsFiltersPushdown (filters : List Expr) : List FilterPushDown :=
  filters.map fun filter =>
    if resolver.hasEncryptedColumns then resolver.filterSupportedForExpr filter else .exact

/-- Offers what is left of the filters to each index and collects the answers. -/
def queryIndices : List (EncryptedIndex D) → Option IndexableLogicalExpr →
    ResolveIndexResult D → Option (ResolveIndexResult D)
  | index :: rest, some unsupported, result =>
    match unsupported.splitIntoSupportedUnsupported index.logicalSupportOptions
        resolver.statistics with
    | (none, left, _) => queryIndices rest left result
    | (some supported, left, _) => do
      let answer ← index.logicalQuery supported
      queryIndices rest left (result.push answer)
  | _, _, result => some result

@[simp] theorem queryIndices_none (indices : List (EncryptedIndex D))
    (result : ResolveIndexResult D) :
    resolver.queryIndices indices none result = some result := by
  cases indices <;> rfl

/-- The parts of the filters that the table answers and those that it leaves. -/
def splitFilters (filters : List Expr) : List (IndexableFilterExpr.Split Expr) :=
  filters.map fun filter => (IndexableLogicalExpr.ofExpr resolver.castTo filter
    ).splitIntoSupportedUnsupported resolver.logicalSupportOptions resolver.statistics

/-- The filters that a scan with logical filters sends to the server; none if an index query
fails or a part has no server expression. -/
def resolveIndicesForLogicalFilters (filters : List Expr) : Option (ResolveIndexResult D) := do
  let splits := resolver.splitFilters filters
  let forwarded ← (splits.filterMap fun split => split.1).mapM IndexableLogicalExpr.toAst
  let unsupported := (reduce .and (splits.filterMap fun split => split.2.1)).map
    IndexableFilterExpr.optimizeCmp
  resolver.queryIndices resolver.indices unsupported ⟨forwarded, []⟩

/-- What a scan with logical filters sends to the server; none also where the unparser cannot write
what the conversion hands to it. -/
def sendLogicalFilters (unparser : Unparser) (filters : List Expr) :
    Option (ResolveIndexResult D) :=
  let supported := (resolver.splitFilters filters).filterMap fun split => split.1
  if supported.all fun part => part.leaves.all unparser.leaf then
    resolver.resolveIndicesForLogicalFilters filters
  else none

/-! ## Physical filters -/

/-- The columns of a physical leaf that the table may answer. -/
def columnsPhysical : IndexablePhysicalExpr → Option (List ColumnWithCast)
  | .eq column _ _ => some [column]
  | .inList (.column column) _ => some [column]
  | .kwSearchLike column _ => some [column]
  | .kwMatch columns _ => some (columns.map .ofColumn)
  | .inList (.tuple columns) _ => some columns
  | _ => none

/-- The table answers physical leaves on plain columns. -/
def canForwardExactPhysical (leaf : IndexablePhysicalExpr) (_ : TableStatistics) :
    Option IndexSelectivity := do
  let columns ← columnsPhysical leaf
  if columns.all fun column => resolver.forwardable column.column then some .absent else none

/-- What the table answers of a physical filter itself. -/
def physicalSupportOptions : SupportOptions PhysicalExpr where
  supportsNot := true
  supportsOr := true
  isSupported := resolver.canForwardExactPhysical

/-- Offers what is left of the physical filters to each index and collects the answers. At an
index without physical queries, what is left is dropped. -/
def queryIndicesPhysical : List (EncryptedIndex D) → Option IndexablePhysicalExpr →
    ResolveIndexResult D → Option (ResolveIndexResult D)
  | index :: rest, some unsupported, result =>
    match index.physicalSupportOptions with
    | none => queryIndicesPhysical rest none result
    | some options =>
      match unsupported.splitIntoSupportedUnsupported options resolver.statistics with
      | (none, left, _) => queryIndicesPhysical rest left result
      | (some supported, left, _) => do
        let answer ← index.physicalQuery supported
        queryIndicesPhysical rest left (result.push answer)
  | _, _, result => some result

/-- The filters that a scan with physical filters sends to the server; a part that has no server
expression is left out. -/
def resolveIndicesForPhysicalFilters (filters : List PhysicalExpr) :
    Option (ResolveIndexResult D) :=
  let splits := filters.map fun filter => (IndexablePhysicalExpr.ofExpr resolver.castTo filter
    ).splitIntoSupportedUnsupported resolver.physicalSupportOptions resolver.statistics
  let forwarded := (splits.filterMap fun split => split.1).filterMap IndexablePhysicalExpr.toAst
  let unsupported := reduce .and (splits.filterMap fun split => split.2.1)
  resolver.queryIndicesPhysical resolver.indices unsupported ⟨forwarded, []⟩

/-- The result of a dynamic filter of the planner, once its physical expression is complete. -/
def executeDynamicFilter (current : PhysicalExpr) : Option AstExpr := do
  let result ← resolver.resolveIndicesForPhysicalFilters [current]
  some ((reduce .and result.forwardedStatic).getD (.value (.boolean (some true))))

end IndexResolver

end SecureFusion.Filtering
