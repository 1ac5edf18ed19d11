import SecureFusion.Filtering.Residual
import SecureFusion.Indices.Forwarding
import SecureFusion.Providers.StoredRows

/-!
# Statements on a table

What the planner knows of the table that a statement reads and writes, and what happens
when the statement is executed: the server evaluates conditions on stored rows, the proxy
runs a query and gets the rows that the query returns.
-/

namespace SecureFusion.Filtering

open Sql

/-- The filters of the scan of a query are found and executed. -/
def IndexResolver.Answers {D : Type} (resolver : IndexResolver D) (execute : D → Option AstExpr)
    (condition : Expr) : Prop :=
  ∃ result, resolver.resolveIndicesForLogicalFilters (resolver.pushedFilters condition) =
      some result ∧
    ∀ filter ∈ result.forwardedDynamic, (execute filter).isSome

end SecureFusion.Filtering

namespace SecureFusion.Planning

open Library Sql Crypto Filtering Providers Sinks

/-- A table with its indices; D is the type of dynamic filters. -/
structure QueryTable (D : Type) where
  provider : MySqlTableProvider
  indices : List (EncryptedIndex D)
  statistics : TableStatistics
  /-- The planner's cast of literals. -/
  castTo : DataType → ScalarValue → Option ScalarValue
  /-- Whether an index is stored outside the table. -/
  hasIndexStorage : Bool

namespace QueryTable

variable {D : Type} (table : QueryTable D)

def resolver : IndexResolver D where
  tableRef := table.provider.tableReference
  encryptedColumns := table.provider.encryptedNames
  indices := table.indices
  statistics := table.statistics
  castTo := table.castTo

variable {table}

theorem metadata_of_plain {name : String}
    (plain : table.resolver.encryptedColumns.contains name = false) :
    table.provider.getColumnMetadata name = none := by
  rw [MySqlTableProvider.getColumnMetadata, List.lookup_eq_none_iff]
  intro entry isIn
  rw [bne_iff_ne]
  rintro rfl
  have listed : entry.1 ∈ table.resolver.encryptedColumns := List.mem_map_of_mem isIn
  rw [List.contains_eq_mem, decide_eq_false_iff_not] at plain
  exact plain listed

theorem metadata_of_exact {filter : Expr}
    (exact : (table.resolver.supportsFiltersPushdown [filter])[0]? = some .exact) :
    ∀ column ∈ filter.columnRefs, table.provider.getColumnMetadata column.name = none := by
  intro column isIn
  apply metadata_of_plain
  by_cases encrypted : table.resolver.hasEncryptedColumns = true
  · have supported : table.resolver.filterSupportedForExpr filter = .exact := by
      simpa [IndexResolver.supportsFiltersPushdown, encrypted] using exact
    have forwardable := table.resolver.forwardable_of_exact supported column isIn
    exact (Bool.not_eq_true' _).mp (Bool.and_eq_true_iff.mp forwardable).2
  · have empty : table.resolver.encryptedColumns = [] := by
      simpa [IndexResolver.hasEncryptedColumns] using encrypted
    rw [empty]
    rfl

end QueryTable

/-! ## Execution -/

/-- The server and the proxy that execute statements on a table. -/
structure Environment {D : Type} (table : QueryTable D) where
  server : TableServer
  /-- The name of a type in the additional data. -/
  typeName : DataType → Bytes
  semantics : Semantics
  /-- Execution of dynamic filters. -/
  execute : D → Option AstExpr
  /-- What the server makes of a condition on a stored row. -/
  serverTruth : Expr → StoredRow → Truth
  /-- On plain columns, with no encrypted column inside a subquery, the server evaluates a condition
  as the proxy does. -/
  serverTruth_plain : ∀ condition stored row,
    (∀ column ∈ condition.hidden, table.resolver.encrypts column = false) →
    (∀ column ∈ condition.columnRefs,
      stored (utf8Bytes column.name) = .plain (row column.name)) →
    serverTruth condition stored = condition.truth semantics row

namespace Environment

variable {D : Type} {table : QueryTable D} (environment : Environment table)

abbrev TableRow := table.provider.ReadableRow environment.typeName

/-- What a query may give: it fails if the filters of its scan do, and otherwise gives the rows that
it returns, each of them once. -/
structure Queries (rows : List environment.TableRow) (condition : Expr)
    (outcome : Evaluated (List environment.TableRow)) : Prop where
  answered : table.resolver.Answers environment.execute condition →
    ∃ selected, outcome = .ok selected ∧ selected.Nodup ∧
      ∀ readable, readable ∈ selected ↔ readable ∈ rows ∧
        table.resolver.Returns environment.execute environment.semantics condition readable.row
  unanswered : ¬ table.resolver.Answers environment.execute condition →
    ∃ failure, outcome = .error failure

open Classical in
/-- The query that returns its rows in the order of the table. -/
noncomputable def query (rows : List environment.TableRow) (condition : Expr) :
    Evaluated (List environment.TableRow) :=
  if table.resolver.Answers environment.execute condition then
    .ok (rows.filter fun readable =>
      table.resolver.Returns environment.execute environment.semantics condition readable.row)
  else .error (.execution "error during index query")

theorem queries_query {rows : List environment.TableRow} (distinct : rows.Nodup)
    (condition : Expr) : environment.Queries rows condition (environment.query rows condition) where
  answered := by
    classical
    intro answers
    refine ⟨_, if_pos answers, distinct.filter _, fun readable => ?_⟩
    exact List.mem_filter.trans (and_congr_right fun _ => decide_eq_true_iff)
  unanswered := fun fails => ⟨_, if_neg fails⟩

/-- A query succeeds and returns the rows that satisfy its condition. -/
structure SelectsExactly (rows : List environment.TableRow) (condition : Expr) : Prop where
  answers : table.resolver.Answers environment.execute condition
  returns : ∀ readable ∈ rows,
    table.resolver.Returns environment.execute environment.semantics condition readable.row ↔
      condition.truth environment.semantics readable.row = .true

end Environment

end SecureFusion.Planning
