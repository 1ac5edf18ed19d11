import SecureFusion.Filtering.Conversion

/-!
# Filters that the planner gives up

A filter that is announced as exact is evaluated by the server alone. For a table
with encrypted columns the announcement looks at the same split as the scan; for
any other table it does not look at the filter, while the scan still forwards only
what the table answers leaf by leaf. The filter is not lost if the forwarded part of
its tree implies the tree.
-/

namespace SecureFusion.Filtering

open Library Sql List

def ResolveIndexResult.Sends {D : Type} (result : ResolveIndexResult D) :
    IndexQueryStrategy D → Prop
  | .fixed sql => sql ∈ result.forwardedStatic
  | .dynamic filter => filter ∈ result.forwardedDynamic

theorem ResolveIndexResult.Sends.push {D : Type} {result : ResolveIndexResult D}
    {sent : IndexQueryStrategy D} (isSent : result.Sends sent) (answer : IndexQueryStrategy D) :
    (result.push answer).Sends sent := by
  cases sent <;> cases answer <;>
    first
    | exact isSent
    | exact mem_append_left _ isSent

namespace IndexResolver

variable {D : Type} (resolver : IndexResolver D) {filters : List Expr}
  {supported : IndexableLogicalExpr} {filter : Expr}

def filterKind (filter : Expr) : SplitKind :=
  splitKind resolver.logicalSupportOptions resolver.statistics
    (IndexableLogicalExpr.ofExpr resolver.castTo filter)

theorem sends_of_queryIndices {indices : List (EncryptedIndex D)}
    {unsupported : Option IndexableLogicalExpr} {before after : ResolveIndexResult D}
    (queried : resolver.queryIndices indices unsupported before = some after)
    {sent : IndexQueryStrategy D} (isSent : before.Sends sent) : after.Sends sent := by
  fun_induction queryIndices resolver indices unsupported before with
  | case1 index rest unsupported result left _ split ih => exact ih queried isSent
  | case2 index rest unsupported result supported left _ split ih =>
    simp only [bind_some_iff] at queried
    obtain ⟨answer, _, queriedRest⟩ := queried
    exact ih answer queriedRest (isSent.push answer)
  | case3 =>
    cases queried
    exact isSent

theorem forwarded_of_resolve {result : ResolveIndexResult D}
    (resolved : resolver.resolveIndicesForLogicalFilters filters = some result)
    (member : filter ∈ filters)
    (part : ((IndexableLogicalExpr.ofExpr resolver.castTo filter).splitIntoSupportedUnsupported
      resolver.logicalSupportOptions resolver.statistics).1 = some supported) :
    ∃ sql ∈ result.forwardedStatic, supported.toAst = some sql := by
  simp only [resolveIndicesForLogicalFilters, bind_some_iff] at resolved
  obtain ⟨forwarded, rebuilt, queried⟩ := resolved
  have isPart : supported ∈ (resolver.splitFilters filters).filterMap fun split => split.1 := by
    rw [mem_filterMap]
    exact ⟨_, mem_map_of_mem member, part⟩
  obtain ⟨sql, isForwarded, isSql⟩ := Rows.exists_mem_of_mapM rebuilt isPart
  exact ⟨sql, @sends_of_queryIndices D resolver _ _ _ _ queried (.fixed sql) isForwarded, isSql⟩

theorem holds_of_forwarded {semantics : Semantics} (casts : resolver.castTo = semantics.cast)
    {result : ResolveIndexResult D}
    (resolved : resolver.resolveIndicesForLogicalFilters filters = some result)
    (member : filter ∈ filters)
    (part : ((IndexableLogicalExpr.ofExpr resolver.castTo filter).splitIntoSupportedUnsupported
      resolver.logicalSupportOptions resolver.statistics).1 = some supported)
    (implies : ∀ leaves, supported.eval leaves = .true →
      (IndexableLogicalExpr.ofExpr resolver.castTo filter).eval leaves = .true) {row : Row}
    (faithful : FaithfulLogical semantics row true filter)
    (selected : ∀ sql ∈ result.forwardedStatic, sql.truth semantics row = .true) :
    filter.truth semantics row = .true := by
  obtain ⟨sql, isForwarded, rebuilt⟩ := resolver.forwarded_of_resolve resolved member part
  have onServer : supported.truth semantics row (Expr.truth semantics row) = .true := by
    rw [← IndexableLogicalExpr.truth_toAst rebuilt]
    exact selected sql isForwarded
  have onTree := implies _ onServer
  rw [casts] at onTree
  have agree := agree_ofExprBelow none filter true (fun _ absent => by cases absent) faithful
  exact agree.mpr onTree

theorem mem_zip_supportsFiltersPushdown {answer : FilterPushDown}
    (announced : (filter, answer) ∈ filters.zip (resolver.supportsFiltersPushdown filters)) :
    filter ∈ filters ∧ (if resolver.hasEncryptedColumns
      then resolver.filterSupportedForExpr filter else .exact) = answer := by
  have paired : filters.zip (resolver.supportsFiltersPushdown filters) =
      filters.map fun filter => (filter, if resolver.hasEncryptedColumns
        then resolver.filterSupportedForExpr filter else .exact) := by
    rw [supportsFiltersPushdown, ← zip_map', map_id']
  rw [paired, mem_map] at announced
  obtain ⟨_, member, same⟩ := announced
  cases same
  exact ⟨member, rfl⟩

/-- On a row that satisfies the static filters of a scan and on which the conversion of a filter
is faithful, the filter holds if it was announced as exact and, on a table without encrypted
columns, the forwarded part of its tree implies the tree. -/
theorem exact_filter_holds {semantics : Semantics} (casts : resolver.castTo = semantics.cast)
    {filters : List Expr} {result : ResolveIndexResult D}
    (resolved : resolver.resolveIndicesForLogicalFilters filters = some result) {filter : Expr}
    (announced : (filter, FilterPushDown.exact) ∈
      filters.zip (resolver.supportsFiltersPushdown filters))
    (sufficient : resolver.hasEncryptedColumns = false →
      (resolver.filterKind filter).Sufficient)
    {row : Row} (faithful : FaithfulLogical semantics row true filter)
    (selected : ∀ sql ∈ result.forwardedStatic, sql.truth semantics row = .true) :
    filter.truth semantics row = .true := by
  obtain ⟨member, told⟩ := resolver.mem_zip_supportsFiltersPushdown announced
  -- The forwarded part of the tree implies the tree, whichever way it was announced.
  obtain ⟨supported, part, implies⟩ : ∃ supported,
      ((IndexableLogicalExpr.ofExpr resolver.castTo filter).splitIntoSupportedUnsupported
        resolver.logicalSupportOptions resolver.statistics).1 = some supported ∧
      ∀ leaves, supported.eval leaves = .true →
        (IndexableLogicalExpr.ofExpr resolver.castTo filter).eval leaves = .true := by
    by_cases encrypted : resolver.hasEncryptedColumns
    · rw [if_pos encrypted] at told
      obtain ⟨selectivity, split⟩ := resolver.split_of_exact told
      exact ⟨_, congrArg Prod.fst split, fun _ holds => holds⟩
    · exact holds_of_sufficient (sufficient (Bool.eq_false_iff.mpr encrypted))
  exact resolver.holds_of_forwarded casts resolved member part implies faithful selected

end IndexResolver

/-- A table without encrypted columns and without indices. -/
def plainTable : IndexResolver Empty := { partlyEncryptedTable with encryptedColumns := [] }

def xBetween : Expr := .between false columnX (.literal (int32 1)) (.literal (int32 3))

/-- Of x = 1 OR x BETWEEN 1 AND 3 the scan forwards x = 1, and on a row with x = 1 the filter
holds. -/
theorem exact_filter_holds_disjunction :
    ∃ result, plainTable.resolveIndicesForLogicalFilters
        [.binary (exprEquals "x" 1) .or xBetween] = some result ∧
      (∀ sql ∈ result.forwardedStatic, sql.truth .basic (fun _ => int32 1) = .true) ∧
      (Expr.binary (exprEquals "x" 1) .or xBetween).truth .basic (fun _ => int32 1) = .true := by
  have resolved : plainTable.resolveIndicesForLogicalFilters
      [.binary (exprEquals "x" 1) .or xBetween] =
        some ⟨[.binaryOp (.identifier "x") .eq (.value (int32 1))], []⟩ := rfl
  have selected : ∀ sql ∈ [AstExpr.binaryOp (.identifier "x") .eq (.value (int32 1))],
      sql.truth .basic (fun _ => int32 1) = .true := by
    intro sql member
    rw [mem_singleton.mp member]
    decide
  refine ⟨_, resolved, selected, plainTable.exact_filter_holds rfl resolved
    (mem_singleton_self _) (fun _ => by decide) ?_ selected⟩
  simp [FaithfulLogical, exprEquals, xBetween, columnX, singleCastLogical]

/-- Filters that are announced as exact and a row on which all that is sent for them holds, but
not the filter itself. -/
def lostFilters : List (IndexResolver Empty × Expr × Row) :=
  -- x BETWEEN 1 AND 3 is not sent at all
  [(plainTable, xBetween, fun _ => int32 5),
  -- of a = 1 AND x BETWEEN 1 AND 3 only a = 1 is sent
  (plainTable, .binary (exprEquals "a" 1) .and xBetween,
    fun column => if column = "a" then int32 1 else int32 5),
  -- of NOT (a = 1 OR x BETWEEN 1 AND 3) only NOT a = 1 is sent
  (plainTable, .not (.binary (exprEquals "a" 1) .or xBetween), fun _ => int32 2),
  -- x NOT IN (1) is sent as x IN (1)
  (partlyEncryptedTable, .inList true columnX [.literal (int32 1)], fun _ => int32 1)]

/-- Each of the lost filters is announced as exact, and the server returns a row that does not
satisfy it. -/
theorem exact_filter_lost :
    (∀ entry ∈ lostFilters, entry.1.supportsFiltersPushdown [entry.2.1] = [.exact]) ∧
      ∀ entry ∈ lostFilters,
        (entry.1.resolveIndicesForLogicalFilters [entry.2.1]).map (fun result =>
          result.forwardedStatic.all fun sql => sql.truth .basic entry.2.2 = .true) = some true ∧
        entry.2.1.truth .basic entry.2.2 = .false := by
  decide +kernel

end SecureFusion.Filtering
