import SecureFusion.Filtering.ColumnRefs
import SecureFusion.Indices.Resolution

/-!
# What the server is told of a filter

The parts of a filter that the table answers are copied to the server as they are. The table
answers a leaf if every column that the leaf refers to is a plain column. The columns inside
a subquery and those of an outer query are not among them. Everything else reaches the server
only as the answer of an index.
-/

namespace SecureFusion.Sql.Expr

mutual

/-- The columns inside subqueries, and those of outer queries. -/
def hidden : Expr → List Column
  | .column _ | .literal _ => []
  | .aliased expr | .decrypt expr | .cast expr _ | .tryCast expr _ | .not expr | .isTrue expr
  | .isFalse expr | .isNotTrue expr | .isNotFalse expr => expr.hidden
  | .binary left _ right => left.hidden ++ right.hidden
  | .between _ expr low high => expr.hidden ++ low.hidden ++ high.hidden
  | .like _ _ _ expr pattern => expr.hidden ++ pattern.hidden
  | .inList _ expr list => expr.hidden ++ hiddenList list
  | .kwSearch args => hiddenList args
  | .function _ args => hiddenList args
  | .nested _ operands inner => hiddenList operands ++ columnRefsList inner ++ hiddenList inner

/-- The columns inside subqueries of several expressions. -/
def hiddenList : List Expr → List Column
  | [] => []
  | expr :: rest => expr.hidden ++ hiddenList rest

end

end SecureFusion.Sql.Expr

namespace SecureFusion.Filtering

open Library Sql

/-- The columns that a leaf mentions, hidden ones included. -/
def IndexableLogicalExpr.mentioned : IndexableLogicalExpr → List Column
  | .and left right | .or left right => mentioned left ++ mentioned right
  | .not operand => mentioned operand
  | .eq column _ _ | .between column _ _ | .kwSearchLike column _ => [column.column]
  | .inList (.column column) _ => [column.column]
  | .inList (.tuple columns) _ => columns.map ColumnWithCast.column
  | .kwMatch columns _ => columns
  | .other expr => expr.columnRefs ++ expr.hidden

namespace IndexResolver

variable {D : Type} (resolver : IndexResolver D) {leaf : IndexableLogicalExpr}

def ofTable (column : Column) : Bool :=
  match column.relation with
  | none => true
  | some relation => relation.table = resolver.tableRef.table &&
    (match relation.schema with
      | none => true
      | some schema => schema = resolver.tableRef.schema)

def encrypts (column : Column) : Bool :=
  resolver.ofTable column && resolver.encryptedColumns.contains column.name

/-- The parts of the filters that are copied to the server. -/
def copiedParts (filters : List Expr) : List IndexableLogicalExpr :=
  (resolver.splitFilters filters).filterMap fun split => split.1

theorem encrypts_of_forwardable {column : Column} (forwardable : resolver.forwardable column = true) :
    resolver.encrypts column = false := by
  have plain := (Bool.and_eq_true_iff.mp forwardable).2
  rw [encrypts, (Bool.not_eq_true' _).mp plain, Bool.and_false]

/-- An opaque leaf that the table answers although it hides an encrypted column. -/
def Leaks (expr : Expr) : Prop :=
  (∀ column ∈ expr.columnRefs, resolver.forwardable column = true) ∧
    ∃ column ∈ expr.hidden, resolver.encrypts column = true

theorem encrypts_of_canForward
    (supported : (resolver.canForwardExactLogical leaf resolver.statistics).isSome)
    (sound : ∀ expr, leaf = .other expr → ¬ resolver.Leaks expr) :
    ∀ column ∈ leaf.mentioned, resolver.encrypts column = false := by
  have forwardable := resolver.forwardable_of_canForward supported
  have plain : ∀ column ∈ leaf.columns, resolver.encrypts column = false := fun column member =>
    resolver.encrypts_of_forwardable (forwardable column member)
  cases leaf with
  | and | or | not => cases supported
  | eq | between | kwSearchLike | kwMatch => exact plain
  | inList columns values => cases columns <;> exact plain
  | other expr =>
    refine List.forall_mem_append.mpr ⟨plain, fun column member => ?_⟩
    rw [← Bool.not_eq_true]
    exact fun encrypted => sound expr rfl ⟨forwardable, column, member, encrypted⟩

theorem encrypts_of_copied {filters : List Expr} (sound : ∀ filter ∈ filters, ∀ expr,
      .other expr ∈ (IndexableLogicalExpr.ofExpr resolver.castTo filter).leaves →
      ¬ resolver.Leaks expr) :
    ∀ part ∈ resolver.copiedParts filters, ∀ leaf ∈ part.leaves,
      ∀ column ∈ IndexableLogicalExpr.mentioned leaf, resolver.encrypts column = false := by
  intro part isCopied leaf isIn
  obtain ⟨split, isSplit, isPart⟩ := List.mem_filterMap.mp isCopied
  obtain ⟨filter, isFilter, rfl⟩ := List.mem_map.mp isSplit
  have supported := supported_leaves (resolver.isLeaf_of_canForward _) _ part isPart leaf isIn
  refine resolver.encrypts_of_canForward supported fun expr same => ?_
  have original := (leaves_split (IndexableLogicalExpr.ofExpr resolver.castTo filter)
    (fun leaf isIn => isIn)).1 part isPart leaf isIn
  exact sound filter isFilter expr (same ▸ original)

/-- What the physical queries add to a result are answers of the indices. -/
theorem queryIndicesPhysical_adds {indices : List (EncryptedIndex D)}
    {unsupported : Option IndexablePhysicalExpr} {before after : ResolveIndexResult D}
    (queried : resolver.queryIndicesPhysical indices unsupported before = some after)
    {sql : AstExpr} (isSent : sql ∈ after.forwardedStatic) :
    sql ∈ before.forwardedStatic ∨
      ∃ index ∈ indices, ∃ part, index.physicalQuery part = some (.fixed sql) := by
  induction indices generalizing unsupported before with
  | nil =>
    cases queried
    exact .inl isSent
  | cons index rest ih =>
    have later {before : ResolveIndexResult D} {unsupported : Option IndexablePhysicalExpr}
        (queried : resolver.queryIndicesPhysical rest unsupported before = some after) :
        sql ∈ before.forwardedStatic ∨
          ∃ other ∈ index :: rest, ∃ part, other.physicalQuery part = some (.fixed sql) :=
      (ih queried).imp_right fun ⟨other, isIn, asked⟩ =>
        ⟨other, List.mem_cons_of_mem _ isIn, asked⟩
    cases unsupported with
    | none =>
      cases queried
      exact .inl isSent
    | some tree =>
      rw [queryIndicesPhysical] at queried
      split at queried
      · exact later queried
      · split at queried
        · exact later queried
        · rename_i supported _ _ _
          obtain ⟨answer, answered, queried⟩ := Option.bind_eq_some_iff.mp queried
          rcases later queried with isIn | asked
          · cases answer with
            | dynamic filter => exact .inl isIn
            | fixed added =>
              rcases List.mem_append.mp isIn with isIn | isAdded
              · exact .inl isIn
              · cases List.mem_singleton.mp isAdded
                exact .inr ⟨index, List.mem_cons_self, supported, answered⟩
          · exact .inr asked

/-- The part of a physical filter that is copied to the server names no encrypted column, and
a dynamic filter sends nothing but this part and answers of indices. -/
theorem copied_physical_confidential (filter : PhysicalExpr) :
    let split := (IndexablePhysicalExpr.ofExpr resolver.castTo filter
      ).splitIntoSupportedUnsupported resolver.physicalSupportOptions resolver.statistics
    split.1.all (·.leaves.all fun leaf =>
      (columnsPhysical leaf).any (·.all fun column => !resolver.encrypts column.column)) ∧
    ∀ sql, resolver.executeDynamicFilter filter = some sql → ∃ sent : List AstExpr,
      sql = (reduce .and sent).getD (.value (.boolean (some true))) ∧
      ∀ expr ∈ sent, split.1.bind IndexablePhysicalExpr.toAst = some expr ∨
        ∃ index ∈ resolver.indices, ∃ part, index.physicalQuery part = some (.fixed expr) := by
  have isLeaf (node : IndexablePhysicalExpr)
      (supported : (resolver.canForwardExactPhysical node resolver.statistics).isSome) :
      node.IsLeaf := by
    cases node <;> first | rfl | cases supported
  refine ⟨?_, fun sql executed => ?_⟩
  · simp only [Option.all_eq_true, List.all_eq_true]
    intro part isPart leaf isIn
    have supported := supported_leaves isLeaf _ part isPart leaf isIn
    revert supported
    simp only [physicalSupportOptions, canForwardExactPhysical]
    cases columnsPhysical leaf with
    | none => simp
    | some columns =>
      simpa using fun forwardable column isIn =>
        resolver.encrypts_of_forwardable (forwardable column isIn)
  · obtain ⟨result, resolved, same⟩ := Option.bind_eq_some_iff.mp executed
    cases same
    refine ⟨result.forwardedStatic, rfl, fun expr isSent => ?_⟩
    refine (resolver.queryIndicesPhysical_adds resolved isSent).imp_left fun isCopied => ?_
    obtain ⟨part, isPart, made⟩ := List.mem_filterMap.mp isCopied
    obtain ⟨split, isSplit, taken⟩ := List.mem_filterMap.mp isPart
    cases List.mem_singleton.mp isSplit
    rw [taken]
    exact made

/-- An answer that one of some indices gives to a part of the filters. -/
def IsAnswer (indices : List (EncryptedIndex D)) (answer : IndexQueryStrategy D) : Prop :=
  ∃ index ∈ indices, ∃ part, index.logicalQuery part = some answer

theorem queryIndices_adds {indices : List (EncryptedIndex D)}
    {unsupported : Option IndexableLogicalExpr} {before after : ResolveIndexResult D}
    (queried : resolver.queryIndices indices unsupported before = some after) :
    ∃ statics dynamics,
      after = ⟨before.forwardedStatic ++ statics, before.forwardedDynamic ++ dynamics⟩ ∧
      (∀ sql ∈ statics, IsAnswer indices (.fixed sql)) ∧
      ∀ filter ∈ dynamics, IsAnswer indices (.dynamic filter) := by
  induction indices generalizing unsupported before with
  | nil =>
    cases queried
    exact ⟨[], [], by simp, by simp, by simp⟩
  | cons index rest ih =>
    have later : ∀ answer, IsAnswer rest answer → IsAnswer (index :: rest) answer :=
      fun answer found => found.imp fun _ asked => ⟨List.mem_cons_of_mem _ asked.1, asked.2⟩
    cases unsupported with
    | none =>
      rw [queryIndices_none, Option.some.injEq] at queried
      exact ⟨[], [], by simp [queried], by simp, by simp⟩
    | some tree =>
      rw [queryIndices_cons] at queried
      dsimp only at queried
      split at queried
      · obtain ⟨statics, dynamics, same, fixed, dynamic⟩ := ih queried
        exact ⟨statics, dynamics, same, fun sql isIn => later _ (fixed sql isIn),
          fun filter isIn => later _ (dynamic filter isIn)⟩
      · rename_i supported _
        obtain ⟨answer, answered, queried⟩ := Option.bind_eq_some_iff.mp queried
        obtain ⟨statics, dynamics, rfl, fixed, dynamic⟩ := ih queried
        have here : IsAnswer (index :: rest) answer :=
          ⟨index, List.mem_cons_self, supported, answered⟩
        cases answer with
        | fixed sql =>
          exact ⟨sql :: statics, dynamics, by simp [ResolveIndexResult.push],
            List.forall_mem_cons.mpr ⟨here, fun sql isIn => later _ (fixed sql isIn)⟩,
            fun filter isIn => later _ (dynamic filter isIn)⟩
        | dynamic filter =>
          exact ⟨statics, filter :: dynamics, by simp [ResolveIndexResult.push],
            fun sql isIn => later _ (fixed sql isIn),
            List.forall_mem_cons.mpr ⟨here, fun filter isIn => later _ (dynamic filter isIn)⟩⟩

end IndexResolver

end SecureFusion.Filtering

namespace SecureFusion.Indices

open Library Sql Filtering Inverted

variable {permitted : ScalarValue → Prop} {leaf : IndexableLogicalExpr} {sql : AstExpr}

/-! ## Answers of the indices -/

/-- An expression of the server with only permitted values in it. -/
inductive OnlyValues (permitted : ScalarValue → Prop) : AstExpr → Prop where
  | identifier (name : String) : OnlyValues permitted (.identifier name)
  | compoundIdentifier (table name : String) :
      OnlyValues permitted (.compoundIdentifier table name)
  | value {value : ScalarValue} : permitted value → OnlyValues permitted (.value value)
  | binaryOp {left right : AstExpr} (op : Operator) : OnlyValues permitted left →
      OnlyValues permitted right → OnlyValues permitted (.binaryOp left op right)
  | unaryNot {expr : AstExpr} : OnlyValues permitted expr → OnlyValues permitted (.unaryNot expr)
  | between {expr low high : AstExpr} (negated : Bool) : OnlyValues permitted expr →
      OnlyValues permitted low → OnlyValues permitted high →
      OnlyValues permitted (.between negated expr low high)
  | inList {expr : AstExpr} {list : List AstExpr} (negated : Bool) : OnlyValues permitted expr →
      (∀ member ∈ list, OnlyValues permitted member) →
      OnlyValues permitted (.inList negated expr list)

theorem onlyValues_answerWith {E : Type} {leafAnswer : IndexableFilterExpr E → Option AstExpr}
    (leaves : ∀ leaf sql, leafAnswer leaf = some sql → OnlyValues permitted sql)
    {tree : IndexableFilterExpr E} (answered : tree.answerWith leafAnswer = some sql) :
    OnlyValues permitted sql := by
  induction tree generalizing sql with
  | and left right ihLeft ihRight | or left right ihLeft ihRight =>
    obtain ⟨first, isFirst, others⟩ := Option.bind_eq_some_iff.mp answered
    obtain ⟨second, isSecond, same⟩ := Option.bind_eq_some_iff.mp others
    cases same
    exact .binaryOp _ (ihLeft isFirst) (ihRight isSecond)
  | not => cases answered
  | _ => exact leaves _ _ answered

namespace IndexedTable

variable {size : RowIdColumnSize} (table : IndexedTable size)

/-- The values that the indices of a table send in place of literals. -/
inductive Derived : ScalarValue → Prop where
  /-- The identifier of a literal in a blind index. -/
  | identifier {index : BlindIndex} (member : .blind index ∈ table.indices)
      (literal : ScalarValue) :
      Derived (index.valueToBlindValue table.displayOther table.generator table.tableRef literal)
  /-- The bucket of a literal in a range index. -/
  | bucket {index : RangeIndex} (member : .range index ∈ table.indices) {literal : ScalarValue}
      {bucket : BitVec 32} (found : index.forValue literal = some bucket) :
      Derived (bucketValue bucket)
  /-- A row id that an inverted index answers. -/
  | rowId {index : InvertedIndex size} (member : .inverted index ∈ table.indices)
      {column : IdColumn size} (isColumn : table.idColumn = some column)
      {queries : List RawIndexQuery} {results : List (Finset (IndexedDocumentId size))}
      (answered : index.inner.query queries = some results)
      {ids : Finset (IndexedDocumentId size)} (isResult : ids ∈ results)
      {id : IndexedDocumentId size} (isId : id ∈ ids) {value : ScalarValue}
      (isLiteral : column.literal id = some value) : Derived value
  /-- The condition that no row satisfies. -/
  | noRow : Derived (.boolean (some false))

variable {table} {column : IdColumn size}

theorem onlyValues_blind {index : BlindIndex} (member : .blind index ∈ table.indices)
    (answered : index.leafToExpr table.displayOther table.generator table.tableRef leaf =
      some sql) : OnlyValues table.Derived sql := by
  unfold BlindIndex.leafToExpr at answered
  split at answered
  · split at answered
    · cases answered
      refine .inList _ (.compoundIdentifier _ _) (List.forall_mem_map.mpr fun value _ => ?_)
      exact .value (.identifier member value)
    · cases answered
  · split at answered
    · cases answered
      exact .binaryOp _ (.compoundIdentifier _ _) (.value (.identifier member _))
    · cases answered
  · cases answered

theorem onlyValues_range {index : RangeIndex} (member : .range index ∈ table.indices)
    (answered : index.leafToExpr table.tableRef leaf = some sql) :
    OnlyValues table.Derived sql := by
  unfold RangeIndex.leafToExpr at answered
  split at answered
  · split at answered
    · obtain ⟨low, isLow, others⟩ := Option.bind_eq_some_iff.mp answered
      obtain ⟨high, isHigh, same⟩ := Option.bind_eq_some_iff.mp others
      cases same
      exact .between _ (.compoundIdentifier _ _) (.value (.bucket member isLow))
        (.value (.bucket member isHigh))
    · cases answered
  · split at answered
    · obtain ⟨bucket, isBucket, same⟩ := Option.bind_eq_some_iff.mp answered
      cases same
      exact .binaryOp _ (.compoundIdentifier _ _) (.value (.bucket member isBucket))
    · cases answered
  · cases answered

theorem onlyValues_answerExpr (noRow : permitted (.boolean (some false)))
    {values : List ScalarValue} (each : ∀ value ∈ values, permitted value) :
    OnlyValues permitted (column.answerExpr values) := by
  unfold IdColumn.answerExpr
  split
  · exact .value noRow
  · exact .binaryOp _ (.identifier _) (.value (each _ (List.mem_singleton_self _)))
  · exact .inList _ (.identifier _)
      (List.forall_mem_map.mpr fun value isIn => .value (each value isIn))

theorem onlyValues_toExpr (noRow : permitted (.boolean (some false))) {tree : ExecutableFilterTree}
    {results rest : List (Finset (IndexedDocumentId size))}
    (each : ∀ ids ∈ results, ∀ id ∈ ids, ∀ value, column.literal id = some value →
      permitted value) (made : tree.toExpr column results = some (sql, rest)) :
    OnlyValues permitted sql ∧ ∀ ids ∈ rest, ids ∈ results := by
  induction tree generalizing results rest sql with
  | and left right ihLeft ihRight | or left right ihLeft ihRight =>
    obtain ⟨⟨first, middle⟩, isFirst, others⟩ := Option.bind_eq_some_iff.mp made
    obtain ⟨⟨second, last⟩, isSecond, same⟩ := Option.bind_eq_some_iff.mp others
    cases same
    have onLeft := ihLeft each isFirst
    have onRight := ihRight (fun ids isIn => each ids (onLeft.2 ids isIn)) isSecond
    exact ⟨.binaryOp _ onLeft.1 onRight.1, fun ids isIn => onLeft.2 ids (onRight.2 ids isIn)⟩
  | not operand ih =>
    obtain ⟨⟨inner, last⟩, isInner, same⟩ := Option.bind_eq_some_iff.mp made
    cases same
    have inside := ih each isInner
    exact ⟨.unaryNot inside.1, inside.2⟩
  | filterExpr query =>
    obtain ⟨ids, isLast, others⟩ := Option.bind_eq_some_iff.mp made
    obtain ⟨values, literals, same⟩ := Option.bind_eq_some_iff.mp others
    cases same
    have isResult : ids ∈ results := List.mem_of_getLast? isLast
    refine ⟨onlyValues_answerExpr noRow fun value isIn => ?_, fun ids => List.mem_of_mem_dropLast⟩
    obtain ⟨id, isId, isLiteral⟩ :=
      Rows.exists_of_forall₂_right ((Rows.mapM_eq_some_iff _ _ _).mp literals) isIn
    exact each ids isResult id ((column.mem_iterate ids id).mp isId) value isLiteral

theorem onlyValues_answer {answer : IndexQueryStrategy (InvertedIndexExec size)}
    (isAnswer : IndexResolver.IsAnswer table.resolver.indices answer) :
    match answer with
    | .fixed sql => OnlyValues table.Derived sql
    | .dynamic filter => ∀ sql, filter.executeFilter = some sql → OnlyValues table.Derived sql := by
  obtain ⟨index, isIndex, part, answered⟩ := isAnswer
  obtain ⟨tableIndex, member, rfl⟩ := List.mem_map.mp isIndex
  cases tableIndex with
  | blind index =>
    obtain ⟨sql, made, rfl⟩ := Option.map_eq_some_iff.mp answered
    exact onlyValues_answerWith (fun _ _ => onlyValues_blind member) made
  | range index =>
    obtain ⟨sql, made, rfl⟩ := Option.map_eq_some_iff.mp answered
    exact onlyValues_answerWith (fun _ _ => onlyValues_range member) made
  | inverted index =>
    obtain ⟨column, isColumn, queried⟩ := Option.bind_eq_some_iff.mp answered
    obtain ⟨tree, _, same⟩ := Option.bind_eq_some_iff.mp queried
    cases same
    intro sql executed
    obtain ⟨results, found, others⟩ := Option.bind_eq_some_iff.mp executed
    obtain ⟨⟨expr, rest⟩, made, same⟩ := Option.bind_eq_some_iff.mp others
    cases same
    exact (onlyValues_toExpr .noRow (fun ids isResult id isId value isLiteral =>
      .rowId member isColumn found isResult isId isLiteral) made).1

/-! ## Copied leaves -/

variable (table)

/-- The copied leaves of the filters of a scan mention no encrypted column, and everything else
that is sent for the filters has only derived values in it. -/
structure Confidential (filters : List Expr) (result : ResolveIndexResult (InvertedIndexExec size)) :
    Prop where
  copied : ∀ part ∈ table.resolver.copiedParts filters, ∀ leaf ∈ part.leaves,
    ∀ column ∈ IndexableLogicalExpr.mentioned leaf, table.resolver.encrypts column = false
  answers : ∃ copied answers,
    (table.resolver.copiedParts filters).mapM IndexableLogicalExpr.toAst = some copied ∧
    result.forwardedStatic = copied ++ answers ∧ ∀ sql ∈ answers, OnlyValues table.Derived sql
  executed : ∀ filter ∈ result.forwardedDynamic, ∀ sql, filter.executeFilter = some sql →
    OnlyValues table.Derived sql

variable {table}

theorem confidential_of_sound {filters : List Expr}
    {result : ResolveIndexResult (InvertedIndexExec size)}
    (sound : ∀ filter ∈ filters, ∀ expr,
      .other expr ∈ (IndexableLogicalExpr.ofExpr table.castTo filter).leaves →
      ¬ table.resolver.Leaks expr)
    (resolved : table.resolver.resolveIndicesForLogicalFilters filters = some result) :
    table.Confidential filters result := by
  obtain ⟨copied, isCopied, queried⟩ := Option.bind_eq_some_iff.mp resolved
  obtain ⟨statics, dynamics, rfl, fixed, dynamic⟩ := table.resolver.queryIndices_adds queried
  refine ⟨table.resolver.encrypts_of_copied sound, ⟨copied, statics, isCopied, rfl, ?_⟩, ?_⟩
  · exact fun sql isIn => onlyValues_answer (fixed sql isIn)
  · exact fun filter isIn => onlyValues_answer (dynamic filter isIn)

/-! ## Leaves as filters -/

section Leaves

variable {castTo : DataType → ScalarValue → Option ScalarValue} {decrypted : Option Expr}
  {expr : Expr} {tree : IndexableLogicalExpr}

theorem exists_filter_of_isLeaf
    (outer : ∀ whole, decrypted = some whole → whole = .decrypt expr)
    (made : ofExprBelow castTo decrypted expr = tree) (isLeaf : tree.IsLeaf) :
    ∀ leaf ∈ tree.leaves, ∃ filter, IndexableLogicalExpr.ofExpr castTo filter = leaf := by
  intro leaf isIn
  rw [IndexableFilterExpr.leaves, isLeaf] at isIn
  rw [List.mem_singleton.mp isIn, ← made]
  cases decrypted with
  | none => exact ⟨expr, rfl⟩
  | some whole =>
    rw [outer whole rfl]
    exact ⟨.decrypt expr, by rw [IndexableLogicalExpr.ofExpr, ofExprBelow]⟩

theorem isLeaf_getD {made : Option IndexableLogicalExpr} {expr : Expr}
    (leaf : ∀ one, made = some one → one.IsLeaf) : (made.getD (.other expr)).IsLeaf := by
  cases made with
  | none => rfl
  | some one => exact leaf one rfl

theorem isLeaf_betweenLogical {low high : Expr} (made : betweenLogical castTo expr low high = some tree) :
    tree.IsLeaf := by
  simp only [betweenLogical, bind_some_iff, Option.some.injEq] at made
  obtain ⟨_, _, _, _, _, _, rfl⟩ := made
  rfl

theorem isLeaf_comparisonLogical {right : Expr} {operator : Operator}
    (made : comparisonLogical castTo expr operator right = some tree) : tree.IsLeaf := by
  simp only [comparisonLogical, IndexableFilterExpr.comparison, bind_some_iff,
    Option.some.injEq] at made
  obtain ⟨_, _, _, _, _, _, rfl⟩ := made
  rfl

theorem isLeaf_likeLogical {pattern : Expr} (made : likeLogical castTo expr pattern = some tree) :
    tree.IsLeaf := by
  simp only [likeLogical, IndexableFilterExpr.patternMatch, bind_some_iff] at made
  obtain ⟨_, _, _, _, made⟩ := made
  split at made
  · cases made
    rfl
  · cases made

theorem isLeaf_inListLogical {list : List Expr} (made : inListLogical castTo expr list = some tree) :
    tree.IsLeaf := by
  simp only [inListLogical, IndexableFilterExpr.membership, bind_some_iff,
    Option.some.injEq] at made
  obtain ⟨_, _, _, _, rfl⟩ := made
  rfl

theorem isLeaf_kwMatchLogical {args : List Expr} (made : kwMatchLogical args = some tree) :
    tree.IsLeaf := by
  obtain ⟨_, _, same⟩ := Option.bind_eq_some_iff.mp made
  cases same
  rfl

theorem exists_filter_of_leaf
    (outer : ∀ whole, decrypted = some whole → whole = .decrypt expr) :
    ∀ leaf ∈ (ofExprBelow castTo decrypted expr).leaves,
      ∃ filter, IndexableLogicalExpr.ofExpr castTo filter = leaf := by
  have fresh : ∀ {expr : Expr} (whole : Expr), none = some whole → whole = .decrypt expr := by
    intro expr whole absent
    cases absent
  fun_induction ofExprBelow castTo decrypted expr with
  | case1 expr ih => exact ih fun whole same => (Option.some.inj same).symm
  | case2 | case4 | case5 | case20 | case21 =>
    exact exists_filter_of_isLeaf outer (by rw [ofExprBelow]) rfl
  | case6 =>
    exact exists_filter_of_isLeaf outer (by rw [ofExprBelow])
      (isLeaf_getD fun _ => isLeaf_betweenLogical)
  | case7 _ left right ihLeft ihRight | case8 _ left right ihLeft ihRight =>
    exact List.forall_mem_append.mpr ⟨ihLeft fresh, ihRight fresh⟩
  | case9 decrypted left right operator notAnd notOr =>
    refine exists_filter_of_isLeaf outer ?_ (isLeaf_getD fun _ => isLeaf_comparisonLogical)
    rw [ofExprBelow]
    · exact notAnd
    · exact notOr
  | case10 =>
    exact exists_filter_of_isLeaf outer (by rw [ofExprBelow])
      (isLeaf_getD fun _ => isLeaf_likeLogical)
  | case11 =>
    exact exists_filter_of_isLeaf outer (by rw [ofExprBelow])
      (isLeaf_getD fun _ => isLeaf_inListLogical)
  | case12 =>
    exact exists_filter_of_isLeaf outer (by rw [ofExprBelow])
      (isLeaf_getD fun _ => isLeaf_kwMatchLogical)
  | case3 _ expr ih | case13 _ expr ih | case14 _ expr ih | case15 _ expr ih | case16 _ expr ih
  | case17 _ expr ih | case18 _ expr _ ih | case19 _ expr _ ih => exact ih fresh

end Leaves

theorem copied_of_leaks {filter expr : Expr}
    (isLeaf : IndexableLogicalExpr.ofExpr table.castTo filter = .other expr)
    (leaks : table.resolver.Leaks expr) :
    table.resolver.copiedParts [filter] = [.other expr] ∧
      table.resolver.resolveIndicesForLogicalFilters [filter] = some ⟨[.unparsed expr], []⟩ := by
  have supported : (table.resolver.logicalSupportOptions.isSupported (.other expr)
      table.resolver.statistics).isSome :=
    (table.resolver.isSome_canForwardExactLogical_iff _ _).mpr
      ⟨_, rfl, List.forall_mem_map.mpr leaks.1⟩
  have leaf : (IndexableFilterExpr.other expr : IndexableLogicalExpr).IsLeaf := rfl
  obtain ⟨taken, nothing⟩ := (split_leaf leaf).1 supported
  have split : table.resolver.splitFilters [filter] =
      [(IndexableFilterExpr.other expr : IndexableLogicalExpr).splitIntoSupportedUnsupported
        table.resolver.logicalSupportOptions table.resolver.statistics] := by
    rw [IndexResolver.splitFilters, List.map_singleton]
    exact congrArg (fun tree => [IndexableFilterExpr.splitIntoSupportedUnsupported _ _ tree]) isLeaf
  refine ⟨by rw [IndexResolver.copiedParts, split, List.filterMap_cons, taken, List.filterMap_nil], ?_⟩
  rw [IndexResolver.resolveIndicesForLogicalFilters, split]
  simp only [List.filterMap_cons, taken, nothing, List.filterMap_nil, reduce, Option.map_none,
    IndexResolver.queryIndices_none]
  rfl

/-- For every class of opaque leaves: all filters with opaque leaves in the class are forwarded
confidentially if and only if no leaf in the class leaks an encrypted column. -/
theorem forwarded_confidential_iff (table : IndexedTable size) (permitted : Expr → Prop) :
    (∀ filters result,
      (∀ filter ∈ filters, ∀ expr,
        .other expr ∈ (IndexableLogicalExpr.ofExpr table.castTo filter).leaves → permitted expr) →
      table.resolver.resolveIndicesForLogicalFilters filters = some result →
      table.Confidential filters result) ↔
    ∀ filter expr, IndexableLogicalExpr.ofExpr table.castTo filter = .other expr →
      permitted expr → ¬ table.resolver.Leaks expr := by
  constructor
  · intro confidential filter expr isLeaf isPermitted leaks
    obtain ⟨copied, resolved⟩ := copied_of_leaks isLeaf leaks
    have result := confidential [filter] _ ?_ resolved
    · obtain ⟨column, isHidden, encrypted⟩ := leaks.2
      have plain := result.copied (.other expr) (by rw [copied]; exact List.mem_singleton_self _)
        (.other expr) (List.mem_singleton_self _) column (List.mem_append_right _ isHidden)
      rw [encrypted] at plain
      cases plain
    · rintro other isIn leaf isOther
      rw [List.mem_singleton.mp isIn, isLeaf] at isOther
      cases List.mem_singleton.mp isOther
      exact isPermitted
  · intro sound filters result leaves resolved
    refine confidential_of_sound (fun filter isIn expr isOther => ?_) resolved
    obtain ⟨source, made⟩ := exists_filter_of_leaf (fun _ absent => by cases absent) _ isOther
    exact sound source expr made (leaves filter isIn expr isOther)

end IndexedTable

/-- The condition "exists (select ... where x = 'foo')". -/
def existsFoo : Expr := .nested "EXISTS" [] [.binary columnX .eq (.literal (utf8 "foo"))]

/-- The subquery is copied to the server as it is, with the literal that it compares with the
encrypted column. -/
theorem existsFoo_forwarded :
    wordsTable.resolver.resolveIndicesForLogicalFilters [existsFoo] =
        some ⟨[.unparsed existsFoo], []⟩ ∧
      .other existsFoo ∈ wordsTable.resolver.copiedParts [existsFoo] ∧
      ∃ column ∈ IndexableLogicalExpr.mentioned (.other existsFoo),
        column.name = "x" ∧ wordsTable.resolver.encrypts column = true := by
  have hidden : Column.fromName "x" ∈ existsFoo.hidden := List.mem_singleton_self _
  have leaks : wordsTable.resolver.Leaks existsFoo := ⟨nofun, _, hidden, rfl⟩
  have isLeaf : IndexableLogicalExpr.ofExpr wordsTable.castTo existsFoo = .other existsFoo := rfl
  obtain ⟨copied, resolved⟩ := IndexedTable.copied_of_leaks isLeaf leaks
  exact ⟨resolved, copied ▸ List.mem_singleton_self _, _, List.mem_append_right _ hidden, rfl, rfl⟩

end SecureFusion.Indices
