import SecureFusion.Filtering.Coverage
import SecureFusion.Indices.BlindIndex
import SecureFusion.Indices.InvertedIndex
import SecureFusion.Indices.RangeQueries

/-!
# Tables with indices

A table has blind, range and inverted indices. Each of them answers a leaf with a superset
of the rows that satisfy it, and combines such answers for a tree. Blind and range indices
combine them with AND and OR only. The inverted index also negates them, and assigns the
answers to the leaves in reverse order; a disjunction of conjunctions of leaves survives
both.
-/

namespace SecureFusion.Indices

open Library Sql Filtering Inverted List IndexableFilterExpr ExecutableFilterTree InvertedIndex
open Option

variable {statistics : TableStatistics} {E : Type} {tree : IndexableFilterExpr E}
  {leaf : IndexableFilterExpr E} {semantics : Semantics} {sql : AstExpr} {row : Row}

/-- An index of a table. -/
inductive TableIndex (size : RowIdColumnSize) where
  | blind (index : BlindIndex)
  | range (index : RangeIndex)
  | inverted (index : InvertedIndex size)

/-- A table with its indices. -/
structure IndexedTable (size : RowIdColumnSize) where
  tableRef : ResolvedTableReference
  encryptedColumns : List String
  indices : List (TableIndex size)
  statistics : TableStatistics
  idColumn : Option (IdColumn size)
  castTo : DataType → ScalarValue → Option ScalarValue
  displayOther : ScalarValue → String
  generator : IdentifierContext → Bytes → Nat → String

namespace IndexedTable

variable {size : RowIdColumnSize} (table : IndexedTable size)

/-- An index as the resolver sees it. -/
def encryptedIndex : TableIndex size → EncryptedIndex (InvertedIndexExec size)
  | .blind index => index.encryptedIndex table.displayOther table.generator _ table.tableRef
  | .range index => index.encryptedIndex _ table.tableRef
  | .inverted index => index.encryptedIndex table.idColumn

def resolver : IndexResolver (InvertedIndexExec size) where
  tableRef := table.tableRef
  encryptedColumns := table.encryptedColumns
  indices := table.indices.map table.encryptedIndex
  statistics := table.statistics
  castTo := table.castTo

/-- On a row, the answers of an index to its leaves hold where the leaves do. -/
def CoversLeaves (semantics : Semantics) (row : Row) (index : TableIndex size) : Prop :=
  ∀ (leaf : IndexableLogicalExpr) answer,
    ((table.encryptedIndex index).logicalSupportOptions.isSupported leaf table.statistics).isSome →
    (table.encryptedIndex index).logicalQuery leaf = some answer →
    leaf.truth semantics row (Expr.truth semantics row) = .true →
      answer.HoldsOn InvertedIndexExec.executeFilter semantics row

end IndexedTable

/-! ## Blind and range indices -/

section StaticAnswers

theorem answerWith_leaf {leafAnswer : IndexableFilterExpr E → Option AstExpr}
    {leaf : IndexableFilterExpr E} (isLeaf : leaf.IsLeaf) :
    leaf.answerWith leafAnswer = leafAnswer leaf := by
  cases leaf with
  | and | or | not => cases isLeaf
  | _ => rfl

theorem optimizeCmp_leaf (isLeaf : leaf.IsLeaf) : leaf.optimizeCmp = leaf := by
  cases leaf with
  | and | or | not => cases isLeaf
  | _ => rfl

theorem leaves_of_allSupported {options : SupportOptions E} {tree : IndexableFilterExpr E}
    (supported : tree.AllSupported options statistics) :
    ∀ leaf ∈ tree.leaves, (options.isSupported leaf statistics).isSome := by
  induction tree with
  | and left right ihLeft ihRight | or left right ihLeft ihRight =>
    exact forall_mem_append.mpr ⟨ihLeft supported.1, ihRight supported.2⟩
  | not => cases supported
  | _ =>
    exact forall_mem_singleton.mpr supported

theorem BlindIndex.isLeaf_of_supported (index : BlindIndex) (node : IndexableFilterExpr E)
    (supported : (index.supportOptions.isSupported node statistics).isSome) :
    node.IsLeaf := by
  cases node with
  | and | or | not => cases supported
  | _ => rfl

theorem RangeIndex.isLeaf_of_supported (index : RangeIndex) (node : IndexableFilterExpr E)
    (supported : (index.supportOptions.isSupported node statistics).isSome) :
    node.IsLeaf := by
  cases node with
  | and | or | not => cases supported
  | _ => rfl

theorem RangeIndex.allSupported_of_query {index : RangeIndex} {table : ResolvedTableReference}
    (leaves : ∀ leaf ∈ tree.leaves, (index.supportOptions.isSupported leaf statistics).isSome)
    (made : index.indexableQueryToExpr table tree.optimizeCmp = some sql) :
    tree.AllSupported index.supportOptions statistics := by
  induction tree generalizing sql with
  | and left right ihLeft ihRight =>
    obtain ⟨onLeft, onRight⟩ := forall_mem_append.mp leaves
    rw [optimizeCmp] at made
    split at made
    case h_1 merged isMerged =>
      -- Only comparisons are merged, and they are leaves.
      cases left <;> try cases isMerged
      cases right <;> try cases isMerged
      exact ⟨onLeft _ (mem_singleton_self _), onRight _ (mem_singleton_self _)⟩
    case h_2 =>
      simp only [indexableQueryToExpr, answerWith, bind_some_iff] at made
      obtain ⟨leftSql, madeLeft, rightSql, madeRight, _⟩ := made
      exact ⟨ihLeft onLeft madeLeft, ihRight onRight madeRight⟩
  | or left right ihLeft ihRight =>
    simp only [indexableQueryToExpr, optimizeCmp, answerWith, bind_some_iff] at made
    obtain ⟨leftSql, madeLeft, rightSql, madeRight, _⟩ := made
    obtain ⟨onLeft, onRight⟩ := forall_mem_append.mp leaves
    exact ⟨ihLeft onLeft madeLeft, ihRight onRight madeRight⟩
  | not => cases made
  | _ =>
    exact leaves _ (mem_singleton_self _)

end StaticAnswers

/-! ## Inverted indices -/

def isConjunction {E : Type} : IndexableFilterExpr E → Bool
  | .and a b => isConjunction a && isConjunction b
  | .or _ _ | .not _ => false
  | _ => true

def isDisjunctionOfConjunctions {E : Type} : IndexableFilterExpr E → Bool
  | .or a b => isDisjunctionOfConjunctions a && isDisjunctionOfConjunctions b
  | tree => isConjunction tree

namespace InvertedIndex

variable {executable : ExecutableFilterTree} {size : RowIdColumnSize} {index : InvertedIndex size}

theorem isLeaf_of_supported (node : IndexableFilterExpr E)
    (supported : (index.isSupported node).isSome) : node.IsLeaf := by
  cases node with
  | and | or | not => cases supported
  | _ => rfl

theorem parseFilterTree_leaf (supported : (index.isSupported leaf).isSome)
    (parsed : index.parseFilterTree leaf = some executable) :
    ∃ query, executable = .filterExpr query := by
  cases leaf with
  | kwSearchLike column pattern | kwMatch columns text =>
    simp only [parseFilterTree, ite_none_right_eq_some, map_eq_some_iff] at parsed
    obtain ⟨_, query, _, rfl⟩ := parsed
    exact ⟨query, rfl⟩
  | _ => cases supported

theorem isConjunction_parseFilterTree (normal : Indices.isConjunction tree = true)
    (parsed : index.parseFilterTree tree = some executable) : executable.isConjunction = true := by
  induction tree generalizing executable with
  | and a b ihA ihB =>
    simp only [parseFilterTree, bind_some_iff, some.injEq] at parsed
    obtain ⟨left, parsedA, right, parsedB, rfl⟩ := parsed
    rw [Indices.isConjunction, Bool.and_eq_true] at normal
    rw [ExecutableFilterTree.isConjunction, ihA normal.1 parsedA, ihB normal.2 parsedB]
    rfl
  | or | not => cases normal
  | eq | between | inList | other => cases parsed
  | kwSearchLike | kwMatch =>
    simp only [parseFilterTree, ite_none_right_eq_some, map_eq_some_iff] at parsed
    obtain ⟨_, query, _, rfl⟩ := parsed
    rfl

theorem isDisjunctionOfConjunctions_parseFilterTree
    (normal : Indices.isDisjunctionOfConjunctions tree = true)
    (parsed : index.parseFilterTree tree = some executable) :
    executable.isDisjunctionOfConjunctions = true := by
  induction tree generalizing executable with
  | or a b ihA ihB =>
    simp only [parseFilterTree, bind_some_iff, some.injEq] at parsed
    obtain ⟨left, parsedA, right, parsedB, rfl⟩ := parsed
    rw [Indices.isDisjunctionOfConjunctions, Bool.and_eq_true] at normal
    rw [ExecutableFilterTree.isDisjunctionOfConjunctions, ihA normal.1 parsedA,
      ihB normal.2 parsedB]
    rfl
  | not => cases normal
  | eq | between | inList | other => cases parsed
  | and | kwSearchLike | kwMatch =>
    have conjunction := isConjunction_parseFilterTree normal parsed
    cases executable with
    | or => cases conjunction
    | and | not | filterExpr => exact conjunction

variable {otherTruth : E → Truth} {member : RawIndexQuery → Prop}

theorem holds_parseFilterTree {tree : IndexableFilterExpr E}
    (normal : Indices.isDisjunctionOfConjunctions tree = true)
    (leaves : ∀ leaf ∈ tree.leaves, ∀ query,
      index.parseFilterTree leaf = some (.filterExpr query) →
      leaf.truth semantics row otherTruth = .true → member query)
    (supported : ∀ leaf ∈ tree.leaves, (index.isSupported leaf).isSome)
    (parsed : index.parseFilterTree tree = some executable)
    (holds : tree.truth semantics row otherTruth = .true) : executable.Holds member := by
  -- Below a conjunction there are only conjunctions.
  have below : ∀ tree : IndexableFilterExpr E, Indices.isConjunction tree = true →
      Indices.isDisjunctionOfConjunctions tree = true := by
    intro tree conjunction
    cases tree with
    | or => cases conjunction
    | _ => exact conjunction
  induction tree generalizing executable with
  | and a b ihA ihB =>
    simp only [parseFilterTree, bind_some_iff, some.injEq] at parsed
    obtain ⟨left, parsedA, right, parsedB, rfl⟩ := parsed
    rw [Indices.isDisjunctionOfConjunctions, Indices.isConjunction, Bool.and_eq_true] at normal
    · rw [truth_and, Truth.conj_eq_true] at holds
      replace leaves := forall_mem_append.mp leaves
      replace supported := forall_mem_append.mp supported
      exact ⟨ihA (below a normal.1) leaves.1 supported.1 parsedA holds.1,
        ihB (below b normal.2) leaves.2 supported.2 parsedB holds.2⟩
    · nofun
  | or a b ihA ihB =>
    simp only [parseFilterTree, bind_some_iff, some.injEq] at parsed
    obtain ⟨left, parsedA, right, parsedB, rfl⟩ := parsed
    rw [Indices.isDisjunctionOfConjunctions, Bool.and_eq_true] at normal
    rw [truth_or, Truth.disj_eq_true] at holds
    replace leaves := forall_mem_append.mp leaves
    replace supported := forall_mem_append.mp supported
    exact holds.imp (ihA normal.1 leaves.1 supported.1 parsedA)
      (ihB normal.2 leaves.2 supported.2 parsedB)
  | not => cases normal
  | _ =>
    obtain ⟨query, rfl⟩ :=
      parseFilterTree_leaf (supported _ (mem_singleton_self _)) parsed
    exact leaves _ (mem_singleton_self _) query parsed holds

end InvertedIndex

theorem executeFilter_disjunction {size : RowIdColumnSize} {index : RawInvertedIndex size}
    {abstract : AbstractIndex size} (answersAll : index.Answers abstract) {column : IdColumn size}
    (hasLiterals : column.HasLiterals) {id : IndexedDocumentId size}
    (tells : column.Tells semantics row id) {tree : ExecutableFilterTree}
    (pure : tree.isDisjunction = true)
    (executed : executeFilter index column tree = some sql) :
    sql.truth semantics row = .true ↔ tree.Holds (id ∈ abstract.evaluate ·) := by
  obtain ⟨expr, made, read⟩ := executeFilter_reads semantics answersAll hasLiterals tree
  rw [made, some.injEq] at executed
  obtain ⟨value, is, holds⟩ := read id row tells
  rw [tree.holdsAt_reverse (.inr pure) _ (length_map _), tree.holdsAt_map] at holds
  rw [← executed, is, ← holds]
  cases value <;> simp [Truth.ofBool]

namespace IndexedTable

variable {size : RowIdColumnSize} {table : IndexedTable size}

/-- What an index must be asked so that its answer holds where the question does. -/
def Combinable : TableIndex size → IndexableLogicalExpr → Prop
  | .blind _, _ => True
  | .range _, _ => True
  | .inverted _, part => isDisjunctionOfConjunctions part = true

/-- The inverted indices of the table answer their queries as some abstract index does, and the
row stores an id that the server tells from all others. -/
structure Serves (table : IndexedTable size) (semantics : Semantics) (row : Row) : Prop where
  answers : ∀ index, .inverted index ∈ table.indices → ∃ abstract, index.inner.Answers abstract
  ids : ∀ column, table.idColumn = some column → column.HasLiterals ∧
    ∃ id, column.Tells semantics row id

theorem answer_holds (serves : table.Serves semantics row) {index : TableIndex size}
    (isIn : index ∈ table.indices) {tree supported : IndexableLogicalExpr}
    (leaves : ∀ leaf answer,
      (∀ columns text, leaf = .kwMatch columns text → leaf ∈ supported.leaves) →
      ((table.encryptedIndex index).logicalSupportOptions.isSupported leaf
        table.statistics).isSome →
      (table.encryptedIndex index).logicalQuery leaf = some answer →
      leaf.truth semantics row (Expr.truth semantics row) = .true →
        answer.HoldsOn InvertedIndexExec.executeFilter semantics row)
    (part : (tree.splitIntoSupportedUnsupported (table.encryptedIndex index).logicalSupportOptions
      table.statistics).1 = some supported)
    (combinable : Combinable index supported)
    {answer : IndexQueryStrategy (InvertedIndexExec size)}
    (answered : (table.encryptedIndex index).logicalQuery supported = some answer)
    (holds : supported.truth semantics row (Expr.truth semantics row) = .true) :
    answer.HoldsOn InvertedIndexExec.executeFilter semantics row := by
  cases index with
  | blind index =>
    have isLeaf := supported_leaves index.isLeaf_of_supported tree supported part
    obtain ⟨sql, made, rfl⟩ := map_eq_some_iff.mp answered
    refine answerWith_holds (fun leaf inPart leafSql leafMade onLeaf => ?_)
      made holds
    have alone := index.isLeaf_of_supported leaf (isLeaf leaf inPart)
    have single : (table.encryptedIndex (.blind index)).logicalQuery leaf =
        some (.fixed leafSql) := by
      show (leaf.answerWith _).map IndexQueryStrategy.fixed = _
      rw [answerWith_leaf alone, leafMade]
      rfl
    exact leaves leaf (.fixed leafSql) (fun _ _ _ => inPart) (isLeaf leaf inPart) single onLeaf
  | range index =>
    have isLeaf := supported_leaves index.isLeaf_of_supported tree supported part
    obtain ⟨sql, made, rfl⟩ := map_eq_some_iff.mp answered
    have allSupported := RangeIndex.allSupported_optimizeCmp
      (RangeIndex.allSupported_of_query isLeaf made)
    refine answerWith_holds (fun leaf inPart leafSql leafMade onLeaf => ?_)
      made (optimizeCmp_holds holds)
    have leafSupported := leaves_of_allSupported allSupported leaf inPart
    have alone := index.isLeaf_of_supported leaf leafSupported
    have single : (table.encryptedIndex (.range index)).logicalQuery leaf =
        some (.fixed leafSql) := by
      show (leaf.optimizeCmp.answerWith _).map IndexQueryStrategy.fixed = _
      rw [optimizeCmp_leaf alone, answerWith_leaf alone, leafMade]
      rfl
    refine leaves leaf (.fixed leafSql) (fun columns text search => ?_) leafSupported single onLeaf
    rw [search] at leafSupported
    cases leafSupported
  | inverted index =>
    have isLeaf := supported_leaves isLeaf_of_supported tree supported part
    obtain ⟨abstract, answersAll⟩ := serves.answers index isIn
    obtain ⟨column, isColumn, answered⟩ := bind_eq_some_iff.mp answered
    obtain ⟨hasLiterals, id, tells⟩ := serves.ids column isColumn
    simp only [query, bind_some_iff, some.injEq] at answered
    obtain ⟨executable, parsed, rfl⟩ := answered
    -- The id is in the answer to every leaf that the row satisfies.
    have members : ∀ leaf ∈ supported.leaves, ∀ query,
        index.parseFilterTree leaf = some (.filterExpr query) →
        leaf.truth semantics row (Expr.truth semantics row) = .true →
          id ∈ abstract.evaluate query := by
      intro leaf inPart query leafParsed onLeaf
      have single : (table.encryptedIndex (.inverted index)).logicalQuery leaf =
          some (.dynamic ⟨.filterExpr query, column, index.inner⟩) := by
        show table.idColumn.bind _ = _
        rw [isColumn, bind_some, InvertedIndex.query, leafParsed]
        rfl
      have covered := leaves leaf _ (fun _ _ _ => inPart) (isLeaf leaf inPart) single onLeaf
      obtain ⟨sql, executed, _⟩ := executeFilter_reads semantics answersAll hasLiterals
        (.filterExpr query)
      exact (executeFilter_disjunction answersAll hasLiterals tells rfl executed).mp
        (covered sql executed)
    have holdsTree : executable.Holds (id ∈ abstract.evaluate ·) :=
      holds_parseFilterTree combinable members isLeaf parsed holds
    have disjunction : executable.simplify.isDisjunction = true :=
      simplify_isDisjunction
        (isDisjunctionOfConjunctions_parseFilterTree combinable parsed)
    intro sql executed
    rw [executeFilter_disjunction answersAll hasLiterals tells disjunction executed,
      holds_simplify (combined_evaluate abstract id)]
    exact holdsTree

/-- What the filters of a scan must be so that no matching row is lost: they are converted to
trees faithfully, the table and then its indices split what they are offered without loss, and
the parts that the inverted indices answer are disjunctions of conjunctions of leaves. -/
structure KeepsRows (table : IndexedTable size) (semantics : Semantics) (row : Row)
    (filters : List Expr) : Prop where
  faithful : ∀ filter ∈ filters, FaithfulLogical semantics row true filter
  lossless : ∀ filter ∈ filters, Lossless table.resolver.logicalSupportOptions table.statistics
    (IndexableLogicalExpr.ofExpr table.castTo filter)
  parts : table.resolver.PartsSatisfy table.encryptedIndex Combinable table.indices
    (table.resolver.offeredTree filters)

/-- If the answer of each index to each leaf holds on a row where the leaf does, then on a row that
satisfies the filters of a scan all that is sent to the server holds, if the filters meet the
condition. -/
theorem resolve_keeps_rows (casts : table.castTo = semantics.cast)
    (serves : table.Serves semantics row)
    (leaves : ∀ index ∈ table.indices, table.CoversLeaves semantics row index)
    {filters : List Expr} (keeps : table.KeepsRows semantics row filters)
    {result : ResolveIndexResult (InvertedIndexExec size)}
    (resolved : table.resolver.resolveIndicesForLogicalFilters filters = some result)
    (satisfied : ∀ filter ∈ filters, filter.truth semantics row = .true) :
    result.HoldsOn InvertedIndexExec.executeFilter semantics row := by
  have all : result.All (·.HoldsOn InvertedIndexExec.executeFilter semantics row) := by
    refine table.resolver.resolve_all table.encryptedIndex ?_ casts rfl (fun _ holds => holds)
      resolved keeps.faithful keeps.lossless keeps.parts satisfied
    intro index isIn tree supported answer part combinable answered holds
    exact answer_holds serves isIn (fun leaf answer _ => leaves index isIn leaf answer) part
      combinable answered holds
  exact ⟨all.fixed, all.dynamic⟩

end IndexedTable

/-! ## A table with one inverted index -/

def wordsSource : List (IndexedDocumentId .size4Bytes × List RawIndexTerm) :=
  [(SymbolicBlob.document 1, [keywordToTerm "bar", keywordToTerm "foo"])]

/-- An index of the column x that was just created; words are separated by spaces. -/
def wordsIndex : InvertedIndex .size4Bytes where
  inner := ⟨fun queries =>
    ((SymbolicBlob.environment .size4Bytes).run wordsSource []).bind fun state =>
      (RawInvertedIndex.ofState (SymbolicBlob.environment .size4Bytes) state).query queries⟩
  watchedStringColumns := ["x"]
  watchedBooleanColumns := []
  collation := ⟨false, true, true⟩
  functions := ⟨(· = ' '), fun _ => true, id⟩

/-- A table with the encrypted columns x and y, of which x is indexed. -/
noncomputable def wordsTable : IndexedTable .size4Bytes where
  tableRef := ⟨"c", "s", "t"⟩
  encryptedColumns := ["x", "y"]
  indices := [.inverted wordsIndex]
  statistics := .forEmptyTable
  idColumn := some numberColumn
  castTo := Semantics.basic.cast
  displayOther _ := ""
  generator _ _ _ := ""

def wordsRow : Row := fun name =>
  if name = "x" then utf8 "bar foo"
  else if name = "id" then storedNumber (SymbolicBlob.document 1)
  else int32 1

/-- The row is among the answers of a query. -/
def WordsMatch (query : RawIndexQuery) : Prop :=
  SymbolicBlob.document 1 ∈ (AbstractIndex.run wordsSource []).evaluate query

def wordQuery (word : String) : RawIndexQuery := .term (keywordToTerm word)

theorem wordsIndex_answers : wordsIndex.inner.Answers (AbstractIndex.run wordsSource []) := by
  have provisioned : ((SymbolicBlob.environment .size4Bytes).run wordsSource []).isSome = true := by
    decide +kernel
  obtain ⟨state, ran⟩ := isSome_iff_exists.mp provisioned
  intro queries
  obtain ⟨answers, answered, sets⟩ :=
    answers_of_run (SymbolicBlob.environment .size4Bytes) ran queries
  refine ⟨answers, ?_, sets⟩
  simp only [wordsIndex, ran, bind_some]
  exact answered

theorem mem_words {word : String} (isWord : word = "bar" ∨ word = "foo") :
    WordsMatch (wordQuery word) := by
  refine ⟨_, mem_singleton_self _, ?_⟩
  rcases isWord with rfl | rfl
  all_goals decide +kernel

theorem not_mem_words : ¬ WordsMatch (wordQuery "baz") := by
  rintro ⟨terms, listed, isTerm⟩
  cases mem_singleton.mp listed
  exact absurd isTerm (by decide +kernel)

theorem wordsTable_serves (tells : numberColumn.Tells semantics wordsRow (SymbolicBlob.document 1)) :
    wordsTable.Serves semantics wordsRow where
  answers index isIn := by
    cases mem_singleton.mp isIn
    exact ⟨_, wordsIndex_answers⟩
  ids column isColumn := by
    cases isColumn
    exact ⟨numberColumn_hasLiterals, SymbolicBlob.document 1, tells⟩

theorem wordsFilter_holds (tells : numberColumn.Tells semantics row (SymbolicBlob.document 1))
    {query : RawIndexQuery} (isIn : WordsMatch query) :
    (IndexQueryStrategy.dynamic
        (⟨.filterExpr query, numberColumn, wordsIndex.inner⟩ : InvertedIndexExec _)).HoldsOn
      InvertedIndexExec.executeFilter semantics row := by
  intro sql executed
  exact (executeFilter_disjunction wordsIndex_answers numberColumn_hasLiterals tells rfl executed).mpr
    isIn

theorem wordsIndex_query {leaf : IndexableLogicalExpr}
    (supported : (wordsIndex.isSupported leaf).isSome)
    (holds : leaf.truth .basic wordsRow (Expr.truth .basic wordsRow) = .true) :
    ∃ query, wordsIndex.parseFilterTree leaf = some (.filterExpr query) ∧ WordsMatch query := by
  have bar := mem_words (.inl rfl)
  have foo := mem_words (.inr rfl)
  have tracked : wordsIndex.trackedColumns = ["x"] := rfl
  cases leaf with
  | kwSearchLike column pattern =>
    have named : column.column.name = "x" := by
      simpa [isSupported, tracked] using supported
    have value : column.value .basic wordsRow = utf8 "bar foo" := by
      have atX : wordsRow column.column.name = utf8 "bar foo" := by rw [named]; rfl
      rw [ColumnWithCast.value, atX]
      -- A cast of the small engine keeps a text.
      split
      case h_1 => rfl
      case h_2 type _ => cases type <;> rfl
    have isPattern : pattern = "bar foo" := by
      have same : Semantics.basic.like false none (column.value .basic wordsRow) (utf8 pattern) =
        .true := holds
      rw [value] at same
      by_contra other
      simp [Semantics.basic, utf8, Truth.ofBool, Ne.symm other] at same
    have parsed : wordsIndex.likeQuery "bar foo" = some (.intersect
        (wordQuery "bar") (wordQuery "foo")) := by
      decide +kernel
    refine ⟨.intersect (wordQuery "bar") (wordQuery "foo"), ?_, bar, foo⟩
    simp only [parseFilterTree, tracked, named, isPattern, parsed]
    rfl
  | kwMatch columns text =>
    have named : columns.all (fun column => column.name == "x") = true := by
      simpa [isSupported, tracked] using supported
    have isText : text = "bar foo" := by
      have searched : Truth.ofBool (decide (utf8 text ∈
        columns.map fun column => wordsRow column.name)) = .true := holds
      have isIn : utf8 text ∈ columns.map fun column => wordsRow column.name := by
        by_contra absent
        rw [decide_eq_false absent] at searched
        cases searched
      obtain ⟨column, isIn, value⟩ := mem_map.mp isIn
      have atX := all_eq_true.mp named column isIn
      rw [beq_iff_eq.mp atX] at value
      cases value
      rfl
    have parsed : wordsIndex.matchQuery "bar foo" = some (.union
        (wordQuery "bar") (wordQuery "foo")) := by
      decide +kernel
    refine ⟨.union (wordQuery "bar") (wordQuery "foo"), ?_, .inl bar⟩
    simp only [parseFilterTree, tracked, contains_cons, contains_nil,
      Bool.or_false, named, isText, parsed]
    rfl
  | _ => cases supported

theorem wordsIndex_covers (tells : numberColumn.Tells semantics wordsRow (SymbolicBlob.document 1))
    {leaf : IndexableLogicalExpr} {answer : IndexQueryStrategy (InvertedIndexExec .size4Bytes)}
    (supported : (wordsIndex.isSupported leaf).isSome)
    (answered : wordsIndex.query numberColumn leaf = some answer)
    (holds : leaf.truth .basic wordsRow (Expr.truth .basic wordsRow) = .true) :
    answer.HoldsOn InvertedIndexExec.executeFilter semantics wordsRow := by
  obtain ⟨query, parsed, isIn⟩ := wordsIndex_query supported holds
  rw [InvertedIndex.query, parsed] at answered
  cases answered
  exact wordsFilter_holds tells isIn

theorem wordsTable_covers : ∀ index ∈ wordsTable.indices,
    wordsTable.CoversLeaves .basic wordsRow index :=
  forall_mem_singleton.mpr fun _ _ => wordsIndex_covers (numberColumn_tells rfl)

def xLike (pattern : String) : Expr := .like false false none columnX (.literal (utf8 pattern))

theorem wordsTable_resolved {filter : Expr} {tree : IndexableLogicalExpr}
    {executable : ExecutableFilterTree}
    (asked : wordsTable.resolver.resolveIndicesForLogicalFilters [filter] =
      (wordsIndex.query numberColumn tree).bind fun answer =>
        some (ResolveIndexResult.push ⟨[], []⟩ answer))
    (parsed : wordsIndex.parseFilterTree tree = some executable) :
    wordsTable.resolver.resolveIndicesForLogicalFilters [filter] =
      some ⟨[], [⟨executable.simplify, numberColumn, wordsIndex.inner⟩]⟩ := by
  rw [asked, query, parsed]
  rfl

/-- A disjunction on x next to a condition on y, which no index answers: the row is kept. -/
theorem resolve_keeps_rows_disjunction :
    ∃ result, wordsTable.resolver.resolveIndicesForLogicalFilters
        [.binary (.binary (xLike "baz") .or (xLike "bar foo")) .and (exprEquals "y" 1)] =
          some result ∧
      result.forwardedDynamic ≠ [] ∧
      result.HoldsOn InvertedIndexExec.executeFilter .basic wordsRow := by
  have parsed : wordsIndex.parseFilterTree (.or (.kwSearchLike (.raw "x") "baz")
      (.kwSearchLike (.raw "x") "bar foo") : IndexableLogicalExpr) =
        some (.or (.filterExpr (wordQuery "baz")) (.filterExpr
          (.intersect (wordQuery "bar") (wordQuery "foo")))) := by
    decide +kernel
  have resolved := @wordsTable_resolved
    (.binary (.binary (xLike "baz") .or (xLike "bar foo")) .and (exprEquals "y" 1)) _ _ rfl parsed
  refine ⟨_, resolved, cons_ne_nil _ _, IndexedTable.resolve_keeps_rows rfl
    (wordsTable_serves (numberColumn_tells rfl)) wordsTable_covers ⟨?_, ?_, ?_⟩ resolved ?_⟩
  · refine forall_mem_singleton.mpr ?_
    simp [FaithfulLogical, xLike, exprEquals, columnX, singleCastLogical]
  · refine forall_mem_singleton.mpr ?_
    decide +kernel
  · refine ⟨by decide +kernel, fun supported part => ?_, trivial⟩
    have whole : some (.or (.kwSearchLike (.raw "x") "baz") (.kwSearchLike (.raw "x") "bar foo")) =
      some supported := part
    cases whole
    rfl
  · refine forall_mem_singleton.mpr ?_
    decide +kernel

/-- A filter is lost if the tree of the index does not hold. -/
theorem wordsTable_loses (tells : numberColumn.Tells semantics wordsRow (SymbolicBlob.document 1))
    {filter : Expr} {tree : ExecutableFilterTree}
    (resolved : wordsTable.resolver.resolveIndicesForLogicalFilters [filter] =
      some ⟨[], [⟨tree, numberColumn, wordsIndex.inner⟩]⟩)
    (fails : ¬ tree.HoldsAt (tree.extractQueries.map WordsMatch).reverse) :
    ∃ exec sql, wordsTable.resolver.resolveIndicesForLogicalFilters [filter] = some ⟨[], [exec]⟩ ∧
      exec.executeFilter = some sql ∧ sql.truth semantics wordsRow = .false := by
  obtain ⟨sql, executed, read⟩ :=
    executeFilter_reads semantics wordsIndex_answers numberColumn_hasLiterals tree
  obtain ⟨value, is, holds⟩ := read (SymbolicBlob.document 1) wordsRow tells
  have isFalse : value = false := by
    rw [← Bool.not_eq_true, holds]
    exact fails
  exact ⟨_, sql, resolved, executed, by rw [is, isFalse]; rfl⟩

/-- Filters that hold on the row, while the dynamic filter sent for them is false. -/
def lostByIndex : List Expr :=
  -- NOT over an answer that contains more than the matching rows
  [.not (xLike "foo bar"),
  -- OR with a condition that the index does not answer
  .binary (xLike "baz") .or (exprEquals "y" 1),
  -- AND over OR, whose answers are exchanged
  .binary (.binary (xLike "baz") .or (xLike "bar foo")) .and (xLike "bar foo")]

/-- The index answers each leaf with all matching rows, and loses the row for each of the lost
filters. -/
theorem resolve_loses_rows :
    wordsTable.Serves .basic wordsRow ∧
      (∀ index ∈ wordsTable.indices, wordsTable.CoversLeaves .basic wordsRow index) ∧
      ∀ filter ∈ lostByIndex, filter.truth .basic wordsRow = .true ∧
        ∃ exec sql, wordsTable.resolver.resolveIndicesForLogicalFilters [filter] =
            some ⟨[], [exec]⟩ ∧
          exec.executeFilter = some sql ∧ sql.truth .basic wordsRow = .false := by
  refine ⟨wordsTable_serves (numberColumn_tells rfl), wordsTable_covers, ?_⟩
  have likeFooBar : wordsIndex.parseFilterTree
      (.not (.kwSearchLike (.raw "x") "foo bar") : IndexableLogicalExpr) = some (.not (.filterExpr
        (.intersect (wordQuery "foo") (wordQuery "bar")))) := by
    decide +kernel
  have likeBaz : wordsIndex.parseFilterTree
      (.kwSearchLike (.raw "x") "baz" : IndexableLogicalExpr) =
        some (.filterExpr (wordQuery "baz")) := by
    decide +kernel
  have mixed : wordsIndex.parseFilterTree (.and (.or (.kwSearchLike (.raw "x") "baz")
      (.kwSearchLike (.raw "x") "bar foo")) (.kwSearchLike (.raw "x") "bar foo") :
        IndexableLogicalExpr) = some (.and (.or (.filterExpr (wordQuery "baz"))
          (.filterExpr (.intersect (wordQuery "bar") (wordQuery "foo"))))
          (.filterExpr
            (.intersect (wordQuery "bar") (wordQuery "foo")))) := by
    decide +kernel
  refine forall_mem_cons.mpr ⟨⟨by decide +kernel, ?_⟩, forall_mem_cons.mpr
    ⟨⟨by decide +kernel, ?_⟩, forall_mem_singleton.mpr ⟨by decide +kernel, ?_⟩⟩⟩
  · exact wordsTable_loses (numberColumn_tells rfl) (wordsTable_resolved rfl likeFooBar)
      fun holds => holds ⟨mem_words (.inr rfl), mem_words (.inl rfl)⟩
  · exact wordsTable_loses (numberColumn_tells rfl) (wordsTable_resolved rfl likeBaz) not_mem_words
  · exact wordsTable_loses (numberColumn_tells rfl) (wordsTable_resolved rfl mixed)
      fun holds => not_mem_words holds.2

end SecureFusion.Indices
