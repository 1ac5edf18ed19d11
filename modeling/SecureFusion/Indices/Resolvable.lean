import SecureFusion.Filtering.Occurrences
import SecureFusion.Filtering.Residual
import SecureFusion.Indices.MatchSearch
import SecureFusion.Indices.UpdateSink

/-!
# Filters that are resolved without errors

An index must answer every filter that it reports as supported. The blind index does. The range
index says that it looks into negations, but answers none, and computing a bucket may divide by
zero. The inverted index answers patterns and searches only if they contain a word, and needs a row
id. The table reports keyword searches on plain columns, which have no server expression, and
unparses literals, which is not possible for all of them.
-/

namespace SecureFusion.Indices

open Library Sql Filtering Inverted IndexableFilterExpr List

variable {tree part : IndexableLogicalExpr} {filters : List Expr}

/-! ## Questions that have an answer -/

section Questions

variable {E : Type} {options : SupportOptions E} {statistics : TableStatistics}

theorem allSupported_of_leaves {tree : IndexableFilterExpr E}
    (free : isNegationFree tree = true)
    (leaves : ∀ leaf ∈ tree.leaves, (options.isSupported leaf statistics).isSome) :
    tree.AllSupported options statistics := by
  induction tree with
  | and left right ihLeft ihRight | or left right ihLeft ihRight =>
    rw [isNegationFree, Bool.and_eq_true] at free
    obtain ⟨onLeft, onRight⟩ := forall_mem_append.mp leaves
    exact ⟨ihLeft free.1 onLeft, ihRight free.2 onRight⟩
  | not => cases free
  | _ =>
    exact leaves _ (mem_singleton_self _)

theorem isNegationFree_of_split
    (onlyLeaves : ∀ node, (options.isSupported node statistics).isSome → node.IsLeaf)
    (closed : options.supportsNot = false) (tree : IndexableFilterExpr E) :
    ∀ part, (tree.splitIntoSupportedUnsupported options statistics).1 = some part →
      isNegationFree part = true := by
  refine forall_taken (isNegationFree · = true) (fun node supported => ?_)
    (fun onA onB => Bool.and_eq_true_iff.mpr ⟨onA, onB⟩)
    (fun onA onB => Bool.and_eq_true_iff.mpr ⟨onA, onB⟩) (fun looks => ?_) tree
  · have isLeaf := onlyLeaves node supported
    cases node with
    | and | or | not => cases isLeaf
    | _ => rfl
  · rw [closed] at looks
    cases looks

end Questions

theorem InvertedIndex.isSome_parseFilterTree {E : Type} {size : RowIdColumnSize}
    {index : InvertedIndex size} {tree : IndexableFilterExpr E}
    (leaves : ∀ leaf ∈ tree.leaves, (index.parseFilterTree leaf).isSome) :
    (index.parseFilterTree tree).isSome := by
  induction tree with
  | and a b ihA ihB | or a b ihA ihB =>
    obtain ⟨onA, onB⟩ := forall_mem_append.mp leaves
    obtain ⟨left, parsedA⟩ := Option.isSome_iff_exists.mp (ihA onA)
    obtain ⟨right, parsedB⟩ := Option.isSome_iff_exists.mp (ihB onB)
    rw [parseFilterTree, parsedA, parsedB]
    rfl
  | not a ih =>
    obtain ⟨operand, parsed⟩ := Option.isSome_iff_exists.mp (ih leaves)
    rw [parseFilterTree, parsed]
    rfl
  | _ =>
    exact leaves _ (mem_singleton_self _)

namespace IndexedTable

variable {size : RowIdColumnSize} {table : IndexedTable size}

theorem isLeaf_of_supported (index : TableIndex size) (node : IndexableLogicalExpr)
    (supported : ((table.encryptedIndex index).logicalSupportOptions.isSupported node
      table.statistics).isSome) : node.IsLeaf := by
  cases index with
  | blind index | range index => exact index.isLeaf_of_supported node supported
  | inverted index => exact InvertedIndex.isLeaf_of_supported node supported

/-- The question to an index has an answer: a range index is not asked a negation, and every
pattern contains a word. -/
def Answerable : TableIndex size → IndexableLogicalExpr → Prop
  | .blind _, _ => True
  | .range _, part => isNegationFree part = true
  | .inverted index, part => ∀ column pattern, .kwSearchLike column pattern ∈ part.leaves →
    (index.likeQuery pattern).isSome

theorem exists_answer {index : TableIndex size}
    (hasId : ∀ inverted, index = .inverted inverted → table.idColumn.isSome)
    {supported : IndexableLogicalExpr}
    (part : (tree.splitIntoSupportedUnsupported (table.encryptedIndex index).logicalSupportOptions
      table.statistics).1 = some supported) (answerable : Answerable index supported)
    (searches : ∀ inverted, index = .inverted inverted → ∀ columns text,
      .kwMatch columns text ∈ supported.leaves → (inverted.matchQuery text).isSome) :
    ∃ answer, (table.encryptedIndex index).logicalQuery supported = some answer := by
  have leaves := supported_leaves (isLeaf_of_supported index) tree supported part
  cases index with
  | blind index =>
    have onlyLeaves := @isLeaf_of_supported size table (.blind index)
    have free := isNegationFree_of_split onlyLeaves rfl tree supported part
    obtain ⟨sql, made⟩ := IndexableFilterExpr.exists_answerWith
      (fun leaf => BlindIndex.exists_leafToExpr) (allSupported_of_leaves free leaves)
    refine ⟨.fixed sql, ?_⟩
    show (supported.answerWith _).map IndexQueryStrategy.fixed = _
    rw [made]
    rfl
  | range index =>
    have allSupported := RangeIndex.allSupported_optimizeCmp
      (allSupported_of_leaves answerable leaves)
    obtain ⟨sql, made⟩ := IndexableFilterExpr.exists_answerWith
      (fun leaf => RangeIndex.exists_leafToExpr table.tableRef) allSupported
    refine ⟨.fixed sql, ?_⟩
    show (supported.optimizeCmp.answerWith _).map IndexQueryStrategy.fixed = _
    rw [made]
    rfl
  | inverted index =>
    have parses : ∀ leaf ∈ supported.leaves, (index.parseFilterTree leaf).isSome := by
      intro leaf isIn
      have isSupported : (index.isSupported leaf).isSome := leaves leaf isIn
      cases leaf with
      | kwSearchLike column pattern =>
        rw [InvertedIndex.isSupported, Option.isSome_ite] at isSupported
        rw [InvertedIndex.parseFilterTree, if_pos isSupported, Option.isSome_map]
        exact answerable column pattern isIn
      | kwMatch columns text =>
        rw [InvertedIndex.isSupported, Option.isSome_ite] at isSupported
        rw [InvertedIndex.parseFilterTree, if_pos isSupported, Option.isSome_map]
        exact searches index rfl columns text isIn
      | _ => cases isSupported
    obtain ⟨executable, parsed⟩ :=
      Option.isSome_iff_exists.mp (InvertedIndex.isSome_parseFilterTree parses)
    obtain ⟨column, isColumn⟩ := Option.isSome_iff_exists.mp (hasId index rfl)
    refine ⟨.dynamic ⟨executable.simplify, column, index.inner⟩, ?_⟩
    show table.idColumn.bind _ = _
    rw [isColumn, Option.bind_some, InvertedIndex.query, parsed]
    rfl

end IndexedTable

/-! ## Panics -/

/-- The division that computes a bucket is by zero, or its result is too large. -/
def ValueDistribution.panics : ValueDistribution → BitVec 64 → Bool
  | .uniform min interval, sourceValue =>
    !sourceValue.sle min &&
      (interval == 0 || (interval == -1 && sourceValue - min == BitVec.intMin 64))

namespace RangeIndex

variable (index : RangeIndex)

def panicsAt : ScalarValue → Bool
  | .primitive type (some word) => (asInt64 type word).any index.distribution.panics
  | _ => false

def panicsOn : IndexableLogicalExpr → Bool
  | .between column low high => column.column.name == index.indexedColumn &&
    (index.panicsAt low || ((index.forValue low).isSome && index.panicsAt high))
  | .eq column _ value => column.column.name == index.indexedColumn && index.panicsAt value
  | _ => false

/-- No literal that a leaf compares with the column of the index makes a bucket panic. -/
def SafeLiterals : IndexableLogicalExpr → Prop
  | .between column low high => column.column.name = index.indexedColumn →
    index.panicsAt low = false ∧ index.panicsAt high = false
  | .eq column _ value => column.column.name = index.indexedColumn → index.panicsAt value = false
  | _ => True

def Regular : Prop :=
  match index.distribution with
  | .uniform _ interval => interval ≠ 0 ∧ interval ≠ -1

end RangeIndex

def TableIndex.panicsOn {size : RowIdColumnSize} : TableIndex size → IndexableLogicalExpr → Bool
  | .range index, leaf => index.panicsOn leaf
  | .blind _, _ | .inverted _, _ => false

namespace IndexedTable

variable {size : RowIdColumnSize} (table : IndexedTable size) {indices : List (TableIndex size)}
  {index : TableIndex size}

/-- Offers what is left of the filters to each index and collects the answers; none also on a
panic. -/
def queryIndices : List (TableIndex size) → Option IndexableLogicalExpr →
    ResolveIndexResult (InvertedIndexExec size) →
      Option (ResolveIndexResult (InvertedIndexExec size))
  | index :: rest, some unsupported, result =>
    if unsupported.leaves.any index.panicsOn then none
    else
      match unsupported.splitIntoSupportedUnsupported
          (table.encryptedIndex index).logicalSupportOptions table.statistics with
      | (none, left, _) => queryIndices rest left result
      | (some supported, left, _) => do
        let answer ← (table.encryptedIndex index).logicalQuery supported
        queryIndices rest left (result.push answer)
  | _, _, result => some result

/-- The filters that a scan sends to the server; none on an error and on a panic. -/
def resolveIndices (unparser : Unparser) (filters : List Expr) :
    Option (ResolveIndexResult (InvertedIndexExec size)) := do
  let splits := table.resolver.splitFilters filters
  let supported := splits.filterMap fun split => split.1
  if supported.all fun part => part.leaves.all unparser.leaf then
    let forwarded ← supported.mapM IndexableLogicalExpr.toAst
    let unsupported := (reduce .and (splits.filterMap fun split => split.2.1)).map
      IndexableFilterExpr.optimizeCmp
    table.queryIndices table.indices unsupported ⟨forwarded, []⟩
  else none

variable {table}

theorem queryIndices_cons (index : TableIndex size) (rest : List (TableIndex size))
    (tree : IndexableLogicalExpr) (result : ResolveIndexResult (InvertedIndexExec size)) :
    table.queryIndices (index :: rest) (some tree) result =
      if tree.leaves.any index.panicsOn then none
      else
        let split := tree.splitIntoSupportedUnsupported
          (table.encryptedIndex index).logicalSupportOptions table.statistics
        match split.1 with
        | none => table.queryIndices rest split.2.1 result
        | some supported => ((table.encryptedIndex index).logicalQuery supported).bind fun answer =>
          table.queryIndices rest split.2.1 (result.push answer) := by
  rw [queryIndices]
  split_ifs
  · rfl
  · split
    case h_1 split => simp only [split]
    case h_2 split => simp only [split, Option.bind_eq_bind]

theorem queryIndices_none (indices : List (TableIndex size))
    (result : ResolveIndexResult (InvertedIndexExec size)) :
    table.queryIndices indices none result = some result := by
  cases indices <;> rfl

/-! ## Questions and their answers -/

variable (table) in
def Answers : TableIndex size → (below : Bool) → IndexableLogicalExpr → Prop
  | .blind _, _, _ => True
  | .range _, below, _ => below = false
  | .inverted index, _, leaf => table.idColumn.isSome ∧
    match leaf with
    | .kwSearchLike _ pattern => (index.likeQuery pattern).isSome
    | .kwMatch _ text => (index.matchQuery text).isSome
    | _ => True

theorem each_notBelow_iff :
    tree.Each (fun below _ => below = false) false ↔ isNegationFree tree = true := by
  have negated : ∀ tree : IndexableLogicalExpr,
      ¬ tree.Each (fun below _ => below = false) true := by
    intro tree each
    induction tree with
    | and a b ihA _ | or a b ihA _ => exact ihA each.1
    | not a ih => exact ih each
    | _ => cases each
  induction tree with
  | and a b ihA ihB | or a b ihA ihB =>
    rw [isNegationFree, Bool.and_eq_true]
    exact and_congr ihA ihB
  | not a => exact iff_of_false (negated a) Bool.false_ne_true
  | _ => exact iff_of_true rfl rfl

theorem each_of_parseFilterTree {index : InvertedIndex size} {executable : ExecutableFilterTree}
    (parsed : index.parseFilterTree tree = some executable) (hasId : table.idColumn.isSome)
    (below : Bool) :
    tree.Each (table.Answers (.inverted index)) below := by
  induction tree generalizing executable below with
  | and a b ihA ihB | or a b ihA ihB =>
    simp only [InvertedIndex.parseFilterTree, bind_some_iff] at parsed
    obtain ⟨left, parsedA, right, parsedB, -⟩ := parsed
    exact ⟨ihA parsedA below, ihB parsedB below⟩
  | not a ih =>
    simp only [InvertedIndex.parseFilterTree, bind_some_iff] at parsed
    obtain ⟨operand, parsedA, -⟩ := parsed
    exact ih parsedA true
  | kwSearchLike column pattern | kwMatch columns text =>
    simp only [InvertedIndex.parseFilterTree, Option.ite_none_right_eq_some,
      Option.map_eq_some_iff] at parsed
    obtain ⟨-, query, made, -⟩ := parsed
    exact ⟨hasId, Option.isSome_iff_exists.mpr ⟨query, made⟩⟩
  | eq | between | inList | other => cases parsed

theorem isNegationFree_of_allSupported {options : SupportOptions Expr}
    {statistics : TableStatistics} (all : tree.AllSupported options statistics) :
    isNegationFree tree = true := by
  induction tree with
  | and a b ihA ihB | or a b ihA ihB =>
    rw [isNegationFree, ihA all.1, ihB all.2]
    rfl
  | not => cases all
  | _ => rfl

theorem of_each {property : Prop} {below : Bool} (each : tree.Each (fun _ _ => property) below) :
    property := by
  induction tree generalizing below with
  | and a b ihA _ | or a b ihA _ => exact ihA each.1
  | not a ih => exact ih each
  | _ => exact each

theorem isSome_logicalQuery_iff
    (isPart : (tree.splitIntoSupportedUnsupported (table.encryptedIndex index).logicalSupportOptions
      table.statistics).1 = some part) :
    ((table.encryptedIndex index).logicalQuery part).isSome ↔
      part.Each (table.Answers index) false := by
  have supported := supported_leaves (isLeaf_of_supported index) tree part isPart
  constructor
  · intro answered
    obtain ⟨answer, isAnswer⟩ := Option.isSome_iff_exists.mp answered
    cases index with
    | blind index => exact each_leaves_iff.mpr fun _ _ => trivial
    | range index =>
      obtain ⟨sql, made, -⟩ := Option.map_eq_some_iff.mp isAnswer
      have all := RangeIndex.allSupported_of_query supported made
      exact each_notBelow_iff.mpr (isNegationFree_of_allSupported all)
    | inverted index =>
      obtain ⟨column, hasId, queried⟩ := Option.bind_eq_some_iff.mp isAnswer
      obtain ⟨executable, parsed, -⟩ := Option.bind_eq_some_iff.mp queried
      exact each_of_parseFilterTree parsed (Option.isSome_iff_exists.mpr ⟨column, hasId⟩) false
  · intro each
    refine Option.isSome_iff_exists.mpr (exists_answer ?_ isPart ?_ ?_)
    · rintro inverted rfl
      exact of_each (each.imp fun _ _ answers => answers.1)
    · cases index with
      | blind => trivial
      | range => exact each_notBelow_iff.mp each
      | inverted index =>
        intro column pattern isIn
        have answers : part.Each (fun _ => table.Answers (.inverted index) false) false := each
        exact (each_leaves_iff.mp answers _ isIn).2
    · rintro index rfl columns text isIn
      have answers : part.Each (fun _ => table.Answers (.inverted index) false) false := each
      exact (each_leaves_iff.mp answers _ isIn).2

/-! ## Leaves of the filters -/

variable (table) in
def AnsweredFirst : List (TableIndex size) → (below : Bool) → IndexableLogicalExpr → Prop
  | [], _, _ => True
  | index :: rest, below, leaf =>
    if IndexableFilterExpr.takes (table.encryptedIndex index).logicalSupportOptions
        table.statistics below leaf then table.Answers index below leaf
    else AnsweredFirst rest below leaf

/-- The table forwards a leaf: it is no keyword search, and it can be written. -/
def Forwards (unparser : Unparser) (leaf : IndexableLogicalExpr) : Prop :=
  unparser.leaf leaf = true ∧ ∀ columns text, leaf ≠ .kwMatch columns text

variable (table) in
/-- Whichever of the table and its indices takes a leaf first answers it. -/
def Accepted (unparser : Unparser) (below : Bool) (leaf : IndexableLogicalExpr) : Prop :=
  if IndexableFilterExpr.takes table.resolver.logicalSupportOptions table.statistics below leaf then
    Forwards unparser leaf
  else table.AnsweredFirst table.indices below leaf

variable (table) in
/-- The table and all indices answer a leaf that they support, and no bucket panics. -/
structure Acceptable (unparser : Unparser) (below : Bool) (leaf : IndexableLogicalExpr) :
    Prop where
  forwards : (table.resolver.canForwardExactLogical leaf table.statistics).isSome →
    Forwards unparser leaf
  answers : ∀ index ∈ table.indices, ((table.encryptedIndex index).logicalSupportOptions.isSupported
    leaf table.statistics).isSome → table.Answers index below leaf
  literals : ∀ index, .range index ∈ table.indices → index.SafeLiterals leaf

theorem panicsOn_of_safe {leaf : IndexableLogicalExpr}
    (safe : ∀ range, index = .range range → range.SafeLiterals leaf) :
    index.panicsOn leaf = false := by
  cases index with
  | blind | inverted => rfl
  | range index =>
    have literals := safe index rfl
    show index.panicsOn leaf = false
    cases leaf with
    | eq column operator value =>
      by_cases named : column.column.name = index.indexedColumn
      · rw [RangeIndex.panicsOn, literals named, Bool.and_false]
      · rw [RangeIndex.panicsOn, beq_false_of_ne named, Bool.false_and]
    | between column low high =>
      by_cases named : column.column.name = index.indexedColumn
      · rw [RangeIndex.panicsOn, (literals named).1, (literals named).2, Bool.and_false,
          Bool.or_self, Bool.and_false]
      · rw [RangeIndex.panicsOn, beq_false_of_ne named, Bool.false_and]
    | _ => rfl

theorem safeLiterals_of_regular {range : RangeIndex} (regular : range.Regular)
    (leaf : IndexableLogicalExpr) : range.SafeLiterals leaf := by
  have divides : ∀ number, range.distribution.panics number = false := by
    intro number
    cases distribution : range.distribution with
    | uniform min interval =>
      rw [RangeIndex.Regular, distribution] at regular
      rw [ValueDistribution.panics, beq_false_of_ne regular.1, beq_false_of_ne regular.2,
        Bool.false_and, Bool.or_self, Bool.and_false]
  have noPanic : ∀ value, range.panicsAt value = false := by
    intro value
    unfold RangeIndex.panicsAt
    split
    case h_1 type word =>
      cases asInt64 type word with
      | none => rfl
      | some number => exact divides number
    case h_2 => rfl
  cases leaf with
  | eq => exact fun _ => noPanic _
  | between => exact fun _ => ⟨noPanic _, noPanic _⟩
  | _ => trivial

theorem isLeaf_of_canForward (node : IndexableLogicalExpr)
    (supported : (table.resolver.logicalSupportOptions.isSupported node
      table.statistics).isSome) : node.IsLeaf := by
  cases node with
  | and | or | not => cases supported
  | _ => rfl

theorem isSome_queryIndices_cons {rest : List (TableIndex size)}
    (noPanic : ∀ leaf ∈ tree.leaves, index.panicsOn leaf = false) {later : Prop}
    (rests : ∀ result, (table.queryIndices rest (tree.splitIntoSupportedUnsupported
      (table.encryptedIndex index).logicalSupportOptions table.statistics).2.1 result).isSome ↔
        later) (result : ResolveIndexResult (InvertedIndexExec size)) :
    (table.queryIndices (index :: rest) (some tree) result).isSome ↔
      (∀ part, (tree.splitIntoSupportedUnsupported
        (table.encryptedIndex index).logicalSupportOptions table.statistics).1 = some part →
          part.Each (table.Answers index) false) ∧ later := by
  have quiet : tree.leaves.any index.panicsOn = false := by
    simpa [any_eq_false] using noPanic
  rw [queryIndices_cons, quiet]
  dsimp only
  rw [if_neg Bool.false_ne_true]
  cases isPart : (tree.splitIntoSupportedUnsupported
      (table.encryptedIndex index).logicalSupportOptions table.statistics).1 with
  | none =>
    rw [rests result]
    exact ⟨fun met => ⟨nofun, met⟩, fun both => both.2⟩
  | some part =>
    have question := isSome_logicalQuery_iff isPart
    dsimp only
    cases answered : (table.encryptedIndex index).logicalQuery part with
    | none =>
      rw [answered] at question
      rw [Option.bind_none]
      constructor
      · nofun
      · intro both
        exact question.mpr (both.1 part rfl)
    | some answer =>
      rw [answered] at question
      rw [Option.bind_some, rests]
      constructor
      · intro met
        exact ⟨by rintro other ⟨⟩; exact question.mp rfl, met⟩
      · intro both
        exact both.2

theorem isSome_queryIndices_iff (regular : ∀ range, .range range ∈ indices → range.Regular)
    {unsupported : Option IndexableLogicalExpr}
    (free : ∀ tree, unsupported = some tree → tree.isDisjunctionFree = true)
    (result : ResolveIndexResult (InvertedIndexExec size)) :
    (table.queryIndices indices unsupported result).isSome ↔
      ∀ tree, unsupported = some tree → tree.Each (table.AnsweredFirst indices) false := by
  induction indices generalizing unsupported result with
  | nil =>
    refine iff_of_true rfl fun tree _ => ?_
    exact each_leaves_iff.mpr fun _ _ => trivial
  | cons index rest ih =>
    cases unsupported with
    | none =>
      rw [queryIndices_none]
      exact iff_of_true rfl nofun
    | some tree =>
      have treeFree := free tree rfl
      have onlyLeaves := @isLeaf_of_supported size table index
      have regularRest := fun range isIn => regular range (mem_cons_of_mem index isIn)
      have leftFree := @isDisjunctionFree_split _ _
        (table.encryptedIndex index).logicalSupportOptions table.statistics treeFree
      have noPanic : ∀ leaf ∈ tree.leaves, index.panicsOn leaf = false := by
        intro leaf _
        refine panicsOn_of_safe ?_
        rintro range rfl
        exact safeLiterals_of_regular (regular range mem_cons_self) leaf
      have split := @each_split_iff _ (table.Answers index)
        (table.AnsweredFirst rest) false tree _ _ onlyLeaves treeFree nofun
      rw [isSome_queryIndices_cons noPanic (ih regularRest leftFree), split]
      simp only [Option.some.injEq, forall_eq']
      exact Iff.rfl

theorem isSome_queryIndices {unsupported : Option IndexableLogicalExpr}
    (each : ∀ tree, unsupported = some tree → tree.Each (fun below leaf => ∀ index ∈ indices,
      (((table.encryptedIndex index).logicalSupportOptions.isSupported leaf
        table.statistics).isSome → table.Answers index below leaf) ∧
      index.panicsOn leaf = false) false) (result : ResolveIndexResult (InvertedIndexExec size)) :
    (table.queryIndices indices unsupported result).isSome := by
  induction indices generalizing unsupported result with
  | nil => rfl
  | cons index rest ih =>
    cases unsupported with
    | none =>
      rw [queryIndices_none]
      rfl
    | some tree =>
      have onlyLeaves := @isLeaf_of_supported size table index
      have parts := (inherits_each _).split
        (table.encryptedIndex index).logicalSupportOptions table.statistics (each tree rfl)
      have noPanic : ∀ leaf ∈ tree.leaves, index.panicsOn leaf = false :=
        each_leaves_iff.mp ((each tree rfl).imp fun _ _ met =>
          (met index mem_cons_self).2)
      have later := fun result => iff_true_intro (ih (fun part isPart =>
        (parts.2 part isPart).imp fun _ _ met other isIn =>
          met other (mem_cons_of_mem index isIn)) result)
      refine (isSome_queryIndices_cons noPanic later result).mpr ⟨fun part isPart => ?_, trivial⟩
      have supported := supported_leaves onlyLeaves tree part isPart
      have supportedEach := (@each_leaves_iff _ false part _).mpr supported
      exact ((parts.1 part isPart).and supportedEach).imp fun _ _ met =>
        (met.1 index mem_cons_self).1 met.2

/-! ## Filters -/

theorem each_forwards_iff {unparser : Unparser} :
    part.Each (fun _ => Forwards unparser) false ↔
      part.leaves.all unparser.leaf = true ∧ part.toAst.isSome := by
  rw [each_leaves_iff, isSome_toAst_iff, all_eq_true]
  exact ⟨fun all => ⟨fun leaf isIn => (all leaf isIn).1, fun leaf isIn => (all leaf isIn).2⟩,
    fun both leaf isIn => ⟨both.1 leaf isIn, both.2 leaf isIn⟩⟩

theorem isSome_resolveIndices_iff {unparser : Unparser} {later : Prop}
    (queried : ∀ result, (table.queryIndices table.indices (table.resolver.offeredTree filters)
      result).isSome ↔ later) :
    (table.resolveIndices unparser filters).isSome ↔
      (∀ split ∈ table.resolver.splitFilters filters, ∀ part, split.1 = some part →
        part.Each (fun _ => Forwards unparser) false) ∧ later := by
  constructor
  · intro resolved
    obtain ⟨result, isResult⟩ := Option.isSome_iff_exists.mp resolved
    rw [resolveIndices] at isResult
    dsimp only at isResult
    split_ifs at isResult with written
    obtain ⟨forwarded, rebuilt, asked⟩ := Option.bind_eq_some_iff.mp isResult
    refine ⟨fun split isIn part isPart => ?_,
      (queried _).mp (Option.isSome_iff_exists.mpr ⟨result, asked⟩)⟩
    have isSupported := mem_filterMap.mpr ⟨split, isIn, isPart⟩
    obtain ⟨sql, -, made⟩ := Rows.exists_mem_of_mapM rebuilt isSupported
    exact each_forwards_iff.mpr ⟨all_eq_true.mp written part isSupported,
      Option.isSome_iff_exists.mpr ⟨sql, made⟩⟩
  · rintro ⟨forwards, met⟩
    have ofPart : ∀ part ∈ (table.resolver.splitFilters filters).filterMap (fun split => split.1),
        part.leaves.all unparser.leaf = true ∧ (IndexableLogicalExpr.toAst part).isSome := by
      intro part isPart
      obtain ⟨split, isIn, isSupported⟩ := mem_filterMap.mp isPart
      exact each_forwards_iff.mp (forwards split isIn part isSupported)
    have written := all_eq_true.mpr fun part isPart => (ofPart part isPart).1
    obtain ⟨forwarded, rebuilt⟩ := Rows.exists_mapM fun part isPart =>
      Option.isSome_iff_exists.mp (ofPart part isPart).2
    rw [resolveIndices]
    dsimp only
    rw [if_pos written, rebuilt]
    exact (queried ⟨forwarded, []⟩).mpr met

theorem answers_comparison {leaf : IndexableLogicalExpr}
    (comparison : (∃ column operator value, leaf = .eq column operator value) ∨
      ∃ column low high, leaf = .between column low high)
    (supported : ((table.encryptedIndex index).logicalSupportOptions.isSupported leaf
      table.statistics).isSome) : table.Answers index false leaf := by
  cases index with
  | blind => trivial
  | range => rfl
  | inverted =>
    rcases comparison with ⟨_, _, _, rfl⟩ | ⟨_, _, _, rfl⟩
    · cases supported
    · cases supported

theorem answeredFirst_comparison {leaf : IndexableLogicalExpr}
    (comparison : (∃ column operator value, leaf = .eq column operator value) ∨
      ∃ column low high, leaf = .between column low high) :
    table.AnsweredFirst indices false leaf := by
  induction indices with
  | nil => trivial
  | cons index rest ih =>
    rw [AnsweredFirst]
    split_ifs with taken
    · rw [takes, Bool.and_eq_true] at taken
      exact answers_comparison comparison taken.1
    · exact ih

theorem each_offered_iff {property : Bool → IndexableLogicalExpr → Prop}
    (comparisons : ∀ column operator value, property false (.eq column operator value))
    (ranges : ∀ column low high, property false (.between column low high)) :
    (∀ tree, table.resolver.offeredTree filters = some tree → tree.Each property false) ↔
      ∀ split ∈ table.resolver.splitFilters filters, ∀ part, split.2.1 = some part →
        part.Each property false := by
  have rewritten : (∀ tree, table.resolver.offeredTree filters = some tree →
        tree.Each property false) ↔
      ∀ tree, reduce .and ((table.resolver.splitFilters filters).filterMap
        fun split => split.2.1) = some tree → tree.Each property false := by
    simp only [IndexResolver.offeredTree, Option.map_eq_some_iff, forall_exists_index, and_imp,
      forall_apply_eq_imp_iff₂, each_optimizeCmp_iff comparisons ranges]
  rw [rewritten, each_reduce_iff]
  simp only [mem_filterMap, forall_exists_index, and_imp]
  exact ⟨fun each split isIn part => each part split isIn,
    fun each part split isIn => each split isIn part⟩

/-- The filters are resolved without an error and without a panic if the table and all indices
answer the leaves that they support and all buckets are computed. Without disjunctions, and if no
size of buckets is 0 or -1, they are exactly if each leaf is answered by the first of the table and
its indices that takes it. -/
theorem resolveIndices_isSome (table : IndexedTable size) (unparser : Unparser)
    (filters : List Expr) :
    ((∀ filter ∈ filters, (IndexableLogicalExpr.ofExpr table.castTo filter).Each
        (table.Acceptable unparser) false) →
      (table.resolveIndices unparser filters).isSome) ∧
    ((∀ filter ∈ filters,
        (IndexableLogicalExpr.ofExpr table.castTo filter).isDisjunctionFree = true) →
      (∀ range, .range range ∈ table.indices → range.Regular) →
      ((table.resolveIndices unparser filters).isSome ↔
        ∀ filter ∈ filters, (IndexableLogicalExpr.ofExpr table.castTo filter).Each
          (table.Accepted unparser) false)) := by
  have onlyLeaves := @isLeaf_of_canForward size table
  constructor
  · intro acceptable
    have parts := fun filter isIn =>
      (inherits_each _).split table.resolver.logicalSupportOptions
        table.resolver.statistics (acceptable filter isIn)
    have offered : ∀ tree, table.resolver.offeredTree filters = some tree →
        tree.Each (fun below leaf => (∀ index ∈ table.indices,
          ((table.encryptedIndex index).logicalSupportOptions.isSupported leaf
            table.statistics).isSome → table.Answers index below leaf) ∧
          ∀ range, .range range ∈ table.indices → range.SafeLiterals leaf) false := by
      intro tree isTree
      obtain ⟨joined, isJoined, rfl⟩ := Option.map_eq_some_iff.mp isTree
      refine (inherits_each _).optimizeCmp ?_
        (each_reduce_iff.mpr ?_ joined isJoined)
      · intro column first second low high onLow onHigh
        exact ⟨fun index _ => answers_comparison (.inr ⟨column, low, high, rfl⟩),
          fun range isIn named => ⟨onLow.2 range isIn named, onHigh.2 range isIn named⟩⟩
      · intro part isPart
        obtain ⟨split, isSplit, isLeft⟩ := mem_filterMap.mp isPart
        obtain ⟨filter, isIn, rfl⟩ := mem_map.mp isSplit
        exact ((parts filter isIn).2 part isLeft).imp fun _ _ met => ⟨met.answers, met.literals⟩
    have answered := fun result => iff_true_intro (isSome_queryIndices (fun tree isTree =>
      (offered tree isTree).imp fun _ _ met index isIn => ⟨met.1 index isIn,
        panicsOn_of_safe fun range same => met.2 range (same ▸ isIn)⟩) result)
    refine (isSome_resolveIndices_iff answered).mpr
      ⟨forall_mem_map.mpr fun filter isIn part isPart => ?_, trivial⟩
    have supported := supported_leaves onlyLeaves _ part isPart
    have supportedEach := (@each_leaves_iff _ false part _).mpr supported
    exact (((parts filter isIn).1 part isPart).and supportedEach).imp fun _ _ met =>
      met.1.forwards met.2
  · intro free regular
    have leftFree : ∀ tree, table.resolver.offeredTree filters = some tree →
        tree.isDisjunctionFree = true := by
      intro tree isTree
      obtain ⟨joined, isJoined, rfl⟩ := Option.map_eq_some_iff.mp isTree
      refine @Inherits.optimizeCmp _ _ false _ inherits_isDisjunctionFree
        (fun _ _ _ _ _ _ _ => rfl) (forall_reduce (·.isDisjunctionFree = true) ?_ ?_ isJoined)
      · exact fun onA onB => Bool.and_eq_true_iff.mpr ⟨onA, onB⟩
      intro part isPart
      obtain ⟨split, isSplit, isLeft⟩ := mem_filterMap.mp isPart
      obtain ⟨filter, isIn, rfl⟩ := mem_map.mp isSplit
      exact isDisjunctionFree_split (free filter isIn) part isLeft
    rw [isSome_resolveIndices_iff (isSome_queryIndices_iff regular leftFree), each_offered_iff
      (fun column operator value => answeredFirst_comparison (.inl ⟨column, operator, value, rfl⟩))
      (fun column low high => answeredFirst_comparison (.inr ⟨column, low, high, rfl⟩)),
      IndexResolver.splitFilters, forall_mem_map, forall_mem_map]
    have split := fun filter isIn => @each_split_iff _
      (fun _ => Forwards unparser) (table.AnsweredFirst table.indices) false _ _ _ onlyLeaves
      (free filter isIn) (by rintro ⟨⟩)
    rw [← forall₂_and]
    exact forall₂_congr split

end IndexedTable

/-! ## A table with a range index and an inverted index -/

/-- The table of words with a range index of its column y. -/
noncomputable def rangedTable : IndexedTable .size4Bytes :=
  { wordsTable with indices := [.range ⟨.uniform 0 10, "y", "y_bucket"⟩, .inverted wordsIndex] }

def fullUnparser : Unparser := ⟨fun _ => true, fun _ => true, fun _ => true⟩

def greaterY : Expr := .binary (.column (.fromName "y")) .gt (.literal (int32 5))

/-- A comparison and a pattern with a word are resolved. -/
theorem resolves_comparison_and_pattern :
    (rangedTable.resolveIndices fullUnparser [greaterY, xLike "foo"]).isSome := by
  refine (rangedTable.resolveIndices_isSome fullUnparser [greaterY, xLike "foo"]).1 ?_
  have atY : rangedTable.Acceptable fullUnparser false (.eq (.raw "y") .gt (int32 5)) := by
    refine ⟨nofun, fun index isIn supported => ?_, fun index isIn => ?_⟩
    · exact IndexedTable.answers_comparison (.inl ⟨_, _, _, rfl⟩) supported
    · simp only [rangedTable, mem_cons, TableIndex.range.injEq, reduceCtorEq,
        not_mem_nil, or_false] at isIn
      subst isIn
      exact fun _ => by decide
  have atX : rangedTable.Acceptable fullUnparser false (.kwSearchLike (.raw "x") "foo") := by
    refine ⟨nofun, fun index isIn supported => ?_, fun _ _ => trivial⟩
    simp only [rangedTable, mem_cons, not_mem_nil, or_false] at isIn
    rcases isIn with rfl | rfl
    · rfl
    · exact ⟨rfl, by decide⟩
  intro filter isIn
  simp only [mem_cons, not_mem_nil, or_false] at isIn
  rcases isIn with rfl | rfl
  · exact atY
  · exact atX

def searchX (text : String) : Expr :=
  .kwSearch [columnX, .literal (utf8 text), .literal (utf8 "BOOLEAN")]

noncomputable def plainWordsTable : IndexedTable .size4Bytes :=
  { wordsTable with encryptedColumns := ["y"] }

/-- A negated comparison, a pattern without a word and a keyword search on a plain column are not
resolved, although the range index, the inverted index and the table say that they support them. -/
theorem supported_filters_fail :
    rangedTable.resolver.filterSupportedForExpr (.not greaterY) = .inexact ∧
      rangedTable.resolveIndices fullUnparser [.not greaterY] = none ∧
    rangedTable.resolver.filterSupportedForExpr (xLike "%") = .inexact ∧
      rangedTable.resolveIndices fullUnparser [xLike "%"] = none ∧
    plainWordsTable.resolver.filterSupportedForExpr (searchX "foo") = .exact ∧
      plainWordsTable.resolveIndices fullUnparser [searchX "foo"] = none :=
  ⟨rfl, rfl, rfl, rfl, rfl, rfl⟩

end SecureFusion.Indices
