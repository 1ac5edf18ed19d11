import SecureFusion.Inverted.Runs
import SecureFusion.Sql.Ast

/-!
# Execution of filters on the inverted index

A filter of the inverted index is a tree of index queries. To execute it, the queries of
its leaves are answered together, from left to right, and the answers are put into the
server expression of the tree. They are taken from the end of the list of answers, so that
the first leaf gets the answer of the last query. The expression therefore means the tree
whose leaves are read in the reverse order.
-/

namespace SecureFusion.Indices

open Library Sql Inverted List SymbolicBlob

/-- A filter tree over index queries. -/
inductive ExecutableFilterTree where
  | and (a b : ExecutableFilterTree)
  | or (a b : ExecutableFilterTree)
  | not (a : ExecutableFilterTree)
  | filterExpr (query : RawIndexQuery)
deriving DecidableEq, Repr

/-- The row id column, with the order in which a set of ids is iterated. -/
structure IdColumn (size : RowIdColumnSize) where
  name : String
  dataType : DataType
  iterate : Finset (IndexedDocumentId size) → List (IndexedDocumentId size)
  mem_iterate : ∀ ids id, id ∈ iterate ids ↔ id ∈ ids

variable {size : RowIdColumnSize}

/-- An id of at most eight bytes as a number. -/
def asU64 (id : IndexedDocumentId size) : Option Nat :=
  if size.bytes ≤ 8 then some (ofLeBytes id.toList) else none

namespace IdColumn

variable (column : IdColumn size)

def valueIsNumber : Bool :=
  match column.dataType with
  | .primitive .int8 | .primitive .int16 | .primitive .int32 | .primitive .int64 => true
  | .primitive .uint8 | .primitive .uint16 | .primitive .uint32 | .primitive .uint64 => true
  | _ => false

def literal (id : IndexedDocumentId size) : Option ScalarValue :=
  if column.valueIsNumber then
    (asU64 id).map fun number => .primitive .uint64 (some (BitVec.ofNat 64 number))
  else some (.bytes .binary (some id.toList))

/-- The condition for the ids of an answer. -/
def answerExpr (values : List ScalarValue) : AstExpr :=
  match values with
  | [] => .value (.boolean (some false))
  | [value] => .binaryOp (.identifier column.name) .eq (.value value)
  | values => .inList false (.identifier column.name) (values.map .value)

end IdColumn

namespace ExecutableFilterTree

/-- The queries of the leaves, from left to right. -/
def extractQueries : ExecutableFilterTree → List RawIndexQuery
  | .and a b | .or a b => a.extractQueries ++ b.extractQueries
  | .not a => a.extractQueries
  | .filterExpr query => [query]

/-- The expression of a tree and the answers that are left; a leaf takes the last answer. -/
def toExpr (column : IdColumn size) :
    ExecutableFilterTree → List (Finset (IndexedDocumentId size)) →
      Option (AstExpr × List (Finset (IndexedDocumentId size)))
  | .and a b, results => do
    let (left, results) ← a.toExpr column results
    let (right, results) ← b.toExpr column results
    some (left.and right, results)
  | .or a b, results => do
    let (left, results) ← a.toExpr column results
    let (right, results) ← b.toExpr column results
    some (left.or right, results)
  | .not a, results => do
    let (operand, results) ← a.toExpr column results
    some (.unaryNot operand, results)
  | .filterExpr _, results => do
    let result ← results.getLast?
    let values ← (column.iterate result).mapM column.literal
    some (column.answerExpr values, results.dropLast)

/-- Merges queries of the leaves where one query gives the same answer. -/
def simplify : ExecutableFilterTree → ExecutableFilterTree
  | .and a b =>
    match a.simplify, b.simplify with
    | .filterExpr a, .filterExpr b => .filterExpr (.intersect a b)
    | .not (.filterExpr a), .filterExpr b => .filterExpr (.difference b a)
    | .filterExpr a, .not (.filterExpr b) => .filterExpr (.difference a b)
    | .not (.filterExpr a), .not (.filterExpr b) => .not (.filterExpr (.union a b))
    | a, b => .and a b
  | .or a b => .or a.simplify b.simplify
  | .not a =>
    match a.simplify with
    | .not a => a
    | a => .not a
  | .filterExpr query => .filterExpr query

end ExecutableFilterTree

/-- An inverted index as its filters see it: it answers several queries, or fails. -/
structure RawInvertedIndex (size : RowIdColumnSize) where
  query : List RawIndexQuery → Option (List (Finset (IndexedDocumentId size)))

def RawInvertedIndex.ofState {Blob : Type} (env : IndexEnvironment size Blob)
    (state : IndexState size Blob) : RawInvertedIndex size where
  query queries := (env.query state queries).map Prod.fst

/-- Asks the index and builds the expression of the answers. -/
def executeFilter (index : RawInvertedIndex size) (column : IdColumn size)
    (tree : ExecutableFilterTree) : Option AstExpr := do
  let results ← index.query tree.extractQueries
  let (expr, _) ← tree.toExpr column results
  some expr

/-! ## The meaning of a tree -/

namespace ExecutableFilterTree

variable {tree : ExecutableFilterTree} {values : List Prop}

/-- A tree holds if it is true where each leaf is read as its own query. -/
def Holds (member : RawIndexQuery → Prop) : ExecutableFilterTree → Prop
  | .and a b => a.Holds member ∧ b.Holds member
  | .or a b => a.Holds member ∨ b.Holds member
  | .not a => ¬ a.Holds member
  | .filterExpr query => member query

/-- A tree holds if it is true where the leaves are read, from left to right, as listed. -/
def HoldsAt : ExecutableFilterTree → List Prop → Prop
  | .and a b, values =>
    a.HoldsAt (values.take a.extractQueries.length) ∧
      b.HoldsAt (values.drop a.extractQueries.length)
  | .or a b, values =>
    a.HoldsAt (values.take a.extractQueries.length) ∨
      b.HoldsAt (values.drop a.extractQueries.length)
  | .not a, values => ¬ a.HoldsAt values
  | .filterExpr _, values => values.headD False

theorem holdsAt_map (member : RawIndexQuery → Prop) (tree : ExecutableFilterTree) :
    tree.HoldsAt (tree.extractQueries.map member) ↔ tree.Holds member := by
  induction tree with
  | and a b ihA ihB | or a b ihA ihB =>
    rw [HoldsAt, extractQueries, map_append, take_left' (length_map _),
      drop_left' (length_map _), ihA, ihB, Holds]
  | not a ih => rw [HoldsAt, extractQueries, ih, Holds]
  | filterExpr query => rfl

/-- Membership in the answers of queries that combine others. -/
structure Combined (member : RawIndexQuery → Prop) : Prop where
  intersect : ∀ a b, member (.intersect a b) ↔ member a ∧ member b
  difference : ∀ a b, member (.difference a b) ↔ member a ∧ ¬ member b
  union : ∀ a b, member (.union a b) ↔ member a ∨ member b

theorem combined_evaluate (abstract : AbstractIndex size) (id : IndexedDocumentId size) :
    Combined (id ∈ abstract.evaluate ·) :=
  ⟨fun _ _ => Iff.rfl, fun _ _ => Iff.rfl, fun _ _ => Iff.rfl⟩

theorem holds_simplify {member : RawIndexQuery → Prop} (combined : Combined member)
    (tree : ExecutableFilterTree) : tree.simplify.Holds member ↔ tree.Holds member := by
  induction tree with
  | and a b ihA ihB =>
    rw [Holds, ← ihA, ← ihB, simplify]
    split
    case h_1 mergedA mergedB =>
      rw [mergedA, mergedB]
      exact combined.intersect _ _
    case h_2 mergedA mergedB =>
      rw [mergedA, mergedB]
      exact (combined.difference _ _).trans and_comm
    case h_3 mergedA mergedB =>
      rw [mergedA, mergedB]
      exact combined.difference _ _
    case h_4 mergedA mergedB =>
      rw [mergedA, mergedB]
      exact (not_congr (combined.union _ _)).trans not_or
    case h_5 => rfl
  | or a b ihA ihB => rw [simplify, Holds, Holds, ihA, ihB]
  | not a ih =>
    rw [Holds, ← ih, simplify]
    split
    case h_1 inner same =>
      rw [same, Holds]
      exact not_not.symm
    case h_2 => rfl
  | filterExpr query => rfl

/-- Simplification keeps the documents that satisfy a tree, for every response of the index. -/
theorem simplify_keeps_meaning (tree : ExecutableFilterTree)
    (response : TermMap (List (IndexedDocumentId size))) (modifications : ModificationsTable size)
    (id : IndexedDocumentId size) :
    tree.simplify.Holds (id ∈ ·.evaluate response modifications) ↔
      tree.Holds (id ∈ ·.evaluate response modifications) :=
  holds_simplify ⟨fun _ _ => Finset.mem_inter, fun _ _ => Finset.mem_sdiff,
    fun _ _ => Finset.mem_union⟩ tree

def isConjunction : ExecutableFilterTree → Bool
  | .and a b => a.isConjunction && b.isConjunction
  | .filterExpr _ => true
  | _ => false

def isDisjunction : ExecutableFilterTree → Bool
  | .or a b => a.isDisjunction && b.isDisjunction
  | .filterExpr _ => true
  | _ => false

def isDisjunctionOfConjunctions : ExecutableFilterTree → Bool
  | .or a b => a.isDisjunctionOfConjunctions && b.isDisjunctionOfConjunctions
  | tree => tree.isConjunction

theorem simplify_isConjunction (conjunction : tree.isConjunction = true) :
    ∃ query, tree.simplify = .filterExpr query := by
  induction tree with
  | and a b ihA ihB =>
    rw [isConjunction, Bool.and_eq_true] at conjunction
    obtain ⟨queryA, mergedA⟩ := ihA conjunction.1
    obtain ⟨queryB, mergedB⟩ := ihB conjunction.2
    exact ⟨.intersect queryA queryB, by rw [simplify, mergedA, mergedB]⟩
  | or | not => cases conjunction
  | filterExpr query => exact ⟨query, rfl⟩

theorem simplify_isDisjunction (normal : tree.isDisjunctionOfConjunctions = true) :
    tree.simplify.isDisjunction = true := by
  induction tree with
  | or a b ihA ihB =>
    rw [isDisjunctionOfConjunctions, Bool.and_eq_true] at normal
    rw [simplify, isDisjunction, ihA normal.1, ihB normal.2]
    rfl
  | and a b =>
    obtain ⟨query, merged⟩ := simplify_isConjunction normal
    rw [merged]
    rfl
  | not => cases normal
  | filterExpr query => rfl

theorem holdsAt_isConjunction (pure : tree.isConjunction = true)
    (length : values.length = tree.extractQueries.length) :
    tree.HoldsAt values ↔ ∀ value ∈ values, value := by
  induction tree generalizing values with
  | and a b ihA ihB =>
    rw [isConjunction, Bool.and_eq_true] at pure
    rw [extractQueries, length_append] at length
    rw [HoldsAt, ihA pure.1 (by rw [length_take]; omega), ihB pure.2 (by rw [length_drop]; omega),
      ← forall_mem_append, take_append_drop]
  | or | not => cases pure
  | filterExpr query =>
    obtain ⟨value, rfl⟩ := length_eq_one_iff.mp length
    rw [HoldsAt, forall_mem_singleton]
    rfl

theorem holdsAt_isDisjunction (pure : tree.isDisjunction = true)
    (length : values.length = tree.extractQueries.length) :
    tree.HoldsAt values ↔ ∃ value ∈ values, value := by
  induction tree generalizing values with
  | or a b ihA ihB =>
    rw [isDisjunction, Bool.and_eq_true] at pure
    rw [extractQueries, length_append] at length
    rw [HoldsAt, ihA pure.1 (by rw [length_take]; omega), ihB pure.2 (by rw [length_drop]; omega)]
    conv_rhs => rw [← take_append_drop a.extractQueries.length values]
    simp only [mem_append, or_and_right, exists_or]
  | and | not => cases pure
  | filterExpr query =>
    obtain ⟨value, rfl⟩ := length_eq_one_iff.mp length
    simp only [HoldsAt, headD_cons, mem_singleton, exists_eq_left]

theorem holdsAt_reverse (pure : tree.isConjunction = true ∨ tree.isDisjunction = true)
    (values : List Prop) (length : values.length = tree.extractQueries.length) :
    tree.HoldsAt values.reverse ↔ tree.HoldsAt values := by
  have reversed : values.reverse.length = tree.extractQueries.length := by
    rw [length_reverse, length]
  rcases pure with conjunction | disjunction
  · rw [holdsAt_isConjunction conjunction reversed, holdsAt_isConjunction conjunction length]
    simp only [mem_reverse]
  · rw [holdsAt_isDisjunction disjunction reversed, holdsAt_isDisjunction disjunction length]
    simp only [mem_reverse]

end ExecutableFilterTree

/-! ## The expression of a tree -/

/-- Every id has a literal: an id of a numeric column has at most eight bytes. -/
def IdColumn.HasLiterals (column : IdColumn size) : Prop :=
  ∀ id, (column.literal id).isSome

/-- The server tells the id of a row from all others: what the row stores equals the literal of an
id exactly if it is this id. The literal of a negative number is another number, the unsigned one
with the same bytes. -/
def IdColumn.Tells (column : IdColumn size) (semantics : Semantics) (row : Row)
    (id : IndexedDocumentId size) : Prop :=
  ∀ other value, column.literal other = some value →
    semantics.compare (· = .eq) (row column.name) value = .ofBool (id = other)

variable {column : IdColumn size} {semantics : Semantics} {row : Row}
  {id : IndexedDocumentId size} {ids : List (IndexedDocumentId size)} {values : List ScalarValue}

theorem inList_literals (tells : column.Tells semantics row id)
    (literals : ids.mapM column.literal = some values) :
    semantics.inList (row column.name) values = .ofBool (id ∈ ids) := by
  have each := (Rows.mapM_eq_some_iff _ _ _).mp literals
  clear literals
  induction each with
  | nil => rfl
  | @cons first value rest _ atFirst _ later =>
    rw [Semantics.inList] at later ⊢
    rw [map_cons, Truth.any_cons, later, tells first value atFirst]
    by_cases same : id = first <;> by_cases isIn : id ∈ rest <;>
      simp [same, isIn, Truth.ofBool, Truth.disj]

/-- The answer of a leaf asks whether the stored id is in the list. -/
theorem truth_answerExpr (column : IdColumn size) (values : List ScalarValue) :
    (column.answerExpr values).truth semantics row = semantics.inList (row column.name) values := by
  match values with
  | [] => rfl
  | [value] =>
    simp only [IdColumn.answerExpr, AstExpr.truth, AstExpr.eval, ScalarValue.truth_ofTruth,
      Semantics.inList, map_cons, map_nil, Truth.any_cons, Truth.any_nil, Truth.disj_false]
    rfl
  | first :: second :: rest =>
    simp only [IdColumn.answerExpr, AstExpr.truth, AstExpr.eval, AstExpr.evalList_eq_map,
      map_map, ScalarValue.truth_ofTruth, negatedIf, Bool.false_eq_true, if_false]
    congr 1
    exact map_id _

namespace ExecutableFilterTree

/-- An expression is true for an id if the tree, read at some answers, is; otherwise it is
false. -/
def ReadAs (column : IdColumn size) (semantics : Semantics) (tree : ExecutableFilterTree)
    (answers : List (Finset (IndexedDocumentId size))) (expr : AstExpr) : Prop :=
  ∀ id row, column.Tells semantics row id → ∃ value : Bool,
    expr.truth semantics row = .ofBool value ∧
      (value = true ↔ tree.HoldsAt (answers.map (id ∈ ·)))

/-- The expression of a tree takes the answers of its leaves from the end. -/
def TakesFromEnd (column : IdColumn size) (semantics : Semantics) (tree : ExecutableFilterTree) :
    Prop :=
  ∀ left answers : List (Finset (IndexedDocumentId size)),
    answers.length = tree.extractQueries.length →
      ∃ expr, tree.toExpr column (left ++ answers.reverse) = some (expr, left) ∧
        tree.ReadAs column semantics answers expr

theorem takesFromEnd_pair {a b : ExecutableFilterTree}
    (first : a.TakesFromEnd column semantics) (second : b.TakesFromEnd column semantics)
    (left answers : List (Finset (IndexedDocumentId size)))
    (length : answers.length = (a.extractQueries ++ b.extractQueries).length) :
    ∃ middle exprA exprB, a.toExpr column (left ++ answers.reverse) = some (exprA, middle) ∧
      b.toExpr column middle = some (exprB, left) ∧
      a.ReadAs column semantics (answers.take a.extractQueries.length) exprA ∧
      b.ReadAs column semantics (answers.drop a.extractQueries.length) exprB := by
  rw [length_append] at length
  obtain ⟨exprA, madeA, readA⟩ := first (left ++ (answers.drop a.extractQueries.length).reverse)
    (answers.take a.extractQueries.length) (by rw [length_take]; omega)
  obtain ⟨exprB, madeB, readB⟩ := second left (answers.drop a.extractQueries.length)
    (by rw [length_drop]; omega)
  rw [append_assoc, ← reverse_append, take_append_drop] at madeA
  exact ⟨_, exprA, exprB, madeA, madeB, readA, readB⟩

theorem toExpr_takesFromEnd (hasLiterals : column.HasLiterals) (tree : ExecutableFilterTree) :
    tree.TakesFromEnd column semantics := by
  induction tree with
  | and a b ihA ihB =>
    intro left answers length
    obtain ⟨middle, exprA, exprB, madeA, madeB, readA, readB⟩ :=
      takesFromEnd_pair ihA ihB left answers length
    refine ⟨exprA.and exprB, ?_, fun id row tells => ?_⟩
    · simp only [toExpr, madeA, madeB, Option.bind_eq_bind, Option.bind_some]
    · obtain ⟨valueA, isA, holdsA⟩ := readA id row tells
      obtain ⟨valueB, isB, holdsB⟩ := readB id row tells
      refine ⟨valueA && valueB, ?_, ?_⟩
      · rw [AstExpr.truth_and, isA, isB]
        cases valueA <;> cases valueB <;> rfl
      · rw [HoldsAt, ← map_take, ← map_drop, ← holdsA, ← holdsB, Bool.and_eq_true]
  | or a b ihA ihB =>
    intro left answers length
    obtain ⟨middle, exprA, exprB, madeA, madeB, readA, readB⟩ :=
      takesFromEnd_pair ihA ihB left answers length
    refine ⟨exprA.or exprB, ?_, fun id row tells => ?_⟩
    · simp only [toExpr, madeA, madeB, Option.bind_eq_bind, Option.bind_some]
    · obtain ⟨valueA, isA, holdsA⟩ := readA id row tells
      obtain ⟨valueB, isB, holdsB⟩ := readB id row tells
      refine ⟨valueA || valueB, ?_, ?_⟩
      · rw [AstExpr.truth_or, isA, isB]
        cases valueA <;> cases valueB <;> rfl
      · rw [HoldsAt, ← map_take, ← map_drop, ← holdsA, ← holdsB, Bool.or_eq_true]
  | not a ih =>
    intro left answers length
    obtain ⟨expr, made, read⟩ := ih left answers length
    refine ⟨.unaryNot expr, ?_, fun id row tells => ?_⟩
    · rw [toExpr, made]
      rfl
    · obtain ⟨value, is, holds⟩ := read id row tells
      refine ⟨!value, ?_, ?_⟩
      · rw [AstExpr.truth_unaryNot, is]
        cases value <;> rfl
      · rw [HoldsAt, ← holds, Bool.not_eq_true', Bool.not_eq_true]
  | filterExpr query =>
    intro left answers length
    obtain ⟨answer, rfl⟩ := length_eq_one_iff.mp length
    have literals : ∃ values, (column.iterate answer).mapM column.literal = some values :=
      Rows.exists_mapM fun id _ => Option.isSome_iff_exists.mp (hasLiterals id)
    obtain ⟨values, literals⟩ := literals
    refine ⟨column.answerExpr values, by simp [toExpr, literals], fun id row tells => ?_⟩
    refine ⟨decide (id ∈ column.iterate answer), ?_, ?_⟩
    · rw [truth_answerExpr, inList_literals tells literals]
    · rw [decide_eq_true_eq, column.mem_iterate]
      rfl

end ExecutableFilterTree

/-! ## Executed filters -/

/-- The index answers every query with the set that it denotes in an abstract index. -/
def RawInvertedIndex.Answers (index : RawInvertedIndex size) (abstract : AbstractIndex size) :
    Prop :=
  ∀ queries, ∃ answers, index.query queries = some answers ∧
    answers.map (fun answer : Finset (IndexedDocumentId size) => (answer : Set _)) =
      queries.map abstract.evaluate

theorem executeFilter_reads (semantics : Semantics) {index : RawInvertedIndex size}
    {abstract : AbstractIndex size} (answersAll : index.Answers abstract)
    (hasLiterals : column.HasLiterals) (tree : ExecutableFilterTree) :
    ∃ expr, executeFilter index column tree = some expr ∧
      ∀ id row, column.Tells semantics row id → ∃ value : Bool,
        expr.truth semantics row = .ofBool value ∧ (value = true ↔
          tree.HoldsAt (tree.extractQueries.map (id ∈ abstract.evaluate ·)).reverse) := by
  obtain ⟨answers, answered, sets⟩ := answersAll tree.extractQueries
  have length : answers.reverse.length = tree.extractQueries.length := by
    have lengths := congrArg length sets
    rwa [length_map, length_map, ← length_reverse] at lengths
  obtain ⟨expr, made, read⟩ := tree.toExpr_takesFromEnd hasLiterals [] answers.reverse length
  rw [nil_append, reverse_reverse] at made
  have executed : executeFilter index column tree = some expr := by
    simp only [executeFilter, answered, made, Option.bind_eq_bind, Option.bind_some]
  refine ⟨expr, executed, fun id row tells => ?_⟩
  obtain ⟨value, is, holds⟩ := read id row tells
  have members : answers.map (id ∈ ·) = tree.extractQueries.map (id ∈ abstract.evaluate ·) := by
    have ofSets := congrArg (map (id ∈ ·)) sets
    rw [map_map, map_map] at ofSets
    exact ofSets
  rw [map_reverse, members] at holds
  exact ⟨value, is, holds⟩

theorem answers_of_run {Blob : Type} (env : IndexEnvironment size Blob)
    {state : IndexState size Blob} {source : List (IndexedDocumentId size × List RawIndexTerm)}
    {operations : List (IndexOperation size)} (ran : env.run source operations = some state) :
    (RawInvertedIndex.ofState env state).Answers (AbstractIndex.run source operations) := by
  intro queries
  obtain ⟨content, stores, consistent, index⟩ := env.represents_run ran
  obtain ⟨answers, answered, sets⟩ := env.query_spec stores consistent queries
  rw [index] at sets
  exact ⟨answers, congrArg (Option.map Prod.fst) answered, sets⟩

/-- A row that stores the number whose bytes are its id tells it from all others. -/
theorem tells_of_number (isNumber : column.valueIsNumber = true) (fits : size.bytes ≤ 8)
    {type : PrimitiveType} {word : BitVec type.width}
    (stored : row column.name = .primitive type (some word))
    (number : type.key word = some (ofLeBytes id.toList : Int)) :
    column.Tells .basic row id := by
  intro other value literal
  rw [IdColumn.literal, if_pos isNumber, asU64, if_pos fits] at literal
  cases literal
  have length : id.toList.length = other.toList.length := by
    rw [Vector.length_toList, Vector.length_toList]
  have small : ofLeBytes other.toList < 2 ^ 64 := by
    refine Nat.lt_of_lt_of_le (ofLeBytes_lt other.toList) ?_
    rw [Vector.length_toList]
    exact Nat.pow_le_pow_right (by decide) fits
  have numbers : ((ofLeBytes id.toList : Int) = ofLeBytes other.toList) ↔ id = other := by
    rw [Int.natCast_inj]
    constructor
    · intro same
      exact Vector.toList_inj.mp (ofLeBytes_inj length same)
    · rintro rfl
      rfl
  have otherNumber : PrimitiveType.uint64.key (BitVec.ofNat 64 (ofLeBytes other.toList)) =
      some (ofLeBytes other.toList : Int) := by
    show some ((BitVec.ofNat 64 (ofLeBytes other.toList)).toNat : Int) = _
    rw [BitVec.toNat_ofNat, Nat.mod_eq_of_lt small]
  simp only [Semantics.compare, Semantics.basic, Semantics.basicOrder, stored, number, otherNumber]
  simp [numbers]

/-- An id column of unsigned numbers. -/
noncomputable def numberColumn : IdColumn .size4Bytes where
  name := "id"
  dataType := .primitive .uint32
  iterate := Finset.toList
  mem_iterate _ _ := Finset.mem_toList

/-- An id as a column of unsigned numbers stores it. -/
def storedNumber (id : IndexedDocumentId .size4Bytes) : ScalarValue :=
  .primitive .uint32 (some (BitVec.ofNat 32 (ofLeBytes id.toList)))

theorem numberColumn_hasLiterals : numberColumn.HasLiterals := fun _ => rfl

theorem numberColumn_tells {id : IndexedDocumentId .size4Bytes}
    (atId : row "id" = storedNumber id) : numberColumn.Tells .basic row id := by
  refine tells_of_number rfl (by decide) atId ?_
  have small : ofLeBytes id.toList < 2 ^ 32 := by
    have bound := ofLeBytes_lt id.toList
    rwa [Vector.length_toList] at bound
  show some ((BitVec.ofNat 32 (ofLeBytes id.toList)).toNat : Int) = _
  rw [BitVec.toNat_ofNat, Nat.mod_eq_of_lt small]

/-- Document 1 is indexed under the first term and not under the second one. The filter that asks
for the first term or the absence of the second one gets the answers exchanged and is false. -/
theorem exchanged_answers :
    let source := [(SymbolicBlob.document 1, [[5]])]
    let tree : ExecutableFilterTree :=
      .or (.filterExpr (.term [5])) (.not (.filterExpr (.term [6])))
    ∃ state, (SymbolicBlob.environment .size4Bytes).run source [] = some state ∧
      ∃ expr, executeFilter (.ofState (SymbolicBlob.environment .size4Bytes) state) numberColumn
          tree = some expr ∧
        (∀ row, row "id" = storedNumber (SymbolicBlob.document 1) →
          expr.truth .basic row = .false) ∧
        tree.Holds
          (SymbolicBlob.document 1 ∈ (AbstractIndex.run source []).evaluate ·) := by
  intro source tree
  have provisioned : ((environment .size4Bytes).run source []).isSome = true := by
    decide +kernel
  obtain ⟨state, ran⟩ := Option.isSome_iff_exists.mp provisioned
  obtain ⟨expr, executed, read⟩ := executeFilter_reads .basic
    (answers_of_run (environment .size4Bytes) ran) numberColumn_hasLiterals tree
  have first : document 1 ∈ (AbstractIndex.run source []).evaluate (.term [5]) :=
    ⟨_, mem_singleton_self _, by decide⟩
  have second : document 1 ∉ (AbstractIndex.run source []).evaluate (.term [6]) := by
    rintro ⟨terms, listed, isTerm⟩
    cases mem_singleton.mp listed
    exact absurd isTerm (by decide)
  refine ⟨state, ran, expr, executed, fun row atId => ?_, .inl first⟩
  obtain ⟨value, is, holds⟩ := read _ row (numberColumn_tells atId)
  have isFalse : value = false := by
    rw [← Bool.not_eq_true, holds]
    rintro (isSecond | notFirst)
    · exact second isSecond
    · exact notFirst first
  rw [is, isFalse]
  rfl

/-- No answer of a leaf holds on a row whose id is a negative number. -/
theorem truth_answerExpr_negative (isNumber : column.valueIsNumber = true) {type : PrimitiveType}
    {word : BitVec type.width} {number : Int}
    (stored : row column.name = .primitive type (some word)) (isKey : type.key word = some number)
    (negative : number < 0) (literals : ids.mapM column.literal = some values) :
    (column.answerExpr values).truth .basic row = .false := by
  rw [truth_answerExpr, Semantics.inList]
  have each := (Rows.mapM_eq_some_iff _ _ _).mp literals
  clear literals
  induction each with
  | nil => rfl
  | @cons first value rest _ literal _ later =>
    rw [IdColumn.literal, if_pos isNumber] at literal
    obtain ⟨unsigned, -, rfl⟩ := Option.map_eq_some_iff.mp literal
    generalize BitVec.ofNat 64 unsigned = other
    have otherKey : PrimitiveType.uint64.key other = some (other.toNat : Int) := rfl
    have differs : ¬ number = (other.toNat : Int) := by omega
    rw [map_cons, Truth.any_cons, later]
    simp only [Semantics.compare, Semantics.basic, Semantics.basicOrder, stored, isKey, otherKey]
    simp [differs, Truth.ofBool, Truth.disj]

/-- An id column of signed numbers. -/
noncomputable def signedColumn : IdColumn .size4Bytes :=
  { numberColumn with dataType := .primitive .int32 }

end SecureFusion.Indices
