import SecureFusion.Filtering.Resolver
import SecureFusion.Indices.ExecutableFilter

/-!
# Keyword searches on the inverted index

The inverted index tracks columns of texts. A text is cut into words, and the words that the
collation admits become its terms. The index answers pattern matches and keyword searches on tracked
columns, combined with AND, OR and NOT: the filter becomes a tree of index queries that is executed
before the scan. How characters are classified and changed to lower case is a parameter.
-/

namespace SecureFusion.Indices

open Library Sql Filtering Inverted

/-- What the index uses of the tables of Unicode. -/
structure TextFunctions where
  isWhitespace : Char → Bool
  isAlphabetic : Char → Bool
  toLowercase : String → String

/-- Which words of a text are indexed. -/
structure Collation where
  caseInsensitive : Bool
  lengthUnlimited : Bool
  allowAlphanumeric : Bool
deriving DecidableEq, Repr

/-- Number of bytes of the longest word, unless the length is not limited. -/
def maxKwLen : Nat := 32

def termPrefixKeyword : UInt8 := 0x30

def isAsciiPunctuation (char : Char) : Bool :=
  ('!' ≤ char && char ≤ '/') || (':' ≤ char && char ≤ '@') || ('[' ≤ char && char ≤ '\x60') ||
    ('\x7b' ≤ char && char ≤ '~')

def isAsciiControl (char : Char) : Bool := char < ' ' || char = '\x7f'

def keywordToTerm (word : String) : RawIndexTerm := termPrefixKeyword :: utf8Bytes word

def TextFunctions.trim (functions : TextFunctions) (text : String) : String :=
  .ofList ((text.toList.dropWhile functions.isWhitespace).reverse.dropWhile
    functions.isWhitespace).reverse

/-- An inverted index on some columns of a table. -/
structure InvertedIndex (size : RowIdColumnSize) where
  inner : RawInvertedIndex size
  watchedStringColumns : List String
  /-- Boolean columns with their terms for true and false. -/
  watchedBooleanColumns : List (String × RawIndexTerm × RawIndexTerm)
  collation : Collation
  functions : TextFunctions

def InvertedIndex.trackedColumns {size : RowIdColumnSize} (index : InvertedIndex size) :
    List String :=
  index.watchedStringColumns ++ index.watchedBooleanColumns.map Prod.fst

/-- A filter that is executed on the inverted index before the scan. -/
structure InvertedIndexExec (size : RowIdColumnSize) where
  query : ExecutableFilterTree
  idColumn : IdColumn size
  index : RawInvertedIndex size

def InvertedIndexExec.executeFilter {size : RowIdColumnSize} (exec : InvertedIndexExec size) :
    Option AstExpr :=
  Indices.executeFilter exec.index exec.idColumn exec.query

/-- The queries collected from the words of a search. -/
structure MatchParts where
  excluded : Option RawIndexQuery
  mustBeIncluded : Option RawIndexQuery
  canBeIncluded : Option RawIndexQuery
deriving DecidableEq, Repr

namespace MatchParts

def empty : MatchParts := ⟨none, none, none⟩

def join (combinator : RawIndexQuery → RawIndexQuery → RawIndexQuery)
    (initial : Option RawIndexQuery) (query : RawIndexQuery) : Option RawIndexQuery :=
  some (match initial with
    | some initial => combinator initial query
    | none => query)

/-- Adds a word to the queries, by its sign. -/
def addKeyword (parts : MatchParts) (keyword : List Char) : MatchParts :=
  match keyword with
  | '-' :: word =>
    { parts with
      excluded := join .intersect parts.excluded (.term (keywordToTerm (.ofList word))) }
  | '+' :: word =>
    { parts with
      mustBeIncluded := join .intersect parts.mustBeIncluded
        (.term (keywordToTerm (.ofList word))) }
  | word =>
    { parts with
      canBeIncluded := join .union parts.canBeIncluded (.term (keywordToTerm (.ofList word))) }

/-- The query of a search; none if all its words are excluded. -/
def toQuery (parts : MatchParts) : Option RawIndexQuery := do
  let base ← match parts.mustBeIncluded, parts.canBeIncluded with
    | none, none => none
    | some must, some can => some (.intersect must can)
    | some must, none => some must
    | none, some can => some can
  some (match parts.excluded with
    | some excluded => .difference base excluded
    | none => base)

end MatchParts

namespace InvertedIndex

variable {size : RowIdColumnSize} (index : InvertedIndex size)

/-- The text in lower case, if the collation ignores case. -/
def foldCase (text : String) : String :=
  if index.collation.caseInsensitive then index.functions.toLowercase text else text

def isSeparator (char : Char) : Bool :=
  isAsciiPunctuation char || isAsciiControl char || index.functions.isWhitespace char

/-- The words that the collation admits. -/
def isKeyword (word : List Char) : Bool :=
  !word.isEmpty && (index.collation.lengthUnlimited ||
      (utf8Bytes (.ofList word)).length ≤ maxKwLen) &&
    (index.collation.allowAlphanumeric || word.all index.functions.isAlphabetic)

/-- The terms of a text or a pattern. -/
def parseLikeString (text : String) : List RawIndexTerm :=
  (((index.foldCase (index.functions.trim text)).toList.splitOnP index.isSeparator).filter
    index.isKeyword).map fun word => keywordToTerm (.ofList word)

/-- The query of a keyword search. -/
def matchQuery (searchString : String) : Option RawIndexQuery :=
  (((index.functions.trim (index.foldCase searchString)).toList.splitOn ' ').foldl
    MatchParts.addKeyword .empty).toQuery

/-- The query of a pattern match; none if the pattern has no keyword. -/
def likeQuery (pattern : String) : Option RawIndexQuery :=
  reduce .intersect ((index.parseLikeString
    (.ofList (pattern.toList.map fun char => if char = '%' then ' ' else char))).map .term)

variable {E : Type}

/-- Patterns and searches on tracked columns. -/
def isSupported (leaf : IndexableFilterExpr E) : Option IndexSelectivity :=
  match leaf with
  | .kwSearchLike column _ =>
    if index.trackedColumns.contains column.column.name then some .absent else none
  | .kwMatch columns _ =>
    if columns.all fun column => index.trackedColumns.contains column.name then some .absent
    else none
  | _ => none

/-- The tree of index queries for a filter. -/
def parseFilterTree : IndexableFilterExpr E → Option ExecutableFilterTree
  | .and a b => do some (.and (← parseFilterTree a) (← parseFilterTree b))
  | .or a b => do some (.or (← parseFilterTree a) (← parseFilterTree b))
  | .not other => do some (.not (← parseFilterTree other))
  | .kwSearchLike column pattern =>
    if index.trackedColumns.contains column.column.name then
      (index.likeQuery pattern).map .filterExpr
    else none
  | .kwMatch columns searchString =>
    if columns.all fun column => index.trackedColumns.contains column.name then
      (index.matchQuery searchString).map .filterExpr
    else none
  | _ => none

/-- The dynamic filter for a filter tree. -/
def query (idColumn : IdColumn size) (tree : IndexableFilterExpr E) :
    Option (IndexQueryStrategy (InvertedIndexExec size)) := do
  let executable ← index.parseFilterTree tree
  some (.dynamic ⟨executable.simplify, idColumn, index.inner⟩)

/-- What the index answers of the filters of either planner. -/
def supportOptions : SupportOptions E where
  supportsNot := true
  supportsOr := true
  isSupported leaf _ := index.isSupported leaf

/-- An inverted index as the resolver sees it; it answers logical filters only, and only on a
table with a row id column. -/
def encryptedIndex (idColumn : Option (IdColumn size)) :
    EncryptedIndex (InvertedIndexExec size) where
  logicalSupportOptions := index.supportOptions
  logicalQuery tree := idColumn.bind fun idColumn => index.query idColumn tree
  physicalSupportOptions := none
  physicalQuery _ := none

end InvertedIndex

end SecureFusion.Indices
