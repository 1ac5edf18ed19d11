import SecureFusion.Filtering.Conjuncts
import SecureFusion.Indices.MatchSearch
import SecureFusion.Indices.UpdateSink
import SecureFusion.Library.Words
import SecureFusion.Sql.LikePattern

/-!
# Pattern matches on the inverted index

A pattern match is answered by the rows that have all words of the pattern. A word of the pattern
is a word of every text that matches only if no wildcard and no escape touches it: `foo%` matches
`foobar`, which has no word `foo`. So no row is lost exactly if every word of the pattern also
stands in it between separators that are characters themselves. The conversion to lower case works
on single characters, except that the one of a capital sigma depends on the text around it.
-/

namespace SecureFusion.Indices

open Library Sql Filtering Inverted List

variable {word : List Char} {text : String} {keyword : List Char}

/-! ## Words in lower case -/

/-- A part of a text in lower case; the characters before it are listed backwards. -/
def lowerIn (lower : Char → List Char) (sigma : List Char → List Char → List Char) :
    (before text after : List Char) → List Char
  | _, [], _ => []
  | before, char :: rest, after =>
    (if char = 'Σ' then sigma before (rest ++ after) else lower char) ++
      lowerIn lower sigma (char :: before) rest after

section LowerCase

variable {lower : Char → List Char} {sigma : List Char → List Char → List Char}

theorem lowerIn_append (before first second after : List Char) :
    lowerIn lower sigma before (first ++ second) after =
      lowerIn lower sigma before first (second ++ after) ++
        lowerIn lower sigma (first.reverse ++ before) second after := by
  induction first generalizing before with
  | nil => rfl
  | cons char rest ih =>
    rw [cons_append, lowerIn, ih, lowerIn, append_assoc, append_assoc, reverse_cons, append_assoc]
    rfl

theorem lowerIn_eq_flatMap {text : List Char} (noSigma : 'Σ' ∉ text) (before after : List Char) :
    lowerIn lower sigma before text after = text.flatMap lower := by
  induction text generalizing before with
  | nil => rfl
  | cons char rest ih =>
    rw [mem_cons, not_or] at noSigma
    rw [lowerIn, if_neg (Ne.symm noSigma.1), ih noSigma.2, flatMap_cons]

end LowerCase

namespace InvertedIndex

variable {size : RowIdColumnSize} (index : InvertedIndex size) {abstract : AbstractIndex size}

/-- What is known of the tables of Unicode: the conversion to lower case keeps separators, and no
other character becomes one; ideographs have no case. -/
structure LowersBy (lower : Char → List Char) (sigma : List Char → List Char → List Char) :
    Prop where
  text : ∀ text, (index.functions.toLowercase text).toList = lowerIn lower sigma [] text.toList []
  separator : ∀ char, index.isSeparator char = true → lower char = [char]
  other : ∀ char, index.isSeparator char = false →
    ∀ changed ∈ lower char, index.isSeparator changed = false
  capitalSigma : index.isSeparator 'Σ' = false
  ideograph : ∀ char : Char, 0x4e00 ≤ char.toNat → char.toNat < 0x9fff →
    index.functions.isWhitespace char = false ∧ lower char = [char]

def keywords (text : String) : List (List Char) :=
  ((index.foldCase (index.functions.trim text)).toList.splitOnP index.isSeparator).filter
    index.isKeyword

def foldWord (lower : Char → List Char) (word : List Char) : List Char :=
  if index.collation.caseInsensitive then word.flatMap lower else word

/-- The conversion of a word looks at no other part of the text. -/
def CaseFree (word : List Char) : Prop :=
  index.collation.caseInsensitive = true → 'Σ' ∉ word

variable {index} {lower : Char → List Char} {sigma : List Char → List Char → List Char}

theorem isSeparator_of_isWhitespace (char : Char)
    (space : index.functions.isWhitespace char = true) : index.isSeparator char = true := by
  rw [isSeparator, space, Bool.or_true]

section Lowers

variable (lowers : index.LowersBy lower sigma)

include lowers

theorem LowersBy.keepsWords :
    KeepsWords index.isSeparator index.isSeparator lower where
  separator char separates := ⟨char, lowers.separator char separates, separates⟩
  other := lowers.other

theorem LowersBy.lowerIn_cons {separator : Char} (separates : index.isSeparator separator = true)
    (before rest after : List Char) :
    lowerIn lower sigma before (separator :: rest) after =
      separator :: lowerIn lower sigma (separator :: before) rest after := by
  have notSigma : separator ≠ 'Σ' := by
    rintro rfl
    rw [lowers.capitalSigma] at separates
    cases separates
  rw [lowerIn, if_neg notSigma, lowers.separator separator separates, singleton_append]

theorem LowersBy.endsSeparated {text : List Char} (ends : EndsSeparated index.isSeparator text)
    (before after : List Char) :
    EndsSeparated index.isSeparator (lowerIn lower sigma before text after) := by
  rcases ends with rfl | ⟨first, separator, rfl, separates⟩
  · exact .inl rfl
  · rw [lowerIn_append, lowers.lowerIn_cons separates]
    exact .inr ⟨_, separator, rfl, separates⟩

theorem LowersBy.startsSeparated {text : List Char}
    (starts : StartsSeparated index.isSeparator text) (before after : List Char) :
    StartsSeparated index.isSeparator (lowerIn lower sigma before text after) := by
  rcases starts with rfl | ⟨separator, rest, rfl, separates⟩
  · exact .inl rfl
  · rw [lowers.lowerIn_cons separates]
    exact .inr ⟨separator, _, rfl, separates⟩

theorem LowersBy.mem_splitOnP {text : List Char} (noSigma : 'Σ' ∉ word)
    (isWord : word ∈ text.splitOnP index.isSeparator) :
    word.flatMap lower ∈ (lowerIn lower sigma [] text []).splitOnP index.isSeparator := by
  obtain ⟨plain, before, after, rfl, ends, starts⟩ := mem_splitOnP_iff.mp isWord
  refine mem_splitOnP_iff.mpr ⟨fun changed isIn => ?_,
    lowerIn lower sigma [] before (word ++ after),
    lowerIn lower sigma (word.reverse ++ before.reverse) after [], ?_, ?_, ?_⟩
  · obtain ⟨char, inWord, isOf⟩ := mem_flatMap.mp isIn
    exact lowers.other char (plain char inWord) changed isOf
  · rw [lowerIn_append, lowerIn_append, lowerIn_eq_flatMap noSigma, append_nil,
      append_nil, reverse_append]
  · exact lowers.endsSeparated ends _ _
  · exact lowers.startsSeparated starts _ _

end Lowers

theorem toList_trim (text : String) :
    (index.functions.trim text).toList = trimBy index.functions.isWhitespace text.toList :=
  String.toList_ofList

theorem LowersBy.mem_keywords (lowers : index.LowersBy lower sigma) (caseFree : index.CaseFree word)
    (isWord : word ∈ text.toList.splitOnP index.isSeparator)
    (admitted : index.isKeyword (index.foldWord lower word) = true) :
    index.foldWord lower word ∈ index.keywords text := by
  refine mem_filter.mpr ⟨?_, admitted⟩
  have notEmpty : word ≠ [] := by
    rintro rfl
    rw [foldWord, flatMap_nil, ite_self] at admitted
    cases admitted
  have trimmed := (mem_splitOnP_trimBy isSeparator_of_isWhitespace notEmpty text.toList).mpr isWord
  rw [← toList_trim] at trimmed
  rw [foldCase, foldWord]
  split_ifs with insensitive
  · rw [lowers.text]
    exact lowers.mem_splitOnP (caseFree insensitive) trimmed
  · exact trimmed

theorem LowersBy.exists_word (lowers : index.LowersBy lower sigma)
    (caseFree : index.CaseFree text.toList) (isKeyword : keyword ∈ index.keywords text) :
    ∃ word ∈ text.toList.splitOnP index.isSeparator, keyword = index.foldWord lower word := by
  obtain ⟨isPart, admitted⟩ := mem_filter.mp isKeyword
  have notEmpty : keyword ≠ [] := by
    rintro rfl
    cases admitted
  have inText : ∀ word : List Char, word ≠ [] →
      word ∈ (index.functions.trim text).toList.splitOnP index.isSeparator →
      word ∈ text.toList.splitOnP index.isSeparator := by
    intro word some isWord
    rw [toList_trim] at isWord
    exact (mem_splitOnP_trimBy isSeparator_of_isWhitespace some text.toList).mp isWord
  rw [foldCase] at isPart
  simp only [foldWord]
  split_ifs at isPart ⊢ with insensitive
  · have noSigma : 'Σ' ∉ (index.functions.trim text).toList := by
      rw [toList_trim]
      exact fun isIn => caseFree insensitive (mem_of_mem_trimBy isIn)
    rw [lowers.text, lowerIn_eq_flatMap noSigma, lowers.keepsWords.splitOnP_flatMap] at isPart
    obtain ⟨word, isWord, rfl⟩ := mem_map.mp isPart
    refine ⟨word, inText word ?_ isWord, rfl⟩
    rintro rfl
    exact notEmpty rfl
  · exact ⟨keyword, inText keyword notEmpty isPart, rfl⟩

/-! ## Words of patterns -/

variable (index) in
/-- A part of a pattern that separates words in every text. -/
def separates : PatternItem → Bool
  | .char value => index.isSeparator value
  | .one | .many => false

def likeText (pattern : String) : String :=
  .ofList (pattern.toList.map fun char => if char = '%' then ' ' else char)

variable (index) in
/-- Every keyword of a pattern is a word of it that no wildcard and no escape touches. -/
def Isolated (lower : Char → List Char) (pattern : String) : Prop :=
  ∀ keyword ∈ index.keywords (likeText pattern), ∃ word,
    word.map .char ∈ (patternItems pattern.toList).splitOnP index.separates ∧
      keyword = index.foldWord lower word ∧ index.CaseFree word

variable (index) in
/-- The characters of a pattern are converted one by one, and its terms are kept as they are. -/
structure Plain (pattern : String) : Prop where
  caseFree : index.CaseFree pattern.toList
  short : ∀ keyword ∈ index.keywords (likeText pattern),
    (keywordToTerm (.ofList keyword)).length < maxTermSize

theorem mem_splitOnP_of_likeMatches {items : List PatternItem} {text : List Char}
    (isWord : word.map .char ∈ items.splitOnP index.separates)
    (found : likeMatches items text = true) : word ∈ text.splitOnP index.isSeparator := by
  obtain ⟨plain, before, after, rfl, ends, starts⟩ := mem_splitOnP_iff.mp isWord
  obtain ⟨front, last, rfl, isFront, isLast⟩ := likeMatches_append found
  obtain ⟨first, middle, rfl, isFirst, isMiddle⟩ := likeMatches_append isFront
  rw [likeMatches_chars.mp isMiddle]
  refine mem_splitOnP_iff.mpr ⟨fun char isIn => plain _ (mem_map_of_mem isIn), first, last,
    rfl, ?_, ?_⟩
  · rcases ends with rfl | ⟨start, item, rfl, separates⟩
    · exact .inl (isEmpty_iff.mp isFirst)
    · obtain ⟨text, closing, rfl, -, isClosing⟩ := likeMatches_append isFirst
      cases item with
      | char value =>
        rw [(@likeMatches_chars [value] _).mp isClosing]
        exact .inr ⟨text, value, rfl, separates⟩
      | one | many => cases separates
  · rcases starts with rfl | ⟨item, rest, rfl, separates⟩
    · exact .inl (isEmpty_iff.mp isLast)
    · rw [← singleton_append] at isLast
      obtain ⟨opening, text, rfl, isOpening, -⟩ := likeMatches_append isLast
      cases item with
      | char value =>
        rw [(@likeMatches_chars [value] _).mp isOpening]
        exact .inr ⟨value, text, rfl, separates⟩
      | one | many => cases separates

/-! ## A text without the keyword -/

def ideographs : List Char := (List.range 64).map fun count => Char.ofNat (0x4e00 + count)

theorem exists_ideograph (short : (keywordToTerm (.ofList keyword)).length < maxTermSize) :
    ∃ filler ∈ ideographs, filler ∉ keyword := by
  by_contra allUsed
  push Not at allUsed
  have nodup : ideographs.Nodup := by decide
  have fewer : ideographs.length ≤ keyword.length := (nodup.subperm allUsed).length_le
  have bytes : keyword.length ≤ (utf8Bytes (.ofList keyword)).length := by
    rw [utf8Bytes, String.toList_ofList]
    clear short allUsed fewer
    induction keyword with
    | nil => exact Nat.zero_le _
    | cons char rest ih =>
      have some : 0 < (String.utf8EncodeChar char).length := String.length_utf8EncodeChar char ▸
        Char.utf8Size_pos char
      rw [flatMap_cons, length_append, length_cons]
      omega
  have enough : ideographs.length = maxTermSize := by decide
  rw [keywordToTerm, length_cons] at short
  omega

theorem LowersBy.filler (lowers : index.LowersBy lower sigma) {filler : Char}
    (isIdeograph : filler ∈ ideographs) :
    index.isSeparator filler = false ∧ lower filler = [filler] ∧ filler ≠ 'Σ' := by
  have range : (ideographs.all fun char => 0x4e00 ≤ char.toNat ∧ char.toNat < 0x9fff ∧
      isAsciiPunctuation char = false ∧ isAsciiControl char = false ∧ char ≠ 'Σ') = true := by
    decide
  obtain ⟨low, high, punctuation, control, other⟩ :=
    of_decide_eq_true (all_eq_true.mp range filler isIdeograph)
  obtain ⟨space, noCase⟩ := lowers.ideograph filler low high
  exact ⟨by rw [isSeparator, punctuation, control, space]; rfl, noCase, other⟩

theorem LowersBy.exists_isolated (lowers : index.LowersBy lower sigma) {pattern : String}
    (caseFree : index.CaseFree pattern.toList) {filler : Char} (isIdeograph : filler ∈ ideographs)
    (fresh : filler ∉ keyword) (isKeyword : keyword ∈ index.keywords
      (.ofList ((patternItems pattern.toList).map (PatternItem.fill filler)))) :
    ∃ word, word.map .char ∈ (patternItems pattern.toList).splitOnP index.separates ∧
      keyword = index.foldWord lower word ∧ index.CaseFree word := by
  obtain ⟨noSeparator, noCase, notSigma⟩ := lowers.filler isIdeograph
  have ofPattern : ∀ item ∈ patternItems pattern.toList, PatternItem.fill filler item = 'Σ' →
      'Σ' ∈ pattern.toList := by
    intro item isIn same
    cases item with
    | char value =>
      rw [← show value = 'Σ' from same]
      exact mem_of_char_mem_patternItems isIn
    | one | many => exact absurd same notSigma
  have caseFreeText : index.CaseFree ((patternItems pattern.toList).map
      (PatternItem.fill filler)) := by
    intro insensitive isIn
    obtain ⟨item, inItems, same⟩ := mem_map.mp isIn
    exact caseFree insensitive (ofPattern item inItems same)
  rw [← @String.toList_ofList ((patternItems pattern.toList).map _)] at caseFreeText
  obtain ⟨word, isWord, rfl⟩ := lowers.exists_word caseFreeText isKeyword
  have keeps : KeepsWords index.separates index.isSeparator
      (fun item => [PatternItem.fill filler item]) := by
    refine ⟨fun item separates => ?_, fun item joins => ?_⟩
    · cases item with
      | char value => exact ⟨value, rfl, separates⟩
      | one | many => cases separates
    · cases item with
      | char value => exact forall_mem_singleton.mpr joins
      | one | many => exact forall_mem_singleton.mpr noSeparator
  rw [String.toList_ofList, map_eq_flatMap, keeps.splitOnP_flatMap] at isWord
  obtain ⟨run, isRun, rfl⟩ := mem_map.mp isWord
  rw [← map_eq_flatMap] at fresh ⊢
  have chars : ∀ item ∈ run, ∃ value, item = .char value := by
    intro item isIn
    cases item with
    | char value => exact ⟨value, rfl⟩
    | one | many =>
      refine absurd ?_ fresh
      have inWord : filler ∈ run.map (PatternItem.fill filler) := mem_map.mpr ⟨_, isIn, rfl⟩
      rw [foldWord]
      split_ifs
      · exact mem_flatMap.mpr ⟨filler, inWord, by rw [noCase]; exact mem_singleton_self _⟩
      · exact inWord
  have same : (run.map (PatternItem.fill filler)).map .char = run := by
    rw [map_map]
    refine (map_congr_left fun item isIn => ?_).trans (map_id run)
    obtain ⟨value, rfl⟩ := chars item isIn
    rfl
  refine ⟨run.map (PatternItem.fill filler), by rwa [same], rfl, ?_⟩
  intro insensitive isIn
  obtain ⟨item, inRun, isSigma⟩ := mem_map.mp isIn
  obtain ⟨-, before, after, listed, -, -⟩ := mem_splitOnP_iff.mp isRun
  exact caseFree insensitive (ofPattern item (by rw [listed]; simp [inRun]) isSigma)

/-! ## Answers to pattern matches -/

theorem mem_evaluate_reduce {id : IndexedDocumentId size} {terms : List RawIndexTerm}
    {query : RawIndexQuery} (made : reduce .intersect (terms.map .term) = some query) :
    id ∈ abstract.evaluate query ↔ ∀ term ∈ terms, id ∈ abstract.evaluate (.term term) := by
  have folded : ∀ (rest : List RawIndexTerm) (first : RawIndexQuery),
      id ∈ abstract.evaluate ((rest.map .term).foldl .intersect first) ↔
        id ∈ abstract.evaluate first ∧ ∀ term ∈ rest, id ∈ abstract.evaluate (.term term) := by
    intro rest
    induction rest with
    | nil =>
      intro first
      simp
    | cons term rest ih =>
      intro first
      rw [map_cons, foldl_cons, ih, forall_mem_cons, ← and_assoc]
      rfl
  cases terms with
  | nil => cases made
  | cons term rest =>
    cases made
    rw [folded, forall_mem_cons]

/-- What is known of LIKE and of casts to texts: LIKE holds for texts that match, and a cast to a
text type has the content that a cast to any other text type has. -/
structure MeansLike (semantics : Semantics) : Prop where
  like : ∀ value pattern, semantics.like false none value (.text .utf8 (some pattern)) = .true ↔
    ∃ layout text, value = .text layout (some text) ∧
      likeMatches (patternItems pattern.toList) text.toList = true
  castText : ∀ layout other content, ∃ kept,
    semantics.cast (.text layout) (.text other content) = some (.text kept content)
  castSame : ∀ layout other value kept text,
    semantics.cast (.text layout) value = some (.text kept (some text)) →
      ∃ kept, semantics.cast (.text other) value = some (.text kept (some text))

variable (index) in
/-- A column of texts of the index, possibly cast to another type of texts. -/
structure TextColumn (column : ColumnWithCast) : Prop where
  watched : column.column.name ∈ index.watchedStringColumns
  noBoolean : index.watchedBooleanColumns.lookup column.column.name = none
  cast : column.castTo = none ∨ ∃ layout, column.castTo = some (.text layout)

variable (index) in
/-- Every row that satisfies a pattern match and that the index is in sync with is in the answer of
the query for the pattern. -/
def FindsLike (semantics : Semantics) (column : ColumnWithCast) (pattern : String) : Prop :=
  ∀ (inner : RawInvertedIndex size) abstract id row tree, inner.Answers abstract →
    index.InSync semantics.cast abstract id row →
    (.kwSearchLike column pattern : IndexableLogicalExpr).truth semantics row
      (Expr.truth semantics row) = .true →
    index.parseFilterTree (.kwSearchLike column pattern : IndexableLogicalExpr) = some tree →
      ∃ answer, inner.query tree.extractQueries = some [answer] ∧ id ∈ answer

variable {semantics : Semantics} {column : ColumnWithCast} {pattern : String}

theorem MeansLike.processStringColumn_eq (means : MeansLike semantics) {value : ScalarValue}
    {kept : TextType} (casts : semantics.cast (.text .utf8) value = some (.text kept (some text))) :
    index.processStringColumn semantics.cast value = some (index.parseLikeString text) := by
  unfold processStringColumn
  split
  case h_1 content =>
    obtain ⟨other, same⟩ := means.castText .utf8 .utf8 content
    rw [casts] at same
    cases same
    rfl
  case h_2 content =>
    obtain ⟨other, same⟩ := means.castText .utf8 .largeUtf8 content
    rw [casts] at same
    cases same
    rfl
  case h_3 =>
    rw [casts]
    rfl

theorem MeansLike.exists_text (means : MeansLike semantics) (isText : index.TextColumn column)
    {row : Row} (holds : (.kwSearchLike column pattern : IndexableLogicalExpr).truth semantics row
      (Expr.truth semantics row) = .true) :
    ∃ text : String, likeMatches (patternItems pattern.toList) text.toList = true ∧
      index.columnTerms semantics.cast row column.column.name = index.parseLikeString text := by
  obtain ⟨layout, text, isValue, found⟩ := (means.like _ _).mp holds
  refine ⟨text, found, ?_⟩
  have casts : ∃ kept, semantics.cast (.text .utf8) (row column.column.name) =
      some (.text kept (some text)) := by
    rcases isText.cast with noCast | ⟨type, isType⟩
    · rw [ColumnWithCast.value, noCast] at isValue
      rw [show row column.column.name = .text layout (some text) from isValue]
      exact means.castText .utf8 layout (some text)
    · rw [ColumnWithCast.value, isType] at isValue
      dsimp only at isValue
      refine means.castSame type .utf8 _ layout text ?_
      rw [Semantics.castOrNull] at isValue
      cases casted : semantics.cast (.text type) (row column.column.name) with
      | none =>
        rw [casted] at isValue
        cases isValue
      | some value =>
        rw [casted, Option.getD_some] at isValue
        rw [isValue]
  obtain ⟨kept, casts⟩ := casts
  rw [columnTerms, processColumn, isText.noBoolean]
  dsimp only
  rw [means.processStringColumn_eq casts]
  rfl

theorem parseFilterTree_like (isText : index.TextColumn column) :
    index.parseFilterTree (.kwSearchLike column pattern : IndexableLogicalExpr) =
      (index.likeQuery pattern).map .filterExpr := by
  have tracked : column.column.name ∈ index.trackedColumns := mem_append_left _ isText.watched
  exact if_pos (contains_iff_mem.mpr tracked)

theorem exists_answer {inner : RawInvertedIndex size} (answers : inner.Answers abstract)
    (query : RawIndexQuery) :
    ∃ answer, inner.query [query] = some [answer] ∧
      ∀ id, id ∈ answer ↔ id ∈ abstract.evaluate query := by
  obtain ⟨results, answered, sets⟩ := answers [query]
  obtain ⟨answer, rfl, isAnswer⟩ := map_eq_singleton_iff.mp sets
  exact ⟨answer, answered, fun id => by rw [← isAnswer, Finset.mem_coe]⟩

theorem findsLike_of_isolated (lowers : index.LowersBy lower sigma) (means : MeansLike semantics)
    (isText : index.TextColumn column) (isolated : index.Isolated lower pattern) :
    index.FindsLike semantics column pattern := by
  intro inner abstract id row tree answers inSync holds built
  rw [parseFilterTree_like isText, Option.map_eq_some_iff] at built
  obtain ⟨query, made, rfl⟩ := built
  obtain ⟨text, found, terms⟩ := means.exists_text isText holds
  obtain ⟨answer, answered, isAnswer⟩ := exists_answer answers query
  refine ⟨answer, answered, ?_⟩
  rw [isAnswer, mem_evaluate_reduce made]
  intro term isTerm
  obtain ⟨keyword, isKeyword, rfl⟩ := mem_map.mp isTerm
  refine (inSync _ rfl).mpr ⟨_, mem_append_left _ isText.watched, mem_map_of_mem ?_⟩
  rw [terms]
  obtain ⟨word, isWord, rfl, caseFree⟩ := isolated keyword isKeyword
  have inText := lowers.mem_keywords caseFree (mem_splitOnP_of_likeMatches isWord found)
    (mem_filter.mp isKeyword).2
  exact mem_map.mpr ⟨_, inText, rfl⟩

/-! ## An index of one row -/

theorem exists_answers {id : IndexedDocumentId size}
    (only : ∀ term, ∀ other ∈ abstract term, other = id) :
    ∃ inner : RawInvertedIndex size, inner.Answers abstract := by
  classical
  have onlyQuery : ∀ query, ∀ other ∈ abstract.evaluate query, other = id := by
    intro query
    induction query with
    | term term => exact only (resizeTerm term)
    | union a b ihA ihB => exact fun other isIn => isIn.elim (ihA other) (ihB other)
    | difference a b ihA _ | intersect a b ihA _ => exact fun other isIn => ihA other isIn.1
  refine ⟨⟨fun queries => some (queries.map fun query =>
    if id ∈ abstract.evaluate query then {id} else ∅)⟩, fun queries => ⟨_, rfl, ?_⟩⟩
  rw [map_map]
  refine map_congr_left fun query _ => ?_
  ext other
  rw [Function.comp_apply]
  split_ifs with isIn
  · simp only [Finset.coe_singleton, Set.mem_singleton_iff]
    exact ⟨fun same => same ▸ isIn, onlyQuery query other⟩
  · simp only [Finset.coe_empty, Set.mem_empty_iff_false, false_iff]
    exact fun isOther => isIn (onlyQuery query other isOther ▸ isOther)

variable (index) in
def textRow (text : String) : Row := fun name =>
  if (index.watchedBooleanColumns.lookup name).isSome then .boolean none
  else .text .utf8 (some text)

theorem mem_columnTerms_textRow {castTo : DataType → ScalarValue → Option ScalarValue}
    {name : String} {term : RawIndexTerm}
    (isIn : term ∈ index.columnTerms castTo (index.textRow text) name) :
    term ∈ index.parseLikeString text := by
  rw [columnTerms, processColumn, textRow] at isIn
  cases boolean : index.watchedBooleanColumns.lookup name with
  | none =>
    rw [boolean] at isIn
    exact isIn
  | some terms =>
    rw [boolean] at isIn
    cases isIn

theorem MeansLike.truth_textRow (means : MeansLike semantics) (isText : index.TextColumn column)
    (found : likeMatches (patternItems pattern.toList) text.toList = true) :
    (.kwSearchLike column pattern : IndexableLogicalExpr).truth semantics (index.textRow text)
      (Expr.truth semantics (index.textRow text)) = .true := by
  have isValue : index.textRow text column.column.name = .text .utf8 (some text) := by
    rw [textRow, isText.noBoolean]
    rfl
  refine (means.like _ _).mpr ?_
  rcases isText.cast with noCast | ⟨type, isType⟩
  · rw [ColumnWithCast.value, noCast]
    exact ⟨.utf8, text, isValue, found⟩
  · obtain ⟨kept, casts⟩ := means.castText type .utf8 (some text)
    rw [ColumnWithCast.value, isType]
    dsimp only
    rw [Semantics.castOrNull, isValue, casts]
    exact ⟨kept, text, rfl, found⟩

variable (index) in
def textIndex (castTo : DataType → ScalarValue → Option ScalarValue) (text : String)
    (id : IndexedDocumentId size) : AbstractIndex size :=
  fun term => {other | other = id ∧ ∃ name ∈ index.trackedColumns,
    term ∈ (index.columnTerms castTo (index.textRow text) name).map resizeTerm}

theorem eq_of_resizeTerm {term other : RawIndexTerm} (short : term.length < maxTermSize)
    (same : resizeTerm term = resizeTerm other) : term = other := by
  rw [resizeTerm, resizeTerm, take_of_length_le (Nat.le_of_lt short)] at same
  have length := congrArg length same
  rw [length_take] at length
  rw [same, take_of_length_le (by omega)]

theorem isolated_of_findsLike (lowers : index.LowersBy lower sigma) (means : MeansLike semantics)
    (isText : index.TextColumn column) (plain : index.Plain pattern)
    (finds : index.FindsLike semantics column pattern) : index.Isolated lower pattern := by
  intro keyword isKeyword
  have short := plain.short keyword isKeyword
  obtain ⟨filler, isIdeograph, fresh⟩ := exists_ideograph short
  -- The text that matches has the filler in place of all wildcards.
  let text : String := .ofList ((patternItems pattern.toList).map (PatternItem.fill filler))
  let id : IndexedDocumentId size := Vector.replicate _ 0
  let abstract := index.textIndex semantics.cast text id
  refine lowers.exists_isolated plain.caseFree isIdeograph fresh ?_
  obtain ⟨inner, answers⟩ := @exists_answers size abstract id fun term other isIn => isIn.1
  have inSync : index.InSync semantics.cast abstract id (index.textRow text) :=
    fun term _ => and_iff_right rfl
  have found : likeMatches (patternItems pattern.toList) text.toList = true := by
    rw [String.toList_ofList]
    exact likeMatches_fill filler _
  obtain ⟨query, made⟩ : ∃ query, index.likeQuery pattern = some query :=
    exists_reduce RawIndexQuery.intersect (mem_map_of_mem (mem_map_of_mem isKeyword))
  have built : index.parseFilterTree (.kwSearchLike column pattern : IndexableLogicalExpr) =
      some (.filterExpr query) := by
    rw [parseFilterTree_like isText, made]
    rfl
  obtain ⟨answer, answered, isIn⟩ := finds inner abstract id (index.textRow text) _ answers inSync
    (means.truth_textRow isText found) built
  have evaluated : id ∈ abstract.evaluate query := by
    obtain ⟨same, isAnswer, mem_answer⟩ := exists_answer answers query
    rw [show inner.query [query] = some [answer] from answered] at isAnswer
    cases isAnswer
    exact (mem_answer id).mp isIn
  obtain ⟨-, name, -, isTerm⟩ := (mem_evaluate_reduce made).mp evaluated
    (keywordToTerm (.ofList keyword)) (mem_map_of_mem isKeyword)
  obtain ⟨other, isOther, same⟩ := mem_map.mp isTerm
  obtain ⟨known, isKnown, rfl⟩ := mem_map.mp (mem_columnTerms_textRow isOther)
  have equal := (cons.inj (eq_of_resizeTerm short same.symm)).2
  have words := congrArg String.toList (utf8Bytes_injective equal)
  rw [String.toList_ofList, String.toList_ofList] at words
  rw [words]
  exact isKnown

/-- No row that satisfies a pattern match is lost if every keyword of the pattern is a word of it
that no wildcard and no escape touches; and only then, unless the conversion to lower case or the
length of kept terms hides the difference. -/
theorem findsLike_iff_isolated (lowers : index.LowersBy lower sigma) (means : MeansLike semantics)
    (isText : index.TextColumn column) (pattern : String) :
    (index.Isolated lower pattern → index.FindsLike semantics column pattern) ∧
      (index.Plain pattern →
        (index.FindsLike semantics column pattern ↔ index.Isolated lower pattern)) :=
  ⟨findsLike_of_isolated lowers means isText, fun plain =>
    ⟨isolated_of_findsLike lowers means isText plain, findsLike_of_isolated lowers means isText⟩⟩

end InvertedIndex

/-! ## Patterns on a small index -/

def likeSemantics : Semantics :=
  { Semantics.basic with
    like := fun _ _ value pattern =>
      match value, pattern with
      | .text _ (some text), .text _ (some pattern) =>
        .ofBool (likeMatches (patternItems pattern.toList) text.toList)
      | _, _ => .unknown }

theorem means_likeSemantics : InvertedIndex.MeansLike likeSemantics where
  like value pattern := by
    cases value with
    | text layout content =>
      cases content with
      | none => simp [likeSemantics]
      | some text =>
        change Truth.ofBool _ = .true ↔ _
        cases found : likeMatches (patternItems pattern.toList) text.toList <;>
          simp [Truth.ofBool, found]
    | _ => simp [likeSemantics]
  castText layout other content := ⟨other, rfl⟩
  castSame layout other value kept text casts := ⟨kept, by
    cases value with
    | text | null | boolean | primitive | bytes | float32List | struct => exact casts⟩

theorem lowerIn_self (before text after : List Char) :
    lowerIn (fun char => [char]) (fun _ _ => ['Σ']) before text after = text := by
  induction text generalizing before with
  | nil => rfl
  | cons char rest ih =>
    rw [lowerIn, ih]
    split_ifs with isSigma
    · rw [isSigma]
      rfl
    · rfl

theorem notesIndex_lowers : notesIndex.LowersBy (fun char => [char]) fun _ _ => ['Σ'] where
  text text := (lowerIn_self [] text.toList []).symm
  separator _ _ := rfl
  other char joins changed isIn := mem_singleton.mp isIn ▸ joins
  capitalSigma := by decide
  ideograph char low _ := ⟨by
    refine decide_eq_false ?_
    rintro rfl
    exact absurd low (by decide), rfl⟩

theorem notesIndex_textColumn : notesIndex.TextColumn (.raw "x") :=
  ⟨mem_cons_self, rfl, .inl rfl⟩

/-- The keywords of a pattern between blanks are found. -/
theorem finds_word_between_blanks : notesIndex.FindsLike likeSemantics (.raw "x") "% foo %" := by
  refine (InvertedIndex.findsLike_iff_isolated notesIndex_lowers means_likeSemantics
    notesIndex_textColumn "% foo %").1 ?_
  have only : notesIndex.keywords (InvertedIndex.likeText "% foo %") = [['f', 'o', 'o']] := by
    decide
  intro keyword isKeyword
  rw [only, mem_singleton] at isKeyword
  subst isKeyword
  exact ⟨['f', 'o', 'o'], by decide, rfl, nofun⟩

/-- The text `foobar` matches the pattern `foo%`, but it has no word `foo`. -/
theorem loses_longer_word :
    likeMatches (patternItems "foo%".toList) "foobar".toList = true ∧
      notesIndex.parseLikeString "foobar" = [keywordToTerm "foobar"] ∧
      notesIndex.likeQuery "foo%" = some (.term (keywordToTerm "foo")) ∧
      ¬ notesIndex.FindsLike likeSemantics (.raw "x") "foo%" := by
  refine ⟨by decide, by decide, by decide, fun finds => ?_⟩
  have only : notesIndex.keywords (InvertedIndex.likeText "foo%") = [['f', 'o', 'o']] := by decide
  have plain : notesIndex.Plain "foo%" := by
    refine ⟨nofun, fun keyword isKeyword => ?_⟩
    rw [only, mem_singleton] at isKeyword
    subst isKeyword
    decide
  obtain ⟨word, isWord, -⟩ := InvertedIndex.isolated_of_findsLike notesIndex_lowers
    means_likeSemantics notesIndex_textColumn plain finds ['f', 'o', 'o']
    (by rw [only]; exact mem_cons_self)
  have runs : (patternItems "foo%".toList).splitOnP notesIndex.separates =
      [[.char 'f', .char 'o', .char 'o', .many]] := by decide
  rw [runs, mem_singleton] at isWord
  have wild : PatternItem.many ∈ word.map PatternItem.char := by
    rw [isWord]
    decide
  obtain ⟨char, -, same⟩ := mem_map.mp wild
  cases same

end SecureFusion.Indices
