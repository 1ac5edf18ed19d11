import SecureFusion.Indices.Resolution

/-!
# Documents that a keyword search finds

The words of a search are collected in three queries: documents with all mandatory words,
documents with one of the plain words, and documents to take away. The last are those with
all excluded words, not those with one of them. Two spaces in a row enclose an empty word,
which is plain and in no document, so that it hides every document from a search with
mandatory words.
-/

namespace SecureFusion.Indices

open Library Sql Filtering Inverted List MatchParts

variable {combinator : RawIndexQuery → RawIndexQuery → RawIndexQuery} {word : List Char}
  {first second : List Char}

/-! ## Collected words -/

/-- The word of a piece of a search that excludes documents. -/
def excludedWord : List Char → Option (List Char)
  | '-' :: word => some word
  | _ => none

/-- The word of a piece of a search that must be in a document. -/
def mandatoryWord : List Char → Option (List Char)
  | '+' :: word => some word
  | _ => none

/-- The word of a piece of a search without a sign, empty between two spaces. -/
def optionalWord : List Char → Option (List Char)
  | '-' :: _ | '+' :: _ => none
  | word => some word

def wordTerm (word : List Char) : RawIndexTerm := keywordToTerm (.ofList word)

def keptTerm (word : List Char) : RawIndexTerm := resizeTerm (wordTerm word)

theorem reduce_append_singleton (combinator : RawIndexQuery → RawIndexQuery → RawIndexQuery)
    (queries : List RawIndexQuery) (query : RawIndexQuery) :
    reduce combinator (queries ++ [query]) =
      MatchParts.join combinator (reduce combinator queries) query := by
  cases queries with
  | nil => rfl
  | cons first rest =>
    rw [cons_append, reduce, foldl_append]
    rfl

/-- The queries for some excluded, mandatory and optional words. -/
def MatchParts.ofWords (excluded mandatory optional : List (List Char)) : MatchParts where
  excluded := reduce .intersect (excluded.map fun word => .term (wordTerm word))
  mustBeIncluded := reduce .intersect (mandatory.map fun word => .term (wordTerm word))
  canBeIncluded := reduce .union (optional.map fun word => .term (wordTerm word))

theorem MatchParts.addKeyword_ofWords (excluded mandatory optional : List (List Char))
    (piece : List Char) :
    (ofWords excluded mandatory optional).addKeyword piece =
      ofWords (excluded ++ (excludedWord piece).toList) (mandatory ++ (mandatoryWord piece).toList)
        (optional ++ (optionalWord piece).toList) := by
  unfold addKeyword
  split
  · next word =>
    show _ = ofWords (excluded ++ [word]) (mandatory ++ []) (optional ++ [])
    simp only [ofWords, map_append, map_cons, map_nil, append_nil, reduce_append_singleton]
    rfl
  · next word =>
    show _ = ofWords (excluded ++ []) (mandatory ++ [word]) (optional ++ [])
    simp only [ofWords, map_append, map_cons, map_nil, append_nil, reduce_append_singleton]
    rfl
  · next notExcluded notMandatory =>
    rw [excludedWord.eq_2 _ notExcluded, mandatoryWord.eq_2 _ notMandatory,
      optionalWord.eq_3 _ notExcluded notMandatory]
    simp only [ofWords, Option.toList_some, Option.toList_none, map_append, map_cons,
      map_nil, append_nil, reduce_append_singleton]
    rfl

theorem MatchParts.foldl_addKeyword (pieces : List (List Char))
    (excluded mandatory optional : List (List Char)) :
    pieces.foldl addKeyword (ofWords excluded mandatory optional) =
      ofWords (excluded ++ pieces.filterMap excludedWord)
        (mandatory ++ pieces.filterMap mandatoryWord)
        (optional ++ pieces.filterMap optionalWord) := by
  induction pieces generalizing excluded mandatory optional with
  | nil => simp only [foldl_nil, filterMap_nil, append_nil]
  | cons piece pieces ih =>
    have split : ∀ (f : List Char → Option (List Char)),
        (piece :: pieces).filterMap f = (f piece).toList ++ pieces.filterMap f := by
      intro f
      rw [filterMap_cons]
      cases f piece <;> rfl
    rw [foldl_cons, addKeyword_ofWords, ih, split, split, split, append_assoc,
      append_assoc, append_assoc]

/-! ## Documents of the collected queries -/

section Documents

variable {size : RowIdColumnSize} (abstract : AbstractIndex size) (id : IndexedDocumentId size)
  {query : RawIndexQuery} {words : List (List Char)}

/-- A document contains a word; words are compared as their terms are kept. -/
def ContainsWord (word : List Char) : Prop := id ∈ abstract.evaluate (.term (wordTerm word))

variable {abstract id} {excluded mandatory optional : List (List Char)}

theorem containsWord_congr (same : keptTerm first = keptTerm second) :
    ContainsWord abstract id first ↔ ContainsWord abstract id second := by
  change id ∈ abstract (keptTerm first) ↔ id ∈ abstract (keptTerm second)
  rw [same]

theorem mem_intersect_iff
    (made : reduce .intersect (words.map fun word => .term (wordTerm word)) = some query) :
    id ∈ abstract.evaluate query ↔ ∀ word ∈ words, ContainsWord abstract id word := by
  cases words with
  | nil => cases made
  | cons first rest =>
    cases made
    rw [forall_mem_cons, ContainsWord]
    dsimp only
    generalize RawIndexQuery.term (wordTerm first) = before
    induction rest generalizing before with
    | nil => simp
    | cons word rest ih =>
      rw [map_cons, foldl_cons, ih, forall_mem_cons, ← and_assoc]
      rfl

theorem mem_union_iff
    (made : reduce .union (words.map fun word => .term (wordTerm word)) = some query) :
    id ∈ abstract.evaluate query ↔ ∃ word ∈ words, ContainsWord abstract id word := by
  cases words with
  | nil => cases made
  | cons first rest =>
    cases made
    rw [exists_mem_cons_iff, ContainsWord]
    dsimp only
    generalize RawIndexQuery.term (wordTerm first) = before
    induction rest generalizing before with
    | nil => simp
    | cons word rest ih =>
      rw [map_cons, foldl_cons, ih, exists_mem_cons_iff, ← or_assoc]
      rfl

theorem reduce_eq_none_iff :
    reduce combinator (words.map fun word => .term (wordTerm word)) = none ↔ words = [] := by
  cases words <;> simp [reduce]

theorem ne_nil_of_reduce
    (made : reduce combinator (words.map fun word => .term (wordTerm word)) = some query) :
    words ≠ [] := by
  rintro rfl
  cases made

theorem mem_toQuery_iff
    (made : (MatchParts.ofWords excluded mandatory optional).toQuery = some query) :
    (mandatory ≠ [] ∨ optional ≠ []) ∧ (id ∈ abstract.evaluate query ↔
      (∀ word ∈ mandatory, ContainsWord abstract id word) ∧
      (optional ≠ [] → ∃ word ∈ optional, ContainsWord abstract id word) ∧
      (excluded ≠ [] → ∃ word ∈ excluded, ¬ ContainsWord abstract id word)) := by
  have without : ∀ {base : RawIndexQuery},
      toQuery ⟨(ofWords excluded mandatory optional).excluded, some base, none⟩ = some query →
        (id ∈ abstract.evaluate query ↔ id ∈ abstract.evaluate base ∧
          (excluded ≠ [] → ∃ word ∈ excluded, ¬ ContainsWord abstract id word)) := by
    intro base made
    cases isExcluded : (ofWords excluded mandatory optional).excluded with
    | none =>
      rw [isExcluded] at made
      cases made
      have noExcluded := reduce_eq_none_iff.mp isExcluded
      simp [noExcluded]
    | some other =>
      rw [isExcluded] at made
      cases made
      have hasExcluded : excluded ≠ [] := ne_nil_of_reduce isExcluded
      have member := @mem_intersect_iff size abstract id _ _ isExcluded
      change id ∈ abstract.evaluate base ∧ id ∉ abstract.evaluate other ↔ _
      rw [member]
      simp [hasExcluded]
  cases isMandatory : (ofWords excluded mandatory optional).mustBeIncluded <;>
    cases isOptional : (ofWords excluded mandatory optional).canBeIncluded <;>
    rw [toQuery, isMandatory, isOptional] at made
  case none.none => cases made
  case none.some can =>
    have hasOptional : optional ≠ [] := ne_nil_of_reduce isOptional
    refine ⟨.inr hasOptional, (without made).trans ?_⟩
    rw [mem_union_iff isOptional]
    simp [reduce_eq_none_iff.mp isMandatory, hasOptional]
  case some.none must =>
    refine ⟨.inl (ne_nil_of_reduce isMandatory), (without made).trans ?_⟩
    rw [mem_intersect_iff isMandatory]
    simp [reduce_eq_none_iff.mp isOptional]
  case some.some must can =>
    have hasOptional : optional ≠ [] := ne_nil_of_reduce isOptional
    refine ⟨.inl (ne_nil_of_reduce isMandatory), (without made).trans ?_⟩
    change (id ∈ abstract.evaluate must ∧ id ∈ abstract.evaluate can) ∧ _ ↔ _
    rw [mem_intersect_iff isMandatory, mem_union_iff isOptional, and_assoc]
    simp [hasOptional]

theorem exists_toQuery (some : mandatory ≠ [] ∨ optional ≠ []) :
    ∃ query, (MatchParts.ofWords excluded mandatory optional).toQuery = Option.some query := by
  cases mandatory with
  | nil =>
    cases optional with
    | nil => simp at some
    | cons => exact ⟨_, rfl⟩
  | cons => cases optional <;> exact ⟨_, rfl⟩

end Documents

/-! ## Searches that are answered exactly -/

theorem eq_nil_of_keptTerm (same : keptTerm word = keptTerm []) : word = [] := by
  cases word with
  | nil => rfl
  | cons char rest =>
    have isSome : utf8Bytes (.ofList (char :: rest)) ≠ [] := by
      intro none
      have text : String.ofList (char :: rest) = "" := utf8Bytes_injective none
      have chars := congrArg String.toList text
      rw [String.toList_ofList] at chars
      cases chars
    obtain ⟨byte, bytes, isBytes⟩ := exists_cons_of_ne_nil isSome
    simp only [keptTerm, wordTerm, keywordToTerm, isBytes, resizeTerm, maxTermSize,
      take_succ_cons, cons.injEq, true_and] at same
    cases same

namespace InvertedIndex

variable {query : RawIndexQuery} {words : List (List Char)} {size : RowIdColumnSize}
  (index : InvertedIndex size)

def searchPieces (text : String) : List (List Char) :=
  (index.functions.trim (index.foldCase text)).toList.splitOn ' '

def excludedWords (text : String) : List (List Char) :=
  (index.searchPieces text).filterMap excludedWord

def mandatoryWords (text : String) : List (List Char) :=
  (index.searchPieces text).filterMap mandatoryWord

def plainWords (text : String) : List (List Char) :=
  ((index.searchPieces text).filterMap optionalWord).filter (· ≠ [])

/-- All words that are not excluded are mandatory, or none is. -/
def Uniform (text : String) : Prop := index.mandatoryWords text = [] ∨ index.plainWords text = []

/-- The documents that a search is for: those with all mandatory words, without any excluded one
and, if no word is mandatory, with a plain word. -/
structure SearchedFor (abstract : AbstractIndex size) (text : String)
    (id : IndexedDocumentId size) : Prop where
  mandatory : ∀ word ∈ index.mandatoryWords text, ContainsWord abstract id word
  excluded : ∀ word ∈ index.excludedWords text, ¬ ContainsWord abstract id word
  plain : index.mandatoryWords text = [] →
    ∃ word ∈ index.plainWords text, ContainsWord abstract id word

/-- The documents that the query of a search finds. -/
structure Found (abstract : AbstractIndex size) (text : String) (id : IndexedDocumentId size) :
    Prop where
  mandatory : ∀ word ∈ index.mandatoryWords text, ContainsWord abstract id word
  plain : index.plainWords text ≠ [] ∨ [] ∈ index.searchPieces text →
    ∃ word ∈ index.plainWords text, ContainsWord abstract id word
  excluded : index.excludedWords text ≠ [] →
    ∃ word ∈ index.excludedWords text, ¬ ContainsWord abstract id word

def OneExcluded (text : String) : Prop :=
  ∀ first ∈ index.excludedWords text, ∀ second ∈ index.excludedWords text,
    keptTerm first = keptTerm second

/-- The searches that are answered exactly. -/
structure AnsweredExactly (text : String) : Prop where
  /-- A search for nothing is empty or has two spaces in a row, or it is an error. -/
  nothing : index.mandatoryWords text = [] → index.plainWords text = [] →
    [] ∈ index.searchPieces text
  /-- A search for plain words excludes one word at most. -/
  plain : index.mandatoryWords text = [] → index.plainWords text ≠ [] → index.OneExcluded text
  /-- A search for mandatory words has two spaces in a row only if no document can meet it. -/
  spaces : index.mandatoryWords text ≠ [] → [] ∈ index.searchPieces text →
    [] ∈ index.mandatoryWords text ∨ ∃ word ∈ index.mandatoryWords text,
      ∃ other ∈ index.excludedWords text, keptTerm word = keptTerm other
  /-- A search for mandatory words excludes one word at most, or mandatory ones only. -/
  mandatory : index.mandatoryWords text ≠ [] → [] ∉ index.searchPieces text →
    [] ∈ index.mandatoryWords text ∨ index.OneExcluded text ∨
      ∀ other ∈ index.excludedWords text,
        ∃ word ∈ index.mandatoryWords text, keptTerm word = keptTerm other

variable {index} {text : String} {abstract : AbstractIndex size} {id : IndexedDocumentId size}

theorem matchQuery_eq : index.matchQuery text = (MatchParts.ofWords (index.excludedWords text)
    (index.mandatoryWords text) ((index.searchPieces text).filterMap optionalWord)).toQuery := by
  have collected := foldl_addKeyword (index.searchPieces text) [] [] []
  rw [nil_append, nil_append, nil_append] at collected
  exact congrArg toQuery collected

theorem mem_optional_iff :
    word ∈ (index.searchPieces text).filterMap optionalWord ↔
      word ∈ index.plainWords text ∨ word = [] ∧ [] ∈ index.searchPieces text := by
  rw [plainWords, mem_filter, decide_eq_true_eq]
  by_cases isEmpty : word = []
  · subst isEmpty
    simp only [ne_eq, not_true_eq_false, and_false, true_and, false_or, mem_filterMap]
    constructor
    · rintro ⟨piece, isPiece, isWord⟩
      unfold optionalWord at isWord
      split at isWord <;> cases isWord
      exact isPiece
    · intro isPiece
      exact ⟨[], isPiece, rfl⟩
  · simp [isEmpty]

theorem optional_ne_nil_iff : (index.searchPieces text).filterMap optionalWord ≠ [] ↔
    index.plainWords text ≠ [] ∨ [] ∈ index.searchPieces text := by
  constructor
  · intro some
    obtain ⟨word, isIn⟩ := exists_mem_of_ne_nil _ some
    rcases mem_optional_iff.mp isIn with isPlain | ⟨-, isPiece⟩
    · exact .inl (ne_nil_of_mem isPlain)
    · exact .inr isPiece
  · rintro (some | isPiece)
    · obtain ⟨word, isPlain⟩ := exists_mem_of_ne_nil _ some
      exact ne_nil_of_mem (mem_optional_iff.mpr (.inl isPlain))
    · exact ne_nil_of_mem (mem_optional_iff.mpr (.inr ⟨rfl, isPiece⟩))

theorem exists_optional_iff (noEmpty : ¬ ContainsWord abstract id []) :
    (∃ word ∈ (index.searchPieces text).filterMap optionalWord, ContainsWord abstract id word) ↔
      ∃ word ∈ index.plainWords text, ContainsWord abstract id word := by
  constructor
  · rintro ⟨word, isIn, contains⟩
    rcases mem_optional_iff.mp isIn with isPlain | ⟨rfl, -⟩
    · exact ⟨word, isPlain, contains⟩
    · exact absurd contains noEmpty
  · rintro ⟨word, isPlain, contains⟩
    exact ⟨word, mem_optional_iff.mpr (.inl isPlain), contains⟩

theorem mem_matchQuery_iff (made : index.matchQuery text = some query)
    (noEmpty : ¬ ContainsWord abstract id []) :
    id ∈ abstract.evaluate query ↔ index.Found abstract text id := by
  rw [matchQuery_eq] at made
  rw [(mem_toQuery_iff made).2, optional_ne_nil_iff, exists_optional_iff noEmpty]
  exact ⟨fun found => ⟨found.1, found.2.1, found.2.2⟩,
    fun found => ⟨found.mandatory, found.plain, found.excluded⟩⟩

theorem OneExcluded.without (one : index.OneExcluded text) (found : index.Found abstract text id) :
    ∀ word ∈ index.excludedWords text, ¬ ContainsWord abstract id word := by
  intro word isIn
  obtain ⟨other, isOther, absent⟩ := found.excluded (ne_nil_of_mem isIn)
  rwa [containsWord_congr (one word isIn other isOther)]

theorem Found.without (found : index.Found abstract text id)
    (among : ∀ other ∈ index.excludedWords text,
      ∃ word ∈ index.mandatoryWords text, keptTerm word = keptTerm other) :
    ∀ word ∈ index.excludedWords text, ¬ ContainsWord abstract id word := by
  intro word isIn
  obtain ⟨other, isOther, absent⟩ := found.excluded (ne_nil_of_mem isIn)
  obtain ⟨mandatory, isMandatory, same⟩ := among other isOther
  exact absurd ((containsWord_congr same).mp (found.mandatory mandatory isMandatory)) absent

theorem SearchedFor.found (searched : index.SearchedFor abstract text id)
    (plain : index.plainWords text ≠ [] ∨ [] ∈ index.searchPieces text →
      index.mandatoryWords text = []) : index.Found abstract text id := by
  refine ⟨searched.mandatory, fun optional => searched.plain (plain optional), fun some => ?_⟩
  obtain ⟨word, isIn⟩ := exists_mem_of_ne_nil _ some
  exact ⟨word, isIn, searched.excluded word isIn⟩

/-- A search that is answered exactly has a query. -/
theorem AnsweredExactly.exists_matchQuery (exactly : index.AnsweredExactly text) :
    ∃ query, index.matchQuery text = some query := by
  have some : index.mandatoryWords text ≠ [] ∨
      (index.searchPieces text).filterMap optionalWord ≠ [] := by
    rw [optional_ne_nil_iff]
    by_cases mandatory : index.mandatoryWords text = []
    · by_cases plain : index.plainWords text = []
      · exact .inr (.inr (exactly.nothing mandatory plain))
      · exact .inr (.inl plain)
    · exact .inl mandatory
  rw [matchQuery_eq]
  exact exists_toQuery some

theorem AnsweredExactly.sound_mandatory (exactly : index.AnsweredExactly text)
    (mandatory : index.mandatoryWords text ≠ []) (plain : index.plainWords text = [])
    (made : index.matchQuery text = some query) (noEmpty : ¬ ContainsWord abstract id []) :
    id ∈ abstract.evaluate query ↔ index.SearchedFor abstract text id := by
  rw [mem_matchQuery_iff made noEmpty]
  by_cases isEmpty : [] ∈ index.mandatoryWords text
  · exact iff_of_false (fun found => noEmpty (found.mandatory [] isEmpty))
      (fun searched => noEmpty (searched.mandatory [] isEmpty))
  · by_cases gap : [] ∈ index.searchPieces text
    · obtain ⟨word, isIn, other, isOther, same⟩ :=
        (exactly.spaces mandatory gap).resolve_left isEmpty
      constructor
      · intro found
        obtain ⟨word, isPlain, -⟩ := found.plain (.inr gap)
        rw [plain] at isPlain
        cases isPlain
      · intro searched
        have contains := searched.mandatory word isIn
        rw [containsWord_congr same] at contains
        exact absurd contains (searched.excluded other isOther)
    · constructor
      · intro found
        refine ⟨found.mandatory, ?_, fun none => absurd none mandatory⟩
        rcases (exactly.mandatory mandatory gap).resolve_left isEmpty with one | among
        · exact one.without found
        · exact found.without among
      · intro searched
        exact searched.found fun optional =>
          absurd optional (not_or.mpr ⟨not_not_intro plain, gap⟩)

theorem AnsweredExactly.sound (exactly : index.AnsweredExactly text) (uniform : index.Uniform text)
    (made : index.matchQuery text = some query) (noEmpty : ¬ ContainsWord abstract id []) :
    id ∈ abstract.evaluate query ↔ index.SearchedFor abstract text id := by
  by_cases mandatory : index.mandatoryWords text = []
  · rw [mem_matchQuery_iff made noEmpty]
    by_cases plain : index.plainWords text = []
    · have gap := exactly.nothing mandatory plain
      have none : ¬ ∃ word ∈ index.plainWords text, ContainsWord abstract id word := by
        rw [plain]
        simp
      exact iff_of_false (fun found => none (found.plain (.inr gap)))
        (fun searched => none (searched.plain mandatory))
    · constructor
      · intro found
        exact ⟨found.mandatory, (exactly.plain mandatory plain).without found,
          fun _ => found.plain (.inl plain)⟩
      · intro searched
        exact searched.found fun _ => mandatory
  · exact exactly.sound_mandatory mandatory (uniform.resolve_left mandatory) made noEmpty

theorem gap_of_made (made : index.matchQuery text = some query)
    (mandatory : index.mandatoryWords text = []) (plain : index.plainWords text = []) :
    [] ∈ index.searchPieces text := by
  rw [matchQuery_eq] at made
  rcases (@mem_toQuery_iff size (fun _ => ∅) (Vector.replicate _ 0) _ _ _ _ made).1
    with some | some
  · exact absurd mandatory some
  · exact (optional_ne_nil_iff.mp some).resolve_left (not_not_intro plain)

/-- An index in which every document contains the given words. -/
def ofWords (size : RowIdColumnSize) (words : List (List Char)) : AbstractIndex size :=
  fun term => {_document | term ∈ words.map keptTerm}

theorem containsWord_ofWords :
    ContainsWord (ofWords size words) id word ↔ ∃ other ∈ words, keptTerm other = keptTerm word :=
  mem_map

/-- A query finds exactly the documents that a search is for, in every index in which no document
contains the empty word. -/
def FindsExactly (index : InvertedIndex size) (text : String) (query : RawIndexQuery) : Prop :=
  ∀ abstract : AbstractIndex size, (∀ id, ¬ ContainsWord abstract id []) →
    ∀ id, id ∈ abstract.evaluate query ↔ index.SearchedFor abstract text id

theorem containsWord_own (isIn : word ∈ words) : ContainsWord (ofWords size words) id word :=
  containsWord_ofWords.mpr ⟨word, isIn, rfl⟩

theorem exists_apart (several : ¬ index.OneExcluded text) :
    ∃ first ∈ index.excludedWords text, ∃ second ∈ index.excludedWords text,
      first ≠ [] ∧ keptTerm first ≠ keptTerm second := by
  simp only [OneExcluded, not_forall] at several
  obtain ⟨first, isFirst, second, isSecond, apart⟩ := several
  by_cases isEmpty : first = []
  · refine ⟨second, isSecond, first, isFirst, ?_, Ne.symm apart⟩
    rintro rfl
    exact apart (by rw [isEmpty])
  · exact ⟨first, isFirst, second, isSecond, isEmpty, apart⟩

section Complete

variable (made : index.matchQuery text = some query) (exactly : index.FindsExactly text query)
  (id : IndexedDocumentId size)

include made exactly

theorem FindsExactly.found (someWords : [] ∉ words) :
    index.Found (ofWords size words) text id ↔
      index.SearchedFor (ofWords size words) text id := by
  have noEmpty : ∀ id, ¬ ContainsWord (ofWords size words) id [] := by
    intro id contains
    obtain ⟨other, isOther, same⟩ := containsWord_ofWords.mp contains
    rw [eq_nil_of_keptTerm same] at isOther
    exact someWords isOther
  rw [← mem_matchQuery_iff made (noEmpty id)]
  exact exactly _ noEmpty id

theorem FindsExactly.clash (someWords : [] ∉ words)
    (all : ∀ word ∈ index.mandatoryWords text, ContainsWord (ofWords size words) id word)
    (some : index.plainWords text ≠ [] ∨ [] ∈ index.searchPieces text →
      ∃ word ∈ index.plainWords text, ContainsWord (ofWords size words) id word)
    (isFirst : first ∈ index.excludedWords text)
    (contains : ContainsWord (ofWords size words) id first)
    (isSecond : second ∈ index.excludedWords text) :
    ContainsWord (ofWords size words) id second := by
  by_contra absent
  have searched := (exactly.found made id someWords).mp
    ⟨all, some, fun _ => ⟨second, isSecond, absent⟩⟩
  exact searched.excluded first isFirst contains

theorem FindsExactly.oneExcluded (mandatory : index.mandatoryWords text = [])
    (plain : index.plainWords text ≠ []) : index.OneExcluded text := by
  by_contra several
  obtain ⟨first, isFirst, second, isSecond, isWord, apart⟩ := exists_apart several
  obtain ⟨word, isPlain⟩ := exists_mem_of_ne_nil _ plain
  have notEmpty : word ≠ [] := by
    rw [plainWords, mem_filter, decide_eq_true_eq] at isPlain
    exact isPlain.2
  have id : IndexedDocumentId size := Vector.replicate _ 0
  have noMandatory : ∀ words : List (List Char), ∀ word ∈ index.mandatoryWords text,
      ContainsWord (ofWords size words) id word := by
    rw [mandatory]
    exact fun _ => nofun
  by_cases same : keptTerm word = keptTerm second
  · -- The second word is the plain one: a document with it alone is found.
    have contains := exactly.clash made id (by simpa using Ne.symm notEmpty : [] ∉ [word])
      (noMandatory _) (fun _ => ⟨word, isPlain, containsWord_own mem_cons_self⟩) isSecond
      (containsWord_ofWords.mpr ⟨word, mem_cons_self, same⟩) isFirst
    obtain ⟨other, isOther, sameFirst⟩ := containsWord_ofWords.mp contains
    rw [mem_singleton.mp isOther, same] at sameFirst
    exact apart sameFirst.symm
  · have contains := exactly.clash made id
      (by simp [Ne.symm notEmpty, Ne.symm isWord] : [] ∉ [word, first]) (noMandatory _)
      (fun _ => ⟨word, isPlain, containsWord_own mem_cons_self⟩) isFirst
      (containsWord_own (mem_cons_of_mem _ mem_cons_self)) isSecond
    obtain ⟨other, isOther, sameSecond⟩ := containsWord_ofWords.mp contains
    rcases mem_cons.mp isOther with rfl | isOther
    · exact same sameSecond
    · rw [mem_singleton.mp isOther] at sameSecond
      exact apart sameSecond

theorem FindsExactly.excludes_mandatory (mandatory : index.mandatoryWords text ≠ [])
    (plain : index.plainWords text = []) (someMandatory : [] ∉ index.mandatoryWords text)
    (gap : [] ∈ index.searchPieces text) :
    ∃ word ∈ index.mandatoryWords text, ∃ other ∈ index.excludedWords text,
      keptTerm word = keptTerm other := by
  by_contra apart
  have id : IndexedDocumentId size := Vector.replicate _ 0
  have searched : index.SearchedFor (ofWords size (index.mandatoryWords text)) text id := by
    refine ⟨fun word isIn => containsWord_own isIn, fun other isOther contains => ?_,
      fun none => absurd none mandatory⟩
    obtain ⟨word, isIn, same⟩ := containsWord_ofWords.mp contains
    exact apart ⟨word, isIn, other, isOther, same⟩
  have found := (exactly.found made id someMandatory).mpr searched
  obtain ⟨word, isPlain, -⟩ := found.plain (.inr gap)
  rw [plain] at isPlain
  cases isPlain

theorem FindsExactly.excludes_only (plain : index.plainWords text = [])
    (someMandatory : [] ∉ index.mandatoryWords text) (gap : [] ∉ index.searchPieces text)
    (several : ¬ index.OneExcluded text) :
    ∀ other ∈ index.excludedWords text,
      ∃ word ∈ index.mandatoryWords text, keptTerm word = keptTerm other := by
  intro other isOther
  have id : IndexedDocumentId size := Vector.replicate _ 0
  have noOptional : ∀ {goal : Prop},
      index.plainWords text ≠ [] ∨ [] ∈ index.searchPieces text → goal := by
    rintro _ (isPlain | isGap)
    · exact absurd plain isPlain
    · exact absurd isGap gap
  obtain ⟨first, isFirst, second, isSecond, isWord, apart⟩ := exists_apart several
  by_cases among : ∃ excluded ∈ index.excludedWords text,
      ∃ word ∈ index.mandatoryWords text, keptTerm word = keptTerm excluded
  · obtain ⟨excluded, isExcluded, contains⟩ := among
    have contained := exactly.clash made id someMandatory (fun _ isIn => containsWord_own isIn)
      noOptional isExcluded (containsWord_ofWords.mpr contains) isOther
    exact containsWord_ofWords.mp contained
  · -- No mandatory word is excluded: a document with them and the first word is found.
    have someWords : [] ∉ first :: index.mandatoryWords text := by
      rw [mem_cons, not_or]
      exact ⟨Ne.symm isWord, someMandatory⟩
    have contains := exactly.clash made id someWords
      (fun _ isIn => containsWord_own (mem_cons_of_mem _ isIn)) noOptional isFirst
      (containsWord_own mem_cons_self) isSecond
    obtain ⟨word, isIn, same⟩ := containsWord_ofWords.mp contains
    rcases mem_cons.mp isIn with rfl | isIn
    · exact absurd same apart
    · exact absurd ⟨second, isSecond, word, isIn, same⟩ among

theorem FindsExactly.answeredExactly (uniform : index.Uniform text) :
    index.AnsweredExactly text where
  nothing := gap_of_made made
  plain := exactly.oneExcluded made
  spaces mandatory gap := by
    have plain := uniform.resolve_left mandatory
    refine or_iff_not_imp_left.mpr fun someMandatory => ?_
    exact exactly.excludes_mandatory made mandatory plain someMandatory gap
  mandatory mandatory gap := by
    have plain := uniform.resolve_left mandatory
    refine or_iff_not_imp_left.mpr fun someMandatory => ?_
    exact or_iff_not_imp_left.mpr (exactly.excludes_only made plain someMandatory gap)

end Complete

/-- A keyword search in which all words that are not excluded are mandatory or none is has a query
that finds exactly the documents that it is for, if and only if it meets the condition. -/
theorem match_search_exact_iff {E : Type} (index : InvertedIndex size) {columns : List Column}
    (tracked : (columns.all fun column => index.trackedColumns.contains column.name) = true)
    {text : String} (uniform : index.Uniform text) :
    (∃ query, index.parseFilterTree (.kwMatch columns text : IndexableFilterExpr E) =
        some (.filterExpr query) ∧ index.FindsExactly text query) ↔
      index.AnsweredExactly text := by
  have parsed : index.parseFilterTree (.kwMatch columns text : IndexableFilterExpr E) =
      (index.matchQuery text).map .filterExpr := by
    rw [parseFilterTree, if_pos tracked]
  rw [parsed]
  constructor
  · rintro ⟨query, isQuery, exactly⟩
    obtain ⟨found, made, same⟩ := Option.map_eq_some_iff.mp isQuery
    cases same
    exact exactly.answeredExactly made uniform
  · intro exactly
    obtain ⟨query, made⟩ := exactly.exists_matchQuery
    refine ⟨query, by rw [made]; rfl, fun abstract noEmpty id => ?_⟩
    exact exactly.sound uniform made (noEmpty id)

end InvertedIndex

/-! ## Searches for bar and foo -/

/-- Two mandatory words and an excluded one are searched for exactly. -/
theorem match_search_exact_words :
    ∃ query, wordsIndex.parseFilterTree
        (.kwMatch [⟨none, "x"⟩] "+foo +bar -baz" : IndexableLogicalExpr) =
      some (.filterExpr query) ∧ wordsIndex.FindsExactly "+foo +bar -baz" query := by
  have mandatory : wordsIndex.mandatoryWords "+foo +bar -baz" ≠ [] := by decide +kernel
  have single : [] ∉ wordsIndex.searchPieces "+foo +bar -baz" := by decide +kernel
  have one : wordsIndex.OneExcluded "+foo +bar -baz" := by
    unfold InvertedIndex.OneExcluded
    decide +kernel
  refine (InvertedIndex.match_search_exact_iff wordsIndex (by decide +kernel)
    (.inr (by decide +kernel))).mpr ?_
  exact {
    nothing := fun none => absurd none mandatory
    plain := fun none => absurd none mandatory
    spaces := fun _ gap => absurd gap single
    mandatory := fun _ _ => .inr (.inl one) }

/-- A document with bar and foo is not found if two spaces are between these mandatory words, and it
is found by a search for foo that excludes bar and another word. -/
theorem match_search_differs :
    ∃ abstract : AbstractIndex .size4Bytes, ∃ id, (∀ id, ¬ ContainsWord abstract id []) ∧
      (∃ query, wordsIndex.parseFilterTree
          (.kwMatch [⟨none, "x"⟩] "+foo  +bar" : IndexableLogicalExpr) = some (.filterExpr query) ∧
        wordsIndex.Uniform "+foo  +bar" ∧ wordsIndex.SearchedFor abstract "+foo  +bar" id ∧
        id ∉ abstract.evaluate query) ∧
      ∃ query, wordsIndex.parseFilterTree
          (.kwMatch [⟨none, "x"⟩] "foo -bar -baz" : IndexableLogicalExpr) =
            some (.filterExpr query) ∧
        wordsIndex.Uniform "foo -bar -baz" ∧ ¬ wordsIndex.SearchedFor abstract "foo -bar -baz" id ∧
        id ∈ abstract.evaluate query := by
  have noEmpty : ∀ id, ¬ ContainsWord (AbstractIndex.run wordsSource []) id [] := by
    rintro id ⟨terms, listed, isTerm⟩
    cases mem_singleton.mp listed
    exact absurd isTerm (by decide +kernel)
  have hasFoo : ContainsWord (AbstractIndex.run wordsSource []) (SymbolicBlob.document 1)
      ['f', 'o', 'o'] := mem_words (.inr rfl)
  have hasBar : ContainsWord (AbstractIndex.run wordsSource []) (SymbolicBlob.document 1)
      ['b', 'a', 'r'] := mem_words (.inl rfl)
  refine ⟨AbstractIndex.run wordsSource [], SymbolicBlob.document 1, noEmpty,
    ⟨.intersect (.intersect (.term (keywordToTerm "foo")) (.term (keywordToTerm "bar")))
      (.term (keywordToTerm "")), by rfl, .inr (by decide +kernel), ?_, ?_⟩,
    .difference (.term (keywordToTerm "foo"))
      (.intersect (.term (keywordToTerm "bar")) (.term (keywordToTerm "baz"))),
    by rfl, .inl (by decide +kernel), ?_, ?_⟩
  · have words : wordsIndex.mandatoryWords "+foo  +bar" = [['f', 'o', 'o'], ['b', 'a', 'r']] := by
      decide +kernel
    have none : wordsIndex.excludedWords "+foo  +bar" = [] := by decide +kernel
    refine ⟨?_, ?_, ?_⟩
    · rw [words, forall_mem_cons, forall_mem_singleton]
      exact ⟨hasFoo, hasBar⟩
    · rw [none]
      exact nofun
    · rw [words]
      exact nofun
  · rintro ⟨-, isEmpty⟩
    exact noEmpty _ isEmpty
  · intro searched
    have isExcluded : ['b', 'a', 'r'] ∈ wordsIndex.excludedWords "foo -bar -baz" := by
      decide +kernel
    exact searched.excluded _ isExcluded hasBar
  · exact ⟨hasFoo, fun both => not_mem_words both.2⟩

end SecureFusion.Indices
