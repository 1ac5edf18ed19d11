import SecureFusion.Server.Lexer

/-!
# Statements that write rows

The part of the server's grammar that the sinks use: an INSERT with assignments, an
UPDATE and a DELETE with equations as their condition, all with placeholders for the values.
A word is a name unless the server reserves it or reads it as a number; after a period
every word is a name.
-/

namespace SecureFusion.Server

open Library Frontend List Option

variable {bytes : Bytes} {reserved : Bytes → Bool} {text : String}

/-- A statement that writes rows, with a placeholder for each column it names. -/
inductive WriteStatement where
  | insert (schema table : Bytes) (columns onDuplicate : List Bytes)
  | update (schema table : Bytes) (assigned conditions : List Bytes)
  | delete (schema table : Bytes) (conditions : List Bytes)
deriving DecidableEq, Repr

def lowerByte (byte : UInt8) : UInt8 := if 0x41 ≤ byte && byte ≤ 0x5A then byte + 0x20 else byte

def isKeyword (keyword : String) : Token → Bool
  | .word bytes => bytes.map lowerByte = utf8Bytes keyword
  | _ => false

def isDigitByte (byte : UInt8) : Bool := 0x30 ≤ byte && byte ≤ 0x39

def isNumberWord (word : Bytes) : Bool :=
  word.all isDigitByte ||
  (match word with
    | 0x30 :: 0x78 :: digits => digits ≠ [] && digits.all fun byte =>
        isDigitByte byte || (0x61 ≤ lowerByte byte && lowerByte byte ≤ 0x66)
    | 0x30 :: 0x62 :: digits => digits ≠ [] && digits.all fun byte => byte = 0x30 || byte = 0x31
    | _ => false) ||
  (match word.dropWhile isDigitByte with
    | exponent :: digits => (word.head?.any isDigitByte) && lowerByte exponent = 0x65 &&
        digits ≠ [] && digits.all isDigitByte
    | [] => false)

def isWord (bytes : Bytes) : Bool := bytes ≠ [] && bytes.all isWordByte

variable {statement : WriteStatement}

section Grammar

variable (reserved : Bytes → Bool)

/-- Whether a name can stand in a statement without quotes. -/
def isUnquotedName (bytes : Bytes) : Bool :=
  isWord bytes && !isNumberWord bytes && !reserved (bytes.map lowerByte)

def parseName : Token → Option Bytes
  | .word bytes => if isUnquotedName reserved bytes then some bytes else none
  | .quotedIdentifier bytes => some bytes
  | _ => none

def parseLastName : Token → Option Bytes
  | .word bytes => some bytes
  | .quotedIdentifier bytes => some bytes
  | _ => none

/-- Reads a qualified table name. -/
def parseTable : List Token → Option (Bytes × Bytes × List Token)
  | schema :: .symbol 0x2E :: table :: rest =>
    (parseName reserved schema).bind fun schema =>
      (parseLastName table).map fun table => (schema, table, rest)
  | _ => none

/-- Columns that are equated with placeholders, and what follows them. -/
def parseBindings (separator : Token → Bool) :
    List Token → Option (List Bytes × List Token)
  | name :: .symbol 0x3D :: .symbol 0x3F :: rest =>
    (parseName reserved name).bind fun column =>
      match rest with
      | next :: later =>
        if separator next then
          (parseBindings separator later).map fun parsed => (column :: parsed.1, parsed.2)
        else some ([column], next :: later)
      | [] => some ([column], [])
  | _ => none

def isComma (token : Token) : Bool := token = .symbol 0x2C

def afterKeyword (keyword : String) : List Token → Option (List Token)
  | token :: rest => if isKeyword keyword token then some rest else none
  | [] => none

def afterKeywords : List String → List Token → Option (List Token)
  | [], tokens => some tokens
  | keyword :: keywords, tokens => (afterKeyword keyword tokens).bind (afterKeywords keywords)

def parseLastBindings (separator : Token → Bool) (tokens : List Token) :
    Option (List Bytes) := do
  let (columns, rest) ← parseBindings reserved separator tokens
  if rest = [] then some columns else none

/-- Reads an INSERT statement. -/
def parseInsert (tokens : List Token) : Option WriteStatement := do
  let rest ← afterKeywords ["insert", "into"] tokens
  let (schema, table, rest) ← parseTable reserved rest
  let rest ← afterKeyword "set" rest
  let (columns, rest) ← parseBindings reserved isComma rest
  if rest = [] then some (.insert schema table columns [])
  else do
    let rest ← afterKeywords ["on", "duplicate", "key", "update"] rest
    let onDuplicate ← parseLastBindings reserved isComma rest
    some (.insert schema table columns onDuplicate)

/-- Reads an UPDATE statement. -/
def parseUpdate (tokens : List Token) : Option WriteStatement := do
  let rest ← afterKeyword "update" tokens
  let (schema, table, rest) ← parseTable reserved rest
  let rest ← afterKeyword "set" rest
  let (assigned, rest) ← parseBindings reserved isComma rest
  let rest ← afterKeyword "where" rest
  let conditions ← parseLastBindings reserved (isKeyword "and") rest
  some (.update schema table assigned conditions)

/-- Reads a DELETE statement. -/
def parseDelete (tokens : List Token) : Option WriteStatement := do
  let rest ← afterKeywords ["delete", "from"] tokens
  let (schema, table, rest) ← parseTable reserved rest
  let rest ← afterKeyword "where" rest
  let conditions ← parseLastBindings reserved (isKeyword "and") rest
  some (.delete schema table conditions)

/-- Reads a statement that writes. -/
def parseWrite (text : String) : Option WriteStatement := do
  let tokens ← lex (utf8Bytes text)
  (parseInsert reserved tokens).or ((parseUpdate reserved tokens).or (parseDelete reserved tokens))

/-! ## Parsing what was printed -/

variable {reserved} {separator : Token → Bool} {keyword word : String} {between : Token}

theorem isWord_of_isUnquotedName (unquoted : isUnquotedName reserved bytes = true) :
    isWord bytes = true := by
  simp only [isUnquotedName, Bool.and_eq_true] at unquoted
  exact unquoted.1.1

theorem parseName_word (unquoted : isUnquotedName reserved bytes = true) :
    parseName reserved (.word bytes) = some bytes := by
  rw [parseName, if_pos unquoted]

theorem parseTable_words {schema : Bytes} (unquoted : isUnquotedName reserved schema = true)
    (table : Bytes) (rest : List Token) :
    parseTable reserved (.word schema :: .symbol 0x2E :: .word table :: rest) =
      some (schema, table, rest) := by
  rw [parseTable, parseName_word unquoted]
  rfl

/-- The tokens of a column that is equated with a placeholder. -/
def bindingTokens (column : Bytes) : List Token :=
  [.word column, .symbol 0x3D, .symbol 0x3F]

theorem parseBindings_words (separates : separator between = true) {rest : List Token}
    (ends : ∀ next, rest.head? = some next → separator next = false) :
    ∀ {columns : List Bytes}, columns ≠ [] →
      (∀ column ∈ columns, isUnquotedName reserved column = true) →
      parseBindings reserved separator
          ([between].intercalate (columns.map bindingTokens) ++ rest) =
        some (columns, rest)
  | [column], _, unquoted => by
    have name := parseName_word (unquoted column mem_cons_self)
    simp only [map_cons, map_nil, intercalate_singleton, bindingTokens,
      cons_append, nil_append, parseBindings, name, bind_some]
    cases rest with
    | nil => rfl
    | cons next later => simp [ends next rfl]
  | column :: another :: columns, _, unquoted => by
    have name := parseName_word (unquoted column mem_cons_self)
    have later := parseBindings_words separates ends (cons_ne_nil another columns)
      (forall_mem_cons.mp unquoted).2
    rw [map_cons] at later
    simp only [map_cons, intercalate_cons_cons, bindingTokens, cons_append,
      nil_append, parseBindings, name, bind_some, separates, if_true]
    rw [bindingTokens] at later
    rw [later]
    rfl

theorem parseLastBindings_words (separates : separator between = true) {columns : List Bytes}
    (some : columns ≠ []) (unquoted : ∀ column ∈ columns, isUnquotedName reserved column = true) :
    parseLastBindings reserved separator ([between].intercalate (columns.map bindingTokens)) =
      .some columns := by
  have parsed := @parseBindings_words reserved separator between separates []
    (fun _ none => by cases none) columns some unquoted
  rw [append_nil] at parsed
  simp [parseLastBindings, parsed]

def keywordToken (keyword : String) : Token := .word (utf8Bytes keyword)

def tableTokens (schema table : Bytes) : List Token :=
  [.word schema, .symbol 0x2E, .word table]

def assignmentTokens (columns : List Bytes) : List Token :=
  [Token.symbol 0x2C].intercalate (columns.map bindingTokens)

def conditionTokens (columns : List Bytes) : List Token :=
  [keywordToken "AND"].intercalate (columns.map bindingTokens)

def WriteStatement.tokens : WriteStatement → List Token
  | .insert schema table columns onDuplicate =>
    [keywordToken "INSERT", keywordToken "INTO"] ++ tableTokens schema table ++
      [keywordToken "SET"] ++ assignmentTokens columns ++
      if onDuplicate = [] then []
      else [keywordToken "ON", keywordToken "DUPLICATE", keywordToken "KEY",
        keywordToken "UPDATE"] ++ assignmentTokens onDuplicate
  | .update schema table assigned conditions =>
    [keywordToken "UPDATE"] ++ tableTokens schema table ++ [keywordToken "SET"] ++
      assignmentTokens assigned ++ [keywordToken "WHERE"] ++ conditionTokens conditions
  | .delete schema table conditions =>
    [keywordToken "DELETE", keywordToken "FROM"] ++ tableTokens schema table ++
      [keywordToken "WHERE"] ++ conditionTokens conditions

def WriteStatement.schema : WriteStatement → Bytes
  | .insert schema .. | .update schema .. | .delete schema .. => schema

/-- The columns of a statement in the order of their placeholders. -/
def WriteStatement.columns : WriteStatement → List Bytes
  | .insert _ _ columns onDuplicate => columns ++ onDuplicate
  | .update _ _ assigned conditions => assigned ++ conditions
  | .delete _ _ conditions => conditions

def WriteStatement.required : WriteStatement → List (List Bytes)
  | .insert _ _ columns _ => [columns]
  | .update _ _ assigned conditions => [assigned, conditions]
  | .delete _ _ conditions => [conditions]

theorem afterKeyword_token (same : isKeyword keyword (keywordToken word) = true)
    (rest : List Token) :
    afterKeyword keyword (keywordToken word :: rest) = some rest := by
  rw [afterKeyword, if_pos same]

theorem afterKeyword_other (other : isKeyword keyword (keywordToken word) = false)
    (rest : List Token) :
    afterKeyword keyword (keywordToken word :: rest) = none := by
  rw [afterKeyword, if_neg (by simp [other])]

/-- Every keyword is read as it is written. -/
theorem afterKeyword_keywords (rest : List Token) :
    afterKeyword "insert" (keywordToken "INSERT" :: rest) = some rest ∧
    afterKeyword "into" (keywordToken "INTO" :: rest) = some rest ∧
    afterKeyword "set" (keywordToken "SET" :: rest) = some rest ∧
    afterKeyword "on" (keywordToken "ON" :: rest) = some rest ∧
    afterKeyword "duplicate" (keywordToken "DUPLICATE" :: rest) = some rest ∧
    afterKeyword "key" (keywordToken "KEY" :: rest) = some rest ∧
    afterKeyword "update" (keywordToken "UPDATE" :: rest) = some rest ∧
    afterKeyword "where" (keywordToken "WHERE" :: rest) = some rest ∧
    afterKeyword "delete" (keywordToken "DELETE" :: rest) = some rest ∧
    afterKeyword "from" (keywordToken "FROM" :: rest) = some rest := by
  refine ⟨?_, ?_, ?_, ?_, ?_, ?_, ?_, ?_, ?_, ?_⟩
  all_goals exact afterKeyword_token (by decide +kernel) rest

section Parsing

variable {schema table : Bytes} (unquotedSchema : isUnquotedName reserved schema = true)

include unquotedSchema

theorem parseInsert_tokens {columns onDuplicate : List Bytes} (some : columns ≠ [])
    (unquoted : ∀ column ∈ columns, isUnquotedName reserved column = true)
    (unquotedDuplicate : ∀ column ∈ onDuplicate, isUnquotedName reserved column = true) :
    parseInsert reserved (WriteStatement.insert schema table columns onDuplicate).tokens =
      .some (.insert schema table columns onDuplicate) := by
  have comma : isComma (.symbol 0x2C) = true := by decide
  have first : ∀ rest : List Token, (∀ next, rest.head? = Option.some next → isComma next = false) →
      parseBindings reserved isComma (assignmentTokens columns ++ rest) =
        Option.some (columns, rest) :=
    fun rest ends => parseBindings_words comma ends some unquoted
  simp only [parseInsert, WriteStatement.tokens, tableTokens, cons_append, nil_append,
    afterKeywords, afterKeyword_keywords,
    parseTable_words unquotedSchema, bind_some, bind_eq_bind]
  by_cases none : onDuplicate = []
  · rw [if_pos none, first [] (fun _ absent => by cases absent)]
    simp [none]
  · have last := parseLastBindings_words comma none unquotedDuplicate
    rw [if_neg none, first _ (fun next isFirst => by
      cases isFirst
      decide +kernel)]
    simp only [bind_some, cons_ne_nil, if_false, afterKeyword_keywords]
    rw [assignmentTokens, last]
    rfl

theorem parseUpdate_tokens {assigned conditions : List Bytes} (some : assigned ≠ [])
    (someConditions : conditions ≠ [])
    (unquoted : ∀ column ∈ assigned, isUnquotedName reserved column = true)
    (unquotedConditions : ∀ column ∈ conditions, isUnquotedName reserved column = true) :
    parseUpdate reserved (WriteStatement.update schema table assigned conditions).tokens =
      .some (.update schema table assigned conditions) := by
  have comma : isComma (.symbol 0x2C) = true := by decide
  have and : isKeyword "and" (keywordToken "AND") = true := by decide +kernel
  have first := @parseBindings_words reserved isComma (.symbol 0x2C) comma
    (keywordToken "WHERE" :: conditionTokens conditions) (fun next isFirst => by
      cases isFirst
      decide +kernel) assigned some unquoted
  have last := parseLastBindings_words and someConditions unquotedConditions
  simp only [parseUpdate, WriteStatement.tokens, tableTokens, cons_append, nil_append,
    append_assoc, afterKeyword_keywords,
    parseTable_words unquotedSchema, bind_some, bind_eq_bind]
  rw [assignmentTokens, first]
  simp only [bind_some, afterKeyword_keywords]
  rw [conditionTokens, last]
  rfl

theorem parseDelete_tokens {conditions : List Bytes} (some : conditions ≠ [])
    (unquoted : ∀ column ∈ conditions, isUnquotedName reserved column = true) :
    parseDelete reserved (WriteStatement.delete schema table conditions).tokens =
      .some (.delete schema table conditions) := by
  have and : isKeyword "and" (keywordToken "AND") = true := by decide +kernel
  have last := parseLastBindings_words and some unquoted
  simp only [parseDelete, WriteStatement.tokens, tableTokens, cons_append, nil_append,
    afterKeywords, afterKeyword_keywords, parseTable_words unquotedSchema, bind_some, bind_eq_bind]
  rw [conditionTokens, last]
  rfl

end Parsing

theorem parse_verb (statement : WriteStatement) :
    (parseInsert reserved statement.tokens).or ((parseUpdate reserved statement.tokens).or
        (parseDelete reserved statement.tokens)) =
      match statement with
      | .insert .. => parseInsert reserved statement.tokens
      | .update .. => parseUpdate reserved statement.tokens
      | .delete .. => parseDelete reserved statement.tokens := by
  have notInsert : ∀ {word : String} {rest : List Token},
      isKeyword "insert" (keywordToken word) = false →
      parseInsert reserved (keywordToken word :: rest) = none := by
    intro word rest other
    simp only [parseInsert, afterKeywords, afterKeyword_other other, bind_none, bind_eq_bind]
  have notUpdate : ∀ {word : String} {rest : List Token},
      isKeyword "update" (keywordToken word) = false →
      parseUpdate reserved (keywordToken word :: rest) = none := by
    intro word rest other
    simp only [parseUpdate, afterKeyword_other other, bind_none, bind_eq_bind]
  have notDelete : ∀ {word : String} {rest : List Token},
      isKeyword "delete" (keywordToken word) = false →
      parseDelete reserved (keywordToken word :: rest) = none := by
    intro word rest other
    simp only [parseDelete, afterKeywords, afterKeyword_other other, bind_none, bind_eq_bind]
  cases statement with
  | insert schema table columns onDuplicate =>
    simp only [WriteStatement.tokens, cons_append]
    rw [notUpdate (by decide +kernel), notDelete (by decide +kernel), or_none, or_none]
  | update schema table assigned conditions =>
    simp only [WriteStatement.tokens, cons_append]
    rw [notInsert (by decide +kernel), notDelete (by decide +kernel), or_none, none_or]
  | delete schema table conditions =>
    simp only [WriteStatement.tokens, cons_append]
    rw [notInsert (by decide +kernel), notUpdate (by decide +kernel), none_or, none_or]

theorem parse_tokens (unquotedSchema : isUnquotedName reserved statement.schema = true)
    (unquoted : ∀ column ∈ statement.columns, isUnquotedName reserved column = true)
    (complete : ∀ clause ∈ statement.required, clause ≠ []) :
    (parseInsert reserved statement.tokens).or ((parseUpdate reserved statement.tokens).or
      (parseDelete reserved statement.tokens)) = some statement := by
  rw [parse_verb]
  cases statement with
  | insert schema table columns onDuplicate =>
    have named := forall_mem_append.mp unquoted
    exact parseInsert_tokens unquotedSchema (complete _ mem_cons_self) named.1 named.2
  | update schema table assigned conditions =>
    have named := forall_mem_append.mp unquoted
    exact parseUpdate_tokens unquotedSchema (complete _ mem_cons_self)
      (complete _ (mem_cons_of_mem _ mem_cons_self)) named.1 named.2
  | delete schema table conditions =>
    exact parseDelete_tokens unquotedSchema (complete _ mem_cons_self) unquoted

theorem parse_tokens_empty (unquotedSchema : isUnquotedName reserved statement.schema = true)
    (empty : statement.required.head? = some []) :
    (parseInsert reserved statement.tokens).or ((parseUpdate reserved statement.tokens).or
      (parseDelete reserved statement.tokens)) = none := by
  rw [parse_verb]
  cases statement with
  | insert schema table columns onDuplicate =>
    cases empty
    have plain : isUnquotedName reserved schema = true := unquotedSchema
    simp only [parseInsert, WriteStatement.tokens, tableTokens, cons_append, nil_append,
      afterKeywords, afterKeyword_keywords,
      parseTable_words plain, bind_some, bind_eq_bind]
    split_ifs <;> rfl
  | update schema table assigned conditions =>
    cases empty
    have plain : isUnquotedName reserved schema = true := unquotedSchema
    simp only [parseUpdate, WriteStatement.tokens, tableTokens, cons_append, nil_append,
      append_assoc, afterKeyword_keywords,
      parseTable_words plain, bind_some, bind_eq_bind]
    rcases conditions with _ | ⟨_, _ | ⟨_, _⟩⟩ <;> rfl
  | delete schema table conditions =>
    cases empty
    have plain : isUnquotedName reserved schema = true := unquotedSchema
    simp only [parseDelete, WriteStatement.tokens, tableTokens, cons_append, nil_append,
      afterKeywords, afterKeyword_keywords, parseTable_words plain, bind_some, bind_eq_bind]
    rfl

end Grammar

/-! ## Texts that are read token by token -/

/-- A text that is read as some tokens, whatever follows it. -/
def Reads (text : Bytes) (tokens : List Token) : Prop :=
  ∀ rest, lexer.output .blank (text ++ rest) = (lexer.output .blank rest).map (tokens ++ ·)

namespace Reads

theorem nil : Reads [] [] := fun rest => by simp

theorem append {first second : Bytes} {firstTokens secondTokens : List Token}
    (readsFirst : Reads first firstTokens) (readsSecond : Reads second secondTokens) :
    Reads (first ++ second) (firstTokens ++ secondTokens) := by
  intro rest
  rw [append_assoc, readsFirst, readsSecond, Option.map_map]
  congr 1
  funext tokens
  simp

variable {tokens : List Token} {text : Bytes}

theorem of_run (ended : lexer.run .blank text = (.blank, tokens)) : Reads text tokens := by
  intro rest
  rw [lexer.output_append, ended]

theorem intercalate {α : Type} {separator : Bytes} {between : List Token}
    (readsBetween : Reads separator between) {text : α → Bytes} {tokens : α → List Token} :
    ∀ {items : List α}, (∀ item ∈ items, Reads (text item) (tokens item)) →
      Reads (separator.intercalate (items.map text)) (between.intercalate (items.map tokens))
  | [], _ => nil
  | [item], reads => by
    simpa using reads item mem_cons_self
  | item :: another :: items, reads => by
    have first := reads item mem_cons_self
    have later := intercalate readsBetween (forall_mem_cons.mp reads).2
    simp only [map_cons, intercalate_cons_cons] at later ⊢
    exact (first.append readsBetween).append later

theorem run_word (word : bytes.all isWordByte = true) (read : Bytes) :
    lexer.run (.word read) bytes = (.word (read ++ bytes), []) := by
  induction bytes generalizing read with
  | nil => simp
  | cons byte bytes ih =>
    rw [all_cons, Bool.and_eq_true] at word
    have step : lexer.step (.word read) byte = (.word (read ++ [byte]), []) := by
      change lexStep (.word read) byte = _
      rw [lexStep, if_pos word.1]
    rw [Transducer.run_cons, step, ih word.2]
    simp

theorem startToken_word {byte : UInt8} (isIn : isWordByte byte = true) :
    startToken byte = (.word [byte], []) := by
  have all : ∀ byte, isWordByte byte = true → startToken byte = (.word [byte], []) :=
    forall_byte (by decide +kernel)
  exact all byte isIn

theorem word_append {after : Bytes} (word : isWord bytes = true)
    (readsAfter : Reads after tokens) {first : UInt8} (head : after.head? = some first)
    (ends : isWordByte first = false) : Reads (bytes ++ after) (.word bytes :: tokens) := by
  intro rest
  simp only [isWord, Bool.and_eq_true, decide_eq_true_eq] at word
  have collected : lexer.run .blank bytes = (.word bytes, []) := by
    cases bytes with
    | nil => exact absurd rfl word.1
    | cons byte bytes =>
      have all := word.2
      rw [all_cons, Bool.and_eq_true] at all
      have step : lexer.step .blank byte = (.word [byte], []) := startToken_word all.1
      rw [Transducer.run_cons, step, run_word all.2]
      rfl
  obtain ⟨later, rfl⟩ : ∃ later, after = first :: later := head?_eq_some_iff.mp head
  have ended : lexStep (.word bytes) first = startAfter [.word bytes] first := by
    rw [lexStep, if_neg (by simp [ends])]
  have reads : lexer.output .blank (first :: (later ++ rest)) =
      (lexer.output .blank rest).map (tokens ++ ·) := readsAfter rest
  rw [append_assoc, lexer.output_append, collected, cons_append,
    output_after_token ended, reads, Option.map_map, Option.map_map]
  rfl

theorem lex_eq (reads : Reads text tokens) : lex text = some tokens := by
  have whole := reads []
  rw [append_nil] at whole
  exact whole.trans (by simp [Transducer.output, lexer, lexFinish])

end Reads

theorem parseWrite_of_reads (reads : Reads (utf8Bytes text) statement.tokens)
    (unquotedSchema : isUnquotedName reserved statement.schema = true)
    (unquoted : ∀ column ∈ statement.columns, isUnquotedName reserved column = true)
    (complete : ∀ clause ∈ statement.required, clause ≠ []) :
    parseWrite reserved text = some statement := by
  rw [parseWrite, reads.lex_eq]
  exact parse_tokens unquotedSchema unquoted complete

theorem parseWrite_of_reads_empty (reads : Reads (utf8Bytes text) statement.tokens)
    (unquotedSchema : isUnquotedName reserved statement.schema = true)
    (empty : statement.required.head? = some []) : parseWrite reserved text = none := by
  rw [parseWrite, reads.lex_eq]
  exact parse_tokens_empty unquotedSchema empty

end SecureFusion.Server
