import SecureFusion.Server.Lexer

/-!
# Texts of scan queries

A scan prints its query and sends the text without its double quotes. Between the
literals of the pushed filters stands what the planner wrote: words, signs and quoted
identifiers. The printer writes a literal between quotes and doubles the quotes in it, the
server also reads backslashes, so that the two agree only on some literals.
-/

namespace SecureFusion.Server

open Library Frontend List

variable {code value : Bytes} {byte : UInt8} {expected more read : Bytes}
  {tokens : List Token}

/-- A literal of a filter, and the text of the query up to the next one. -/
structure FilterLiteral where
  value : Bytes
  following : Bytes
deriving DecidableEq, Repr

def doubleQuotes (value : Bytes) : Bytes :=
  value.flatMap fun byte => if byte = quote then [quote, quote] else [byte]

def printLiteral (value : Bytes) : Bytes :=
  quote :: (doubleQuotes value ++ [quote])

def printQuery (code : Bytes) : List FilterLiteral → Bytes
  | [] => code
  | literal :: literals =>
    code ++ (printLiteral literal.value ++ printQuery literal.following literals)

def plannedTokens (code : Bytes) : List FilterLiteral → List Token
  | [] => (lex code).getD []
  | literal :: literals =>
    (lexer.run .blank code).2 ++ .string literal.value :: plannedTokens literal.following literals

def queryArrow (query : Bytes) : Bytes := query.filter (· ≠ doubleQuote)

/-- What the planner writes around literals: in front of a literal every token has ended, no quote
follows one, and a double quote is part of a token. -/
inductive Planned : Bytes → List FilterLiteral → Prop
  | last {code : Bytes} {tokens : List Token} (complete : lex code = some tokens)
      (quotes : doubleQuote ∈ code → ∃ token ∈ tokens, doubleQuote ∈ token.bytes) :
      Planned code []
  | literal {code value following : Bytes} {literals : List FilterLiteral}
      (complete : (lexer.run .blank code).1 = .blank)
      (quotes : doubleQuote ∈ code →
        ∃ token ∈ (lexer.run .blank code).2, doubleQuote ∈ token.bytes)
      (separate : following.head? ≠ some quote) (apart : literals = [] ∨ following ≠ [])
      (rest : Planned following literals) : Planned code (⟨value, following⟩ :: literals)

/-- The literals that the printer and the server agree on: without double quotes, and with a
backslash only in front of a wildcard of patterns. -/
def readsAsItself : Bytes → Bool
  | [] => true
  | [byte] => byte ≠ doubleQuote && byte ≠ escapeChar
  | byte :: next :: rest =>
    if byte = escapeChar then (next = 0x25 || next = 0x5F) && readsAsItself rest
    else byte ≠ doubleQuote && readsAsItself (next :: rest)

/-! ## Reading a literal -/

theorem serverEscape_wildcard (wildcard : byte = 0x25 ∨ byte = 0x5F) :
    serverEscape byte = [escapeChar, byte] := by
  rcases wildcard with rfl | rfl <;> decide

theorem serverEscape_other (noWildcard : ¬ (byte = 0x25 ∨ byte = 0x5F))
    (noEscape : byte ≠ escapeChar) : ∃ read, read ≠ escapeChar ∧ serverEscape byte = [read] := by
  have all : ∀ byte, ¬ (byte = 0x25 ∨ byte = 0x5F) → byte ≠ escapeChar →
      (serverEscape byte).length = 1 ∧ (serverEscape byte).head? ≠ some escapeChar :=
    forall_byte (by decide +kernel)
  obtain ⟨single, head⟩ := all byte noWildcard noEscape
  obtain ⟨read, isRead⟩ := length_eq_one_iff.mp single
  rw [isRead] at head ⊢
  exact ⟨read, fun same => head (congrArg some same), rfl⟩

@[simp] theorem doubleQuotes_nil : doubleQuotes [] = [] := rfl

theorem doubleQuotes_cons_quote (rest : Bytes) :
    doubleQuotes (quote :: rest) = quote :: quote :: doubleQuotes rest := rfl

theorem doubleQuotes_cons (other : byte ≠ quote) (rest : Bytes) :
    doubleQuotes (byte :: rest) = byte :: doubleQuotes rest := by
  simp [doubleQuotes, other]

theorem output_doubleQuotes_cons (notEscape : byte ≠ escapeChar) (read rest more : Bytes) :
    lexer.output (.quoted quote read) (doubleQuotes (byte :: rest) ++ more) =
      lexer.output (.quoted quote (read ++ [byte])) (doubleQuotes rest ++ more) := by
  by_cases isQuote : byte = quote
  · rw [isQuote, doubleQuotes_cons_quote]
    exact output_quoted_quote _
  · rw [doubleQuotes_cons isQuote]
    exact output_quoted_plain _ isQuote notEscape

theorem output_doubleQuotes (agreed : readsAsItself value = true) (read more : Bytes) :
    lexer.output (.quoted quote read) (doubleQuotes value ++ more) =
      lexer.output (.quoted quote (read ++ value)) more := by
  induction value using readsAsItself.induct generalizing read with
  | case1 => simp
  | case2 byte =>
    have notEscape : byte ≠ escapeChar := by
      simp only [readsAsItself, Bool.and_eq_true, decide_eq_true_eq] at agreed
      exact agreed.2
    exact output_doubleQuotes_cons notEscape read [] more
  | case3 next rest ih =>
    simp only [readsAsItself, if_true, Bool.and_eq_true, Bool.or_eq_true,
      decide_eq_true_eq] at agreed
    obtain ⟨wildcard, later⟩ := agreed
    have notQuote : next ≠ quote := by
      rcases wildcard with rfl | rfl <;> decide
    have printed : doubleQuotes (escapeChar :: next :: rest) =
        escapeChar :: next :: doubleQuotes rest := by
      rw [doubleQuotes_cons (by decide), doubleQuotes_cons notQuote]
    rw [printed, cons_append, cons_append, output_quoted_escape,
      serverEscape_wildcard wildcard, ih later, append_assoc]
    rfl
  | case4 byte next rest notEscape ih =>
    simp only [readsAsItself, notEscape, if_false, Bool.and_eq_true] at agreed
    rw [output_doubleQuotes_cons notEscape, ih agreed.2, append_assoc]
    rfl

/-! ## Literals that are read differently -/

theorem output_ne_of_different {rest input : Bytes} {first other : UInt8}
    (different : first ≠ other) :
    lexer.output (.quoted quote (read ++ first :: rest)) input ≠
      some (.string (read ++ other :: expected) :: tokens) := by
  intro isRead
  have inside : (LexState.quoted quote (read ++ first :: rest)).literal =
      some (read ++ first :: rest) := rfl
  obtain ⟨longer, more, same, grown⟩ := output_literal inside isRead
  injection same with same
  injection same with same
  rw [← same] at grown
  have heads := (prefix_append_right_inj read).mp grown
  exact different (cons_prefix_cons.mp heads).1

theorem output_doubleQuotes_escape (next : UInt8) (read rest more : Bytes) :
    ∃ later, lexer.output (.quoted quote read) (doubleQuotes (escapeChar :: next :: rest) ++ more) =
        lexer.output (.quoted quote (read ++ serverEscape next)) later ∧
      (next ≠ quote → later = doubleQuotes rest ++ more) := by
  rw [doubleQuotes_cons (by decide)]
  by_cases isQuote : next = quote
  · rw [isQuote, doubleQuotes_cons_quote]
    exact ⟨_, output_quoted_escape _, fun other => absurd rfl other⟩
  · rw [doubleQuotes_cons isQuote]
    exact ⟨_, output_quoted_escape _, fun _ => rfl⟩

theorem output_ne_of_escape {next : UInt8} (noWildcard : ¬ (next = 0x25 ∨ next = 0x5F))
    (noEscape : next ≠ escapeChar) {rest : Bytes} :
    lexer.output (.quoted quote read) (doubleQuotes (escapeChar :: next :: rest) ++ more) ≠
      some (.string (read ++ escapeChar :: expected) :: tokens) := by
  obtain ⟨later, isRead, -⟩ := output_doubleQuotes_escape next read rest more
  obtain ⟨byte, different, escape⟩ := serverEscape_other noWildcard noEscape
  rw [isRead, escape]
  exact output_ne_of_different different

theorem output_ne_of_escape_end :
    lexer.output (.quoted quote read) (doubleQuotes [escapeChar] ++ quote :: more) ≠
      some (.string (read ++ escapeChar :: expected) :: tokens) := by
  have isRead : lexer.output (.quoted quote read) (doubleQuotes [escapeChar] ++ quote :: more) =
      lexer.output (.quoted quote (read ++ [quote])) more := output_quoted_escape more
  rw [isRead]
  exact output_ne_of_different (by decide)

theorem output_ne_of_missing (separate : more.head? ≠ some quote) (missing : Nat)
    (read : Bytes) (tokens : List Token) :
    lexer.output (.quoted quote read) (doubleQuotes value ++ quote :: more) ≠
      some (.string (read ++ escapeChar :: (List.replicate missing escapeChar ++ value)) ::
        tokens) := by
  induction value using readsAsItself.induct generalizing read missing with
  | case1 =>
    intro isRead
    rw [doubleQuotes_nil, nil_append, output_quoted_end _ separate] at isRead
    obtain ⟨later, -, same⟩ := Option.map_eq_some_iff.mp isRead
    injection same with same
    injection same with same
    have lengths := congrArg length same
    simp at lengths
  | case2 byte =>
    by_cases isEscape : byte = escapeChar
    · rw [isEscape]
      exact output_ne_of_escape_end
    · rw [output_doubleQuotes_cons isEscape]
      exact output_ne_of_different isEscape
  | case3 next rest ih =>
    by_cases again : next = escapeChar
    · obtain ⟨later, isRead, isLater⟩ :=
        output_doubleQuotes_escape next read rest (quote :: more)
      rw [isRead, isLater (by rw [again]; decide), again]
      -- the pair is read as one backslash, so that one more is missing
      have shifted : ∀ later, replicate missing escapeChar ++ escapeChar :: later =
          escapeChar :: (replicate missing escapeChar ++ later) := by
        intro later
        rw [append_cons, ← replicate_succ', replicate_succ, cons_append]
      have pair : replicate missing escapeChar ++ escapeChar :: escapeChar :: rest =
          escapeChar :: (replicate (missing + 1) escapeChar ++ rest) := by
        rw [shifted, shifted, replicate_succ, cons_append]
      rw [pair, append_cons read escapeChar]
      exact ih (missing + 1) _
    · by_cases wildcard : next = 0x25 ∨ next = 0x5F
      · obtain ⟨later, isRead, -⟩ := output_doubleQuotes_escape next read rest (quote :: more)
        rw [isRead, serverEscape_wildcard wildcard]
        have second : ∃ others, read ++ escapeChar :: (replicate missing escapeChar ++
            escapeChar :: next :: rest) = (read ++ [escapeChar]) ++ escapeChar :: others := by
          cases missing with
          | zero => exact ⟨next :: rest, by simp⟩
          | succ missing =>
            exact ⟨replicate missing escapeChar ++ escapeChar :: next :: rest, by
              simp [replicate_succ]⟩
        obtain ⟨others, isSecond⟩ := second
        rw [isSecond, append_cons read escapeChar [next]]
        exact output_ne_of_different again
      · exact output_ne_of_escape wildcard again
  | case4 byte next rest notEscape ih =>
    rw [output_doubleQuotes_cons notEscape]
    exact output_ne_of_different notEscape

theorem readsAsItself_of_output (separate : more.head? ≠ some quote) (absent : doubleQuote ∉ value)
    (isRead : lexer.output (.quoted quote read) (doubleQuotes value ++ quote :: more) =
      some (.string (read ++ value) :: tokens)) : readsAsItself value = true := by
  induction value using readsAsItself.induct generalizing read with
  | case1 => rfl
  | case2 byte =>
    have notDouble : byte ≠ doubleQuote := fun same => absent (same ▸ mem_cons_self)
    have notEscape : byte ≠ escapeChar := by
      rintro rfl
      exact output_ne_of_escape_end isRead
    simp [readsAsItself, notDouble, notEscape]
  | case3 next rest ih =>
    have later : doubleQuote ∉ rest := fun member =>
      absent (mem_cons_of_mem _ (mem_cons_of_mem _ member))
    have wildcard : next = 0x25 ∨ next = 0x5F := by
      by_contra noWildcard
      by_cases again : next = escapeChar
      · obtain ⟨_, same, isLater⟩ := output_doubleQuotes_escape next read rest (quote :: more)
        rw [same, isLater (by rw [again]; decide), again] at isRead
        rw [append_cons read escapeChar (escapeChar :: rest)] at isRead
        exact output_ne_of_missing separate 0 _ _ isRead
      · exact output_ne_of_escape noWildcard again isRead
    obtain ⟨_, same, isLater⟩ := output_doubleQuotes_escape next read rest (quote :: more)
    have notQuote : next ≠ quote := by
      rcases wildcard with rfl | rfl <;> decide
    rw [same, isLater notQuote, serverEscape_wildcard wildcard] at isRead
    have regrouped : read ++ escapeChar :: next :: rest = read ++ [escapeChar, next] ++ rest := by
      simp
    rw [regrouped] at isRead
    have agreed := ih later isRead
    simp [readsAsItself, wildcard, agreed]
  | case4 byte next rest notEscape ih =>
    rw [mem_cons, not_or] at absent
    rw [output_doubleQuotes_cons notEscape, append_cons read byte (next :: rest)] at isRead
    have agreed := ih absent.2 isRead
    simp [readsAsItself, notEscape, Ne.symm absent.1, agreed]

/-! ## Whole queries -/

variable {literals : List FilterLiteral}

theorem head_printQuery {following : Bytes} (separate : following.head? ≠ some quote)
    (apart : literals = [] ∨ following ≠ []) :
    (printQuery following literals).head? ≠ some quote := by
  cases literals with
  | nil => exact separate
  | cons literal literals =>
    cases following with
    | nil => rcases apart with none | some <;> contradiction
    | cons first following => exact separate

theorem lex_printQuery_cons (complete : (lexer.run .blank code).1 = .blank)
    (literal : FilterLiteral) (literals : List FilterLiteral) :
    lex (printQuery code (literal :: literals)) =
      (lexer.output (.quoted quote []) (doubleQuotes literal.value ++
        quote :: printQuery literal.following literals)).map ((lexer.run .blank code).2 ++ ·) := by
  have opened : ∀ text, lexer.output .blank (quote :: text) = lexer.output (.quoted quote []) text :=
    fun _ => rfl
  rw [lex, Transducer.tokens, printQuery, lexer.output_append]
  change Option.map _ (lexer.output (lexer.run .blank code).1 _) = _
  rw [complete, printLiteral, cons_append, opened, append_assoc]
  rfl

theorem lex_printQuery_iff (planned : Planned code literals)
    (absent : ∀ literal ∈ literals, doubleQuote ∉ literal.value) :
    lex (printQuery code literals) = some (plannedTokens code literals) ↔
      ∀ literal ∈ literals, readsAsItself literal.value = true := by
  induction planned with
  | last complete => simp [printQuery, plannedTokens, complete]
  | @literal code value following literals complete quotes separate apart rest ih =>
    have here := absent _ mem_cons_self
    have later := ih (forall_mem_cons.mp absent).2
    have head := head_printQuery separate apart
    have reads : lexer.output (.quoted quote [])
        (doubleQuotes value ++ quote :: printQuery following literals) =
          some (.string value :: plannedTokens following literals) ↔
        readsAsItself value = true ∧
          lex (printQuery following literals) = some (plannedTokens following literals) := by
      have continued : readsAsItself value = true →
          lexer.output (.quoted quote [])
            (doubleQuotes value ++ quote :: printQuery following literals) =
          (lex (printQuery following literals)).map (.string value :: ·) := by
        intro agreed
        rw [output_doubleQuotes agreed, output_quoted_end _ head]
        rfl
      constructor
      · intro isRead
        have agreed := readsAsItself_of_output head here isRead
        rw [continued agreed, Option.map_eq_some_iff] at isRead
        obtain ⟨tokens, isTokens, same⟩ := isRead
        injection same with _ same
        exact ⟨agreed, same ▸ isTokens⟩
      · rintro ⟨agreed, isTokens⟩
        rw [continued agreed, isTokens]
        rfl
    rw [lex_printQuery_cons complete, plannedTokens, Option.map_eq_some_iff]
    simp only [append_cancel_left_eq, exists_eq_right, forall_mem_cons]
    rw [reads, later]

theorem doubleQuote_mem_printQuery :
    doubleQuote ∈ printQuery code literals ↔ doubleQuote ∈ code ∨
      ∃ literal ∈ literals, doubleQuote ∈ literal.value ∨ doubleQuote ∈ literal.following := by
  have doubled : ∀ value, doubleQuote ∈ doubleQuotes value ↔ doubleQuote ∈ value := by
    intro value
    rw [doubleQuotes, mem_flatMap]
    constructor
    · rintro ⟨byte, member, isIn⟩
      split_ifs at isIn with isQuote
      · exact absurd isIn (by decide)
      · exact mem_singleton.mp isIn ▸ member
    · exact fun member => ⟨doubleQuote, member, by decide⟩
  have literal : ∀ value, doubleQuote ∈ printLiteral value ↔ doubleQuote ∈ value := by
    intro value
    have other : doubleQuote ≠ quote := by decide
    simp [printLiteral, doubled, other]
  induction literals generalizing code with
  | nil => simp [printQuery]
  | cons first literals ih =>
    simp only [printQuery, mem_append, literal, ih, exists_mem_cons_iff, or_assoc]

theorem doubleQuote_mem_plannedTokens (planned : Planned code literals)
    (present : doubleQuote ∈ printQuery code literals) :
    ∃ token ∈ plannedTokens code literals, doubleQuote ∈ token.bytes := by
  rw [doubleQuote_mem_printQuery] at present
  induction planned with
  | last complete quotes =>
    simp only [not_mem_nil, false_and, exists_false, or_false] at present
    simpa [plannedTokens, complete] using quotes present
  | @literal code value following literals complete quotes separate apart rest ih =>
    have inCode : doubleQuote ∈ code →
        ∃ token ∈ (lexer.run .blank code).2, doubleQuote ∈ token.bytes := quotes
    simp only [plannedTokens, mem_append, mem_cons]
    rcases present with here | ⟨literal, member, inLiteral⟩
    · obtain ⟨token, isToken, inToken⟩ := inCode here
      exact ⟨token, .inl isToken, inToken⟩
    · rcases mem_cons.mp member with rfl | isLater
      · rcases inLiteral with inValue | inFollowing
        · exact ⟨.string value, .inr (.inl rfl), inValue⟩
        · obtain ⟨token, isToken, inToken⟩ := ih (.inl inFollowing)
          exact ⟨token, .inr (.inr isToken), inToken⟩
      · obtain ⟨token, isToken, inToken⟩ := ih (.inr ⟨literal, isLater, inLiteral⟩)
        exact ⟨token, .inr (.inr isToken), inToken⟩

theorem doubleQuote_notMem_of_readsAsItself (agreed : readsAsItself value = true) :
    doubleQuote ∉ value := by
  induction value using readsAsItself.induct with
  | case1 => exact not_mem_nil
  | case2 byte =>
    simp only [readsAsItself, Bool.and_eq_true, decide_eq_true_eq] at agreed
    simpa using Ne.symm agreed.1
  | case3 next rest ih =>
    simp only [readsAsItself, if_true, Bool.and_eq_true, Bool.or_eq_true,
      decide_eq_true_eq] at agreed
    have first : doubleQuote ≠ escapeChar := by decide
    have second : doubleQuote ≠ next := by
      rcases agreed.1 with rfl | rfl <;> decide
    simp [first, second, ih agreed.2]
  | case4 byte next rest notEscape ih =>
    simp only [readsAsItself, notEscape, if_false, Bool.and_eq_true, decide_eq_true_eq] at agreed
    rw [mem_cons, not_or]
    exact ⟨Ne.symm agreed.1, ih agreed.2⟩

theorem queryArrow_eq_self {query : Bytes} (absent : doubleQuote ∉ query) :
    queryArrow query = query := by
  rw [queryArrow, filter_eq_self]
  intro byte member
  have other : byte ≠ doubleQuote := fun same => absent (same ▸ member)
  exact decide_eq_true other

/-- The text that a scan sends has the planned tokens exactly when the printer and the server agree
on every literal and no identifier has a double quote. -/
theorem queryArrow_tokens_iff {code : Bytes} {literals : List FilterLiteral}
    (planned : Planned code literals) :
    lex (queryArrow (printQuery code literals)) = some (plannedTokens code literals) ↔
      doubleQuote ∉ code ∧ ∀ literal ∈ literals,
        readsAsItself literal.value = true ∧ doubleQuote ∉ literal.following := by
  constructor
  · intro sent
    have absent : doubleQuote ∉ printQuery code literals := by
      intro present
      obtain ⟨token, isToken, inToken⟩ := doubleQuote_mem_plannedTokens planned present
      have removed : doubleQuote ∉ queryArrow (printQuery code literals) := by
        simp [queryArrow]
      exact lex_avoids sent removed token isToken inToken
    rw [queryArrow_eq_self absent] at sent
    rw [doubleQuote_mem_printQuery, not_or, not_exists] at absent
    have inValue : ∀ literal ∈ literals, doubleQuote ∉ literal.value :=
      fun literal member isIn => absent.2 literal ⟨member, .inl isIn⟩
    have agreed := (lex_printQuery_iff planned inValue).mp sent
    exact ⟨absent.1, fun literal member =>
      ⟨agreed literal member, fun isIn => absent.2 literal ⟨member, .inr isIn⟩⟩⟩
  · rintro ⟨inCode, each⟩
    have inValue : ∀ literal ∈ literals, doubleQuote ∉ literal.value :=
      fun literal member => doubleQuote_notMem_of_readsAsItself (each literal member).1
    have absent : doubleQuote ∉ printQuery code literals := by
      rw [doubleQuote_mem_printQuery]
      rintro (here | ⟨literal, member, inLiteral | inFollowing⟩)
      · exact inCode here
      · exact inValue literal member inLiteral
      · exact (each literal member).2 inFollowing
    rw [queryArrow_eq_self absent, lex_printQuery_iff planned inValue]
    exact fun literal member => (each literal member).1

/-- The text in front of the first filter of a scan of a table. -/
def selectCode : Bytes := utf8Bytes "SELECT id FROM app.notes WHERE title = "

def titleAndBody (title body : String) : List FilterLiteral :=
  [⟨utf8Bytes title, utf8Bytes " AND body = "⟩, ⟨utf8Bytes body, []⟩]

theorem planned_titleAndBody (title body : String) : Planned selectCode (titleAndBody title body) :=
  .literal (by decide +kernel) (by decide +kernel) (by decide +kernel) (.inr (by decide +kernel))
    (.literal (by decide +kernel) (by decide +kernel) (by decide +kernel) (.inl rfl)
      (.last rfl (by decide)))

/-- A scan for two texts, one of them with a quote. -/
theorem queryArrow_tokens_quote :
    lex (queryArrow (printQuery selectCode (titleAndBody "it's" "50\\%"))) =
      some (plannedTokens selectCode (titleAndBody "it's" "50\\%")) :=
  (queryArrow_tokens_iff (planned_titleAndBody "it's" "50\\%")).mpr (by decide +kernel)

/-- A double quote disappears from a literal, and a backslash at the end of one turns the text of
the next one into a part of the statement. -/
theorem queryArrow_tokens_changed :
    Planned selectCode (titleAndBody "a\"b" "c") ∧
    lex (queryArrow (printQuery selectCode (titleAndBody "a\"b" "c"))) =
      some (plannedTokens selectCode (titleAndBody "ab" "c")) ∧
    Planned selectCode (titleAndBody "\\" " OR 1 -- ") ∧
    lex (queryArrow (printQuery selectCode (titleAndBody "\\" " OR 1 -- "))) =
      some ((lexer.run .blank selectCode).2 ++ [.string (utf8Bytes "' AND body = "),
        .word (utf8Bytes "OR"), .word (utf8Bytes "1")]) :=
  ⟨planned_titleAndBody _ _, by decide +kernel, planned_titleAndBody _ _, by decide +kernel⟩

end SecureFusion.Server
