import SecureFusion.Frontend.LiteralItems

/-!
# Queries as texts and literals

The server reads a query as texts and literals. Against this reading stands the
extraction of the literals with invalid bytes. It agrees exactly if, in every such
literal, no quote is before the first invalid byte, no quote is written twice, no
wildcard is escaped and the last sign is not an escaped backslash.
-/

namespace SecureFusion.Frontend

open Library List LiteralItem Scan

variable (res : Bytes) (params : List Bytes) {more : List Bytes}
  {start : Bytes}

/-! ## Literals in a query -/

/-- A literal with the text after it. -/
structure LiteralPart where
  items : List LiteralItem
  text : Bytes
  validText : isUtf8 text = true
  /-- A quote after a literal would continue it. -/
  noQuoteAfter : text.head? ≠ some quote

namespace LiteralPart

variable (part : LiteralPart)

def content : Bytes := part.items.flatMap LiteralItem.bytes

def bytes : Bytes := quote :: (part.content ++ quote :: part.text)

def hasInvalid : Bool := !isUtf8 part.content

def value : Bytes := part.items.flatMap LiteralItem.value

/-- What is left of a literal in the text. -/
def expectedText : Bytes := if part.hasInvalid then placeholder :: part.text else part.bytes

/-- The parameter that a literal becomes. -/
def expectedParams : List Bytes := if part.hasInvalid then [part.value] else []

/-- The extraction finds the literal and reads it as the server does. -/
structure Readable : Prop where
  /-- No quote is before the first invalid byte. -/
  startFound : quote ∉ validStart part.content
  /-- No quote is doubled and no wildcard is escaped. -/
  wellRead : ∀ item ∈ part.items, item.isMisread = false
  /-- The last sign is not an escaped backslash. -/
  endFound : part.items.getLast? ≠ some (.escape escapeChar)

def marks : List MarkedByte :=
  (quote, true) :: (mark part.content ++ (quote, true) :: part.text.map (·, true))

/-- A literal at its first invalid byte. -/
structure Opening where
  first : List LiteralItem
  rest : List LiteralItem
  byte : UInt8
  after : List MarkedByte
  items_eq : part.items = first ++ rest
  marks_eq : mark part.content = (validStart part.content).map (·, true) ++ (byte, false) :: after
  notAscii : ¬ byte < 0x80
  first_bytes : first.flatMap LiteralItem.bytes = validStart part.content ++ [byte]
  rest_bytes : after.map Prod.fst = rest.flatMap LiteralItem.bytes
  ascii : AsciiValid after

variable {part} {marks : List MarkedByte} {items : List LiteralItem} {text param : Bytes}
  {tail : List MarkedByte} (opening : part.Opening)

theorem exists_opening (invalid : part.hasInvalid = true) : Nonempty part.Opening := by
  have notUtf8 : isUtf8 part.content = false := by simpa [hasInvalid] using invalid
  obtain ⟨byte, after, marks_eq⟩ := exists_first_invalid notUtf8
  have notAscii : ¬ byte < 0x80 := by
    intro ascii
    have isIn : (byte, false) ∈ mark part.content := by
      rw [marks_eq]
      simp
    have := valid_of_ascii isIn ascii
    cases this
  have bytes : part.content = validStart part.content ++ byte :: after.map Prod.fst := by
    have fromMarks := map_fst_mark part.content
    rw [marks_eq, map_append, map_map, map_cons] at fromMarks
    simpa [Function.comp_def] using fromMarks.symm
  obtain ⟨first, rest, items_eq, first_bytes, rest_bytes⟩ := exists_items_until notAscii bytes
  refine ⟨first, rest, byte, after, items_eq, marks_eq, notAscii, first_bytes, rest_bytes.symm, ?_⟩
  intro marked isIn
  have isMark : marked ∈ mark part.content := by
    rw [marks_eq]
    exact mem_append_right _ (mem_cons_of_mem _ isIn)
  exact valid_of_ascii isMark

theorem Opening.marks_append (more : List MarkedByte) :
    (quote, true) :: (mark part.content ++ more) =
      (quote :: validStart part.content).map (·, true) ++
        (opening.byte, false) :: (opening.after ++ more) := by
  rw [opening.marks_eq]
  simp

theorem Opening.run (startFound : quote ∉ validStart part.content) (pending : Bytes)
    (more : List MarkedByte) :
    Scan.run ⟨res, params, .outside pending⟩ ((quote, true) :: (mark part.content ++ more)) =
      Scan.run ⟨res ++ pending ++ [placeholder], params,
        .inside ⟨opening.first.flatMap LiteralItem.collected, false⟩ false⟩
        (opening.after ++ more) := by
  have split := splitLastQuote_append pending startFound
  have collected : (AutoEscapeVec.empty.extendUnescape (validStart part.content)).push
      opening.byte = ⟨opening.first.flatMap collected, false⟩ := by
    have all := extendUnescape_items opening.first []
    rw [opening.first_bytes, AutoEscapeVec.extendUnescape_append] at all
    exact all
  rw [opening.marks_append, run_until_invalid res params split, collected]

theorem Opening.getLast?_first : opening.first.getLast? ≠ some (.escape escapeChar) := by
  intro last
  obtain ⟨front, isLast⟩ := List.getLast?_eq_some_iff.mp last
  have bytes := opening.first_bytes
  rw [isLast, List.flatMap_append] at bytes
  have sameLast := congrArg List.getLast? bytes
  simp only [List.flatMap_cons, List.flatMap_nil, LiteralItem.bytes, List.append_nil,
    List.getLast?_append, List.getLast?_cons_cons, List.getLast?_singleton, Option.some_or,
    Option.some.injEq] at sameLast
  exact opening.notAscii (sameLast ▸ escapeChar_ascii)

theorem Opening.endsEscaped_rest :
    endsEscaped opening.rest false = false ↔ part.items.getLast? ≠ some (.escape escapeChar) := by
  rw [opening.items_eq, getLast?_append, endsEscaped]
  cases last : opening.rest.getLast? with
  | none => simp [opening.getLast?_first]
  | some item => simp

theorem run_valid (valid : part.hasInvalid = false) (pending : Bytes) :
    Scan.run ⟨res, params, .outside pending⟩ part.marks =
      .ok ⟨res, params, .outside (pending ++ part.bytes)⟩ := by
  have isValid : isUtf8 part.content = true := by simpa [hasInvalid] using valid
  have marks : part.marks = part.bytes.map (·, true) := by
    rw [LiteralPart.marks, mark_of_isUtf8 isValid, bytes]
    simp
  rw [marks, run_outside]

theorem run_wellRead (wellRead : ∀ item ∈ items, item.isMisread = false)
    (ofItems : marks.map Prod.fst = items.flatMap LiteralItem.bytes) (ascii : AsciiValid marks)
    (inner : Bytes) :
    Scan.run ⟨res, params, .inside ⟨inner, false⟩ false⟩ marks =
      .ok ⟨res, params, .inside ⟨inner ++ items.flatMap LiteralItem.value, false⟩
        (endsEscaped items false)⟩ := by
  have single : .doubledQuote ∉ items := fun isIn =>
    ne_doubledQuote (wellRead _ isIn) rfl
  rw [run_items res params single ofItems ascii, flatMap_collected wellRead]

theorem run_readable (invalid : part.hasInvalid = true) (readable : part.Readable)
    (pending : Bytes) :
    Scan.run ⟨res, params, .outside pending⟩ part.marks =
      .ok ⟨res ++ pending ++ [placeholder], params ++ [part.value], .outside part.text⟩ := by
  obtain ⟨opening⟩ := exists_opening invalid
  have wellRead := readable.wellRead
  rw [opening.items_eq, forall_mem_append] at wellRead
  have inside := run_wellRead (res ++ pending ++ [placeholder]) params wellRead.2
    opening.rest_bytes opening.ascii (opening.first.flatMap collected)
  have value : opening.first.flatMap collected ++
      opening.rest.flatMap LiteralItem.value = part.value := by
    rw [LiteralItem.flatMap_collected wellRead.1, ← List.flatMap_append, ← opening.items_eq,
      LiteralPart.value]
  rw [marks, opening.run res params readable.startFound, run_append_of_ok inside, value,
    opening.endsEscaped_rest.mpr readable.endFound, run_cons]
  exact run_outside (res ++ pending ++ [placeholder]) (params ++ [part.value]) [] part.text

theorem wellRead_of_isPrefix {more : Bytes} (single : .doubledQuote ∉ items)
    (isStart : items.flatMap LiteralItem.collected <+:
      items.flatMap LiteralItem.value ++ more) :
    ∀ item ∈ items, item.isMisread = false := by
  induction items with
  | nil => simp
  | cons item items ih =>
    rw [mem_cons, not_or] at single
    rw [flatMap_cons, flatMap_cons, append_assoc] at isStart
    have here : item.isMisread = false := by
      rw [isMisread, decide_eq_false (Ne.symm single.1), Bool.false_or]
      by_contra wildcard
      obtain ⟨byte, notEscape, -, -, -, collected, value⟩ :=
        exists_of_isWildcard (Bool.not_eq_false _ ▸ wildcard)
      rw [collected, value] at isStart
      exact notEscape (cons_prefix_cons.mp isStart).1
    rw [collected_eq_value here, prefix_append_right_inj] at isStart
    exact forall_mem_cons.mpr ⟨here, ih single.2 isStart⟩

theorem isPrefix_of_inside {vec : AutoEscapeVec} {afterEscape : Bool}
    (read : Scan.run ⟨res, params, .inside vec afterEscape⟩ marks >>= Scan.finish =
      .ok (text, params ++ param :: more)) : vec.inner <+: param := by
  obtain ⟨-, other, others, atEnd, kept⟩ := goesOn_of_run read
  have same := append_cancel_left atEnd
  injection same with same
  rwa [same]

theorem eq_of_closed {closed pending : Bytes}
    (read : Scan.run ⟨res, params ++ [closed], .outside pending⟩ marks >>= Scan.finish =
      .ok (text, params ++ param :: more)) : closed = param := by
  obtain ⟨-, others, atEnd⟩ := goesOn_of_run read
  rw [append_assoc] at atEnd
  have same := append_cancel_left atEnd
  injection same

/-- A doubled quote closes the parameter too early, or leaves the closing quote of the literal in
the text. -/
theorem not_doubledQuote_of_result (ofItems : marks.map Prod.fst = items.flatMap LiteralItem.bytes)
    {inner text : Bytes} (escaped : Bool)
    (read : Scan.run ⟨res, params, .inside ⟨inner, false⟩ escaped⟩
        ((quote, true) :: (quote, true) :: (marks ++ (quote, true) :: tail)) >>= Scan.finish =
      .ok (text, params ++ (inner ++ quote :: items.flatMap LiteralItem.value) :: more))
    (noQuoteLeft : ∀ params result,
      Scan.run ⟨res, params, .outside [quote]⟩ tail >>= Scan.finish = .ok result →
        result.1 ≠ text) : False := by
  rw [run_cons] at read
  cases escaped with
  | false =>
    have lengths := congrArg length (eq_of_closed res params read)
    simp at lengths
  | true =>
    change run ⟨res, params, .inside (AutoEscapeVec.push ⟨inner, false⟩ quote) false⟩
      ((quote, true) :: (marks ++ (quote, true) :: tail)) >>= Scan.finish = _ at read
    rw [AutoEscapeVec.push_plain _ quote_ne_escapeChar, run_cons] at read
    change Scan.run ⟨res, params ++ [inner ++ [quote]], .outside []⟩
      (marks ++ (quote, true) :: tail) >>= Scan.finish = _ at read
    have lengths := congrArg length (eq_of_closed res params read)
    have noItems : items = [] := by
      cases items with
      | nil => rfl
      | cons item items =>
        have some := length_pos_iff.mpr item.value_ne_nil
        simp only [length_append, length_cons, length_nil, flatMap_cons] at lengths
        omega
    rw [noItems, flatMap_nil, map_eq_nil_iff] at ofItems
    rw [ofItems, nil_append, run_cons] at read
    exact noQuoteLeft _ _ read rfl

theorem wellRead_of_result (ofItems : marks.map Prod.fst = items.flatMap LiteralItem.bytes)
    (ascii : AsciiValid marks) {inner text : Bytes}
    (read : Scan.run ⟨res, params, .inside ⟨inner, false⟩ false⟩
        (marks ++ (quote, true) :: tail) >>= Scan.finish =
      .ok (text, params ++ (inner ++ items.flatMap LiteralItem.value) :: more))
    (noQuoteLeft : ∀ params result,
      Scan.run ⟨res, params, .outside [quote]⟩ tail >>= Scan.finish = .ok result →
        result.1 ≠ text) :
    (∀ item ∈ items, item.isMisread = false) ∧ endsEscaped items false = false := by
  cases found : items.find? isMisread with
  | none =>
    have wellRead : ∀ item ∈ items, item.isMisread = false := by
      simpa using find?_eq_none.mp found
    refine ⟨wellRead, ?_⟩
    rw [run_append_of_ok (run_wellRead res params wellRead ofItems ascii inner), run_cons] at read
    by_contra escaped
    -- The closing quote is collected, so the parameter is too long.
    rw [Bool.not_eq_false] at escaped
    rw [escaped] at read
    have tooLong := isPrefix_of_inside res params read
    rw [AutoEscapeVec.push_plain _ quote_ne_escapeChar] at tooLong
    have lengths := tooLong.length_le
    simp only [length_append, length_singleton] at lengths
    omega
  | some bad =>
    obtain ⟨isMisread, good, later, rfl, wellRead⟩ := find?_eq_some_iff_append.mp found
    have wellRead : ∀ item ∈ good, item.isMisread = false := by simpa using wellRead
    rw [flatMap_append, flatMap_cons] at ofItems
    obtain ⟨marksGood, marksRest, rfl, ofGood, ofRest⟩ := map_eq_append_iff.mp ofItems
    obtain ⟨marksBad, marksLater, rfl, ofBad, ofLater⟩ := map_eq_append_iff.mp ofRest
    have asciiGood : AsciiValid marksGood := fun marked isIn => ascii marked (by simp [isIn])
    have asciiBad : AsciiValid marksBad := fun marked isIn => ascii marked (by simp [isIn])
    rw [append_assoc, append_assoc,
      run_append_of_ok (run_wellRead res params wellRead ofGood asciiGood inner),
      flatMap_append, flatMap_cons] at read
    exfalso
    rw [LiteralItem.isMisread, Bool.or_eq_true, decide_eq_true_eq] at isMisread
    rcases isMisread with rfl | wildcard
    · -- The quotes of the doubled quote are both valid.
      have bothQuotes : marksBad = [(quote, true), (quote, true)] := by
        obtain ⟨⟨first, flag⟩, others, rfl, rfl, ofOthers⟩ := map_eq_cons_iff.mp ofBad
        obtain ⟨⟨second, flag'⟩, rfl, rfl⟩ := map_eq_singleton_iff.mp ofOthers
        have isValid := asciiBad _ mem_cons_self quote_ascii
        have isValid' := asciiBad _ (mem_cons_of_mem _ mem_cons_self) quote_ascii
        dsimp only at isValid isValid'
        rw [isValid, isValid']
      rw [bothQuotes, ← append_assoc inner] at read
      exact not_doubledQuote_of_result res params ofLater _ read noQuoteLeft
    · -- The wildcard is collected without its escape character.
      obtain ⟨byte, notEscape, -, -, isEscape, collected, value⟩ :=
        exists_of_isWildcard wildcard
      have one := run_item res params (by rw [isEscape]; simp) ofBad asciiBad
        (inner ++ good.flatMap LiteralItem.value) (endsEscaped good false)
      rw [Scan.run_append_of_ok one] at read
      have differs := isPrefix_of_inside res params read
      rw [collected, value, append_assoc, prefix_append_right_inj,
        prefix_append_right_inj] at differs
      exact notEscape (cons_prefix_cons.mp differs).1

theorem readable_of_result (invalid : part.hasInvalid = true) {pending text : Bytes}
    (read : Scan.run ⟨res, params, .outside pending⟩ (part.marks ++ tail) >>= Scan.finish =
      .ok (res ++ pending ++ placeholder :: text, params ++ part.value :: more))
    (noQuoteLeft : ∀ params result,
      Scan.run ⟨res ++ pending ++ [placeholder], params, .outside [quote]⟩
          (part.text.map (·, true) ++ tail) >>= Scan.finish = .ok result →
        result.1 ≠ res ++ pending ++ placeholder :: text) :
    part.Readable := by
  obtain ⟨opening⟩ := exists_opening invalid
  rw [marks, cons_append, append_assoc] at read
  have startFound : quote ∉ validStart part.content := by
    intro hasQuote
    -- The literal is taken to start later, and its opening quote stays in the text.
    obtain ⟨before, after, split, noQuote⟩ := exists_last_quote hasQuote
    have atLast : splitLastQuote (pending ++ quote :: validStart part.content) =
        some (pending ++ quote :: before, after) := by
      rw [split]
      exact (congrArg splitLastQuote (by simp)).trans
        (splitLastQuote_append (pending ++ quote :: before) noQuote)
    rw [opening.marks_append, run_until_invalid res params atLast] at read
    have kept := (goesOn_of_run read).1
    dsimp only at kept
    rw [append_assoc, append_assoc, append_assoc, prefix_append_right_inj,
      prefix_append_right_inj] at kept
    exact absurd (cons_prefix_cons.mp kept).1 (by decide)
  have firstBytes := opening.first_bytes
  have single : .doubledQuote ∉ opening.first := by
    intro isIn
    have isByte : quote ∈ opening.first.flatMap LiteralItem.bytes :=
      List.mem_flatMap.mpr ⟨_, isIn, by simp [LiteralItem.bytes]⟩
    rw [firstBytes, mem_append, mem_singleton] at isByte
    rcases isByte with isIn | isLast
    · exact startFound isIn
    · exact opening.notAscii (isLast ▸ quote_ascii)
  have value : part.value = opening.first.flatMap LiteralItem.value ++
      opening.rest.flatMap LiteralItem.value := by
    rw [LiteralPart.value, opening.items_eq, List.flatMap_append]
  rw [opening.run res params startFound, value] at read
  have firstWellRead := wellRead_of_isPrefix single (isPrefix_of_inside _ _ read)
  rw [flatMap_collected firstWellRead] at read
  have restRead := wellRead_of_result _ _ opening.rest_bytes opening.ascii read noQuoteLeft
  refine ⟨startFound, ?_, opening.endsEscaped_rest.mp restRead.2⟩
  rw [opening.items_eq]
  exact forall_mem_append.mpr ⟨firstWellRead, restRead.1⟩

end LiteralPart

open LiteralPart

/-! ## Queries -/

/-- A query as the server reads it: a text, and literals each with the text after it. -/
structure QueryText where
  start : Bytes
  parts : List LiteralPart
  validStart : isUtf8 start = true
  /-- Two literals are separated by a text. -/
  separated : parts.IsChain fun part _ => part.text ≠ []

namespace QueryText

variable (query : QueryText)

def bytes : Bytes := query.start ++ query.parts.flatMap LiteralPart.bytes

/-- The text in which the literals with invalid bytes are replaced. -/
def expectedText : Bytes := query.start ++ query.parts.flatMap LiteralPart.expectedText

/-- The literals with invalid bytes as the server reads them. -/
def expectedParams : List Bytes := query.parts.flatMap LiteralPart.expectedParams

/-- The text and the parameters that the extraction should give; no parameters if nothing is
invalid. -/
def expected : Bytes × Option (List Bytes) :=
  (query.expectedText,
    if query.parts.any LiteralPart.hasInvalid then some query.expectedParams else none)

end QueryText

theorem mark_parts (validStart : isUtf8 start = true) (parts : List LiteralPart) :
    mark (start ++ parts.flatMap LiteralPart.bytes) =
      start.map (·, true) ++ parts.flatMap LiteralPart.marks := by
  induction parts generalizing start with
  | nil =>
    rw [flatMap_nil, append_nil, mark_of_isUtf8 validStart]
    simp
  | cons part parts ih =>
    rw [flatMap_cons, LiteralPart.bytes, cons_append, mark_append_ascii quote_ascii,
      mark_of_isUtf8 validStart, append_assoc, cons_append,
      mark_append_ascii quote_ascii, ih part.validText, flatMap_cons, marks]
    simp

theorem isUtf8_parts (validStart : isUtf8 start = true) (parts : List LiteralPart) :
    isUtf8 (start ++ parts.flatMap LiteralPart.bytes) = !parts.any LiteralPart.hasInvalid := by
  rw [isUtf8, mark_parts validStart]
  induction parts generalizing start with
  | nil => simp
  | cons part parts ih =>
    have here : part.marks.all (·.2) = !part.hasInvalid := by
      rw [marks, hasInvalid, Bool.not_not, isUtf8]
      simp
    have later := ih validStart
    rw [all_append] at later ⊢
    rw [flatMap_cons, all_append, here, any_cons, Bool.not_or]
    rw [← Bool.and_assoc, Bool.and_comm _ (!part.hasInvalid), Bool.and_assoc, later]

variable {parts : List LiteralPart}

theorem run_parts (readable : ∀ part ∈ parts, part.hasInvalid = true → part.Readable)
    (pending : Bytes) :
    Scan.run ⟨res, params, .outside pending⟩ (parts.flatMap LiteralPart.marks) >>= Scan.finish =
      .ok (res ++ pending ++ parts.flatMap LiteralPart.expectedText,
        params ++ parts.flatMap LiteralPart.expectedParams) := by
  induction parts generalizing res params pending with
  | nil => simp [finish, bind, Except.bind]
  | cons part parts ih =>
    have later := (forall_mem_cons.mp readable).2
    rw [flatMap_cons, flatMap_cons, flatMap_cons, expectedText,
      expectedParams]
    cases invalid : part.hasInvalid with
    | false =>
      rw [run_append_of_ok (run_valid res params invalid pending),
        ih _ _ later, if_neg (by decide), if_neg (by decide)]
      simp
    | true =>
      rw [run_append_of_ok (run_readable res params invalid
        (readable part mem_cons_self invalid) pending), ih _ _ later, if_pos rfl, if_pos rfl]
      simp

theorem quote_kept {pending : Bytes} {result : Bytes × List Bytes}
    (read : Scan.run ⟨res, params, .outside (quote :: pending)⟩
      (parts.flatMap LiteralPart.marks) >>= Scan.finish = .ok result) :
    res ++ [quote] <+: result.1 := by
  induction parts generalizing pending with
  | nil =>
    cases read
    exact ⟨pending, by simp⟩
  | cons part parts ih =>
    rw [flatMap_cons] at read
    cases invalid : part.hasInvalid with
    | false =>
      rw [run_append_of_ok (run_valid res params invalid _)] at read
      exact ih read
    | true =>
      obtain ⟨opening⟩ := exists_opening invalid
      have hasQuote : quote ∈ pending ++ quote :: validStart part.content := by simp
      obtain ⟨before, after, split, noQuote⟩ := exists_last_quote hasQuote
      have atLast : splitLastQuote ((quote :: pending) ++ quote :: validStart part.content) =
          some (quote :: before, after) := by
        rw [cons_append, split]
        exact splitLastQuote_append (quote :: before) noQuote
      rw [marks, cons_append, append_assoc, opening.marks_append,
        run_until_invalid res params atLast] at read
      have kept := (goesOn_of_run read).1
      refine List.IsPrefix.trans ?_ kept
      exact ⟨before ++ [placeholder], by simp⟩

theorem readable_of_parts (separated : parts.IsChain fun part _ => part.text ≠ [])
    {pending : Bytes}
    (read : Scan.run ⟨res, params, .outside pending⟩ (parts.flatMap LiteralPart.marks) >>=
        Scan.finish =
      .ok (res ++ pending ++ parts.flatMap LiteralPart.expectedText,
        params ++ parts.flatMap LiteralPart.expectedParams)) :
    ∀ part ∈ parts, part.hasInvalid = true → part.Readable := by
  induction parts generalizing res params pending with
  | nil => simp
  | cons part parts ih =>
    rw [flatMap_cons, flatMap_cons, flatMap_cons, expectedText,
      expectedParams] at read
    cases invalid : part.hasInvalid with
    | false =>
      rw [run_append_of_ok (run_valid res params invalid pending), invalid,
        if_neg (by decide), if_neg (by decide), nil_append, ← append_assoc] at read
      rw [append_assoc res] at read
      exact forall_mem_cons.mpr
        ⟨fun here => (Bool.false_ne_true (invalid.symm.trans here)).elim,
          ih _ _ separated.tail read⟩
    | true =>
      rw [invalid, if_pos rfl, if_pos rfl, cons_append, singleton_append] at read
      have here : part.Readable := by
        refine readable_of_result res params invalid read ?_
        intro params' result readLeft same
        have outside := run_outside (res ++ pending ++ [placeholder]) params' [quote] part.text
        rw [run_append_of_ok outside] at readLeft
        have kept := quote_kept _ _ readLeft
        rw [same, append_assoc, prefix_append_right_inj, singleton_append, cons_prefix_cons] at kept
        -- After the literal there is a text without a quote at its start, or nothing.
        cases text : part.text with
        | nil =>
          cases separated with
          | singleton =>
            rw [text] at kept
            cases kept.2.length_le
          | cons_cons notEmpty => exact notEmpty text
        | cons byte bytes =>
          rw [text, cons_append] at kept
          refine part.noQuoteAfter ?_
          rw [text, head?_cons, (cons_prefix_cons.mp kept.2).1]
      rw [run_append_of_ok (run_readable res params invalid here pending),
        show res ++ pending ++ placeholder :: (part.text ++ parts.flatMap expectedText)
          = (res ++ pending ++ [placeholder]) ++ part.text ++
            parts.flatMap expectedText by simp,
        show params ++ part.value :: parts.flatMap expectedParams =
          (params ++ [part.value]) ++ parts.flatMap expectedParams by simp] at read
      exact forall_mem_cons.mpr ⟨fun _ => here, ih _ _ separated.tail read⟩

/-- The extraction replaces exactly the literals with invalid bytes, and gives their bytes as
parameters, if and only if these literals are readable. -/
theorem extractInvalidBytes_iff (query : QueryText) :
    extractInvalidBytes query.bytes = .ok query.expected ↔
      ∀ part ∈ query.parts, part.hasInvalid = true → part.Readable := by
  have valid := isUtf8_parts query.validStart query.parts
  rw [QueryText.bytes, QueryText.expected, QueryText.expectedText, QueryText.expectedParams]
  cases any : query.parts.any hasInvalid with
  | false =>
    rw [any, Bool.not_false] at valid
    have noInvalid : ∀ part ∈ query.parts, part.hasInvalid = false := by simpa using any
    have kept : query.parts.flatMap expectedText =
        query.parts.flatMap LiteralPart.bytes := by
      refine flatMap_congr fun part isIn => ?_
      rw [expectedText, noInvalid part isIn, if_neg (by decide)]
    rw [extractInvalidBytes_of_isUtf8 valid, kept]
    exact iff_of_true rfl fun part isIn invalid =>
      (Bool.false_ne_true ((noInvalid part isIn).symm.trans invalid)).elim
  | true =>
    rw [any, Bool.not_true] at valid
    rw [extractInvalidBytes_of_invalid valid, mark_parts query.validStart, init,
      run_append_of_ok (run_outside [] [] [] query.start), if_pos rfl, nil_append]
    constructor
    · intro extracted
      refine @readable_of_parts [] [] query.parts query.separated query.start ?_
      cases read : run ⟨[], [], .outside query.start⟩
          (query.parts.flatMap marks) >>= finish with
      | error =>
        rw [read] at extracted
        cases extracted
      | ok result =>
        rw [read] at extracted
        simp only [Except.map, Except.ok.injEq, Prod.mk.injEq, Option.some.injEq] at extracted
        rw [nil_append, nil_append, ← extracted.1, ← extracted.2]
    · intro readable
      rw [run_parts [] [] readable]
      rfl

def oneLiteral (items : List LiteralItem) : QueryText where
  start := [0x3D]
  parts := [⟨items, [], by decide, by decide⟩]
  validStart := by decide
  separated := .singleton _

def invalidByte : LiteralItem := .plain 0xFF (by decide)

/-- A quote after the invalid byte that is doubled ends the parameter; a quote before it, doubled
or escaped, starts it; an escaped backslash keeps it open, and an escaped wildcard loses its
backslash. -/
theorem extractInvalidBytes_misreads :
    extractInvalidBytes (oneLiteral [invalidByte, .doubledQuote]).bytes =
        .ok ([0x3D, placeholder, quote, quote], some [[0xFF]]) ∧
      (oneLiteral [invalidByte, .doubledQuote]).expected =
        ([0x3D, placeholder], some [[0xFF, quote]]) ∧
      extractInvalidBytes (oneLiteral [.escape quote, invalidByte]).bytes =
        .ok ([0x3D, quote, escapeChar, placeholder], some [[0xFF]]) ∧
      (oneLiteral [.escape quote, invalidByte]).expected =
        ([0x3D, placeholder], some [[quote, 0xFF]]) ∧
      extractInvalidBytes (oneLiteral [.doubledQuote, invalidByte]).bytes =
        .ok ([0x3D, quote, quote, placeholder], some [[0xFF]]) ∧
      extractInvalidBytes (oneLiteral [invalidByte, .escape escapeChar]).bytes =
        .error .unterminatedChunk ∧
      extractInvalidBytes (oneLiteral [invalidByte, .escape 0x25]).bytes =
        .ok ([0x3D, placeholder], some [[0xFF, 0x25]]) ∧
      (oneLiteral [invalidByte, .escape 0x25]).expected =
        ([0x3D, placeholder], some [[0xFF, escapeChar, 0x25]]) := by
  refine ⟨?_, ?_, ?_, ?_, ?_, ?_, ?_, ?_⟩ <;> rfl

end SecureFusion.Frontend
