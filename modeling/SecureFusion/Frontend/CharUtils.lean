import Mathlib.Data.List.Chain
import SecureFusion.Library.Utf8

/-!
# Binary literals in query texts

A query may have literals with bytes that are not UTF-8. They are cut out of the text
before it is parsed and become parameters. The extraction works on the chunks of the
decoder: the literal is taken to start at the last quote before the first invalid byte,
and to end at the first quote after it that has no backslash before it. Against this
stands the way in which the server reads the query, as a sequence of texts and literals.
-/

namespace SecureFusion.Frontend

open Library List

variable {text : Bytes} {bytes : Bytes}

abbrev quote : UInt8 := 0x27

abbrev escapeChar : UInt8 := 0x5C

abbrev placeholder : UInt8 := 0x3F

theorem quote_ascii : quote < 0x80 := by decide

theorem escapeChar_ascii : escapeChar < 0x80 := by decide

@[simp] theorem quote_ne_escapeChar : quote ≠ escapeChar := by decide

/-- Errors of the extraction. -/
inductive ExtractError where
  /-- "Failed to parse query: dangling escape character" -/
  | danglingEscape
  /-- "Failed to parse binary chunks in query: unterminated chunk" and the open parameter. -/
  | unterminatedChunk
  /-- "Failed to parse binary chunks in query: Failed to locate binary string start in" and the
  text. -/
  | noBinaryStart (valid : Bytes)
deriving DecidableEq, Repr

/-- The byte that an escaped byte stands for. -/
def replaceEscaped (source : UInt8) : UInt8 :=
  match Char.ofNat source.toNat with
  | '0' => 0
  | 'b' => 8
  | 'n' => 10
  | 'r' => 13
  | 't' => 9
  | 'Z' => 26
  | _ => source

/-- Bytes collected without their escape characters. -/
structure AutoEscapeVec where
  inner : Bytes
  hasDanglingEscape : Bool
deriving DecidableEq, Repr

namespace AutoEscapeVec

def empty : AutoEscapeVec := ⟨[], false⟩

/-- Adds a byte, or takes it for an escape character. -/
def push (vec : AutoEscapeVec) (byte : UInt8) : AutoEscapeVec :=
  if vec.hasDanglingEscape then ⟨vec.inner ++ [replaceEscaped byte], false⟩
  else if byte = escapeChar then { vec with hasDanglingEscape := true }
  else ⟨vec.inner ++ [byte], false⟩

/-- Adds bytes without their escape characters. -/
def extendUnescape (vec : AutoEscapeVec) (bytes : Bytes) : AutoEscapeVec :=
  bytes.foldl push vec

/-- The bytes, unless an escape is left over. -/
def tryInto (vec : AutoEscapeVec) : Except ExtractError Bytes :=
  if vec.hasDanglingEscape then .error .danglingEscape else .ok vec.inner

end AutoEscapeVec

/-- What is before the first quote of a text and what is after it. -/
def splitFirstQuote (text : Bytes) : Option (Bytes × Bytes) :=
  match text.dropWhile (· ≠ quote) with
  | [] => none
  | _ :: after => some (text.takeWhile (· ≠ quote), after)

/-- What is before the last quote of a text and what is after it. -/
def splitLastQuote (text : Bytes) : Option (Bytes × Bytes) :=
  (splitFirstQuote text.reverse).map fun (after, before) => (before.reverse, after.reverse)

/-- The text and the parameters so far, and the parameter that is open. -/
structure ParserState where
  res : Bytes
  params : List Bytes
  currentParam : Option AutoEscapeVec
deriving DecidableEq, Repr

namespace ParserState

def init : ParserState := ⟨[], [], none⟩

/-- Reads a chunk, or the rest of one, outside of a parameter. -/
def addChunkStart (state : ParserState) (valid invalid : Bytes) :
    Except ExtractError ParserState :=
  if invalid = [] then .ok { state with res := state.res ++ valid }
  else
    match splitLastQuote valid with
    | none => .error (.noBinaryStart valid)
    | some (before, after) =>
      .ok { state with
        res := state.res ++ before ++ [placeholder]
        currentParam := some ((AutoEscapeVec.empty.extendUnescape after).extendUnescape invalid) }

/-- Reads a chunk inside the parameter vec; the valid part has less than fuel bytes. -/
def addChunkContinue : Nat → ParserState → AutoEscapeVec → Bytes → Bytes →
    Except ExtractError ParserState
  | 0, _, _, _, _ => .error .unterminatedChunk
  | fuel + 1, state, vec, valid, invalid =>
    match splitFirstQuote valid with
    | none =>
      .ok { state with currentParam := some ((vec.extendUnescape valid).extendUnescape invalid) }
    | some (before, after) =>
      if before.getLast? = some escapeChar then
        addChunkContinue fuel state (vec.extendUnescape (before ++ [quote])) after invalid
      else if before = [] ∧ vec.hasDanglingEscape then
        addChunkContinue fuel state (vec.extendUnescape [quote]) after invalid
      else do
        let param ← (vec.extendUnescape before).tryInto
        addChunkStart { state with params := state.params ++ [param], currentParam := none }
          after invalid

/-- Adds a chunk of the decoder. -/
def addChunk (state : ParserState) (chunk : Utf8Chunk) : Except ExtractError ParserState :=
  match state.currentParam with
  | none => state.addChunkStart chunk.valid chunk.invalid
  | some vec => addChunkContinue (chunk.valid.length + 1) state vec chunk.valid chunk.invalid

/-- The text and the parameters; an open literal is an error. -/
def finish (state : ParserState) : Except ExtractError (Bytes × List Bytes) :=
  if state.currentParam.isSome then .error .unterminatedChunk else .ok (state.res, state.params)

end ParserState

/-- The text of a query with its parameters; none if the query is UTF-8. -/
def extractInvalidBytes (bytes : Bytes) :
    Except ExtractError (Bytes × Option (List Bytes)) :=
  match utf8Chunks bytes with
  | [] => .ok ([], none)
  | first :: rest =>
    if first.invalid = [] then .ok (first.valid, none)
    else do
      let state ← (first :: rest).foldlM ParserState.addChunk .init
      let (res, params) ← state.finish
      .ok (res, some params)

/-! ## Quotes of a text -/

theorem splitFirstQuote_eq_none (noQuote : quote ∉ text) : splitFirstQuote text = none := by
  have all : ∀ byte ∈ text, decide (byte ≠ quote) = true := by
    intro byte isIn
    exact decide_eq_true fun same => noQuote (same ▸ isIn)
  rw [splitFirstQuote, dropWhile_eq_nil_iff.mpr all]

theorem splitFirstQuote_append {before : Bytes} (noQuote : quote ∉ before)
    (after : Bytes) : splitFirstQuote (before ++ quote :: after) = some (before, after) := by
  have all : ∀ byte ∈ before, decide (byte ≠ quote) = true := by
    intro byte isIn
    exact decide_eq_true fun same => noQuote (same ▸ isIn)
  rw [splitFirstQuote, dropWhile_append_of_pos all, takeWhile_append_of_pos all]
  simp

theorem splitLastQuote_append (before : Bytes) {after : Bytes}
    (noQuote : quote ∉ after) :
    splitLastQuote (before ++ quote :: after) = some (before, after) := by
  have reversed : (before ++ quote :: after).reverse = after.reverse ++ quote :: before.reverse := by
    simp
  rw [splitLastQuote, reversed, splitFirstQuote_append (by simpa using noQuote)]
  simp

theorem exists_first_quote (hasQuote : quote ∈ text) :
    ∃ before after, text = before ++ quote :: after ∧ quote ∉ before := by
  obtain ⟨before, after, split, first⟩ := eq_append_cons_of_mem hasQuote
  exact ⟨before, after, split, first⟩

theorem exists_last_quote (hasQuote : quote ∈ text) :
    ∃ before after, text = before ++ quote :: after ∧ quote ∉ after := by
  obtain ⟨after, before, split, last⟩ :=
    eq_append_cons_of_mem (mem_reverse.mpr hasQuote)
  refine ⟨before.reverse, after.reverse, ?_, by simpa using last⟩
  rw [← reverse_reverse text, split]
  simp

/-! ## Collected bytes -/

namespace AutoEscapeVec

@[simp] theorem extendUnescape_nil (vec : AutoEscapeVec) : vec.extendUnescape [] = vec := rfl

@[simp] theorem extendUnescape_cons (vec : AutoEscapeVec) (byte : UInt8) (bytes : Bytes) :
    vec.extendUnescape (byte :: bytes) = (vec.push byte).extendUnescape bytes := rfl

theorem extendUnescape_append (vec : AutoEscapeVec) (first second : Bytes) :
    vec.extendUnescape (first ++ second) =
      (vec.extendUnescape first).extendUnescape second :=
  foldl_append

theorem push_settled (vec : AutoEscapeVec) {byte : UInt8} (plain : byte ≠ escapeChar) :
    (vec.push byte).hasDanglingEscape = false := by
  unfold push
  split_ifs <;> rfl

variable (inner : Bytes)

theorem push_plain {byte : UInt8} (plain : byte ≠ escapeChar) :
    push ⟨inner, false⟩ byte = ⟨inner ++ [byte], false⟩ := by
  simp [push, plain]

theorem push_escape (byte : UInt8) :
    push (push ⟨inner, false⟩ escapeChar) byte = ⟨inner ++ [replaceEscaped byte], false⟩ := by
  simp [push]

theorem extendUnescape_settled (vec : AutoEscapeVec) (some : bytes ≠ [])
    (plain : ∀ byte ∈ bytes, byte ≠ escapeChar) :
    (vec.extendUnescape bytes).hasDanglingEscape = false := by
  rcases bytes.eq_nil_or_concat with rfl | ⟨front, last, rfl⟩
  · exact absurd rfl some
  · rw [concat_eq_append, extendUnescape_append]
    exact push_settled _ (plain last (by simp))

theorem inner_push (vec : AutoEscapeVec) (byte : UInt8) : vec.inner <+: (vec.push byte).inner := by
  unfold push
  split_ifs
  · exact prefix_append _ _
  · exact prefix_refl _
  · exact prefix_append _ _

end AutoEscapeVec

open AutoEscapeVec

/-! ## The extraction byte by byte -/

/-- Where the extraction is in the query. -/
inductive ScanMode where
  /-- Outside of parameters, with the text since the last one. -/
  | outside (pending : Bytes)
  /-- Inside a parameter, possibly after a valid escape character. -/
  | inside (vec : AutoEscapeVec) (afterEscape : Bool)
deriving DecidableEq, Repr

/-- The state of the extraction after some bytes. -/
structure Scan where
  res : Bytes
  params : List Bytes
  mode : ScanMode
deriving DecidableEq, Repr

variable (scan : Scan)

namespace Scan

/-- Reads one byte with its mark. -/
def step (scan : Scan) (marked : MarkedByte) : Except ExtractError Scan :=
  match scan.mode, marked with
  | .outside pending, (byte, true) => .ok { scan with mode := .outside (pending ++ [byte]) }
  | .outside pending, (byte, false) =>
    match splitLastQuote pending with
    | none => .error (.noBinaryStart pending)
    | some (before, after) =>
      .ok { scan with
        res := scan.res ++ before ++ [placeholder]
        mode := .inside ((AutoEscapeVec.empty.extendUnescape after).push byte) false }
  | .inside vec _, (byte, false) => .ok { scan with mode := .inside (vec.push byte) false }
  | .inside vec afterEscape, (byte, true) =>
    if byte ≠ quote then
      .ok { scan with mode := .inside (vec.push byte) (byte = escapeChar) }
    else if afterEscape then .ok { scan with mode := .inside (vec.push byte) false }
    else .ok { scan with params := scan.params ++ [vec.inner], mode := .outside [] }

def run (scan : Scan) (marked : List MarkedByte) : Except ExtractError Scan :=
  marked.foldlM step scan

def finish (scan : Scan) : Except ExtractError (Bytes × List Bytes) :=
  match scan.mode with
  | .outside pending => .ok (scan.res ++ pending, scan.params)
  | .inside _ _ => .error .unterminatedChunk

def init : Scan := ⟨[], [], .outside []⟩

@[simp] theorem run_nil : scan.run [] = .ok scan := rfl

theorem run_cons (marked : MarkedByte) (more : List MarkedByte) :
    scan.run (marked :: more) = scan.step marked >>= (run · more) :=
  foldlM_cons

theorem run_append (first second : List MarkedByte) :
    scan.run (first ++ second) = scan.run first >>= (run · second) :=
  foldlM_append

theorem run_append_of_ok {scan scan' : Scan} {first : List MarkedByte}
    (read : scan.run first = .ok scan') (second : List MarkedByte) :
    scan.run (first ++ second) = scan'.run second := by
  rw [run_append, read]
  rfl

variable (res : Bytes) (params : List Bytes)

theorem run_outside (pending text : Bytes) :
    run ⟨res, params, .outside pending⟩ (text.map (·, true)) =
      .ok ⟨res, params, .outside (pending ++ text)⟩ := by
  induction text generalizing pending with
  | nil => simp
  | cons byte text ih =>
    rw [map_cons, run_cons]
    exact (ih (pending ++ [byte])).trans (by rw [append_assoc]; rfl)

theorem run_inside_valid (vec : AutoEscapeVec) (afterEscape : Bool) (noQuote : quote ∉ text) :
    run ⟨res, params, .inside vec afterEscape⟩ (text.map (·, true)) =
      .ok ⟨res, params, .inside (vec.extendUnescape text)
        ((text.getLast?.map (decide <| · = escapeChar)).getD afterEscape)⟩ := by
  induction text generalizing vec afterEscape with
  | nil => rfl
  | cons byte text ih =>
    rw [mem_cons, not_or] at noQuote
    have one : step ⟨res, params, .inside vec afterEscape⟩ (byte, true) =
        .ok ⟨res, params, .inside (vec.push byte) (byte = escapeChar)⟩ :=
      if_pos (Ne.symm noQuote.1)
    rw [map_cons, run_cons, one]
    refine (ih (vec.push byte) _ noQuote.2).trans ?_
    rw [extendUnescape_cons, getLast?_cons]
    cases text.getLast? <;> rfl

theorem run_inside_invalid (vec : AutoEscapeVec) (bytes : Bytes) :
    run ⟨res, params, .inside vec false⟩ (bytes.map (·, false)) =
      .ok ⟨res, params, .inside (vec.extendUnescape bytes) false⟩ := by
  induction bytes generalizing vec with
  | nil => rfl
  | cons byte bytes ih =>
    rw [map_cons, run_cons]
    exact ih (vec.push byte)

end Scan

open Scan

/-! ## Chunks and bytes -/

variable {state : ParserState}

namespace ParserState

/-- The state between two chunks as a state between two bytes. -/
def toScan (state : ParserState) : Scan where
  res := state.res
  params := state.params
  mode :=
    match state.currentParam with
    | none => .outside []
    | some vec => .inside vec false

def endChunk (invalid : Bytes) (scan : Scan) : Except ExtractError ParserState :=
  match scan.mode with
  | .outside pending => addChunkStart ⟨scan.res, scan.params, none⟩ pending invalid
  | .inside vec _ => .ok ⟨scan.res, scan.params, some (vec.extendUnescape invalid)⟩

theorem addChunkContinue_eq (fuel : Nat) (state : ParserState) {vec : AutoEscapeVec}
    (settled : vec.hasDanglingEscape = false) (valid invalid : Bytes)
    (enough : valid.length < fuel) :
    addChunkContinue fuel state vec valid invalid =
      Scan.run ⟨state.res, state.params, .inside vec false⟩ (valid.map (·, true)) >>=
        endChunk invalid := by
  induction fuel generalizing vec valid with
  | zero => omega
  | succ fuel ih =>
    rw [addChunkContinue]
    by_cases hasQuote : quote ∈ valid
    · obtain ⟨before, after, rfl, noQuote⟩ := exists_first_quote hasQuote
      have readBefore := run_inside_valid state.res state.params vec false noQuote
      rw [length_append, length_cons] at enough
      rw [splitFirstQuote_append noQuote, map_append, map_cons,
        run_append_of_ok readBefore, run_cons]
      dsimp only
      by_cases escaped : before.getLast? = some escapeChar
      · -- The quote is read as escaped.
        rw [if_pos escaped, ih (by
          rw [extendUnescape_append]
          exact push_settled _ quote_ne_escapeChar) after (by omega), escaped,
          extendUnescape_append]
        rfl
      · -- The quote is read as the end of the parameter.
        have notAfterEscape :
            (before.getLast?.map (decide <| · = escapeChar)).getD false = false := by
          cases last : before.getLast? with
          | none => rfl
          | some byte =>
            rw [last, Option.some.injEq] at escaped
            simpa using escaped
        have settledBefore : (vec.extendUnescape before).hasDanglingEscape = false := by
          rcases before.eq_nil_or_concat with rfl | ⟨front, byte, rfl⟩
          · exact settled
          · rw [concat_eq_append, extendUnescape_append]
            refine push_settled _ fun same => escaped ?_
            rw [same, concat_eq_append, getLast?_concat]
        rw [if_neg escaped, if_neg (by simp [settled]), notAfterEscape,
          tryInto, settledBefore]
        have outside := run_outside state.res
          (state.params ++ [(vec.extendUnescape before).inner]) [] after
        change _ = (run ⟨state.res, state.params ++ [(vec.extendUnescape before).inner],
          .outside []⟩ (after.map (·, true))) >>= endChunk invalid
        rw [outside]
        rfl
    · have readValid := run_inside_valid state.res state.params vec false hasQuote
      rw [splitFirstQuote_eq_none hasQuote, readValid]
      rfl

def Settled (state : ParserState) : Prop :=
  ∀ vec, state.currentParam = some vec → vec.hasDanglingEscape = false

theorem addChunk_eq (settled : state.Settled) (chunk : Utf8Chunk) :
    state.addChunk chunk =
      state.toScan.run (chunk.valid.map (·, true)) >>= endChunk chunk.invalid := by
  obtain ⟨res, params, currentParam⟩ := state
  cases currentParam with
  | none =>
    refine Eq.trans ?_ (congrArg (· >>= endChunk chunk.invalid)
      (run_outside res params [] chunk.valid)).symm
    rfl
  | some vec =>
    exact addChunkContinue_eq _ _ (settled vec rfl) _ _ (Nat.lt_succ_self _)

variable {invalid : Bytes}

theorem endChunk_toScan (some : invalid ≠ []) (scan : Scan) :
    (endChunk invalid scan).map toScan = scan.run (invalid.map (·, false)) := by
  obtain ⟨byte, more, rfl⟩ := exists_cons_of_ne_nil some
  obtain ⟨res, params, mode⟩ := scan
  rw [map_cons, run_cons]
  cases mode with
  | inside vec afterEscape => exact (run_inside_invalid res params (vec.push byte) more).symm
  | outside pending =>
    simp only [endChunk, addChunkStart, if_neg some, step]
    cases splitLastQuote pending with
    | none => rfl
    | some parts =>
      exact (run_inside_invalid (res ++ parts.1 ++ [placeholder]) params
        ((empty.extendUnescape parts.2).push byte) more).symm

theorem settled_of_endChunk (some : invalid ≠ []) (plain : ∀ byte ∈ invalid, byte ≠ escapeChar)
    {scan : Scan} (read : endChunk invalid scan = .ok state) : state.Settled := by
  intro vec isCurrent
  unfold endChunk at read
  split at read
  case h_1 pending _ =>
    rw [addChunkStart, if_neg some] at read
    split at read
    · cases read
    · cases read
      cases isCurrent
      exact extendUnescape_settled _ some plain
  case h_2 =>
    cases read
    cases isCurrent
    exact extendUnescape_settled _ some plain

theorem endChunk_nil_finish : endChunk [] scan >>= finish = scan.finish := by
  obtain ⟨res, params, mode⟩ := scan
  cases mode <;> rfl

theorem toScan_finish (state : ParserState) : state.toScan.finish = state.finish := by
  obtain ⟨res, params, currentParam⟩ := state
  cases currentParam with
  | none =>
    change Except.ok (res ++ [], params) = Except.ok (res, params)
    rw [append_nil]
  | some vec => rfl

theorem foldlM_addChunk {chunks : List Utf8Chunk} (settled : state.Settled)
    (chain : chunks.IsChain fun chunk _ => chunk.invalid ≠ [])
    (plain : ∀ chunk ∈ chunks, ∀ byte ∈ chunk.invalid, byte ≠ escapeChar) :
    chunks.foldlM addChunk state >>= finish =
      state.toScan.run (chunks.flatMap Utf8Chunk.marked) >>= Scan.finish := by
  induction chunks generalizing state with
  | nil => exact (toScan_finish state).symm
  | cons chunk rest ih =>
    rw [foldlM_cons, flatMap_cons, run_append, Utf8Chunk.marked, run_append,
      addChunk_eq settled]
    cases valid : state.toScan.run (chunk.valid.map (·, true)) with
    | error => rfl
    | ok scan =>
      by_cases last : chunk.invalid = []
      · rw [eq_nil_of_isChain chain last, last]
        refine Eq.trans ?_ (endChunk_nil_finish scan)
        change (endChunk [] scan >>= Except.ok) >>= finish = _
        cases endChunk [] scan <;> rfl
      · have plainHere := plain chunk mem_cons_self
        have invalid := endChunk_toScan last scan
        change (endChunk chunk.invalid scan >>= fun next => rest.foldlM addChunk next) >>= finish =
          (scan.run (chunk.invalid.map (·, false)) >>=
            (Scan.run · (rest.flatMap Utf8Chunk.marked))) >>= Scan.finish
        rw [← invalid]
        cases read : endChunk chunk.invalid scan with
        | error => rfl
        | ok next =>
          exact ih (settled_of_endChunk last plainHere read) chain.tail
            (forall_mem_cons.mp plain).2

end ParserState

theorem extractInvalidBytes_of_isUtf8 (valid : isUtf8 bytes = true) :
    extractInvalidBytes bytes = .ok (bytes, none) := by
  have marks := marked_utf8Chunks bytes
  have chain := isChain_utf8Chunks bytes
  unfold extractInvalidBytes
  cases chunks : utf8Chunks bytes with
  | nil =>
    rw [chunks] at marks
    have noBytes := map_fst_mark bytes
    rw [← marks] at noBytes
    rw [← noBytes]
    rfl
  | cons first rest =>
    rw [chunks] at marks chain
    have noInvalid : first.invalid = [] := by
      by_contra hasInvalid
      obtain ⟨byte, isIn⟩ := exists_mem_of_ne_nil _ hasInvalid
      have isMarked : (byte, false) ∈ mark bytes := by
        rw [← marks]
        simp [Utf8Chunk.marked, isIn]
      have := all_eq_true.mp valid _ isMarked
      cases this
    have noBytes := map_fst_mark bytes
    rw [← marks, eq_nil_of_isChain chain noInvalid] at noBytes
    simp only [noInvalid, if_true]
    rw [← noBytes]
    simp [Utf8Chunk.marked, noInvalid, Function.comp_def]

theorem extractInvalidBytes_of_invalid (invalid : isUtf8 bytes = false) :
    extractInvalidBytes bytes = (Scan.init.run (mark bytes) >>= Scan.finish).map
      fun result => (result.1, some result.2) := by
  have marks := marked_utf8Chunks bytes
  have chain := isChain_utf8Chunks bytes
  have plain : ∀ chunk ∈ utf8Chunks bytes, ∀ byte ∈ chunk.invalid, byte ≠ escapeChar := by
    rintro chunk isChunk byte isIn rfl
    have isMarked : (escapeChar, false) ∈ mark bytes := by
      rw [← marks, mem_flatMap]
      exact ⟨chunk, isChunk, by simp [Utf8Chunk.marked, isIn]⟩
    have := valid_of_ascii isMarked escapeChar_ascii
    cases this
  have nothingOpen : ParserState.init.Settled := fun vec isCurrent => by cases isCurrent
  have read := ParserState.foldlM_addChunk nothingOpen chain plain
  rw [marks] at read
  change _ = (Except.map _ (ParserState.init.toScan.run (mark bytes) >>= finish))
  rw [← read]
  unfold extractInvalidBytes
  cases chunks : utf8Chunks bytes with
  | nil =>
    rw [chunks] at marks
    rw [isUtf8, ← marks] at invalid
    cases invalid
  | cons first rest =>
    rw [chunks] at marks chain
    have hasInvalid : first.invalid ≠ [] := by
      intro noInvalid
      rw [isUtf8, ← marks, eq_nil_of_isChain chain noInvalid] at invalid
      simp [Utf8Chunk.marked, noInvalid] at invalid
    dsimp only
    rw [if_neg hasInvalid]
    cases (first :: rest).foldlM ParserState.addChunk .init with
    | error => rfl
    | ok state =>
      change state.finish >>= _ = Except.map _ state.finish
      cases state.finish <;> rfl

end SecureFusion.Frontend
