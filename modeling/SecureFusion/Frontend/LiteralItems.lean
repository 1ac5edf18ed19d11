import SecureFusion.Frontend.CharUtils
import SecureFusion.Library.Bytes

/-!
# Signs of literals

In a literal the server reads signs: a byte that stands for itself, a backslash that
escapes the byte after it, or a quote written twice. The extraction reads them in the same
way byte by byte, apart from doubled quotes and escaped wildcards. What it has put into
the text or a parameter is never taken back.
-/

namespace SecureFusion.Frontend

open Library List AutoEscapeVec Scan

variable {marks : List MarkedByte} {byte : UInt8}

/-- The bytes that the server reads for an escaped byte. A wildcard of patterns keeps its escape
character. -/
def serverEscape (source : UInt8) : Bytes :=
  match Char.ofNat source.toNat with
  | '0' => [0]
  | 'b' => [8]
  | 'n' => [10]
  | 'r' => [13]
  | 't' => [9]
  | 'Z' => [26]
  | '%' => [escapeChar, source]
  | '_' => [escapeChar, source]
  | _ => [source]

/-- One sign of a literal. -/
inductive LiteralItem where
  | plain (byte : UInt8) (isPlain : byte ≠ quote ∧ byte ≠ escapeChar)
  | escape (byte : UInt8)
  | doubledQuote
deriving DecidableEq

variable {items : List LiteralItem} {item : LiteralItem}

namespace LiteralItem

def bytes : LiteralItem → Bytes
  | plain byte _ => [byte]
  | escape byte => [escapeChar, byte]
  | doubledQuote => [quote, quote]

def value : LiteralItem → Bytes
  | plain byte _ => [byte]
  | escape byte => serverEscape byte
  | doubledQuote => [quote]

def collected : LiteralItem → Bytes
  | plain byte _ => [byte]
  | escape byte => [replaceEscaped byte]
  | doubledQuote => [quote, quote]

def isWildcard (item : LiteralItem) : Bool := item = escape 0x25 || item = escape 0x5F

/-- A sign that the extraction does not read as the server does. -/
def isMisread (item : LiteralItem) : Bool := item = doubledQuote || item.isWildcard

theorem serverEscape_eq (notWildcard : (escape byte).isWildcard = false) :
    serverEscape byte = [replaceEscaped byte] := by
  have all : ∀ byte, (escape byte).isWildcard = false →
      serverEscape byte = [replaceEscaped byte] := forall_byte (by decide +kernel)
  exact all byte notWildcard

theorem ne_doubledQuote (wellRead : item.isMisread = false) : item ≠ doubledQuote := by
  rintro rfl
  cases wellRead

theorem collected_eq_value (wellRead : item.isMisread = false) : item.collected = item.value := by
  cases item with
  | plain => rfl
  | escape byte => exact (serverEscape_eq (by simpa [isMisread] using wellRead)).symm
  | doubledQuote => cases wellRead

theorem flatMap_collected (wellRead : ∀ item ∈ items, item.isMisread = false) :
    items.flatMap collected = items.flatMap value :=
  flatMap_congr fun item isIn => collected_eq_value (wellRead item isIn)

theorem exists_of_isWildcard (wildcard : item.isWildcard = true) :
    ∃ byte, byte ≠ escapeChar ∧ byte ≠ quote ∧ byte < 0x80 ∧ item = escape byte ∧
      item.collected = [byte] ∧ item.value = [escapeChar, byte] := by
  rw [isWildcard, Bool.or_eq_true, decide_eq_true_eq, decide_eq_true_eq] at wildcard
  rcases wildcard with rfl | rfl
  · exact ⟨0x25, by decide⟩
  · exact ⟨0x5F, by decide⟩

theorem value_ne_nil (item : LiteralItem) : item.value ≠ [] := by
  cases item with
  | plain | doubledQuote => simp [value]
  | escape byte =>
    rw [value, serverEscape]
    split <;> simp

end LiteralItem

/-- The last sign is an escaped backslash; for no signs, the flag before them. -/
def endsEscaped (items : List LiteralItem) (before : Bool) : Bool :=
  (items.getLast?.map (decide <| · = .escape escapeChar)).getD before

theorem endsEscaped_cons (item : LiteralItem) (items : List LiteralItem) (before : Bool) :
    endsEscaped (item :: items) before =
      endsEscaped items (decide (item = .escape escapeChar)) := by
  rw [endsEscaped, endsEscaped, getLast?_cons]
  cases items.getLast? <;> rfl

/-! ## Reading the signs of a literal -/

def AsciiValid (marks : List MarkedByte) : Prop :=
  ∀ marked ∈ marks, marked.1 < 0x80 → marked.2 = true

theorem extendUnescape_items (items : List LiteralItem) (inner : Bytes) :
    AutoEscapeVec.extendUnescape ⟨inner, false⟩ (items.flatMap LiteralItem.bytes) =
      ⟨inner ++ items.flatMap LiteralItem.collected, false⟩ := by
  induction items generalizing inner with
  | nil => simp
  | cons item items ih =>
    have one : extendUnescape ⟨inner, false⟩ item.bytes =
        ⟨inner ++ item.collected, false⟩ := by
      cases item with
      | plain byte isPlain => exact push_plain inner isPlain.2
      | escape byte => exact push_escape inner byte
      | doubledQuote =>
        rw [LiteralItem.bytes, extendUnescape_cons, push_plain inner quote_ne_escapeChar]
        exact (push_plain _ quote_ne_escapeChar).trans (by simp [LiteralItem.collected])
    rw [flatMap_cons, flatMap_cons, extendUnescape_append, one, ih, append_assoc]

variable (res : Bytes) (params : List Bytes) {result : Bytes × List Bytes}

theorem run_item (single : item ≠ .doubledQuote) (ofItem : marks.map Prod.fst = item.bytes)
    (ascii : AsciiValid marks) (inner : Bytes) (afterEscape : Bool) :
    Scan.run ⟨res, params, .inside ⟨inner, false⟩ afterEscape⟩ marks =
      .ok ⟨res, params, .inside ⟨inner ++ item.collected, false⟩
        (decide (item = .escape escapeChar))⟩ := by
  cases item with
  | doubledQuote => exact absurd rfl single
  | plain byte isPlain =>
    obtain ⟨⟨only, flag⟩, rfl, rfl⟩ := map_eq_singleton_iff.mp ofItem
    have pushed := push_plain inner isPlain.2
    cases flag with
    | false => simp [run_cons, step, pushed, LiteralItem.collected, bind, Except.bind]
    | true =>
      simp [run_cons, step, pushed, isPlain, LiteralItem.collected, bind, Except.bind]
  | escape byte =>
    obtain ⟨⟨first, flag⟩, others, rfl, rfl, ofOthers⟩ := map_eq_cons_iff.mp ofItem
    obtain ⟨⟨second, flag'⟩, rfl, rfl⟩ := map_eq_singleton_iff.mp ofOthers
    have isValid : flag = true := ascii _ mem_cons_self escapeChar_ascii
    subst isValid
    have pushed := push_escape inner second
    have opened : step ⟨res, params, .inside ⟨inner, false⟩ afterEscape⟩ (escapeChar, true) =
        .ok ⟨res, params, .inside (push ⟨inner, false⟩ escapeChar) true⟩ := rfl
    rw [run_cons]
    dsimp only
    rw [opened]
    change run _ [(second, flag')] = _
    cases flag' with
    | false =>
      have notEscape : second ≠ escapeChar := by
        rintro rfl
        have := ascii (escapeChar, false) (by simp) escapeChar_ascii
        cases this
      simp [run_cons, step, pushed, notEscape, LiteralItem.collected, bind, Except.bind]
    | true =>
      by_cases isQuote : second = quote
      · subst isQuote
        simp [run_cons, step, pushed, LiteralItem.collected, bind, Except.bind]
      · simp [run_cons, step, pushed, isQuote, LiteralItem.collected, bind, Except.bind]

theorem run_items (single : .doubledQuote ∉ items)
    (ofItems : marks.map Prod.fst = items.flatMap LiteralItem.bytes) (ascii : AsciiValid marks)
    (inner : Bytes) (afterEscape : Bool) :
    Scan.run ⟨res, params, .inside ⟨inner, false⟩ afterEscape⟩ marks =
      .ok ⟨res, params, .inside ⟨inner ++ items.flatMap LiteralItem.collected, false⟩
        (endsEscaped items afterEscape)⟩ := by
  induction items generalizing marks inner afterEscape with
  | nil =>
    have noMarks : marks = [] := map_eq_nil_iff.mp ofItems
    rw [noMarks, flatMap_nil, append_nil]
    rfl
  | cons item items ih =>
    rw [mem_cons, not_or] at single
    rw [flatMap_cons] at ofItems
    obtain ⟨here, later, rfl, ofItem, ofLater⟩ := map_eq_append_iff.mp ofItems
    obtain ⟨asciiHere, asciiLater⟩ := forall_mem_append.mp ascii
    have first := run_item res params (Ne.symm single.1) ofItem asciiHere inner afterEscape
    rw [run_append_of_ok first, ih single.2 ofLater asciiLater, endsEscaped_cons,
      flatMap_cons, append_assoc]

theorem exists_items_until {before after : Bytes} (notAscii : ¬ byte < 0x80)
    (bytes : items.flatMap LiteralItem.bytes = before ++ byte :: after) :
    ∃ first rest, items = first ++ rest ∧
      first.flatMap LiteralItem.bytes = before ++ [byte] ∧
      rest.flatMap LiteralItem.bytes = after := by
  have notQuote : quote ≠ byte := fun same => notAscii (same ▸ quote_ascii)
  have notEscape : escapeChar ≠ byte := fun same => notAscii (same ▸ escapeChar_ascii)
  induction items generalizing before with
  | nil => cases before <;> cases bytes
  | cons item items ih =>
    -- Either the byte ends this sign, or it is in a later one.
    have later : ∀ more, before = item.bytes ++ more →
        items.flatMap LiteralItem.bytes = more ++ byte :: after →
        ∃ first rest, item :: items = first ++ rest ∧
          first.flatMap LiteralItem.bytes = before ++ [byte] ∧
          rest.flatMap LiteralItem.bytes = after := by
      intro more isBefore bytesLater
      obtain ⟨first, rest, rfl, ofFirst, ofRest⟩ := ih bytesLater
      refine ⟨item :: first, rest, rfl, ?_, ofRest⟩
      rw [flatMap_cons, ofFirst, isBefore, append_assoc]
    rw [flatMap_cons] at bytes
    cases item with
    | plain only isPlain =>
      rcases before with _ | ⟨_, more⟩
      · injection bytes with same ofRest
        exact ⟨[.plain only isPlain], items, rfl, by simp [LiteralItem.bytes, same], ofRest⟩
      · injection bytes with same ofRest
        exact later more (by rw [← same]; rfl) ofRest
    | escape escaped =>
      rcases before with _ | ⟨_, _ | ⟨_, more⟩⟩
      · injection bytes with same
        exact absurd same notEscape
      · injection bytes with same bytes
        injection bytes with same' ofRest
        exact ⟨[.escape escaped], items, rfl, by simp [LiteralItem.bytes, ← same, same'], ofRest⟩
      · injection bytes with same bytes
        injection bytes with same' ofRest
        exact later more (by rw [← same, ← same']; rfl) ofRest
    | doubledQuote =>
      rcases before with _ | ⟨_, _ | ⟨_, more⟩⟩
      · injection bytes with same
        exact absurd same notQuote
      · injection bytes with same bytes
        injection bytes with same'
        exact absurd same' notQuote
      · injection bytes with same bytes
        injection bytes with same' ofRest
        exact later more (by rw [← same, ← same']; rfl) ofRest

theorem run_until_invalid {pending text before after : Bytes}
    (split : splitLastQuote (pending ++ text) = some (before, after)) (byte : UInt8)
    (more : List MarkedByte) :
    Scan.run ⟨res, params, .outside pending⟩ (text.map (·, true) ++ (byte, false) :: more) =
      Scan.run ⟨res ++ before ++ [placeholder], params,
        .inside ((AutoEscapeVec.empty.extendUnescape after).push byte) false⟩ more := by
  rw [run_append_of_ok (run_outside res params pending text), run_cons]
  simp only [step, split]
  rfl

/-! ## What is never taken back -/

/-- A result goes on from a state: its text, its parameters and the parameter that is open. -/
def Scan.GoesOn (scan : Scan) (result : Bytes × List Bytes) : Prop :=
  scan.res <+: result.1 ∧
    match scan.mode with
    | .outside _ => scan.params <+: result.2
    | .inside vec _ => ∃ param more,
      result.2 = scan.params ++ param :: more ∧ vec.inner <+: param

theorem Scan.goesOn_of_step {scan scan' : Scan} {marked : MarkedByte}
    (read : scan.step marked = .ok scan') (goesOn : scan'.GoesOn result) : scan.GoesOn result := by
  obtain ⟨res, params, mode⟩ := scan
  obtain ⟨byte, valid⟩ := marked
  have pushed : ∀ {vec : AutoEscapeVec} {before after : Bool},
      GoesOn ⟨res, params, .inside (vec.push byte) after⟩ result →
        GoesOn ⟨res, params, .inside vec before⟩ result := by
    rintro vec before after ⟨text, param, more, atEnd, kept⟩
    exact ⟨text, param, more, atEnd, (vec.inner_push byte).trans kept⟩
  cases mode with
  | outside pending =>
    cases valid with
    | true =>
      cases read
      exact goesOn
    | false =>
      simp only [step] at read
      split at read
      · cases read
      · cases read
        obtain ⟨text, param, more, atEnd, -⟩ := goesOn
        rw [append_assoc] at text
        exact ⟨(prefix_append _ _).trans text, ⟨param :: more, atEnd.symm⟩⟩
  | inside vec afterEscape =>
    cases valid with
    | false =>
      cases read
      exact pushed goesOn
    | true =>
      simp only [step] at read
      split_ifs at read
      · cases read
        exact pushed goesOn
      · cases read
        exact pushed goesOn
      · cases read
        obtain ⟨text, more, atEnd⟩ := goesOn
        refine ⟨text, vec.inner, more, ?_, prefix_refl _⟩
        rw [← atEnd, append_assoc]
        rfl

theorem Scan.goesOn_of_run {scan : Scan}
    (read : scan.run marks >>= Scan.finish = .ok result) : scan.GoesOn result := by
  induction marks generalizing scan with
  | nil =>
    obtain ⟨res, params, mode⟩ := scan
    cases mode with
    | outside pending =>
      cases read
      exact ⟨prefix_append _ _, prefix_refl _⟩
    | inside => cases read
  | cons marked marks ih =>
    rw [run_cons] at read
    cases one : scan.step marked with
    | error =>
      rw [one] at read
      cases read
    | ok next =>
      rw [one] at read
      exact goesOn_of_step one (ih read)

end SecureFusion.Frontend
