import SecureFusion.Library.Transducer
import SecureFusion.Frontend.LiteralItems

/-!
# Tokens of the server

The server reads a statement byte by byte: words, identifiers between backquotes,
string literals between quotes with doubled quotes and backslash escapes, comments,
and single signs. A multi-byte character has no byte below 128, so that nothing
depends on the encoding of other characters.
-/

namespace SecureFusion.Server

open Library Frontend List

variable {value : Bytes} {first : UInt8} {byte : UInt8}

/-- A token of a statement. -/
inductive Token where
  | word (bytes : Bytes)
  | quotedIdentifier (bytes : Bytes)
  | string (value : Bytes)
  | symbol (byte : UInt8)
deriving DecidableEq, Repr

def Token.bytes : Token → Bytes
  | .word bytes => bytes
  | .quotedIdentifier bytes => bytes
  | .string value => value
  | .symbol byte => [byte]

abbrev doubleQuote : UInt8 := 0x22

abbrev backquote : UInt8 := 0x60

def isWordByte (byte : UInt8) : Bool :=
  (0x30 ≤ byte && byte ≤ 0x39) || (0x41 ≤ byte && byte ≤ 0x5A) || (0x61 ≤ byte && byte ≤ 0x7A) ||
    byte = 0x5F || byte = 0x24 || 0x80 ≤ byte

def isSpace (byte : UInt8) : Bool := byte = 0x20 || (9 ≤ byte && byte ≤ 13)

/-- What the server is in the middle of. -/
inductive LexState where
  | blank
  | word (bytes : Bytes)
  | backquoted (bytes : Bytes)
  /-- A backquote that ends an identifier unless another one follows. -/
  | backquoteSeen (bytes : Bytes)
  | quoted (delimiter : UInt8) (value : Bytes)
  /-- A quote that ends a literal unless another one follows. -/
  | quoteSeen (delimiter : UInt8) (value : Bytes)
  | escaped (delimiter : UInt8) (value : Bytes)
  | dash
  | dashDash
  | lineComment
  | slash
  | block
  | blockStar
deriving DecidableEq, Repr

/-- The bytes that have been read of the token in progress. -/
def LexState.bytes : LexState → Bytes
  | .word bytes => bytes
  | .backquoted bytes => bytes
  | .backquoteSeen bytes => bytes
  | .quoted _ value => value
  | .quoteSeen _ value => value
  | .escaped _ value => value
  | _ => []

def startToken (byte : UInt8) : LexState × List Token :=
  if isSpace byte then (.blank, [])
  else if byte = quote ∨ byte = doubleQuote then (.quoted byte [], [])
  else if byte = backquote then (.backquoted [], [])
  else if byte = 0x23 then (.lineComment, [])
  else if byte = 0x2D then (.dash, [])
  else if byte = 0x2F then (.slash, [])
  else if isWordByte byte then (.word [byte], [])
  else (.blank, [.symbol byte])

/-- Reads the first byte of a token after others have ended. -/
def startAfter (ended : List Token) (byte : UInt8) : LexState × List Token :=
  ((startToken byte).1, ended ++ (startToken byte).2)

/-- Reads one byte. -/
def lexStep : LexState → UInt8 → LexState × List Token
  | .blank, byte => startToken byte
  | .word bytes, byte =>
    if isWordByte byte then (.word (bytes ++ [byte]), []) else startAfter [.word bytes] byte
  | .backquoted bytes, byte =>
    if byte = backquote then (.backquoteSeen bytes, []) else (.backquoted (bytes ++ [byte]), [])
  | .backquoteSeen bytes, byte =>
    if byte = backquote then (.backquoted (bytes ++ [byte]), [])
    else startAfter [.quotedIdentifier bytes] byte
  | .quoted delimiter value, byte =>
    if byte = delimiter then (.quoteSeen delimiter value, [])
    else if byte = escapeChar then (.escaped delimiter value, [])
    else (.quoted delimiter (value ++ [byte]), [])
  | .quoteSeen delimiter value, byte =>
    if byte = delimiter then (.quoted delimiter (value ++ [byte]), [])
    else startAfter [.string value] byte
  | .escaped delimiter value, byte => (.quoted delimiter (value ++ serverEscape byte), [])
  | .dash, byte => if byte = 0x2D then (.dashDash, []) else startAfter [.symbol 0x2D] byte
  | .dashDash, byte =>
    -- two dashes start a comment only in front of a blank or a control character
    if byte = 0x0A then (.blank, [])
    else if byte ≤ 0x20 then (.lineComment, [])
    else startAfter [.symbol 0x2D, .symbol 0x2D] byte
  | .lineComment, byte => (if byte = 0x0A then .blank else .lineComment, [])
  | .slash, byte => if byte = 0x2A then (.block, []) else startAfter [.symbol 0x2F] byte
  | .block, byte => (if byte = 0x2A then .blockStar else .block, [])
  | .blockStar, byte =>
    (if byte = 0x2F then .blank else if byte = 0x2A then .blockStar else .block, [])

/-- The tokens at the end; an open quote is an error. -/
def lexFinish : LexState → Option (List Token)
  | .blank | .dashDash | .lineComment => some []
  | .word bytes => some [.word bytes]
  | .backquoteSeen bytes => some [.quotedIdentifier bytes]
  | .quoteSeen _ value => some [.string value]
  | .dash => some [.symbol 0x2D]
  | .slash => some [.symbol 0x2F]
  | .backquoted _ | .quoted .. | .escaped .. | .block | .blockStar => none

def lexer : Transducer LexState UInt8 Token := ⟨.blank, lexStep, lexFinish⟩

/-- The tokens of a statement; none if a literal, an identifier or a comment does not end. -/
def lex (text : Bytes) : Option (List Token) := lexer.tokens text

variable {state : LexState} {tokens ended : List Token}

theorem run_after_token (ends : lexStep state first = startAfter ended first) (rest : Bytes) :
    lexer.run state (first :: rest) =
      ((lexer.run .blank (first :: rest)).1, ended ++ (lexer.run .blank (first :: rest)).2) := by
  have fromState : lexer.step state first = startAfter ended first := ends
  have fromBlank : lexer.step .blank first = startToken first := rfl
  rw [Transducer.run_cons, fromState, Transducer.run_cons, fromBlank, startAfter, append_assoc]

theorem output_after_token (ends : lexStep state first = startAfter ended first)
    (rest : Bytes) :
    lexer.output state (first :: rest) = (lexer.output .blank (first :: rest)).map (ended ++ ·) := by
  unfold Transducer.output
  rw [run_after_token ends, Option.map_map]
  congr 1
  funext tokens
  exact append_assoc _ _ _

theorem doubleQuote_notMem_serverEscape (other : byte ≠ doubleQuote) :
    doubleQuote ∉ serverEscape byte := by
  have all : ∀ byte, byte ≠ doubleQuote → doubleQuote ∉ serverEscape byte :=
    forall_byte (by decide +kernel)
  exact all byte other

/-- Neither the token in progress nor the tokens that ended have a double quote. -/
def Avoids (step : LexState × List Token) : Prop :=
  doubleQuote ∉ step.1.bytes ∧ ∀ token ∈ step.2, doubleQuote ∉ token.bytes

theorem startAfter_avoids (other : byte ≠ doubleQuote)
    (avoids : ∀ token ∈ ended, doubleQuote ∉ token.bytes) : Avoids (startAfter ended byte) := by
  have starts : Avoids (startToken byte) := by
    unfold startToken
    split_ifs <;> simp [Avoids, LexState.bytes, Token.bytes, other.symm]
  exact ⟨starts.1, forall_mem_append.mpr ⟨avoids, starts.2⟩⟩

theorem lexStep_avoids (state : LexState) (byte : UInt8) (avoids : doubleQuote ∉ state.bytes)
    (other : byte ≠ doubleQuote) : Avoids (lexStep state byte) := by
  have escape := doubleQuote_notMem_serverEscape other
  cases state with
  | blank => exact @startAfter_avoids _ [] other nofun
  | word bytes | backquoted bytes | backquoteSeen bytes | quoted _ bytes | quoteSeen _ bytes
  | escaped _ bytes =>
    simp only [LexState.bytes] at avoids
    simp only [lexStep]
    try split_ifs
    all_goals first
      | exact startAfter_avoids other (by simpa [Token.bytes] using avoids)
      | simp [Avoids, LexState.bytes, avoids, other.symm, escape]
  | dash | dashDash | lineComment | slash | block | blockStar =>
    simp only [lexStep]
    split_ifs
    all_goals first
      | exact startAfter_avoids other (by decide)
      | simp [Avoids, LexState.bytes]

theorem lexFinish_avoids (finished : lexFinish state = some tokens)
    (avoids : doubleQuote ∉ state.bytes) :
    ∀ token ∈ tokens, doubleQuote ∉ token.bytes := by
  cases state with
  | backquoted | quoted | escaped | block | blockStar => cases finished
  | word | backquoteSeen | quoteSeen =>
    cases finished
    simpa [Token.bytes, LexState.bytes] using avoids
  | blank | dash | dashDash | lineComment | slash =>
    cases finished
    decide

theorem lex_avoids {text : Bytes} (read : lex text = some tokens) (absent : doubleQuote ∉ text)
    : ∀ token ∈ tokens, doubleQuote ∉ token.bytes := by
  have allowed : ∀ byte ∈ text, byte ≠ doubleQuote := fun byte member same => absent (same ▸ member)
  have initially : doubleQuote ∉ LexState.blank.bytes := not_mem_nil
  have run := lexer.run_invariant lexStep_avoids initially allowed
  obtain ⟨last, finished, rfl⟩ := Option.map_eq_some_iff.mp read
  exact forall_mem_append.mpr ⟨run.2, lexFinish_avoids finished run.1⟩

/-! ## Literals in progress -/

/-- The value that has been read of a literal in progress. -/
def LexState.literal : LexState → Option Bytes
  | .quoted _ value => some value
  | .quoteSeen _ value => some value
  | .escaped _ value => some value
  | _ => none

theorem lexStep_literal (inside : state.literal = some value) (byte : UInt8) :
    ((lexStep state byte).2 = [] ∧
      ∃ longer, (lexStep state byte).1.literal = some longer ∧ value <+: longer) ∨
    ∃ more, (lexStep state byte).2 = .string value :: more := by
  cases state with
  | quoted delimiter read =>
    cases inside
    simp only [lexStep]
    split_ifs
    · exact .inl ⟨rfl, value, rfl, prefix_refl _⟩
    · exact .inl ⟨rfl, value, rfl, prefix_refl _⟩
    · exact .inl ⟨rfl, _, rfl, prefix_append _ _⟩
  | quoteSeen delimiter read =>
    cases inside
    simp only [lexStep]
    split_ifs
    · exact .inl ⟨rfl, _, rfl, prefix_append _ _⟩
    · exact .inr ⟨_, rfl⟩
  | escaped delimiter read =>
    cases inside
    exact .inl ⟨rfl, _, rfl, prefix_append _ _⟩
  | _ => cases inside

theorem output_literal (inside : state.literal = some value) {input : Bytes}
    (read : lexer.output state input = some tokens) :
    ∃ longer more, tokens = .string longer :: more ∧ value <+: longer := by
  induction input generalizing state value tokens with
  | nil =>
    cases state with
    | quoteSeen delimiter read' =>
      cases inside
      cases read
      exact ⟨value, [], rfl, prefix_refl _⟩
    | quoted | escaped => cases read
    | _ => cases inside
  | cons byte rest ih =>
    rcases lexStep_literal inside byte with ⟨silent, longer, still, grown⟩ | ⟨more, ended⟩
    · have next : lexer.step state byte = ((lexStep state byte).1, []) := Prod.ext rfl silent
      rw [lexer.output_cons_of_silent next] at read
      obtain ⟨last, more, isFirst, further⟩ := ih still read
      exact ⟨last, more, isFirst, grown.trans further⟩
    · obtain ⟨last, -, rfl⟩ := Option.map_eq_some_iff.mp read
      have written : (lexer.step state byte).2 = .string value :: more := ended
      rw [Transducer.run_cons, written]
      exact ⟨value, _, rfl, prefix_refl _⟩

section Quoted

variable (rest : Bytes)

theorem output_quoted_plain (notQuote : byte ≠ quote) (notEscape : byte ≠ escapeChar) :
    lexer.output (.quoted quote value) (byte :: rest) =
      lexer.output (.quoted quote (value ++ [byte])) rest := by
  have plain : lexer.step (.quoted quote value) byte = (.quoted quote (value ++ [byte]), []) := by
    change lexStep (.quoted quote value) byte = _
    rw [lexStep, if_neg notQuote, if_neg notEscape]
  exact lexer.output_cons_of_silent plain rest

theorem output_quoted_quote :
    lexer.output (.quoted quote value) (quote :: quote :: rest) =
      lexer.output (.quoted quote (value ++ [quote])) rest := rfl

theorem output_quoted_escape :
    lexer.output (.quoted quote value) (escapeChar :: byte :: rest) =
      lexer.output (.quoted quote (value ++ serverEscape byte)) rest := rfl

theorem output_quoted_end (separate : rest.head? ≠ some quote) :
    lexer.output (.quoted quote value) (quote :: rest) =
      (lexer.output .blank rest).map (.string value :: ·) := by
  have closed : lexer.output (.quoted quote value) (quote :: rest) =
      lexer.output (.quoteSeen quote value) rest := rfl
  rw [closed]
  cases rest with
  | nil => rfl
  | cons first rest =>
    have notQuote : first ≠ quote := fun same => separate (congrArg some same)
    have ends : lexStep (.quoteSeen quote value) first = startAfter [.string value] first := by
      rw [lexStep, if_neg notQuote]
    exact output_after_token ends rest

end Quoted

end SecureFusion.Server
