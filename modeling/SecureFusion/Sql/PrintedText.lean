import SecureFusion.Sql.Expr
import SecureFusion.Sql.Identifiers

/-!
# Statements that are printed and read again

A statement that is turned back into text has its literals printed between single quotes, and
identifiers as they were written. The printer doubles a quote unless it takes it for one that is
escaped already: after a backslash, or next to another quote. The reader takes two quotes for one
and a backslash for an escape, so that only some texts come back as they were.
-/

namespace SecureFusion.Sql

/-- The quote around text literals. -/
def singleQuote : Char := '\x27'

/-- The printer of what stands between two quotes, given the character in front. -/
def escapeQuotes (quote previous : Char) : List Char → List Char
  | [] => []
  | [char] => if char = quote ∧ previous ≠ '\\' then [char, char] else [char]
  | char :: next :: rest =>
    if char ≠ quote then char :: escapeQuotes quote char (next :: rest)
    -- The printer keeps the backslash as the previous character here.
    else if previous = '\\' then char :: escapeQuotes quote previous (next :: rest)
    else if next = quote then char :: next :: escapeQuotes quote char rest
    else char :: char :: escapeQuotes quote char (next :: rest)

/-- What an escaped character stands for; a wildcard of patterns keeps its backslash. -/
def unescape : Char → List Char
  | '0' => ['\x00']
  | 'a' => ['\x07']
  | 'b' => ['\x08']
  | 'f' => ['\x0c']
  | 'n' => ['\n']
  | 'r' => ['\r']
  | 't' => ['\t']
  | 'Z' => ['\x1a']
  | '%' => ['\\', '%']
  | '_' => ['\\', '_']
  | char => [char]

/-- The reader of the content of a literal; none if the literal does not end where it was printed
to end. -/
def readContent : List Char → Option (List Char)
  | [] => some []
  | [char] => if char = '\\' ∨ char = singleQuote then none else some [char]
  | char :: next :: rest =>
    if char = '\\' then (readContent rest).map (unescape next ++ ·)
    else if char = singleQuote then
      if next = singleQuote then (readContent rest).map (char :: ·) else none
    else (readContent (next :: rest)).map (char :: ·)

/-- A text that is printed and read again. -/
def reparseText (text : String) : Option String :=
  (readContent (escapeQuotes singleQuote '\x00' text.toList)).map .ofList

/-- A text without backslashes and without two quotes in a row. -/
def isPlainText : List Char → Bool
  | [] => true
  | char :: rest =>
    char ≠ '\\' && (char ≠ singleQuote || rest.head? ≠ some singleQuote) && isPlainText rest

theorem readContent_cons {char : Char} (noEscape : char ≠ '\\') (noQuote : char ≠ singleQuote)
    (rest : List Char) : readContent (char :: rest) = (readContent rest).map (char :: ·) := by
  cases rest with
  | nil => simp [readContent, noEscape, noQuote]
  | cons next rest => rw [readContent, if_neg noEscape, if_neg noQuote]

theorem readContent_quotes (rest : List Char) :
    readContent (singleQuote :: singleQuote :: rest) =
      (readContent rest).map (singleQuote :: ·) := by
  rw [readContent, if_neg (by decide), if_pos rfl, if_pos rfl]

/-- The printed form of a plain text is read as the text. -/
theorem readContent_escapeQuotes {previous : Char} (noEscape : previous ≠ '\\')
    {text : List Char} (plain : isPlainText text = true) :
    readContent (escapeQuotes singleQuote previous text) = some text := by
  induction text generalizing previous with
  | nil => rfl
  | cons char rest ih =>
    simp only [isPlainText, Bool.and_eq_true, decide_eq_true_eq, Bool.or_eq_true] at plain
    obtain ⟨⟨notEscape, single⟩, plainRest⟩ := plain
    have read : readContent (escapeQuotes singleQuote char rest) = some rest := ih notEscape plainRest
    cases rest with
    | nil =>
      by_cases isQuote : char = singleQuote
      · rw [escapeQuotes, if_pos ⟨isQuote, noEscape⟩, isQuote]
        rfl
      · rw [escapeQuotes, if_neg fun both => isQuote both.1, readContent_cons notEscape isQuote]
        rfl
    | cons next rest =>
      rw [escapeQuotes]
      by_cases isQuote : char = singleQuote
      · have other : next ≠ singleQuote := by simpa [isQuote] using single
        rw [if_neg (not_not_intro isQuote), if_neg noEscape, if_neg other]
        rw [isQuote] at read ⊢
        rw [readContent_quotes, read]
        rfl
      · rw [if_pos isQuote, readContent_cons notEscape isQuote, read]
        rfl

/-- A plain text comes back as it was. -/
theorem reparseText_of_plain {text : String} (plain : isPlainText text.toList = true) :
    reparseText text = some text := by
  rw [reparseText, readContent_escapeQuotes (by decide) plain, Option.map_some,
    String.ofList_toList]

/-- The text of an identifier. -/
def Ident.printed (ident : Ident) : List Char :=
  if ident.quoted then '\x60' :: (escapeQuotes '\x60' '\x00' ident.value ++ ['\x60'])
  else ident.value

/-- The text of a name of several parts. -/
def printName (name : List Ident) : String :=
  String.ofList (List.intercalate ['.'] (name.map Ident.printed))

/-- A value that a printed statement has as it is. -/
def ScalarValue.isPlain : ScalarValue → Bool
  | .text _ (some content) => isPlainText content.toList
  | _ => true

namespace Expr

mutual

/-- All literals of an expression and of its subqueries are printed as they are. -/
def hasPlainTexts : Expr → Bool
  | .column _ => true
  | .literal value => value.isPlain
  | .aliased expr | .decrypt expr | .cast expr _ | .tryCast expr _ | .not expr | .isTrue expr
  | .isFalse expr | .isNotTrue expr | .isNotFalse expr => expr.hasPlainTexts
  | .binary left _ right => left.hasPlainTexts && right.hasPlainTexts
  | .between _ expr low high => expr.hasPlainTexts && low.hasPlainTexts && high.hasPlainTexts
  | .like _ _ _ expr pattern => expr.hasPlainTexts && pattern.hasPlainTexts
  | .inList _ expr list => expr.hasPlainTexts && havePlainTexts list
  | .kwSearch args | .function _ args => havePlainTexts args
  | .nested _ operands inner => havePlainTexts operands && havePlainTexts inner

/-- All literals of several expressions are printed as they are. -/
def havePlainTexts : List Expr → Bool
  | [] => true
  | expr :: rest => expr.hasPlainTexts && havePlainTexts rest

end

end Expr

end SecureFusion.Sql
