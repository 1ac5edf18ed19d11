import SecureFusion.Sql.Scalar

/-!
# Column names read from text

DataFusion reads the name of a column as SQL text: a sequence of identifiers joined
by periods, which are converted to lower case unless they are quoted. A text that is
no such sequence is a column name as it is.
-/

namespace SecureFusion.Sql

/-- The character classes of the tokenizer beyond those of ASCII. -/
structure CharClasses where
  isAlphabetic : Char → Bool
  isWhitespace : Char → Bool

def CharClasses.ascii : CharClasses := ⟨Char.isAlpha, Char.isWhitespace⟩

/-- An identifier of an SQL text. -/
structure Ident where
  value : List Char
  quoted : Bool
deriving DecidableEq, Repr

/-- What an identifier stands for: it is converted to lower case unless it is quoted. -/
def Ident.normalized (ident : Ident) : String :=
  String.ofList (if ident.quoted then ident.value else ident.value.map Char.toLower)

/-- What the tokenizer skips. -/
inductive Blank where
  | space | line | block (depth : Nat)

variable (classes : CharClasses)

/-- Skips blanks and comments; none if a comment does not end. -/
def skipBlank : Blank → List Char → Option (List Char)
  | .space, [] => some []
  | .space, '-' :: '-' :: rest => skipBlank .line rest
  | .space, '/' :: '*' :: rest => skipBlank (.block 0) rest
  | .space, char :: rest =>
    if classes.isWhitespace char then skipBlank .space rest else some (char :: rest)
  | .line, [] => some []
  | .line, '\n' :: rest => skipBlank .space rest
  | .line, _ :: rest => skipBlank .line rest
  | .block _, [] => none
  | .block 0, '*' :: '/' :: rest => skipBlank .space rest
  | .block (depth + 1), '*' :: '/' :: rest => skipBlank (.block depth) rest
  | .block depth, '/' :: '*' :: rest => skipBlank (.block (depth + 1)) rest
  | .block depth, _ :: rest => skipBlank (.block depth) rest

def isIdentifierStart (char : Char) : Bool :=
  classes.isAlphabetic char || char = '_' || char = '#' || char = '@'

def isIdentifierPart (char : Char) : Bool :=
  classes.isAlphabetic char || char.isDigit || char = '@' || char = '$' || char = '#' ||
    char = '_'

/-- Reads the rest of a quoted identifier, in which a quote is doubled. -/
def readQuoted (quote : Char) : List Char → Option (List Char × List Char)
  | [] => none
  | first :: rest =>
    if first = quote then
      match rest with
      | second :: others =>
        if second = quote then
          (readQuoted quote others).map fun (value, left) => (quote :: value, left)
        else some ([], rest)
      | [] => some ([], [])
    else (readQuoted quote rest).map fun (value, left) => (first :: value, left)

def readIdent : List Char → Option (Ident × List Char)
  | [] => none
  | first :: rest =>
    if first = '"' || first = '`' then
      (readQuoted first rest).map fun (value, left) => (⟨value, true⟩, left)
    else if isIdentifierStart classes first then
      some (⟨first :: rest.takeWhile (isIdentifierPart classes), false⟩,
        rest.dropWhile (isIdentifierPart classes))
    else none

/-- Reads identifiers joined by periods up to the end of the text. -/
def parseMultipartIdentifier : Nat → List Char → Option (List Ident)
  | 0, _ => none
  | fuel + 1, text => do
    let (ident, rest) ← readIdent classes (← skipBlank classes .space text)
    match ← skipBlank classes .space rest with
    | [] => some [ident]
    | '.' :: rest => do
      let idents ← parseMultipartIdentifier fuel rest
      some (ident :: idents)
    | _ => none

def Column.fromIdents : List String → Option Column
  | [name] => some ⟨none, name⟩
  | [table, name] => some ⟨some (.bare table), name⟩
  | [schema, table, name] => some ⟨some (.partially schema table), name⟩
  | [catalog, schema, table, name] => some ⟨some (.full catalog schema table), name⟩
  | _ => none

def Column.fromQualifiedName (flatName : String) : Column :=
  let idents := parseMultipartIdentifier classes (flatName.length + 1) flatName.toList
  match idents.bind fun idents => Column.fromIdents (idents.map Ident.normalized) with
  | some column => column
  | none => .fromName flatName

/-- Whether a table name that may leave out components refers to a table. -/
def TableReference.resolvedEq (reference : TableReference) (table : ResolvedTableReference) :
    Bool :=
  match reference with
  | .bare name => name = table.table
  | .partially schema name => schema = table.schema ∧ name = table.table
  | .full catalog schema name =>
    catalog = table.catalog ∧ schema = table.schema ∧ name = table.table

/-- The position of a column among the columns of a table. -/
def indexOfColumn (table : ResolvedTableReference) (names : List String) (column : Column) :
    Option Nat :=
  match column.relation with
  | some relation => if relation.resolvedEq table then names.idxOf? column.name else none
  | none => names.idxOf? column.name

end SecureFusion.Sql
