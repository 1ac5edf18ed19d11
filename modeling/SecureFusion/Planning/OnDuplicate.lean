import SecureFusion.Providers.WritePlan
import SecureFusion.Sql.PrintedText

/-!
# Assignments for rows that exist

The clause ON DUPLICATE KEY UPDATE of an INSERT is rewritten as a syntax tree: a call of VALUES
becomes its argument, and an operand that names a column of the table is removed. The result is
printed, parsed again and planned against the inserted rows. For the server, a column stands for its
value in the existing row unless it is the argument of VALUES.
-/

namespace SecureFusion.Planning

open Library Sql Crypto Sinks Providers

/-! ## Syntax trees -/

/-- Expressions of the clause. Functions are named by one identifier. -/
inductive DupExpr where
  | identifier (name : String)
  | compoundIdentifier (parts : List String)
  | value (literal : ScalarValue)
  /-- An argument of a function that is no expression. -/
  | wildcard
  | binaryOp (op : String) (left right : DupExpr)
  | function (name : String) (args : List DupExpr)
  /-- Any other form: parentheses, unary operators, CASE and the like. -/
  | other (form : String) (children : List DupExpr)

/-- Replaces a call of VALUES by its first argument. The messages leave out the call. -/
def rewriteFunction : DupExpr → Evaluated DupExpr
  | .function "values" args =>
    match args with
    | [] => .error (.execution
        "Invalid VALUES function call in ON DUPLICATE KEY CLAUSE: empty arguments list")
    | .wildcard :: _ => .error (.execution
        "Invalid VALUES function call in ON DUPLICATE KEY CLAUSE: invalid argument found")
    | argument :: _ => .ok argument
  | expr => .ok expr

/-- Whether an expression is a column with the name of the table in front. -/
def isBadIdentifier (table : String) : DupExpr → Bool
  | .compoundIdentifier parts => parts.reverse[1]? = some table
  | _ => false

def rewriteBadIdentifier (table : String) : DupExpr → DupExpr
  | .binaryOp op left right =>
    if isBadIdentifier table left then right
    else if isBadIdentifier table right then left
    else .binaryOp op left right
  | expr => expr

/-- What the rewriter does at each expression after it has visited its parts. -/
def postVisitExpr (table : String) (expr : DupExpr) : Evaluated DupExpr := do
  let expr ← rewriteFunction expr
  .ok (rewriteBadIdentifier table expr)

mutual

/-- Rewrites an expression from the leaves up. -/
def rewrite (table : String) : DupExpr → Evaluated DupExpr
  | .binaryOp op left right => do
    let left ← rewrite table left
    let right ← rewrite table right
    postVisitExpr table (.binaryOp op left right)
  | .function name args => do
    let args ← rewriteAll table args
    postVisitExpr table (.function name args)
  | .other form children => do
    let children ← rewriteAll table children
    postVisitExpr table (.other form children)
  | expr => postVisitExpr table expr

def rewriteAll (table : String) : List DupExpr → Evaluated (List DupExpr)
  | [] => .ok []
  | expr :: rest => do
    let expr ← rewrite table expr
    let rest ← rewriteAll table rest
    .ok (expr :: rest)

end

/-! ## Meaning -/

/-- Expressions over the existing and the inserted row. -/
inductive RowExpr where
  | existing (column : String)
  | inserted (column : String)
  | value (literal : ScalarValue)
  | binaryOp (op : String) (left right : RowExpr)
  | function (name : String) (args : List RowExpr)
  | other (form : String) (children : List RowExpr)

/-- What operators, functions and other forms compute. -/
structure Operations (V : Type) where
  literal : ScalarValue → V
  binary : String → V → V → V
  function : String → List V → V
  form : String → List V → V

namespace RowExpr

variable {V : Type} (operations : Operations V) (existingRow insertedRow : String → V)

mutual

/-- The value of an expression on the existing and the inserted row. -/
def eval : RowExpr → V
  | .existing column => existingRow column
  | .inserted column => insertedRow column
  | .value literal => operations.literal literal
  | .binaryOp op left right => operations.binary op (eval left) (eval right)
  | .function name args => operations.function name (evalAll args)
  | .other form children => operations.form form (evalAll children)

def evalAll : List RowExpr → List V
  | [] => []
  | expr :: rest => eval expr :: evalAll rest

end

end RowExpr

/-- What the parser reads where a literal was printed. -/
def reparseLiteral : ScalarValue → Evaluated ScalarValue
  | .text layout (some text) =>
    match reparseText text with
    | some read => .ok (.text layout (some read))
    | none => .error (.execution "Unterminated string literal")
  | literal => .ok literal

/-- A plain text is read as it was printed. -/
theorem reparseLiteral_of_plain {layout : TextType} {text : String}
    (plain : isPlainText text.toList = true) :
    reparseLiteral (.text layout (some text)) = .ok (.text layout (some text)) := by
  rw [reparseLiteral, reparseText_of_plain plain]

mutual

/-- The planner of an expression over the inserted rows, which is printed and parsed again first.
The table has no name there. -/
def createLogicalExpr (columns : List String) (known : String → Bool) :
    DupExpr → Evaluated RowExpr
  | .identifier name =>
    if name ∈ columns then .ok (.inserted name)
    else .error (.execution ("No field named " ++ name))
  | .compoundIdentifier parts =>
    .error (.execution ("No field named " ++ ".".intercalate parts))
  | .value literal => (reparseLiteral literal).map .value
  | .wildcard => .error (.execution "Wildcard expression is not supported here")
  | .binaryOp op left right => do
    let left ← createLogicalExpr columns known left
    let right ← createLogicalExpr columns known right
    .ok (.binaryOp op left right)
  | .function name args =>
    if known name then do
      let args ← createLogicalExprs columns known args
      .ok (.function name args)
    else .error (.execution ("Invalid function '" ++ name ++ "'"))
  | .other form children => do
    let children ← createLogicalExprs columns known children
    .ok (.other form children)

def createLogicalExprs (columns : List String) (known : String → Bool) :
    List DupExpr → Evaluated (List RowExpr)
  | [] => .ok []
  | expr :: rest => do
    let expr ← createLogicalExpr columns known expr
    let rest ← createLogicalExprs columns known rest
    .ok (expr :: rest)

end

/-! ## The meaning for the server -/

/-- How the server finds columns and tables by their names, in any letter case. -/
structure ServerNames (columns : List String) where
  column : String → Option String
  isTable : String → Bool
  /-- A column is found by its own name. -/
  column_self : ∀ name ∈ columns, column name = some name

def isValues (name : String) : Bool := name.toList.map Char.toLower = "values".toList

namespace ServerNames

variable {columns : List String} (names : ServerNames columns)

def resolve (parts : List String) : Option String :=
  match parts.reverse with
  | [] => none
  | [name] => names.column name
  | name :: qualifier :: _ => if names.isTable qualifier then names.column name else none

def valuesColumn : List DupExpr → Option String
  | [.identifier name] => names.resolve [name]
  | [.compoundIdentifier parts] => names.resolve parts
  | _ => none

mutual

/-- What an expression means for the server, if it is valid. -/
def serverExpr : DupExpr → Option RowExpr
  | .identifier name => (names.resolve [name]).map .existing
  | .compoundIdentifier parts => (names.resolve parts).map .existing
  | .value literal => some (.value literal)
  | .wildcard => none
  | .binaryOp op left right => do
    let left ← serverExpr left
    let right ← serverExpr right
    some (.binaryOp op left right)
  | .function name args =>
    if isValues name then (names.valuesColumn args).map .inserted
    else (serverExprs args).map (.function name)
  | .other form children => (serverExprs children).map (.other form)

def serverExprs : List DupExpr → Option (List RowExpr)
  | [] => some []
  | expr :: rest => do
    let expr ← serverExpr expr
    let rest ← serverExprs rest
    some (expr :: rest)

end

end ServerNames

/-! ## Assignments -/

/-- An assignment of the clause. -/
structure Assignment where
  target : List String
  value : DupExpr

/-- The assigned columns and values that the planner adds to the inserted rows. -/
def planOnDuplicate (table : String) (columns : List String) (known : String → Bool)
    (assignments : List Assignment) : Evaluated (List (String × RowExpr)) := do
  let targets ← assignments.mapM (parseTarget ·.target)
  let values ← assignments.mapM (rewrite table ·.value)
  let exprs ← values.mapM (createLogicalExpr columns known)
  let _ ← tryProject (columns.map (⟨.value, ·⟩) ++ targets.map (⟨.duplicate, ·⟩))
  .ok (targets.zip exprs)

/-- The columns that the statement of the sink assigns. It has the planned targets in it. -/
def ServerNames.assigned {columns : List String} (names : ServerNames columns)
    (planned : List (String × RowExpr)) : Option (List (String × RowExpr)) :=
  planned.mapM fun assignment =>
    (names.column assignment.1).map fun column => (column, assignment.2)

def ServerNames.meaning {columns : List String} (names : ServerNames columns)
    (assignments : List Assignment) : Option (List (String × RowExpr)) :=
  assignments.mapM fun assignment => do
    let column ← names.resolve assignment.target
    let value ← names.serverExpr assignment.value
    some (column, value)

/-- Assigns from left to right. -/
def assign {V : Type} (operations : Operations V) (existingRow insertedRow : String → V)
    (assignments : List (String × RowExpr)) : String → V :=
  assignments.foldl
    (fun row assignment => Function.update row assignment.1
      (assignment.2.eval operations existingRow insertedRow))
    existingRow

end SecureFusion.Planning
