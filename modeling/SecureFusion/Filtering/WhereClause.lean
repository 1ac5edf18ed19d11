import SecureFusion.Library.Precedence
import SecureFusion.Filtering.Conversion

/-!
# The text of a where clause

A scan joins the server expressions of its static filters with AND, and appends the
results of its dynamic filters in the same way when it runs; filters pushed down to
the scan later are appended likewise. The clause becomes text when the query is
printed, without parentheses, and the server groups the text by precedence. Which
clauses survive that is decided by the kinds of their parts.
-/

namespace SecureFusion.Sql.AstExpr

open Library

/-- The connectives of an expression over its conditions. -/
def formula : AstExpr → Formula AstExpr
  | .binaryOp left op right =>
    match op with
    | .and => .and left.formula right.formula
    | .or => .or left.formula right.formula
    | op => .atom (.binaryOp left op right)
  | .unaryNot expr => .not expr.formula
  | leaf => .atom leaf

variable (left right : AstExpr)

@[simp] theorem formula_and : (left.and right).formula = .and left.formula right.formula := by
  rw [and, formula]

@[simp] theorem formula_or : (left.or right).formula = .or left.formula right.formula := by
  rw [or, formula]

/-- The words of an expression as the server receives them. -/
def text (expr : AstExpr) : List (Token AstExpr) := expr.formula.print

end SecureFusion.Sql.AstExpr

namespace SecureFusion.Filtering

open Library Sql

/-- The selection of a query with the result of one more dynamic filter. -/
def addExecuted (selection : Option AstExpr) (result : AstExpr) : Option AstExpr :=
  match selection with
  | some selection => some (selection.and result)
  | none => some result

/-- The clause of static filters and of executed ones. -/
def whereClause (statics executed : List AstExpr) : Option AstExpr :=
  executed.foldl addExecuted (reduce .and statics)

/-- The where clause of a scan of a table with some filters; none if a filter fails. -/
def IndexResolver.scan {D : Type} (resolver : IndexResolver D) (execute : D → Option AstExpr)
    (filters : List Expr) : Option (Option AstExpr) := do
  let result ← resolver.resolveIndicesForLogicalFilters filters
  let executed ← result.forwardedDynamic.mapM execute
  some (whereClause result.forwardedStatic executed)

theorem whereClause_eq_reduce (statics executed : List AstExpr) :
    whereClause statics executed = reduce .and (statics ++ executed) := by
  have appended : ∀ (results : List AstExpr) (selection : AstExpr),
      results.foldl addExecuted (some selection) = some (results.foldl .and selection) := by
    intro results
    induction results with
    | nil => intro selection; rfl
    | cons result results ih => intro selection; exact ih _
  cases statics with
  | cons first rest =>
    rw [whereClause, reduce, appended, List.cons_append, reduce, List.foldl_append]
  | nil =>
    cases executed with
    | nil => rfl
    | cons first rest => exact appended rest first

/-! ## Kinds of parts -/

@[simp] theorem conjoinable_and (k l : TextKind) :
    (k.and l).Conjoinable = (k.Conjoinable && l.Conjoinable) := by
  cases k <;> cases l <;> rfl

@[simp] theorem readable_and (k l : TextKind) :
    (k.and l).Readable = (k.Conjoinable && l.Conjoinable) := by
  cases k <;> cases l <;> rfl

def kind (expr : AstExpr) : TextKind := expr.formula.textKind

/-- The parts of a clause keep their meaning in it: a single part is read as it is, several
parts may each stand beside an AND. -/
def Joinable : List AstExpr → Prop
  | [part] => (kind part).Readable
  | parts => ∀ part ∈ parts, (kind part).Conjoinable

theorem conjoinable_foldl (first : AstExpr) (rest : List AstExpr) :
    (kind (rest.foldl .and first)).Conjoinable ↔
      ∀ part ∈ first :: rest, (kind part).Conjoinable := by
  induction rest generalizing first with
  | nil => simp
  | cons second rest ih =>
    rw [List.foldl_cons, ih]
    simp [kind, Formula.textKind, and_assoc]

theorem readable_iff_joinable {parts : List AstExpr} {clause : AstExpr}
    (joined : reduce .and parts = some clause) : (kind clause).Readable ↔ Joinable parts := by
  cases parts with
  | nil => cases joined
  | cons first rest =>
    cases joined
    induction rest using List.reverseRecOn with
    | nil => rfl
    | append_singleton before last _ =>
      have several : Joinable (first :: (before ++ [last])) ↔
          ∀ part ∈ first :: (before ++ [last]), (kind part).Conjoinable := by
        cases before <;> rfl
      rw [several, ← conjoinable_foldl, List.foldl_append]
      simp [kind, Formula.textKind]

/-! ## Trees -/

theorem kind_toAstWith {E : Type} {otherAst : E → Option AstExpr}
    {valueAst : ScalarValue → AstExpr}
    (others : ∀ expr sql, otherAst expr = some sql → kind sql = .literal)
    {tree : IndexableFilterExpr E} {sql : AstExpr}
    (rebuilt : tree.toAstWith otherAst valueAst = some sql) :
    kind sql = tree.formula.textKind := by
  induction tree generalizing sql with
  | and left right ihLeft ihRight | or left right ihLeft ihRight =>
    simp only [IndexableFilterExpr.toAstWith, bind_some_iff, Option.some.injEq] at rebuilt
    obtain ⟨leftSql, leftRebuilt, rightSql, rightRebuilt, rfl⟩ := rebuilt
    have atLeft := ihLeft leftRebuilt
    have atRight := ihRight rightRebuilt
    simp only [kind] at atLeft atRight
    simp [kind, Formula.textKind, IndexableFilterExpr.formula, atLeft, atRight]
  | not operand ih =>
    simp only [IndexableFilterExpr.toAstWith, bind_some_iff, Option.some.injEq] at rebuilt
    obtain ⟨operandSql, operandRebuilt, rfl⟩ := rebuilt
    have atOperand := ih operandRebuilt
    simp only [kind] at atOperand
    simp [kind, AstExpr.formula, Formula.textKind, IndexableFilterExpr.formula, atOperand]
  | eq column operator value =>
    cases rebuilt
    cases operator <;> rfl
  | between | inList | kwSearchLike =>
    cases rebuilt
    rfl
  | kwMatch => cases rebuilt
  | other expr => exact others expr sql rebuilt

/-- A clause means what its text means if its parts are joinable, and a clause that has no
condition twice only then; the kind of a part made from a tree is the kind of the tree. -/
theorem whereClause_recovered_iff {statics executed : List AstExpr} {clause : AstExpr}
    (joined : whereClause statics executed = some clause) :
    (Joinable (statics ++ executed) → clause.formula.Recovered) ∧
    (clause.formula.ReadOnce → clause.formula.Recovered → Joinable (statics ++ executed)) ∧
    (∀ (tree : IndexableLogicalExpr) sql, tree.toAst = some sql →
      kind sql = tree.formula.textKind) ∧
    ∀ (tree : IndexablePhysicalExpr) sql, tree.toAst = some sql →
      kind sql = tree.formula.textKind := by
  rw [whereClause_eq_reduce] at joined
  have readable := readable_iff_joinable joined
  refine ⟨fun parts => ?_, fun once recovered => ?_, fun tree sql rebuilt => ?_,
    fun tree sql rebuilt => ?_⟩
  · exact Formula.recovered_of_readable (readable.mpr parts)
  · exact readable.mp (Formula.readable_of_recovered once recovered)
  · refine kind_toAstWith (fun expr part isPart => ?_) rebuilt
    cases isPart
    rfl
  · exact kind_toAstWith (fun expr part isPart => by cases isPart) rebuilt

/-- A comparison of a column with a 32-bit integer on the server. -/
def astEquals (column : String) (value : Int) : AstExpr :=
  .binaryOp (.identifier column) .eq (.value (int32 value))

/-- The static filter a = 1 AND b = 2 with the executed filter NOT c = 3, in both directions. -/
theorem whereClause_recovered_conjunction :
    ∃ clause, whereClause [(astEquals "a" 1).and (astEquals "b" 2)]
        [.unaryNot (astEquals "c" 3)] = some clause ∧ clause.formula.Recovered ∧
      Joinable [(astEquals "a" 1).and (astEquals "b" 2), .unaryNot (astEquals "c" 3)] := by
  have joinable :
      Joinable [(astEquals "a" 1).and (astEquals "b" 2), .unaryNot (astEquals "c" 3)] := by
    intro part member
    simp only [List.mem_cons, List.not_mem_nil, or_false] at member
    rcases member with rfl | rfl <;> rfl
  have both := @whereClause_recovered_iff [(astEquals "a" 1).and (astEquals "b" 2)]
    [.unaryNot (astEquals "c" 3)] _ rfl
  refine ⟨_, rfl, both.1 joinable, both.2.1 ?_ (both.1 joinable)⟩
  simp [Formula.ReadOnce, AstExpr.and, AstExpr.formula, Formula.atoms, astEquals]

/-- A row with 1 in the column a and 0 in every other column. -/
def onlyA : Row := fun column => if column = "a" then int32 1 else int32 0

/-- The row with a = 1 satisfies the text of the clause for the filters a = 1 OR b = 2 and c = 3
but not the clause, and it satisfies the clause for NOT (a = 1 AND b = 2) but not its text. -/
theorem whereClause_regrouped :
    (∃ clause parsed, partlyEncryptedTable.scan (fun filter => nomatch filter)
        [.binary (exprEquals "a" 1) .or (exprEquals "b" 2), exprEquals "c" 3] =
          some (some clause) ∧
      Formula.parse clause.text = some parsed ∧
      parsed.eval (AstExpr.truth .basic onlyA) = .true ∧
      clause.truth .basic onlyA = .false) ∧
    ∃ clause parsed, partlyEncryptedTable.scan (fun filter => nomatch filter)
        [.not (.binary (exprEquals "a" 1) .and (exprEquals "b" 2))] = some (some clause) ∧
      Formula.parse clause.text = some parsed ∧
      parsed.eval (AstExpr.truth .basic onlyA) = .false ∧
      clause.truth .basic onlyA = .true := by
  refine ⟨⟨_, _, rfl, rfl, ?_, ?_⟩, ⟨_, _, rfl, rfl, ?_, ?_⟩⟩ <;> decide +kernel

end SecureFusion.Filtering
