import SecureFusion.Planning.Update

/-!
# Columns that keep their values

The check for a column that is assigned to itself compares only the names of two tables, the one of
the alias and the one of the column. For an alias of an alias it calls itself with the expression
that it was given, and never returns.
-/

namespace SecureFusion.Planning

open Sql

/-- An expression of the projection of an UPDATE, with its aliases. -/
inductive AliasedExpr where
  | column (reference : Column)
  | aliased (relation : Option TableReference) (name : String) (expr : AliasedExpr)
  | other (expr : Expr)

/-- Whether two table names agree on the components that both of them have. -/
def sameTable : TableReference → TableReference → Bool
  | .full catalog schema table, .full catalog' schema' table' =>
    catalog = catalog' && schema = schema' && table = table'
  | first, second => first.table = second.table &&
    (first.schema.isNone || second.schema.isNone || first.schema = second.schema)

namespace AliasedExpr

/-- The answer of the check if it calls itself fewer times than a number. -/
def isSimpleAlias (defaultRelation : TableReference) : Nat → AliasedExpr → Option Bool
  | 0, _ => none
  | depth + 1, .aliased relation name expr =>
    match expr with
    | .aliased inner innerName expr =>
      isSimpleAlias defaultRelation depth (.aliased relation name (.aliased inner innerName expr))
    | .column reference =>
      let outputRel := relation.getD defaultRelation
      let baseRel := reference.relation.getD defaultRelation
      some (outputRel.table = baseRel.table && reference.name = name)
    | .other _ => some false
  | _ + 1, _ => some false

def unaliased : AliasedExpr → AliasedExpr
  | .aliased _ _ expr => expr.unaliased
  | expr => expr

def outermostName : AliasedExpr → Option String
  | .aliased _ name _ => some name
  | _ => none

section Checks

variable (updated : TableReference) (expr : AliasedExpr)

/-- Without its aliases, an expression is a column of the updated table that has the name of the
outermost alias. -/
def IsKept : Prop :=
  ∃ reference, expr.unaliased = .column reference ∧
    sameTable (reference.relation.getD updated) updated ∧ expr.outermostName = some reference.name

def Returns (simple : Bool) : Prop := ∃ depth, isSimpleAlias updated depth expr = some simple

/-- The check returns, and finds the columns that keep their values. -/
def Checked : Prop := ∃ simple, expr.Returns updated simple ∧ (simple = true ↔ expr.IsKept updated)

/-- No alias is of an alias, and the name of the table of an alias tells whether a column with the
name of the alias is of the updated table. -/
def Comparable : AliasedExpr → Prop
  | .aliased _ _ (.aliased _ _ _) => False
  | .aliased relation name (.column reference) =>
    let baseRel := reference.relation.getD updated
    reference.name = name →
      ((relation.getD updated).table = baseRel.table ↔ sameTable baseRel updated)
  | _ => True

end Checks

variable {updated : TableReference} {expr : AliasedExpr} {relation : Option TableReference}
  {name : String}

theorem isSimpleAlias_aliased_aliased {inner : Option TableReference} {innerName : String}
    (depth : Nat) : isSimpleAlias updated depth (.aliased relation name
      (.aliased inner innerName expr)) = none := by
  induction depth with
  | zero => rfl
  | succ depth ih => exact ih

theorem not_returns {inner : Option TableReference} {innerName : String} {simple : Bool} :
    ¬ (aliased relation name (.aliased inner innerName expr)).Returns updated simple := by
  rintro ⟨depth, returned⟩
  cases (isSimpleAlias_aliased_aliased depth).symm.trans returned

/-- One call answers for everything but an alias of an alias. -/
theorem returns_answer_iff {answer simple : Bool}
    (answered : ∀ depth, isSimpleAlias updated (depth + 1) expr = some answer) :
    expr.Returns updated simple ↔ answer = simple := by
  constructor
  · rintro ⟨depth, returned⟩
    cases depth with
    | zero => cases returned
    | succ depth => exact Option.some.inj ((answered depth).symm.trans returned)
  · rintro rfl
    exact ⟨1, answered 0⟩

theorem returns_aliased_column {reference : Column} {simple : Bool} :
    (aliased relation name (.column reference)).Returns updated simple ↔
      (decide ((relation.getD updated).table = (reference.relation.getD updated).table) &&
        decide (reference.name = name)) = simple :=
  returns_answer_iff fun _ => rfl

theorem isKept_aliased_column {reference : Column} :
    (aliased relation name (.column reference)).IsKept updated ↔
      sameTable (reference.relation.getD updated) updated ∧ reference.name = name := by
  constructor
  · rintro ⟨found, same, ofTable, named⟩
    cases same
    exact ⟨ofTable, (Option.some.inj named).symm⟩
  · rintro ⟨ofTable, rfl⟩
    exact ⟨reference, rfl, ofTable, rfl⟩

theorem checked_of_not (answered : isSimpleAlias updated 1 expr = some false)
    (notKept : ¬ expr.IsKept updated) : expr.Checked updated :=
  ⟨false, ⟨1, answered⟩, nofun, fun kept => absurd kept notKept⟩

/-- The check returns the right answer if and only if no alias is of an alias and the name of the
table of the alias tells whether the column is of the updated table. -/
theorem checked_iff (updated : TableReference) (expr : AliasedExpr) :
    expr.Checked updated ↔ expr.Comparable updated := by
  cases expr with
  | column | other => exact iff_of_true (checked_of_not rfl (by rintro ⟨_, _, _, ⟨⟩⟩)) trivial
  | aliased relation name expr =>
    cases expr with
    | aliased => exact iff_of_false (fun ⟨_, returned, _⟩ => not_returns returned) id
    | column reference =>
      simp only [Checked, returns_aliased_column, isKept_aliased_column, exists_eq_left',
        Comparable, Bool.and_eq_true, decide_eq_true_eq, and_congr_left_iff]
    | other => exact iff_of_true (checked_of_not rfl (by rintro ⟨_, ⟨⟩, _⟩)) trivial

/-- An alias of an alias is never answered, and a column of another schema is taken for a column of
the table. -/
theorem checked_fails : let updated := TableReference.full "c" "shop" "items"
    let moved := aliased none "price" (.column ⟨some (.partially "old" "items"), "price"⟩)
    (∀ depth, isSimpleAlias updated depth
      (.aliased none "price" (.aliased none "p" (.column ⟨none, "price"⟩))) = none) ∧
    isSimpleAlias updated 1 moved = some true ∧ ¬ moved.IsKept updated :=
  ⟨isSimpleAlias_aliased_aliased, by decide,
    fun kept => absurd (isKept_aliased_column.mp kept).1 (by decide)⟩

/-- The expression that the planner assigns to a column, where aliases have no names. -/
def ofExpr (innerName : String) : Expr → AliasedExpr
  | .column reference => .column reference
  | .aliased expr => .aliased none innerName (ofExpr innerName expr)
  | expr => .other expr

/-- The planner's model of the check is the answer for the assigned expression under its alias. -/
theorem planning_isSimpleAlias_iff {provider : Providers.MySqlTableProvider}
    (isUpdated : provider.tableReference.table = updated.table) (innerName : String)
    (assigned : Expr) (simple : Bool) : Planning.isSimpleAlias provider name assigned = .ok simple ↔
      (aliased none name (ofExpr innerName assigned)).Returns updated simple := by
  cases assigned with
  | aliased expr => exact iff_of_false nofun not_returns
  | column reference =>
    have tables : decide ((reference.relation.map TableReference.table).getD updated.table =
        updated.table) = decide (updated.table = (reference.relation.getD updated).table) :=
      decide_eq_decide.mpr (by cases reference.relation <;> exact eq_comm)
    rw [ofExpr, returns_aliased_column, Planning.isSimpleAlias, isUpdated, tables, Except.ok.injEq]
    rfl
  | _ => exact (iff_of_eq (Except.ok.injEq _ _)).trans (returns_answer_iff fun _ => rfl).symm

end AliasedExpr

end SecureFusion.Planning
