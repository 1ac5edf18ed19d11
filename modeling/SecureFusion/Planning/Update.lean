import SecureFusion.Planning.TableAccess
import SecureFusion.Providers.RowProjection

/-!
# Updates of rows

An UPDATE is executed as a query for the rows and one statement for each of them, which finds
the row by its old primary key. The planner drops the columns that are assigned to
themselves, and the additional data of new ciphertexts is computed from the old key.
-/

namespace SecureFusion.Planning

open Library Sql Crypto Filtering Providers Sinks Server Indices

/-! ## Plans -/

/-- An UPDATE, as the planner understands it: an assigned expression has the type of its column. -/
structure Update where
  assignments : List (String × Expr)
  selection : Option Expr

/-- The expression that a column is assigned; the last assignment counts. -/
def Update.assigned (update : Update) (name : String) : Option Expr :=
  update.assignments.reverse.lookup name

def Update.baseExpr (update : Update) (provider : MySqlTableProvider) (name : String) : Expr :=
  let relation := provider.tableReference
  (update.assigned name).getD
    (.column ⟨some (.full relation.catalog relation.schema relation.table), name⟩)

/-- The planner's expressions for all columns of the table. -/
def Update.baseProjection (update : Update) (provider : MySqlTableProvider) :
    List (String × Expr) :=
  provider.columnNames.map fun name => (name, update.baseExpr provider name)

/-- Whether the expression for a column is the column itself. The check of an alias of an alias calls
itself again with the same one. -/
def isSimpleAlias (provider : MySqlTableProvider) (name : String) : Expr → Evaluated Bool
  | .aliased _ => .error (.panic "stack overflow")
  | .column reference =>
    .ok ((reference.relation.map TableReference.table).getD provider.tableReference.table =
      provider.tableReference.table && reference.name = name)
  | _ => .ok false

def dropSimpleAliases (provider : MySqlTableProvider) :
    List (String × Expr) → Evaluated (List (String × Expr))
  | [] => .ok []
  | (name, expr) :: rest => do
    let simple ← isSimpleAlias provider name expr
    let others ← dropSimpleAliases provider rest
    .ok (if simple then others else (name, expr) :: others)

/-- The plan of an UPDATE: the changed columns with their expressions, and the columns of the input
of the sink. -/
structure UpdatePlan where
  modified : List (String × Expr)
  planned : List PlannedColumn

/-- Plans an UPDATE; an unknown column is an error. -/
def planUpdate (provider : MySqlTableProvider) (demands : IndexDemands) (update : Update) :
    Evaluated UpdatePlan :=
  match update.assignments.find? fun assignment => assignment.1 ∉ provider.columnNames with
  | some unknown => .error (.execution ("No field named " ++ unknown.1))
  | none => do
    let modified ← dropSimpleAliases provider (update.baseProjection provider)
    let planned ← provider.plan demands (.update (modified.map Prod.fst))
    .ok ⟨modified, planned⟩

def Update.newRow (update : Update) (semantics : Semantics) (row : Row) : Row := fun name =>
  ((update.assigned name).map fun expr => expr.eval semantics row).getD (row name)

section Plan

variable {provider : MySqlTableProvider} {update : Update} {semantics : Semantics} {row : Row}

theorem mem_baseProjection_iff {entry : String × Expr} :
    entry ∈ update.baseProjection provider ↔
      entry.1 ∈ provider.columnNames ∧ entry.2 = update.baseExpr provider entry.1 := by
  rw [Update.baseProjection, List.mem_map]
  constructor
  · rintro ⟨name, isColumn, rfl⟩
    exact ⟨isColumn, rfl⟩
  · rintro ⟨isColumn, same⟩
    exact ⟨entry.1, isColumn, by rw [← same]⟩

theorem eval_baseExpr (name : String) :
    (update.baseExpr provider name).eval semantics row = update.newRow semantics row name := by
  rw [Update.baseExpr, Update.newRow]
  cases update.assigned name with
  | none => rfl
  | some expr => rfl

theorem eval_of_isSimpleAlias {name : String} {expr : Expr}
    (simple : isSimpleAlias provider name expr = .ok true) :
    expr.eval semantics row = row name := by
  cases expr with
  | column reference =>
    simp only [isSimpleAlias, Except.ok.injEq, Bool.and_eq_true, decide_eq_true_eq] at simple
    rw [Expr.eval, simple.2]
  | _ => cases simple

theorem mem_dropSimpleAliases {entries modified : List (String × Expr)}
    (kept : dropSimpleAliases provider entries = .ok modified) (entry : String × Expr) :
    (entry ∈ modified ↔
      entry ∈ entries ∧ isSimpleAlias provider entry.1 entry.2 = .ok false) ∧
      (entry ∈ entries → entry ∉ modified → isSimpleAlias provider entry.1 entry.2 = .ok true) := by
  induction entries generalizing modified with
  | nil =>
    cases kept
    simp
  | cons first rest ih =>
    obtain ⟨name, expr⟩ := first
    simp only [dropSimpleAliases, Outcome.bind_eq_ok_iff] at kept
    obtain ⟨simple, isSimple, others, isOthers, same⟩ := kept
    cases same
    obtain ⟨members, dropped⟩ := ih isOthers
    cases simple with
    | true =>
      simp only [if_true, List.mem_cons]
      refine ⟨?_, ?_⟩
      · rw [members]
        constructor
        · rintro ⟨isIn, notSimple⟩
          exact ⟨.inr isIn, notSimple⟩
        · rintro ⟨rfl | isIn, notSimple⟩
          · rw [isSimple] at notSimple
            cases notSimple
          · exact ⟨isIn, notSimple⟩
      · rintro (rfl | isIn) absent
        · exact isSimple
        · exact dropped isIn absent
    | false =>
      simp only [Bool.false_eq_true, if_false, List.mem_cons, not_or]
      refine ⟨?_, ?_⟩
      · rw [members]
        constructor
        · rintro (rfl | ⟨isIn, notSimple⟩)
          · exact ⟨.inl rfl, isSimple⟩
          · exact ⟨.inr isIn, notSimple⟩
        · rintro ⟨rfl | isIn, notSimple⟩
          · exact .inl rfl
          · exact .inr ⟨isIn, notSimple⟩
      · rintro (rfl | isIn) ⟨notFirst, absent⟩
        · exact absurd rfl notFirst
        · exact dropped isIn absent

def Update.Changes (update : Update) (provider : MySqlTableProvider) : Prop :=
  ∃ name ∈ provider.columnNames, ∃ expr, update.assigned name = some expr ∧
    isSimpleAlias provider name expr = .ok false

/-- What the planner has found out about an UPDATE that it accepts. -/
structure Planned (provider : MySqlTableProvider) (demands : IndexDemands) (update : Update)
    (plan : UpdatePlan) : Prop where
  columns : ∀ entry ∈ plan.modified, entry.1 ∈ provider.columnNames
  values : ∀ entry ∈ plan.modified, ∀ semantics row,
    entry.2.eval semantics row = update.newRow semantics row entry.1
  kept : ∀ name ∈ provider.columnNames, name ∉ plan.modified.map Prod.fst →
    ∀ semantics row, update.newRow semantics row name = row name
  changes : plan.modified ≠ [] ↔ update.Changes provider
  planned : plan.planned = (plan.modified.map Prod.fst).map (⟨.value, ·⟩) ++
    ((plan.modified.map Prod.fst).filter fun name => name ∈ demands.updatesTracking).map
      (⟨.current, ·⟩) ++
    provider.primaryKey.map (⟨.filter, ·⟩) ++ demands.hiddenRowId.toList.map (⟨.current, ·⟩)
  distinct : (plan.modified.map Prod.fst).Nodup
  keyed : provider.primaryKey ≠ []

theorem planned_of_accepted {demands : IndexDemands} {plan : UpdatePlan}
    (accepted : planUpdate provider demands update = .ok plan) :
    Planned provider demands update plan := by
  unfold planUpdate at accepted
  split at accepted
  · cases accepted
  · simp only [Outcome.bind_eq_ok_iff] at accepted
    obtain ⟨modified, isModified, planned, isPlanned, same⟩ := accepted
    cases same
    have members := fun entry => (mem_dropSimpleAliases isModified entry).1
    have dropped := fun entry => (mem_dropSimpleAliases isModified entry).2
    have unique := isPlanned
    rw [MySqlTableProvider.plan] at unique
    split_ifs at unique with unkeyed
    obtain ⟨projected, isUnique, -⟩ := Outcome.bind_eq_ok_iff.mp unique
    rw [tryProject] at isUnique
    split_ifs at isUnique with nodup
    refine {
      columns := fun entry isIn => (mem_baseProjection_iff.mp ((members entry).mp isIn).1).1
      values := fun entry isIn _ _ => by
        rw [(mem_baseProjection_iff.mp ((members entry).mp isIn).1).2, eval_baseExpr]
      kept := fun name isColumn absent semantics row => ?_
      changes := ⟨fun some => ?_, ?_⟩
      planned := plan_update_eq isPlanned
      distinct := ?_
      keyed := unkeyed }
    · have simple := dropped (name, update.baseExpr provider name)
        (mem_baseProjection_iff.mpr ⟨isColumn, rfl⟩)
        fun isModified => absent (List.mem_map_of_mem isModified)
      rw [← @eval_baseExpr provider update]
      exact eval_of_isSimpleAlias simple
    · obtain ⟨entry, isIn⟩ := List.exists_mem_of_ne_nil _ some
      obtain ⟨inBase, notSimple⟩ := (members entry).mp isIn
      obtain ⟨isColumn, isExpr⟩ := mem_baseProjection_iff.mp inBase
      cases assigned : update.assigned entry.1 with
      | none =>
        rw [isExpr, Update.baseExpr, assigned] at notSimple
        simp [isSimpleAlias, TableReference.table] at notSimple
      | some expr =>
        rw [isExpr, Update.baseExpr, assigned] at notSimple
        exact ⟨entry.1, isColumn, expr, assigned, notSimple⟩
    · rintro ⟨name, isColumn, expr, assigned, notSimple⟩ none
      have inBase : (name, expr) ∈ update.baseProjection provider :=
        mem_baseProjection_iff.mpr ⟨isColumn, by rw [Update.baseExpr, assigned]; rfl⟩
      have isIn := (members (name, expr)).mpr ⟨inBase, notSimple⟩
      have nothing : modified = [] := none
      rw [nothing] at isIn
      cases isIn
    · rw [List.map_append, List.map_append] at nodup
      have values := nodup.of_append_left.of_append_left
      simpa [Function.comp_def, PlannedColumn.fieldName] using values

end Plan

end SecureFusion.Planning
