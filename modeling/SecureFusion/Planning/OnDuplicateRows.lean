import SecureFusion.Planning.OnDuplicate

/-!
# Rows after ON DUPLICATE KEY UPDATE

The planned assignments are compared with those the server would make, as trees over the
existing and the inserted row. Trees that agree for every meaning of the operators are equal.
The rewriter only makes a tree smaller: where it removes an operand, the two trees differ, and
where it keeps a column outside VALUES, one tree has the inserted value and the other the
existing one.
-/

namespace SecureFusion.Planning

open Library Sql Crypto Sinks Providers Outcome List

variable {op : String} {args : List DupExpr} {result right : DupExpr} {name : String}
  {left : DupExpr} {column : String} {form : String}

/-! ## Trees -/

def treeOperations : Operations RowExpr where
  literal := .value
  binary := .binaryOp
  function := .function
  form := .other

mutual

theorem eval_treeOperations :
    ∀ expr : RowExpr, expr.eval treeOperations .existing .inserted = expr
  | .existing _ | .inserted _ | .value _ => rfl
  | .binaryOp op left right => by
    simp only [RowExpr.eval, eval_treeOperations left, eval_treeOperations right]
    rfl
  | .function name args => by
    simp only [RowExpr.eval, evalAll_treeOperations args]
    rfl
  | .other form children => by
    simp only [RowExpr.eval, evalAll_treeOperations children]
    rfl

theorem evalAll_treeOperations :
    ∀ exprs : List RowExpr, RowExpr.evalAll treeOperations .existing .inserted exprs = exprs
  | [] => rfl
  | expr :: rest => by
    simp only [RowExpr.evalAll, eval_treeOperations expr, evalAll_treeOperations rest]

end

namespace RowExpr

mutual

/-- The number of nodes of a tree. -/
def size : RowExpr → Nat
  | .existing _ | .inserted _ | .value _ => 1
  | .binaryOp _ left right => size left + size right + 1
  | .function _ args => sizeAll args + 1
  | .other _ children => sizeAll children + 1

/-- The number of nodes of several trees. -/
def sizeAll : List RowExpr → Nat
  | [] => 0
  | expr :: rest => size expr + sizeAll rest

end

end RowExpr

/-! ## Expressions without references to the existing row -/

/-- An expression that uses columns only as arguments of VALUES, in lower case, and only literals
that are read as they are when they have been printed. -/
inductive Clean : DupExpr → Prop where
  | value {literal : ScalarValue} : reparseLiteral literal = .ok literal → Clean (.value literal)
  | inserted (column : String) : Clean (.function "values" [.identifier column])
  | binaryOp {op : String} {left right : DupExpr} :
      Clean left → Clean right → Clean (.binaryOp op left right)
  | function {name : String} {args : List DupExpr} :
      name ≠ "values" → (∀ arg ∈ args, Clean arg) → Clean (.function name args)
  | other {form : String} {children : List DupExpr} :
      (∀ child ∈ children, Clean child) → Clean (.other form children)

theorem clean_binaryOp_iff : Clean (.binaryOp op left right) ↔ Clean left ∧ Clean right :=
  ⟨fun clean => by cases clean with | binaryOp first second => exact ⟨first, second⟩,
    fun ⟨first, second⟩ => .binaryOp first second⟩

theorem clean_other_iff {children : List DupExpr} :
    Clean (.other form children) ↔ ∀ child ∈ children, Clean child :=
  ⟨fun clean => by cases clean with | other each => exact each, .other⟩

theorem clean_function_iff (ordinary : name ≠ "values") :
    Clean (.function name args) ↔ ∀ arg ∈ args, Clean arg := by
  constructor
  · intro clean
    cases clean with
    | inserted => exact absurd rfl ordinary
    | function _ each => exact each
  · exact .function ordinary

theorem clean_values_iff :
    Clean (.function "values" args) ↔ ∃ column, args = [.identifier column] := by
  constructor
  · intro clean
    cases clean with
    | inserted column => exact ⟨column, rfl⟩
    | function ordinary _ => exact absurd rfl ordinary
  · rintro ⟨column, rfl⟩
    exact .inserted column

/-! ## The rewriter -/

section Rewriter

variable {table : String} {columns : List String} {known : String → Bool}
  (names : ServerNames columns)

/-- How the result of the rewriter relates to the expression. -/
structure Rewritten (table : String) (known : String → Bool) (expr result : DupExpr) : Prop where
  /-- An expression without references is not removed. -/
  kept : Clean expr → isBadIdentifier table result = false
  /-- The planned tree is no larger than the one that the server has for the expression, and equal
  to it only without references. -/
  trees : ∀ planned meaning, createLogicalExpr columns known result = .ok planned →
    names.serverExpr expr = some meaning →
    planned.size ≤ meaning.size ∧ (planned = meaning ↔ Clean expr)

theorem rewriteFunction_of_ne (ordinary : name ≠ "values") (args : List DupExpr) :
    rewriteFunction (.function name args) = .ok (.function name args) := by
  unfold rewriteFunction
  split
  · rename_i same
    injection same with first
    exact absurd first ordinary
  · rfl

variable {names} {args' : List DupExpr}

theorem rewriteAll_spec {exprs results : List DupExpr} {planned meanings : List RowExpr}
    (each : ∀ expr ∈ exprs, ∀ result, rewrite table expr = .ok result →
      Rewritten names table known expr result)
    (rewritten : rewriteAll table exprs = .ok results)
    (plans : createLogicalExprs columns known results = .ok planned)
    (means : names.serverExprs exprs = some meanings) :
    RowExpr.sizeAll planned ≤ RowExpr.sizeAll meanings ∧ (planned = meanings ↔ ∀ expr ∈ exprs, Clean expr) := by
  induction exprs generalizing results planned meanings with
  | nil =>
    cases rewritten
    cases plans
    cases means
    simp
  | cons expr rest ih =>
    obtain ⟨result, first, others⟩ := bind_eq_ok_iff.mp rewritten
    obtain ⟨results, loop, same⟩ := bind_eq_ok_iff.mp others
    cases same
    obtain ⟨plan, planFirst, planOthers⟩ := bind_eq_ok_iff.mp plans
    obtain ⟨planned, planLoop, same⟩ := bind_eq_ok_iff.mp planOthers
    cases same
    obtain ⟨meaning, meanFirst, meanOthers⟩ := Option.bind_eq_some_iff.mp means
    obtain ⟨meanings, meanLoop, same⟩ := Option.bind_eq_some_iff.mp meanOthers
    cases same
    have here := each expr mem_cons_self result first
    have there := ih (forall_mem_cons.mp each).2 loop
      planLoop meanLoop
    have ⟨smaller, same⟩ := here.trees plan meaning planFirst meanFirst
    refine ⟨?_, ?_⟩
    · simp only [RowExpr.sizeAll]
      omega
    · rw [cons.injEq, same, there.2, forall_mem_cons]

theorem createLogicalExpr_identifier (names : ServerNames columns) {planned : RowExpr}
    (plans : createLogicalExpr columns known (.identifier name) = .ok planned) :
    planned = .inserted name ∧ names.resolve [name] = some name := by
  simp only [createLogicalExpr] at plans
  split at plans
  · rename_i member
    exact ⟨(Except.ok.inj plans).symm, names.column_self name member⟩
  · cases plans

theorem rewritten_identifier (name : String) :
    Rewritten names table known (.identifier name) (.identifier name) := by
  refine ⟨fun _ => rfl, fun planned meaning plans means => ?_⟩
  obtain ⟨rfl, resolved⟩ := createLogicalExpr_identifier names plans
  simp only [ServerNames.serverExpr, resolved, Option.map_some, Option.some.injEq] at means
  cases means
  refine ⟨Nat.le_refl _, ?_⟩
  constructor
  · intro same
    cases same
  · intro clean
    cases clean

theorem rewritten_of_error {expr : DupExpr} {failure : Failure}
    (rejected : createLogicalExpr columns known result = .error failure)
    (kept : Clean expr → isBadIdentifier table result = false) :
    Rewritten names table known expr result := by
  refine ⟨kept, fun planned meaning plans _ => ?_⟩
  rw [rejected] at plans
  cases plans

theorem rewritten_operand {operand : DupExpr} (spec : Rewritten names table known operand result)
    (part : ∀ meaning, names.serverExpr (.binaryOp op left right) = some meaning →
      ∃ smaller, names.serverExpr operand = some smaller ∧ smaller.size < meaning.size)
    (dirty : ¬ Clean (.binaryOp op left right)) :
    Rewritten names table known (.binaryOp op left right) result := by
  have less : ∀ planned meaning, createLogicalExpr columns known result = .ok planned →
      names.serverExpr (.binaryOp op left right) = some meaning →
      planned.size < meaning.size := by
    intro planned meaning plans means
    obtain ⟨smaller, meansPart, lower⟩ := part meaning means
    exact Nat.lt_of_le_of_lt (spec.trees planned smaller plans meansPart).1 lower
  refine ⟨fun clean => absurd clean dirty, fun planned meaning plans means => ?_⟩
  refine ⟨Nat.le_of_lt (less planned meaning plans means), iff_of_false ?_ dirty⟩
  rintro rfl
  exact Nat.lt_irrefl _ (less planned planned plans means)

theorem serverExpr_binaryOp_eq_some {meaning : RowExpr}
    (means : names.serverExpr (.binaryOp op left right) = some meaning) :
    ∃ first second, names.serverExpr left = some first ∧ names.serverExpr right = some second ∧
      meaning = .binaryOp op first second := by
  obtain ⟨first, meansLeft, others⟩ := Option.bind_eq_some_iff.mp means
  obtain ⟨second, meansRight, same⟩ := Option.bind_eq_some_iff.mp others
  exact ⟨first, second, meansLeft, meansRight, (Option.some.inj same).symm⟩

theorem rewritten_binaryOp {left' right' : DupExpr} (first : Rewritten names table known left left')
    (second : Rewritten names table known right right') :
    Rewritten names table known (.binaryOp op left right)
      (rewriteBadIdentifier table (.binaryOp op left' right')) := by
  simp only [rewriteBadIdentifier]
  by_cases badLeft : isBadIdentifier table left' = true
  · rw [if_pos badLeft]
    refine rewritten_operand second ?_ fun clean => ?_
    · intro meaning means
      obtain ⟨one, other, _, meansRight, rfl⟩ := serverExpr_binaryOp_eq_some means
      exact ⟨other, meansRight, by simp only [RowExpr.size]; omega⟩
    · rw [first.kept (clean_binaryOp_iff.mp clean).1] at badLeft
      cases badLeft
  rw [if_neg badLeft]
  by_cases badRight : isBadIdentifier table right' = true
  · rw [if_pos badRight]
    refine rewritten_operand first ?_ fun clean => ?_
    · intro meaning means
      obtain ⟨one, other, meansLeft, _, rfl⟩ := serverExpr_binaryOp_eq_some means
      exact ⟨one, meansLeft, by simp only [RowExpr.size]; omega⟩
    · rw [second.kept (clean_binaryOp_iff.mp clean).2] at badRight
      cases badRight
  rw [if_neg badRight]
  refine ⟨fun _ => rfl, fun planned meaning plans means => ?_⟩
  obtain ⟨plan, planLeft, others⟩ := bind_eq_ok_iff.mp plans
  obtain ⟨plan', planRight, same⟩ := bind_eq_ok_iff.mp others
  cases same
  obtain ⟨one, other, meansLeft, meansRight, rfl⟩ := serverExpr_binaryOp_eq_some means
  have ⟨lower, same⟩ := first.trees plan one planLeft meansLeft
  have ⟨lower', same'⟩ := second.trees plan' other planRight meansRight
  refine ⟨by simp only [RowExpr.size]; omega, ?_⟩
  rw [RowExpr.binaryOp.injEq, same, same', clean_binaryOp_iff]
  exact and_iff_right rfl

theorem rewritten_values (rewritten : rewriteAll table args = .ok args')
    (visited : rewriteFunction (.function "values" args') = .ok result) :
    Rewritten names table known (.function "values" args) (rewriteBadIdentifier table result) := by
  have ofIdentifier : ∀ name, args = [.identifier name] →
      rewriteBadIdentifier table result = .identifier name := by
    rintro name rfl
    cases rewritten
    cases visited
    rfl
  refine ⟨fun clean => ?_, fun planned meaning plans means => ?_⟩
  · obtain ⟨name, same⟩ := clean_values_iff.mp clean
    rw [ofIdentifier name same]
    rfl
  have isCall : isValues "values" = true := by decide
  simp only [ServerNames.serverExpr, isCall, if_true, Option.map_eq_some_iff] at means
  obtain ⟨column, resolved, rfl⟩ := means
  unfold ServerNames.valuesColumn at resolved
  split at resolved
  · rename_i name
    rw [ofIdentifier name rfl] at plans
    obtain ⟨rfl, found⟩ := createLogicalExpr_identifier names plans
    cases resolved.symm.trans found
    exact ⟨Nat.le_refl _, iff_of_true rfl (.inserted _)⟩
  · cases rewritten
    cases visited
    cases plans
  · cases resolved

theorem rewritten_function (ordinary : name ≠ "values")
    (noValues : ∀ name, known name = true → isValues name = false)
    (each : ∀ arg ∈ args, ∀ result, rewrite table arg = .ok result →
      Rewritten names table known arg result) (rewritten : rewriteAll table args = .ok args') :
    Rewritten names table known (.function name args) (.function name args') := by
  refine ⟨fun _ => rfl, fun planned meaning plans means => ?_⟩
  simp only [createLogicalExpr] at plans
  split at plans
  · rename_i isKnown
    obtain ⟨plans', planArgs, same⟩ := bind_eq_ok_iff.mp plans
    cases same
    simp only [ServerNames.serverExpr, noValues name isKnown, Bool.false_eq_true, if_false,
      Option.map_eq_some_iff] at means
    obtain ⟨meanings, meansArgs, rfl⟩ := means
    have ⟨lower, same⟩ := rewriteAll_spec each rewritten planArgs meansArgs
    refine ⟨by simp only [RowExpr.size]; omega, ?_⟩
    rw [RowExpr.function.injEq, same, clean_function_iff ordinary]
    exact and_iff_right rfl
  · cases plans

theorem rewritten_other {children children' : List DupExpr}
    (each : ∀ child ∈ children, ∀ result, rewrite table child = .ok result →
      Rewritten names table known child result)
    (rewritten : rewriteAll table children = .ok children') :
    Rewritten names table known (.other form children) (.other form children') := by
  refine ⟨fun _ => rfl, fun planned meaning plans means => ?_⟩
  obtain ⟨plans', planParts, same⟩ := bind_eq_ok_iff.mp plans
  cases same
  obtain ⟨meanings, meansParts, rfl⟩ := Option.map_eq_some_iff.mp means
  have ⟨lower, same⟩ := rewriteAll_spec each rewritten planParts meansParts
  refine ⟨by simp only [RowExpr.size]; omega, ?_⟩
  rw [RowExpr.other.injEq, same, clean_other_iff]
  exact and_iff_right rfl

theorem rewrite_spec (noValues : ∀ name, known name = true → isValues name = false) :
    ∀ expr result, rewrite table expr = .ok result → Rewritten names table known expr result
  | .identifier name, _, rfl => rewritten_identifier name
  | .compoundIdentifier _, _, rfl => rewritten_of_error rfl nofun
  | .value literal, _, rfl => by
    refine ⟨fun _ => rfl, fun planned meaning plans means => ?_⟩
    cases means
    have plans : (reparseLiteral literal).map RowExpr.value = .ok planned := plans
    cases read : reparseLiteral literal with
    | error failure =>
      rw [read] at plans
      cases plans
    | ok value =>
      rw [read] at plans
      cases plans
      refine ⟨Nat.le_refl _, ?_⟩
      rw [RowExpr.value.injEq]
      constructor
      · rintro rfl
        exact .value read
      · intro clean
        cases clean with
        | value same => exact Except.ok.inj (read.symm.trans same)
  | .wildcard, _, rfl => rewritten_of_error rfl fun _ => rfl
  | .binaryOp op left right, result, rewritten => by
    obtain ⟨left', first, others⟩ := bind_eq_ok_iff.mp rewritten
    obtain ⟨right', second, same⟩ := bind_eq_ok_iff.mp others
    cases same
    exact rewritten_binaryOp (rewrite_spec noValues left left' first)
      (rewrite_spec noValues right right' second)
  | .function name args, result, rewritten => by
    obtain ⟨args', inner, others⟩ := bind_eq_ok_iff.mp rewritten
    obtain ⟨visited, call, same⟩ := bind_eq_ok_iff.mp others
    cases same
    by_cases isCall : name = "values"
    · subst isCall
      exact rewritten_values inner call
    · rw [rewriteFunction_of_ne isCall] at call
      cases call
      exact rewritten_function isCall noValues (fun arg member =>
        have _ := sizeOf_lt_of_mem member
        rewrite_spec noValues arg) inner
  | .other form children, result, rewritten => by
    obtain ⟨children', inner, same⟩ := bind_eq_ok_iff.mp rewritten
    cases same
    exact rewritten_other (fun child member =>
      have _ := sizeOf_lt_of_mem member
      rewrite_spec noValues child) inner

end Rewriter

/-! ## Rows -/

section Rows

variable {V : Type} (operations : Operations V) (existingRow insertedRow : String → V)

theorem assign_of_notMem {assignments : List (String × RowExpr)}
    (absent : column ∉ assignments.map Prod.fst) :
    assign operations existingRow insertedRow assignments column = existingRow column := by
  induction assignments using reverseRecOn with
  | nil => rfl
  | append_singleton earlier last ih =>
    rw [map_append, mem_append, not_or] at absent
    have other : column ≠ last.1 := fun same => absent.2 (by simp [same])
    rw [assign, foldl_concat, Function.update_of_ne other]
    exact ih absent.1

theorem assign_of_last {earlier later : List (String × RowExpr)} {value : RowExpr}
    (last : column ∉ later.map Prod.fst) :
    assign operations existingRow insertedRow (earlier ++ (column, value) :: later) column =
      value.eval operations existingRow insertedRow := by
  induction later using reverseRecOn with
  | nil => rw [assign, foldl_concat, Function.update_self]
  | append_singleton between final ih =>
    rw [map_append, mem_append, not_or] at last
    have other : column ≠ final.1 := fun same => last.2 (by simp [same])
    rw [← cons_append, ← append_assoc, assign, foldl_concat, Function.update_of_ne other]
    exact ih last.1

end Rows

/-! ## Statements -/

/-- An assignment with the column and the trees that the planner and the server have for it. -/
structure ComparedAssignment where
  source : Assignment
  column : String
  planned : RowExpr
  meaning : RowExpr

namespace ComparedAssignment

def bound (compared : ComparedAssignment) : String × RowExpr :=
  (compared.column, compared.planned)

def meant (compared : ComparedAssignment) : String × RowExpr :=
  (compared.column, compared.meaning)

theorem exists_last {assignments : List ComparedAssignment}
    (assigned : column ∈ assignments.map ComparedAssignment.column) :
    ∃ earlier last later, assignments = earlier ++ last :: later ∧ last.column = column ∧
      column ∉ later.map ComparedAssignment.column := by
  induction assignments with
  | nil => simp at assigned
  | cons first rest ih =>
    by_cases later : column ∈ rest.map ComparedAssignment.column
    · obtain ⟨earlier, last, others, rfl, same, final⟩ := ih later
      exact ⟨first :: earlier, last, others, rfl, same, final⟩
    · rw [map_cons, mem_cons, or_iff_left later] at assigned
      exact ⟨[], first, rest, rfl, assigned.symm, later⟩

variable (assignments : List ComparedAssignment)

theorem map_fst_bound :
    (assignments.map bound).map Prod.fst = assignments.map ComparedAssignment.column := by
  rw [map_map]
  rfl

theorem map_fst_meant :
    (assignments.map meant).map Prod.fst = assignments.map ComparedAssignment.column := by
  rw [map_map]
  rfl

theorem assign_eq_iff :
    (∀ (V : Type) (operations : Operations V) (existingRow insertedRow : String → V),
      assign operations existingRow insertedRow (assignments.map bound) =
        assign operations existingRow insertedRow (assignments.map meant)) ↔
    ∀ earlier last later, assignments = earlier ++ last :: later →
      last.column ∉ later.map ComparedAssignment.column → last.planned = last.meaning := by
  constructor
  · rintro same earlier last later rfl final
    have rows := congrFun (same RowExpr treeOperations .existing .inserted) last.column
    rw [map_append, map_cons, map_append, map_cons, bound, meant,
      assign_of_last _ _ _ (by rw [map_fst_bound]; exact final),
      assign_of_last _ _ _ (by rw [map_fst_meant]; exact final),
      eval_treeOperations, eval_treeOperations] at rows
    exact rows
  · intro agree V operations existingRow insertedRow
    funext column
    by_cases assigned : column ∈ assignments.map ComparedAssignment.column
    · obtain ⟨earlier, last, later, rfl, rfl, final⟩ := exists_last assigned
      rw [map_append, map_cons, map_append, map_cons, bound, meant,
        assign_of_last _ _ _ (by rw [map_fst_bound]; exact final),
        assign_of_last _ _ _ (by rw [map_fst_meant]; exact final), agree earlier last later rfl final]
    · rw [assign_of_notMem _ _ _ (by rw [map_fst_bound]; exact assigned),
        assign_of_notMem _ _ _ (by rw [map_fst_meant]; exact assigned)]

end ComparedAssignment

open ComparedAssignment

section Statements

variable {table : String} {columns : List String} {known : String → Bool}
  {names : ServerNames columns} {assignments : List Assignment}

/-- The first part of the target names the column that the whole target names. -/
def ServerNames.KeepsTarget (names : ServerNames columns) (assignment : Assignment) : Prop :=
  ∀ part ∈ assignment.target.head?, names.column part = names.resolve assignment.target

/-- An assignment of the clause that no later one overrides. -/
def ServerNames.Final (names : ServerNames columns) (assignments : List Assignment)
    (assignment : Assignment) : Prop :=
  ∃ earlier later, assignments = earlier ++ assignment :: later ∧
    ∀ other ∈ later, names.resolve other.target ≠ names.resolve assignment.target

/-- The trees of an assignment, compared. -/
structure ServerNames.Compares (names : ServerNames columns) (compared : ComparedAssignment) :
    Prop where
  resolved : names.resolve compared.source.target = some compared.column
  eq_iff : compared.planned = compared.meaning ↔ Clean compared.source.value

theorem exists_compared (noValues : ∀ name, known name = true → isValues name = false)
    (keeps : ∀ assignment ∈ assignments, names.KeepsTarget assignment)
    {targets : List String} {exprs : List RowExpr} {meaning : List (String × RowExpr)}
    (parsed : List.Forall₂ (fun assignment target => parseTarget assignment.target = .ok target)
      assignments targets)
    (plans : List.Forall₂ (fun assignment expr => ∃ value,
      rewrite table assignment.value = .ok value ∧ createLogicalExpr columns known value = .ok expr)
      assignments exprs)
    (means : names.meaning assignments = some meaning) :
    ∃ compared : List ComparedAssignment,
      compared.map ComparedAssignment.source = assignments ∧
      names.assigned (targets.zip exprs) = some (compared.map ComparedAssignment.bound) ∧
      meaning = compared.map ComparedAssignment.meant ∧
      ∀ assignment ∈ compared, names.Compares assignment := by
  induction parsed generalizing exprs meaning with
  | nil =>
    cases plans
    cases means
    exact ⟨[], rfl, rfl, rfl, by simp⟩
  | @cons assignment target rest targets first _ ih =>
    cases plans with
    | @cons _ expr _ exprs planFirst planRest =>
    obtain ⟨value, rewritten, plan⟩ := planFirst
    rw [ServerNames.meaning, mapM_cons] at means
    obtain ⟨pair, meanFirst, others⟩ := Option.bind_eq_some_iff.mp means
    obtain ⟨pairs, meanRest, same⟩ := Option.bind_eq_some_iff.mp others
    cases same
    obtain ⟨column, resolved, others⟩ := Option.bind_eq_some_iff.mp meanFirst
    obtain ⟨tree, meant, same⟩ := Option.bind_eq_some_iff.mp others
    cases same
    obtain ⟨compared, sources, bound, rfl, each⟩ := ih
      (forall_mem_cons.mp keeps).2 planRest meanRest
    have target' : names.column target = some column := by
      rw [← resolved]
      refine keeps assignment mem_cons_self target ?_
      cases parts : assignment.target with
      | nil =>
        rw [parts] at first
        cases first
      | cons part _ =>
        rw [parts] at first
        cases first
        rfl
    refine ⟨⟨assignment, column, expr, tree⟩ :: compared, by rw [map_cons, sources], ?_, rfl, ?_⟩
    · rw [ServerNames.assigned] at bound ⊢
      rw [zip_cons_cons, mapM_cons, bound]
      simp only [target', Option.map_some]
      rfl
    · rw [forall_mem_cons]
      exact ⟨⟨resolved,
        ((rewrite_spec noValues assignment.value value rewritten).trees expr tree plan meant).2⟩, each⟩

theorem overrides_iff {last : ComparedAssignment} {later : List ComparedAssignment}
    (here : names.Compares last) (each : ∀ assignment ∈ later, names.Compares assignment) :
    (∀ other ∈ later.map ComparedAssignment.source,
      names.resolve other.target ≠ names.resolve last.source.target) ↔
    last.column ∉ later.map ComparedAssignment.column := by
  rw [forall_mem_map]
  simp only [mem_map, not_exists, not_and, here.resolved]
  refine forall₂_congr fun other member => ?_
  rw [(each other member).resolved]
  simp only [ne_eq, Option.some.injEq]

def counterNames : ServerNames ["n"] where
  column name := if name = "n" ∨ name = "N" then some "n" else none
  isTable name := name = "t"
  column_self name member := by
    rw [List.mem_singleton.mp member]
    rfl

def one : ScalarValue := .primitive .int64 (some 1)

def plusOne (target : List String) (expr : DupExpr) : Assignment :=
  ⟨target, .binaryOp "+" expr (.value one)⟩

/-- A text is appended to the inserted value of a column. -/
def appended (text : String) : Assignment :=
  ⟨["n"], .function "concat"
    [.function "values" [.identifier "n"], .value (.text .utf8 (some text))]⟩

/-- The tree of the inserted value with a text appended. -/
def appendedTree (text : String) : RowExpr :=
  .function "concat" [.inserted "n", .value (.text .utf8 (some text))]

def integers : Operations Int where
  literal
    | .primitive .int64 (some value) => value.toInt
    | _ => 0
  binary _ left right := left + right
  function _ _ := 0
  form _ _ := 0

end Statements

end SecureFusion.Planning
