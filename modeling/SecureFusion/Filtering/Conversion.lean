import SecureFusion.Filtering.Resolver
import SecureFusion.Filtering.SplitLaw

/-!
# What the conversions keep

On a row where every converted leaf has kept its meaning, a filter tree is true exactly where its
expression is, and so is the server expression rebuilt from it. The conversions lose the flags of
negated tests, the case and escape flags of patterns, all but the outermost of nested casts, casts
of whole conditions, and the difference between false and unknown in tests for truth values. Under
a negation the rows where an operand is false count, so the condition carries the polarity.
-/

namespace SecureFusion.Filtering

open Library Sql IndexableFilterExpr Expr PhysicalExpr IndexableLogicalExpr Option

variable {expr : Expr} {semantics : Semantics} {read value : Truth} {leaf : IndexableLogicalExpr}
  {positive : Bool} {operator : Operator} {row : Row}

section Faithful

variable (semantics : Semantics) (row : Row)

/-- On a row, the conversion of a logical expression keeps what its place needs: where it is
true in a positive place, where it is false in a negative one. -/
def FaithfulLogical : (positive : Bool) → Expr → Prop
  | positive, .aliased expr => FaithfulLogical positive expr
  | positive, .decrypt expr => FaithfulLogical positive expr
  | positive, .cast expr type => FaithfulLogical positive expr ∧
    (semantics.castOrNull type (expr.eval semantics row)).truth = expr.truth semantics row
  | positive, .tryCast expr type => FaithfulLogical positive expr ∧
    (semantics.castOrNull type (expr.eval semantics row)).truth = expr.truth semantics row
  | positive, .binary left operator right =>
    match operator with
    | .and => FaithfulLogical positive left ∧ FaithfulLogical positive right
    | .or => FaithfulLogical positive left ∧ FaithfulLogical positive right
    | operator => (comparisonLogical semantics.cast left operator right).isSome →
      singleCastLogical left ∧ singleCastLogical right
  | _, .between negated expr low high => (betweenLogical semantics.cast expr low high).isSome →
    negated = false ∧ singleCastLogical expr
  | _, .like negated caseInsensitive escapeChar expr pattern =>
    (likeLogical semantics.cast expr pattern).isSome →
      negated = false ∧ caseInsensitive = false ∧ escapeChar = none ∧ singleCastLogical expr
  | _, .inList negated expr list => (inListLogical semantics.cast expr list).isSome →
    negated = false ∧ singleCastLogical expr
  | positive, .not expr => FaithfulLogical (!positive) expr
  | positive, .isTrue expr => FaithfulLogical positive expr ∧
    (positive = false → expr.truth semantics row ≠ .unknown)
  | positive, .isNotFalse expr => FaithfulLogical positive expr ∧
    (positive = true → expr.truth semantics row ≠ .unknown)
  | positive, .isFalse expr => FaithfulLogical (!positive) expr ∧
    (positive = false → expr.truth semantics row ≠ .unknown)
  | positive, .isNotTrue expr => FaithfulLogical (!positive) expr ∧
    (positive = true → expr.truth semantics row ≠ .unknown)
  | _, .column _ => True
  | _, .literal _ => True
  | _, .kwSearch _ => True
  | _, .function _ _ => True
  | _, .nested _ _ _ => True

/-- On a row, the conversion of a physical expression keeps what its place needs. -/
def FaithfulPhysical : (positive : Bool) → PhysicalExpr → Prop
  | positive, .cast expr type => FaithfulPhysical positive expr ∧
    (semantics.castOrNull type (expr.eval semantics row)).truth = expr.truth semantics row
  | positive, .tryCast expr type => FaithfulPhysical positive expr ∧
    (semantics.castOrNull type (expr.eval semantics row)).truth = expr.truth semantics row
  | positive, .binary left operator right =>
    match operator with
    | .and => FaithfulPhysical positive left ∧ FaithfulPhysical positive right
    | .or => FaithfulPhysical positive left ∧ FaithfulPhysical positive right
    | operator => (comparisonPhysical semantics.cast left operator right).isSome →
      singleCastPhysical left ∧ singleCastPhysical right
  | _, .like negated caseInsensitive expr pattern =>
    (likePhysical semantics.cast expr pattern).isSome →
      negated = false ∧ caseInsensitive = false ∧ singleCastPhysical expr
  | _, .inList negated expr list => (inListPhysical semantics.cast expr list).isSome →
    negated = false ∧ singleCastsPhysical expr
  | positive, .not expr => FaithfulPhysical (!positive) expr
  | positive, .decrypt expr => FaithfulPhysical positive expr
  | _, .column _ => True
  | _, .literal _ => True
  | _, .struct _ => True
  | _, .function _ _ => True

end Faithful

/-! ## Tests for truth values -/

theorem agree_isTrue (agree : Truth.Agree positive value read)
    (known : positive = false → value ≠ .unknown) :
    Truth.Agree positive (.ofBool (value = .true)) read := by
  revert positive value read; decide

theorem agree_isNotFalse (agree : Truth.Agree positive value read)
    (known : positive = true → value ≠ .unknown) :
    Truth.Agree positive (.ofBool (value ≠ .false)) read := by
  revert positive value read; decide

theorem agree_isFalse (agree : Truth.Agree (!positive) value read)
    (known : positive = false → value ≠ .unknown) :
    Truth.Agree positive (.ofBool (value = .false)) read.neg := by
  revert positive value read; decide

theorem agree_isNotTrue (agree : Truth.Agree (!positive) value read)
    (known : positive = true → value ≠ .unknown) :
    Truth.Agree positive (.ofBool (value ≠ .true)) read.neg := by
  revert positive value read; decide

theorem truth_getD_other {E : Type} {otherTruth : E → Truth} {leaf : Option (IndexableFilterExpr E)}
    {expr : E} (made : ∀ one, leaf = some one → one.truth semantics row otherTruth = value)
    (kept : otherTruth expr = value) :
    (leaf.getD (.other expr)).truth semantics row otherTruth = value := by
  cases leaf with
  | none => exact kept
  | some one => exact made one rfl

/-! ## Logical expressions -/

section Logical

theorem truth_of_comparisonLogical {left right : Expr}
    (made : comparisonLogical semantics.cast left operator right = some leaf)
    (single : singleCastLogical left ∧ singleCastLogical right) :
    leaf.truth semantics row (Expr.truth semantics row) =
      (Expr.binary left operator right).truth semantics row := by
  obtain ⟨accepts, is, same⟩ := truth_of_comparison
    (fun _ read => eval_of_asScalarValueLogical read)
    (fun _ read => eval_of_asScalarValueLogical read)
    (fun _ read => value_of_asColumnLogicalFrom read single.1)
    (fun _ read => value_of_asColumnLogicalFrom read single.2)
    (fun isValue => asColumnLogicalFrom_of_value isValue)
    (fun isValue => asColumnLogicalFrom_of_value isValue) made
  rw [same, truth_comparison semantics row left right is]

theorem truth_of_betweenLogical {low high : Expr}
    (made : betweenLogical semantics.cast expr low high = some leaf)
    (single : singleCastLogical expr) :
    leaf.truth semantics row (Expr.truth semantics row) =
      semantics.between (expr.eval semantics row) (low.eval semantics row)
        (high.eval semantics row) := by
  simp only [betweenLogical, bind_some_iff, some.injEq] at made
  obtain ⟨column, readColumn, lowValue, readLow, highValue, readHigh, rfl⟩ := made
  have atColumn : column.value semantics row = expr.eval semantics row :=
    value_of_asColumnLogicalFrom readColumn single
  have atLow : low.eval semantics row = lowValue := eval_of_asScalarValueLogical readLow
  have atHigh : high.eval semantics row = highValue := eval_of_asScalarValueLogical readHigh
  rw [← atColumn, atLow, atHigh]
  rfl

theorem truth_of_likeLogical {pattern : Expr}
    (made : likeLogical semantics.cast expr pattern = some leaf) (single : singleCastLogical expr) :
    leaf.truth semantics row (Expr.truth semantics row) =
      semantics.like false none (expr.eval semantics row) (pattern.eval semantics row) :=
  truth_of_patternMatch
    (fun _ read => value_of_asColumnLogicalFrom read single)
    (fun _ read => eval_of_asScalarValueLogical read) made

theorem truth_of_inListLogical {list : List Expr}
    (made : inListLogical semantics.cast expr list = some leaf) (single : singleCastLogical expr) :
    leaf.truth semantics row (Expr.truth semantics row) =
      semantics.inList (expr.eval semantics row) (Expr.evalList semantics row list) := by
  refine truth_of_membership (fun columns read => ?_)
    (fun _ read => evalList_of_mapM_asScalarValueLogical read) made
  rw [map_eq_some_iff] at read
  obtain ⟨column, readColumn, rfl⟩ := read
  exact value_of_asColumnLogicalFrom readColumn single

theorem truth_of_kwMatchLogical {args : List Expr} (made : kwMatchLogical args = some leaf) :
    leaf.truth semantics row (Expr.truth semantics row) =
      (Expr.kwSearch args).truth semantics row := by
  simp only [kwMatchLogical, bind_some_iff, some.injEq] at made
  obtain ⟨⟨columns, text⟩, split, rfl⟩ := made
  rw [Expr.truth, Expr.eval, split]
  exact (ScalarValue.truth_ofTruth _).symm

theorem truth_getD_decrypted {decrypted : Option Expr} (outer : ∀ whole, decrypted = some whole →
      whole.truth semantics row = expr.truth semantics row) :
    (decrypted.getD expr).truth semantics row = expr.truth semantics row := by
  cases decrypted with
  | none => rfl
  | some whole => exact outer whole rfl

theorem agree_ofExprBelow (decrypted : Option Expr) (expr : Expr) (positive : Bool)
    (outer : ∀ whole, decrypted = some whole →
      whole.truth semantics row = expr.truth semantics row)
    (faithful : FaithfulLogical semantics row positive expr) :
    Truth.Agree positive (expr.truth semantics row)
      ((ofExprBelow semantics.cast decrypted expr).truth semantics row
        (Expr.truth semantics row)) := by
  -- A subexpression is converted on its own.
  have fresh : ∀ {expr : Expr} (whole : Expr), none = some whole →
      whole.truth semantics row = expr.truth semantics row := by
    intro expr whole absent
    cases absent
  fun_induction ofExprBelow semantics.cast decrypted expr generalizing positive with
    try simp only [FaithfulLogical] at faithful
  | case1 expr ih =>
    rw [Expr.truth_decrypt]
    exact ih positive (fun whole same => by cases same; rw [Expr.truth_decrypt]) faithful
  | case2 => exact .refl _ _
  | case3 _ expr ih =>
    rw [truth_aliased]
    exact ih positive fresh faithful
  | case4 decrypted reference | case5 decrypted value =>
    exact .of_eq (truth_getD_decrypted outer).symm
  | case6 _ negated expr low high =>
    refine .of_eq (truth_getD_other (fun leaf made => ?_) rfl).symm
    have kept := faithful (by rw [made]; rfl)
    rw [truth_of_betweenLogical made kept.2, truth_between, kept.1]
    rfl
  | case7 _ left right ihLeft ihRight =>
    have first := ihLeft positive fresh faithful.1
    have second := ihRight positive fresh faithful.2
    rw [Expr.truth_and, IndexableFilterExpr.truth_and]
    exact first.conj second
  | case8 _ left right ihLeft ihRight =>
    have first := ihLeft positive fresh faithful.1
    have second := ihRight positive fresh faithful.2
    rw [Expr.truth_or, IndexableFilterExpr.truth_or]
    exact first.disj second
  | case9 _ left right operator =>
    refine .of_eq (truth_getD_other (fun leaf made => ?_) rfl).symm
    exact truth_of_comparisonLogical made (faithful (by rw [made]; rfl))
  | case10 decrypted negated caseInsensitive escapeChar expr pattern =>
    refine .of_eq (truth_getD_other (fun leaf made => ?_) (truth_getD_decrypted outer)).symm
    have kept := faithful (by rw [made]; rfl)
    rw [truth_of_likeLogical made kept.2.2.2, Expr.truth_like, kept.1, kept.2.1, kept.2.2.1]
    rfl
  | case11 decrypted negated expr list =>
    refine .of_eq (truth_getD_other (fun leaf made => ?_) (truth_getD_decrypted outer)).symm
    have kept := faithful (by rw [made]; rfl)
    rw [truth_of_inListLogical made kept.2, Expr.truth_inList, kept.1]
    rfl
  | case12 decrypted args =>
    exact .of_eq (truth_getD_other (fun leaf made => truth_of_kwMatchLogical made)
      (truth_getD_decrypted outer)).symm
  | case13 _ expr ih =>
    rw [Expr.truth_not, IndexableFilterExpr.truth_not]
    exact (ih (!positive) fresh faithful).neg
  | case14 _ expr ih =>
    rw [Expr.truth_isFalse, IndexableFilterExpr.truth_not]
    exact agree_isFalse (ih (!positive) fresh faithful.1) faithful.2
  | case15 _ expr ih =>
    rw [Expr.truth_isNotTrue, IndexableFilterExpr.truth_not]
    exact agree_isNotTrue (ih (!positive) fresh faithful.1) faithful.2
  | case16 _ expr ih =>
    rw [truth_isTrue]
    exact agree_isTrue (ih positive fresh faithful.1) faithful.2
  | case17 _ expr ih =>
    rw [truth_isNotFalse]
    exact agree_isNotFalse (ih positive fresh faithful.1) faithful.2
  | case18 _ expr type ih =>
    rw [Expr.truth_cast, faithful.2]
    exact ih positive fresh faithful.1
  | case19 _ expr type ih =>
    rw [Expr.truth_tryCast, faithful.2]
    exact ih positive fresh faithful.1
  | case20 decrypted name args | case21 decrypted name args =>
    exact .of_eq (truth_getD_decrypted outer).symm

end Logical

/-! ## Physical expressions -/

section Physical

variable {leaf : IndexablePhysicalExpr}

theorem truth_of_comparisonPhysical {left right : PhysicalExpr}
    (made : comparisonPhysical semantics.cast left operator right = some leaf)
    (single : singleCastPhysical left ∧ singleCastPhysical right) :
    leaf.truth semantics row (PhysicalExpr.truth semantics row) =
      (PhysicalExpr.binary left operator right).truth semantics row := by
  obtain ⟨accepts, is, same⟩ := truth_of_comparison
    (fun _ read => eval_of_asScalarValuePhysical read)
    (fun _ read => eval_of_asScalarValuePhysical read)
    (fun _ read => value_of_asColumnPhysical read single.1)
    (fun _ read => value_of_asColumnPhysical read single.2)
    (fun isValue => asColumnPhysical_of_value isValue)
    (fun isValue => asColumnPhysical_of_value isValue) made
  rw [same, truth_comparison semantics row left right is]

theorem truth_of_likePhysical {expr pattern : PhysicalExpr}
    (made : likePhysical semantics.cast expr pattern = some leaf) (single : singleCastPhysical expr)
    :
    leaf.truth semantics row (PhysicalExpr.truth semantics row) =
      semantics.like false none (expr.eval semantics row) (pattern.eval semantics row) :=
  truth_of_patternMatch
    (fun _ read => value_of_asColumnPhysical read single)
    (fun _ read => eval_of_asScalarValuePhysical read) made

theorem truth_of_inListPhysical {expr : PhysicalExpr} {list : List PhysicalExpr}
    (made : inListPhysical semantics.cast expr list = some leaf) (single : singleCastsPhysical expr)
    :
    leaf.truth semantics row (PhysicalExpr.truth semantics row) =
      semantics.inList (expr.eval semantics row) (PhysicalExpr.evalList semantics row list) :=
  truth_of_membership
    (fun _ read => value_of_asColumnsPhysical read single)
    (fun _ read => evalList_of_mapM_asScalarValuePhysical read) made

theorem agree_ofExpr_physical (expr : PhysicalExpr) (positive : Bool)
    (faithful : FaithfulPhysical semantics row positive expr) :
    Truth.Agree positive (expr.truth semantics row)
      ((IndexablePhysicalExpr.ofExpr semantics.cast expr).truth semantics row
        (PhysicalExpr.truth semantics row)) := by
  fun_induction IndexablePhysicalExpr.ofExpr semantics.cast expr generalizing positive with
    try simp only [FaithfulPhysical] at faithful
  | case1 left right ihLeft ihRight =>
    have first := ihLeft positive faithful.1
    have second := ihRight positive faithful.2
    rw [PhysicalExpr.truth_and, IndexableFilterExpr.truth_and]
    exact first.conj second
  | case2 left right ihLeft ihRight =>
    have first := ihLeft positive faithful.1
    have second := ihRight positive faithful.2
    rw [PhysicalExpr.truth_or, IndexableFilterExpr.truth_or]
    exact first.disj second
  | case3 left right operator =>
    refine .of_eq (truth_getD_other (fun leaf made => ?_) rfl).symm
    exact truth_of_comparisonPhysical made (faithful (by rw [made]; rfl))
  | case4 negated caseInsensitive expr pattern =>
    refine .of_eq (truth_getD_other (fun leaf made => ?_) rfl).symm
    have kept := faithful (by rw [made]; rfl)
    rw [truth_of_likePhysical made kept.2.2, PhysicalExpr.truth_like, kept.1, kept.2.1]
    rfl
  | case5 negated expr list =>
    refine .of_eq (truth_getD_other (fun leaf made => ?_) rfl).symm
    have kept := faithful (by rw [made]; rfl)
    rw [truth_of_inListPhysical made kept.2, PhysicalExpr.truth_inList, kept.1]
    rfl
  | case6 expr ih =>
    rw [PhysicalExpr.truth_not, IndexableFilterExpr.truth_not]
    exact (ih (!positive) faithful).neg
  | case7 expr ih =>
    rw [PhysicalExpr.truth_decrypt]
    exact ih positive faithful
  | case8 expr type ih =>
    rw [PhysicalExpr.truth_cast, faithful.2]
    exact ih positive faithful.1
  | case9 expr type ih =>
    rw [PhysicalExpr.truth_tryCast, faithful.2]
    exact ih positive faithful.1
  | case10 | case11 | case12 | case13 => exact .refl _ _

end Physical

/-! ## Back to the server -/

/-- An expression in which no condition is a keyword search. -/
def kwSearchFree : Expr → Bool
  | .kwSearch _ => false
  | .aliased expr => kwSearchFree expr
  | .decrypt expr => kwSearchFree expr
  | .cast expr _ => kwSearchFree expr
  | .tryCast expr _ => kwSearchFree expr
  | .not expr => kwSearchFree expr
  | .isTrue expr => kwSearchFree expr
  | .isFalse expr => kwSearchFree expr
  | .isNotTrue expr => kwSearchFree expr
  | .isNotFalse expr => kwSearchFree expr
  | .binary left operator right =>
    match operator with
    | .and => kwSearchFree left && kwSearchFree right
    | .or => kwSearchFree left && kwSearchFree right
    | _ => true
  | _ => true

section Server

variable {castTo : DataType → ScalarValue → Option ScalarValue}

theorem toAst_getD_other {leaf : Option IndexableLogicalExpr}
    (made : ∀ one, leaf = some one → one.toAst.isSome) :
    (IndexableLogicalExpr.toAst (leaf.getD (.other expr))).isSome := by
  cases leaf with
  | none => rfl
  | some one => exact made one rfl

theorem toAst_ofExprBelow (decrypted : Option Expr) (expr : Expr) (free : kwSearchFree expr) :
    (IndexableLogicalExpr.toAst (ofExprBelow castTo decrypted expr)).isSome := by
  fun_induction ofExprBelow castTo decrypted expr with
  | case1 expr ih => exact ih free
  | case2 | case4 | case5 | case20 | case21 => rfl
  | case3 _ expr ih => exact ih free
  | case6 _ negated expr low high =>
    refine toAst_getD_other fun leaf made => ?_
    simp only [betweenLogical, bind_some_iff, some.injEq] at made
    obtain ⟨column, _, lowValue, _, highValue, _, rfl⟩ := made
    rfl
  | case7 _ left right ihLeft ihRight | case8 _ left right ihLeft ihRight =>
    rw [kwSearchFree, Bool.and_eq_true] at free
    obtain ⟨first, isFirst⟩ := isSome_iff_exists.mp (ihLeft free.1)
    obtain ⟨second, isSecond⟩ := isSome_iff_exists.mp (ihRight free.2)
    unfold toAst at isFirst isSecond ⊢
    rw [toAstWith, isFirst, isSecond]
    rfl
  | case9 _ left right operator =>
    refine toAst_getD_other fun leaf made => ?_
    simp only [comparisonLogical, comparison, bind_some_iff, some.injEq] at made
    obtain ⟨_, _, _, _, _, _, rfl⟩ := made
    rfl
  | case10 decrypted negated caseInsensitive escapeChar expr pattern =>
    refine toAst_getD_other fun leaf made => ?_
    simp only [likeLogical, patternMatch, bind_some_iff] at made
    obtain ⟨column, _, value, _, made⟩ := made
    split at made
    case h_1 =>
      cases made
      rfl
    case h_2 => cases made
  | case11 decrypted negated expr list =>
    refine toAst_getD_other fun leaf made => ?_
    simp only [inListLogical, membership, bind_some_iff, some.injEq] at made
    obtain ⟨_, _, _, _, rfl⟩ := made
    rfl
  | case12 => cases free
  | case13 _ expr ih | case14 _ expr ih | case15 _ expr ih =>
    obtain ⟨sql, isSql⟩ := isSome_iff_exists.mp (ih free)
    unfold toAst at isSql ⊢
    rw [toAstWith, isSql]
    rfl
  | case16 _ expr ih | case17 _ expr ih | case18 _ expr type ih | case19 _ expr type ih =>
    exact ih free

end Server

theorem IndexableLogicalExpr.truth_toAst {tree : IndexableLogicalExpr} {sql : AstExpr}
    (rebuilt : tree.toAst = some sql) :
    sql.truth semantics row = tree.truth semantics row (Expr.truth semantics row) := by
  refine truth_toAstWith semantics row (fun expr sql isSql => ?_)
    (fun value => by rw [AstExpr.eval]) rebuilt
  cases isSql
  rw [AstExpr.truth, AstExpr.eval]
  rfl

namespace IndexResolver

variable {D : Type} (resolver : IndexResolver D)

theorem split_of_exact (exact_ : resolver.filterSupportedForExpr expr = .exact) :
    ∃ selectivity, (IndexableLogicalExpr.ofExpr resolver.castTo expr
      ).splitIntoSupportedUnsupported resolver.logicalSupportOptions resolver.statistics =
        (some (IndexableLogicalExpr.ofExpr resolver.castTo expr), none, selectivity) := by
  have others : ∀ indices unsupported, filterSupportedForExpr.tryIndices resolver indices
      unsupported ≠ .exact := by
    intro indices unsupported
    fun_induction filterSupportedForExpr.tryIndices resolver indices unsupported with
    | case1 => simp
    | case2 index rest unsupported left sel split ih => exact ih
    | case3 => simp
  have nothing : ((ofExpr resolver.castTo expr
      ).splitIntoSupportedUnsupported resolver.logicalSupportOptions
        resolver.statistics).2.1 = none := by
    unfold filterSupportedForExpr at exact_
    dsimp only at exact_
    split at exact_
    case h_1 split => rw [split]
    case h_2 => cases exact_
    case h_3 => exact absurd exact_ (others _ _)
  have whole := split_of_nothing_left nothing
  exact ⟨_, Prod.ext whole (Prod.ext nothing rfl)⟩

theorem send_of_exact {unparser : Unparser} (casts : resolver.castTo = semantics.cast)
    (free : kwSearchFree expr)
    (written : (IndexableLogicalExpr.ofExpr resolver.castTo expr).leaves.all unparser.leaf)
    (exact_ : resolver.filterSupportedForExpr expr = .exact) :
    ∃ sql, resolver.sendLogicalFilters unparser [expr] = some ⟨[sql], []⟩ ∧
      ∀ row, FaithfulLogical semantics row true expr →
        (sql.truth semantics row = .true ↔ expr.truth semantics row = .true) := by
  obtain ⟨selectivity, split⟩ := resolver.split_of_exact exact_
  obtain ⟨sql, isSql⟩ := isSome_iff_exists.mp
    (@toAst_ofExprBelow resolver.castTo none expr free)
  refine ⟨sql, ?_, fun row faithful => ?_⟩
  · have forwarded : toAst (ofExpr resolver.castTo expr) =
        some sql := isSql
    simp only [sendLogicalFilters, resolveIndicesForLogicalFilters, splitFilters, List.map_cons,
      List.map_nil, split, List.filterMap_cons, List.filterMap_nil, List.all_cons, List.all_nil,
      written, Bool.and_self, if_true, List.mapM_cons, List.mapM_nil, forwarded, reduce, map_none,
      queryIndices_none]
    rfl
  · have agree := agree_ofExprBelow none expr true (fun _ absent => by cases absent) faithful
    rw [casts] at isSql
    rw [truth_toAst isSql]
    exact agree.symm

end IndexResolver

/-- On rows where the conversions are faithful, the trees of both planners are true where their
expressions are, and a filter that is announced as exact, and that the unparser can write, reaches
the server as one expression that is true on the same rows. -/
theorem conversions_keep_meaning (semantics : Semantics) :
    (∀ row expr, FaithfulLogical semantics row true expr → expr.truth semantics row = .true →
      (IndexableLogicalExpr.ofExpr semantics.cast expr).truth semantics row
        (Expr.truth semantics row) = .true) ∧
    (∀ row expr, FaithfulPhysical semantics row true expr → expr.truth semantics row = .true →
      (IndexablePhysicalExpr.ofExpr semantics.cast expr).truth semantics row
        (PhysicalExpr.truth semantics row) = .true) ∧
    ∀ (D : Type) (resolver : IndexResolver D) (unparser : Unparser) expr,
      resolver.castTo = semantics.cast → kwSearchFree expr →
      (IndexableLogicalExpr.ofExpr resolver.castTo expr).leaves.all unparser.leaf →
      resolver.filterSupportedForExpr expr = .exact →
      ∃ sql, resolver.sendLogicalFilters unparser [expr] = some ⟨[sql], []⟩ ∧
        ∀ row, FaithfulLogical semantics row true expr →
          (sql.truth semantics row = .true ↔ expr.truth semantics row = .true) := by
  refine ⟨fun row expr faithful holds => ?_, fun row expr faithful holds => ?_,
    fun D resolver unparser expr casts free written exact_ =>
      resolver.send_of_exact casts free written exact_⟩
  · have agree := agree_ofExprBelow none expr true (fun _ absent => by cases absent) faithful
    exact agree.mp holds
  · have agree := agree_ofExpr_physical expr true faithful
    exact agree.mp holds

def partlyEncryptedTable : IndexResolver Empty where
  tableRef := ⟨"catalog", "schema", "table"⟩
  encryptedColumns := ["secret"]
  indices := []
  statistics := .forEmptyTable
  castTo := Semantics.basic.cast

def int32 (value : Int) : ScalarValue := .primitive .int32 (some (BitVec.ofInt 32 value))

def utf8 (text : String) : ScalarValue := .text .utf8 (some text)

/-- An unparser that writes no binary literals. -/
def textUnparser : Unparser where
  value
    | .bytes _ _ => false
    | _ => true
  expr _ := true
  dataType _ := true

/-- A comparison of a column with a 32-bit integer in the planner. -/
def exprEquals (column : String) (value : Int) : Expr :=
  .binary (.column (.fromName column)) .eq (.literal (int32 value))

/-- NOT (x = 2 OR x BETWEEN 3 AND 4) AND CAST(x AS boolean) IN (true), as both planners write
it, on a row with x = 1. -/
theorem conversions_keep_meaning_nested :
    let row : Row := fun _ => int32 1
    let x : Expr := .column (.fromName "x")
    let expr : Expr := .binary
      (.not (.binary (.binary x .eq (.literal (int32 2))) .or
        (.between false x (.literal (int32 3)) (.literal (int32 4))))) .and
      (.inList false (.cast x .boolean) [.literal (.boolean (some true))])
    let physical : PhysicalExpr := .binary
      (.not (.binary (.column "x") .eq (.literal (int32 2)))) .and
      (.inList false (.cast (.column "x") .boolean) [.literal (.boolean (some true))])
    (IndexableLogicalExpr.ofExpr Semantics.basic.cast expr).truth .basic row
        (Expr.truth .basic row) = .true ∧
      (IndexablePhysicalExpr.ofExpr Semantics.basic.cast physical).truth .basic row
        (PhysicalExpr.truth .basic row) = .true ∧
      ∃ sql, partlyEncryptedTable.sendLogicalFilters textUnparser
          [.not (.binary x .eq (.literal (int32 2)))] = some ⟨[sql], []⟩ ∧
        sql.truth .basic row = .true := by
  intro row x expr physical
  have keeps := conversions_keep_meaning .basic
  refine ⟨keeps.1 row expr ?_ (by decide), keeps.2.1 row physical ?_ (by decide), ?_⟩
  · simp [expr, x, FaithfulLogical, singleCastLogical, castFreeLogical]
  · simp [physical, FaithfulPhysical, singleCastPhysical, singleCastsPhysical, castFreePhysical]
  · obtain ⟨sql, resolved, same⟩ := keeps.2.2 Empty partlyEncryptedTable textUnparser
      (.not (.binary x .eq (.literal (int32 2)))) rfl rfl (by decide) (by decide)
    refine ⟨sql, resolved, (same row ?_).mpr (by decide)⟩
    simp [x, FaithfulLogical, singleCastLogical]

def columnX : Expr := .column (.fromName "x")

/-- Filters whose trees are not true on a row where they are, each with such a row. -/
def misreadFilters : List (Expr × Row) :=
  -- x NOT LIKE 'a' on 'b'
  [(.like true false none columnX (.literal (utf8 "a")), fun _ => utf8 "b"),
  -- x NOT IN (1) on 2
  (.inList true columnX [.literal (int32 1)], fun _ => int32 2),
  -- x ILIKE 'A' on 'a'
  (.like false true none columnX (.literal (utf8 "A")), fun _ => utf8 "a"),
  -- (x = 1) IS NOT TRUE on a null
  (.isNotTrue (.binary columnX .eq (.literal (int32 1))), fun _ => .null),
  -- NOT ((x = 1) IS TRUE) on a null
  (.not (.isTrue (.binary columnX .eq (.literal (int32 1)))), fun _ => .null),
  -- CAST(CAST(x AS boolean) AS int32) = 1 on 2
  (.binary (.cast (.cast columnX .boolean) (.primitive .int32)) .eq (.literal (int32 1)),
    fun _ => int32 2)]

/-- Physical filters whose trees are not true on a row where they are, each with such a row. -/
def misreadPhysicalFilters : List (PhysicalExpr × Row) :=
  [(.like true false (.column "x") (.literal (utf8 "a")), fun _ => utf8 "b"),
  (.inList true (.column "x") [.literal (int32 1)], fun _ => int32 2),
  (.like false true (.column "x") (.literal (utf8 "A")), fun _ => utf8 "a"),
  (.binary (.cast (.cast (.column "x") .boolean) (.primitive .int32)) .eq (.literal (int32 1)),
    fun _ => int32 2)]

/-- The misread filters are announced as exact, and the expression sent to the server is not
true on a row where the filter is; x NOT BETWEEN 1 AND 3 is misread on 5 by any index; and a
keyword search of a plain column and a binary literal are announced as exact but never sent. -/
theorem conversions_lose_rows :
    (∀ entry ∈ misreadFilters, entry.1.truth .basic entry.2 = .true ∧
      (IndexableLogicalExpr.ofExpr Semantics.basic.cast entry.1).truth .basic entry.2
        (Expr.truth .basic entry.2) ≠ .true ∧
      partlyEncryptedTable.filterSupportedForExpr entry.1 = .exact ∧
      (partlyEncryptedTable.resolveIndicesForLogicalFilters [entry.1]).map (fun result =>
        result.forwardedStatic.map fun sql => decide (sql.truth .basic entry.2 = .true)) =
          some [false]) ∧
    (∀ entry ∈ misreadPhysicalFilters, entry.1.truth .basic entry.2 = .true ∧
      (IndexablePhysicalExpr.ofExpr Semantics.basic.cast entry.1).truth .basic entry.2
        (PhysicalExpr.truth .basic entry.2) ≠ .true) ∧
    (let outside : Expr := .between true columnX (.literal (int32 1)) (.literal (int32 3))
      let row : Row := fun _ => int32 5
      outside.truth .basic row = .true ∧
        (IndexableLogicalExpr.ofExpr Semantics.basic.cast outside).truth .basic row
          (Expr.truth .basic row) = .false) ∧
    let search : Expr := .kwSearch [columnX, .literal (utf8 "a"), .literal (utf8 "BOOLEAN")]
    let binary : Expr := .binary columnX .eq (.literal (.bytes .binary (some [65])))
    ∀ filter ∈ [search, binary], partlyEncryptedTable.filterSupportedForExpr filter = .exact ∧
      (partlyEncryptedTable.sendLogicalFilters textUnparser [filter]).isNone := by
  decide +kernel

end SecureFusion.Filtering
