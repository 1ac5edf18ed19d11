import SecureFusion.Filtering.Conversion

/-!
# Rows that the forwarded filters keep

A scan sends the parts of its filters that the table answers, and the answers of the indices to
their parts. No row that satisfies the filters is lost if every split on the way is lossless and
every index answers its part with an expression that holds where the part does.
-/

namespace SecureFusion.Filtering

open Library Sql List IndexableFilterExpr

section Holds

variable {D : Type} (execute : D → Option AstExpr) (semantics : Semantics) (row : Row)

/-- The answer of an index holds on a row, a dynamic one if it is executed. -/
def IndexQueryStrategy.HoldsOn : IndexQueryStrategy D → Prop
  | .fixed sql => sql.truth semantics row = .true
  | .dynamic filter => ∀ sql, execute filter = some sql → sql.truth semantics row = .true

/-- All filters of a scan hold on a row, the dynamic ones if they are executed. -/
structure ResolveIndexResult.HoldsOn (result : ResolveIndexResult D) : Prop where
  fixed : ∀ sql ∈ result.forwardedStatic, sql.truth semantics row = .true
  dynamic : ∀ filter ∈ result.forwardedDynamic, ∀ sql, execute filter = some sql →
    sql.truth semantics row = .true

/-- All filters of a scan, seen as answers, have a property. -/
structure ResolveIndexResult.All (property : IndexQueryStrategy D → Prop)
    (result : ResolveIndexResult D) : Prop where
  fixed : ∀ sql ∈ result.forwardedStatic, property (.fixed sql)
  dynamic : ∀ filter ∈ result.forwardedDynamic, property (.dynamic filter)

variable {property : IndexQueryStrategy D → Prop}

theorem ResolveIndexResult.All.push {result : ResolveIndexResult D} (all : result.All property)
    {answer : IndexQueryStrategy D} (added : property answer) :
    (result.push answer).All property := by
  cases answer with
  | fixed sql =>
    have fixed := forall_mem_append.mpr ⟨all.fixed, forall_mem_singleton.mpr added⟩
    exact ⟨fixed, all.dynamic⟩
  | dynamic filter =>
    have dynamic := forall_mem_append.mpr ⟨all.dynamic, forall_mem_singleton.mpr added⟩
    exact ⟨all.fixed, dynamic⟩

end Holds

/-! ## Parts of a split -/

section Parts

variable {E : Type} {options : SupportOptions E} {statistics : TableStatistics}
  {property : Bool → IndexableFilterExpr E → Prop} {below : Bool} {tree : IndexableFilterExpr E}
  {α : Type} {combinator : α → α → α}

theorem SplitLaw.unsupported_holds (law : SplitLaw options statistics tree)
    {row : IndexableFilterExpr E → Truth} (satisfied : tree.eval row = .true)
    {unsupported : IndexableFilterExpr E}
    (part : (tree.splitIntoSupportedUnsupported options statistics).2.1 = some unsupported) :
    unsupported.eval row = .true := by
  have whole := law row
  rw [satisfied, splitEval, part] at whole
  exact (Truth.conj_eq_true _ _).mp whole.symm |>.2

theorem forall_recombine {property : α → Prop} {left right : Option α}
    (joins : ∀ {a b}, property a → property b → property (combinator a b))
    (onLeft : ∀ tree, left = some tree → property tree)
    (onRight : ∀ tree, right = some tree → property tree) :
    ∀ tree, recombine left right combinator = some tree → property tree := by
  cases left with
  | none =>
    cases right with
    | none => exact nofun
    | some b => exact onRight
  | some a =>
    cases right with
    | none => exact onLeft
    | some b =>
      rintro tree ⟨⟩
      exact joins (onLeft a rfl) (onRight b rfl)

theorem forall_reduce (property : α → Prop) {trees : List α}
    (joins : ∀ {a b}, property a → property b → property (combinator a b))
    (all : ∀ tree ∈ trees, property tree) {joined : α}
    (made : reduce combinator trees = some joined) : property joined := by
  cases trees with
  | nil => cases made
  | cons first rest =>
    cases made
    have atFirst := all first mem_cons_self
    have atRest := (forall_mem_cons.mp all).2
    clear all
    induction rest generalizing first with
    | nil => exact atFirst
    | cons second rest ih =>
      refine ih (combinator first second) ?_ (forall_mem_cons.mp atRest).2
      exact joins atFirst (atRest second mem_cons_self)

theorem splitOr_supported (left right : IndexableFilterExpr.Split E) :
    (IndexableFilterExpr.splitOr statistics left right).1 = none ∨
      (IndexableFilterExpr.splitOr statistics left right).1 = recombine left.1 right.1 .or := by
  simp only [splitOr]
  split_ifs <;> simp

def IndexableFilterExpr.IsLeaf (tree : IndexableFilterExpr E) : Prop := tree.formula = .atom tree

/-- A property that the answered trees have, and trees made of trees that have it, is one of the
part that is taken. -/
theorem forall_taken (property : IndexableFilterExpr E → Prop)
    (answered : ∀ node, (options.isSupported node statistics).isSome → property node)
    (joinsAnd : ∀ {a b}, property a → property b → property (.and a b))
    (joinsOr : ∀ {a b}, property a → property b → property (.or a b))
    (negates : options.supportsNot = true → ∀ {a}, property a → property (.not a))
    (tree : IndexableFilterExpr E) :
    ∀ part, (tree.splitIntoSupportedUnsupported options statistics).1 = some part →
      property part := by
  induction tree using split_induction options statistics with
  | answered tree supported =>
    rw [(split_answered supported).1]
    rintro part ⟨⟩
    exact answered tree supported
  | blocked tree unsupported isBlocked =>
    rw [(split_blocked unsupported isBlocked).1]
    exact nofun
  | conjunction left right unsupported ihLeft ihRight =>
    simp only [splitIntoSupportedUnsupported, unsupported]
    exact forall_recombine joinsAnd ihLeft ihRight
  | disjunction left right unsupported looks ihLeft ihRight =>
    simp only [splitIntoSupportedUnsupported, unsupported, looks, if_true]
    intro part isPart
    rcases splitOr_supported (left.splitIntoSupportedUnsupported options statistics)
      (right.splitIntoSupportedUnsupported options statistics) with nothing | joined
    · rw [nothing] at isPart
      cases isPart
    · rw [joined] at isPart
      exact forall_recombine joinsOr ihLeft ihRight part isPart
  | negation operand unsupported looks ih =>
    rw [(split_not unsupported looks).1]
    intro part isPart
    obtain ⟨inner, isInner, rfl⟩ := Option.map_eq_some_iff.mp isPart
    exact negates looks (ih inner isInner)

theorem supported_leaves
    (onlyLeaves : ∀ node, (options.isSupported node statistics).isSome → node.IsLeaf)
    (tree : IndexableFilterExpr E) :
    ∀ part, (tree.splitIntoSupportedUnsupported options statistics).1 = some part →
      ∀ leaf ∈ part.leaves, (options.isSupported leaf statistics).isSome := by
  refine forall_taken (∀ leaf ∈ ·.leaves, (options.isSupported leaf statistics).isSome)
    (fun node supported leaf isIn => ?_)
    (fun onA onB => forall_mem_append.mpr ⟨onA, onB⟩)
    (fun onA onB => forall_mem_append.mpr ⟨onA, onB⟩) (fun _ _ inside => inside) tree
  rw [leaves, onlyLeaves node supported] at isIn
  rw [mem_singleton.mp isIn]
  exact supported

/-- A property of trees, with whether there is a negation above them, that is the property of the
operands. A tree with a disjunction need not have it. -/
structure Inherits (property : Bool → IndexableFilterExpr E → Prop) : Prop where
  and_iff : ∀ {below a b}, property below (.and a b) ↔ property below a ∧ property below b
  or_operands : ∀ {below a b}, property below (.or a b) → property below a ∧ property below b
  or_joins : ∀ {below a b}, property below (.or a b) →
    ∀ {c d}, property below c → property below d → property below (.or c d)
  not_iff : ∀ {below a}, property below (.not a) ↔ property true a

theorem Inherits.split (inherits : Inherits property) (options : SupportOptions E)
    (statistics : TableStatistics) (holds : property below tree) :
    (∀ part, (tree.splitIntoSupportedUnsupported options statistics).1 = some part →
        property below part) ∧
      ∀ part, (tree.splitIntoSupportedUnsupported options statistics).2.1 = some part →
        property below part := by
  have joinsAnd : ∀ {below a b}, property below a → property below b → property below (.and a b) :=
    fun onA onB => inherits.and_iff.mpr ⟨onA, onB⟩
  induction tree using split_induction options statistics generalizing below with
  | answered tree supported =>
    rw [(split_answered supported).1, (split_answered supported).2]
    exact ⟨by rintro part ⟨⟩; exact holds, by rintro _ ⟨⟩⟩
  | blocked tree unsupported blocked =>
    rw [(split_blocked unsupported blocked).1, (split_blocked unsupported blocked).2]
    exact ⟨by rintro _ ⟨⟩, by rintro part ⟨⟩; exact holds⟩
  | conjunction left right unsupported ihLeft ihRight =>
    have onLeft := ihLeft (inherits.and_iff.mp holds).1
    have onRight := ihRight (inherits.and_iff.mp holds).2
    simp only [splitIntoSupportedUnsupported, unsupported]
    exact ⟨forall_recombine joinsAnd onLeft.1 onRight.1,
      forall_recombine joinsAnd onLeft.2 onRight.2⟩
  | disjunction left right unsupported looks ihLeft ihRight =>
    have onLeft := ihLeft (inherits.or_operands holds).1
    have onRight := ihRight (inherits.or_operands holds).2
    have joinsOr : ∀ {c d}, property below c → property below d → property below (.or c d) :=
      inherits.or_joins holds
    simp only [splitIntoSupportedUnsupported, unsupported, looks, if_true, splitOr]
    split_ifs
    · exact ⟨forall_recombine joinsOr onLeft.1 onRight.1,
        forall_recombine joinsOr onLeft.2 onRight.2⟩
    · exact ⟨forall_recombine joinsOr onLeft.1 onRight.1,
        forall_recombine joinsOr onLeft.1 onRight.2⟩
    · exact ⟨forall_recombine joinsOr onLeft.1 onRight.1,
        forall_recombine joinsOr onLeft.2 onRight.1⟩
    · exact ⟨by rintro _ ⟨⟩, forall_recombine joinsOr (forall_recombine joinsAnd onLeft.1 onLeft.2)
        (forall_recombine joinsAnd onRight.1 onRight.2)⟩
  | negation operand unsupported looks ih =>
    have inside := ih (inherits.not_iff.mp holds)
    rw [(split_not unsupported looks).1, (split_not unsupported looks).2]
    refine ⟨fun part isPart => ?_, fun part isPart => ?_⟩
    · obtain ⟨inner, isInner, rfl⟩ := Option.map_eq_some_iff.mp isPart
      exact inherits.not_iff.mpr (inside.1 inner isInner)
    · obtain ⟨inner, isInner, rfl⟩ := Option.map_eq_some_iff.mp isPart
      exact inherits.not_iff.mpr (inside.2 inner isInner)

theorem Inherits.optimizeCmp (inherits : Inherits property)
    (ranges : ∀ column first second low high,
      property below (.eq column first low) → property below (.eq column second high) →
        property below (.between column low high)) (holds : property below tree) :
    property below tree.optimizeCmp := by
  induction tree with
  | and left right ihLeft ihRight =>
    obtain ⟨onLeft, onRight⟩ := inherits.and_iff.mp holds
    rw [IndexableFilterExpr.optimizeCmp]
    split
    case h_1 merged isMerged =>
      rcases mergeCmp_cases isMerged with same | same | same | range
      · rw [same]
        exact holds
      · rw [same]
        exact onLeft
      · rw [same]
        exact onRight
      · obtain ⟨column, lower, upper, low, high, -, -, same, operands⟩ := range
        rw [same]
        rcases operands with ⟨rfl, rfl⟩ | ⟨rfl, rfl⟩
        · exact ranges column lower upper low high onLeft onRight
        · exact ranges column lower upper low high onRight onLeft
    case h_2 => exact inherits.and_iff.mpr ⟨ihLeft onLeft, ihRight onRight⟩
  | or left right ihLeft ihRight =>
    obtain ⟨onLeft, onRight⟩ := inherits.or_operands holds
    exact inherits.or_joins holds (ihLeft onLeft) (ihRight onRight)
  | _ => exact holds

end Parts

/-! ## Filters of a scan -/

namespace IndexResolver

variable {D ι : Type} (resolver : IndexResolver D) (asIndex : ι → EncryptedIndex D)
  {condition : ι → IndexableLogicalExpr → Prop}

/-- Offered to indices one after the other, a tree is split without loss each time, and the part
that an index answers meets a condition. -/
def PartsSatisfy (condition : ι → IndexableLogicalExpr → Prop) :
    List ι → Option IndexableLogicalExpr → Prop
  | index :: rest, some unsupported =>
    let split := unsupported.splitIntoSupportedUnsupported (asIndex index).logicalSupportOptions
      resolver.statistics
    Lossless (asIndex index).logicalSupportOptions resolver.statistics unsupported ∧
      (∀ supported, split.1 = some supported → condition index supported) ∧
      PartsSatisfy condition rest split.2.1
  | _, _ => True

/-- The tree of the parts of the filters that the table leaves, as it is offered to the
indices. -/
def offeredTree (filters : List Expr) : Option IndexableLogicalExpr :=
  (reduce .and ((resolver.splitFilters filters).filterMap fun split => split.2.1)).map
    IndexableFilterExpr.optimizeCmp

variable {property : IndexQueryStrategy D → Prop} {semantics : Semantics} {row : Row}
  {indices : List ι}
  (answers : ∀ index ∈ indices, ∀ (tree supported : IndexableLogicalExpr) answer,
    (tree.splitIntoSupportedUnsupported (asIndex index).logicalSupportOptions
      resolver.statistics).1 = some supported →
    condition index supported → (asIndex index).logicalQuery supported = some answer →
    supported.truth semantics row (Expr.truth semantics row) = .true → property answer)

include answers

theorem queryIndices_all {unsupported : Option IndexableLogicalExpr}
    (satisfy : resolver.PartsSatisfy asIndex condition indices unsupported)
    (satisfied : ∀ tree, unsupported = some tree →
      tree.truth semantics row (Expr.truth semantics row) = .true)
    {before after : ResolveIndexResult D} (holds : before.All property)
    (queried : resolver.queryIndices (indices.map asIndex) unsupported before = some after) :
    after.All property := by
  induction indices generalizing unsupported before with
  | nil =>
    cases queried
    exact holds
  | cons index rest ih =>
    cases unsupported with
    | none =>
      rw [queryIndices_none, Option.some.injEq] at queried
      exact queried ▸ holds
    | some tree =>
      obtain ⟨lossless, condition, later⟩ := satisfy
      have law := splitLaw_of_lossless lossless
      have onTree := satisfied tree rfl
      have left : ∀ other, (tree.splitIntoSupportedUnsupported
          (asIndex index).logicalSupportOptions resolver.statistics).2.1 = some other →
            other.truth semantics row (Expr.truth semantics row) = .true :=
        fun other isLeft => law.unsupported_holds onTree isLeft
      have answersLater := (forall_mem_cons.mp answers).2
      rw [map_cons, queryIndices] at queried
      split at queried
      case h_1 unsupported _ split =>
        rw [split] at later left
        exact ih answersLater later left holds queried
      case h_2 supported unsupported _ split =>
        simp only [bind_some_iff] at queried
        obtain ⟨answer, answered, queried⟩ := queried
        have isPart : (tree.splitIntoSupportedUnsupported (asIndex index).logicalSupportOptions
            resolver.statistics).1 = some supported := by rw [split]
        have onPart := law.supported_holds onTree isPart
        have answerHolds := answers index mem_cons_self tree supported answer isPart
          (condition supported isPart) answered onPart
        rw [split] at later left
        exact ih answersLater later left (holds.push answerHolds) queried

theorem resolve_all (casts : resolver.castTo = semantics.cast)
    (areIndices : resolver.indices = indices.map asIndex)
    (holding : ∀ sql : AstExpr, sql.truth semantics row = .true → property (.fixed sql))
    {filters : List Expr} {result : ResolveIndexResult D}
    (resolved : resolver.resolveIndicesForLogicalFilters filters = some result)
    (faithful : ∀ filter ∈ filters, FaithfulLogical semantics row true filter)
    (lossless : ∀ filter ∈ filters, Lossless resolver.logicalSupportOptions resolver.statistics
      (IndexableLogicalExpr.ofExpr resolver.castTo filter))
    (satisfy : resolver.PartsSatisfy asIndex condition indices (resolver.offeredTree filters))
    (satisfied : ∀ filter ∈ filters, filter.truth semantics row = .true) :
    result.All property := by
  have onTree : ∀ filter ∈ filters, (IndexableLogicalExpr.ofExpr resolver.castTo filter).truth
      semantics row (Expr.truth semantics row) = .true := by
    intro filter isIn
    have agree := agree_ofExprBelow none filter true (fun _ absent => by cases absent)
      (faithful filter isIn)
    rw [casts]
    exact agree.mp (satisfied filter isIn)
  simp only [resolveIndicesForLogicalFilters, bind_some_iff] at resolved
  obtain ⟨forwarded, rebuilt, queried⟩ := resolved
  rw [areIndices] at queried
  refine resolver.queryIndices_all asIndex answers satisfy ?_ ?_ queried
  · -- The parts that the table leaves hold, and so does their rewritten conjunction.
    intro tree offered
    obtain ⟨conjunction, joined, rfl⟩ := Option.map_eq_some_iff.mp offered
    refine optimizeCmp_holds (forall_reduce
      (·.truth semantics row (Expr.truth semantics row) = .true) ?_ ?_ joined)
    · exact fun onA onB => (Truth.conj_eq_true _ _).mpr ⟨onA, onB⟩
    intro part isPart
    obtain ⟨split, isSplit, isLeft⟩ := mem_filterMap.mp isPart
    obtain ⟨filter, isIn, rfl⟩ := mem_map.mp isSplit
    exact (splitLaw_of_lossless (lossless filter isIn)).unsupported_holds (onTree filter isIn)
      isLeft
  · refine ⟨fun sql isForwarded => ?_, fun _ isIn => by cases isIn⟩
    have related := (Rows.mapM_eq_some_iff _ _ _).mp rebuilt
    obtain ⟨part, isPart, isSql⟩ := Rows.exists_of_forall₂_right related isForwarded
    obtain ⟨split, isSplit, isSupported⟩ := mem_filterMap.mp isPart
    obtain ⟨filter, isIn, rfl⟩ := mem_map.mp isSplit
    refine holding sql ?_
    rw [IndexableLogicalExpr.truth_toAst isSql]
    exact (splitLaw_of_lossless (lossless filter isIn)).supported_holds (onTree filter isIn)
      isSupported

end IndexResolver

end SecureFusion.Filtering
