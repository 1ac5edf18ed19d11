import SecureFusion.Filtering.Conjuncts

/-!
# Leaves of a filter and the negations above them

What becomes of a leaf in a split depends on whether there is a negation above it. A split makes no
new leaves, and in a filter without disjunctions every leaf is either taken or left, by itself.
-/

namespace SecureFusion.Filtering

open Library Sql

namespace IndexableFilterExpr

variable {E : Type}

/-- All leaves have a property that also depends on whether they are below a negation. -/
def Each (property : Bool → IndexableFilterExpr E → Prop) :
    (below : Bool) → IndexableFilterExpr E → Prop
  | below, .and a b | below, .or a b => a.Each property below ∧ b.Each property below
  | _, .not a => a.Each property true
  | below, leaf => property below leaf

def isDisjunctionFree : IndexableFilterExpr E → Bool
  | .and a b => isDisjunctionFree a && isDisjunctionFree b
  | .or _ _ => false
  | .not a => isDisjunctionFree a
  | _ => true

variable {property other : Bool → IndexableFilterExpr E → Prop} {below : Bool}
  {tree : IndexableFilterExpr E}

theorem Each.imp (follows : ∀ below leaf, property below leaf → other below leaf)
    (each : tree.Each property below) : tree.Each other below := by
  induction tree generalizing below with
  | and a b ihA ihB | or a b ihA ihB => exact ⟨ihA each.1, ihB each.2⟩
  | not a ih => exact ih each
  | _ => exact follows _ _ each

theorem Each.and (each : tree.Each property below) (others : tree.Each other below) :
    tree.Each (fun below leaf => property below leaf ∧ other below leaf) below := by
  induction tree generalizing below with
  | and a b ihA ihB | or a b ihA ihB => exact ⟨ihA each.1 others.1, ihB each.2 others.2⟩
  | not a ih => exact ih each others
  | _ => exact ⟨each, others⟩

theorem each_true_congr (same : ∀ leaf, property true leaf ↔ other true leaf) :
    tree.Each property true ↔ tree.Each other true := by
  induction tree with
  | and a b ihA ihB | or a b ihA ihB => exact and_congr ihA ihB
  | not a ih => exact ih
  | _ => exact same _

theorem each_leaves_iff {property : IndexableFilterExpr E → Prop} :
    tree.Each (fun _ => property) below ↔ ∀ leaf ∈ tree.leaves, property leaf := by
  induction tree generalizing below with
  | and a b ihA ihB | or a b ihA ihB =>
    have both := @List.forall_mem_append _ property a.leaves b.leaves
    rw [← @ihA below, ← @ihB below] at both
    exact both.symm
  | not a ih => exact ih
  | _ =>
    exact (@List.forall_mem_singleton _ property _).symm

theorem each_recombine_iff {a b : Option (IndexableFilterExpr E)}
    {combinator : IndexableFilterExpr E → IndexableFilterExpr E → IndexableFilterExpr E}
    (joins : ∀ a b, (combinator a b).Each property below ↔
      a.Each property below ∧ b.Each property below) :
    (∀ part, recombine a b combinator = some part → part.Each property below) ↔
      (∀ part, a = some part → part.Each property below) ∧
        ∀ part, b = some part → part.Each property below := by
  cases a with
  | none => cases b <;> simp [recombine]
  | some a =>
    cases b with
    | none => simp [recombine]
    | some b => simp [recombine, joins]

section Splits

variable {options : SupportOptions E} {statistics : TableStatistics}

theorem inherits_each (property : Bool → IndexableFilterExpr E → Prop) :
    Inherits fun below tree => tree.Each property below where
  and_iff := Iff.rfl
  or_operands := id
  or_joins _ _ _ onC onD := ⟨onC, onD⟩
  not_iff := Iff.rfl

theorem inherits_isDisjunctionFree :
    Inherits fun _ (tree : IndexableFilterExpr E) => tree.isDisjunctionFree = true where
  and_iff := Bool.and_eq_true_iff
  or_operands := nofun
  or_joins := nofun
  not_iff := Iff.rfl

theorem isDisjunctionFree_split (free : tree.isDisjunctionFree = true) :
    ∀ part, (tree.splitIntoSupportedUnsupported options statistics).2.1 = some part →
      part.isDisjunctionFree = true :=
  (@Inherits.split _ _ false tree inherits_isDisjunctionFree options statistics free).2

/-- A leaf that is taken in a filter without disjunctions: it is supported, and if it is below a
negation, the index looks into negations. -/
def takes (options : SupportOptions E) (statistics : TableStatistics) (below : Bool)
    (leaf : IndexableFilterExpr E) : Bool :=
  (options.isSupported leaf statistics).isSome && (!below || options.supportsNot)

theorem each_split_iff
    (onlyLeaves : ∀ node, (options.isSupported node statistics).isSome → node.IsLeaf)
    (free : tree.isDisjunctionFree = true) (inside : below = true → options.supportsNot = true) :
    ((∀ part, (tree.splitIntoSupportedUnsupported options statistics).1 = some part →
        part.Each property below) ∧
      ∀ part, (tree.splitIntoSupportedUnsupported options statistics).2.1 = some part →
        part.Each other below) ↔
      tree.Each (fun below leaf =>
        if takes options statistics below leaf then property below leaf else other below leaf)
        below := by
  -- A leaf is its own taken or left part.
  have atLeaf : ∀ {below : Bool} {leaf : IndexableFilterExpr E}, Blocked options leaf →
      (below = true → options.supportsNot = true) →
      (((∀ part, (leaf.splitIntoSupportedUnsupported options statistics).1 = some part →
          part.Each property below) ∧
        ∀ part, (leaf.splitIntoSupportedUnsupported options statistics).2.1 = some part →
          part.Each other below) ↔
        if takes options statistics below leaf then leaf.Each property below
        else leaf.Each other below) := by
    intro below leaf blocked inside
    have looks : (!below || options.supportsNot) = true := by
      cases below with
      | false => rfl
      | true => exact inside rfl
    cases supported : options.isSupported leaf statistics with
    | none =>
      have left := split_blocked supported blocked
      rw [left.1, left.2, takes, supported]
      simp
    | some selectivity =>
      have taken := split_answered (by rw [supported]; rfl)
      rw [taken.1, taken.2, takes, supported, looks]
      simp
  induction tree generalizing below with
  | and a b ihA ihB =>
    rw [isDisjunctionFree, Bool.and_eq_true] at free
    have onLeft := ihA free.1 inside
    have onRight := ihB free.2 inside
    rw [(split_and onlyLeaves a b).1, (split_and onlyLeaves a b).2,
      each_recombine_iff fun _ _ => Iff.rfl, each_recombine_iff fun _ _ => Iff.rfl,
      and_and_and_comm]
    exact and_congr onLeft onRight
  | or => cases free
  | not a ih =>
    have unsupported := @unanswered _ options statistics onlyLeaves (.not a) nofun
    cases looks : options.supportsNot with
    | true =>
      have within := @ih true free fun _ => looks
      rw [(split_not unsupported looks).1, (split_not unsupported looks).2]
      simp only [Option.map_eq_some_iff, forall_exists_index, and_imp, forall_apply_eq_imp_iff₂]
      exact within
    | false =>
      have left := split_blocked unsupported (show Blocked options (.not a) from looks)
      have untaken : ∀ leaf, takes options statistics true leaf = false := by
        intro leaf
        rw [takes, looks, Bool.not_true, Bool.or_self, Bool.and_false]
      rw [left.1, left.2]
      have same : a.Each other true ↔ a.Each (fun below leaf =>
          if takes options statistics below leaf then property below leaf else other below leaf)
          true := by
        refine each_true_congr fun leaf => ?_
        rw [untaken leaf]
        exact Iff.rfl
      constructor
      · intro parts
        exact same.mp (parts.2 _ rfl)
      · intro each
        exact ⟨nofun, by rintro part ⟨⟩; exact same.mpr each⟩
  | _ => exact atLeaf trivial inside

end Splits

/-! ## Conjunctions and comparisons -/

theorem each_reduce_iff {trees : List (IndexableFilterExpr E)} :
    (∀ tree, reduce .and trees = some tree → tree.Each property below) ↔
      ∀ tree ∈ trees, tree.Each property below := by
  have folded : ∀ (rest : List (IndexableFilterExpr E)) (first : IndexableFilterExpr E),
      (rest.foldl .and first).Each property below ↔
        first.Each property below ∧ ∀ tree ∈ rest, tree.Each property below := by
    intro rest
    induction rest with
    | nil => simp
    | cons second rest ih =>
      intro first
      rw [List.foldl_cons, ih, List.forall_mem_cons, ← and_assoc]
      exact Iff.rfl
  cases trees with
  | nil => exact ⟨nofun, nofun⟩
  | cons first rest =>
    rw [List.forall_mem_cons, ← folded]
    exact ⟨fun each => each _ rfl, by rintro each tree ⟨⟩; exact each⟩

theorem each_optimizeCmp_iff
    (comparisons : ∀ column operator value, property false (.eq column operator value))
    (ranges : ∀ column low high, property false (.between column low high)) :
    tree.optimizeCmp.Each property false ↔ tree.Each property false := by
  refine ⟨fun each => ?_, (inherits_each property).optimizeCmp fun column _ _ low high _ _ =>
    ranges column low high⟩
  induction tree with
  | and left right ihLeft ihRight =>
    rw [IndexableFilterExpr.optimizeCmp] at each
    split at each
    case h_1 merged isMerged =>
      -- Only comparisons are merged.
      cases left <;> try cases isMerged
      cases right <;> try cases isMerged
      exact ⟨comparisons _ _ _, comparisons _ _ _⟩
    case h_2 => exact ⟨ihLeft each.1, ihRight each.2⟩
  | or left right ihLeft ihRight => exact ⟨ihLeft each.1, ihRight each.2⟩
  | _ => exact each

end IndexableFilterExpr

end SecureFusion.Filtering
