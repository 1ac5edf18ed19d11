import SecureFusion.Filtering.Coverage
import SecureFusion.Filtering.Pushdown

/-!
# Leaves of split filter trees

An index that supports single leaves only takes a leaf as it is or leaves it as it is, and
of a conjunction it takes the conjunction of what it takes. The leaves of its question are
leaves of the filters.
-/

namespace SecureFusion.Filtering

open Library Sql List IndexableFilterExpr

section Leaves

variable {E : Type} {tree : IndexableFilterExpr E}

theorem exists_reduce {α : Type} (combinator : α → α → α) {member : α} {members : List α}
    (isIn : member ∈ members) : ∃ combined, reduce combinator members = some combined := by
  cases members with
  | nil => cases isIn
  | cons first rest => exact ⟨_, rfl⟩

variable {options : SupportOptions E} {statistics : TableStatistics}
  {property : IndexableFilterExpr E → Prop}

/-- A split takes the tree as it is. -/
def TakenWhole (options : SupportOptions E) (statistics : TableStatistics)
    (tree : IndexableFilterExpr E) : Prop :=
  (tree.splitIntoSupportedUnsupported options statistics).1 = some tree ∧
    (tree.splitIntoSupportedUnsupported options statistics).2.1 = none

/-- A split leaves the tree as it is. -/
def LeftWhole (options : SupportOptions E) (statistics : TableStatistics)
    (tree : IndexableFilterExpr E) : Prop :=
  (tree.splitIntoSupportedUnsupported options statistics).1 = none ∧
    (tree.splitIntoSupportedUnsupported options statistics).2.1 = some tree

/-- A tree without NOT. -/
def isNegationFree : IndexableFilterExpr E → Bool
  | .and a b | .or a b => isNegationFree a && isNegationFree b
  | .not _ => false
  | _ => true

theorem split_leaf (isLeaf : tree.IsLeaf) :
    ((options.isSupported tree statistics).isSome → TakenWhole options statistics tree) ∧
      (options.isSupported tree statistics = none → LeftWhole options statistics tree) := by
  refine ⟨split_answered, fun unsupported => split_blocked unsupported ?_⟩
  cases tree with
  | and | or | not => cases isLeaf
  | _ => trivial

section OnlyLeaves

variable (onlyLeaves : ∀ node, (options.isSupported node statistics).isSome → node.IsLeaf)

include onlyLeaves

theorem unanswered {tree : IndexableFilterExpr E} (compound : ¬ tree.IsLeaf) :
    options.isSupported tree statistics = none := by
  rw [← Option.not_isSome_iff_eq_none]
  exact fun supported => compound (onlyLeaves tree supported)

theorem split_and (a b : IndexableFilterExpr E) :
    ((IndexableFilterExpr.and a b).splitIntoSupportedUnsupported options statistics).1 =
        recombine (a.splitIntoSupportedUnsupported options statistics).1
          (b.splitIntoSupportedUnsupported options statistics).1 .and ∧
      ((IndexableFilterExpr.and a b).splitIntoSupportedUnsupported options statistics).2.1 =
        recombine (a.splitIntoSupportedUnsupported options statistics).2.1
          (b.splitIntoSupportedUnsupported options statistics).2.1 .and := by
  have unsupported := @unanswered _ _ _ onlyLeaves (.and a b) nofun
  simp only [splitIntoSupportedUnsupported, unsupported, and_self]

end OnlyLeaves

theorem inherits_leaves (property : IndexableFilterExpr E → Prop) :
    Inherits fun _ tree => ∀ leaf ∈ tree.leaves, property leaf where
  and_iff := forall_mem_append
  or_operands := forall_mem_append.mp
  or_joins _ _ _ onC onD := forall_mem_append.mpr ⟨onC, onD⟩
  not_iff := Iff.rfl

theorem leaves_split (tree : IndexableFilterExpr E) (leaves : ∀ leaf ∈ tree.leaves, property leaf) :
    (∀ part, (tree.splitIntoSupportedUnsupported options statistics).1 = some part →
        ∀ leaf ∈ part.leaves, property leaf) ∧
      ∀ part, (tree.splitIntoSupportedUnsupported options statistics).2.1 = some part →
        ∀ leaf ∈ part.leaves, property leaf :=
  @Inherits.split _ _ false tree (inherits_leaves property) options statistics leaves

end Leaves

/-! ## Questions to the indices -/

namespace IndexResolver

theorem queryIndices_cons {D : Type} (resolver : IndexResolver D) (index : EncryptedIndex D) (rest : List (EncryptedIndex D))
    (tree : IndexableLogicalExpr) (result : ResolveIndexResult D) :
    resolver.queryIndices (index :: rest) (some tree) result =
      let split := tree.splitIntoSupportedUnsupported index.logicalSupportOptions
        resolver.statistics
      match split.1 with
      | none => resolver.queryIndices rest split.2.1 result
      | some supported => (index.logicalQuery supported).bind fun answer =>
        resolver.queryIndices rest split.2.1 (result.push answer) := by
  rw [queryIndices]
  split
  case h_1 split => simp only [split]
  case h_2 split => simp only [split, Option.bind_eq_bind]

end IndexResolver

end SecureFusion.Filtering
