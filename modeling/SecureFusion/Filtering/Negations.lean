import Mathlib.Data.Fintype.Option
import SecureFusion.Filtering.Coverage

/-!
# Negations that are moved up and down

Pushing negations up turns an OR into an AND unless both of its operands become negations. Pushing
them down looks at the operand of a negation once, and leaves the negations that it creates where
they are.
-/

namespace SecureFusion.Filtering.IndexableFilterExpr

open Library

variable {E : Type} (tree : IndexableFilterExpr E)

/-- The operands of an AND or OR after negations were pushed up in them. -/
def joinNots (negated : IndexableFilterExpr E → IndexableFilterExpr E → IndexableFilterExpr E) :
    IndexableFilterExpr E → IndexableFilterExpr E → IndexableFilterExpr E
  | .not left, .not right => .not (negated left right)
  | left, right => .and left right

/-- Moves negations to the root by the laws of De Morgan. -/
def pushupNot : IndexableFilterExpr E → IndexableFilterExpr E
  | .and left right => joinNots .or left.pushupNot right.pushupNot
  | .or left right => joinNots .and left.pushupNot right.pushupNot
  | .not operand =>
    match operand.pushupNot with
    | .not operand => operand
    | leaf => .not leaf
  | leaf => leaf

/-- Moves a negation below its operand. -/
def pushdownNot : IndexableFilterExpr E → IndexableFilterExpr E
  | .not operand =>
    match operand.pushdownNot with
    | .and left right => .or (.not left) (.not right)
    | .or left right => .and (.not left) (.not right)
    | .not operand => operand
    | leaf => .not leaf
  | .and left right => .and left.pushdownNot right.pushdownNot
  | .or left right => .or left.pushdownNot right.pushdownNot
  | leaf => leaf

/-- Every negation is applied to a leaf. -/
def NotsOnLeaves : IndexableFilterExpr E → Prop
  | .and left right | .or left right => left.NotsOnLeaves ∧ right.NotsOnLeaves
  | .not operand => operand.IsLeaf
  | _ => True

/-- Whether a tree becomes a negation when negations are pushed up. -/
def isNegated : IndexableFilterExpr E → Bool
  | .and left right | .or left right => left.isNegated && right.isNegated
  | .not operand => !operand.isNegated
  | _ => false

/-- The operands of every OR become negations. -/
def KeepsOr : IndexableFilterExpr E → Prop
  | .and left right => left.KeepsOr ∧ right.KeepsOr
  | .or left right => (left.isNegated && right.isNegated) = true ∧ left.KeepsOr ∧ right.KeepsOr
  | .not operand => operand.KeepsOr
  | _ => True

/-- Whether the number of negations of a leaf is odd. -/
def oddNots : IndexableFilterExpr E → Option Bool
  | .not operand => operand.oddNots.map (!·)
  | .and _ _ | .or _ _ => none
  | _ => some false

/-- A negation is applied to a leaf under negations, or to an AND or OR of leaves that are each
under an even number of negations. -/
def Pushable : IndexableFilterExpr E → Prop
  | .and left right | .or left right => left.Pushable ∧ right.Pushable
  | .not (.and left right) | .not (.or left right) =>
    left.oddNots = some false ∧ right.oddNots = some false
  | .not operand => operand.oddNots.isSome
  | _ => True

/-- Moving negations keeps the value of a tree on every row, and pushing them down leaves them on
leaves. -/
def MovesNots : Prop :=
  (∀ row, tree.pushupNot.eval row = tree.eval row ∧ tree.pushdownNot.eval row = tree.eval row) ∧
    tree.pushdownNot.NotsOnLeaves

/-! ## Pushing up -/

def isNot : IndexableFilterExpr E → Bool
  | .not _ => true
  | _ => false

variable {left right : IndexableFilterExpr E} (row : IndexableFilterExpr E → Truth)

theorem joinNots_cases (left right : IndexableFilterExpr E) :
    (∃ first second, left = .not first ∧ right = .not second) ∨
      (left.isNot && right.isNot) = false ∧
        ∀ negated, joinNots negated left right = .and left right := by
  cases left <;> cases right <;>
    first | exact .inl ⟨_, _, rfl, rfl⟩ | exact .inr ⟨rfl, fun _ => rfl⟩

/-- What a tree becomes is a negation if the tree is negated, and never one of a negation. -/
theorem isNot_pushupNot :
    tree.pushupNot.isNot = tree.isNegated ∧ ∀ inner, tree.pushupNot ≠ .not (.not inner) := by
  induction tree with
  | and left right ihLeft ihRight | or left right ihLeft ihRight =>
    rw [isNegated, ← ihLeft.1, ← ihRight.1, pushupNot]
    generalize left.pushupNot = first, right.pushupNot = second
    obtain ⟨first, second, rfl, rfl⟩ | ⟨single, joined⟩ := joinNots_cases first second
    · exact ⟨rfl, nofun⟩
    · rw [joined, single]
      exact ⟨rfl, nofun⟩
  | not operand ih =>
    rw [pushupNot, isNegated, ← ih.1]
    generalize operand.pushupNot = result at ih
    cases result with
    | not inner =>
      cases inner with
      | not inner => exact absurd rfl (ih.2 inner)
      | _ => exact ⟨rfl, nofun⟩
    | _ => exact ⟨rfl, nofun⟩
  | _ => exact ⟨rfl, nofun⟩

theorem eval_pushupNot_and : (and left right).pushupNot.eval row =
    (left.pushupNot.eval row).conj (right.pushupNot.eval row) := by
  rw [pushupNot]
  generalize left.pushupNot = first, right.pushupNot = second
  obtain ⟨first, second, rfl, rfl⟩ | ⟨-, joined⟩ := joinNots_cases first second
  · exact Truth.neg_disj _ _
  · rw [joined, eval_and]

theorem eval_pushupNot_or : (or left right).pushupNot.eval row =
    if left.isNegated && right.isNegated then
      (left.pushupNot.eval row).disj (right.pushupNot.eval row)
    else (left.pushupNot.eval row).conj (right.pushupNot.eval row) := by
  rw [pushupNot, ← left.isNot_pushupNot.1, ← right.isNot_pushupNot.1]
  generalize left.pushupNot = first, right.pushupNot = second
  obtain ⟨first, second, rfl, rfl⟩ | ⟨single, joined⟩ := joinNots_cases first second
  · exact Truth.neg_conj _ _
  · rw [joined, single]
    rfl

theorem eval_pushupNot_not :
    (not tree).pushupNot.eval row = (tree.pushupNot.eval row).neg := by
  rw [pushupNot]
  split
  case h_1 operand same => rw [same, eval_not, Truth.neg_neg]
  case h_2 => rfl

theorem eval_pushupNot_of_keepsOr {tree : IndexableFilterExpr E} (keeps : tree.KeepsOr) :
    tree.pushupNot.eval row = tree.eval row := by
  induction tree with
  | and left right ihLeft ihRight =>
    rw [eval_pushupNot_and, ihLeft keeps.1, ihRight keeps.2, eval_and]
  | or left right ihLeft ihRight =>
    rw [eval_pushupNot_or, if_pos keeps.1, ihLeft keeps.2.1, ihRight keeps.2.2, eval_or]
  | not operand ih => rw [eval_pushupNot_not, ih keeps, eval_not]
  | _ => rfl

theorem leaves_pushupNot : tree.pushupNot.leaves = tree.leaves := by
  induction tree with
  | and left right ihLeft ihRight | or left right ihLeft ihRight =>
    show _ = left.leaves ++ right.leaves
    rw [pushupNot, ← ihLeft, ← ihRight]
    generalize left.pushupNot = first, right.pushupNot = second
    fun_cases joinNots <;> rfl
  | not operand ih =>
    rw [pushupNot]
    split
    case h_1 inner same => exact (congrArg leaves same).symm.trans ih
    case h_2 => exact ih
  | _ => rfl

/-- The value of a tree and of what it becomes. -/
abbrev values (row : IndexableFilterExpr E → Truth) : Truth × Truth :=
  (tree.eval row, tree.pushupNot.eval row)

theorem readsOnly_values : Formula.ReadsOnly tree.leaves (tree.values ·) :=
  fun first second agree => Prod.ext (tree.formula.eval_congr first second agree)
    (tree.pushupNot.formula.eval_congr first second (by rwa [← leaves_pushupNot] at agree))

/-- Values that are reached, the last one if a value is lost. -/
def samples (lost : Option Bool) : List (Truth × Truth) :=
  [(.true, .true), (.false, .false)] ++
    (lost.map fun value => (.ofBool value, .ofBool !value)).toList

theorem reached_samples (once : tree.leaves.Nodup) : ∃ lost, (lost = none ↔ tree.KeepsOr) ∧
    ∀ sample ∈ samples lost, Formula.Reached (tree.values ·) sample := by
  induction tree with
  | and left right ihLeft ihRight =>
    obtain ⟨first, keepsLeft, reachedLeft⟩ := ihLeft once.of_append_left
    obtain ⟨second, keepsRight, reachedRight⟩ := ihRight once.of_append_right
    have built : ∀ first second, Formula.Combined
        (fun a b : Truth × Truth => (a.1.conj b.1, a.2.conj b.2)) (samples first)
        (samples second) (samples (first.or second)) := by decide
    refine ⟨first.or second, by rw [Option.or_eq_none_iff, keepsLeft, keepsRight, KeepsOr], ?_⟩
    simpa only [values, eval_pushupNot_and, eval_and] using Formula.reached_combined once
      left.readsOnly_values right.readsOnly_values reachedLeft reachedRight (built first second)
  | or left right ihLeft ihRight =>
    obtain ⟨first, keepsLeft, reachedLeft⟩ := ihLeft once.of_append_left
    obtain ⟨second, keepsRight, reachedRight⟩ := ihRight once.of_append_right
    -- A true and a false operand make the disjunction true and the conjunction false.
    have built : ∀ first second negated, Formula.Combined
        (fun a b : Truth × Truth => (a.1.disj b.1, if negated then a.2.disj b.2 else a.2.conj b.2))
        (samples first) (samples second)
        (samples (if negated = true then first.or second else some true)) := by decide
    refine ⟨if left.isNegated && right.isNegated then first.or second else some true, ?_, ?_⟩
    · rw [KeepsOr, ← keepsLeft, ← keepsRight, ← Option.or_eq_none_iff]
      split_ifs with negated <;> simp [negated]
    · simpa only [values, eval_pushupNot_or, eval_or] using Formula.reached_combined once
        left.readsOnly_values right.readsOnly_values reachedLeft reachedRight (built first second _)
  | not operand ih =>
    obtain ⟨lost, keeps, reached⟩ := ih once
    have built : ∀ lost, Formula.Mapped (fun a : Truth × Truth => (a.1.neg, a.2.neg))
        (samples lost) (samples (lost.map (!·))) := by decide
    refine ⟨lost.map (!·), by rw [Option.map_eq_none_iff, keeps, KeepsOr], ?_⟩
    simpa only [values, eval_pushupNot_not, eval_not] using
      Formula.reached_mapped reached (built lost)
  | _ =>
    refine ⟨none, iff_of_true rfl trivial, List.forall_mem_cons.mpr
      ⟨⟨fun _ => .true, fun _ => ⟨true, rfl⟩, rfl⟩, List.forall_mem_singleton.mpr
        ⟨fun _ => .false, fun _ => ⟨false, rfl⟩, rfl⟩⟩⟩

theorem keepsOr_of_same {tree : IndexableFilterExpr E} (once : tree.leaves.Nodup)
    (same : ∀ row, tree.pushupNot.eval row = tree.eval row) : tree.KeepsOr := by
  obtain ⟨lost, keeps, reached⟩ := tree.reached_samples once
  rw [← keeps]
  cases lost with
  | none => rfl
  | some value =>
    obtain ⟨row, -, isReached⟩ := reached (.ofBool value, .ofBool !value) (by simp [samples])
    obtain ⟨isValue, isOther⟩ := Prod.ext_iff.mp isReached
    have here := isOther.symm.trans ((same row).trans isValue)
    cases value <;> cases here

/-! ## Pushing down -/

theorem eval_pushdownNot : tree.pushdownNot.eval row = tree.eval row := by
  induction tree with
  | and left right ihLeft ihRight => rw [pushdownNot, eval_and, ihLeft, ihRight, eval_and]
  | or left right ihLeft ihRight => rw [pushdownNot, eval_or, ihLeft, ihRight, eval_or]
  | not operand ih =>
    rw [pushdownNot, eval_not, ← ih]
    split
    case h_1 left right same => rw [same, eval_and, Truth.neg_conj, eval_or, eval_not, eval_not]
    case h_2 left right same => rw [same, eval_or, Truth.neg_disj, eval_and, eval_not, eval_not]
    case h_3 inner same => rw [same, eval_not, Truth.neg_neg]
    case h_4 => rfl
  | _ => rfl

/-- What a tree becomes, by the number of negations of a leaf. -/
inductive Pushed : Option Bool → IndexableFilterExpr E → Prop
  | leaf {leaf : IndexableFilterExpr E} (isLeaf : leaf.IsLeaf) : Pushed (some false) leaf
  | not {leaf : IndexableFilterExpr E} (isLeaf : leaf.IsLeaf) : Pushed (some true) (.not leaf)
  | and (left right : IndexableFilterExpr E) : Pushed none (.and left right)
  | or (left right : IndexableFilterExpr E) : Pushed none (.or left right)

theorem pushed_pushdownNot : Pushed tree.oddNots tree.pushdownNot := by
  induction tree with
  | and => exact .and _ _
  | or => exact .or _ _
  | not operand ih =>
    rw [oddNots, pushdownNot]
    generalize operand.pushdownNot = result, operand.oddNots = odd at ih
    cases ih with
    | and => exact .or _ _
    | or => exact .and _ _
    | not isLeaf => exact .leaf isLeaf
    | leaf isLeaf => cases result <;> first | exact .not isLeaf | cases isLeaf
  | _ => exact .leaf rfl

theorem isLeaf_pushdownNot_iff : tree.pushdownNot.IsLeaf ↔ tree.oddNots = some false := by
  have pushed := tree.pushed_pushdownNot
  generalize tree.pushdownNot = result, tree.oddNots = odd at pushed
  cases pushed with
  | leaf isLeaf => exact iff_of_true isLeaf rfl
  | not | and | or => exact ⟨nofun, nofun⟩

theorem notsOnLeaves_pushdownNot_iff : tree.pushdownNot.NotsOnLeaves ↔ tree.Pushable := by
  induction tree with
  | and left right ihLeft ihRight | or left right ihLeft ihRight => exact and_congr ihLeft ihRight
  | not operand =>
    cases operand with
    | and left right | or left right =>
      exact and_congr left.isLeaf_pushdownNot_iff right.isLeaf_pushdownNot_iff
    | not inner =>
      -- The operands of an AND or OR are negated twice, so that they are no leaves.
      have pushed := inner.pushed_pushdownNot
      simp only [Pushable, oddNots, pushdownNot]
      generalize inner.pushdownNot = result, inner.oddNots = odd at pushed
      cases pushed with
      | leaf isLeaf | not isLeaf =>
        refine iff_of_true ?_ rfl
        cases ‹IndexableFilterExpr E› <;> first | exact isLeaf | trivial
      | and | or => exact iff_of_false (fun onLeaves => nomatch onLeaves.1) nofun
    | _ => exact iff_of_true rfl rfl
  | _ => exact Iff.rfl

/-- Negations are moved as they should be if the operands of every OR become negations and no
negation is on top of more than leaves; for a tree in which no leaf is repeated, only then. -/
theorem movesNots_iff : (tree.KeepsOr ∧ tree.Pushable → tree.MovesNots) ∧
    (tree.leaves.Nodup → tree.MovesNots → tree.KeepsOr ∧ tree.Pushable) := by
  rw [MovesNots, notsOnLeaves_pushdownNot_iff]
  constructor
  · rintro ⟨keeps, pushable⟩
    exact ⟨fun row => ⟨eval_pushupNot_of_keepsOr row keeps, eval_pushdownNot tree row⟩, pushable⟩
  · rintro once ⟨same, pushable⟩
    exact ⟨keepsOr_of_same once fun row => (same row).1, pushable⟩

/-- A disjunction becomes a conjunction, and the negation of a conjunction with a negation becomes a
disjunction with a double negation. -/
theorem movesNots_fails : let first : IndexableFilterExpr Nat := .other 0; let second := .other 1
    (or first second).pushupNot = .and first second ∧ ¬ (or first second).MovesNots ∧
      (not (.and (.not first) second)).pushdownNot = .or (.not (.not first)) (.not second) ∧
      ¬ (not (.and (.not first) second)).pushdownNot.NotsOnLeaves := by
  refine ⟨rfl, fun moves => ?_, rfl, nofun⟩
  have here := (moves.1 fun leaf => .ofBool (leaf = .other 0)).1
  cases here

end SecureFusion.Filtering.IndexableFilterExpr
