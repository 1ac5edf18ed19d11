import SecureFusion.Library.Truth
import SecureFusion.Sql.Scalar

/-!
# What the two engines compute

The planner and the server evaluate comparisons, casts, patterns and functions of their own. They
are parameters here, the same for both engines, with one law: exchanging the operands of a
comparison reverses its outcome. A comparison without an outcome, such as one with a null, is
unknown. A failing cast gives null; where the planner stops the query instead there is no answer to
compare.
-/

namespace SecureFusion.Sql

open Library

abbrev Row := String → ScalarValue

/-- The truth value that a value stands for in a condition. -/
def ScalarValue.truth : ScalarValue → Truth
  | .boolean (some value) => .ofBool value
  | _ => .unknown

def ScalarValue.ofTruth : Truth → ScalarValue
  | .true => .boolean (some true)
  | .false => .boolean (some false)
  | .unknown => .boolean none

@[simp] theorem ScalarValue.truth_ofTruth (value : Truth) : (ofTruth value).truth = value := by
  cases value <;> rfl

/-- Binary operators of the planner. -/
inductive Operator where
  | and | or
  | eq | notEq | lt | ltEq | gt | gtEq
  /-- Arithmetic, concatenation and the like. -/
  | other (name : String)
deriving DecidableEq, Repr

/-- The outcomes that a comparison accepts, none if the operator is no comparison. -/
def Operator.accepts : Operator → Option (Ordering → Bool)
  | .eq => some (· = .eq)
  | .notEq => some (· ≠ .eq)
  | .lt => some (· = .lt)
  | .ltEq => some (· ≠ .gt)
  | .gt => some (· = .gt)
  | .gtEq => some (· ≠ .lt)
  | _ => none

/-- The operations that both engines bring. -/
structure Semantics where
  /-- The outcome of a comparison, none if it is unknown. -/
  order : ScalarValue → ScalarValue → Option Ordering
  /-- Exchanging the operands reverses the outcome. -/
  order_swap : ∀ left right, order right left = (order left right).map Ordering.swap
  /-- The value under a cast, none if the cast fails. -/
  cast : DataType → ScalarValue → Option ScalarValue
  /-- Pattern match, possibly ignoring case, possibly with an escape character. -/
  like : (caseInsensitive : Bool) → (escapeChar : Option Char) → ScalarValue → ScalarValue → Truth
  /-- Keyword search in the values of several columns. -/
  kwMatch : List ScalarValue → String → Truth
  /-- Operators that are neither connectives nor comparisons. -/
  operator : String → ScalarValue → ScalarValue → ScalarValue
  /-- All other operations on values. -/
  function : String → List ScalarValue → ScalarValue

namespace Semantics

variable (semantics : Semantics) (accepts : Ordering → Bool)

def castOrNull (type : DataType) (value : ScalarValue) : ScalarValue :=
  (semantics.cast type value).getD .null

/-- A comparison, unknown if there is no order. -/
def compare (accepts : Ordering → Bool) (left right : ScalarValue) : Truth :=
  match semantics.order left right with
  | none => .unknown
  | some outcome => .ofBool (accepts outcome)

theorem compare_swap (left right : ScalarValue) :
    semantics.compare accepts right left =
      semantics.compare (fun outcome => accepts outcome.swap) left right := by
  rw [compare, compare, semantics.order_swap left right]
  cases semantics.order left right <;> rfl

theorem compare_eq_true (left right : ScalarValue) :
    semantics.compare accepts left right = .true ↔
      ∃ outcome, semantics.order left right = some outcome ∧ accepts outcome := by
  rw [compare]
  cases semantics.order left right with
  | none => simp
  | some outcome => cases accepted : accepts outcome <;> simp [accepted, Truth.ofBool]

theorem compare_mono {first second : Ordering → Bool} {left right : ScalarValue}
    (more : ∀ outcome, first outcome → second outcome)
    (holds : semantics.compare first left right = .true) :
    semantics.compare second left right = .true := by
  rw [compare_eq_true] at holds ⊢
  obtain ⟨outcome, found, accepted⟩ := holds
  exact ⟨outcome, found, more outcome accepted⟩

/-- Nulls have no order, and numbers of one type are compared by their size. -/
structure Ordered : Prop where
  nulls : ∀ left right, ScalarValue.isNull left → semantics.order left right = none
  numbers : ∀ (type : PrimitiveType) (left right : BitVec type.width) (leftKey rightKey : Int),
    type.key left = some leftKey → type.key right = some rightKey →
      semantics.order (.primitive type (some left)) (.primitive type (some right)) =
        some (Ord.compare leftKey rightKey)

def between (value low high : ScalarValue) : Truth :=
  (semantics.compare (· ≠ .lt) value low).conj (semantics.compare (· ≠ .gt) value high)

def inList (value : ScalarValue) (list : List ScalarValue) : Truth :=
  .any (list.map (semantics.compare (· = .eq) value))

theorem inList_congr (value : ScalarValue) {first second : List ScalarValue}
    (same : ∀ member, member ∈ first ↔ member ∈ second) :
    semantics.inList value first = semantics.inList value second := by
  apply Truth.any_congr
  intro truth
  simp only [List.mem_map, same]

/-- The order of two values of one kind: numbers by size, texts by their characters. -/
def basicOrder : ScalarValue → ScalarValue → Option Ordering
  | .boolean (some left), .boolean (some right) => some (Ord.compare left right)
  | .text _ (some left), .text _ (some right) => some (Ord.compare left right)
  | .primitive leftType (some left), .primitive rightType (some right) =>
    match leftType.key left, rightType.key right with
    | some leftKey, some rightKey => some (Ord.compare leftKey rightKey)
    | _, _ => none
  | _, _ => none

theorem basicOrder_swap (left right : ScalarValue) :
    basicOrder right left = (basicOrder left right).map Ordering.swap := by
  fun_cases basicOrder left right with
  | case1 left right | case2 _ left _ right => exact congrArg some Std.OrientedOrd.eq_swap
  | case3 leftType left rightType right leftKey rightKey isLeft isRight =>
    rw [basicOrder, isLeft, isRight]
    exact congrArg some Std.OrientedOrd.eq_swap
  | case4 leftType left rightType right unknown =>
    rw [basicOrder]
    split
    case h_1 rightKey leftKey isRight isLeft => exact absurd isRight (unknown leftKey rightKey isLeft)
    case h_2 => rfl
  | case5 left right notBooleans notTexts notPrimitives =>
    rw [basicOrder]
    · rfl
    all_goals grind

/-- A small engine: numbers and truth values are cast to each other, anything else is its own
cast, a pattern has no wildcards, and a search looks for its whole text. -/
def basic : Semantics where
  order := basicOrder
  order_swap := basicOrder_swap
  cast
    | .boolean, .primitive _ (some word) => some (.boolean (some (word ≠ 0)))
    | .primitive type, .boolean (some value) => some (.primitive type (some (if value then 1 else 0)))
    | _, value => some value
  like
    | caseInsensitive, _, .text _ (some text), .text _ (some pattern) =>
      .ofBool (if caseInsensitive
        then text.toList.map Char.toLower = pattern.toList.map Char.toLower
        else text = pattern)
    | _, _, _, _ => .unknown
  kwMatch values text := .ofBool (.text .utf8 (some text) ∈ values)
  operator _ _ _ := .null
  function _ _ := .null

theorem basic_ordered : basic.Ordered where
  nulls left right null := by
    cases left with
    | null => rfl
    | boolean value | primitive type value | text layout value =>
      cases value with
      | none => cases right <;> rfl
      | some value => cases null
    | bytes | float32List | struct => cases right <;> rfl
  numbers type left right leftKey rightKey isLeft isRight := by
    simp only [basic, basicOrder, isLeft, isRight]

end Semantics

def negatedIf (negated : Bool) (value : Truth) : Truth := if negated then value.neg else value

end SecureFusion.Sql
