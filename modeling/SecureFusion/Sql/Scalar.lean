import Mathlib.Algebra.Order.Ring.Int
import Mathlib.Data.List.Basic

/-!
# Scalar values and columns

The values a filter compares columns with, in the shape DataFusion gives them: a null carries its
type, a primitive value is the fixed-width word that Arrow stores, and a struct value is the tuple
of its fields. The number a word stands for depends on its type only. Lists, maps, unions,
dictionaries and the two composite interval types are left out; a data type of that kind is
identified by its printed form.
-/

namespace SecureFusion.Sql

/-- Arrow's time units. -/
inductive TimeUnit where
  | second | millisecond | microsecond | nanosecond
deriving DecidableEq, Repr

/-- Arrow types whose values are words of one fixed width. -/
inductive PrimitiveType where
  | int8 | int16 | int32 | int64
  | uint8 | uint16 | uint32 | uint64
  | float16 | float32 | float64
  | decimal32 (precision : Nat) (scale : Int)
  | decimal64 (precision : Nat) (scale : Int)
  | decimal128 (precision : Nat) (scale : Int)
  | decimal256 (precision : Nat) (scale : Int)
  | date32 | date64
  | time32Second | time32Millisecond | time64Microsecond | time64Nanosecond
  | timestamp (unit : TimeUnit) (timezone : Option String)
  | duration (unit : TimeUnit)
  | intervalYearMonth
deriving DecidableEq, Repr

/-- How the word of a primitive value is read as a number. -/
inductive WordKind where
  /-- Two's complement. -/
  | signed
  /-- Unsigned binary. -/
  | unsigned
  /-- A binary interchange format with this many fraction bits. -/
  | float (fraction : Nat)
deriving DecidableEq, Repr

namespace PrimitiveType

def bytes : PrimitiveType → Nat
  | .int8 | .uint8 => 1
  | .int16 | .uint16 | .float16 => 2
  | .int32 | .uint32 | .float32 | .decimal32 .. | .date32 => 4
  | .time32Second | .time32Millisecond | .intervalYearMonth => 4
  | .int64 | .uint64 | .float64 | .decimal64 .. | .date64 => 8
  | .time64Microsecond | .time64Nanosecond | .timestamp .. | .duration _ => 8
  | .decimal128 .. => 16
  | .decimal256 .. => 32

def width (type : PrimitiveType) : Nat := 8 * type.bytes

def kind : PrimitiveType → WordKind
  | .uint8 | .uint16 | .uint32 | .uint64 => .unsigned
  | .float16 => .float 10
  | .float32 => .float 23
  | .float64 => .float 52
  | _ => .signed

/-- The type without the parameters that comparison of two words ignores. -/
def eraseParameters : PrimitiveType → PrimitiveType
  | .decimal32 .. => .decimal32 0 0
  | .decimal64 .. => .decimal64 0 0
  | .decimal128 .. => .decimal128 0 0
  | .decimal256 .. => .decimal256 0 0
  | .timestamp unit _ => .timestamp unit none
  | type => type

end PrimitiveType

/-- Order key of a floating-point word, none for a NaN; both zeros have the same key. -/
def floatKey {width : Nat} (fraction : Nat) (word : BitVec width) : Option Int :=
  let magnitude := word.toNat % 2 ^ (width - 1)
  let infinity := (2 ^ (width - 1 - fraction) - 1) * 2 ^ fraction
  if infinity < magnitude then none
  else if word.msb then some (-(magnitude : Int)) else some magnitude

def PrimitiveType.key (type : PrimitiveType) (word : BitVec type.width) : Option Int :=
  match type.kind with
  | .signed => some word.toInt
  | .unsigned => some word.toNat
  | .float fraction => floatKey fraction word

/-- Arrow's string layouts. In a dictionary, the type of ENUM and SET columns, texts stand behind
keys of 16 bits. -/
inductive TextType where
  | utf8 | utf8View | largeUtf8 | dictionary
deriving DecidableEq, Repr

/-- Arrow's byte-string layouts. -/
inductive BinaryType where
  | binary | binaryView | largeBinary
  | fixedSizeBinary (size : Nat)
deriving DecidableEq, Repr

/-- Arrow data types. -/
inductive DataType where
  | null
  | boolean
  | primitive (type : PrimitiveType)
  | text (layout : TextType)
  | bytes (layout : BinaryType)
  /-- Fixed-size list of 32-bit floats, the storage of a vector. -/
  | float32List (size : Nat)
  /-- Any other type, identified by its printed form. -/
  | other (name : String)
deriving DecidableEq, Repr

/-- One value of a column or literal. -/
inductive ScalarValue where
  | null
  | boolean (value : Option Bool)
  | primitive (type : PrimitiveType) (value : Option (BitVec type.width))
  | text (layout : TextType) (value : Option String)
  | bytes (layout : BinaryType) (value : Option (List UInt8))
  | float32List (size : Nat) (value : Option (List (Option (BitVec 32))))
  | struct (fields : List ScalarValue)
deriving Repr

namespace ScalarValue

mutual

/-- Equality test of two values, types of nulls included. -/
def beq : ScalarValue → ScalarValue → Bool
  | .null, .null => true
  | .boolean a, .boolean b => a = b
  | .primitive s a, .primitive t b => if h : s = t then h ▸ a = b else false
  | .text s a, .text t b => s = t ∧ a = b
  | .bytes s a, .bytes t b => s = t ∧ a = b
  | .float32List s a, .float32List t b => s = t ∧ a = b
  | .struct a, .struct b => beqFields a b
  | _, _ => false

def beqFields : List ScalarValue → List ScalarValue → Bool
  | [], [] => true
  | a :: as, b :: bs => beq a b && beqFields as bs
  | _, _ => false

end

mutual

theorem beq_refl : (value : ScalarValue) → beq value value = true
  | .null => rfl
  | .boolean _ | .primitive _ _ | .text _ _ | .bytes _ _ | .float32List _ _ => by simp [beq]
  | .struct fields => by simp [beq, beqFields_refl fields]

theorem beqFields_refl : (fields : List ScalarValue) → beqFields fields fields = true
  | [] => rfl
  | first :: rest => by simp [beqFields, beq_refl first, beqFields_refl rest]

end

mutual

theorem eq_of_beq : (left right : ScalarValue) → beq left right = true → left = right
  | .null, right, same | .boolean a, right, same => by cases right <;> simp_all [beq]
  | .primitive s a, right, same => by
    cases right with
    | primitive t b =>
      simp only [beq] at same
      split at same
      case isTrue types =>
        subst types
        simpa using same
      case isFalse => cases same
    | _ => simp [beq] at same
  | .text s a, right, same | .bytes s a, right, same | .float32List s a, right, same =>
    by cases right <;> simp_all [beq]
  | .struct a, right, same => by
    cases right with
    | struct b => rw [eq_of_beqFields a b (by simpa [beq] using same)]
    | _ => simp [beq] at same

theorem eq_of_beqFields : (left right : List ScalarValue) →
    beqFields left right = true → left = right
  | [], right, same => by cases right <;> simp_all [beqFields]
  | a :: as, right, same => by
    cases right with
    | nil => simp [beqFields] at same
    | cons b bs =>
      simp only [beqFields, Bool.and_eq_true] at same
      rw [eq_of_beq a b same.1, eq_of_beqFields as bs same.2]

end

instance : DecidableEq ScalarValue := fun left right =>
  decidable_of_iff (beq left right = true)
    ⟨eq_of_beq left right, fun same => same ▸ beq_refl left⟩

def isNull : ScalarValue → Bool
  | .null => true
  | .boolean value => value.isNone
  | .primitive _ value => value.isNone
  | .text _ value => value.isNone
  | .bytes _ value => value.isNone
  | .float32List _ value => value.isNone
  | .struct _ => false

/-- Whether a value is of a type; a null has the type that it carries. -/
def hasType : DataType → ScalarValue → Bool
  | .null, .null => true
  | .boolean, .boolean _ => true
  | .primitive type, .primitive other _ => type = other
  | .text layout, .text other _ => layout = other
  | .bytes layout, .bytes other _ => layout = other
  | .float32List size, .float32List other _ => size = other
  | _, _ => false

def nullOf : DataType → ScalarValue
  | .boolean => .boolean none
  | .primitive type => .primitive type none
  | .text layout => .text layout none
  | .bytes layout => .bytes layout none
  | .float32List size => .float32List size none
  | _ => .null

@[simp] theorem isNull_nullOf (type : DataType) : (nullOf type).isNull = true := by
  cases type <;> rfl

theorem eq_nullOf {type : DataType} {value : ScalarValue} (typed : hasType type value)
    (null : value.isNull) : value = nullOf type := by
  unfold hasType at typed
  split at typed
  case h_1 => rfl
  case h_2 content =>
    cases content with
    | none => rfl
    | some => cases null
  case h_7 => cases typed
  all_goals
    rename_i content
    have same := of_decide_eq_true typed
    subst same
    cases content with
    | none => rfl
    | some => cases null

end ScalarValue

/-- A possibly qualified table name. -/
inductive TableReference where
  | bare (table : String)
  | partially (schema table : String)
  | full (catalog schema table : String)
deriving DecidableEq, Repr

namespace TableReference

def table : TableReference → String
  | .bare table => table
  | .partially _ table => table
  | .full _ _ table => table

def schema : TableReference → Option String
  | .bare _ => none
  | .partially schema _ => some schema
  | .full _ schema _ => some schema

end TableReference

/-- A fully qualified table name. -/
structure ResolvedTableReference where
  catalog : String
  schema : String
  table : String
deriving DecidableEq, Repr

/-- A possibly qualified column name. -/
structure Column where
  relation : Option TableReference
  name : String
deriving DecidableEq, Repr

def Column.fromName (name : String) : Column := ⟨none, name⟩

end SecureFusion.Sql
