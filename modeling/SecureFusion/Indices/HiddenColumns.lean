import SecureFusion.Indices.BlindIndex
import SecureFusion.Indices.RangeQueries

/-!
# Names of hidden columns

A blind and a range index name their hidden column by a prefix and the name of the index, cut to 32
bytes. The cut panics within a character, and it forgets the end of a long name. MySQL moreover
compares column names without regard to case.
-/

namespace SecureFusion.Indices

/-- Cuts a text to a number of bytes; none if this is within a character, where the cut panics. -/
def truncate : Nat → List Char → Option (List Char)
  | _, [] => some []
  | 0, _ => some []
  | room + 1, char :: rest =>
    if char.utf8Size ≤ room + 1 then
      (truncate (room + 1 - char.utf8Size) rest).map (char :: ·)
    else none

/-- A blind index; its column name is cut to 32 bytes. -/
def BlindIndex.new (name column : String) (sizeBits : Nat) : Option BlindIndex := do
  let indexColumnName ← truncate 32
    ("prox_blid".toList ++ '_' :: (name ++ "_" ++ toString sizeBits).toList)
  some ⟨name, column, sizeBits, .ofList indexColumnName⟩

/-- A range index; its column name is cut to 32 bytes. -/
def RangeIndex.new (name column : String) (distribution : ValueDistribution) :
    Option RangeIndex := do
  let indexColumnName ← truncate 32 ("prox_rg_".toList ++ name.toList)
  some ⟨distribution, column, .ofList indexColumnName⟩

/-- What an index is created from. -/
inductive NewIndex where
  | blind (name column : String) (sizeBits : Nat)
  | range (name column : String) (distribution : ValueDistribution)

namespace NewIndex

def hiddenColumn : NewIndex → Option String
  | .blind name column sizeBits => (BlindIndex.new name column sizeBits).map (·.indexColumnName)
  | .range name column distribution =>
    (RangeIndex.new name column distribution).map (·.indexColumnName)

def isBlind : NewIndex → Bool
  | .blind .. => true
  | .range .. => false

/-- What the prefix leaves room for: 22 bytes of the name and the size of a blind index, and 24
bytes of the name of a range index. -/
def kept : NewIndex → Option (List Char)
  | .blind name _ sizeBits => truncate 22 (name ++ "_" ++ toString sizeBits).toList
  | .range name _ _ => truncate 24 name.toList

end NewIndex

/-- How MySQL compares column names: by the weights of their characters. -/
structure ColumnCollation where
  weight : Char → Nat
  b_ne_r : weight 'b' ≠ weight 'r'

def ColumnCollation.weights (collation : ColumnCollation) (name : String) : List Nat :=
  name.toList.map collation.weight

theorem truncate_append {start : List Char} (ascii : start.all (·.utf8Size == 1))
    (room : Nat) (rest : List Char) :
    truncate (start.length + room) (start ++ rest) = (truncate room rest).map (start ++ ·) := by
  induction start with
  | nil => simp
  | cons char start ih =>
    rw [List.all_cons, Bool.and_eq_true, beq_iff_eq] at ascii
    obtain ⟨here, later⟩ := ascii
    have next := ih later
    rw [List.length_cons, List.cons_append, Nat.add_right_comm, truncate, here,
      if_pos (Nat.le_add_left 1 _), Nat.add_sub_cancel, next, Option.map_map]
    rfl

theorem NewIndex.hiddenColumn_eq (index : NewIndex) :
    index.hiddenColumn = index.kept.map fun kept =>
      .ofList ((if index.isBlind then "prox_blid_" else "prox_rg_").toList ++ kept) := by
  cases index with
  | blind name column sizeBits =>
    have cut : truncate 32 ("prox_blid".toList ++ '_' :: (name ++ "_" ++ toString sizeBits).toList) =
        (truncate 22 (name ++ "_" ++ toString sizeBits).toList).map ("prox_blid_".toList ++ ·) :=
      @truncate_append "prox_blid_".toList rfl 22 _
    rw [hiddenColumn, BlindIndex.new, cut, kept]
    cases truncate 22 (name ++ "_" ++ toString sizeBits).toList <;> rfl
  | range name column distribution =>
    have cut : truncate 32 ("prox_rg_".toList ++ name.toList) =
        (truncate 24 name.toList).map ("prox_rg_".toList ++ ·) :=
      @truncate_append "prox_rg_".toList rfl 24 _
    rw [hiddenColumn, RangeIndex.new, cut, kept]
    cases truncate 24 name.toList <;> rfl

/-- Two indices get hidden columns that MySQL tells apart if and only if no cut is within a
character and, for indices of one kind, what is kept of their names is told apart. -/
theorem hidden_columns_differ_iff (collation : ColumnCollation) (one other : NewIndex) :
    (∃ first second, one.hiddenColumn = some first ∧ other.hiddenColumn = some second ∧
        collation.weights first ≠ collation.weights second) ↔
      ∃ first second, one.kept = some first ∧ other.kept = some second ∧
        (one.isBlind = other.isBlind →
          first.map collation.weight ≠ second.map collation.weight) := by
  rw [one.hiddenColumn_eq, other.hiddenColumn_eq]
  cases one.kept with
  | none => simp
  | some first =>
    cases other.kept with
    | none => simp
    | some second =>
      have differ := collation.b_ne_r
      cases one.isBlind <;> cases other.isBlind <;>
        simp [ColumnCollation.weights, differ, differ.symm]

/-- Two long names that end differently, two names that differ in case, and a name with a character
across the end of the room. -/
theorem hidden_columns_clash :
    let collation : ColumnCollation := ⟨fun char => char.toLower.toNat, by decide⟩
    (∃ column, (NewIndex.blind "customer_phone_numbers_1" "a" 16).hiddenColumn = some column ∧
        (NewIndex.blind "customer_phone_numbers_2" "b" 16).hiddenColumn = some column) ∧
      (∃ first second, (NewIndex.range "Age" "a" (.uniform 0 1)).hiddenColumn = some first ∧
        (NewIndex.range "age" "b" (.uniform 0 1)).hiddenColumn = some second ∧
        collation.weights first = collation.weights second) ∧
      (NewIndex.range "customer_phone_numbers_é" "a" (.uniform 0 1)).hiddenColumn = none :=
  ⟨⟨_, rfl, rfl⟩, ⟨_, _, rfl, rfl, by decide +kernel⟩, rfl⟩

end SecureFusion.Indices
