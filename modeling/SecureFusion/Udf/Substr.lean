import SecureFusion.Library.Outcome
import SecureFusion.Crypto.Columns

/-!
# SUBSTR of binary values

The function begins behind the position that it is asked for: two bytes if it counts from the
start, and one byte if it counts from the end. It panics on an empty value.
-/

namespace SecureFusion.Udf

open Library Crypto List

/-- A value in memory. -/
structure BinaryValue where
  bytes : Bytes
  addressable : bytes.length < 2 ^ 63

section Definitions

variable (overflowChecks : Bool) (array : BinaryValue) (start : BitVec 64)
  (count : Option (BitVec 64))

/-- The offset before the first byte. -/
def startOffset : Evaluated Nat :=
  if 0 < start.toInt then .ok start.toNat
  else if overflowChecks ∧ start = .intMin 64 then
    .error (.panic "attempt to negate with overflow")
  else if (-start).toNat ≤ array.bytes.length then .ok (array.bytes.length - (-start).toNat)
  else .ok array.bytes.length

/-- The length minus one, which wraps without overflow checks. -/
def lastOffset : Evaluated Nat :=
  if array.bytes ≠ [] then .ok (array.bytes.length - 1)
  else if overflowChecks then .error (.panic "attempt to subtract with overflow")
  else .ok (2 ^ 64 - 1)

def sliceAfter (start last : Nat) : Evaluated Bytes :=
  if start < last then
    if start + 1 ≤ array.bytes.length then .ok (array.bytes.drop (start + 1))
    else .error (.panic "range start index out of range for slice")
  else .ok []

/-- The bytes that the function returns. -/
def substrBytes : Evaluated Bytes := do
  let start ← startOffset overflowChecks array start
  let last ← lastOffset overflowChecks array
  let rest ← sliceAfter array start last
  match count with
  | some count => .ok (if count.toNat < rest.length then rest.take count.toNat else rest)
  | none => .ok rest

/-- One row: the start defaults to zero, and a null value stays null. -/
def substrRow (value : Option BinaryValue) (start count : Option (BitVec 64)) :
    Evaluated (Option Bytes) :=
  match value with
  | none => .ok none
  | some array => some <$> substrBytes overflowChecks array (start.getD 0) count

/-- The bytes from a position on, as MySQL counts positions. -/
def bytesFrom : Bytes :=
  if 0 < start.toInt then array.bytes.drop (start.toInt.toNat - 1)
  else if start.toInt < 0 ∧ -start.toInt ≤ array.bytes.length then
    array.bytes.drop (array.bytes.length - (-start.toInt).toNat)
  else []

def cutAt (length : BitVec 64 → Nat) (rest : Bytes) : Bytes :=
  match count with
  | some count => rest.take (length count)
  | none => rest

/-- The bytes that MySQL returns. -/
def mysqlSubstr : Bytes := cutAt count (·.toInt.toNat) (bytesFrom array start)

/-- How many of these bytes the function skips. -/
def skipped : Nat := if 0 < start.toInt then 2 else 1

/-- The counts for which skipping bytes makes no difference: none or too few bytes are left, or the
bytes that are asked for repeat behind the skipped ones. -/
def HidesSkipped (rest : Bytes) (skip : Nat) (asked : BitVec 64) : Prop :=
  asked.toInt = 0 ∨ asked.toInt < 0 ∧ rest.length ≤ skip ∨
    0 < asked.toInt ∧ asked.toNat + skip ≤ rest.length ∧
      (rest.drop skip).take asked.toNat = rest.take asked.toNat

end Definitions

variable {overflowChecks : Bool} {array : BinaryValue} {start : BitVec 64}

theorem startOffset_spec (negates : ¬(overflowChecks = true ∧ start = .intMin 64)) :
    ∃ offset, startOffset overflowChecks array start = .ok offset ∧ offset < 2 ^ 64 - 1 ∧
      array.bytes.drop (offset + 1) = (bytesFrom array start).drop (skipped start) := by
  have addressable := array.addressable
  have unsigned := start.isLt
  by_cases positive : 0 < start.toInt
  · have signed : start.toInt = start.toNat := by
      rw [BitVec.toInt_eq_toNat_cond] at positive ⊢
      split_ifs at positive ⊢ <;> omega
    refine ⟨start.toNat, if_pos positive, ?_, ?_⟩
    · have bound := start.toInt_lt
      omega
    · rw [bytesFrom, skipped, if_pos positive, if_pos positive, drop_drop]
      congr 1
      omega
  · have negated : ((-start).toNat : Int) = -start.toInt := by
      rw [BitVec.toNat_neg, BitVec.toInt_eq_toNat_cond] at *
      split_ifs at positive ⊢ <;> omega
    rw [startOffset, if_neg positive, if_neg negates, bytesFrom, skipped, if_neg positive,
      if_neg positive]
    by_cases inside : (-start).toNat ≤ array.bytes.length
    · refine ⟨_, if_pos inside, by omega, ?_⟩
      by_cases zero : start.toInt < 0
      · rw [if_pos ⟨zero, by omega⟩, drop_drop]
        congr 1
        omega
      · rw [if_neg (fun both => zero both.1), drop_nil]
        apply drop_eq_nil_of_le
        omega
    · refine ⟨_, if_neg inside, by omega, ?_⟩
      rw [if_neg (fun both => inside (by omega)), drop_nil]
      apply drop_eq_nil_of_le
      omega

theorem substrBytes_eq (some : array.bytes ≠ [])
    (negates : ¬(overflowChecks = true ∧ start = .intMin 64)) (count : Option (BitVec 64)) :
    substrBytes overflowChecks array start count =
      .ok (cutAt count BitVec.toNat ((bytesFrom array start).drop (skipped start))) := by
  obtain ⟨offset, isOffset, -, same⟩ := @startOffset_spec _ array _ negates
  have rest : sliceAfter array offset (array.bytes.length - 1) =
      .ok ((bytesFrom array start).drop (skipped start)) := by
    rw [← same, sliceAfter]
    by_cases before : offset < array.bytes.length - 1
    · rw [if_pos before, if_pos (by omega)]
    · rw [if_neg before, drop_eq_nil_of_le (by omega)]
  rw [substrBytes, isOffset, Outcome.ok_bind, lastOffset, if_pos some, Outcome.ok_bind, rest,
    Outcome.ok_bind]
  cases count with
  | none => rfl
  | some count =>
    dsimp only [cutAt]
    split_ifs with cut
    · rfl
    · rw [take_of_length_le (Nat.le_of_not_lt cut)]

theorem substrBytes_panics {count : Option (BitVec 64)}
    (unsafeInput : array.bytes = [] ∨ overflowChecks = true ∧ start = .intMin 64) :
    ∃ failure, substrBytes overflowChecks array start count = .error failure := by
  by_cases negates : overflowChecks = true ∧ start = .intMin 64
  · refine ⟨.panic "attempt to negate with overflow", ?_⟩
    rw [substrBytes, startOffset, negates.2, if_neg (by decide), if_pos ⟨negates.1, rfl⟩]
    rfl
  · have empty := unsafeInput.resolve_right negates
    obtain ⟨offset, isOffset, small, -⟩ := @startOffset_spec _ array _ negates
    rw [substrBytes, isOffset, Outcome.ok_bind, lastOffset, if_neg (not_not.mpr empty)]
    cases overflowChecks with
    | true => exact ⟨_, rfl⟩
    | false =>
      refine ⟨.panic "range start index out of range for slice", ?_⟩
      rw [if_neg (by decide), Outcome.ok_bind, sliceAfter, if_pos small, empty, if_neg (by simp)]
      rfl

theorem cutAt_drop_eq_iff {rest : Bytes} {skip : Nat} (skips : 0 < skip)
    (short : rest.length < 2 ^ 63) (count : Option (BitVec 64)) :
    cutAt count BitVec.toNat (rest.drop skip) = cutAt count (·.toInt.toNat) rest ↔
      rest = [] ∨ ∃ asked, count = some asked ∧ HidesSkipped rest skip asked := by
  by_cases empty : rest = []
  · subst empty
    cases count <;> simp [cutAt]
  rw [or_iff_right empty]
  have long := length_pos_iff.mpr empty
  cases count with
  | none =>
    refine ⟨fun same => ?_, nofun⟩
    have lengths := congrArg length same
    rw [cutAt, cutAt, length_drop] at lengths
    omega
  | some asked =>
    simp only [Option.some.injEq, exists_eq_left', cutAt, HidesSkipped]
    have isSigned := asked.toInt_eq_toNat_cond
    rcases Int.lt_trichotomy asked.toInt 0 with negative | zero | positive
    · have all : rest.length ≤ asked.toNat := by
        split_ifs at isSigned <;> omega
      rw [Int.toNat_of_nonpos (by omega), take_zero, take_of_length_le
        (by rw [length_drop]; omega), drop_eq_nil_iff]
      omega
    · have none : asked.toNat = 0 := by
        split_ifs at isSigned <;> omega
      simp [zero, none]
    · have same : asked.toInt.toNat = asked.toNat := by
        split_ifs at isSigned <;> omega
      rw [same]
      refine ⟨fun equal => .inr (.inr ⟨positive, ?_, equal⟩), fun cases => ?_⟩
      · -- Both parts have as many bytes as are asked for.
        have lengths := congrArg length equal
        rw [length_take, length_take, length_drop] at lengths
        omega
      · rcases cases with zero | ⟨negative, -⟩ | ⟨-, -, equal⟩
        · omega
        · omega
        · exact equal

/-- The function returns what MySQL returns if and only if the value is not empty, the start can be
negated, and there is no byte at the position or the count hides the skipped bytes. -/
theorem substr_eq_mysql_iff (overflowChecks : Bool) (array : BinaryValue) (start : BitVec 64)
    (count : Option (BitVec 64)) :
    let rest := bytesFrom array start
    substrRow overflowChecks (some array) (some start) count =
        .ok (some (mysqlSubstr array start count)) ↔
      ¬(array.bytes = [] ∨ overflowChecks = true ∧ start = .intMin 64) ∧
        (rest = [] ∨ ∃ asked, count = some asked ∧ HidesSkipped rest (skipped start) asked) := by
  intro rest
  rw [substrRow, Option.getD_some]
  by_cases panics : array.bytes = [] ∨ overflowChecks = true ∧ start = .intMin 64
  · obtain ⟨failure, failed⟩ := @substrBytes_panics _ _ _ count panics
    rw [failed]
    exact ⟨nofun, fun both => absurd panics both.1⟩
  · have skips : 0 < skipped start := by
      unfold skipped
      split_ifs <;> omega
    have shorter : rest.length ≤ array.bytes.length := by
      unfold rest bytesFrom
      split_ifs <;> simp
    rw [and_iff_right panics, ← cutAt_drop_eq_iff skips (Nat.lt_of_le_of_lt shorter array.addressable),
      substrBytes_eq (panics ∘ .inl) (panics ∘ .inr)]
    exact ⟨fun same => Option.some.inj (Except.ok.inj same), fun same => by rw [same]; rfl⟩

/-- The second of three bytes: MySQL returns it and its successor, and the function nothing. An
empty value makes the function panic. -/
theorem substr_differs :
    substrRow true (some ⟨[1, 2, 3], by decide⟩) (some 2) none = .ok (some []) ∧
      mysqlSubstr ⟨[1, 2, 3], by decide⟩ 2 none = [2, 3] ∧
      substrRow false (some ⟨[], by decide⟩) (some 1) none =
        .error (.panic "range start index out of range for slice") ∧
      mysqlSubstr ⟨[], by decide⟩ 1 none = [] := by
  decide +kernel

end SecureFusion.Udf
