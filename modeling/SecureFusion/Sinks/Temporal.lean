import Mathlib.Tactic.IntervalCases
import SecureFusion.Sinks.Params

/-!
# Dates and times at the server and back

A timestamp is sent as a date with a time, a date and a time of day as the numbers of
their Arrow words. The server reads a number by its digits: as a year, month and day in a
date column, as hours, minutes and seconds in a time column.
-/

namespace SecureFusion.Sinks

open Sql Crypto

/-! ## The calendar -/

def daysBeforeYear (year : Nat) : Int :=
  365 * (year : Int) + (year + 3) / 4 - (year + 99) / 100 + (year + 399) / 400 - 719528

theorem daysBeforeYear_bounds {year : Nat} (late : 1970 ≤ year) :
    365 * ((year : Int) - 1970) ≤ daysBeforeYear year ∧
      daysBeforeYear year ≤ 366 * ((year : Int) - 1970) := by
  unfold daysBeforeYear
  omega

def monthLengths (year : Nat) : List Nat :=
  [31, if year % 4 = 0 ∧ (year % 100 ≠ 0 ∨ year % 400 = 0) then 29 else 28,
    31, 30, 31, 30, 31, 31, 30, 31, 30, 31]

/-- Days from the epoch to a date, none if there is no such date. -/
def dayNumber (year month day : Nat) : Option Int :=
  if 1 ≤ month ∧ 1 ≤ day ∧ day ≤ (monthLengths year).getD (month - 1) 0 then
    some (daysBeforeYear year + ((monthLengths year).take (month - 1)).sum + (day - 1))
  else none

theorem dayNumber_bounds {year month day : Nat} {number : Int}
    (isDate : dayNumber year month day = some number) :
    month ≤ 12 ∧ daysBeforeYear year ≤ number ∧ number < daysBeforeYear year + 366 := by
  unfold dayNumber at isDate
  split at isDate
  case isFalse => cases isDate
  case isTrue valid =>
    obtain ⟨atLeast, positive, most⟩ := valid
    have inYear : month ≤ 12 := by
      by_contra late
      have beyond : (monthLengths year).getD (month - 1) 0 = 0 := by
        rw [List.getD_eq_getElem?_getD, List.getElem?_eq_none]
        · rfl
        · change 12 ≤ month - 1
          omega
      omega
    have february : (monthLengths year).getD 1 0 ≤ 29 := by
      unfold monthLengths
      split <;> decide
    have total : ((monthLengths year).take (month - 1)).sum + day ≤ 366 := by
      generalize isLength : (monthLengths year).getD 1 0 = length at february
      have lengths : monthLengths year = [31, length, 31, 30, 31, 30, 31, 31, 30, 31, 30, 31] := by
        rw [← isLength]
        rfl
      rw [lengths] at most ⊢
      interval_cases month <;> simp at most ⊢ <;> omega
    cases isDate
    omega

/-! ## Numbers at the server -/

/-- The digits of a date that the server reads a number as, with the century that two digits
of a year stand for. -/
def digitsOfDate (number : Int) : Option Int :=
  if number = 0 then some 0
  else if number < 101 then none
  else if number ≤ 691231 then some (number + 20000000)
  else if number < 700101 then none
  else if number ≤ 991231 then some (number + 19000000)
  else if number < 10000101 then none
  else some number

/-- The digits of a date and a time that the server reads a long number as. -/
def digitsOfDatetime (number : Int) : Option Int :=
  if number < 101000000 then none
  else if number ≤ 691231235959 then some (number + 20000000000000)
  else if number < 700101000000 then none
  else if number ≤ 991231235959 then some (number + 19000000000000)
  else if number ≤ 99999999999999 then some number
  else none

theorem digitsOfDatetime_mod {number digits : Int}
    (isDigits : digitsOfDatetime number = some digits) :
    digits % 1000000 = number % 1000000 := by
  unfold digitsOfDatetime at isDigits
  split_ifs at isDigits <;> cases isDigits <;> omega

/-- A stored date or time: days, or microseconds. -/
inductive Stored where
  | zeroDate
  | date (days : Int)
  | time (microseconds : Int)
  | datetime (microseconds : Int)
deriving DecidableEq, Repr

def dateOfNumber (number : Int) : Option Stored :=
  let digits :=
    if number ≤ 99991231 then digitsOfDate number
    else (digitsOfDatetime number).map (· / 1000000)
  digits.bind fun date =>
    if date = 0 then some .zeroDate
    else
      (dayNumber (date / 10000).toNat (date / 100 % 100).toNat (date % 100).toNat).map .date

/-- The microseconds of the hours, minutes and seconds that digits stand for. -/
def timeOfDigits (digits : Int) : Option Int :=
  if digits / 100 % 100 < 60 ∧ digits % 100 < 60 then
    some ((digits / 10000 * 3600 + digits / 100 % 100 * 60 + digits % 100) * 1000000)
  else none

/-- The time that a number stands for; a long number is one of a date and a time. -/
def timeOfNumber (number : Int) : Option Stored :=
  if number < 0 then
    if -8385959 ≤ number then (timeOfDigits (-number)).map fun time => .time (-time) else none
  else if number ≤ 8385959 then (timeOfDigits number).map .time
  else if 10000000000 ≤ number then
    (digitsOfDatetime number).bind fun digits => (timeOfDigits (digits % 1000000)).map .time
  else none

/-! ## Columns -/

/-- Types of columns with dates and times. -/
inductive TemporalColumn where
  | date
  | time
  | datetime
  | timestamp
deriving DecidableEq, Repr

namespace TemporalColumn

def arrowType : TemporalColumn → PrimitiveType
  | date => .date32
  | time => .time64Nanosecond
  | datetime | timestamp => .timestamp .microsecond (some "+00")

/-- The words that stand for what a column can store: days from the year 1000 to 9999, times from
-838:59:59 to 838:59:59 in whole microseconds, and microseconds from the year 1000 to 9999 or from
1970 to 2038. -/
def InRange (word : Int) : TemporalColumn → Prop
  | date => -354285 ≤ word ∧ word ≤ 2932896
  | time => -3020399000000000 ≤ word ∧ word ≤ 3020399000000000 ∧ word % 1000 = 0
  | datetime => -30610224000000000 ≤ word ∧ word ≤ 253402300799999999
  | timestamp => 1000000 ≤ word ∧ word ≤ 2147483647999999

/-- What the server stores for a parameter, none if it rejects it. -/
def store : TemporalColumn → Value → Option Stored
  | date, .int number => dateOfNumber number
  | time, .int number => timeOfNumber number
  | datetime, .date microseconds | timestamp, .date microseconds => some (.datetime microseconds)
  | _, _ => none

/-- The Arrow value that is read for a stored value; a time must be one of a day. -/
def read (column : TemporalColumn) (stored : Stored) : Option ScalarValue :=
  match column, stored with
  | .date, .zeroDate => some (.primitive .date32 none)
  | .date, .date days => some (.primitive .date32 (some (BitVec.ofInt 32 days)))
  | .time, .time microseconds =>
    if 0 ≤ microseconds ∧ microseconds < 86400000000 then
      some (.primitive .time64Nanosecond (some (BitVec.ofInt 64 (microseconds * 1000))))
    else none
  | .datetime, .datetime microseconds | .timestamp, .datetime microseconds =>
    -- nanoseconds from the epoch, divided by a thousand again
    some (.primitive (.timestamp .microsecond (some "+00"))
      (some (BitVec.ofInt 64 ((microseconds * 1000).tdiv 1000))))
  | _, _ => none

def RoundTrips (column : TemporalColumn) (word : BitVec column.arrowType.width) : Prop :=
  ∃ value stored, toValue (.primitive column.arrowType (some word)) = .ok value ∧
    column.store value = some stored ∧
    column.read stored = some (.primitive column.arrowType (some word))

def ComesBack (word : Int) : TemporalColumn → Prop
  | date => False
  | time => word = 0
  | datetime | timestamp => -2 ^ 63 ≤ word * 1000 ∧ word * 1000 < 2 ^ 63

end TemporalColumn

theorem dateOfNumber_ne {days number : Int} (most : days ≤ 2932896)
    (same : dateOfNumber days = some (.date number)) :
    0 ≤ number ∧ number < 40000 ∧ number ≠ days := by
  have short : days ≤ 99991231 := by omega
  unfold dateOfNumber at same
  rw [if_pos short] at same
  obtain ⟨date, isDigits, same⟩ := Option.bind_eq_some_iff.mp same
  by_cases zero : date = 0
  · rw [if_pos zero] at same
    cases same
  rw [if_neg zero] at same
  obtain ⟨found, isDate, isNumber⟩ := Option.map_eq_some_iff.mp same
  cases isNumber
  have ⟨month, first, last⟩ := dayNumber_bounds isDate
  have late : 1970 ≤ (date / 10000).toNat := by
    unfold digitsOfDate at isDigits
    split_ifs at isDigits <;> cases isDigits <;> omega
  have year := daysBeforeYear_bounds late
  have hundreds : date / 100 = date / 10000 * 100 + date / 100 % 100 := by omega
  unfold digitsOfDate at isDigits
  split_ifs at isDigits <;> cases isDigits <;> omega

theorem timeOfNumber_eq_iff {nanoseconds microseconds : Int} (scaled : nanoseconds =
    microseconds * 1000) (positive : 0 ≤ nanoseconds) :
    timeOfNumber nanoseconds = some (.time microseconds) ↔ nanoseconds = 0 := by
  constructor
  · intro same
    have digit : ∀ {digits : Int}, (timeOfDigits digits).map Stored.time =
        some (.time microseconds) →
        microseconds = (digits / 10000 * 3600 + digits / 100 % 100 * 60 + digits % 100) *
          1000000 := by
      intro digits isTime
      unfold timeOfDigits at isTime
      split at isTime <;> cases isTime
      rfl
    unfold timeOfNumber at same
    rw [if_neg (by omega)] at same
    split_ifs at same with short long
    · have time := digit same
      omega
    · obtain ⟨digits, isDigits, isTime⟩ := Option.bind_eq_some_iff.mp same
      have time := digit isTime
      have last := digitsOfDatetime_mod isDigits
      omega
  · intro zero
    have none : microseconds = 0 := by omega
    rw [zero, none]
    rfl

theorem ofInt_eq_iff {width : Nat} {number : Int} (least : -(2 ^ width : Int) ≤ 2 * number)
    (most : 2 * number < 2 ^ width) (word : BitVec width) :
    BitVec.ofInt width number = word ↔ number = word.toInt := by
  rw [← BitVec.toInt_inj, BitVec.toInt_ofInt, Int.bmod_eq_of_le]
  · push_cast
    omega
  · push_cast
    omega

theorem microseconds_comeBack_iff (word : BitVec 64) :
    BitVec.ofInt 64 (((word.toInt * 1000).bmod (2 ^ 64) / 1000 * 1000).tdiv 1000) = word ↔
      -2 ^ 63 ≤ word.toInt * 1000 ∧ word.toInt * 1000 < 2 ^ 63 := by
  have low := @Int.le_bmod (word.toInt * 1000) (2 ^ 64) (by decide)
  have high := @Int.bmod_lt (word.toInt * 1000) (2 ^ 64) (by decide)
  have whole : word.toInt * 1000 / 1000 = word.toInt := Int.mul_ediv_cancel _ (by decide)
  rw [Int.mul_tdiv_cancel _ (by decide), ofInt_eq_iff (by omega) (by omega),
    ← bmod_div_eq_iff, whole]

theorem eq_of_read {type : PrimitiveType} {read word : BitVec type.width}
    (same : some (ScalarValue.primitive type (some read)) = some (.primitive type (some word))) :
    read = word := by
  cases same
  rfl

namespace TemporalColumn

/-- A value in the range of its column comes back precisely if it is a timestamp whose
nanoseconds fit 64 bits, or midnight. -/
theorem roundTrips_iff (column : TemporalColumn) (word : BitVec column.arrowType.width)
    (inRange : column.InRange word.toInt) :
    column.RoundTrips word ↔ column.ComesBack word.toInt := by
  cases column with
  | date =>
    refine iff_of_false ?_ id
    rintro ⟨value, stored, written, isStored, isRead⟩
    cases written
    cases stored with
    | zeroDate | time | datetime => cases isRead
    | date days =>
      have ⟨least, most, other⟩ := dateOfNumber_ne inRange.2 isStored
      have same : BitVec.ofInt 32 days = word := eq_of_read isRead
      exact other ((@ofInt_eq_iff 32 days (by omega) (by omega) word).mp same)
  | time =>
    constructor
    · rintro ⟨value, stored, written, isStored, isRead⟩
      cases written
      cases stored with
      | zeroDate | date | datetime => cases isRead
      | time microseconds =>
        change (if 0 ≤ microseconds ∧ microseconds < 86400000000 then _ else none) = _ at isRead
        split at isRead
        case isFalse => cases isRead
        case isTrue ofDay =>
          have same : BitVec.ofInt 64 (microseconds * 1000) = word := eq_of_read isRead
          have scaled : microseconds * 1000 = word.toInt :=
            (@ofInt_eq_iff 64 _ (by omega) (by omega) word).mp same
          -- What is read is a time of a day, so the word was no negative one.
          exact (timeOfNumber_eq_iff scaled.symm (by omega)).mp isStored
    · intro midnight
      have zero : word = 0 := BitVec.toInt_inj.mp midnight
      subst zero
      exact ⟨.int 0, .time 0, rfl, rfl, rfl⟩
  | datetime | timestamp =>
    refine Iff.trans ?_ (microseconds_comeBack_iff word)
    constructor
    · rintro ⟨value, stored, written, isStored, isRead⟩
      cases written
      cases isStored
      exact eq_of_read isRead
    · intro same
      exact ⟨_, _, rfl, rfl, congrArg
        (some <| ScalarValue.primitive (.timestamp .microsecond (some "+00")) <| some ·) same⟩

/-- A timestamp of the year 2000 comes back. -/
theorem datetime_of_2000_roundTrips : RoundTrips .datetime (BitVec.ofInt 64 946684800000000) :=
  (roundTrips_iff .datetime (BitVec.ofInt 64 946684800000000) ⟨by decide, by decide⟩).mpr
    ⟨by decide, by decide⟩

/-- The first of January 2000 is sent as a number that is no date, one microsecond after midnight
as ten minutes and one before it as minus ten minutes, which cannot be read, and the last second of
9999 overflows. -/
theorem temporal_values_change :
    toValue (.primitive .date32 (some (BitVec.ofInt 32 10957))) = .ok (.int 10957) ∧
      store .date (.int 10957) = none ∧
      store .time (.int 1000) = some (.time 600000000) ∧
      store .time (.int (-1000)) = some (.time (-600000000)) ∧
      read .time (.time (-600000000)) = none ∧
      toValue (.primitive (.timestamp .microsecond (some "+00"))
        (some (BitVec.ofInt 64 253402300799000000))) ≠ .ok (.date 253402300799000000) := by
  refine ⟨rfl, by decide, by decide, by decide, rfl, fun same => ?_⟩
  cases same

end TemporalColumn

end SecureFusion.Sinks
