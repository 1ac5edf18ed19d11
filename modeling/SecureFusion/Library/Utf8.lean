import Mathlib.Data.List.Basic
import Mathlib.Data.List.TakeWhile
import SecureFusion.Library.Bytes

/-!
# Valid and invalid parts of byte strings

A decoder of UTF-8 that never fails: it takes a byte string apart into chunks, each a
valid part followed by the longest start of a character that does not go on as one.
Forgetting the borders of the chunks leaves, for every byte, the mark that says if it
is in a valid part. An ASCII byte is always valid and separates what is before it from
what is after it.
-/

namespace SecureFusion.Library

open List

variable {ascii : UInt8} {bytes : Bytes} {fuel : Nat} (first : UInt8)

def isContinuation (byte : UInt8) : Bool := 0x80 ≤ byte && byte ≤ 0xBF

/-- The number of bytes of the characters that start with a byte, 0 if none does. -/
def utf8CharWidth (byte : UInt8) : Nat :=
  if byte < 0x80 then 1
  else if byte < 0xC2 then 0
  else if byte < 0xE0 then 2
  else if byte < 0xF0 then 3
  else if byte < 0xF5 then 4
  else 0

/-- The second byte is allowed after the first one of a character of three or four bytes. -/
def allowsSecond (first second : UInt8) : Bool :=
  isContinuation second &&
    (if first = 0xE0 then 0xA0 ≤ second
    else if first = 0xED then second ≤ 0x9F
    else if first = 0xF0 then 0x90 ≤ second
    else if first = 0xF4 then second ≤ 0x8F
    else true)

/-- How many bytes are inspected at the start of a string, and if they are a character. Bytes
after the end count as 0. -/
def utf8Step (first : UInt8) (rest : Bytes) : Nat × Bool :=
  match utf8CharWidth first with
  | 1 => (1, true)
  | 2 => if isContinuation (rest.getD 0 0) then (2, true) else (1, false)
  | 3 =>
    if allowsSecond first (rest.getD 0 0) then
      if isContinuation (rest.getD 1 0) then (3, true) else (2, false)
    else (1, false)
  | 4 =>
    if allowsSecond first (rest.getD 0 0) then
      if isContinuation (rest.getD 1 0) then
        if isContinuation (rest.getD 2 0) then (4, true) else (3, false)
      else (2, false)
    else (1, false)
  | _ => (1, false)

/-- A valid part and the invalid bytes after it. -/
structure Utf8Chunk where
  valid : Bytes
  invalid : Bytes
deriving DecidableEq, Repr

/-- The first chunk and what is left, for strings of at most fuel bytes. -/
def nextChunk : Nat → Bytes → Utf8Chunk × Bytes
  | fuel + 1, first :: rest =>
    let (count, valid) := utf8Step first rest
    let bytes := first :: rest
    if valid then
      let (chunk, left) := nextChunk fuel (bytes.drop count)
      ({ chunk with valid := bytes.take count ++ chunk.valid }, left)
    else (⟨[], bytes.take count⟩, bytes.drop count)
  | _, bytes => (⟨[], []⟩, bytes)

def chunksWithin : Nat → Bytes → List Utf8Chunk
  | fuel + 1, first :: rest =>
    let (chunk, left) := nextChunk (fuel + 1) (first :: rest)
    chunk :: chunksWithin fuel left
  | _, _ => []

def utf8Chunks (bytes : Bytes) : List Utf8Chunk := chunksWithin bytes.length bytes

abbrev MarkedByte := UInt8 × Bool

def Utf8Chunk.marked (chunk : Utf8Chunk) : List MarkedByte :=
  chunk.valid.map (·, true) ++ chunk.invalid.map (·, false)

def markWithin : Nat → Bytes → List MarkedByte
  | fuel + 1, first :: rest =>
    let (count, valid) := utf8Step first rest
    let bytes := first :: rest
    (bytes.take count).map (·, valid) ++ markWithin fuel (bytes.drop count)
  | _, _ => []

/-- Every byte with whether it is in a valid part. -/
def mark (bytes : Bytes) : List MarkedByte := markWithin bytes.length bytes

/-- All bytes are in valid parts. -/
def isUtf8 (bytes : Bytes) : Bool := (mark bytes).all (·.2)

def validStart (bytes : Bytes) : Bytes := ((mark bytes).takeWhile (·.2)).map Prod.fst

/-! ## One character -/

section Step

theorem utf8Step_ascii {first : UInt8} (ascii : first < 0x80) (rest : Bytes) :
    utf8Step first rest = (1, true) := by
  simp [utf8Step, utf8CharWidth, ascii]

theorem utf8Step_pos (rest : Bytes) : 0 < (utf8Step first rest).1 := by
  unfold utf8Step
  split <;> (try split_ifs) <;> decide

theorem not_isContinuation_ascii {byte : UInt8} (ascii : byte < 0x80) :
    isContinuation byte = false := by
  have small : ¬ (0x80 : UInt8) ≤ byte := UInt8.not_le.mpr ascii
  simp [isContinuation, small]

theorem not_allowsSecond_ascii {second : UInt8} (ascii : second < 0x80) :
    allowsSecond first second = false := by
  simp [allowsSecond, not_isContinuation_ascii ascii]

theorem utf8Step_append (isAscii : ascii < 0x80) (first : UInt8) (before after : Bytes) :
    utf8Step first (before ++ ascii :: after) = utf8Step first before ∧
      (utf8Step first before).1 ≤ before.length + 1 := by
  have zero : (0 : UInt8) < 0x80 := by decide
  have noSecond := not_allowsSecond_ascii first isAscii
  have noSecondZero := not_allowsSecond_ascii first zero
  have noContinuation := not_isContinuation_ascii isAscii
  have noContinuationZero := not_isContinuation_ascii zero
  unfold utf8Step
  -- Three bytes after the first are all that is looked at.
  rcases before with _ | ⟨second, _ | ⟨third, _ | ⟨fourth, more⟩⟩⟩
  all_goals
    simp only [nil_append, cons_append, getD_cons_zero, getD_cons_succ, getD_nil, noSecond,
      noSecondZero, noContinuation, noContinuationZero, length_cons, length_nil]
    split <;> (try split_ifs) <;> simp_all

end Step

/-! ## Marks -/

theorem markWithin_eq_mark (enough : bytes.length ≤ fuel) : markWithin fuel bytes = mark bytes := by
  unfold mark
  induction fuel using Nat.strongRecOn generalizing bytes with
  | _ fuel ih =>
    cases bytes with
    | nil => cases fuel <;> rfl
    | cons first rest =>
      cases fuel with
      | zero => simp at enough
      | succ fuel =>
        have counted := utf8Step_pos first rest
        have shorter : ((first :: rest).drop (utf8Step first rest).1).length ≤ rest.length := by
          rw [length_drop, length_cons]
          omega
        rw [length_cons] at enough
        rw [markWithin, length_cons, markWithin]
        dsimp only
        rw [ih fuel (Nat.lt_succ_self fuel) (by omega)]
        rcases Nat.lt_or_ge rest.length fuel.succ with less | more
        · rw [ih rest.length (by omega) shorter]
        · omega

theorem mark_cons (rest : Bytes) :
    mark (first :: rest) =
      ((first :: rest).take (utf8Step first rest).1).map (·, (utf8Step first rest).2) ++
        mark ((first :: rest).drop (utf8Step first rest).1) := by
  have counted := utf8Step_pos first rest
  rw [mark, length_cons, markWithin]
  dsimp only
  rw [markWithin_eq_mark]
  rw [length_drop, length_cons]
  omega

@[simp] theorem mark_nil : mark [] = [] := rfl

theorem mark_ascii (isAscii : ascii < 0x80) (rest : Bytes) :
    mark (ascii :: rest) = (ascii, true) :: mark rest := by
  rw [mark_cons, utf8Step_ascii isAscii]
  rfl

theorem mark_append_ascii (isAscii : ascii < 0x80) (before after : Bytes) :
    mark (before ++ ascii :: after) = mark before ++ (ascii, true) :: mark after := by
  induction length : before.length using Nat.strongRecOn generalizing before with
  | _ count ih =>
    cases before with
    | nil => exact mark_ascii isAscii after
    | cons first rest =>
      obtain ⟨sameStep, within⟩ := utf8Step_append isAscii first rest after
      have counted := utf8Step_pos first rest
      have inBefore : (utf8Step first rest).1 ≤ (first :: rest).length := by
        rw [length_cons]
        exact within
      rw [cons_append, mark_cons, sameStep, ← cons_append, take_append_of_le_length inBefore,
        drop_append_of_le_length inBefore,
        ih _ (by rw [← length, length_drop, length_cons]; omega) _ rfl, mark_cons first rest,
        append_assoc]

theorem map_fst_mark (bytes : Bytes) : (mark bytes).map Prod.fst = bytes := by
  induction length : bytes.length using Nat.strongRecOn generalizing bytes with
  | _ count ih =>
    cases bytes with
    | nil => rfl
    | cons first rest =>
      have counted := utf8Step_pos first rest
      rw [mark_cons, map_append, map_map,
        ih _ (by rw [← length, length_drop, length_cons]; omega) _ rfl]
      conv_rhs => rw [← take_append_drop (utf8Step first rest).1 (first :: rest)]
      simp [Function.comp_def]

theorem valid_of_ascii {marked : MarkedByte} (isIn : marked ∈ mark bytes) (ascii : marked.1 < 0x80)
    : marked.2 = true := by
  -- Before the byte, the marks are those of the string that ends there.
  obtain ⟨before, after, split⟩ := append_of_mem isIn
  have bytesSplit : bytes = before.map Prod.fst ++ marked.1 :: after.map Prod.fst := by
    rw [← map_fst_mark bytes, split, map_append, map_cons]
  have marks := mark_append_ascii ascii (before.map Prod.fst) (after.map Prod.fst)
  rw [← bytesSplit, split] at marks
  have sameLength : before.length = (mark (before.map Prod.fst)).length := by
    have lengths := congrArg length (map_fst_mark (before.map Prod.fst))
    rw [length_map, length_map] at lengths
    exact lengths.symm
  have tail := (append_inj marks sameLength).2
  exact congrArg Prod.snd (cons.inj tail).1

theorem mark_of_isUtf8 (valid : isUtf8 bytes = true) : mark bytes = bytes.map (·, true) := by
  conv_rhs => rw [← map_fst_mark bytes, map_map]
  refine (map_id (mark bytes)).symm.trans (map_congr_left fun marked isIn => ?_)
  have isValid : marked.2 = true := all_eq_true.mp valid marked isIn
  exact Prod.ext rfl isValid

theorem exists_first_invalid (invalid : isUtf8 bytes = false) :
    ∃ byte after, mark bytes = (validStart bytes).map (·, true) ++ (byte, false) :: after := by
  have notAll : (mark bytes).dropWhile (·.2) ≠ [] := by
    intro all
    rw [dropWhile_eq_nil_iff] at all
    rw [isUtf8, all_eq_true.mpr all] at invalid
    cases invalid
  obtain ⟨⟨byte, flag⟩, after, rest⟩ := exists_cons_of_ne_nil notAll
  have isInvalid : flag = false := by
    have first := head_dropWhile_not (fun marked : MarkedByte => marked.2) notAll
    simp only [rest, head_cons] at first
    exact first
  have start : (mark bytes).takeWhile (·.2) = (validStart bytes).map (·, true) := by
    rw [validStart, map_map]
    refine (map_id _).symm.trans (map_congr_left fun marked isIn => ?_)
    exact Prod.ext rfl (mem_takeWhile_imp isIn)
  refine ⟨byte, after, ?_⟩
  conv_lhs => rw [← takeWhile_append_dropWhile (p := (·.2)) (l := mark bytes)]
  rw [start, rest, isInvalid]

/-! ## Chunks -/

theorem nextChunk_spec (enough : bytes.length ≤ fuel) :
    (nextChunk fuel bytes).1.marked ++ mark (nextChunk fuel bytes).2 = mark bytes ∧
      ((nextChunk fuel bytes).1.invalid = [] → (nextChunk fuel bytes).2 = []) ∧
      (nextChunk fuel bytes).2.length ≤ bytes.length - 1 := by
  induction fuel generalizing bytes with
  | zero =>
    have empty : bytes = [] := length_eq_zero_iff.mp (Nat.le_zero.mp enough)
    subst empty
    exact ⟨rfl, fun _ => rfl, Nat.le_refl 0⟩
  | succ fuel ih =>
    cases bytes with
    | nil => exact ⟨rfl, fun _ => rfl, Nat.le_refl 0⟩
    | cons first rest =>
      have counted := utf8Step_pos first rest
      rw [length_cons] at enough
      have shorter : ((first :: rest).drop (utf8Step first rest).1).length ≤ rest.length := by
        rw [length_drop, length_cons]
        omega
      have atLeft := ih (Nat.le_trans shorter (Nat.le_of_succ_le_succ enough))
      rw [mark_cons first rest, nextChunk]
      dsimp only
      cases isValid : (utf8Step first rest).2 with
      | true =>
        rw [if_pos rfl]
        refine ⟨?_, atLeft.2.1, ?_⟩
        · rw [← atLeft.1]
          simp [Utf8Chunk.marked]
        · rw [length_cons]
          exact Nat.le_trans atLeft.2.2 (Nat.le_trans (Nat.sub_le _ 1) shorter)
      | false =>
        rw [if_neg (by decide)]
        refine ⟨by simp [Utf8Chunk.marked], ?_, ?_⟩
        · intro empty
          have none := congrArg length empty
          rw [length_take, length_cons, length_nil] at none
          omega
        · rw [length_cons]
          exact shorter

theorem marked_chunksWithin (enough : bytes.length ≤ fuel) :
    (chunksWithin fuel bytes).flatMap Utf8Chunk.marked = mark bytes := by
  induction fuel generalizing bytes with
  | zero =>
    have empty : bytes = [] := length_eq_zero_iff.mp (Nat.le_zero.mp enough)
    subst empty
    rfl
  | succ fuel ih =>
    cases bytes with
    | nil => rfl
    | cons first rest =>
      obtain ⟨marks, -, shorter⟩ := nextChunk_spec enough
      rw [length_cons] at enough shorter
      rw [chunksWithin]
      dsimp only
      rw [flatMap_cons, ih (by omega), marks]

theorem isChain_chunksWithin (fuel : Nat) (bytes : Bytes) (enough : bytes.length ≤ fuel) :
    (chunksWithin fuel bytes).IsChain fun chunk _ => chunk.invalid ≠ [] := by
  induction fuel generalizing bytes with
  | zero => exact .nil
  | succ fuel ih =>
    cases bytes with
    | nil => exact .nil
    | cons first rest =>
      obtain ⟨-, nothingLeft, shorter⟩ := nextChunk_spec enough
      rw [length_cons] at enough shorter
      rw [chunksWithin]
      dsimp only
      have others := ih (nextChunk (fuel + 1) (first :: rest)).2 (by omega)
      cases more : chunksWithin fuel (nextChunk (fuel + 1) (first :: rest)).2 with
      | nil => exact .singleton _
      | cons next after =>
        rw [more] at others
        refine .cons_cons (fun noInvalid => ?_) others
        rw [nothingLeft noInvalid] at more
        cases fuel <;> cases more

theorem eq_nil_of_isChain {chunk : Utf8Chunk} {rest : List Utf8Chunk}
    (chain : (chunk :: rest).IsChain fun chunk _ => chunk.invalid ≠ [])
    (noInvalid : chunk.invalid = []) : rest = [] := by
  cases chain with
  | singleton => rfl
  | cons_cons notLast => exact absurd noInvalid notLast

theorem marked_utf8Chunks (bytes : Bytes) :
    (utf8Chunks bytes).flatMap Utf8Chunk.marked = mark bytes :=
  marked_chunksWithin (Nat.le_refl _)

theorem isChain_utf8Chunks (bytes : Bytes) :
    (utf8Chunks bytes).IsChain fun chunk _ => chunk.invalid ≠ [] :=
  isChain_chunksWithin _ _ (Nat.le_refl _)

end SecureFusion.Library
