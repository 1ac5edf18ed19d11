import Mathlib.Data.List.Infix

/-!
# Patterns of LIKE

A pattern is a text with two wildcards: one stands for any character, the other for any text. A
backslash takes the next character as it is.
-/

namespace SecureFusion.Sql

/-- A part of a pattern: a character, or a wildcard for one or for many characters. -/
inductive PatternItem where
  | char (value : Char)
  | one
  | many
deriving DecidableEq, Repr

def patternItems : List Char → List PatternItem
  | [] => []
  | ['\\'] => [.char '\\']
  | '\\' :: escaped :: rest => .char escaped :: patternItems rest
  | '%' :: rest => .many :: patternItems rest
  | '_' :: rest => .one :: patternItems rest
  | char :: rest => .char char :: patternItems rest

def likeMatches : List PatternItem → List Char → Bool
  | [], text => text.isEmpty
  | .char value :: items, text =>
    match text with
    | [] => false
    | first :: rest => value == first && likeMatches items rest
  | .one :: items, text =>
    match text with
    | [] => false
    | _ :: rest => likeMatches items rest
  | .many :: items, text => text.tails.any (likeMatches items)

variable {text : List Char}

theorem likeMatches_many {items : List PatternItem} :
    likeMatches (.many :: items) text = true ↔
      ∃ first rest, text = first ++ rest ∧ likeMatches items rest = true := by
  rw [likeMatches, List.any_eq_true]
  constructor
  · rintro ⟨rest, isTail, found⟩
    obtain ⟨first, same⟩ := (List.mem_tails _ _).mp isTail
    exact ⟨first, rest, same.symm, found⟩
  · rintro ⟨first, rest, rfl, found⟩
    exact ⟨rest, (List.mem_tails _ _).mpr (List.suffix_append first rest), found⟩

theorem likeMatches_append {first second : List PatternItem}
    (found : likeMatches (first ++ second) text = true) : ∃ start rest, text = start ++ rest ∧
      likeMatches first start = true ∧ likeMatches second rest = true := by
  induction first generalizing text with
  | nil => exact ⟨[], text, rfl, rfl, found⟩
  | cons item items ih =>
    rw [List.cons_append] at found
    cases item with
    | char value =>
      cases text with
      | nil => cases found
      | cons head tail =>
        rw [likeMatches, Bool.and_eq_true] at found
        obtain ⟨start, rest, rfl, isStart, isRest⟩ := ih found.2
        exact ⟨head :: start, rest, rfl, by rw [likeMatches, found.1, isStart]; rfl, isRest⟩
    | one =>
      cases text with
      | nil => cases found
      | cons head tail =>
        obtain ⟨start, rest, rfl, isStart, isRest⟩ := ih found
        exact ⟨head :: start, rest, rfl, isStart, isRest⟩
    | many =>
      obtain ⟨skipped, later, rfl, isLater⟩ := likeMatches_many.mp found
      obtain ⟨start, rest, rfl, isStart, isRest⟩ := ih isLater
      exact ⟨skipped ++ start, rest, by simp,
        likeMatches_many.mpr ⟨skipped, start, rfl, isStart⟩, isRest⟩

theorem likeMatches_chars {word text : List Char} :
    likeMatches (word.map .char) text = true ↔ text = word := by
  induction word generalizing text with
  | nil => exact List.isEmpty_iff
  | cons first rest ih =>
    cases text with
    | nil => simp [likeMatches]
    | cons head tail =>
      rw [List.map_cons, likeMatches, Bool.and_eq_true, beq_iff_eq, ih, List.cons.injEq, eq_comm]

/-- The character of a part, or one that is put in the place of a wildcard. -/
def PatternItem.fill (filler : Char) : PatternItem → Char
  | .char value => value
  | .one | .many => filler

theorem likeMatches_fill (filler : Char) (items : List PatternItem) :
    likeMatches items (items.map (PatternItem.fill filler)) = true := by
  induction items with
  | nil => rfl
  | cons item items ih =>
    cases item with
    | char value =>
      rw [List.map_cons, likeMatches, ih, Bool.and_true, beq_iff_eq]
      rfl
    | one => exact ih
    | many => exact likeMatches_many.mpr ⟨[filler], _, rfl, ih⟩

theorem mem_of_char_mem_patternItems {value : Char} {pattern : List Char}
    (isIn : .char value ∈ patternItems pattern) : value ∈ pattern := by
  fun_induction patternItems pattern with
  | case1 => cases isIn
  | case2 => simp_all
  | case3 escaped rest ih | case4 rest ih | case5 rest ih | case6 char rest _ _ _ _ ih => grind

end SecureFusion.Sql
