import Mathlib.Data.List.Infix

/-!
# Words of a list

Separators cut a list into words. A word of a list is a part without separators that reaches
from the start of the list or a separator to the next separator or the end. Words are kept when
elements are replaced by lists, as long as separators stay what they are, and when separators are
removed at the ends.
-/

namespace SecureFusion.Library

open List

variable {α β : Type} {isSeparator : α → Bool} {drops : α → Bool} {word list : List α}

theorem words_induction (isSeparator : α → Bool) {motive : List α → Prop}
    (last : ∀ word, (∀ x ∈ word, isSeparator x = false) → motive word)
    (next : ∀ word separator rest, (∀ x ∈ word, isSeparator x = false) →
      isSeparator separator = true → motive rest → motive (word ++ separator :: rest))
    (list : List α) : motive list := by
  suffices continued : ∀ word, (∀ x ∈ word, isSeparator x = false) → motive (word ++ list) from
    continued [] nofun
  induction list with
  | nil =>
    intro word plain
    rw [append_nil]
    exact last word plain
  | cons x rest ih =>
    intro word plain
    cases separates : isSeparator x with
    | true => exact next word x rest plain separates (ih [] nofun)
    | false =>
      rw [append_cons]
      exact ih (word ++ [x])
        (forall_mem_append.mpr ⟨plain, forall_mem_singleton.mpr separates⟩)

def EndsSeparated (isSeparator : α → Bool) (list : List α) : Prop :=
  list = [] ∨ ∃ first separator, list = first ++ [separator] ∧ isSeparator separator = true

def StartsSeparated (isSeparator : α → Bool) (list : List α) : Prop :=
  list = [] ∨ ∃ separator rest, list = separator :: rest ∧ isSeparator separator = true

theorem mem_splitOnP_iff :
    word ∈ list.splitOnP isSeparator ↔ (∀ x ∈ word, isSeparator x = false) ∧
      ∃ before after, list = before ++ word ++ after ∧ EndsSeparated isSeparator before ∧
        StartsSeparated isSeparator after := by
  constructor
  · intro isWord
    induction list using words_induction isSeparator with
    | last only plain =>
      rw [splitOnP_eq_singleton plain, mem_singleton] at isWord
      subst isWord
      exact ⟨plain, [], [], by simp, .inl rfl, .inl rfl⟩
    | next first separator rest plain separates ih =>
      rw [splitOnP_append_cons_of_forall_mem plain separator separates] at isWord
      rcases mem_cons.mp isWord with rfl | later
      · exact ⟨plain, [], separator :: rest, by simp, .inl rfl, .inr ⟨_, _, rfl, separates⟩⟩
      · obtain ⟨plainWord, before, after, rfl, ends, starts⟩ := ih later
        refine ⟨plainWord, first ++ separator :: before, after, by simp, .inr ?_, starts⟩
        rcases ends with rfl | ⟨start, closing, rfl, closes⟩
        · exact ⟨first, separator, rfl, separates⟩
        · exact ⟨first ++ separator :: start, closing, by simp, closes⟩
  · rintro ⟨plain, before, after, rfl, ends, starts⟩
    have inRest : word ∈ (word ++ after).splitOnP isSeparator := by
      rcases starts with rfl | ⟨separator, rest, rfl, separates⟩
      · rw [append_nil, splitOnP_eq_singleton plain]
        exact mem_singleton_self word
      · rw [splitOnP_append_cons_of_forall_mem plain separator separates]
        exact mem_cons_self
    rcases ends with rfl | ⟨start, separator, rfl, separates⟩
    · exact inRest
    · rw [append_assoc, append_assoc, singleton_append, splitOnP_append_cons _ _ separates]
      exact mem_append_right _ inRest

/-- Elements replaced by lists, separators by separators and others by lists without separators. -/
structure KeepsWords (isSeparator : α → Bool) (isTarget : β → Bool) (replace : α → List β) :
    Prop where
  separator : ∀ x, isSeparator x = true → ∃ y, replace x = [y] ∧ isTarget y = true
  other : ∀ x, isSeparator x = false → ∀ y ∈ replace x, isTarget y = false

theorem KeepsWords.splitOnP_flatMap {isTarget : β → Bool} {replace : α → List β}
    (keeps : KeepsWords isSeparator isTarget replace) (list : List α) :
    (list.flatMap replace).splitOnP isTarget =
      (list.splitOnP isSeparator).map (List.flatMap replace) := by
  have plainWord : ∀ word : List α, (∀ x ∈ word, isSeparator x = false) →
      ∀ y ∈ word.flatMap replace, isTarget y = false := by
    intro word plain y isIn
    obtain ⟨x, inWord, isOf⟩ := mem_flatMap.mp isIn
    exact keeps.other x (plain x inWord) y isOf
  induction list using words_induction isSeparator with
  | last word plain =>
    rw [splitOnP_eq_singleton plain, splitOnP_eq_singleton (plainWord word plain)]
    rfl
  | next word separator rest plain separates ih =>
    obtain ⟨target, isTarget, targets⟩ := keeps.separator separator separates
    rw [flatMap_append, flatMap_cons, isTarget, singleton_append,
      splitOnP_append_cons_of_forall_mem (plainWord word plain) target targets,
      splitOnP_append_cons_of_forall_mem plain separator separates, ih, map_cons]

theorem mem_splitOnP_reverse :
    word ∈ list.reverse.splitOnP isSeparator ↔ word.reverse ∈ list.splitOnP isSeparator := by
  have forwards : ∀ {word list : List α}, word ∈ list.splitOnP isSeparator →
      word.reverse ∈ list.reverse.splitOnP isSeparator := by
    intro word list isWord
    obtain ⟨plain, before, after, rfl, ends, starts⟩ := mem_splitOnP_iff.mp isWord
    refine mem_splitOnP_iff.mpr ⟨fun x isIn => plain x (mem_reverse.mp isIn), after.reverse,
      before.reverse, by simp, ?_, ?_⟩
    · rcases starts with rfl | ⟨separator, rest, rfl, separates⟩
      · exact .inl rfl
      · exact .inr ⟨rest.reverse, separator, reverse_cons, separates⟩
    · rcases ends with rfl | ⟨first, separator, rfl, separates⟩
      · exact .inl rfl
      · exact .inr ⟨separator, first.reverse, by simp, separates⟩
  constructor
  · intro isWord
    have back := forwards isWord
    rwa [reverse_reverse] at back
  · intro isWord
    have back := forwards isWord
    rwa [reverse_reverse] at back

theorem mem_splitOnP_dropWhile (separate : ∀ x, drops x = true →
    isSeparator x = true) (notEmpty : word ≠ []) (list : List α) :
    word ∈ (list.dropWhile drops).splitOnP isSeparator ↔ word ∈ list.splitOnP isSeparator := by
  induction list with
  | nil => rfl
  | cons x rest ih =>
    rw [dropWhile_cons]
    split
    case isTrue dropped =>
      rw [ih, splitOnP_cons_eq_if_modifyHead, if_pos (separate x dropped), mem_cons,
        or_iff_right notEmpty]
    case isFalse => rfl

/-- A list without the elements at its ends that have a property. -/
def trimBy (drops : α → Bool) (list : List α) : List α :=
  ((list.dropWhile drops).reverse.dropWhile drops).reverse

theorem mem_splitOnP_trimBy (separate : ∀ x, drops x = true →
    isSeparator x = true) (notEmpty : word ≠ []) (list : List α) :
    word ∈ (trimBy drops list).splitOnP isSeparator ↔ word ∈ list.splitOnP isSeparator := by
  have backwards : word.reverse ≠ [] := by simpa using notEmpty
  rw [trimBy, mem_splitOnP_reverse, mem_splitOnP_dropWhile separate backwards,
    mem_splitOnP_reverse, reverse_reverse, mem_splitOnP_dropWhile separate notEmpty]

theorem mem_of_mem_trimBy {list : List α} {x : α} (isIn : x ∈ trimBy drops list) : x ∈ list := by
  have inDropped := (dropWhile_suffix drops).subset (mem_reverse.mp isIn)
  exact (dropWhile_suffix drops).subset (mem_reverse.mp inDropped)

end SecureFusion.Library
