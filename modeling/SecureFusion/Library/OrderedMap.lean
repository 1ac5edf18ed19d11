import Mathlib.Data.List.Basic

/-!
# Loops over ordered maps

A loop that updates one key of an ordered map at a time can be read one key at a
time: the final value at a key depends on the steps at that key only, in their
order. A loop over the entries of a map makes at most one step at each key. These
two facts turn every map-building loop into a statement about single lookups.
-/

namespace SecureFusion.Library.OrderedMap

open Std List

variable {α β γ δ : Type} [Ord α] [TransOrd α] [LawfulEqOrd α] [DecidableEq α] {set : ExtTreeSet α}
  {a b : α} (map : ExtTreeMap α β)

omit [DecidableEq α] in
theorem mem_insert_eq : b ∈ set.insert a ↔ b = a ∨ b ∈ set := by
  rw [ExtTreeSet.mem_insert, Std.compare_eq_iff_eq, eq_comm]

omit [DecidableEq α] in
theorem mem_erase_eq : b ∈ set.erase a ↔ b ≠ a ∧ b ∈ set := by
  rw [ExtTreeSet.mem_erase, ne_eq, Std.compare_eq_iff_eq, eq_comm]

omit [DecidableEq α] in
theorem mem_foldl_erase (set : ExtTreeSet α) (removed : List α) (a : α) :
    a ∈ removed.foldl (·.erase ·) set ↔ a ∈ set ∧ a ∉ removed := by
  induction removed generalizing set with
  | nil => simp
  | cons b rest ih =>
    rw [foldl_cons, ih, mem_erase_eq, mem_cons, not_or]
    tauto

theorem getElem?_alter_ite (k key : α) (f : Option β → Option β) :
    (map.alter k f)[key]? = if k = key then f map[key]? else map[key]? := by
  rw [ExtTreeMap.getElem?_alter]
  by_cases same : k = key
  · subst same
    simp
  · simp [same]

theorem getElem?_foldl_erase (keys : List α) (key : α) :
    (keys.foldl (·.erase ·) map)[key]? = if key ∈ keys then none else map[key]? := by
  induction keys generalizing map with
  | nil => simp
  | cons first rest ih =>
    rw [foldl_cons, ih, ExtTreeMap.getElem?_erase]
    by_cases later : key ∈ rest
    · simp [later]
    · by_cases same : first = key
      · simp [same]
      · simp [later, same, Ne.symm same]

theorem getElem?_foldl_alter (keyOf : γ → α) (f : γ → Option β → Option β) (steps : List γ)
    (map : ExtTreeMap α β) (key : α) :
    (steps.foldl (fun acc step => acc.alter (keyOf step) (f step)) map)[key]? =
      (steps.filter (keyOf · = key)).foldl (fun value step => f step value) map[key]? := by
  induction steps generalizing map with
  | nil => rfl
  | cons step rest ih =>
    rw [foldl_cons, ih, getElem?_alter_ite]
    by_cases same : keyOf step = key
    · simp [same]
    · simp [same]

theorem filter_toList (key : α) :
    map.toList.filter (·.1 = key) = (map[key]?.map (key, ·)).toList := by
  have distinct : map.toList.Pairwise fun a b => ¬ compare a.1 b.1 = .eq :=
    ExtTreeMap.distinct_keys_toList
  have members : ∀ value, (key, value) ∈ map.toList ↔ map[key]? = some value := fun value =>
    ExtTreeMap.mem_toList_iff_getElem?_eq_some
  cases lookup : map[key]? with
  | none =>
    rw [Option.map_none, Option.toList_none, filter_eq_nil_iff]
    rintro ⟨k, value⟩ inside same
    have equal : k = key := by simpa using same
    subst equal
    rw [members, lookup] at inside
    cases inside
  | some value =>
    have inside := (members value).mpr lookup
    obtain ⟨before, after, split⟩ := append_of_mem inside
    rw [split, pairwise_append, pairwise_cons] at distinct
    have absentBefore : before.filter (·.1 = key) = [] := by
      rw [filter_eq_nil_iff]
      intro entry member same
      have equal : entry.1 = key := by simpa using same
      exact distinct.2.2 entry member (key, value) mem_cons_self (by simp [equal])
    have absentAfter : after.filter (·.1 = key) = [] := by
      rw [filter_eq_nil_iff]
      intro entry member same
      have equal : entry.1 = key := by simpa using same
      exact distinct.2.1.1 entry member (by simp [equal])
    rw [split, filter_append, absentBefore, filter_cons_of_pos (by simp), absentAfter]
    rfl

theorem getElem?_foldl_entries (f : δ → Option β → Option β) (entries : ExtTreeMap α δ)
    (map : ExtTreeMap α β) (key : α) :
    (entries.toList.foldl (fun acc entry => acc.alter entry.1 (f entry.2)) map)[key]? =
      match entries[key]? with
      | some value => f value map[key]?
      | none => map[key]? := by
  have stepwise := getElem?_foldl_alter Prod.fst (fun entry : α × δ => f entry.2)
    entries.toList map key
  rw [stepwise, filter_toList]
  cases entries[key]? <;> rfl

end SecureFusion.Library.OrderedMap
