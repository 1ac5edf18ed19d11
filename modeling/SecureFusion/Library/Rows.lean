import SecureFusion.Library.Outcome
import Mathlib.Data.List.Perm.Basic
import Mathlib.Data.List.Nodup

/-!
# Lists of rows and loops that may fail

A loop that decodes or encodes a list of rows either fails or relates its input
and output element by element. Relations of this kind survive a permutation of one
side, if the other is permuted along. Two selections that never choose the same
row, with one result each, select the two rows together in one of two orders.
-/

namespace SecureFusion.Library.Rows

open List

variable {α β : Type} {relation : α → β → Prop} {values : List α} {f : α → Option β}
  {inputs : List α} {rows : List α}

theorem mapM_eq_some_iff (f : α → Option β) (inputs : List α) (outputs : List β) :
    inputs.mapM f = some outputs ↔
      List.Forall₂ (fun input output => f input = some output) inputs outputs := by
  induction inputs generalizing outputs with
  | nil => cases outputs <;> simp
  | cons input rest ih =>
    rw [mapM_cons]
    cases outputs with
    | nil => simp [Option.bind_eq_some_iff]
    | cons output outputs =>
      simp only [bind_some_iff, Option.pure_def, Option.some.injEq, cons.injEq, forall₂_cons]
      constructor
      · rintro ⟨first, here, others, there, rfl, rfl⟩
        exact ⟨here, (ih others).mp there⟩
      · rintro ⟨here, there⟩
        exact ⟨output, here, outputs, (ih outputs).mpr there, rfl, rfl⟩

theorem exists_mapM (succeeds : ∀ input ∈ inputs, ∃ output, f input = some output) :
    ∃ outputs, inputs.mapM f = some outputs := by
  obtain ⟨outputs, related⟩ := Outcome.exists_forall₂ succeeds
  exact ⟨outputs, (mapM_eq_some_iff f inputs outputs).mpr related⟩

theorem forall₂_perm {rows shuffled : List β} (related : List.Forall₂ relation values rows)
    (perm : shuffled.Perm rows) :
    ∃ permuted, permuted.Perm values ∧ List.Forall₂ relation permuted shuffled := by
  have flipped : List.Forall₂ (fun row value => relation value row) rows values :=
    List.Forall₂.flip related
  obtain ⟨permuted, aligned, back⟩ := perm_comp_forall₂ perm flipped
  exact ⟨permuted, back, List.Forall₂.flip aligned⟩

theorem lookup_of_mem [BEq α] [LawfulBEq α] {entries : List (α × β)} {entry : α × β}
    (distinct : (entries.map Prod.fst).Nodup) (isIn : entry ∈ entries) :
    entries.lookup entry.1 = some entry.2 := by
  induction entries with
  | nil => cases isIn
  | cons first rest ih =>
    rw [map_cons, nodup_cons] at distinct
    rcases mem_cons.mp isIn with rfl | isLater
    · rw [lookup_cons, beq_self_eq_true]
    · have other : entry.1 ≠ first.1 := fun same =>
        distinct.1 (same ▸ mem_map_of_mem isLater)
      rw [lookup_cons, beq_false_of_ne other]
      exact ih distinct.2 isLater

theorem forall_mem_modify {holds : α → Prop} {change : α → α} {position : Nat}
    (each : ∀ row ∈ rows, holds row)
    (changed : ∀ row, rows[position]? = some row → holds (change row)) :
    ∀ row ∈ rows.modify position change, holds row := by
  intro row isIn
  obtain ⟨index, there⟩ := mem_iff_getElem?.mp isIn
  rw [getElem?_modify] at there
  obtain ⟨old, isOld, same⟩ := Option.map_eq_some_iff.mp there
  rw [← same]
  split_ifs with here
  · exact changed old (here ▸ isOld)
  · exact each old (mem_of_getElem? isOld)

theorem exists_of_forall₂_right {rows : List β} (related : List.Forall₂ relation values rows)
    {row : β} (member : row ∈ rows) :
    ∃ value ∈ values, relation value row := by
  induction related with
  | nil => cases member
  | cons here _ ih =>
    rw [mem_cons] at member
    obtain rfl | later := member
    · exact ⟨_, mem_cons_self, here⟩
    · obtain ⟨value, inside, found⟩ := ih later
      exact ⟨value, mem_cons_of_mem _ inside, found⟩

theorem exists_mem_of_mapM {outputs : List β} (ran : inputs.mapM f = some outputs) {input : α}
    (member : input ∈ inputs) :
    ∃ output ∈ outputs, f input = some output := by
  have related := (mapM_eq_some_iff f inputs outputs).mp ran
  have flipped : List.Forall₂ (fun output input => f input = some output) outputs inputs :=
    List.Forall₂.flip related
  exact exists_of_forall₂_right flipped member

theorem exists_of_forall₂_left {rows : List β} (related : List.Forall₂ relation values rows)
    {value : α} (member : value ∈ values) :
    ∃ row ∈ rows, relation value row :=
  exists_of_forall₂_right (List.Forall₂.flip related) member

theorem filter_or_of_singletons {p q : α → Bool} {a b : α}
    (exclusive : ∀ row, p row = true → q row = false) (first : rows.filter p = [a])
    (second : rows.filter q = [b]) :
    rows.filter (fun row => p row || q row) = [a, b] ∨
      rows.filter (fun row => p row || q row) = [b, a] := by
  have rest : ∀ {rows : List α} {c : α} {r s : α → Bool}, rows.filter r = [] →
      rows.filter s = [c] → rows.filter (fun row => r row || s row) = [c] := by
    intro rows c r s none_ one
    rw [← one]
    refine filter_congr fun row member => ?_
    have absent := filter_eq_nil_iff.mp none_ row member
    simp [absent]
  induction rows with
  | nil => cases first
  | cons row rows ih =>
    cases chosen : p row with
    | true =>
      have unchosen := exclusive row chosen
      rw [filter_cons_of_pos chosen] at first
      rw [filter_cons_of_neg (by simp [unchosen])] at second
      obtain ⟨rfl, none_⟩ := cons.inj first
      exact .inl (by rw [filter_cons_of_pos (by simp [chosen]), rest none_ second])
    | false =>
      rw [filter_cons_of_neg (by simp [chosen])] at first
      cases other : q row with
      | true =>
        rw [filter_cons_of_pos other] at second
        obtain ⟨rfl, none_⟩ := cons.inj second
        have swapped := rest none_ first
        simp only [Bool.or_comm] at swapped
        exact .inr (by rw [filter_cons_of_pos (by simp [other]), swapped])
      | false =>
        rw [filter_cons_of_neg (by simp [other])] at second
        rw [filter_cons_of_neg (by simp [chosen, other])]
        exact ih first second

theorem of_getElem?_set {index other : Nat} {new value : α}
    (found : (values.set index new)[other]? = some value) :
    (other = index ∧ value = new) ∨ (other ≠ index ∧ values[other]? = some value) := by
  rw [getElem?_set] at found
  by_cases same : index = other
  · rw [if_pos same] at found
    split at found
    · exact .inl ⟨same.symm, (Option.some.inj found).symm⟩
    · cases found
  · rw [if_neg same] at found
    exact .inr ⟨Ne.symm same, found⟩

end SecureFusion.Library.Rows
