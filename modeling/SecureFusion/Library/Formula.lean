import SecureFusion.Library.Truth

/-!
# Propositional formulas over atoms

Formulas built with conjunction, disjunction and negation over an arbitrary type of atoms, read on a
row: an assignment of a truth value to each atom. A formula is read-once when no atom occurs twice
in it. Rows of two read-once formulas with no atom in common can be spliced into one row, so their
values are independent.
-/

namespace SecureFusion.Library

/-- A propositional formula. -/
inductive Formula (α : Type) where
  /-- A predicate that the formula does not look into. -/
  | atom (leaf : α)
  /-- Both operands hold. -/
  | and (left right : Formula α)
  /-- One of the operands holds. -/
  | or (left right : Formula α)
  /-- The operand does not hold. -/
  | not (operand : Formula α)
deriving DecidableEq, Repr

namespace Formula

variable {α : Type} {left right : List α} {listed : List α} {β γ : Type} {f : (α → Truth) → β}
  {leaf : α} (formula : Formula α)

def eval (row : α → Truth) : Formula α → Truth
  | .atom leaf => row leaf
  | .and left right => (left.eval row).conj (right.eval row)
  | .or left right => (left.eval row).disj (right.eval row)
  | .not operand => (operand.eval row).neg

/-- The atoms of a formula from left to right, with repetitions. -/
def atoms : Formula α → List α
  | .atom leaf => [leaf]
  | .and left right => left.atoms ++ right.atoms
  | .or left right => left.atoms ++ right.atoms
  | .not operand => operand.atoms

/-- No atom occurs twice. -/
def ReadOnce (formula : Formula α) : Prop := formula.atoms.Nodup

theorem eval_congr (first second : α → Truth)
    (agree : ∀ leaf ∈ formula.atoms, first leaf = second leaf) :
    formula.eval first = formula.eval second := by
  induction formula with
  | atom leaf => exact agree leaf (by simp [atoms])
  | and left right ihLeft ihRight | or left right ihLeft ihRight =>
    obtain ⟨onLeft, onRight⟩ := List.forall_mem_append.mp agree
    rw [eval, eval, ihLeft onLeft, ihRight onRight]
  | not operand ih =>
    simp only [eval]
    rw [ih agree]

open scoped Classical in
/-- One row on the listed atoms, another row everywhere else. -/
noncomputable def splice (listed : List α) (inside outside : α → Truth) : α → Truth :=
  fun leaf => if leaf ∈ listed then inside leaf else outside leaf

theorem splice_inside (member : leaf ∈ listed)
    (inside outside : α → Truth) : splice listed inside outside leaf = inside leaf :=
  if_pos member

theorem splice_outside (apart : leaf ∉ listed)
    (inside outside : α → Truth) : splice listed inside outside leaf = outside leaf :=
  if_neg apart

/-- A row that gives every atom one of the two classical values. -/
def Classical (row : α → Truth) : Prop := ∀ leaf, ∃ value, row leaf = Truth.ofBool value

theorem classical_splice {inside outside : α → Truth} (first : Classical inside)
    (second : Classical outside) :
    Classical (splice listed inside outside) := by
  intro leaf
  by_cases member : leaf ∈ listed
  · rw [splice_inside member]
    exact first leaf
  · rw [splice_outside member]
    exact second leaf

theorem apart_of_nodup (distinct : (left ++ right).Nodup) : ∀ leaf ∈ right, leaf ∉ left := by
  intro leaf inRight inLeft
  exact (List.nodup_append.mp distinct).2.2 leaf inLeft leaf inRight rfl

/-- A quantity depends on the row at the listed atoms only. -/
def ReadsOnly {β : Type} (listed : List α) (quantity : (α → Truth) → β) : Prop :=
  ∀ first second, (∀ leaf ∈ listed, first leaf = second leaf) → quantity first = quantity second

def Reached {β : Type} (quantity : (α → Truth) → β) (result : β) : Prop :=
  ∃ row, Classical row ∧ quantity row = result

theorem reached_pair {g : (α → Truth) → γ} {a : β} {b : γ} (distinct : (left ++ right).Nodup)
    (readsLeft : ReadsOnly left f) (readsRight : ReadsOnly right g) (first : Reached f a)
    (second : Reached g b) : ∃ row, Classical row ∧ f row = a ∧ g row = b := by
  obtain ⟨rowLeft, classicalLeft, rfl⟩ := first
  obtain ⟨rowRight, classicalRight, rfl⟩ := second
  refine ⟨splice left rowLeft rowRight, classical_splice classicalLeft classicalRight, ?_, ?_⟩
  · exact readsLeft _ _ fun leaf inside => splice_inside inside _ _
  · exact readsRight _ _ fun leaf inside =>
      splice_outside (apart_of_nodup distinct leaf inside) _ _

/-- Each of some values is combined from one member of each of two lists. -/
def Combined {β γ δ : Type} (combine : β → γ → δ) (as : List β) (bs : List γ)
    (cs : List δ) : Prop := ∀ c ∈ cs, ∃ a ∈ as, ∃ b ∈ bs, combine a b = c

instance {β γ δ : Type} [DecidableEq δ] (combine : β → γ → δ) (as : List β) (bs : List γ)
    (cs : List δ) : Decidable (Combined combine as bs cs) :=
  decidable_of_iff ((cs.all fun c => as.any fun a => bs.any fun b => combine a b = c) = true)
    (by simp [Combined])

/-- Each of some values is made from a member of a list. -/
def Mapped {β γ : Type} (convert : β → γ) (as : List β) (cs : List γ) : Prop :=
  ∀ c ∈ cs, ∃ a ∈ as, convert a = c

instance {β γ : Type} [DecidableEq γ] (convert : β → γ) (as : List β) (cs : List γ) :
    Decidable (Mapped convert as cs) :=
  decidable_of_iff ((cs.all fun c => as.any fun a => convert a = c) = true) (by simp [Mapped])

theorem reached_combined {β γ δ : Type} {f : (α → Truth) → β} {g : (α → Truth) → γ}
    {combine : β → γ → δ} {as : List β} {bs : List γ} {cs : List δ}
    (distinct : (left ++ right).Nodup) (readsLeft : ReadsOnly left f)
    (readsRight : ReadsOnly right g) (reachedLeft : ∀ a ∈ as, Reached f a)
    (reachedRight : ∀ b ∈ bs, Reached g b) (built : Combined combine as bs cs) :
    ∀ c ∈ cs, Reached (fun row => combine (f row) (g row)) c := by
  intro c member
  obtain ⟨a, inAs, b, inBs, rfl⟩ := built c member
  obtain ⟨row, classical, rfl, rfl⟩ :=
    reached_pair distinct readsLeft readsRight (reachedLeft a inAs) (reachedRight b inBs)
  exact ⟨row, classical, rfl⟩

theorem reached_mapped {convert : β → γ} {as : List β} {cs : List γ}
    (reached : ∀ a ∈ as, Reached f a) (built : Mapped convert as cs) :
    ∀ c ∈ cs, Reached (fun row => convert (f row)) c := by
  intro c member
  obtain ⟨a, inAs, rfl⟩ := built c member
  obtain ⟨row, classical, rfl⟩ := reached a inAs
  exact ⟨row, classical, rfl⟩

theorem readsOnly_eval : ReadsOnly formula.atoms (formula.eval ·) :=
  fun first second agree => formula.eval_congr first second agree

theorem exists_eval (once : formula.ReadOnce) (value : Bool) :
    Reached (formula.eval ·) (Truth.ofBool value) := by
  induction formula generalizing value with
  | atom leaf => exact ⟨fun _ => Truth.ofBool value, fun _ => ⟨value, rfl⟩, rfl⟩
  | and left right ihLeft ihRight | or left right ihLeft ihRight =>
    obtain ⟨row, classical, atLeft, atRight⟩ := reached_pair once left.readsOnly_eval
      right.readsOnly_eval (ihLeft once.of_append_left value) (ihRight once.of_append_right value)
    refine ⟨row, classical, ?_⟩
    simp only [eval, atLeft, atRight]
    cases value <;> rfl
  | not operand ih =>
    obtain ⟨row, classical, reached⟩ := ih once (!value)
    refine ⟨row, classical, ?_⟩
    simp only [eval, reached]
    cases value <;> rfl

end Formula

end SecureFusion.Library
