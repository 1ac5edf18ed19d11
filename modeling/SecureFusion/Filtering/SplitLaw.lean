import SecureFusion.Filtering.IndexableFilter

/-!
# When splitting a filter keeps its meaning

A split answers a tree with a supported and an unsupported part, which its callers read as a
conjunction. On a fixed row it acts on three truth values: those of the parts and that of the tree.
Which relations between them survive every connective is a finite question, so trees fall into seven
kinds, computed from the support options. Four kinds satisfy the conjunction law on every row; for a
tree without repeated leaves the others break it on some row, as its subtrees are independent.
-/

namespace SecureFusion.Filtering

open Library IndexableFilterExpr

variable {statistics : TableStatistics}

/-- The values of the two parts of a split and of the tree itself on one row. -/
structure Outcome where
  supported : Option Truth
  unsupported : Option Truth
  value : Truth
deriving DecidableEq

namespace Outcome

/-- The parts of a conjunction are the conjunctions of the parts. -/
def and (a b : Outcome) : Outcome :=
  ⟨recombine a.supported b.supported Truth.conj,
    recombine a.unsupported b.unsupported Truth.conj, a.value.conj b.value⟩

/-- The parts of a disjunction, by which parts its operands have. -/
def or (a b : Outcome) : Outcome :=
  if (a.supported.isSome && b.supported.isSome && a.unsupported.isNone && b.unsupported.isNone) ||
      (a.supported.isNone && b.supported.isNone && a.unsupported.isSome && b.unsupported.isSome)
  then ⟨recombine a.supported b.supported Truth.disj,
    recombine a.unsupported b.unsupported Truth.disj, a.value.disj b.value⟩
  else if a.unsupported.isNone then
    ⟨recombine a.supported b.supported Truth.disj,
      recombine a.supported b.unsupported Truth.disj, a.value.disj b.value⟩
  else if b.unsupported.isNone then
    ⟨recombine a.supported b.supported Truth.disj,
      recombine a.unsupported b.supported Truth.disj, a.value.disj b.value⟩
  else
    ⟨none, recombine (recombine a.supported a.unsupported Truth.conj)
      (recombine b.supported b.unsupported Truth.conj) Truth.disj, a.value.disj b.value⟩

/-- The parts of a negation are the negations of the parts. -/
def not (a : Outcome) : Outcome :=
  ⟨a.supported.map Truth.neg, a.unsupported.map Truth.neg, a.value.neg⟩

def whole (value : Truth) : Outcome := ⟨some value, none, value⟩

def left (value : Truth) : Outcome := ⟨none, some value, value⟩

/-- The value is the conjunction of the parts, an absent part counting as true. -/
def Lawful (a : Outcome) : Prop :=
  a.value = (a.supported.getD .true).conj (a.unsupported.getD .true)

instance (a : Outcome) : Decidable a.Lawful :=
  inferInstanceAs (Decidable (a.value = _))

end Outcome

variable {E : Type} {tree : IndexableFilterExpr E} {options : SupportOptions E}

def outcome (options : SupportOptions E) (statistics : TableStatistics)
    (row : IndexableFilterExpr E → Truth) (tree : IndexableFilterExpr E) : Outcome :=
  let split := tree.splitIntoSupportedUnsupported options statistics
  ⟨split.1.map (eval row), split.2.1.map (eval row), tree.eval row⟩

theorem recombine_map {α β : Type} (f : α → β) (g : α → α → α) (h : β → β → β)
    (natural : ∀ a b, f (g a b) = h (f a) (f b)) (a b : Option α) :
    (recombine a b g).map f = recombine (a.map f) (b.map f) h := by
  cases a <;> cases b <;> simp [recombine, natural]

theorem recombine_eq_none {α : Type} {a b : Option α} {combinator : α → α → α} :
    recombine a b combinator = none ↔ a = none ∧ b = none := by
  cases a <;> cases b <;> simp [recombine]

section Compositional

variable (options : SupportOptions E) (statistics : TableStatistics)
  (row : IndexableFilterExpr E → Truth) (left right : IndexableFilterExpr E)

theorem outcome_supported (tree : IndexableFilterExpr E)
    (supported : (options.isSupported tree statistics).isSome = true) :
    outcome options statistics row tree = .whole (tree.eval row) := by
  obtain ⟨selectivity, found⟩ := Option.isSome_iff_exists.mp supported
  cases tree <;> simp [outcome, splitIntoSupportedUnsupported, found, Outcome.whole]

theorem outcome_and (unsupported : options.isSupported (.and left right) statistics = none) :
    outcome options statistics row (.and left right) =
      (outcome options statistics row left).and (outcome options statistics row right) := by
  simp only [outcome, splitIntoSupportedUnsupported, unsupported, Outcome.and, eval_and]
  rw [recombine_map (eval row) .and Truth.conj fun _ _ => rfl,
    recombine_map (eval row) .and Truth.conj fun _ _ => rfl]

theorem outcome_or (unsupported : options.isSupported (.or left right) statistics = none)
    (open_ : options.supportsOr = true) :
    outcome options statistics row (.or left right) =
      (outcome options statistics row left).or (outcome options statistics row right) := by
  simp only [outcome, splitIntoSupportedUnsupported, unsupported, open_, if_true, eval_or]
  generalize splitIntoSupportedUnsupported options statistics left = first
  generalize splitIntoSupportedUnsupported options statistics right = second
  obtain ⟨lSupp, lUnsupp, lSel⟩ := first
  obtain ⟨rSupp, rUnsupp, rSel⟩ := second
  cases lSupp <;> cases lUnsupp <;> cases rSupp <;> cases rUnsupp <;> rfl

theorem outcome_not (operand : IndexableFilterExpr E)
    (unsupported : options.isSupported (.not operand) statistics = none)
    (open_ : options.supportsNot = true) :
    outcome options statistics row (.not operand) =
      (outcome options statistics row operand).not := by
  simp only [outcome, splitIntoSupportedUnsupported, unsupported, open_, if_true, eval_not,
    Outcome.not, Option.map_map]
  rfl

/-- Which trees the index neither answers nor looks into. -/
def Blocked : IndexableFilterExpr E → Prop
  | .and _ _ => False
  | .or _ _ => options.supportsOr = false
  | .not _ => options.supportsNot = false
  | _ => True

theorem outcome_blocked (tree : IndexableFilterExpr E)
    (unsupported : options.isSupported tree statistics = none) (blocked : Blocked options tree) :
    outcome options statistics row tree = .left (tree.eval row) := by
  cases tree with
  | and => exact blocked.elim
  | or | not => simp_all [Blocked, outcome, splitIntoSupportedUnsupported, Outcome.left]
  | _ => simp [outcome, splitIntoSupportedUnsupported, unsupported, Outcome.left]

end Compositional

/-- How the parts of a split relate to the tree on every row. -/
inductive SplitKind where
  /-- The tree is the supported part. -/
  | supported
  /-- The tree is the unsupported part. -/
  | unsupported
  /-- The tree is the conjunction of the parts. -/
  | conjoined
  /-- The tree is the unsupported part, which implies the supported one. -/
  | refined
  /-- The tree is the unsupported part, which the supported one implies. -/
  | widened
  /-- The tree is the disjunction of the parts. -/
  | disjoined
  /-- No relation is left. -/
  | broken
deriving DecidableEq, Repr

variable {k : SplitKind}

namespace SplitKind

instance : Fintype SplitKind where
  elems := {.supported, .unsupported, .conjoined, .widened, .disjoined, .refined, .broken}
  complete kind := by cases kind <;> decide

def and : SplitKind → SplitKind → SplitKind
  | .supported, .supported => .supported
  | .unsupported, .unsupported => .unsupported
  | .widened, .widened => .widened
  | .refined, .refined | .refined, .unsupported | .unsupported, .refined => .refined
  | .broken, _ | _, .broken | .widened, _ | _, .widened | .disjoined, _ | _, .disjoined => .broken
  | _, _ => .conjoined

def or : SplitKind → SplitKind → SplitKind
  | .broken, _ | _, .broken => .broken
  | .supported, .unsupported | .unsupported, .supported => .widened
  | .supported, kind | kind, .supported => kind
  | .widened, _ | _, .widened | .disjoined, _ | _, .disjoined => .broken
  | _, _ => .unsupported

def not : SplitKind → SplitKind
  | .conjoined => .disjoined
  | .disjoined => .conjoined
  | .refined => .widened
  | .widened => .refined
  | kind => kind

/-- The kinds for which the two parts join to the tree. -/
def Lossless : SplitKind → Bool
  | .supported | .unsupported | .conjoined | .refined => true
  | .widened | .disjoined | .broken => false

/-- The kinds whose supported part implies the tree. -/
def Sufficient : SplitKind → Bool
  | .supported | .widened | .disjoined => true
  | .unsupported | .conjoined | .refined | .broken => false

/-- The relation between the parts and the tree that a kind states. -/
def Describes : SplitKind → Outcome → Bool
  | .supported, ⟨some s, none, v⟩ => v = s
  | .unsupported, ⟨none, some u, v⟩ => v = u
  | .conjoined, ⟨some s, some u, v⟩ => v = s.conj u
  | .refined, ⟨some s, some u, v⟩ => v = u ∧ s.disj u = s
  | .widened, ⟨some s, some u, v⟩ => v = u ∧ s.disj u = u
  | .disjoined, ⟨some s, some u, v⟩ => v = s.disj u
  | .broken, _ => true
  | _, _ => false

def outcome : SplitKind → Truth → Truth → Outcome
  | .supported, s, _ => ⟨some s, none, s⟩
  | .unsupported, _, u => ⟨none, some u, u⟩
  | .conjoined, s, u => ⟨some s, some u, s.conj u⟩
  | .refined, s, u => ⟨some (s.disj u), some u, u⟩
  | .widened, s, u => ⟨some s, some (s.disj u), s.disj u⟩
  | .disjoined, s, u => ⟨some s, some u, s.disj u⟩
  | .broken, s, _ => ⟨some s, none, s⟩

theorem exists_outcome {kind : SplitKind} {result : Outcome} (form : kind.Describes result) :
    kind = .broken ∨ ∃ s u, result = kind.outcome s u := by
  obtain ⟨s, u, v⟩ := result
  cases kind with
  | broken => exact .inl rfl
  | _ =>
    refine .inr ?_
    cases s <;> cases u <;> simp only [Describes, decide_eq_true_eq, Bool.false_eq_true] at form
    all_goals first
      | exact ⟨_, _, by rw [form]; rfl⟩
      | exact ⟨_, _, by rw [form.1, outcome, form.2]⟩
      | exact ⟨_, .true, by rw [form]; rfl⟩
      | exact ⟨.true, _, by rw [form]; rfl⟩

theorem describes_and_or {l : SplitKind} {a b : Outcome} (first : k.Describes a)
    (second : l.Describes b) : (k.and l).Describes (a.and b) ∧ (k.or l).Describes (a.or b) := by
  obtain rfl | ⟨s, u, rfl⟩ := exists_outcome first
  · cases l <;> exact ⟨rfl, rfl⟩
  obtain rfl | ⟨s', u', rfl⟩ := exists_outcome second
  · cases k <;> exact ⟨rfl, rfl⟩
  clear first second
  revert k l s u s' u'
  decide +kernel

variable {a : Outcome}

theorem describes_not (form : k.Describes a) : k.not.Describes a.not := by
  obtain rfl | ⟨s, u, rfl⟩ := exists_outcome form
  · rfl
  clear form
  revert s u
  cases k <;> decide

theorem lawful_of_describes (lossless : k.Lossless) (form : k.Describes a) : a.Lawful := by
  obtain rfl | ⟨s, u, rfl⟩ := exists_outcome form
  · cases lossless
  clear form
  revert s u lossless
  cases k <;> decide

theorem value_of_sufficient (sufficient : k.Sufficient) (form : k.Describes a) :
    ∃ s, a.supported = some s ∧ (s = .true → a.value = .true) := by
  obtain rfl | ⟨s, u, rfl⟩ := exists_outcome form
  · cases sufficient
  cases k with
  | supported => exact ⟨s, rfl, id⟩
  | widened | disjoined =>
    refine ⟨s, rfl, fun holds => ?_⟩
    rw [outcome, holds]
    rfl
  | _ => cases sufficient

def agreed (value : Bool) : Outcome :=
  ⟨some (.ofBool value), some (.ofBool value), .ofBool value⟩

def mixed (supported unsupported value : Bool) : Outcome :=
  ⟨some (.ofBool supported), some (.ofBool unsupported), .ofBool value⟩

/-- Only the unsupported part is present, with classical values. -/
def remaining (unsupported value : Bool) : Outcome :=
  ⟨none, some (.ofBool unsupported), .ofBool value⟩

/-- The outcomes that a tree of a kind takes when no leaf is repeated: all of one of the lists. -/
def samples : SplitKind → List (List Outcome)
  | .supported => [[.whole .true, .whole .false]]
  | .unsupported => [[.left .true, .left .false]]
  | .conjoined => [[agreed true, agreed false, mixed false true false, mixed true false false]]
  | .refined => [[agreed true, agreed false, mixed true false false]]
  | .widened => [[agreed true, agreed false, mixed false true true]]
  | .disjoined => [[agreed true, agreed false, mixed false true true, mixed true false true]]
  | .broken =>
    [[remaining true true, remaining false false, remaining true false],
      [remaining true true, remaining false false, remaining false true],
      [agreed true, agreed false, mixed false false true],
      [agreed true, agreed false, mixed true true false],
      [agreed true, agreed false, mixed false true true, mixed false true false],
      [agreed true, agreed false, mixed false true true, mixed true false false],
      [agreed true, agreed false, mixed true false true, mixed false true false],
      [agreed true, agreed false, mixed true false true, mixed true false false]]

theorem samples_and : ∀ k l : SplitKind, ∀ as ∈ k.samples, ∀ bs ∈ l.samples,
    ∃ cs ∈ (k.and l).samples, Formula.Combined Outcome.and as bs cs := by
  decide +kernel

theorem samples_or : ∀ k l : SplitKind, ∀ as ∈ k.samples, ∀ bs ∈ l.samples,
    ∃ cs ∈ (k.or l).samples, Formula.Combined Outcome.or as bs cs := by
  decide +kernel

theorem samples_not : ∀ k : SplitKind, ∀ as ∈ k.samples,
    ∃ cs ∈ k.not.samples, Formula.Mapped Outcome.not as cs := by
  decide +kernel

theorem samples_unlawful (k : SplitKind) (lossy : k.Lossless = false) :
    ∀ as ∈ k.samples, ∃ a ∈ as, ¬ a.Lawful := by
  revert k
  decide +kernel

end SplitKind

/-- The kind of a tree, computed from the support options. -/
def splitKind (options : SupportOptions E) (statistics : TableStatistics)
    (tree : IndexableFilterExpr E) : SplitKind :=
  if (options.isSupported tree statistics).isSome then .supported
  else match tree with
    | .and left right => (splitKind options statistics left).and (splitKind options statistics right)
    | .or left right =>
      if options.supportsOr then
        (splitKind options statistics left).or (splitKind options statistics right)
      else .unsupported
    | .not operand =>
      if options.supportsNot then (splitKind options statistics operand).not else .unsupported
    | _ => .unsupported

/-- The split of a tree loses nothing: its kind is one whose parts conjoin to the tree. -/
def Lossless (options : SupportOptions E) (statistics : TableStatistics)
    (tree : IndexableFilterExpr E) : Prop :=
  (splitKind options statistics tree).Lossless = true

instance (options : SupportOptions E) (statistics : TableStatistics)
    (tree : IndexableFilterExpr E) : Decidable (Lossless options statistics tree) :=
  inferInstanceAs (Decidable (_ = true))

theorem split_induction (options : SupportOptions E) (statistics : TableStatistics)
    {motive : IndexableFilterExpr E → Prop}
    (answered : ∀ tree, (options.isSupported tree statistics).isSome = true → motive tree)
    (blocked : ∀ tree, options.isSupported tree statistics = none → Blocked options tree →
      motive tree)
    (conjunction : ∀ left right, options.isSupported (.and left right) statistics = none →
      motive left → motive right → motive (.and left right))
    (disjunction : ∀ left right, options.isSupported (.or left right) statistics = none →
      options.supportsOr = true → motive left → motive right → motive (.or left right))
    (negation : ∀ operand, options.isSupported (.not operand) statistics = none →
      options.supportsNot = true → motive operand → motive (.not operand))
    (tree : IndexableFilterExpr E) : motive tree := by
  have unless_answered : ∀ tree, (options.isSupported tree statistics = none → motive tree) →
      motive tree := by
    intro tree rest
    cases support : options.isSupported tree statistics with
    | some => exact answered tree (by simp [support])
    | none => exact rest support
  induction tree with
  | and left right ihLeft ihRight =>
    exact unless_answered _ fun support => conjunction left right support ihLeft ihRight
  | or left right ihLeft ihRight =>
    refine unless_answered _ fun support => ?_
    by_cases looks : options.supportsOr = true
    · exact disjunction left right support looks ihLeft ihRight
    · exact blocked _ support (by simpa [Blocked] using looks)
  | not operand ih =>
    refine unless_answered _ fun support => ?_
    by_cases looks : options.supportsNot = true
    · exact negation operand support looks ih
    · exact blocked _ support (by simpa [Blocked] using looks)
  | _ => exact unless_answered _ fun support => blocked _ support trivial

section Kinds

variable {left right : IndexableFilterExpr E} {operand : IndexableFilterExpr E}

theorem split_blocked (unsupported : options.isSupported tree statistics = none)
    (blocked : Blocked options tree) :
    (tree.splitIntoSupportedUnsupported options statistics).1 = none ∧
      (tree.splitIntoSupportedUnsupported options statistics).2.1 = some tree := by
  cases tree <;> simp_all [splitIntoSupportedUnsupported, Blocked]

theorem split_answered (supported : (options.isSupported tree statistics).isSome) :
    (tree.splitIntoSupportedUnsupported options statistics).1 = some tree ∧
      (tree.splitIntoSupportedUnsupported options statistics).2.1 = none := by
  obtain ⟨selectivity, found⟩ := Option.isSome_iff_exists.mp supported
  cases tree <;> simp only [splitIntoSupportedUnsupported, found, and_self]

theorem split_not (unsupported : options.isSupported (.not operand) statistics = none)
    (looks : options.supportsNot = true) :
    ((not operand).splitIntoSupportedUnsupported options statistics).1 =
        (operand.splitIntoSupportedUnsupported options statistics).1.map .not ∧
      ((not operand).splitIntoSupportedUnsupported options statistics).2.1 =
        (operand.splitIntoSupportedUnsupported options statistics).2.1.map .not := by
  simp only [splitIntoSupportedUnsupported, unsupported, looks, if_true, and_self]

theorem splitKind_supported (supported : (options.isSupported tree statistics).isSome = true) :
    splitKind options statistics tree = .supported := by
  unfold splitKind
  rw [if_pos supported]

theorem splitKind_blocked (unsupported : options.isSupported tree statistics = none)
    (blocked : Blocked options tree) :
    splitKind options statistics tree = .unsupported := by
  unfold splitKind
  cases tree <;> simp_all [Blocked]

theorem splitKind_and (unsupported : options.isSupported (.and left right) statistics = none) :
    splitKind options statistics (.and left right) =
      (splitKind options statistics left).and (splitKind options statistics right) := by
  rw [splitKind, unsupported]
  rfl

theorem splitKind_or (unsupported : options.isSupported (.or left right) statistics = none)
    (looks : options.supportsOr = true) :
    splitKind options statistics (.or left right) =
      (splitKind options statistics left).or (splitKind options statistics right) := by
  rw [splitKind, unsupported]
  simp [looks]

theorem splitKind_not (unsupported : options.isSupported (.not operand) statistics = none)
    (looks : options.supportsNot = true) :
    splitKind options statistics (.not operand) = (splitKind options statistics operand).not := by
  rw [splitKind, unsupported]
  simp [looks]

theorem describes_outcome (row : IndexableFilterExpr E → Truth) (tree : IndexableFilterExpr E) :
    (splitKind options statistics tree).Describes (outcome options statistics row tree) := by
  induction tree using split_induction options statistics with
  | answered tree supported =>
    rw [splitKind_supported supported, outcome_supported _ _ _ _ supported]
    simp [SplitKind.Describes, Outcome.whole]
  | blocked tree unsupported blocked =>
    rw [splitKind_blocked unsupported blocked, outcome_blocked _ _ _ _ unsupported blocked]
    simp [SplitKind.Describes, Outcome.left]
  | conjunction left right unsupported ihLeft ihRight =>
    rw [splitKind_and unsupported, outcome_and _ _ _ _ _ unsupported]
    exact (SplitKind.describes_and_or ihLeft ihRight).1
  | disjunction left right unsupported looks ihLeft ihRight =>
    rw [splitKind_or unsupported looks, outcome_or _ _ _ _ _ unsupported looks]
    exact (SplitKind.describes_and_or ihLeft ihRight).2
  | negation operand unsupported looks ih =>
    rw [splitKind_not unsupported looks, outcome_not _ _ _ _ unsupported looks]
    exact SplitKind.describes_not ih

theorem readsOnly_outcome (tree : IndexableFilterExpr E) :
    Formula.ReadsOnly tree.leaves (outcome options statistics · tree) := by
  intro first second agree
  dsimp only
  induction tree using split_induction options statistics with
  | answered tree supported =>
    rw [outcome_supported _ _ _ _ supported, outcome_supported _ _ _ _ supported]
    exact congrArg Outcome.whole (tree.formula.eval_congr first second agree)
  | blocked tree unsupported blocked =>
    rw [outcome_blocked _ _ _ _ unsupported blocked, outcome_blocked _ _ _ _ unsupported blocked]
    exact congrArg Outcome.left (tree.formula.eval_congr first second agree)
  | conjunction left right unsupported ihLeft ihRight =>
    obtain ⟨onLeft, onRight⟩ := List.forall_mem_append.mp agree
    rw [outcome_and _ _ _ _ _ unsupported, outcome_and _ _ _ _ _ unsupported, ihLeft onLeft,
      ihRight onRight]
  | disjunction left right unsupported looks ihLeft ihRight =>
    obtain ⟨onLeft, onRight⟩ := List.forall_mem_append.mp agree
    rw [outcome_or _ _ _ _ _ unsupported looks, outcome_or _ _ _ _ _ unsupported looks,
      ihLeft onLeft, ihRight onRight]
  | negation operand unsupported looks ih =>
    rw [outcome_not _ _ _ _ unsupported looks, outcome_not _ _ _ _ unsupported looks, ih agree]

theorem reached_whole (once : tree.leaves.Nodup) {form : Truth → Outcome}
    (shape : ∀ row, outcome options statistics row tree = form (tree.eval row)) (value : Bool) :
    Formula.Reached (outcome options statistics · tree) (form (.ofBool value)) := by
  obtain ⟨row, classical, reached⟩ := tree.formula.exists_eval once value
  exact ⟨row, classical, (shape row).trans (congrArg form reached)⟩

theorem reached_samples (tree : IndexableFilterExpr E) (once : tree.leaves.Nodup) :
    ∃ results ∈ (splitKind options statistics tree).samples,
      ∀ result ∈ results, Formula.Reached (outcome options statistics · tree) result := by
  induction tree using split_induction options statistics with
  | answered tree supported =>
    rw [splitKind_supported supported]
    have both := reached_whole once fun row => outcome_supported options statistics row _ supported
    refine ⟨_, List.mem_singleton_self _, ?_⟩
    simpa using ⟨both true, both false⟩
  | blocked tree unsupported blocked =>
    rw [splitKind_blocked unsupported blocked]
    have both := reached_whole once fun row =>
      outcome_blocked options statistics row _ unsupported blocked
    refine ⟨_, List.mem_singleton_self _, ?_⟩
    simpa using ⟨both true, both false⟩
  | conjunction left right unsupported ihLeft ihRight =>
    obtain ⟨as, inLeft, reachedLeft⟩ := ihLeft once.of_append_left
    obtain ⟨bs, inRight, reachedRight⟩ := ihRight once.of_append_right
    obtain ⟨cs, inBoth, built⟩ := SplitKind.samples_and _ _ as inLeft bs inRight
    rw [splitKind_and unsupported]
    simp only [outcome_and _ _ _ _ _ unsupported]
    exact ⟨cs, inBoth, Formula.reached_combined once (readsOnly_outcome left)
      (readsOnly_outcome right) reachedLeft reachedRight built⟩
  | disjunction left right unsupported looks ihLeft ihRight =>
    obtain ⟨as, inLeft, reachedLeft⟩ := ihLeft once.of_append_left
    obtain ⟨bs, inRight, reachedRight⟩ := ihRight once.of_append_right
    obtain ⟨cs, inBoth, built⟩ := SplitKind.samples_or _ _ as inLeft bs inRight
    rw [splitKind_or unsupported looks]
    simp only [outcome_or _ _ _ _ _ unsupported looks]
    exact ⟨cs, inBoth, Formula.reached_combined once (readsOnly_outcome left)
      (readsOnly_outcome right) reachedLeft reachedRight built⟩
  | negation operand unsupported looks ih =>
    obtain ⟨as, inside, reached⟩ := ih once
    obtain ⟨cs, inNegation, built⟩ := SplitKind.samples_not _ as inside
    rw [splitKind_not unsupported looks]
    simp only [outcome_not _ _ _ _ unsupported looks]
    exact ⟨cs, inNegation, Formula.reached_mapped reached built⟩

theorem split_of_nothing_left
    (nothing : (tree.splitIntoSupportedUnsupported options statistics).2.1 = none) :
    (tree.splitIntoSupportedUnsupported options statistics).1 = some tree := by
  induction tree using split_induction options statistics with
  | answered tree supported => exact (split_answered supported).1
  | blocked tree unsupported blocked =>
    rw [(split_blocked unsupported blocked).2] at nothing
    cases nothing
  | conjunction left right unsupported ihLeft ihRight =>
    simp only [splitIntoSupportedUnsupported, unsupported, recombine_eq_none] at nothing ⊢
    rw [ihLeft nothing.1, ihRight nothing.2]
    rfl
  | disjunction left right unsupported looks ihLeft ihRight =>
    simp only [splitIntoSupportedUnsupported, unsupported, looks, if_true] at nothing ⊢
    generalize splitIntoSupportedUnsupported options statistics left = first at *
    generalize splitIntoSupportedUnsupported options statistics right = second at *
    obtain ⟨lSupp, lUnsupp, lSel⟩ := first
    obtain ⟨rSupp, rUnsupp, rSel⟩ := second
    cases lSupp <;> cases lUnsupp <;> cases rSupp <;> cases rUnsupp <;>
      simp_all [splitOr, recombine]
  | negation operand unsupported looks ih =>
    rw [(split_not unsupported looks).2, Option.map_eq_none_iff] at nothing
    rw [(split_not unsupported looks).1, ih nothing]
    rfl

end Kinds

/-- The value of a split on a row: the conjunction of its parts, an absent part being true. -/
def splitEval (row : IndexableFilterExpr E → Truth) (split : Split E) : Truth :=
  ((split.1.map (eval row)).getD .true).conj ((split.2.1.map (eval row)).getD .true)

/-- On every row, the tree is the conjunction of its two parts. -/
def SplitLaw (options : SupportOptions E) (statistics : TableStatistics)
    (tree : IndexableFilterExpr E) : Prop :=
  ∀ row, tree.eval row = splitEval row (tree.splitIntoSupportedUnsupported options statistics)

theorem SplitLaw.supported_holds (law : SplitLaw options statistics tree)
    {row : IndexableFilterExpr E → Truth} (satisfied : tree.eval row = .true)
    {supported : IndexableFilterExpr E}
    (part : (tree.splitIntoSupportedUnsupported options statistics).1 = some supported) :
    supported.eval row = .true := by
  have whole := law row
  rw [satisfied, splitEval, part] at whole
  exact (Truth.conj_eq_true _ _).mp whole.symm |>.1

theorem holds_of_sufficient (sufficient : (splitKind options statistics tree).Sufficient) :
    ∃ supported, (tree.splitIntoSupportedUnsupported options statistics).1 = some supported ∧
      ∀ row, supported.eval row = .true → tree.eval row = .true := by
  have present := SplitKind.value_of_sufficient sufficient
    (describes_outcome (fun _ => .true) tree)
  obtain ⟨_, isPresent, _⟩ := present
  obtain ⟨supported, isSupported, _⟩ := Option.map_eq_some_iff.mp isPresent
  refine ⟨supported, isSupported, fun row holds => ?_⟩
  obtain ⟨value, isValue, implies⟩ :=
    SplitKind.value_of_sufficient sufficient (describes_outcome row tree)
  have same : (some supported).map (eval row) = some value := isSupported ▸ isValue
  exact implies (Option.some.inj same ▸ holds)

theorem splitLaw_of_lossless (lossless : Lossless options statistics tree) :
    SplitLaw options statistics tree := fun row =>
  SplitKind.lawful_of_describes lossless (describes_outcome row tree)

/-- The split law holds for trees of lossless kinds, and among the trees without repeated
leaves for no others. -/
theorem splitLaw_iff_lossless (options : SupportOptions E) (statistics : TableStatistics)
    (tree : IndexableFilterExpr E) :
    (Lossless options statistics tree → SplitLaw options statistics tree) ∧
      (tree.leaves.Nodup → SplitLaw options statistics tree →
        Lossless options statistics tree) := by
  refine ⟨splitLaw_of_lossless, fun once law => ?_⟩
  by_contra lossy
  obtain ⟨results, member, reached⟩ : ∃ results ∈ (splitKind options statistics tree).samples,
      ∀ result ∈ results, Formula.Reached (outcome options statistics · tree) result :=
    reached_samples tree once
  obtain ⟨result, inside, unlawful⟩ :=
    SplitKind.samples_unlawful _ (Bool.eq_false_iff.mpr lossy) results member
  obtain ⟨row, _, rfl⟩ := reached result inside
  exact unlawful (law row)

/-- Support options of a table whose only plaintext column is the one named plain. -/
def plainColumnOnly : SupportOptions Nat :=
  ⟨true, true, fun node _ =>
    match node with
    | .eq column _ _ => if column.column.name = "plain" then some .absent else none
    | _ => none⟩

/-- A comparison of an unqualified column with a 32-bit integer. -/
def int32Equals (column : String) (value : Int) : IndexableFilterExpr Nat :=
  .eq (.raw column) .eq (.primitive .int32 (some (BitVec.ofInt 32 value)))

/-- The lossless direction and its converse, on a conjunction of a supported and an
unsupported comparison. -/
theorem splitLaw_conjunction :
    SplitLaw plainColumnOnly .forEmptyTable (.and (int32Equals "plain" 1) (int32Equals "secret" 2)) ∧
      Lossless plainColumnOnly .forEmptyTable
        (.and (int32Equals "plain" 1) (int32Equals "secret" 2)) := by
  have both := splitLaw_iff_lossless plainColumnOnly .forEmptyTable
    (.and (int32Equals "plain" 1) (int32Equals "secret" 2))
  have law := both.1 (by decide)
  exact ⟨law, both.2 (by decide) law⟩

/-- The row with plain = 1 and secret = 3 satisfies NOT (plain = 1 AND secret = 2), and the row
with plain = 0 and secret = 2 satisfies plain = 1 OR secret = 2, but neither row satisfies the
supported part of its filter. -/
theorem split_drops_matching_rows :
    (∃ row supported,
      (IndexableFilterExpr.not (.and (int32Equals "plain" 1) (int32Equals "secret" 2))).eval row =
        .true ∧
      ((IndexableFilterExpr.not (.and (int32Equals "plain" 1) (int32Equals "secret" 2))
        ).splitIntoSupportedUnsupported plainColumnOnly .forEmptyTable).1 = some supported ∧
      supported.eval row = .false) ∧
    ∃ row supported,
      (IndexableFilterExpr.or (int32Equals "plain" 1) (int32Equals "secret" 2)).eval row = .true ∧
      ((IndexableFilterExpr.or (int32Equals "plain" 1) (int32Equals "secret" 2)
        ).splitIntoSupportedUnsupported plainColumnOnly .forEmptyTable).1 = some supported ∧
      supported.eval row = .false := by
  refine ⟨⟨fun leaf => .ofBool (leaf = int32Equals "plain" 1),
    .not (int32Equals "plain" 1), by decide, by decide, by decide⟩,
    ⟨fun leaf => .ofBool (leaf = int32Equals "secret" 2),
    int32Equals "plain" 1, by decide, by decide, by decide⟩⟩

end SecureFusion.Filtering
