import SecureFusion.Library.Formula

/-!
# Printing without parentheses and reading back

A formula printed without parentheses loses its grouping. A reader groups the text by precedence and
gets a disjunction of conjunctions of literals. Its value is computed here along the formula: a NOT
in front reaches the first literal only and an AND behind the last conjunction only. Of the six
kinds of formulas that follow, three keep their meaning, and among read-once formulas no others do.
-/

namespace SecureFusion.Library

/-- Words of a condition that is written without parentheses. -/
inductive Token (α : Type) where
  | leaf (atom : α)
  | and
  | or
  | not
deriving DecidableEq, Repr

/-- What a reader holds between two words. -/
structure Pending (α : Type) where
  /-- The conjunctions before the last OR. -/
  disjunction : Option (Formula α)
  /-- The operands since the last OR. -/
  conjunction : Option (Formula α)
  /-- The negations that wait for their operand. -/
  negations : Nat

namespace Formula

variable {α : Type}

/-- The text of a formula without parentheses. -/
def print : Formula α → List (Token α)
  | .atom leaf => [.leaf leaf]
  | .and left right => left.print ++ .and :: right.print
  | .or left right => left.print ++ .or :: right.print
  | .not operand => .not :: operand.print

def negate (times : Nat) (formula : Formula α) : Formula α := Formula.not^[times] formula

def join (connective : Formula α → Formula α → Formula α) :
    Option (Formula α) → Formula α → Formula α
  | none, operand => operand
  | some before, operand => connective before operand

end Formula

namespace Pending

variable {α : Type}

def start : Pending α := ⟨none, none, 0⟩

/-- An atom takes the waiting negations and joins the conjunction. -/
def operand (pending : Pending α) (leaf : α) : Pending α :=
  ⟨pending.disjunction,
    some (Formula.join .and pending.conjunction (Formula.negate pending.negations (.atom leaf))), 0⟩

/-- An OR or the end of the text closes the conjunction. -/
def close (pending : Pending α) : Pending α :=
  ⟨match pending.conjunction with
    | none => pending.disjunction
    | some closed => some (Formula.join .or pending.disjunction closed), none, 0⟩

end Pending

namespace Formula

variable {α : Type}

/-- Reads the rest of a text; the flag says that an operand has to come next. -/
def readFrom : (operandNext : Bool) → Pending α → List (Token α) → Option (Formula α)
  | true, pending, .leaf leaf :: rest => readFrom false (pending.operand leaf) rest
  | true, pending, .not :: rest =>
    readFrom true ⟨pending.disjunction, pending.conjunction, pending.negations + 1⟩ rest
  | false, pending, .and :: rest => readFrom true pending rest
  | false, pending, .or :: rest => readFrom true pending.close rest
  | false, pending, [] => pending.close.disjunction
  | _, _, _ => none

/-- The formula that a text is read as, none if it is no condition. -/
def parse (text : List (Token α)) : Option (Formula α) := readFrom true .start text

def feed : Formula α → Pending α → Pending α
  | .atom leaf, pending => pending.operand leaf
  | .not operand, pending =>
    operand.feed ⟨pending.disjunction, pending.conjunction, pending.negations + 1⟩
  | .and left right, pending => right.feed (left.feed pending)
  | .or left right, pending => right.feed (left.feed pending).close

theorem readFrom_print (formula : Formula α) (pending : Pending α) (rest : List (Token α)) :
    readFrom true pending (formula.print ++ rest) = readFrom false (formula.feed pending) rest := by
  induction formula generalizing pending rest with
  | atom leaf => rfl
  | and left right ihLeft ihRight | or left right ihLeft ihRight =>
    rw [print, List.append_assoc, ihLeft, List.cons_append, readFrom, ihRight, feed]
  | not operand ih =>
    rw [print, List.cons_append, readFrom, ih, feed]

end Formula

/-- The value of a formula on a row and the values of the parts that its text is read as. -/
structure Reading where
  /-- The formula itself. -/
  value : Truth
  /-- The first literal of the text. -/
  lead : Truth
  /-- The rest of the first conjunction. -/
  rest : Truth
  /-- The conjunctions in the middle and the last one, if the text has several. -/
  later : Option (Truth × Truth)
deriving DecidableEq

namespace Reading

def total (reading : Reading) : Truth :=
  match reading.later with
  | none => reading.lead.conj reading.rest
  | some (middle, last) => (reading.lead.conj reading.rest).disj (middle.disj last)

def atom (value : Truth) : Reading := ⟨value, value, .true, none⟩

def not (reading : Reading) : Reading :=
  ⟨reading.value.neg, reading.lead.neg, reading.rest, reading.later⟩

/-- An AND joins the last conjunction before it and the first one after it. -/
def and (left right : Reading) : Reading :=
  let first := right.lead.conj right.rest
  let value := left.value.conj right.value
  match left.later, right.later with
  | none, later => ⟨value, left.lead, left.rest.conj first, later⟩
  | some (middle, last), none => ⟨value, left.lead, left.rest, some (middle, last.conj first)⟩
  | some (middle, last), some (middle', last') =>
    ⟨value, left.lead, left.rest, some (middle.disj ((last.conj first).disj middle'), last')⟩

def or (left right : Reading) : Reading :=
  let first := right.lead.conj right.rest
  let value := left.value.disj right.value
  let before := match left.later with
    | none => .false
    | some (middle, last) => middle.disj last
  match right.later with
  | none => ⟨value, left.lead, left.rest, some (before, first)⟩
  | some (middle', last') =>
    ⟨value, left.lead, left.rest, some (before.disj (first.disj middle'), last')⟩

end Reading

namespace Formula

variable {α : Type}

/-- How the text of a formula is grouped, with its values. -/
def reading (row : α → Truth) : Formula α → Reading
  | .atom leaf => .atom (row leaf)
  | .and left right => (left.reading row).and (right.reading row)
  | .or left right => (left.reading row).or (right.reading row)
  | .not operand => (operand.reading row).not

theorem value_reading (row : α → Truth) (formula : Formula α) :
    (formula.reading row).value = formula.eval row := by
  induction formula with
  | atom leaf => rfl
  | and left right ihLeft ihRight =>
    rw [reading, eval, ← ihLeft, ← ihRight]
    unfold Reading.and
    split <;> rfl
  | or left right ihLeft ihRight =>
    rw [reading, eval, ← ihLeft, ← ihRight]
    unfold Reading.or
    dsimp only
    split <;> rfl
  | not operand ih => rw [reading, eval, ← ih, Reading.not]

theorem eval_negate (row : α → Truth) (times : Nat) (formula : Formula α) :
    (formula.negate times).eval row = Truth.neg^[times] (formula.eval row) := by
  induction times generalizing formula with
  | zero => rfl
  | succ times ih =>
    rw [negate, Function.iterate_succ_apply, ← negate, ih, eval, ← Function.iterate_succ_apply]

end Formula

namespace Pending

variable {α : Type} (row : α → Truth) (pending : Pending α)

/-- The value of the closed conjunctions, false if there are none. -/
def before (pending : Pending α) : Truth := (pending.disjunction.map (Formula.eval row)).getD .false

/-- The value of the open conjunction, true if it is empty. -/
def current (pending : Pending α) : Truth := (pending.conjunction.map (Formula.eval row)).getD .true

@[simp] theorem before_operand (leaf : α) :
    (pending.operand leaf).before row = pending.before row := rfl

@[simp] theorem current_operand (leaf : α) :
    (pending.operand leaf).current row =
      (pending.current row).conj (Truth.neg^[pending.negations] (row leaf)) := by
  obtain ⟨disjunction, conjunction, negations⟩ := pending
  cases conjunction <;>
    simp [operand, current, Formula.join, Formula.eval, Formula.eval_negate]

theorem before_close {pending : Pending α} (opened : pending.conjunction.isSome) :
    pending.close.before row = (pending.before row).disj (pending.current row) := by
  obtain ⟨disjunction, conjunction, negations⟩ := pending
  cases conjunction with
  | none => cases opened
  | some conjunction =>
    cases disjunction <;> simp [close, before, current, Formula.join, Formula.eval]

@[simp] theorem current_close : pending.close.current row = .true := rfl

end Pending

namespace Reading

/-- The values of the closed conjunctions and of the open one after a text with this reading,
from those before it and the number of negations that wait for its first literal. -/
def feed (reading : Reading) (before current : Truth) (negations : Nat) : Truth × Truth :=
  let first := current.conj ((Truth.neg^[negations] reading.lead).conj reading.rest)
  match reading.later with
  | none => (before, first)
  | some (middle, last) => (before.disj (first.disj middle), last)

variable (left right : Reading) (reading : Reading)

theorem feed_and (before current : Truth) (negations : Nat) :
    (left.and right).feed before current negations =
      right.feed (left.feed before current negations).1
        (left.feed before current negations).2 0 := by
  obtain ⟨_, _, _, leftLater⟩ := left
  obtain ⟨_, _, _, rightLater⟩ := right
  cases leftLater <;> cases rightLater <;>
    simp [and, feed, Truth.conj_assoc, Truth.disj_assoc]

theorem feed_or (before current : Truth) (negations : Nat) :
    (left.or right).feed before current negations =
      right.feed ((left.feed before current negations).1.disj
        (left.feed before current negations).2) .true 0 := by
  obtain ⟨_, _, _, leftLater⟩ := left
  obtain ⟨_, _, _, rightLater⟩ := right
  cases leftLater <;> cases rightLater <;>
    simp [or, feed, Truth.disj_assoc]

theorem feed_not (before current : Truth) (negations : Nat) :
    reading.not.feed before current negations = reading.feed before current (negations + 1) := rfl

theorem total_eq_feed :
    reading.total = (reading.feed .false .true 0).1.disj (reading.feed .false .true 0).2 := by
  obtain ⟨_, _, _, later⟩ := reading
  cases later <;> simp [total, feed, Truth.disj_assoc]

end Reading

open Reading

namespace Formula

variable {α : Type} (formula : Formula α)

theorem feed_opened (formula : Formula α) (pending : Pending α) :
    (formula.feed pending).conjunction.isSome ∧ (formula.feed pending).negations = 0 := by
  induction formula generalizing pending with
  | atom leaf => exact ⟨rfl, rfl⟩
  | and left right ihLeft ihRight | or left right ihLeft ihRight => exact ihRight _
  | not operand ih => exact ih _

theorem feed_values (row : α → Truth) (formula : Formula α) (pending : Pending α) :
    ((formula.feed pending).before row, (formula.feed pending).current row) =
      (formula.reading row).feed (pending.before row) (pending.current row) pending.negations := by
  induction formula generalizing pending with
  | atom leaf => simp [feed, reading, Reading.atom, Reading.feed]
  | and left right ihLeft ihRight =>
    have closed := (left.feed_opened pending).2
    rw [feed, reading, feed_and, ← ihLeft, ihRight, closed]
  | or left right ihLeft ihRight =>
    have opened := (left.feed_opened pending).1
    rw [feed, reading, feed_or, ← ihLeft, ihRight, Pending.before_close row opened,
      Pending.current_close]
    rfl
  | not operand ih =>
    rw [feed, reading, feed_not, ih]
    rfl

theorem parse_print (formula : Formula α) :
    ∃ parsed, parse formula.print = some parsed ∧
      ∀ row, parsed.eval row = (formula.reading row).total := by
  have opened := (formula.feed_opened .start).1
  have fed : parse formula.print = (formula.feed .start).close.disjunction := by
    rw [parse, ← List.append_nil formula.print, readFrom_print, readFrom]
  obtain ⟨last, isLast⟩ := Option.isSome_iff_exists.mp opened
  refine ⟨join .or (formula.feed .start).disjunction last, ?_, fun row => ?_⟩
  · rw [fed, Pending.close, isLast]
  · have values := formula.feed_values row .start
    have closed := Pending.before_close row opened
    rw [Pending.close, isLast, Pending.before, Option.map_some, Option.getD_some] at closed
    rw [total_eq_feed]
    rw [closed]
    exact congrArg (fun pair : Truth × Truth => pair.1.disj pair.2) values

/-- The text of a formula is read as one with the same values. -/
def Recovered (formula : Formula α) : Prop :=
  ∃ parsed, parse formula.print = some parsed ∧ ∀ row, parsed.eval row = formula.eval row

theorem recovered_iff :
    formula.Recovered ↔ ∀ row, (formula.reading row).total = (formula.reading row).value := by
  obtain ⟨parsed, isParsed, values⟩ := formula.parse_print
  simp only [value_reading, ← values]
  constructor
  · rintro ⟨other, isOther, same⟩
    rw [isParsed, Option.some.injEq] at isOther
    rw [isOther]
    exact same
  · intro same
    exact ⟨parsed, isParsed, same⟩

end Formula

/-! ## Kinds of formulas -/

/-- How the text of a formula relates to the formula. -/
inductive TextKind where
  /-- An atom under negations. -/
  | literal
  /-- A conjunction that is read as it is. -/
  | conjunction
  /-- A disjunction that is read as it is. -/
  | disjunction
  /-- A conjunction but for a negation that reaches its first literal only. -/
  | negatedConjunction
  /-- A disjunction but for a negation that reaches its first literal only. -/
  | negatedDisjunction
  /-- Anything else. -/
  | regrouped
deriving DecidableEq, Repr

namespace TextKind

instance : Fintype TextKind where
  elems := {.literal, .conjunction, .disjunction, .negatedConjunction, .negatedDisjunction,
    .regrouped}
  complete kind := by cases kind <;> decide

def Conjoinable : TextKind → Bool
  | .literal | .conjunction => true
  | _ => false

def Readable : TextKind → Bool
  | .literal | .conjunction | .disjunction => true
  | _ => false

def and (left right : TextKind) : TextKind :=
  if left.Conjoinable && right.Conjoinable then .conjunction else .regrouped

def or (left right : TextKind) : TextKind :=
  if left.Readable && right.Readable then .disjunction else .regrouped

def not : TextKind → TextKind
  | .literal => .literal
  | .conjunction => .negatedConjunction
  | .negatedConjunction => .conjunction
  | .disjunction => .negatedDisjunction
  | .negatedDisjunction => .disjunction
  | .regrouped => .regrouped

def Describes : TextKind → Reading → Prop
  | .literal, reading => reading.later = none ∧ reading.rest = .true ∧ reading.value = reading.lead
  | .conjunction, reading => reading.later = none ∧ reading.value = reading.total
  | .disjunction, reading => reading.later.isSome ∧ reading.value = reading.total
  | .negatedConjunction, reading => reading.later = none ∧ reading.not.value = reading.not.total
  | .negatedDisjunction, reading => reading.later.isSome ∧ reading.not.value = reading.not.total
  | .regrouped, _ => True

variable {reading : Reading} {kind : TextKind} {k l : TextKind} {a b : Reading}

theorem total_of_readable (readable : kind.Readable)
    (form : kind.Describes reading) : reading.total = reading.value := by
  cases kind with
  | literal =>
    obtain ⟨single, alone, same⟩ := form
    simp [total, single, alone, same]
  | conjunction | disjunction => exact form.2.symm
  | _ => cases readable

theorem single_of_conjoinable (conjoinable : kind.Conjoinable) (form : kind.Describes reading) :
    reading.later = none ∧ reading.value = reading.lead.conj reading.rest := by
  cases kind with
  | literal =>
    obtain ⟨single, alone, same⟩ := form
    exact ⟨single, by rw [alone, Truth.conj_true, same]⟩
  | conjunction =>
    obtain ⟨single, same⟩ := form
    rw [total, single] at same
    exact ⟨single, same⟩
  | _ => cases conjoinable

theorem describes_and (first : k.Describes a)
    (second : l.Describes b) : (k.and l).Describes (a.and b) := by
  rw [and]
  split
  case isTrue both =>
    rw [Bool.and_eq_true] at both
    obtain ⟨singleLeft, left⟩ := single_of_conjoinable both.1 first
    obtain ⟨singleRight, right⟩ := single_of_conjoinable both.2 second
    simp [Describes, Reading.and, Reading.total, singleLeft, singleRight, left, right,
      Truth.conj_assoc]
  case isFalse => trivial

theorem describes_or (first : k.Describes a)
    (second : l.Describes b) : (k.or l).Describes (a.or b) := by
  rw [or]
  split
  case isTrue both =>
    rw [Bool.and_eq_true] at both
    have left := total_of_readable both.1 first
    have right := total_of_readable both.2 second
    obtain ⟨leftValue, leftLead, leftRest, leftLater⟩ := a
    obtain ⟨rightValue, rightLead, rightRest, rightLater⟩ := b
    cases leftLater <;> cases rightLater <;>
      simp [Describes, Reading.or, Reading.total, Truth.disj_assoc] at left right ⊢ <;>
      simp [← left, ← right, Truth.disj_assoc]
  case isFalse => trivial

theorem describes_not {k : TextKind} {a : Reading} (form : k.Describes a) :
    k.not.Describes a.not := by
  have twice : a.not.not = a := by simp [Reading.not]
  cases k with
  | literal =>
    obtain ⟨single, alone, same⟩ := form
    exact ⟨single, alone, by simp [Reading.not, same]⟩
  | conjunction | disjunction =>
    refine ⟨form.1, ?_⟩
    rw [twice]
    exact form.2
  | negatedConjunction | negatedDisjunction => exact form
  | regrouped => trivial

/-- A reading of one conjunction, with classical values. -/
def single (value lead rest : Bool) : Reading :=
  ⟨.ofBool value, .ofBool lead, .ofBool rest, none⟩

/-- A reading of several conjunctions, with classical values. -/
def several (value lead rest middle last : Bool) : Reading :=
  ⟨.ofBool value, .ofBool lead, .ofBool rest, some (.ofBool middle, .ofBool last)⟩

/-- The readings that a read-once formula of a kind takes: all of one of the lists. -/
def samples : TextKind → List (List Reading)
  | .literal => [[single true true true, single false false true]]
  | .conjunction => [[single true true true, single false true false, single false false true,
      single false false false]]
  | .disjunction => [[several true true true false true, several true true true false false,
      several true false true false true, several false false true false false]]
  | .negatedConjunction => [[single false false true, single true false false,
      single true true true, single true true false]]
  | .negatedDisjunction => [[several false false true false true,
      several false false true false false, several false true true false true,
      several true true true false false]]
  | .regrouped =>
    [[several false false true false false, several false false true false true,
      several false true false false false, several false true true false true,
      several true true true false false],
    [several false false true false false, several false false true true false,
      several true true true false false, several true true true false true],
    [single false false false, single false false true, single true true false,
      single true true true],
    [several false false true false false, several false true true false false],
    [several false false true false false, several false false true false true,
      several true true true false false, several true true true false true],
    [several true false true false false, several true true true false false],
    [several false false true false false, several false false true true false,
      several true true true false false, several true true true true false],
    [several false false false false false, several false false true false false,
      several true true false false false, several true true true false false],
    [several false false true false false, several false false true false true,
      several true true true false false, several true true true true false],
    [several false false true false false, several true false false false false,
      several true false true false true, several true true true false false,
      several true true true false true]]

theorem samples_and : ∀ k l : TextKind, ∀ as ∈ k.samples, ∀ bs ∈ l.samples,
    ∃ cs ∈ (k.and l).samples, Formula.Combined Reading.and as bs cs := by
  decide +kernel

theorem samples_or : ∀ k l : TextKind, ∀ as ∈ k.samples, ∀ bs ∈ l.samples,
    ∃ cs ∈ (k.or l).samples, Formula.Combined Reading.or as bs cs := by
  decide +kernel

theorem samples_not : ∀ k : TextKind, ∀ as ∈ k.samples,
    ∃ cs ∈ k.not.samples, Formula.Mapped Reading.not as cs := by
  decide +kernel

theorem samples_misread (k : TextKind) (misread : k.Readable = false) :
    ∀ as ∈ k.samples, ∃ a ∈ as, a.total ≠ a.value := by
  revert k
  decide +kernel

end TextKind

open TextKind

namespace Formula

variable {α : Type} {formula : Formula α}

def textKind : Formula α → TextKind
  | .atom _ => .literal
  | .and left right => left.textKind.and right.textKind
  | .or left right => left.textKind.or right.textKind
  | .not operand => operand.textKind.not

theorem describes_reading (row : α → Truth) (formula : Formula α) :
    formula.textKind.Describes (formula.reading row) := by
  induction formula with
  | atom leaf => exact ⟨rfl, rfl, rfl⟩
  | and left right ihLeft ihRight => exact describes_and ihLeft ihRight
  | or left right ihLeft ihRight => exact describes_or ihLeft ihRight
  | not operand ih => exact describes_not ih

theorem readsOnly_reading : ReadsOnly formula.atoms (formula.reading ·) := by
  intro first second agree
  dsimp only
  induction formula with
  | atom leaf => rw [reading, reading, agree leaf (List.mem_singleton_self leaf)]
  | and left right ihLeft ihRight | or left right ihLeft ihRight =>
    obtain ⟨onLeft, onRight⟩ := List.forall_mem_append.mp agree
    rw [reading, reading, ihLeft onLeft, ihRight onRight]
  | not operand ih => rw [reading, reading, ih agree]

theorem reached_samples (once : formula.ReadOnce) :
    ∃ readings ∈ formula.textKind.samples,
      ∀ result ∈ readings, Reached (formula.reading ·) result := by
  induction formula with
  | atom leaf =>
    have both : ∀ value : Bool,
        Reached (fun row => reading row (.atom leaf)) (.atom (.ofBool value)) :=
      fun value => ⟨fun _ => .ofBool value, fun _ => ⟨value, rfl⟩, rfl⟩
    refine ⟨_, List.mem_singleton_self _, ?_⟩
    simpa using ⟨both true, both false⟩
  | and left right ihLeft ihRight =>
    obtain ⟨as, inLeft, reachedLeft⟩ := ihLeft once.of_append_left
    obtain ⟨bs, inRight, reachedRight⟩ := ihRight once.of_append_right
    obtain ⟨cs, inBoth, built⟩ := samples_and _ _ as inLeft bs inRight
    have all := reached_combined once left.readsOnly_reading right.readsOnly_reading
      reachedLeft reachedRight built
    exact ⟨cs, inBoth, all⟩
  | or left right ihLeft ihRight =>
    obtain ⟨as, inLeft, reachedLeft⟩ := ihLeft once.of_append_left
    obtain ⟨bs, inRight, reachedRight⟩ := ihRight once.of_append_right
    obtain ⟨cs, inBoth, built⟩ := samples_or _ _ as inLeft bs inRight
    have all := reached_combined once left.readsOnly_reading right.readsOnly_reading
      reachedLeft reachedRight built
    exact ⟨cs, inBoth, all⟩
  | not operand ih =>
    obtain ⟨as, inside, reached⟩ := ih once
    obtain ⟨cs, inNegation, built⟩ := samples_not _ as inside
    exact ⟨cs, inNegation, reached_mapped reached built⟩

theorem recovered_of_readable (readable : formula.textKind.Readable) : formula.Recovered :=
  formula.recovered_iff.mpr fun row =>
    total_of_readable readable (formula.describes_reading row)

theorem readable_of_recovered (once : formula.ReadOnce)
    (recovered : formula.Recovered) : formula.textKind.Readable := by
  by_contra misread
  obtain ⟨readings, member, reached⟩ := formula.reached_samples once
  obtain ⟨result, inside, differs⟩ :=
    samples_misread _ (Bool.eq_false_iff.mpr misread) readings member
  obtain ⟨row, _, rfl⟩ := reached result inside
  exact differs (formula.recovered_iff.mp recovered row)

end Formula

end SecureFusion.Library
