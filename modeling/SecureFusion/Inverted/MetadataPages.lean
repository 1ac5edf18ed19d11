import Mathlib.Algebra.Order.BigOperators.Group.List
import Mathlib.Algebra.Order.Group.Nat
import SecureFusion.Inverted.Runs

/-!
# Metadata pages over whole runs

A page that is too large raises its default and forgets the smaller numbers of pages. What it
answers stays an upper bound of what was inserted.
-/

namespace SecureFusion.Inverted

open Std

variable {size : RowIdColumnSize} {Blob : Type} {page : MetadataPage}

namespace MetadataPage

/-- No entry is covered by the default. -/
def Listed (page : MetadataPage) : Prop :=
  ∀ (term : RawIndexTerm) (count : Nat), page.numPages[term]? = some count →
    page.defaultNumPages < count

def CoveredBy (page : MetadataPage) (bound : Nat) : Prop :=
  ∀ (term : RawIndexTerm) (count : Nat), page.numPages[term]? = some count → count ≤ bound

theorem Listed.insertEntry (listed : page.Listed) (keyword : RawIndexTerm) (count : Nat) :
    (page.insertEntry keyword count).Listed := by
  intro term stored isStored
  unfold MetadataPage.insertEntry at isStored ⊢
  by_cases above : page.defaultNumPages < count
  · rw [if_pos above] at isStored ⊢
    rw [ExtTreeMap.getElem?_insert] at isStored
    split_ifs at isStored with same
    · cases isStored
      exact above
    · exact listed term stored isStored
  · rw [if_neg above] at isStored ⊢
    rw [ExtTreeMap.getElem?_erase] at isStored
    split_ifs at isStored
    exact listed term stored isStored

theorem shrink_entry {term : RawIndexTerm} {count : Nat}
    (isStored : page.shrink.numPages[term]? = some count) :
    page.numPages[term]? = some count ∧ page.shrink.defaultNumPages < count := by
  unfold shrink at isStored
  rw [ExtTreeMap.getElem?_filter, Option.pfilter_eq_some_iff] at isStored
  obtain ⟨isIn, above⟩ := isStored
  exact ⟨isIn, of_decide_eq_true above⟩

theorem Listed.eq_empty (listed : page.Listed) (covered : page.CoveredBy page.defaultNumPages) :
    page.numPages = ∅ := by
  apply ExtTreeMap.ext_getElem?
  intro term
  rw [ExtTreeMap.getElem?_empty]
  cases stored : page.numPages[term]? with
  | none => rfl
  | some count =>
    have above := listed term count stored
    have below := covered term count stored
    omega

end MetadataPage

/-- An insertion, or an encoding that shrinks the page if it has to. -/
inductive MetadataStep where
  | insertEntry (keyword : RawIndexTerm) (numPages : Nat)
  | shrinkToFitAndEncode

def MetadataStep.inserted (term : RawIndexTerm) : MetadataStep → Option Nat
  | .insertEntry keyword numPages => if keyword = term then some numPages else none
  | .shrinkToFitAndEncode => none

/-- The number of pages inserted last for a term. -/
def lastInserted (steps : List MetadataStep) (term : RawIndexTerm) : Nat :=
  (steps.filterMap (·.inserted term)).getLast?.getD 0

namespace IndexEnvironment

variable (env : IndexEnvironment size Blob)

/-- The page that is left, and the buffer. -/
def shrinkToFitAndEncode (page : MetadataPage) : Option (MetadataPage × Blob) := do
  let shrunk ← env.shrinkToFit (shrinkRounds page) page
  some (shrunk, env.metadataCodec.encode shrunk)

def metadataStep (page : MetadataPage) : MetadataStep → Option MetadataPage
  | .insertEntry keyword numPages => some (page.insertEntry keyword numPages)
  | .shrinkToFitAndEncode => (env.shrinkToFitAndEncode page).map Prod.fst

variable (emptyFits : ∀ default keySize,
  env.length (env.metadataCodec.encode ⟨∅, default, keySize⟩) ≤ maxMetadataPageSize)
include emptyFits

theorem shrinkToFit_terminates {fuel : Nat} (listed : page.Listed)
    (covered : page.CoveredBy (page.defaultNumPages + fuel)) :
    ∃ shrunk, env.shrinkToFit (fuel + 1) page = some shrunk ∧ shrunk.Listed ∧
      env.length (env.metadataCodec.encode shrunk) ≤ maxMetadataPageSize := by
  -- Each round raises the default, which covers every entry in the end.
  induction fuel generalizing page with
  | zero =>
    have fits := emptyFits page.defaultNumPages page.keySize
    rw [← listed.eq_empty covered] at fits
    exact ⟨page, if_pos fits, listed, fits⟩
  | succ fuel ih =>
    by_cases fits : env.length (env.metadataCodec.encode page) ≤ maxMetadataPageSize
    · exact ⟨page, if_pos fits, listed, fits⟩
    · rw [shrinkToFit, if_neg fits]
      apply ih
      · exact fun _ _ isStored => (MetadataPage.shrink_entry isStored).2
      · intro term count isStored
        have below := covered term count (MetadataPage.shrink_entry isStored).1
        show count ≤ page.defaultNumPages + 1 + fuel
        omega

theorem shrinkToFitAndEncode_terminates (listed : page.Listed) :
    ∃ shrunk, env.shrinkToFitAndEncode page = some (shrunk, env.metadataCodec.encode shrunk) ∧
      shrunk.Listed ∧ env.length (env.metadataCodec.encode shrunk) ≤ maxMetadataPageSize ∧
      ∀ term, page.getNumPages term ≤ shrunk.getNumPages term := by
  have covered : page.CoveredBy
      (page.defaultNumPages + (page.numPages.toList.map Prod.snd).sum) := by
    intro term count isStored
    have isIn : count ∈ page.numPages.toList.map Prod.snd :=
      List.mem_map_of_mem (ExtTreeMap.mem_toList_iff_getElem?_eq_some.mpr isStored)
    have below := List.le_sum_of_mem isIn
    omega
  obtain ⟨shrunk, shrinks, after, fits⟩ := env.shrinkToFit_terminates emptyFits listed covered
  refine ⟨shrunk, ?_, after, fits, env.getNumPages_le_shrinkToFit _ shrinks⟩
  rw [shrinkToFitAndEncode, shrinkRounds, shrinks]
  rfl

theorem metadataStep_bounds (listed : page.Listed) (step : MetadataStep) :
    ∃ next, env.metadataStep page step = some next ∧ next.Listed ∧
      ∀ term, (step.inserted term).getD (page.getNumPages term) ≤ next.getNumPages term := by
  cases step with
  | insertEntry keyword count =>
    refine ⟨_, rfl, listed.insertEntry keyword count, fun term => ?_⟩
    rw [MetadataStep.inserted]
    by_cases same : keyword = term
    · rw [if_pos same, ← same]
      exact page.le_getNumPages_insertEntry keyword count
    · rw [if_neg same]
      exact (page.getNumPages_insertEntry_of_ne same count).ge
  | shrinkToFitAndEncode =>
    obtain ⟨shrunk, shrinks, after, -, bounds⟩ :=
      env.shrinkToFitAndEncode_terminates emptyFits listed
    refine ⟨shrunk, ?_, after, bounds⟩
    rw [metadataStep, shrinks]
    rfl

theorem metadataRun_bounds (keySize : Nat) (steps : List MetadataStep) :
    ∃ page, steps.foldlM env.metadataStep (.new keySize) = some page ∧ page.Listed ∧
      ∀ term, lastInserted steps term ≤ page.getNumPages term := by
  -- The last insertion of a term is in the last step or before it.
  induction steps using List.reverseRecOn with
  | nil =>
    refine ⟨_, rfl, fun term count isStored => ?_, fun _ => Nat.zero_le _⟩
    rw [MetadataPage.new, ExtTreeMap.getElem?_empty] at isStored
    cases isStored
  | append_singleton steps step ih =>
    obtain ⟨page, ran, listed, before⟩ := ih
    obtain ⟨next, stepped, after, bounds⟩ := env.metadataStep_bounds emptyFits listed step
    refine ⟨next, ?_, after, fun term => ?_⟩
    · rw [List.foldlM_append, ran]
      exact (bind_pure _).trans stepped
    · have bound := bounds term
      unfold lastInserted at before ⊢
      rw [List.filterMap_append]
      cases inserted : step.inserted term with
      | none =>
        rw [inserted] at bound
        simpa [inserted] using (before term).trans bound
      | some count =>
        rw [inserted] at bound
        simpa [inserted] using bound

/-- After every run of insertions and encodings the number of pages of a term is at least the one
inserted last, and encoding the page terminates with the encoding of a page, which fits. -/
theorem metadata_page_bounds (keySize : Nat) (steps : List MetadataStep) :
    ∃ page, steps.foldlM env.metadataStep (.new keySize) = some page ∧
      (∀ term, lastInserted steps term ≤ page.getNumPages term) ∧
      ∃ shrunk buffer, env.shrinkToFitAndEncode page = some (shrunk, buffer) ∧
        buffer = env.metadataCodec.encode shrunk ∧ env.length buffer ≤ maxMetadataPageSize := by
  obtain ⟨page, ran, listed, bounds⟩ := env.metadataRun_bounds emptyFits keySize steps
  obtain ⟨shrunk, shrinks, -, fits, -⟩ := env.shrinkToFitAndEncode_terminates emptyFits listed
  exact ⟨page, ran, bounds, shrunk, _, shrinks, rfl, fits⟩

omit emptyFits

/-- An encoding in which two entries are too large for a page. -/
def largeEntries : IndexEnvironment .size4Bytes (SymbolicBlob .size4Bytes) :=
  { SymbolicBlob.environment .size4Bytes with
    length := fun
      | .metadata page => page.numPages.size * maxMetadataPageSize
      | _ => 0 }

/-- Of two terms only the one with more pages stays listed. -/
theorem metadata_page_bounds_shrunk :
    let steps := [.insertEntry [1] 1, .insertEntry [2] 2, .shrinkToFitAndEncode, .insertEntry [3] 1]
    ∃ page, steps.foldlM largeEntries.metadataStep (.new 4) = some page ∧
      (∀ term, lastInserted steps term ≤ page.getNumPages term) ∧
      ∃ shrunk buffer, largeEntries.shrinkToFitAndEncode page = some (shrunk, buffer) ∧
        buffer = largeEntries.metadataCodec.encode shrunk ∧
        largeEntries.length buffer ≤ maxMetadataPageSize := by
  apply metadata_page_bounds largeEntries
  intro default keySize
  show (∅ : TermMap Nat).size * maxMetadataPageSize ≤ maxMetadataPageSize
  decide +kernel

end IndexEnvironment

end SecureFusion.Inverted
