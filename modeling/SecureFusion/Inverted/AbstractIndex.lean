import SecureFusion.Inverted.Pages

/-!
# The index as a map from terms to document sets

What an inverted index is for: it keeps, for every term, the set of documents indexed under it,
terms being compared on their first bytes only. Operations change these sets and queries read them.
The modifications page changes the stored sets in the same way: its removed documents hide stored
and added ones.
-/

namespace SecureFusion.Inverted

open Std List

variable {size : RowIdColumnSize} {table : ModificationsTable size}

abbrev AbstractIndex (size : RowIdColumnSize) := RawIndexTerm → Set (IndexedDocumentId size)

namespace AbstractIndex

def ofDocuments (source : List (IndexedDocumentId size × List RawIndexTerm)) :
    AbstractIndex size :=
  fun term => {document | ∃ terms, (document, terms) ∈ source ∧ term ∈ terms.map resizeTerm}

def insertTerms (index : AbstractIndex size) (document : IndexedDocumentId size)
    (terms : List RawIndexTerm) : AbstractIndex size :=
  fun term => {other | other ∈ index term ∨ (other = document ∧ term ∈ terms.map resizeTerm)}

def removeTerms (index : AbstractIndex size) (document : IndexedDocumentId size)
    (terms : List RawIndexTerm) : AbstractIndex size :=
  fun term => {other | other ∈ index term ∧ ¬ (other = document ∧ term ∈ terms.map resizeTerm)}

def evaluate (index : AbstractIndex size) : RawIndexQuery → Set (IndexedDocumentId size)
  | .term keyword => index (resizeTerm keyword)
  | .union a b => index.evaluate a ∪ index.evaluate b
  | .difference a b => index.evaluate a \ index.evaluate b
  | .intersect a b => index.evaluate a ∩ index.evaluate b

end AbstractIndex

namespace ModificationsTable

/-- The stored sets with the modifications. -/
def apply (table : ModificationsTable size) (stored : AbstractIndex size) : AbstractIndex size :=
  fun term => {document | (document ∈ stored term ∨ document ∈ documents table.addedEntries term) ∧
    document ∉ documents table.removedEntries term}

/-- No document is both added to and removed from a term. -/
def Disjoint (table : ModificationsTable size) : Prop :=
  ∀ term document, document ∈ documents table.addedEntries term →
    document ∉ documents table.removedEntries term

theorem apply_empty (stored : AbstractIndex size) : (empty : ModificationsTable size).apply stored =
    stored := by
  funext term
  ext document
  simp [apply, empty, documents]

theorem disjoint_empty : (empty : ModificationsTable size).Disjoint := by
  intro term document added
  simp [empty, documents] at added

variable (entries : TermMap (DocumentSet size))

theorem mem_documents_alter (key term : RawIndexTerm) (document other : IndexedDocumentId size) :
    other ∈ documents (entries.alter key fun existing => some ((existing.getD ∅).insert document))
        term ↔
      other ∈ documents entries term ∨ (other = document ∧ term = key) := by
  rw [documents, documents, Library.OrderedMap.getElem?_alter_ite]
  by_cases same : key = term
  · subst same
    simp only [if_true, Option.getD_some, Library.OrderedMap.mem_insert_eq, and_true]
    exact or_comm
  · simp [same, Ne.symm same]

theorem mem_documents_modify (key term : RawIndexTerm) (document other : IndexedDocumentId size) :
    other ∈ documents (entries.modify key (·.erase document)) term ↔
      other ∈ documents entries term ∧ ¬ (other = document ∧ term = key) := by
  rw [documents, documents, ExtTreeMap.getElem?_modify]
  by_cases same : key = term
  · subst same
    cases listed : entries[key]? with
    | none => simp
    | some existing =>
      simp only [compare_self, if_true, Option.map_some, Option.getD_some,
        Library.OrderedMap.mem_erase_eq, and_true]
      exact and_comm
  · simp [same, Ne.symm same]

/-- The table with its two parts exchanged, for which removals are insertions. -/
def swap (table : ModificationsTable size) : ModificationsTable size :=
  ⟨table.removedEntries, table.addedEntries⟩

theorem swap_removeTerms (table : ModificationsTable size) (document : IndexedDocumentId size)
    (terms : List RawIndexTerm) :
    (table.removeTerms document terms).swap = table.swap.insertTerms document terms := by
  induction terms generalizing table with
  | nil => rfl
  | cons term terms ih => exact ih _

theorem Disjoint.swap (disjoint : table.Disjoint) : table.swap.Disjoint :=
  fun term document added removed => disjoint term document removed added

theorem apply_insertTerms (table : ModificationsTable size) (stored : AbstractIndex size)
    (document : IndexedDocumentId size) (terms : List RawIndexTerm) :
    (table.insertTerms document terms).apply stored =
      (table.apply stored).insertTerms document terms := by
  induction terms generalizing table with
  | nil =>
    funext key
    ext other
    simp [insertTerms, AbstractIndex.insertTerms]
  | cons term terms ih =>
    refine (ih _).trans ?_
    funext key
    ext other
    simp only [apply, insertTerm, AbstractIndex.insertTerms, Set.mem_ofPred_eq, mem_documents_alter,
      mem_documents_modify, map_cons, mem_cons]
    tauto

theorem apply_removeTerms (table : ModificationsTable size) (stored : AbstractIndex size)
    (document : IndexedDocumentId size) (terms : List RawIndexTerm) :
    (table.removeTerms document terms).apply stored =
      (table.apply stored).removeTerms document terms := by
  induction terms generalizing table with
  | nil =>
    funext key
    ext other
    simp [removeTerms, AbstractIndex.removeTerms]
  | cons term terms ih =>
    refine (ih _).trans ?_
    funext key
    ext other
    simp only [apply, removeTerm, AbstractIndex.removeTerms, Set.mem_ofPred_eq, mem_documents_alter,
      mem_documents_modify, map_cons, mem_cons]
    tauto

theorem disjoint_insertTerms (disjoint : table.Disjoint) (document : IndexedDocumentId size)
    (terms : List RawIndexTerm) :
    (table.insertTerms document terms).Disjoint := by
  induction terms generalizing table with
  | nil => exact disjoint
  | cons term terms ih =>
    refine ih fun key other added removed => ?_
    rw [insertTerm, mem_documents_alter] at added
    rw [insertTerm, mem_documents_modify] at removed
    obtain before | now := added
    · exact disjoint key other before removed.1
    · exact removed.2 now

theorem disjoint_removeTerms (disjoint : table.Disjoint) (document : IndexedDocumentId size)
    (terms : List RawIndexTerm) :
    (table.removeTerms document terms).Disjoint := by
  have swapped := disjoint_insertTerms disjoint.swap document terms
  rw [← swap_removeTerms] at swapped
  exact swapped.swap

end ModificationsTable

theorem RawIndexQuery.coe_evaluate (query : RawIndexQuery)
    (response : TermMap (List (IndexedDocumentId size))) (table : ModificationsTable size)
    (stored : AbstractIndex size)
    (complete : ∀ keyword ∈ query.checkMaxLengths.collectTerms, ∀ document,
      document ∈ response[keyword]?.getD [] ↔ document ∈ stored keyword) :
    ↑(query.checkMaxLengths.evaluate response table) = (table.apply stored).evaluate query := by
  induction query with
  | term keyword =>
    have found := complete (resizeTerm keyword) (by simp [checkMaxLengths, collectTerms])
    ext document
    simp only [checkMaxLengths, evaluate, AbstractIndex.evaluate, ModificationsTable.apply,
      coe_toFinset, mem_filter, mem_append, ExtTreeSet.mem_toList, found,
      Set.mem_ofPred_eq, Bool.not_eq_true', ← Bool.not_eq_true, ExtTreeSet.contains_iff_mem]
  | union a b ihA ihB =>
    obtain ⟨onA, onB⟩ := forall_mem_append.mp complete
    rw [checkMaxLengths, evaluate, Finset.coe_union, AbstractIndex.evaluate, ihA onA, ihB onB]
  | difference a b ihA ihB =>
    obtain ⟨onA, onB⟩ := forall_mem_append.mp complete
    rw [checkMaxLengths, evaluate, Finset.coe_sdiff, AbstractIndex.evaluate, ihA onA, ihB onB]
  | intersect a b ihA ihB =>
    obtain ⟨onA, onB⟩ := forall_mem_append.mp complete
    rw [checkMaxLengths, evaluate, Finset.coe_inter, AbstractIndex.evaluate, ihA onA, ihB onB]

end SecureFusion.Inverted
