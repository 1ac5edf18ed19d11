import SecureFusion.Indices.InvertedIndex
import SecureFusion.Providers.TableProvider

/-!
# Terms of boolean columns

The name of a boolean column is copied over its prefix instead of behind it. This panics unless the
name has one byte, and then the terms of true and false are equal.
-/

namespace SecureFusion.Indices

open Library Sql Inverted Crypto Providers Outcome

def termPrefixBooleanFalse : UInt8 := 0x10

def termPrefixBooleanTrue : UInt8 := 0x11

structure InvertedIndexConfig where
  indexName : String
  collation : Collation
  watchedStringColumns : List String
  /-- Boolean columns with their terms for true and false. -/
  watchedBooleanColumns : List (String × RawIndexTerm × RawIndexTerm)

def copyFromSlice (target source : Bytes) : Evaluated Bytes :=
  if target.length = source.length then .ok source
  else .error (.panic "copy_from_slice: source slice length does not match destination")

/-- The terms of a boolean column for true and false. -/
def booleanTerms (name : String) : Evaluated (String × RawIndexTerm × RawIndexTerm) := do
  let ifTru ← copyFromSlice [termPrefixBooleanTrue] (utf8Bytes name)
  let ifFls ← copyFromSlice [termPrefixBooleanFalse] (utf8Bytes name)
  return (name, ifTru, ifFls)

def fieldWithName (schema : List Field) (column : String) : Evaluated Field :=
  match schema.find? (·.name = column) with
  | some field => .ok field
  | none => .error (.execution "Unable to get field")

/-- The configuration of an index on some columns. -/
def initializeForColumns (name : String) (schema : List Field) (columns : List String) :
    Evaluated InvertedIndexConfig := do
  let fields ← columns.mapM (fieldWithName schema)
  let booleanColumns ← (fields.filter (·.dataType = .boolean)).mapM (booleanTerms ·.name)
  return {
    indexName := name
    collation := ⟨true, false, false⟩
    watchedStringColumns := (fields.filter (·.dataType ≠ .boolean)).map Field.name
    watchedBooleanColumns := booleanColumns }

/-- The boolean terms as they are stored. -/
def InvertedIndexConfig.booleanTerms (config : InvertedIndexConfig) : List RawIndexTerm :=
  config.watchedBooleanColumns.flatMap fun column =>
    [resizeTerm column.2.1, resizeTerm column.2.2]

/-- The stored terms of columns, of true and false and of keywords are different. -/
structure InvertedIndexConfig.TermsApart (config : InvertedIndexConfig) : Prop where
  distinct : config.booleanTerms.Nodup
  keywords : ∀ term ∈ config.booleanTerms, ∀ word, term ≠ resizeTerm (keywordToTerm word)

theorem copyFromSlice_eq_ok {target source copied : Bytes}
    (isCopied : copyFromSlice target source = .ok copied) : copied = source := by
  unfold copyFromSlice at isCopied
  split_ifs at isCopied
  exact (Except.ok.inj isCopied).symm

theorem booleanTerms_eq_ok {name : String} {terms : String × RawIndexTerm × RawIndexTerm}
    (isTerms : booleanTerms name = .ok terms) : terms.2.1 = terms.2.2 := by
  obtain ⟨ifTru, isTru, rest⟩ := bind_eq_ok_iff.mp isTerms
  obtain ⟨ifFls, isFls, rest⟩ := bind_eq_ok_iff.mp rest
  cases rest
  exact (copyFromSlice_eq_ok isTru).trans (copyFromSlice_eq_ok isFls).symm

/-- The terms are initialised and different if and only if no column is boolean. -/
theorem boolean_terms_apart_iff (name : String) (schema : List Field) (columns : List String) :
    (∃ config, initializeForColumns name schema columns = .ok config ∧ config.TermsApart) ↔
      ∀ column ∈ columns, ∃ field, fieldWithName schema column = .ok field ∧
        field.dataType ≠ .boolean := by
  constructor
  · rintro ⟨config, initialized, apart⟩ column isColumn
    obtain ⟨fields, isFields, rest⟩ := bind_eq_ok_iff.mp initialized
    obtain ⟨terms, isTerms, rest⟩ := bind_eq_ok_iff.mp rest
    cases rest
    obtain ⟨field, isField, found⟩ :=
      Rows.exists_of_forall₂_left (mapM_eq_ok_iff.mp isFields) isColumn
    refine ⟨field, found, fun boolean => ?_⟩
    have isBoolean : field ∈ fields.filter (·.dataType = .boolean) :=
      List.mem_filter.mpr ⟨isField, decide_eq_true boolean⟩
    obtain ⟨term, isTerm, made⟩ :=
      Rows.exists_of_forall₂_left (mapM_eq_ok_iff.mp isTerms) isBoolean
    have distinct := (List.nodup_flatMap.mp apart.distinct).1 term isTerm
    rw [booleanTerms_eq_ok made] at distinct
    simp at distinct
  · intro known
    obtain ⟨fields, related⟩ := exists_forall₂ known
    have isFields := mapM_eq_ok_iff.mpr (related.imp fun _ _ both => both.1)
    have noBoolean : fields.filter (·.dataType = .boolean) = [] := by
      refine List.filter_eq_nil_iff.mpr fun field isField => ?_
      obtain ⟨column, -, -, other⟩ := Rows.exists_of_forall₂_right related isField
      simpa using other
    rw [initializeForColumns, isFields, ok_bind, noBoolean]
    exact ⟨_, rfl, List.nodup_nil, fun _ isTerm => absurd isTerm List.not_mem_nil⟩

/-- A boolean column with a longer name makes the initialisation panic; with a name of one byte, the
terms of true and false are this byte. -/
theorem boolean_terms_fail :
    (∃ message, initializeForColumns "i" [⟨"active", .boolean⟩] ["active"] =
        .error (.panic message)) ∧
      ∃ config, initializeForColumns "i" [⟨"a", .boolean⟩] ["a"] = .ok config ∧
        config.booleanTerms = [[97], [97]] :=
  ⟨⟨_, rfl⟩, _, rfl, rfl⟩

end SecureFusion.Indices
