import SecureFusion.Filtering.Resolver

/-!
# Range indices

A range index stores next to each value the number of its bucket, and answers a comparison of the
column with the same comparison of the buckets. The bucket is computed in 64-bit machine arithmetic
and cut to 32 bits, for a stored value by the type of the column and for a literal by its own type.
As long as nothing wraps, buckets follow the order of the values; a strict comparison still fails
within one bucket.
-/

namespace SecureFusion.Indices

open Library Sql Filtering IndexableFilterExpr Option

variable {semantics : Semantics} {number : BitVec 64} {first second : Int}

/-- How values are spread over buckets. -/
inductive ValueDistribution where
  | uniform (min interval : BitVec 64)

/-- The bucket of a value, in machine arithmetic. -/
def ValueDistribution.valueToIndexable : ValueDistribution → BitVec 64 → BitVec 32
  | .uniform min interval, sourceValue =>
    if sourceValue.sle min then 0 else ((sourceValue - min).sdiv interval).setWidth 32

/-- A range index of one column. -/
structure RangeIndex where
  distribution : ValueDistribution
  indexedColumn : String
  indexColumnName : String

/-- The number that a value of an indexable type stands for. -/
def asInt64 : (type : PrimitiveType) → BitVec type.width → Option (BitVec 64)
  | .decimal32 .., word | .int32, word | .date32, word | .time32Second, word
  | .time32Millisecond, word | .int8, word | .int16, word => some (word.signExtend 64)
  | .timestamp .., word | .time64Nanosecond, word | .decimal64 .., word | .int64, word
  | .date64, word | .time64Microsecond, word => some (word.signExtend 64)
  | .uint8, word | .uint16, word | .uint32, word => some (word.setWidth 64)
  -- Half of an unsigned 64-bit number, so that it fits a signed one.
  | .uint64, word => some ((word >>> 1).setWidth 64)
  | _, _ => none

def bucketValue (bucket : BitVec 32) : ScalarValue := .primitive .uint32 (some bucket)

namespace RangeIndex

variable (index : RangeIndex)

def forValue : ScalarValue → Option (BitVec 32)
  | .primitive type (some word) =>
    (asInt64 type word).map index.distribution.valueToIndexable
  | _ => none

/-- What is stored for a value of the column; none if its type is not indexable. -/
def forArray : ScalarValue → Option ScalarValue
  | .null => some .null
  | .primitive type value =>
    (asInt64 type (value.getD 0)).map fun number =>
      .primitive .uint32 (value.map fun _ => index.distribution.valueToIndexable number)
  | _ => none

variable {E : Type}

/-- Comparisons and ranges on the indexed column. -/
def isIndexableExprSupported (leaf : IndexableFilterExpr E) (statistics : TableStatistics) :
    Option IndexSelectivity :=
  match leaf with
  | .between column low high =>
    if column.column.name = index.indexedColumn then do
      let low ← index.forValue low
      let high ← index.forValue high
      match statistics.columnSelectivity index.indexColumnName with
      | none => some .absent
      | some selectivity =>
        let querySelectivity := selectivity * Float.ofNat (high - low).toNat
        let querySelectivity :=
          if querySelectivity ≥ 0.14 then querySelectivity * 2.0 else querySelectivity
        some (statistics.numRows.withEstimatedSelectivity
          (if querySelectivity < 1.0 then querySelectivity else 1.0))
    else none
  | .eq column operator value =>
    if column.column.name = index.indexedColumn ∧ (index.forValue value).isSome then
      if operator = .eq then
        match (statistics.indexingColumns index.indexColumnName).bind Precision.getValue with
        | none => some .absent
        | some count => some (statistics.numRows.withEstimatedSelectivity (1.0 / Float.ofNat count))
      else some .absent
    else none
  | _ => none

/-- The server expression that answers a leaf; none on an error. -/
def leafToExpr (table : ResolvedTableReference) : IndexableFilterExpr E → Option AstExpr
  | .between column low high =>
    if column.column.name = index.indexedColumn then do
      let low ← index.forValue low
      let high ← index.forValue high
      some (.between false (.compoundIdentifier table.table index.indexColumnName)
        (.value (bucketValue low)) (.value (bucketValue high)))
    else none
  | .eq column operator value =>
    if column.column.name = index.indexedColumn then do
      let value ← index.forValue value
      some (.binaryOp (.compoundIdentifier table.table index.indexColumnName)
        operator.toOperator (.value (bucketValue value)))
    else none
  | _ => none

/-- The server expression that answers a tree; none on an error. -/
def indexableQueryToExpr (table : ResolvedTableReference) :
    IndexableFilterExpr E → Option AstExpr :=
  IndexableFilterExpr.answerWith (index.leafToExpr table)

/-- The answer of the index to a tree of either planner. -/
def query (D : Type) (table : ResolvedTableReference) (tree : IndexableFilterExpr E) :
    Option (IndexQueryStrategy D) :=
  (index.indexableQueryToExpr table tree.optimizeCmp).map .fixed

/-- What the index answers of the filters of either planner. -/
def supportOptions : SupportOptions E where
  supportsNot := true
  supportsOr := true
  isSupported := index.isIndexableExprSupported

/-- The index as the resolver sees it. -/
def encryptedIndex (D : Type) (table : ResolvedTableReference) : EncryptedIndex D where
  logicalSupportOptions := index.supportOptions
  logicalQuery := index.query D table
  physicalSupportOptions := some index.supportOptions
  physicalQuery := index.query D table

end RangeIndex

/-! ## Buckets and the order of numbers -/

variable {distribution : ValueDistribution}

namespace ValueDistribution

def bucket : ValueDistribution → Int → Int
  | .uniform min interval, number =>
    if number ≤ min.toInt then 0 else (number - min.toInt) / interval.toInt

def Positive : ValueDistribution → Prop
  | .uniform _ interval => 0 < interval.toInt

/-- Neither the difference to the minimum nor the bucket of a number wraps. -/
def Fits : ValueDistribution → Int → Prop
  | .uniform min interval, number => number ≤ min.toInt ∨
    (number - min.toInt < 2 ^ 63 ∧ (number - min.toInt) / interval.toInt < 2 ^ 32)

instance (distribution : ValueDistribution) (number : Int) :
    Decidable (distribution.Fits number) :=
  match distribution with
  | .uniform _ _ => inferInstanceAs (Decidable (_ ∨ _))

theorem bucket_mono (positive : distribution.Positive) (ordered : first ≤ second) :
    distribution.bucket first ≤ distribution.bucket second := by
  obtain ⟨min, interval⟩ := distribution
  have size : 0 < interval.toInt := positive
  simp only [bucket]
  split
  case isTrue =>
    split
    case isTrue => exact le_rfl
    case isFalse above => exact Int.ediv_nonneg (by omega) (by omega)
  case isFalse above =>
    rw [if_neg (by omega)]
    exact Int.ediv_le_ediv size (by omega)

theorem Fits.of_le (positive : distribution.Positive) (ordered : first ≤ second)
    (fits : distribution.Fits second) :
    distribution.Fits first := by
  obtain ⟨min, interval⟩ := distribution
  have size : 0 < interval.toInt := positive
  simp only [Fits] at fits ⊢
  rcases fits with below | ⟨small, fewBuckets⟩
  · exact .inl (by omega)
  · have fewer : (first - min.toInt) / interval.toInt ≤ (second - min.toInt) / interval.toInt :=
      Int.ediv_le_ediv size (by omega)
    exact .inr ⟨by omega, by omega⟩

theorem toNat_valueToIndexable (positive : distribution.Positive)
    (fits : distribution.Fits number.toInt) :
    ((distribution.valueToIndexable number).toNat : Int) = distribution.bucket number.toInt := by
  obtain ⟨min, interval⟩ := distribution
  have size : 0 < interval.toInt := positive
  simp only [valueToIndexable, bucket, BitVec.sle_iff_toInt_le]
  split
  case isTrue => rfl
  case isFalse above =>
    obtain ⟨small, fewBuckets⟩ : number.toInt - min.toInt < 2 ^ 63 ∧
        (number.toInt - min.toInt) / interval.toInt < 2 ^ 32 := by
      simp only [Fits] at fits
      exact fits.resolve_left above
    have difference : (number - min).toInt = number.toInt - min.toInt := by
      rw [BitVec.toInt_sub]
      exact Int.bmod_eq_of_le (by omega) (by omega)
    have nonnegative : 0 ≤ (number.toInt - min.toInt) / interval.toInt :=
      Int.ediv_nonneg (by omega) (by omega)
    have quotient : ((number - min).sdiv interval).toInt =
        (number.toInt - min.toInt) / interval.toInt := by
      rw [BitVec.toInt_sdiv, difference, Int.tdiv_eq_ediv_of_nonneg (by omega)]
      exact Int.bmod_eq_of_le (by omega) (by omega)
    have word : (((number - min).sdiv interval).toNat : Int) =
        (number.toInt - min.toInt) / interval.toInt := by
      have unsigned := BitVec.toInt_eq_toNat_cond ((number - min).sdiv interval)
      have bound := ((number - min).sdiv interval).isLt
      split at unsigned <;> omega
    rw [BitVec.toNat_setWidth]
    omega

end ValueDistribution

def scaled (type : PrimitiveType) (key : Int) : Int := if type = .uint64 then key / 2 else key

theorem scaled_congr {type other : PrimitiveType} (same : type = .uint64 ↔ other = .uint64)
    (key : Int) : scaled other key = scaled type key := by
  simp only [scaled, same]

theorem scaled_mono (type : PrimitiveType) (ordered : first ≤ second) :
    scaled type first ≤ scaled type second := by
  unfold scaled
  split <;> omega

theorem toInt_setWidth_of_lt {width : Nat} {word : BitVec width} (small : word.toNat < 2 ^ 63) :
    (word.setWidth 64).toInt = word.toNat := by
  rw [BitVec.toInt_setWidth]
  exact Int.bmod_eq_of_le (by omega) (by omega)

theorem toInt_asInt64 {type : PrimitiveType} {word : BitVec type.width}
    (indexed : asInt64 type word = some number) :
    ∃ key, type.key word = some key ∧ number.toInt = scaled type key := by
  cases type <;> simp only [asInt64, some.injEq, reduceCtorEq] at indexed <;>
    subst indexed <;> refine ⟨_, rfl, ?_⟩
  case uint64 =>
    have bound : word.toNat < 2 ^ 64 := word.isLt
    have half : (word >>> 1).toNat = word.toNat / 2 := by
      rw [BitVec.toNat_ushiftRight, Nat.shiftRight_eq_div_pow]
    rw [toInt_setWidth_of_lt (by omega), half, scaled, if_pos rfl]
    exact Int.natCast_ediv _ _
  case uint8 | uint16 | uint32 =>
    exact toInt_setWidth_of_lt (Nat.lt_trans word.isLt (by decide))
  all_goals exact BitVec.toInt_signExtend_of_le (by simp [PrimitiveType.width, PrimitiveType.bytes])

theorem toInt_of_key {type : PrimitiveType} {word : BitVec type.width} {key : Int}
    (isKey : type.key word = some key) (isNumber : asInt64 type word = some number) :
    number.toInt = scaled type key := by
  obtain ⟨same, isSame, atNumber⟩ := toInt_asInt64 isNumber
  rw [atNumber, some.inj (isSame.symm.trans isKey)]

/-! ## Comparisons of buckets -/

theorem compare_numbers (ordered : semantics.Ordered) {type : PrimitiveType}
    {left right : BitVec type.width} {leftKey rightKey : Int}
    (isLeft : type.key left = some leftKey) (isRight : type.key right = some rightKey)
    (operator : EqualityOperator) :
    semantics.compare operator.accepts (.primitive type (some left)) (.primitive type (some right)) =
      .true ↔ operator.relation leftKey rightKey := by
  rw [Semantics.compare_eq_true, ordered.numbers type left right leftKey rightKey isLeft isRight,
    ← EqualityOperator.accepts_compare]
  simp

theorem compare_buckets (ordered : semantics.Ordered) (left right : BitVec 32)
    (operator : EqualityOperator) :
    semantics.compare operator.accepts (bucketValue left) (bucketValue right) = .true ↔
      operator.relation left.toNat right.toNat :=
  @compare_numbers semantics ordered .uint32 left right left.toNat right.toNat rfl rfl operator

namespace RangeIndex

variable {type : PrimitiveType} {word : BitVec type.width} (index : RangeIndex)

/-- Neither the difference to the minimum nor the bucket of a value wraps. -/
def FitsValue (type : PrimitiveType) (word : BitVec type.width) : Prop :=
  ∀ number, asInt64 type word = some number → index.distribution.Fits number.toInt

instance (type : PrimitiveType) (word : BitVec type.width) :
    Decidable (index.FitsValue type word) :=
  match isNumber : asInt64 type word with
  | none => isTrue fun _ isOther => absurd (isNumber.symm.trans isOther) nofun
  | some number => decidable_of_iff (index.distribution.Fits number.toInt)
    ⟨fun fits _ isOther => Option.some.inj (isNumber.symm.trans isOther) ▸ fits,
      fun fits => fits number isNumber⟩

/-- No smaller value of the type belongs to the bucket of a number. -/
def FirstOfBucket (type : PrimitiveType) (bound : Int) : Prop :=
  ∀ other otherKey, type.key other = some otherKey → otherKey < bound →
    index.distribution.bucket (scaled type otherKey) ≠ index.distribution.bucket (scaled type bound)

/-- No larger value of the type that fits belongs to the bucket of a number. -/
def LastOfBucket (type : PrimitiveType) (bound : Int) : Prop :=
  ∀ other otherKey, type.key other = some otherKey → bound < otherKey →
    index.FitsValue type other →
      index.distribution.bucket (scaled type otherKey) ≠
        index.distribution.bucket (scaled type bound)

/-- A comparison of a stored value, as a cast shows it or as it is, with a literal carries over to
the buckets. Unless a null is shown, the engine compares the two like the numbers of the value and
of the literal, which are both halved or both not; an order comparison involves no value that wraps;
and the literal of a strict comparison is the first or the last number of its bucket. -/
def ComparisonKept (semantics : Semantics) (value shown : ScalarValue)
    (operator : EqualityOperator) (literal : ScalarValue) : Prop :=
  shown.isNull = true ∨
    ∃ (type boundType : PrimitiveType) (word : BitVec type.width) (bound : BitVec boundType.width)
      (key boundKey : Int),
      value = .primitive type (some word) ∧ literal = .primitive boundType (some bound) ∧
      type.key word = some key ∧ boundType.key bound = some boundKey ∧
      semantics.order shown literal = some (Ord.compare key boundKey) ∧
      (type = .uint64 ↔ boundType = .uint64) ∧
      (operator = .eq ∨ index.FitsValue type word ∧ index.FitsValue boundType bound ∧
        (operator = .lt → index.FirstOfBucket type boundKey) ∧
        (operator = .gt → index.LastOfBucket type boundKey))

variable {E : Type}

/-- The comparisons of a leaf carry over to the bucket of a row. -/
def LeafKept (semantics : Semantics) (row : Row) : IndexableFilterExpr E → Prop
  | .eq column operator literal => index.ComparisonKept semantics (row index.indexedColumn)
    (column.value semantics row) operator literal
  | .between column low high =>
    index.ComparisonKept semantics (row index.indexedColumn) (column.value semantics row) .gtEq low ∧
      index.ComparisonKept semantics (row index.indexedColumn) (column.value semantics row) .ltEq
        high
  | _ => True

variable {index} {operator : EqualityOperator} {statistics : TableStatistics}
  {leaf : IndexableFilterExpr E} {other : BitVec type.width} {bound : BitVec type.width}
  {key boundKey : Int} {bucket : BitVec 32} (column : ColumnWithCast)

theorem toNat_bucket (positive : index.distribution.Positive) (isKey : type.key word = some key)
    (isNumber : asInt64 type word = some number) (fits : index.FitsValue type word) :
    ((index.distribution.valueToIndexable number).toNat : Int) =
      index.distribution.bucket (scaled type key) := by
  rw [ValueDistribution.toNat_valueToIndexable positive (fits number isNumber),
    toInt_of_key isKey isNumber]

theorem relation_buckets (positive : index.distribution.Positive) {boundType : PrimitiveType}
    {bound : BitVec boundType.width} (isKey : type.key word = some key)
    (isBound : boundType.key bound = some boundKey) {other : BitVec 64}
    (isNumber : asInt64 type word = some number) (isOther : asInt64 boundType bound = some other)
    (halved : type = .uint64 ↔ boundType = .uint64) (related : operator.relation key boundKey)
    (kept : operator = .eq ∨ index.FitsValue type word ∧ index.FitsValue boundType bound ∧
        (operator = .lt → index.FirstOfBucket type boundKey) ∧
        (operator = .gt → index.LastOfBucket type boundKey)) :
    operator.relation (index.distribution.valueToIndexable number).toNat
      (index.distribution.valueToIndexable other).toNat := by
  by_cases equality : operator = .eq
  · subst equality
    have sameKey : key = boundKey := related
    subst sameKey
    have same : number = other := by
      rw [← BitVec.toInt_inj, toInt_of_key isKey isNumber, toInt_of_key isBound isOther,
        scaled_congr halved]
    rw [same]
    rfl
  · obtain ⟨fitsWord, fitsBound, first, last⟩ := kept.resolve_left equality
    have atWord := toNat_bucket positive isKey isNumber fitsWord
    have atBound := toNat_bucket positive isBound isOther fitsBound
    rw [scaled_congr halved] at atBound
    rw [atWord, atBound]
    cases operator with
    | eq => exact absurd rfl equality
    | ltEq | gtEq => exact ValueDistribution.bucket_mono positive (scaled_mono type related)
    | lt =>
      have below : key < boundKey := related
      exact lt_of_le_of_ne
        (ValueDistribution.bucket_mono positive (scaled_mono type below.le))
        (first rfl word key isKey below)
    | gt =>
      have above : boundKey < key := related
      exact lt_of_le_of_ne
        (ValueDistribution.bucket_mono positive (scaled_mono type above.le))
        (last rfl word key isKey above fitsWord).symm

theorem comparison_holds (positive : index.distribution.Positive) (ordered : semantics.Ordered)
    {value shown stored literal : ScalarValue}
    (kept : index.ComparisonKept semantics value shown operator literal)
    (isStored : index.forArray value = some stored) (isBucket : index.forValue literal = some bucket)
    (holds : semantics.compare operator.accepts shown literal = .true) :
    semantics.compare operator.accepts stored (bucketValue bucket) = .true := by
  rw [Semantics.compare_eq_true] at holds
  rcases kept with null | ⟨type, boundType, word, bound, key, boundKey, rfl, rfl, isKey, isBound,
    asNumbers, halved, conditions⟩
  · -- A null satisfies no comparison.
    rw [ordered.nulls shown literal null] at holds
    obtain ⟨_, absent, _⟩ := holds
    cases absent
  · simp only [forArray, getD_some, map_eq_some_iff] at isStored
    obtain ⟨number, isNumber, rfl⟩ := isStored
    simp only [forValue, map_eq_some_iff] at isBucket
    obtain ⟨other, isOther, rfl⟩ := isBucket
    have related : operator.relation key boundKey := by
      rw [asNumbers] at holds
      rw [← EqualityOperator.accepts_compare]
      simpa using holds
    exact (compare_buckets ordered _ _ operator).mpr
      (relation_buckets positive isKey isBound isNumber isOther halved related conditions)

/-! ## Answers of the index -/

theorem isSome_isSupported_eq (operator : EqualityOperator) (literal : ScalarValue)
    (statistics : TableStatistics) :
    (index.supportOptions.isSupported (.eq column operator literal : IndexableFilterExpr E)
      statistics).isSome ↔
      column.column.name = index.indexedColumn ∧ (index.forValue literal).isSome := by
  simp only [supportOptions, isIndexableExprSupported]
  split_ifs with supported isEq
  · split <;> simpa using supported
  · simpa using supported
  · simpa using supported

theorem isSome_isSupported_between (low high : ScalarValue) (statistics : TableStatistics) :
    (index.supportOptions.isSupported (.between column low high : IndexableFilterExpr E)
      statistics).isSome ↔ column.column.name = index.indexedColumn ∧
        (index.forValue low).isSome ∧ (index.forValue high).isSome := by
  by_cases named : column.column.name = index.indexedColumn
  · cases isLow : index.forValue low with
    | none => simp [supportOptions, isIndexableExprSupported, isLow]
    | some lowBucket =>
      cases isHigh : index.forValue high with
      | none => simp [supportOptions, isIndexableExprSupported, isLow, isHigh]
      | some highBucket =>
        simp only [supportOptions, isIndexableExprSupported, named, isLow, isHigh]
        cases statistics.columnSelectivity index.indexColumnName <;> simp
  · simp [supportOptions, isIndexableExprSupported, named]

theorem allSupported_optimizeCmp {tree : IndexableFilterExpr E}
    (supported : tree.AllSupported index.supportOptions statistics) :
    tree.optimizeCmp.AllSupported index.supportOptions statistics := by
  fun_induction optimizeCmp tree with
  | case1 left right merged made =>
    rcases mergeCmp_cases made with rfl | rfl | rfl |
      ⟨column, lower, upper, low, high, _, _, rfl, bounds⟩
    · exact supported
    · exact supported.1
    · exact supported.2
    · -- Each bound of the range was the literal of a supported comparison.
      have literals : column.column.name = index.indexedColumn ∧
          (index.forValue low).isSome ∧ (index.forValue high).isSome := by
        have onLow := (@isSome_isSupported_eq index E column lower low statistics).mp
        have onHigh := (@isSome_isSupported_eq index E column upper high statistics).mp
        rcases bounds with ⟨rfl, rfl⟩ | ⟨rfl, rfl⟩
        · exact ⟨(onLow supported.1).1, (onLow supported.1).2, (onHigh supported.2).2⟩
        · exact ⟨(onLow supported.2).1, (onLow supported.2).2, (onHigh supported.1).2⟩
      exact (isSome_isSupported_between column low high statistics).mpr literals
  | case2 left right _ ihLeft ihRight | case3 left right ihLeft ihRight =>
    exact ⟨ihLeft supported.1, ihRight supported.2⟩
  | case4 => exact supported

theorem exists_leafToExpr (table : ResolvedTableReference)
    (supported : (index.supportOptions.isSupported leaf statistics).isSome) :
    ∃ sql, index.leafToExpr table leaf = some sql := by
  cases leaf with
  | eq column operator literal =>
    obtain ⟨named, isBucket⟩ :=
      (isSome_isSupported_eq column operator literal statistics).mp supported
    obtain ⟨bucket, isBucket⟩ := isSome_iff_exists.mp isBucket
    exact ⟨_, by simp [leafToExpr, named, isBucket]; rfl⟩
  | between column low high =>
    obtain ⟨named, isLow, isHigh⟩ :=
      (isSome_isSupported_between column low high statistics).mp supported
    obtain ⟨lowBucket, isLow⟩ := isSome_iff_exists.mp isLow
    obtain ⟨highBucket, isHigh⟩ := isSome_iff_exists.mp isHigh
    exact ⟨_, by simp [leafToExpr, named, isLow, isHigh]; rfl⟩
  | _ => cases supported

theorem leafToExpr_holds (positive : index.distribution.Positive) (ordered : semantics.Ordered)
    {table : ResolvedTableReference} {sql : AstExpr} (made : index.leafToExpr table leaf = some sql)
    {row : Row} {otherTruth : E → Truth}
    (stored : index.forArray (row index.indexedColumn) = some (row index.indexColumnName))
    (kept : index.LeafKept semantics row leaf)
    (holds : leaf.truth semantics row otherTruth = .true) : sql.truth semantics row = .true := by
  cases leaf with
  | eq column operator literal =>
    simp only [leafToExpr, ite_none_right_eq_some, bind_some_iff, some.injEq] at made
    obtain ⟨named, bucket, isBucket, rfl⟩ := made
    rw [truth_binaryOp]
    exact comparison_holds positive ordered kept stored isBucket holds
  | between column low high =>
    simp only [leafToExpr, ite_none_right_eq_some, bind_some_iff, some.injEq] at made
    obtain ⟨named, lowBucket, isLow, highBucket, isHigh, rfl⟩ := made
    have holds : (semantics.compare EqualityOperator.gtEq.accepts
        (column.value semantics row) low).conj (semantics.compare EqualityOperator.ltEq.accepts
          (column.value semantics row) high) = .true := holds
    rw [Truth.conj_eq_true] at holds
    have onLow := comparison_holds positive ordered kept.1 stored isLow holds.1
    have onHigh := comparison_holds positive ordered kept.2 stored isHigh holds.2
    exact (ScalarValue.truth_ofTruth _).trans ((Truth.conj_eq_true _ _).mpr ⟨onLow, onHigh⟩)
  | _ => cases made

/-! ## Strict comparisons -/

theorem exists_asInt64 (indexable : (asInt64 type word).isSome) (other : BitVec type.width) :
    ∃ number, asInt64 type other = some number := by
  rw [← isSome_iff_exists]
  cases type <;> first | rfl | cases indexable

theorem fitsValue_of_lt (positive : index.distribution.Positive) {key otherKey : Int}
    (isKey : type.key word = some key) (isOther : type.key other = some otherKey)
    (below : otherKey < key) (fits : index.FitsValue type word) : index.FitsValue type other := by
  intro otherNumber isOtherNumber
  have indexable : (asInt64 type other).isSome := by rw [isOtherNumber]; rfl
  obtain ⟨number, isNumber⟩ := exists_asInt64 indexable word
  have ordered : otherNumber.toInt ≤ number.toInt := by
    rw [toInt_of_key isKey isNumber, toInt_of_key isOther isOtherNumber]
    exact scaled_mono type below.le
  exact ValueDistribution.Fits.of_le positive ordered (fits number isNumber)

variable (index) in
/-- A row with a value of the indexed column and what is stored for it. -/
def storedRow (value stored : ScalarValue) : Row :=
  fun name => if name = index.indexedColumn then value else stored

variable (index) in
def columnCompare (operator : EqualityOperator) (literal : ScalarValue) : IndexableFilterExpr E :=
  .eq (.raw index.indexedColumn) operator literal

theorem query_columnCompare (D : Type) (table : ResolvedTableReference)
    (operator : EqualityOperator) {literal : ScalarValue}
    (isBucket : index.forValue literal = some bucket) :
    index.query D table (index.columnCompare operator literal : IndexableFilterExpr E) =
      some (.fixed (.binaryOp (.compoundIdentifier table.table index.indexColumnName)
        operator.toOperator (.value (bucketValue bucket)))) := by
  have named : (ColumnWithCast.raw index.indexedColumn).column.name = index.indexedColumn := rfl
  simp [query, columnCompare, optimizeCmp, indexableQueryToExpr,
    answerWith, leafToExpr, named, isBucket]

theorem strict_misses (positive : index.distribution.Positive)
    (separate : index.indexColumnName ≠ index.indexedColumn) (ordered : semantics.Ordered)
    (isKey : type.key word = some key) (isBound : type.key bound = some boundKey)
    {other : BitVec 64} (isNumber : asInt64 type word = some number)
    (isOther : asInt64 type bound = some other) (fits : index.FitsValue type word)
    (boundFits : index.FitsValue type bound) (strict : operator = .lt ∨ operator = .gt)
    (related : operator.relation key boundKey)
    (shared : index.distribution.bucket (scaled type key) =
      index.distribution.bucket (scaled type boundKey)) (table : ResolvedTableReference)
    (otherTruth : E → Truth) :
    ∃ row : Row, row index.indexedColumn = .primitive type (some word) ∧
      index.forArray (row index.indexedColumn) = some (row index.indexColumnName) ∧
      (index.columnCompare operator (.primitive type (some bound)) : IndexableFilterExpr E).truth
        semantics row otherTruth = .true ∧
      (AstExpr.binaryOp (.compoundIdentifier table.table index.indexColumnName)
        operator.toOperator (.value (bucketValue (index.distribution.valueToIndexable other)))
          ).truth semantics row ≠ .true := by
  have value : ∀ stored, index.storedRow (.primitive type (some word)) stored index.indexedColumn =
      .primitive type (some word) := fun stored => if_pos rfl
  have stored : ∀ value stored, index.storedRow value stored index.indexColumnName = stored :=
    fun value stored => if_neg separate
  refine ⟨index.storedRow (.primitive type (some word))
    (bucketValue (index.distribution.valueToIndexable number)), value _, ?_, ?_, ?_⟩
  · rw [value, stored, forArray, getD_some, isNumber]
    rfl
  · show semantics.compare operator.accepts (index.storedRow _ _ index.indexedColumn) _ = .true
    rw [value]
    exact (compare_numbers ordered isKey isBound operator).mpr related
  · rw [truth_binaryOp]
    show ¬ semantics.compare operator.accepts (index.storedRow _ _ index.indexColumnName)
      (bucketValue _) = .true
    rw [stored, compare_buckets ordered, toNat_bucket positive isKey isNumber fits,
      toNat_bucket positive isBound isOther boundFits, shared]
    rcases strict with rfl | rfl <;> exact lt_irrefl _

/-- The answer to a tree of supported comparisons and ranges holds of every stored bucket whose
value satisfies the tree, if every comparison carries over to the buckets. For a single strict
comparison, with values that fit, it does so exactly if the literal is the first or the last
value of its bucket. -/
theorem query_covers_values (positive : index.distribution.Positive)
    (separate : index.indexColumnName ≠ index.indexedColumn) {semantics : Semantics}
    (ordered : semantics.Ordered) (D : Type) (table : ResolvedTableReference)
    (statistics : TableStatistics) (otherTruth : E → Truth) :
    (∀ tree : IndexableFilterExpr E, tree.AllSupported index.supportOptions statistics →
      ∃ sql, index.query D table tree = some (.fixed sql) ∧ ∀ row : Row,
        index.forArray (row index.indexedColumn) = some (row index.indexColumnName) →
        (∀ leaf ∈ tree.optimizeCmp.leaves, index.LeafKept semantics row leaf) →
        tree.truth semantics row otherTruth = .true → sql.truth semantics row = .true) ∧
    ∀ (type : PrimitiveType) (bound : BitVec type.width) (boundKey : Int)
      (operator : EqualityOperator), operator = .lt ∨ operator = .gt →
      (asInt64 type bound).isSome → type.key bound = some boundKey → index.FitsValue type bound →
      ∃ sql, index.query D table (index.columnCompare operator (.primitive type (some bound)) :
          IndexableFilterExpr E) = some (.fixed sql) ∧
        ((∀ row word, row index.indexedColumn = .primitive type (some word) →
          index.FitsValue type word →
          index.forArray (row index.indexedColumn) = some (row index.indexColumnName) →
          (index.columnCompare operator (.primitive type (some bound)) :
            IndexableFilterExpr E).truth semantics row otherTruth = .true →
          sql.truth semantics row = .true) ↔
        (operator = .lt → index.FirstOfBucket type boundKey) ∧
          (operator = .gt → index.LastOfBucket type boundKey)) := by
  constructor
  · intro tree supported
    obtain ⟨sql, made⟩ := exists_answerWith
      (fun leaf => exists_leafToExpr table) (allSupported_optimizeCmp supported)
    refine ⟨sql, by rw [query, indexableQueryToExpr, made]; rfl, ?_⟩
    intro row stored kept holds
    exact answerWith_holds
      (fun leaf isLeaf leafSql leafMade =>
        leafToExpr_holds positive ordered leafMade stored (kept leaf isLeaf))
      made (optimizeCmp_holds holds)
  · intro type bound boundKey operator strict indexable isBound boundFits
    obtain ⟨other, isOther⟩ := isSome_iff_exists.mp indexable
    have isBucket : index.forValue (.primitive type (some bound)) =
        some (index.distribution.valueToIndexable other) := by
      rw [forValue, isOther]
      rfl
    refine ⟨_, query_columnCompare D table operator isBucket, ?_⟩
    constructor
    · intro covers
      -- A value of the literal's bucket on the wrong side of it would be missed.
      have apart : ∀ word key, type.key word = some key → operator.relation key boundKey →
          index.FitsValue type word → index.distribution.bucket (scaled type key) ≠
            index.distribution.bucket (scaled type boundKey) := by
        intro word key isKey related fits shared
        obtain ⟨number, isNumber⟩ := exists_asInt64 indexable word
        obtain ⟨row, value, stored, holds, missed⟩ := strict_misses positive separate ordered isKey
          isBound isNumber isOther fits boundFits strict related shared table otherTruth
        exact missed (covers row word value fits stored holds)
      constructor
      · rintro rfl word key isKey below
        exact apart word key isKey below (fitsValue_of_lt positive isBound isKey below boundFits)
      · rintro rfl word key isKey above fits
        exact apart word key isKey above fits
    · rintro ⟨first, last⟩ row word value fits stored holds
      obtain ⟨number, isNumber⟩ := exists_asInt64 indexable word
      obtain ⟨key, isKey, _⟩ := toInt_asInt64 isNumber
      have kept : index.ComparisonKept semantics (row index.indexedColumn)
          (row index.indexedColumn) operator (.primitive type (some bound)) := by
        rw [value]
        exact .inr ⟨type, type, word, bound, key, boundKey, rfl, rfl, isKey, isBound,
          ordered.numbers type word bound key boundKey isKey isBound, Iff.rfl,
          .inr ⟨fits, boundFits, first, last⟩⟩
      rw [truth_binaryOp]
      exact comparison_holds positive ordered kept stored isBucket holds

def ofX (min interval : BitVec 64) : RangeIndex := ⟨.uniform min interval, "x", "x_bucket"⟩

def numberOf (type : PrimitiveType) (number : Int) : ScalarValue :=
  .primitive type (some (BitVec.ofInt type.width number))

def compareOrRange (operator : EqualityOperator) (bound low high : Int) :
    IndexableFilterExpr Unit :=
  .or (.eq (.raw "x") operator (numberOf .int64 bound))
    (.between (.raw "x") (numberOf .int32 low) (numberOf .int32 high))

/-- With buckets of ten numbers, the bucket of a 32-bit twelve satisfies the answer to a strict
comparison with a 64-bit twenty, the first number of its bucket, or a range. -/
theorem query_covers_values_disjunction :
    ∃ sql, (ofX 0 10).query Unit ⟨"c", "s", "t"⟩ (compareOrRange .lt 20 35 60) =
        some (.fixed sql) ∧
      sql.truth .basic ((ofX 0 10).storedRow (numberOf .int32 12) (bucketValue 1)) = .true := by
  have positive : (ofX 0 10).distribution.Positive := by
    show 0 < (10 : BitVec 64).toInt
    decide
  have supported : (compareOrRange .lt 20 35 60).AllSupported (ofX 0 10).supportOptions
      .forEmptyTable :=
    ⟨(isSome_isSupported_eq _ _ _ _).mpr ⟨rfl, rfl⟩,
      (isSome_isSupported_between _ _ _ _).mpr ⟨rfl, rfl, rfl⟩⟩
  have first : (ofX 0 10).FirstOfBucket .int32 20 := by
    intro other otherKey isOther below
    show (if otherKey ≤ 0 then 0 else (otherKey - 0) / 10) ≠ (2 : Int)
    split <;> omega
  have fits : ∀ number ∈ [12, 35, 60],
      (ofX 0 10).FitsValue .int32 (BitVec.ofInt PrimitiveType.int32.width number) := by
    decide +kernel
  have fitsBound : (ofX 0 10).FitsValue .int64 (BitVec.ofInt PrimitiveType.int64.width 20) := by
    decide +kernel
  have kept : ∀ leaf ∈ (compareOrRange .lt 20 35 60).optimizeCmp.leaves, (ofX 0 10).LeafKept .basic
      ((ofX 0 10).storedRow (numberOf .int32 12) (bucketValue 1)) leaf := by
    refine List.forall_mem_cons.mpr ⟨.inr ?_, List.forall_mem_singleton.mpr ⟨.inr ?_, .inr ?_⟩⟩
    · exact ⟨.int32, .int64, _, _, 12, 20, rfl, rfl, rfl, rfl, rfl, by decide,
        .inr ⟨fits 12 (by simp), fitsBound, fun _ => first, nofun⟩⟩
    · exact ⟨.int32, .int32, _, _, 12, 35, rfl, rfl, rfl, rfl, rfl, by decide,
        .inr ⟨fits 12 (by simp), fits 35 (by simp), nofun, nofun⟩⟩
    · exact ⟨.int32, .int32, _, _, 12, 60, rfl, rfl, rfl, rfl, rfl, by decide,
        .inr ⟨fits 12 (by simp), fits 60 (by simp), nofun, nofun⟩⟩
  obtain ⟨sql, made, covers⟩ := (query_covers_values positive (by decide) Semantics.basic_ordered
    Unit ⟨"c", "s", "t"⟩ .forEmptyTable (fun _ => .unknown)).1 _ supported
  exact ⟨sql, made, covers _ rfl kept (by decide +kernel)⟩

/-- A value is missed by a strict comparison within its bucket, by any order comparison if its
bucket wraps, and by an equality with a literal of another type. -/
theorem query_misses_values :
    (∃ sql, (ofX 0 10).query Unit ⟨"c", "s", "t"⟩ ((ofX 0 10).columnCompare .lt (numberOf .int32 15) :
        IndexableFilterExpr Unit) = some (.fixed sql) ∧
      let row := (ofX 0 10).storedRow (numberOf .int32 12) (bucketValue 1)
      (ofX 0 10).forArray (row "x") = some (row "x_bucket") ∧
      ((ofX 0 10).columnCompare .lt (numberOf .int32 15) : IndexableFilterExpr Unit).truth
        .basic row (fun _ => .unknown) = .true ∧ sql.truth .basic row = .false) ∧
    (∃ sql, (ofX 0 1).query Unit ⟨"c", "s", "t"⟩ ((ofX 0 1).columnCompare .gtEq (numberOf .int64 5) :
        IndexableFilterExpr Unit) = some (.fixed sql) ∧
      let row := (ofX 0 1).storedRow (numberOf .int64 (2 ^ 32)) (bucketValue 0)
      (ofX 0 1).forArray (row "x") = some (row "x_bucket") ∧
      ((ofX 0 1).columnCompare .gtEq (numberOf .int64 5) : IndexableFilterExpr Unit).truth
        .basic row (fun _ => .unknown) = .true ∧ sql.truth .basic row = .false) ∧
    (∃ sql, (ofX 0 1).query Unit ⟨"c", "s", "t"⟩ ((ofX 0 1).columnCompare .eq (numberOf .int64 10) :
        IndexableFilterExpr Unit) = some (.fixed sql) ∧
      let row := (ofX 0 1).storedRow (numberOf .uint64 10) (bucketValue 5)
      (ofX 0 1).forArray (row "x") = some (row "x_bucket") ∧
      ((ofX 0 1).columnCompare .eq (numberOf .int64 10) : IndexableFilterExpr Unit).truth
        .basic row (fun _ => .unknown) = .true ∧ sql.truth .basic row = .false) := by
  refine ⟨⟨_, rfl, ?_⟩, ⟨_, rfl, ?_⟩, ⟨_, rfl, ?_⟩⟩
  all_goals decide +kernel

end RangeIndex

end SecureFusion.Indices
