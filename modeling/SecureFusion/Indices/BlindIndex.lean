import SecureFusion.Crypto.Arrow
import SecureFusion.Filtering.Resolver

/-!
# Blind indices

A blind index stores next to each value an opaque identifier of its binary form, and
answers an equality with the identifier of the printed literal. The two encodings
agree on texts. A number or a truth value is printed differently from its binary
form, so that it is never found.
-/

namespace SecureFusion.Indices

open Library Sql Filtering IndexableFilterExpr Option

/-- What an identifier generator is derived for. -/
structure IdentifierContext where
  table : ResolvedTableReference
  indexName : String

/-- The planner's text of a value. Nulls, truth values, integers and texts have a fixed form;
what other types print is left open. -/
def displayScalar (displayOther : ScalarValue → String) (value : ScalarValue) : String :=
  match value with
  | .null => "NULL"
  | .boolean content => content.elim "NULL" toString
  | .text _ content => content.getD "NULL"
  | .primitive .int8 content | .primitive .int16 content | .primitive .int32 content
  | .primitive .int64 content => content.elim "NULL" fun word => toString word.toInt
  | .primitive .uint8 content | .primitive .uint16 content | .primitive .uint32 content
  | .primitive .uint64 content => content.elim "NULL" fun word => toString word.toNat
  | value => displayOther value

/-- A blind index of one column. -/
structure BlindIndex where
  name : String
  indexedColumn : String
  sizeBits : Nat
  indexColumnName : String

namespace BlindIndex

variable (index : BlindIndex) (displayOther : ScalarValue → String)

/-- The printed literal. -/
def scalarToBytes (value : ScalarValue) : Bytes := utf8Bytes (displayScalar displayOther value)

def identifierContext (table : ResolvedTableReference) : IdentifierContext := ⟨table, index.name⟩

section Generator

-- The identifier of some bytes with a number of bits, in hexadecimal.
variable (generator : IdentifierContext → Bytes → Nat → String)

def valueToBlindValue (table : ResolvedTableReference) (value : ScalarValue) : ScalarValue :=
  .text .utf8 (some (generator (index.identifierContext table)
    (scalarToBytes displayOther value) index.sizeBits))

/-- What is stored for a value of the column; none if its type is not encoded. -/
def forArray (table : ResolvedTableReference) (value : ScalarValue) : Option ScalarValue :=
  (Crypto.encodeToBinary value).map fun bytes => .bytes .binary (bytes.map fun bytes =>
    utf8Bytes (generator (index.identifierContext table) bytes index.sizeBits))

variable {E : Type}

/-- The rows that an equality is estimated to leave. -/
def selectivity (statistics : TableStatistics) : IndexSelectivity :=
  match statistics.columnSelectivity index.indexColumnName with
  | some selectivity => statistics.numRows.withEstimatedSelectivity selectivity
  | none => statistics.numRows.withEstimatedSelectivity
    (1.0 / Float.ofNat (2 ^ (index.sizeBits % 32)))

/-- Equalities and lists on the indexed column. -/
def isIndexableExprSupported (leaf : IndexableFilterExpr E) (statistics : TableStatistics) :
    Option IndexSelectivity :=
  match leaf with
  | .eq column .eq _ | .inList (.column column) _ =>
    if column.column.name = index.indexedColumn then some (index.selectivity statistics) else none
  | _ => none

/-- The server expression that answers a leaf; none on an error. -/
def leafToExpr (table : ResolvedTableReference) : IndexableFilterExpr E → Option AstExpr
  | .inList (.column column) values =>
    if column.column.name = index.indexedColumn then
      some (.inList false (.compoundIdentifier table.table index.indexColumnName)
        (values.map fun value =>
          .value (index.valueToBlindValue displayOther generator table value)))
    else none
  | .eq column .eq value =>
    if column.column.name = index.indexedColumn then
      some (.binaryOp (.compoundIdentifier table.table index.indexColumnName) .eq
        (.value (index.valueToBlindValue displayOther generator table value)))
    else none
  | _ => none

/-- The server expression that answers a tree; none on an error. -/
def indexableQueryToExpr (table : ResolvedTableReference) :
    IndexableFilterExpr E → Option AstExpr :=
  IndexableFilterExpr.answerWith (index.leafToExpr displayOther generator table)

/-- The answer of the index to a tree of either planner. -/
def query (D : Type) (table : ResolvedTableReference) (tree : IndexableFilterExpr E) :
    Option (IndexQueryStrategy D) :=
  (index.indexableQueryToExpr displayOther generator table tree).map .fixed

/-- What the index answers of the filters of either planner. -/
def supportOptions : SupportOptions E where
  supportsNot := false
  supportsOr := true
  isSupported := index.isIndexableExprSupported

/-- The index as the resolver sees it. -/
def encryptedIndex (D : Type) (table : ResolvedTableReference) : EncryptedIndex D where
  logicalSupportOptions := index.supportOptions
  logicalQuery := index.query displayOther generator D table
  physicalSupportOptions := some index.supportOptions
  physicalQuery := index.query displayOther generator D table

end Generator

end BlindIndex

/-! ## Comparison of texts and stored identifiers -/

/-- A null compares with nothing, texts are compared by their content, and a stored identifier is
compared with a quoted one by its bytes. -/
structure ComparesTexts (semantics : Semantics) : Prop where
  nulls : ∀ left right, left.isNull → semantics.order left right = none
  texts : ∀ leftLayout rightLayout left right,
    semantics.order (.text leftLayout (some left)) (.text rightLayout (some right)) = some .eq ↔
      left = right
  stored : ∀ bytes text,
    semantics.order (.bytes .binary (some bytes)) (.text .utf8 (some text)) = some .eq ↔
      bytes = utf8Bytes text

def IsTextOrNull (value : ScalarValue) : Prop :=
  value.isNull ∨ ∃ layout text, value = .text layout (some text)

theorem ComparesTexts.text_of_eq {semantics : Semantics} (compares : ComparesTexts semantics)
    {left right : ScalarValue} (isLeft : IsTextOrNull left) (isRight : IsTextOrNull right)
    (equal : semantics.order left right = some .eq) :
    ∃ leftLayout rightLayout text, left = .text leftLayout (some text) ∧
      right = .text rightLayout (some text) := by
  rcases isLeft with null | ⟨leftLayout, leftText, rfl⟩
  · rw [compares.nulls left right null] at equal
    cases equal
  · rcases isRight with null | ⟨rightLayout, rightText, rfl⟩
    · rw [semantics.order_swap, compares.nulls right _ null] at equal
      cases equal
    · rw [compares.texts] at equal
      exact ⟨leftLayout, rightLayout, leftText, rfl, by rw [equal]⟩

theorem compare_eq_iff (semantics : Semantics) (left right : ScalarValue) :
    semantics.compare EqualityOperator.eq.accepts left right = .true ↔
      semantics.order left right = some .eq := by
  rw [Semantics.compare_eq_true]
  simp [EqualityOperator.accepts]

namespace BlindIndex

variable {index : BlindIndex} {displayOther : ScalarValue → String}
  {generator : IdentifierContext → Bytes → Nat → String} {table : ResolvedTableReference}
  {E : Type} {semantics : Semantics} {leaf : IndexableFilterExpr E}

theorem stored_eq (compares : ComparesTexts semantics) {value literal stored : ScalarValue}
    (isValue : IsTextOrNull value) (isLiteral : IsTextOrNull literal)
    (isStored : index.forArray generator table value = some stored)
    (equal : semantics.order value literal = some .eq) :
    semantics.order stored (index.valueToBlindValue displayOther generator table literal) =
      some .eq := by
  obtain ⟨layout, literalLayout, text, rfl, rfl⟩ := compares.text_of_eq isValue isLiteral equal
  cases isStored
  exact (compares.stored _ _).mpr rfl

/-- A leaf that compares the column itself with texts or nulls. -/
def TextLeaf : IndexableFilterExpr E → Prop
  | .eq column _ literal => column.castTo = none ∧ IsTextOrNull literal
  | .inList (.column column) values =>
    column.castTo = none ∧ ∀ value ∈ values, IsTextOrNull value
  | _ => True

theorem exists_leafToExpr {statistics : TableStatistics}
    (supported : (index.supportOptions.isSupported leaf statistics).isSome) :
    ∃ sql, index.leafToExpr displayOther generator table leaf = some sql := by
  cases leaf with
  | eq column operator literal =>
    cases operator with
    | eq =>
      simpa [supportOptions, isIndexableExprSupported, leafToExpr] using supported
    | gt | lt | ltEq | gtEq => cases supported
  | inList columns values =>
    cases columns with
    | column column =>
      simpa [supportOptions, isIndexableExprSupported, leafToExpr] using supported
    | tuple => cases supported
  | _ => cases supported

theorem leafToExpr_holds (compares : ComparesTexts semantics) {sql : AstExpr}
    (made : index.leafToExpr displayOther generator table leaf = some sql) {row : Row}
    {otherTruth : E → Truth} (stored : index.forArray generator table (row index.indexedColumn) =
      some (row index.indexColumnName)) (isValue : IsTextOrNull (row index.indexedColumn))
    (texts : TextLeaf leaf)
    (holds : leaf.truth semantics row otherTruth = .true) : sql.truth semantics row = .true := by
  cases leaf with
  | eq column operator literal =>
    cases operator with
    | eq =>
      simp only [leafToExpr, ite_none_right_eq_some, some.injEq] at made
      obtain ⟨named, rfl⟩ := made
      have value : column.value semantics row = row index.indexedColumn := by
        rw [ColumnWithCast.value, texts.1, named]
      have holds : semantics.compare EqualityOperator.eq.accepts (column.value semantics row)
        literal = .true := holds
      rw [value, compare_eq_iff] at holds
      have equal : semantics.order (row index.indexColumnName)
          (index.valueToBlindValue displayOther generator table literal) = some .eq :=
        stored_eq compares isValue texts.2 stored holds
      exact (truth_binaryOp semantics row _ _ .eq).trans
        ((compare_eq_iff semantics _ _).mpr equal)
    | gt | lt | ltEq | gtEq => cases made
  | inList columns values =>
    cases columns with
    | column column =>
      simp only [leafToExpr, ite_none_right_eq_some, some.injEq] at made
      obtain ⟨named, rfl⟩ := made
      have value : column.value semantics row = row index.indexedColumn := by
        rw [ColumnWithCast.value, texts.1, named]
      have holds : semantics.inList (column.value semantics row) values = .true := holds
      rw [value, Semantics.inList, Truth.any_eq_true, List.mem_map] at holds
      obtain ⟨literal, listed, equal⟩ := holds
      have equal : semantics.order (row index.indexColumnName)
          (index.valueToBlindValue displayOther generator table literal) = some .eq :=
        stored_eq compares isValue (texts.2 literal listed) stored
          ((compare_eq_iff semantics _ _).mp equal)
      -- The identifier of the literal is in the list of the answer.
      refine (ScalarValue.truth_ofTruth _).trans ?_
      show semantics.inList (row index.indexColumnName) _ = .true
      rw [Semantics.inList, Truth.any_eq_true, AstExpr.evalList_eq_map, List.map_map, List.map_map,
        List.mem_map]
      exact ⟨literal, listed, (compare_eq_iff semantics _ _).mpr equal⟩
    | tuple => cases made
  | _ => cases made

/-! ## Values that are not texts -/

def isInteger : PrimitiveType → Bool
  | .int8 | .int16 | .int32 | .int64 | .uint8 | .uint16 | .uint32 | .uint64 => true
  | _ => false

theorem leBytes_ne_display {type : PrimitiveType} (integer : isInteger type)
    (word : BitVec type.width) :
    leBytes type.bytes word.toNat ≠
      scalarToBytes displayOther (.primitive type (some word)) := by
  -- A negative number has its highest bit set and is printed in ASCII.
  have signed : ∀ {bytes : Nat} (word : BitVec (8 * (bytes + 1))),
      leBytes (bytes + 1) word.toNat ≠ utf8Bytes (toString word.toInt) := by
    intro bytes word
    have powers : 2 ^ (8 * (bytes + 1)) = 256 * 256 ^ bytes := by
      rw [Nat.pow_mul, Nat.pow_succ']
    have bound : word.toNat < 256 * 256 ^ bytes := powers ▸ word.isLt
    rw [BitVec.toInt_eq_toNat_cond]
    split
    case isTrue => exact leBytes_ne_utf8Bytes_nat (Nat.succ_pos bytes)
    case isFalse negative =>
      rw [powers] at negative
      apply leBytes_ne_utf8Bytes_ascii
      · rw [Nat.pow_succ']
        exact bound
      · omega
      · exact toString_int_ascii _
  have unsigned : ∀ {bytes : Nat} (word : BitVec (8 * (bytes + 1))),
      leBytes (bytes + 1) word.toNat ≠ utf8Bytes (toString word.toNat) :=
    fun _ => leBytes_ne_utf8Bytes_nat (Nat.succ_pos _)
  cases type with
  | int8 | int16 | int32 | int64 => exact signed word
  | uint8 | uint16 | uint32 | uint64 => exact unsigned word
  | _ => cases integer

/-- A truth value, an integer or a text that is not null. -/
def IsPrinted : ScalarValue → Prop
  | .boolean value => value.isSome
  | .primitive type value => isInteger type ∧ value.isSome
  | .text _ value => value.isSome
  | _ => False

def IsText : ScalarValue → Prop
  | .text _ _ => True
  | _ => False

theorem encode_ne_display {value : ScalarValue} (printed : IsPrinted value) :
    ∃ bytes, Crypto.encodeToBinary value = some (some bytes) ∧
      (bytes = scalarToBytes displayOther value ↔ IsText value) := by
  cases value with
  | boolean content =>
    cases content with
    | none => cases printed
    | some content =>
      refine ⟨_, rfl, iff_of_false ?_ (fun absurd => absurd)⟩
      cases content with
      | false =>
        show [0] ≠ utf8Bytes "false"
        decide +kernel
      | true =>
        show [1] ≠ utf8Bytes "true"
        decide +kernel
  | primitive type content =>
    obtain ⟨integer, isSome⟩ := printed
    obtain ⟨word, rfl⟩ := isSome_iff_exists.mp isSome
    have encoded : Crypto.encodeToBinary (.primitive type (some word)) =
        some (some (leBytes type.bytes word.toNat)) := by
      cases type <;> first | rfl | cases integer
    exact ⟨_, encoded, iff_of_false (leBytes_ne_display integer word) (fun absurd => absurd)⟩
  | text layout content =>
    obtain ⟨text, rfl⟩ := isSome_iff_exists.mp printed
    exact ⟨_, rfl, iff_of_true rfl trivial⟩
  | null | bytes | float32List | struct => cases printed

/-! ## Lookups -/

/-- A generator that tells one byte string from all others. -/
def tellsApart (bytes : Bytes) : IdentifierContext → Bytes → Nat → String :=
  fun _ other _ => if other = bytes then "00" else "01"

theorem found_iff (compares : ComparesTexts semantics)
    (separate : index.indexColumnName ≠ index.indexedColumn) {value : ScalarValue}
    {bytes : Bytes} (encoded : Crypto.encodeToBinary value = some (some bytes)) :
    (∀ generator sql row, row index.indexedColumn = value →
      index.forArray generator table value = some (row index.indexColumnName) →
      index.leafToExpr displayOther generator table
        (.eq (.raw index.indexedColumn) .eq value : IndexableFilterExpr E) = some sql →
      sql.truth semantics row = .true) ↔ bytes = scalarToBytes displayOther value := by
  have stored : ∀ generator, index.forArray generator table value = some (.bytes .binary
      (some (utf8Bytes (generator (index.identifierContext table) bytes index.sizeBits)))) := by
    intro generator
    rw [forArray, encoded]
    rfl
  have answer : ∀ generator, index.leafToExpr displayOther generator table
      (.eq (.raw index.indexedColumn) .eq value : IndexableFilterExpr E) =
        some (.binaryOp (.compoundIdentifier table.table index.indexColumnName) .eq
          (.value (index.valueToBlindValue displayOther generator table value))) :=
    fun generator => if_pos rfl
  have truth : ∀ generator (row : Row), index.forArray generator table value =
      some (row index.indexColumnName) →
      ((AstExpr.binaryOp (.compoundIdentifier table.table index.indexColumnName) .eq
        (.value (index.valueToBlindValue displayOther generator table value))).truth semantics row =
          .true ↔
        utf8Bytes (generator (index.identifierContext table) bytes index.sizeBits) =
          utf8Bytes (generator (index.identifierContext table) (scalarToBytes displayOther value)
            index.sizeBits)) := by
    intro generator row isStored
    rw [stored generator, some.injEq] at isStored
    have compared := truth_binaryOp semantics row
      (.compoundIdentifier table.table index.indexColumnName)
      (.value (index.valueToBlindValue displayOther generator table value)) .eq
    have atColumn : (AstExpr.compoundIdentifier table.table index.indexColumnName).eval semantics
        row = row index.indexColumnName := rfl
    rw [atColumn, ← isStored] at compared
    exact (Eq.congr_left compared).trans
      ((compare_eq_iff semantics _ _).trans (compares.stored _ _))
  constructor
  · intro found
    by_contra differ
    have isStored := stored (tellsApart bytes)
    have holds := found (tellsApart bytes) _
      (fun name => if name = index.indexedColumn then value else .bytes .binary (some
        (utf8Bytes (tellsApart bytes (index.identifierContext table) bytes index.sizeBits))))
      (if_pos rfl) (isStored.trans (congrArg some (if_neg separate).symm)) (answer (tellsApart bytes))
    rw [truth (tellsApart bytes) _ (isStored.trans (congrArg some (if_neg separate).symm))] at holds
    rw [tellsApart, tellsApart, if_pos rfl, if_neg (Ne.symm differ)] at holds
    exact absurd holds (by decide +kernel)
  · intro same generator sql row _ isStored made
    rw [answer generator, some.injEq] at made
    rw [← made, truth generator row isStored, same]

/-- The answer to a tree of supported leaves that compare a column of texts with texts holds of
every stored identifier whose value satisfies the tree, whatever the generator. Among truth values,
integers and texts, an equality with the value itself finds the value under every generator exactly
if it is a text. -/
theorem lookup_finds_texts (compares : ComparesTexts semantics)
    (separate : index.indexColumnName ≠ index.indexedColumn) (D : Type)
    (statistics : TableStatistics) (otherTruth : E → Truth) :
    (∀ (generator : IdentifierContext → Bytes → Nat → String) (tree : IndexableFilterExpr E),
      tree.AllSupported index.supportOptions statistics →
      ∃ sql, index.query displayOther generator D table tree = some (.fixed sql) ∧
        ∀ row : Row, index.forArray generator table (row index.indexedColumn) =
            some (row index.indexColumnName) →
          IsTextOrNull (row index.indexedColumn) → (∀ leaf ∈ tree.leaves, TextLeaf leaf) →
          tree.truth semantics row otherTruth = .true → sql.truth semantics row = .true) ∧
    ∀ value, IsPrinted value →
      ((∀ generator sql row, row index.indexedColumn = value →
        index.forArray generator table value = some (row index.indexColumnName) →
        index.query displayOther generator D table
          (.eq (.raw index.indexedColumn) .eq value : IndexableFilterExpr E) = some (.fixed sql) →
        sql.truth semantics row = .true) ↔ IsText value) := by
  constructor
  · intro generator tree supported
    obtain ⟨sql, made⟩ := exists_answerWith
      (fun leaf => exists_leafToExpr) supported
    refine ⟨sql, by rw [query, indexableQueryToExpr, made]; rfl, ?_⟩
    intro row stored isValue texts holds
    exact answerWith_holds
      (fun leaf isLeaf leafSql leafMade =>
        leafToExpr_holds compares leafMade stored isValue (texts leaf isLeaf)) made holds
  · intro value printed
    obtain ⟨bytes, encoded, isText⟩ := @encode_ne_display displayOther value printed
    rw [← isText, ← @found_iff index displayOther table E semantics compares separate value bytes
      encoded]
    -- The query of a leaf is the answer to the leaf.
    have single : ∀ generator sql, index.query displayOther generator D table
        (.eq (.raw index.indexedColumn) .eq value : IndexableFilterExpr E) = some (.fixed sql) ↔
          index.leafToExpr displayOther generator table
            (.eq (.raw index.indexedColumn) .eq value : IndexableFilterExpr E) = some sql := by
      intro generator sql
      simp [query, indexableQueryToExpr, answerWith]
    simp only [single]

def contentOf : ScalarValue → Option Bytes
  | .text _ value => value.map utf8Bytes
  | .bytes _ value => value
  | _ => none

/-- Texts and byte strings are ordered by their bytes, other values as in the small engine. -/
def byteOrder (left right : ScalarValue) : Option Ordering :=
  match contentOf left, contentOf right with
  | some leftBytes, some rightBytes => some (Ord.compare leftBytes rightBytes)
  | _, _ => Semantics.basicOrder left right

/-- The small engine with texts and byte strings ordered by their bytes. -/
def byteEngine : Semantics where
  order := byteOrder
  order_swap left right := by
    unfold byteOrder
    cases contentOf left <;> cases contentOf right <;>
      first | exact Semantics.basicOrder_swap left right | exact congrArg some Std.OrientedOrd.eq_swap
  cast := Semantics.basic.cast
  like := Semantics.basic.like
  kwMatch := Semantics.basic.kwMatch
  operator := Semantics.basic.operator
  function := Semantics.basic.function

theorem byteEngine_comparesTexts : ComparesTexts byteEngine where
  nulls left right null := by
    have unordered : Semantics.basicOrder left right = none :=
      Semantics.basic_ordered.nulls left right null
    have noContent : contentOf left = none := by
      cases left with
      | text | bytes => simpa [ScalarValue.isNull, contentOf] using null
      | _ => rfl
    show byteOrder left right = none
    rw [byteOrder, noContent]
    exact unordered
  texts leftLayout rightLayout left right := by
    show some (Ord.compare (utf8Bytes left) (utf8Bytes right)) = some .eq ↔ left = right
    rw [some.injEq, Std.LawfulEqOrd.compare_eq_iff_eq]
    exact ⟨utf8Bytes_injective, congrArg utf8Bytes⟩
  stored bytes text := by
    show some (Ord.compare bytes (utf8Bytes text)) = some .eq ↔ bytes = utf8Bytes text
    rw [some.injEq, Std.LawfulEqOrd.compare_eq_iff_eq]

def ofX : BlindIndex := ⟨"idx", "x", 16, "x_blind"⟩

/-- A row with a value of x and what is stored for it under a generator. -/
def storedRow (generator : IdentifierContext → Bytes → Nat → String) (value : ScalarValue) :
    Row :=
  fun name => if name = "x" then value else
    (ofX.forArray generator ⟨"c", "s", "t"⟩ value).getD .null

/-- A text is found by a disjunction of an equality and a list. -/
theorem lookup_finds_texts_disjunction :
    ∃ sql, ofX.query (fun _ => "") (tellsApart []) Unit ⟨"c", "s", "t"⟩
        (.or (.eq (.raw "x") .eq (.text .utf8 (some "a")))
          (.inList (.column (.raw "x")) [.null, .text .utf8 (some "b")]) :
            IndexableFilterExpr Unit) = some (.fixed sql) ∧
      sql.truth byteEngine (storedRow (tellsApart []) (.text .utf8View (some "b"))) = .true := by
  obtain ⟨sql, made, found⟩ := (@lookup_finds_texts ofX (fun _ => "") ⟨"c", "s", "t"⟩ Unit
    byteEngine byteEngine_comparesTexts (by decide) Unit .forEmptyTable (fun _ => .unknown)).1
      (tellsApart []) (.or (.eq (.raw "x") .eq (.text .utf8 (some "a")))
        (.inList (.column (.raw "x")) [.null, .text .utf8 (some "b")])) ⟨rfl, rfl⟩
  refine ⟨sql, made, found _ rfl (.inr ⟨.utf8View, "b", rfl⟩) ?_ (by decide +kernel)⟩
  refine List.forall_mem_cons.mpr ⟨⟨rfl, .inr ⟨.utf8, "a", rfl⟩⟩,
    List.forall_mem_singleton.mpr ⟨rfl, List.forall_mem_cons.mpr ⟨.inl rfl,
      List.forall_mem_singleton.mpr (.inr ⟨.utf8, "b", rfl⟩)⟩⟩⟩

/-- An integer and a truth value that satisfy an equality are not found. -/
theorem lookup_misses_values :
    let missed (value : ScalarValue) : Prop :=
      ∃ bytes sql, ofX.query (fun _ => "") (tellsApart bytes) Unit ⟨"c", "s", "t"⟩
          (.eq (.raw "x") .eq value : IndexableFilterExpr Unit) = some (.fixed sql) ∧
        ofX.forArray (tellsApart bytes) ⟨"c", "s", "t"⟩ value =
          some (storedRow (tellsApart bytes) value "x_blind") ∧
        (.eq (.raw "x") .eq value : IndexableFilterExpr Unit).truth byteEngine
          (storedRow (tellsApart bytes) value) (fun _ => .unknown) = .true ∧
        sql.truth byteEngine (storedRow (tellsApart bytes) value) = .false
    missed (.primitive .int32 (some 5)) ∧ missed (.boolean (some true)) := by
  refine ⟨⟨[5, 0, 0, 0], _, rfl, rfl, ?_⟩, ⟨[1], _, rfl, rfl, ?_⟩⟩
  all_goals decide +kernel

end BlindIndex

end SecureFusion.Indices
