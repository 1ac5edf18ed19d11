import SecureFusion.Crypto.AssociatedData

/-!
# Columns from their binary form

Decoding of a binary column into a column of some type. Like the encoding it takes a cast of Arrow
where there is one, and the two directions have different casts: an integer is cast to binary, but it
is read back from its bytes. A vector is a list of a fixed size, whose elements may be null.
-/

namespace SecureFusion.Crypto

open Library Sql

/-! ## Decoding -/

/-- The types that Arrow casts from binary. -/
def canCastFromBinary : DataType → Bool
  | .text _ | .bytes _ => true
  | _ => false

/-- Whether a decimal type is one that Arrow admits, given the largest precision of its words. -/
def validPrecisionAndScale (maxPrecision precision : Nat) (scale : Int) : Bool :=
  decide (0 < precision ∧ precision ≤ maxPrecision ∧ scale ≤ maxPrecision ∧
    (0 < scale → scale ≤ precision))

/-- The precisions and scales that Arrow admits. -/
def validParameters : PrimitiveType → Bool
  | .decimal32 precision scale => validPrecisionAndScale 9 precision scale
  | .decimal64 precision scale => validPrecisionAndScale 18 precision scale
  | .decimal128 precision scale => validPrecisionAndScale 38 precision scale
  | _ => true

/-- A word from its little-endian bytes. -/
def readWord (type : PrimitiveType) (bytes : Bytes) : Option (BitVec type.width) :=
  if bytes.length = type.bytes then some (BitVec.ofNat type.width (ofLeBytes bytes)) else none

/-- The elements of a vector, each from its slice of the bytes. -/
def readElements (numElems : Nat) (bytes : Bytes) : List (Option (BitVec 32)) :=
  (List.range numElems).map fun index =>
    some (BitVec.ofNat 32 (ofLeBytes ((bytes.drop (index * 4)).take 4)))

/-- The column that is read entry by entry from a binary column. -/
def ArrowArray.ofEntries (dataType : DataType) (read : Option Bytes → ScalarValue)
    (typed : ∀ entry, dataTypeOf (read entry) = dataType) (entries : List (Option Bytes)) :
    ArrowArray where
  dataType := dataType
  rows := entries.map read
  typed := by
    intro row member
    obtain ⟨entry, -, rfl⟩ := List.mem_map.mp member
    exact typed entry

section Decoding

-- Arrow's reading of a text, null if the bytes are none.
variable (toText : Bytes → Option String)

/-- Arrow's cast of a binary column; an entry that does not fit becomes null. -/
def castFromBinary (entries : List (Option Bytes)) : DataType → Evaluated ArrowArray
  | .text layout =>
    if layout = .dictionary ∧ 2 ^ 16 < (entries.filterMap (·.bind toText)).dedup.length then
      .error (.execution "Dictionary key bigger than the key type")
    else .ok (.ofEntries (.text layout) (fun entry => .text layout (entry.bind toText))
      (fun _ => rfl) entries)
  | .bytes (.fixedSizeBinary size) =>
    .ok (.ofEntries (.bytes (.fixedSizeBinary size))
      (fun entry => .bytes (.fixedSizeBinary size) (entry.filter fun bytes => bytes.length = size))
      (fun _ => rfl) entries)
  | .bytes layout =>
    .ok (.ofEntries (.bytes layout) (.bytes layout) (fun _ => rfl) entries)
  | _ => .error (.execution "Casting from Binary not supported")

/-- Decodes a binary column into one of a type. -/
def decodeArrayFromBinary (entries : List (Option Bytes)) (targetType : DataType) :
    Evaluated ArrowArray :=
  if canCastFromBinary targetType then castFromBinary toText entries targetType
  else match targetType with
    | .null => .ok (.ofEntries .null (fun _ => .null) (fun _ => rfl) entries)
    | .boolean =>
      .ok (.ofEntries .boolean
        (fun entry => .boolean (entry.map fun bytes => decide (bytes = [1]))) (fun _ => rfl) entries)
    | .primitive (.decimal256 ..) => .error (.execution "Casting not implemented from binary")
    | .primitive type =>
      if validParameters type then
        .ok (.ofEntries (.primitive type)
          (fun entry => .primitive type (entry.bind (readWord type))) (fun _ => rfl) entries)
      else .error (.execution "invalid precision and scale")
    | .float32List num =>
      if num = 0 then .error (.panic "attempt to divide by zero")
      else if entries.all fun entry => entry.all fun value => value.length = 4 * num then
        .ok (.ofEntries (.float32List num)
          (fun entry => .float32List num (entry.map (readElements num))) (fun _ => rfl) entries)
      else .error (.panic "assertion left == right failed")
    | _ => .error (.execution "Casting not implemented from binary")

/-- A column that is encoded and decoded with its own type. -/
def recode (array : ArrowArray) : Evaluated ArrowArray := do
  let binary ← encodeArrayToBinary array
  let entries ← binary.asBinary
  decodeArrayFromBinary toText entries array.dataType

end Decoding

/-- Whether there is a branch of the decoding for a type and it is not one with keys. -/
def decodable : DataType → Bool
  | .text .dictionary => false
  | .null | .boolean | .text _ | .bytes _ | .float32List _ => true
  | .primitive (.decimal256 ..) => false
  | .primitive _ => true
  | .other _ => false

def HasFixedSize : ScalarValue → Prop
  | .bytes (.fixedSizeBinary size) (some bytes) => bytes.length = size
  | .float32List size (some elements) => elements.length = size
  | _ => True

/-- A column whose values have their fixed sizes, as in Arrow. -/
structure SizedArray extends ArrowArray where
  sized : ∀ row ∈ rows, HasFixedSize row

/-! ## Round trip -/

def NoNullElement : ScalarValue → Prop
  | .float32List _ (some elements) => none ∉ elements
  | _ => True

/-- The parameters of a type are admitted: a decimal type has a valid precision, a vector has
elements. -/
def Admitted : DataType → Prop
  | .primitive type => validParameters type = true
  | .float32List num => num ≠ 0
  | _ => True

section RoundTrip

variable {value : Option (List (Option (BitVec 32)))} {toText : Bytes → Option String}
  {size : Nat} (elements : List (Option (BitVec 32)))

theorem readWord_leBytes (type : PrimitiveType) (word : BitVec type.width) :
    readWord type (leBytes type.bytes word.toNat) = some word := by
  have fits : word.toNat < 256 ^ type.bytes := by
    have bound : word.toNat < 2 ^ (8 * type.bytes) := word.isLt
    rwa [Nat.pow_mul] at bound
  rw [readWord, if_pos (length_leBytes _ _), ofLeBytes_leBytes, Nat.mod_eq_of_lt fits,
    BitVec.ofNat_toNat, BitVec.setWidth_eq]

def elementBytes (elements : List (Option (BitVec 32))) : Bytes :=
  elements.flatMap fun element => element.elim [] fun word => leBytes 4 word.toNat

theorem length_elementBytes :
    (elementBytes elements).length = 4 * (elements.filter Option.isSome).length := by
  induction elements with
  | nil => rfl
  | cons element rest ih =>
    rw [elementBytes, List.flatMap_cons, List.length_append, ← elementBytes, ih]
    cases element with
    | none => simp
    | some word =>
      simp only [Option.elim_some, length_leBytes, List.filter_cons, Option.isSome_some, if_true,
        List.length_cons]
      omega

theorem length_elementBytes_iff :
    (elementBytes elements).length = 4 * elements.length ↔ none ∉ elements := by
  rw [length_elementBytes, Nat.mul_right_inj (by decide), List.length_filter_eq_length_iff]
  constructor
  · intro all isNull
    cases all none isNull
  · intro noNull element isIn
    cases element with
    | none => exact absurd isIn noNull
    | some => rfl

theorem readElements_elementBytes {elements : List (Option (BitVec 32))}
    (noNull : none ∉ elements) :
    readElements elements.length (elementBytes elements) = elements := by
  induction elements with
  | nil => rfl
  | cons element rest ih =>
    rw [List.mem_cons, not_or] at noNull
    cases element with
    | none => exact absurd rfl noNull.1
    | some word =>
      have bytes : elementBytes (some word :: rest) = leBytes 4 word.toNat ++ elementBytes rest := by
        rw [elementBytes, List.flatMap_cons]
        rfl
      have later := ih noNull.2
      have fits : word.toNat < 256 ^ 4 := word.isLt
      have first : BitVec.ofNat 32 (ofLeBytes (leBytes 4 word.toNat)) = word := by
        rw [ofLeBytes_leBytes, Nat.mod_eq_of_lt fits, BitVec.ofNat_toNat, BitVec.setWidth_eq]
      have length : (leBytes 4 word.toNat).length = 4 := length_leBytes _ _
      rw [readElements] at later ⊢
      rw [List.length_cons, List.range_succ_eq_map, List.map_cons, List.map_map, bytes, Nat.zero_mul,
        List.drop_zero, List.take_left' length, first]
      refine congrArg _ ((List.map_congr_left fun index _ => ?_).trans later)
      rw [Function.comp_apply, Nat.succ_mul, Nat.add_comm, ← List.drop_drop,
        List.drop_left' length]

theorem ofEntries_eq {array : ArrowArray} {read : Option Bytes → ScalarValue}
    {typed : ∀ entry, dataTypeOf (read entry) = array.dataType}
    (back : ∀ row ∈ array.rows, read (encodedValue array.dataType row) = row) :
    ArrowArray.ofEntries array.dataType read typed
      (array.rows.map (encodedValue array.dataType)) = array := by
  refine ArrowArray.ext_rows rfl ?_
  change (array.rows.map (encodedValue array.dataType)).map read = array.rows
  rw [List.map_map]
  exact (List.map_congr_left back).trans (List.map_id _)

theorem noNullElement_of_ne {row : ScalarValue}
    (notVector : ∀ size, dataTypeOf row ≠ .float32List size) : NoNullElement row := by
  cases row with
  | float32List size elements => exact absurd rfl (notVector size)
  | _ => trivial

theorem decoded_iff (array : ArrowArray) {read : Option Bytes → ScalarValue}
    {typed : ∀ entry, dataTypeOf (read entry) = array.dataType}
    (notVector : ∀ size, array.dataType ≠ .float32List size) (admitted : Admitted array.dataType)
    (back : ∀ row ∈ array.rows, read (encodedValue array.dataType row) = row) :
    (Except.ok (ArrowArray.ofEntries array.dataType read typed
        (array.rows.map (encodedValue array.dataType))) : Evaluated ArrowArray) = .ok array ↔
      Admitted array.dataType ∧ ∀ row ∈ array.rows, NoNullElement row := by
  refine iff_of_true (congrArg _ (ofEntries_eq back)) ⟨admitted, fun row isIn => ?_⟩
  refine noNullElement_of_ne fun size => ?_
  rw [array.typed row isIn]
  exact notVector size

theorem readWord_encodedValue {type : PrimitiveType} (notLarge : ∀ precision scale,
    type ≠ .decimal256 precision scale) (value : Option (BitVec type.width)) :
    (encodedValue (.primitive type) (.primitive type value)).bind (readWord type) = value := by
  have entry : encodedValue (.primitive type) (.primitive type value) =
      value.map fun word => leBytes type.bytes word.toNat := by
    rw [encodedValue]
    split_ifs
    · rfl
    · cases type with
      | decimal256 precision scale => exact absurd rfl (notLarge precision scale)
      | _ => rfl
  rw [entry]
  cases value with
  | none => rfl
  | some word => exact readWord_leBytes type word

theorem readElements_encodedValue (sized : HasFixedSize (.float32List size value))
    (noNull : NoNullElement (.float32List size value)) :
    (encodedValue (.float32List size) (.float32List size value)).map (readElements size) =
      value := by
  cases value with
  | none => rfl
  | some elements =>
    have length : elements.length = size := sized
    subst length
    exact congrArg some (readElements_elementBytes noNull)

theorem size_encodedValue_iff (sized : HasFixedSize (.float32List size value)) :
    ((encodedValue (.float32List size) (.float32List size value)).all fun bytes =>
        decide (bytes.length = 4 * size)) = true ↔ NoNullElement (.float32List size value) := by
  cases value with
  | none => exact iff_of_true rfl trivial
  | some elements =>
    have length : elements.length = size := sized
    subst length
    exact decide_eq_true_iff.trans (length_elementBytes_iff elements)

theorem decode_vectors_iff {num : Nat} {rows : List ScalarValue}
    (typed : ∀ row ∈ rows, dataTypeOf row = .float32List num)
    (sized : ∀ row ∈ rows, HasFixedSize row) :
    decodeArrayFromBinary toText (rows.map (encodedValue (.float32List num))) (.float32List num) =
        .ok ⟨.float32List num, rows, typed⟩ ↔
      num ≠ 0 ∧ ∀ row ∈ rows, NoNullElement row := by
  have vector : ∀ row ∈ rows, ∃ value, row = .float32List num value := by
    intro row isIn
    cases row <;> cases typed _ isIn
    exact ⟨_, rfl⟩
  have sizes : ((rows.map (encodedValue (.float32List num))).all fun entry =>
      entry.all fun value => decide (value.length = 4 * num)) = true ↔
      ∀ row ∈ rows, NoNullElement row := by
    rw [List.all_map, List.all_eq_true]
    refine forall₂_congr fun row isIn => ?_
    obtain ⟨value, rfl⟩ := vector row isIn
    exact size_encodedValue_iff (sized _ isIn)
  simp only [decodeArrayFromBinary, canCastFromBinary, Bool.false_eq_true, if_false]
  by_cases empty : num = 0
  · rw [if_pos empty]
    exact iff_of_false nofun fun admitted => admitted.1 empty
  · rw [if_neg empty]
    by_cases noNull : ∀ row ∈ rows, NoNullElement row
    · rw [if_pos (sizes.mpr noNull)]
      refine iff_of_true (congrArg _ (@ofEntries_eq ⟨.float32List num, rows, typed⟩ _ _
        fun row isIn => ?_)) ⟨empty, noNull⟩
      obtain ⟨value, rfl⟩ := vector row isIn
      exact congrArg _ (readElements_encodedValue (sized _ isIn) (noNull _ isIn))
    · rw [if_neg fun all => noNull (sizes.mp all)]
      exact iff_of_false nofun fun ⟨_, all⟩ => noNull all

theorem decode_encoded_iff (lossless : ∀ text, toText (utf8Bytes text) = some text)
    (array : SizedArray) (decodes : decodable array.dataType = true) :
    decodeArrayFromBinary toText (array.rows.map (encodedValue array.dataType)) array.dataType =
        .ok array.toArrowArray ↔
      Admitted array.dataType ∧ ∀ row ∈ array.rows, NoNullElement row := by
  obtain ⟨⟨type, rows, typed⟩, sized⟩ := array
  dsimp only at *
  cases type with
  | null =>
    refine decoded_iff ⟨.null, rows, typed⟩ nofun trivial fun row isIn => ?_
    cases row <;> cases typed _ isIn
    rfl
  | boolean =>
    refine decoded_iff ⟨.boolean, rows, typed⟩ nofun trivial fun row isIn => ?_
    cases row <;> cases typed _ isIn
    rename_i value
    rcases value with _ | (_ | _) <;> rfl
  | primitive type =>
    have notLarge : ∀ precision scale, type ≠ .decimal256 precision scale := by
      rintro precision scale rfl
      cases decodes
    have unfolded : decodeArrayFromBinary toText
        (rows.map (encodedValue (.primitive type))) (.primitive type) =
        if validParameters type then
          .ok (.ofEntries (.primitive type)
            (fun entry => .primitive type (entry.bind (readWord type))) (fun _ => rfl)
            (rows.map (encodedValue (.primitive type))))
        else .error (.execution "invalid precision and scale") := by
      cases type with
      | decimal256 precision scale => exact absurd rfl (notLarge precision scale)
      | _ => rfl
    rw [unfolded]
    split_ifs with valid
    · refine decoded_iff ⟨.primitive type, rows, typed⟩ nofun valid fun row isIn => ?_
      cases row <;> cases typed _ isIn
      exact congrArg _ (readWord_encodedValue notLarge _)
    · exact iff_of_false nofun fun admitted => valid admitted.1
  | text layout =>
    have noKeys : layout ≠ .dictionary := by
      rintro rfl
      cases decodes
    simp only [decodeArrayFromBinary, canCastFromBinary, castFromBinary, noKeys, false_and,
      if_true, if_false]
    refine decoded_iff ⟨.text layout, rows, typed⟩ nofun trivial fun row isIn => ?_
    cases row <;> cases typed _ isIn
    rename_i value
    cases value with
    | none => rfl
    | some text => exact congrArg _ (lossless text)
  | bytes layout =>
    cases layout with
    | fixedSizeBinary size =>
      refine decoded_iff ⟨.bytes (.fixedSizeBinary size), rows, typed⟩ nofun trivial
        fun row isIn => ?_
      cases row <;> cases typed _ isIn
      rename_i value
      cases value with
      | none => rfl
      | some bytes =>
        have length : bytes.length = size := sized _ isIn
        exact congrArg _ (if_pos (decide_eq_true length))
    | _ =>
      refine decoded_iff ⟨.bytes _, rows, typed⟩ nofun trivial fun row isIn => ?_
      cases row <;> cases typed _ isIn
      rfl
  | float32List num => exact decode_vectors_iff typed sized
  | other name => cases decodes

end RoundTrip

/-- A column of a type that is both encoded and decoded comes back from its binary form exactly if its
entries fit, the parameters of its type are admitted and no element of a vector is null. -/
theorem recode_eq_iff (toText : Bytes → Option String)
    (lossless : ∀ text, toText (utf8Bytes text) = some text) (array : SizedArray)
    (encodes : encodable array.dataType = true) (decodes : decodable array.dataType = true) :
    recode toText array.toArrowArray = .ok array.toArrowArray ↔
      ColumnBuilder.size (array.rows.map (encodedValue array.dataType)) ≤ maxOffset ∧
        Admitted array.dataType ∧ ∀ row ∈ array.rows, NoNullElement row := by
  simp only [recode, Outcome.bind_eq_ok_iff]
  rw [← decode_encoded_iff lossless array decodes]
  constructor
  · rintro ⟨binary, encoded, entries, isEntries, decoded⟩
    obtain ⟨-, fits, rfl⟩ := encodeArrayToBinary_eq_ok_iff.mp encoded
    rw [ArrowArray.asBinary_ofBinary] at isEntries
    cases isEntries
    exact ⟨fits, decoded⟩
  · rintro ⟨fits, decoded⟩
    exact ⟨_, encodeArrayToBinary_eq_ok_iff.mpr ⟨encodes, fits, rfl⟩, _,
      ArrowArray.asBinary_ofBinary _, decoded⟩

def vectors (rows : List (Option (Vector (Option (BitVec 32)) 2))) : SizedArray where
  dataType := .float32List 2
  rows := rows.map fun row => .float32List 2 (row.map Vector.toList)
  typed := by simp [dataTypeOf]
  sized := by
    intro row member
    obtain ⟨entry, -, rfl⟩ := List.mem_map.mp member
    cases entry with
    | none => trivial
    | some elements => exact elements.length_toList

/-- A vector and a null come back. -/
theorem recode_vectors :
    recode (Function.partialInv utf8Bytes) (vectors [some #v[some 1, some 2], none]).toArrowArray =
      .ok (vectors [some #v[some 1, some 2], none]).toArrowArray :=
  (recode_eq_iff _ (Function.partialInv_left fun _ _ => utf8Bytes_injective) _ rfl rfl).mpr
    ⟨by decide, Nat.succ_ne_zero 1, by simp [vectors, NoNullElement]⟩

/-- A vector with an element that is null cannot be decoded, nor can vectors without elements. -/
theorem null_element_panics :
    recode (Function.partialInv utf8Bytes) (vectors [some #v[some 1, none]]).toArrowArray =
        .error (.panic "assertion left == right failed") ∧
      recode (Function.partialInv utf8Bytes)
          ⟨.float32List 0, [.float32List 0 (some [])], by simp [dataTypeOf]⟩ =
        .error (.panic "attempt to divide by zero") :=
  ⟨rfl, rfl⟩

end SecureFusion.Crypto
