import SecureFusion.Frontend.BinaryProtocol
import SecureFusion.Library.Rows

/-!
# Executing a prepared statement

The decoding of a packet that executes a prepared statement: a null bitmap, possibly
new parameter types, and the values of the parameters. The decoder skips the bitmap,
takes the flag for an unsigned parameter as part of its type, and does not remember
the types that an earlier packet has bound, but derives them from the types of the
statement. Packets of the client are modelled as what they encode, with their bytes.
-/

namespace SecureFusion.Frontend

open Library Sql List Option

variable {value : ScalarValue} {expected : DataType} {type : PrimitiveType} {unsigned : Bool}

/-! ## Parsing -/

/-- Errors of the command phase. -/
inductive CommandPhaseError where
  | unknownStatement (statementId : Nat)
  | otherError (message : String)
  | execution (message : String)
  /-- A value has no cast to the type of its parameter. -/
  | cast
deriving DecidableEq, Repr

/-- Why handling a packet ends early. -/
inductive Failure where
  | panic
  | error (error : CommandPhaseError)
deriving DecidableEq, Repr

abbrev Parse := StateT Bytes (Except Failure)

namespace Parse

variable {α β : Type} {next : α → Parse β} {first : Parse α} {bytes : Bytes}

/-- Reads, or fails for a given reason. -/
def orFail (failure : Failure) (read : Bytes → Option (α × Bytes)) : Parse α :=
  fun bytes => match read bytes with
    | some result => .ok result
    | none => .error failure

/-- Reads a number of little-endian bytes; a packet that is too short panics. -/
def eatLe (count : Nat) : Parse Nat := orFail .panic (eatNat count)

/-- Reads a word of a primitive type; a packet that is too short panics. -/
def eatValue (type : PrimitiveType) : Parse ScalarValue := do
  return .primitive type (some (← orFail .panic (eatPrimitive type)))

/-- Reads a byte string after its length. -/
def readByteArray : Parse Bytes :=
  orFail (.error (.execution "unexpected buf eof")) checkedEatLenencStr

theorem bind_ok {bytes rest : Bytes} {value : α}
    (done : first bytes = .ok (value, rest)) : (first >>= next) bytes = next value rest := by
  show (first bytes >>= fun result => next result.1 result.2) = _
  rw [done]
  rfl

theorem bind_error {failure : Failure} (failed : first bytes = .error failure) :
    (first >>= next) bytes = .error failure := by
  show (first bytes >>= fun result => next result.1 result.2) = _
  rw [failed]
  rfl

theorem of_bind_ok {result : β × Bytes} (done : (first >>= next) bytes = .ok result) :
    ∃ value rest, first bytes = .ok (value, rest) ∧ next value rest = .ok result := by
  cases read : first bytes with
  | ok here =>
    obtain ⟨value, rest⟩ := here
    exact ⟨value, rest, rfl, (bind_ok read).symm.trans done⟩
  | error failure => cases (bind_error read).symm.trans done

end Parse

open Parse

/-! ## Types of parameters -/

/-- Column types of the protocol. -/
inductive ColumnType where
  | decimal | tiny | short | long | float | double | null | timestamp | longlong | int24
  | date | time | datetime | year | newdate | varchar | bit | timestamp2 | datetime2 | time2
  | typedArray | vector | unknown | json | newdecimal | enum | set | tinyBlob | mediumBlob
  | longBlob | blob | varString | string | geometry
deriving DecidableEq, Repr

namespace ColumnType

def code : ColumnType → Nat
  | decimal => 0 | tiny => 1 | short => 2 | long => 3 | float => 4 | double => 5 | null => 6
  | timestamp => 7 | longlong => 8 | int24 => 9 | date => 10 | time => 11 | datetime => 12
  | year => 13 | newdate => 14 | varchar => 15 | bit => 16 | timestamp2 => 17 | datetime2 => 18
  | time2 => 19 | typedArray => 20 | vector => 242 | unknown => 243 | json => 245
  | newdecimal => 246 | enum => 247 | set => 248 | tinyBlob => 249 | mediumBlob => 250
  | longBlob => 251 | blob => 252 | varString => 253 | string => 254 | geometry => 255

def all : List ColumnType :=
  [decimal, tiny, short, long, float, double, null, timestamp, longlong, int24, date, time,
    datetime, year, newdate, varchar, bit, timestamp2, datetime2, time2, typedArray, vector,
    unknown, json, newdecimal, enum, set, tinyBlob, mediumBlob, longBlob, blob, varString, string,
    geometry]

def tryFrom (code : Nat) : Option ColumnType := all.find? fun type => type.code = code

theorem tryFrom_code (type : ColumnType) : tryFrom type.code = some type ∧ type.code < 256 := by
  cases type <;> decide

end ColumnType

/-- The column type that a data type is sent as; none if there is none yet. -/
def columnTypeOf : DataType → Option ColumnType
  | .null => some .null
  | .boolean => some .bit
  | .primitive type => some (match type with
    | .int8 | .uint8 => .tiny
    | .int16 | .uint16 => .short
    | .int32 | .uint32 => .long
    | .int64 | .uint64 => .longlong
    | .float16 | .float32 => .float
    | .float64 => .double
    | .timestamp .. => .timestamp
    | .date32 | .date64 => .date
    | .time32Second | .time32Millisecond | .time64Microsecond | .time64Nanosecond => .time
    | .duration _ | .intervalYearMonth => .long
    | .decimal32 .. | .decimal64 .. | .decimal128 .. | .decimal256 .. => .decimal)
  | .text .dictionary | .other _ => none
  | .bytes _ | .text _ => some .longBlob
  | .float32List _ => some .vector

def isUnsignedInteger : DataType → Bool
  | .primitive .uint8 | .primitive .uint16 | .primitive .uint32 | .primitive .uint64 => true
  | _ => false

/-! ## Decoding -/

section Decoding

-- The planner's cast of a value to a type.
variable (castTo : DataType → ScalarValue → Option ScalarValue)

/-- Reads a value that was declared as a column type. -/
def readDeclared (isUnsigned : Bool) : ColumnType → Parse ScalarValue
  | .null => return .null
  | .bit => do
    let bytes ← readByteArray
    return .boolean (some !(bytes.all fun byte => byte == 0))
  | .tiny => if isUnsigned then eatValue .uint8 else eatValue .int8
  | .short | .year => if isUnsigned then eatValue .uint16 else eatValue .int16
  | .int24 | .long => if isUnsigned then eatValue .uint32 else eatValue .int32
  | .longlong => if isUnsigned then eatValue .uint64 else eatValue .int64
  | .float => eatValue .float32
  | .double => eatValue .float64
  | .varchar | .json | .string | .varString => do
    match textOfUtf8 (← readByteArray) with
    | some text => return .text .utf8 (some text)
    | none => throw (.error (.execution "Could not convert string to UTF8"))
  | .blob | .tinyBlob | .mediumBlob | .longBlob => do
    return .bytes .binary (some (← readByteArray))
  -- Dates, times and decimals are not implemented, nor are the remaining types.
  | _ => throw .panic

/-- Reads a parameter and casts it to the type of the statement; the column flags are empty. -/
def deserializeParameter (declared : ColumnType) (expected : DataType) : Parse ScalarValue := do
  let column ← readDeclared (isUnsignedInteger expected) declared
  match castTo expected column with
  | some value => return value
  | none => throw (.error .cast)

/-- Reads the types of new parameters, with their names if queries have attributes. -/
def readTypes (queryAttributes : Bool) : Nat → Parse (List ColumnType)
  | 0 => return []
  | count + 1 => do
    let code ← eatLe 2
    -- The second byte holds the flag for an unsigned parameter.
    let some type := if code < 256 then ColumnType.tryFrom code else none | throw .panic
    if queryAttributes then
      let _ ← orFail .panic checkedEatLenencStr
    return type :: (← readTypes queryAttributes count)

/-- The types of the parameters, sent or derived from the statement's. -/
def declaredTypes (queryAttributes : Bool) (parameters : List DataType)
    (parametersCount newParamsFlags : Nat) : Parse (List ColumnType) :=
  if newParamsFlags % 2 = 1 then do
    let types ← readTypes queryAttributes parametersCount
    if types.length = parameters.length then return types else throw .panic
  else if queryAttributes then throw .panic
  else match parameters.mapM columnTypeOf with
    | some types => return types
    | none => throw .panic

/-- Reads the parameters one after the other. -/
def deserializeParameters : List (DataType × ColumnType) → Parse (List ScalarValue)
  | [] => return []
  | (expected, declared) :: rest => do
    let value ← deserializeParameter castTo declared expected
    return value :: (← deserializeParameters rest)

/-- The parameter values of a packet that executes a statement, given the parameter types of the
prepared statements. -/
def handleExecute (statements : Nat → Option (List DataType)) (queryAttributes : Bool) :
    Parse (List ScalarValue) := do
  let statementId ← eatLe 4
  let some parameters := statements statementId
    | throw (.error (.unknownStatement statementId))
  let _flags ← eatLe 1
  let iterCount ← eatLe 4
  if iterCount ≠ 1 then throw .panic
  let parametersCount ← if queryAttributes then orFail .panic checkedEatLenencInt
    else pure parameters.length
  if parametersCount = 0 then return []
  -- The bitmap is read over.
  let _bitmap ← orFail (.error (.otherError "failed reading packet"))
    (checkedEat (NullBitmap.bitmapLen 0 parametersCount))
  let newParamsFlags ← eatLe 1
  let types ← declaredTypes queryAttributes parameters parametersCount newParamsFlags
  deserializeParameters castTo (parameters.zip types)

end Decoding

/-! ## The client -/

/-- The type of the values that a client sends as a column type. -/
def clientType : ColumnType → (unsigned : Bool) → Option DataType
  | .tiny, unsigned => some (.primitive (if unsigned then .uint8 else .int8))
  | .short, unsigned | .year, unsigned =>
    some (.primitive (if unsigned then .uint16 else .int16))
  | .int24, unsigned | .long, unsigned =>
    some (.primitive (if unsigned then .uint32 else .int32))
  | .longlong, unsigned => some (.primitive (if unsigned then .uint64 else .int64))
  | .float, _ => some (.primitive .float32)
  | .double, _ => some (.primitive .float64)
  | .varchar, _ | .json, _ | .string, _ | .varString, _ => some (.text .utf8)
  | .blob, _ | .tinyBlob, _ | .mediumBlob, _ | .longBlob, _ => some (.bytes .binary)
  | _, _ => none

/-- A value that a client sends as a column type. -/
structure Sendable (columnType : ColumnType) (unsigned : Bool) (value : ScalarValue) : Prop where
  typed : ∃ type, clientType columnType unsigned = some type ∧ value.hasType type
  notNull : value.isNull = false
  fits : contentLength value < 2 ^ 63

/-- A parameter of a client, none for a null. -/
structure ClientParameter where
  columnType : ColumnType
  unsigned : Bool
  value : Option ScalarValue

/-- A packet that executes a statement. -/
structure ExecutePacket where
  statementId : Nat
  flags : UInt8
  bitmap : Bytes
  newTypes : Bool
  parameters : List ClientParameter

namespace ExecutePacket

variable (packet : ExecutePacket)

def typeBytes (parameter : ClientParameter) : Bytes :=
  leBytes 2 (parameter.columnType.code + if parameter.unsigned then 32768 else 0)

def valueBytes (parameter : ClientParameter) : Bytes := parameter.value.elim [] serialize

/-- What follows the fixed part, if there are parameters. -/
def parameterBytes : Bytes :=
  packet.bitmap ++ (leBytes 1 (if packet.newTypes then 1 else 0) ++
    ((if packet.newTypes then packet.parameters.flatMap typeBytes else []) ++
      packet.parameters.flatMap valueBytes))

/-- The bytes of a packet, which executes the statement once. -/
def bytes : Bytes :=
  leBytes 4 packet.statementId ++ (leBytes 1 packet.flags.toNat ++ (leBytes 4 1 ++
    (if packet.parameters.isEmpty then [] else packet.parameterBytes)))

/-- A packet that fits a statement with some parameter types, after an earlier packet has possibly
bound column types. -/
structure WellFormed (bound : Option (List (ColumnType × Bool))) (types : List DataType) : Prop where
  statementId : packet.statementId < 2 ^ 32
  count : packet.parameters.length = types.length
  bitmapLength : packet.bitmap.length = NullBitmap.bitmapLen 0 packet.parameters.length
  bitmap : ∀ (index : Nat) (parameter : ClientParameter),
    packet.parameters[index]? = some parameter →
      (⟨packet.bitmap⟩ : NullBitmap 0).isNull index = parameter.value.isNone
  values : ∀ parameter ∈ packet.parameters, ∀ value, parameter.value = some value →
    Sendable parameter.columnType parameter.unsigned value
  /-- Types that are not sent are those that were bound. -/
  reused : packet.newTypes = false → packet.parameters ≠ [] →
    bound = some (packet.parameters.map fun parameter => (parameter.columnType, parameter.unsigned))

/-- The parameters that the client means, as values of the statement's types. -/
def intended (castTo : DataType → ScalarValue → Option ScalarValue) (types : List DataType) :
    Option (List ScalarValue) :=
  (types.zip packet.parameters).mapM fun pair => castTo pair.1 (pair.2.value.getD .null)

end ExecutePacket

open ExecutePacket

/-! ## Reading one parameter -/

def unsignedOf : PrimitiveType → Option PrimitiveType
  | .int8 => some .uint8
  | .int16 => some .uint16
  | .int32 => some .uint32
  | .int64 => some .uint64
  | _ => none

/-- What is used of the planner's casts: nulls stay nulls, and other values do not become nulls;
a cast to an unsigned type fails on a negative number and otherwise depends on the number only;
the bytes of a text become the text. -/
structure CastLaws (castTo : DataType → ScalarValue → Option ScalarValue) : Prop where
  null : ∀ type value, castTo type .null = some value → value.isNull
  notNull : ∀ type value result, castTo type value = some result → value.isNull = false →
    result.isNull = false
  negative : ∀ type, isUnsignedInteger type → ∀ (signed : PrimitiveType) (word : BitVec signed.width),
    (unsignedOf signed).isSome → word.toInt < 0 →
      castTo type (.primitive signed (some word)) = none
  number : ∀ type, isUnsignedInteger type → ∀ (signed unsigned : PrimitiveType)
    (word : BitVec signed.width) (other : BitVec unsigned.width),
    unsignedOf signed = some unsigned → 0 ≤ word.toInt → other.toNat = word.toNat →
      castTo type (.primitive unsigned (some other)) = castTo type (.primitive signed (some word))
  text : ∀ layout text, castTo (.text layout) (.bytes .binary (some (utf8Bytes text))) =
    castTo (.text layout) (.text .utf8 (some text))

theorem eatLe_leBytes {count value : Nat} (fits : value < 256 ^ count) (rest : Bytes) :
    eatLe count (leBytes count value ++ rest) = .ok (value, rest) := by
  rw [eatLe, orFail, eatNat_leBytes fits]

theorem eatValue_serialize (word : BitVec type.width) (rest : Bytes) :
    eatValue type (leBytes type.bytes word.toNat ++ rest) =
      .ok (.primitive type (some word), rest) := by
  refine bind_ok ?_
  rw [orFail, eatPrimitive_leBytes]

theorem readByteArray_lenencStr {content : Bytes} (fits : content.length < 2 ^ 63)
    (rest : Bytes) : readByteArray (lenencStr content ++ rest) = .ok (content, rest) := by
  rw [readByteArray, orFail, checkedEatLenencStr_lenencStr (Nat.lt_trans fits (by decide))]

theorem exists_word (typed : value.hasType (.primitive type)) (notNull : value.isNull = false) :
    ∃ word, value = .primitive type (some word) := by
  cases value with
  | primitive other content =>
    have same := of_decide_eq_true typed
    subst same
    obtain ⟨word, rfl⟩ := isSome_iff_exists.mp (isNone_eq_false_iff.mp notNull)
    exact ⟨word, rfl⟩
  | _ => cases typed

variable {declared : ColumnType}

theorem readDeclared_serialize (sendable : Sendable declared unsigned value) (rest : Bytes) :
    readDeclared unsigned declared (serialize value ++ rest) = .ok (value, rest) := by
  obtain ⟨⟨type, isType, typed⟩, notNull, fits⟩ := sendable
  have word : ∀ {primitive : PrimitiveType}, type = .primitive primitive →
      eatValue primitive (serialize value ++ rest) = .ok (value, rest) := by
    rintro primitive rfl
    obtain ⟨word, rfl⟩ := exists_word typed notNull
    exact eatValue_serialize word rest
  -- A number is a word of the type, texts and byte strings have an encoded length.
  cases declared with
  | tiny | short | year | int24 | long | longlong =>
    cases unsigned <;> exact word (some.inj isType).symm
  | float | double => exact word (some.inj isType).symm
  | varchar | json | string | varString =>
    cases isType
    cases value with
    | text layout content =>
      cases of_decide_eq_true typed
      obtain ⟨text, rfl⟩ := isSome_iff_exists.mp (isNone_eq_false_iff.mp notNull)
      refine (bind_ok (readByteArray_lenencStr fits rest)).trans ?_
      rw [textOfUtf8_utf8Bytes]
      rfl
    | _ => cases typed
  | blob | tinyBlob | mediumBlob | longBlob =>
    cases isType
    cases value with
    | bytes layout content =>
      cases of_decide_eq_true typed
      obtain ⟨bytes, rfl⟩ := isSome_iff_exists.mp (isNone_eq_false_iff.mp notNull)
      exact bind_ok (readByteArray_lenencStr fits rest)
    | _ => cases typed
  | _ => cases isType

theorem readDeclared_notNull {bytes rest : Bytes}
    (read : readDeclared unsigned declared bytes = .ok (value, rest))
    (notDeclared : declared ≠ .null) : value.isNull = false := by
  have word : ∀ {type : PrimitiveType}, eatValue type bytes = .ok (value, rest) →
      value.isNull = false := by
    intro type read
    obtain ⟨word, left, _, result⟩ := of_bind_ok read
    cases result
    rfl
  cases declared with
  | null => exact absurd rfl notDeclared
  | bit | blob | tinyBlob | mediumBlob | longBlob =>
    obtain ⟨content, left, _, result⟩ := of_bind_ok read
    cases result
    rfl
  | tiny | short | year | int24 | long | longlong => cases unsigned <;> exact word read
  | float | double => exact word read
  | varchar | json | string | varString =>
    obtain ⟨content, left, _, result⟩ := of_bind_ok read
    cases isText : textOfUtf8 content with
    | none =>
      rw [isText] at result
      cases result
    | some text =>
      rw [isText] at result
      cases result
      rfl
  | _ => cases read

section Parameters

variable {castTo : DataType → ScalarValue → Option ScalarValue} {parameters : List ClientParameter}
  {values : List ScalarValue} {result : ScalarValue}

/-- What a cast gives, or the error that it is answered with. -/
def casted {α : Type} : Option α → Except Failure α
  | some value => .ok value
  | none => .error (.error .cast)

theorem deserializeParameter_of_read {bytes rest : Bytes} {column : ScalarValue}
    (read : readDeclared (isUnsignedInteger expected) declared bytes = .ok (column, rest)) :
    deserializeParameter castTo declared expected bytes =
      (casted (castTo expected column)).map (·, rest) := by
  refine (bind_ok read).trans ?_
  cases castTo expected column <;> rfl

/-- A negative number is sent for a parameter of an unsigned type. -/
def Wraps (expected : DataType) (value : ScalarValue) : Prop :=
  isUnsignedInteger expected ∧ ∃ (signed : PrimitiveType) (word : BitVec signed.width),
    value = .primitive signed (some word) ∧ (unsignedOf signed).isSome ∧ word.toInt < 0

theorem not_wraps_of_cast (laws : CastLaws castTo) (cast : castTo expected value = some result) :
    ¬ Wraps expected value := by
  rintro ⟨unsigned, signed, word, rfl, counterpart, negative⟩
  rw [laws.negative expected unsigned signed word counterpart negative] at cast
  cases cast

theorem deserializeParameter_signed (laws : CastLaws castTo)
    (sendable : Sendable declared false value) (fits : ¬ Wraps expected value)
    (rest : Bytes) :
    deserializeParameter castTo declared expected (serialize value ++ rest) =
      (casted (castTo expected value)).map (·, rest) := by
  by_cases unsigned : isUnsignedInteger expected
  · -- An integer is read as its unsigned counterpart; it is not negative.
    have reread : ∀ {signed counterpart : PrimitiveType},
        value.hasType (.primitive signed) → unsignedOf signed = some counterpart →
        (same : signed.bytes = counterpart.bytes) →
        readDeclared true declared = eatValue counterpart →
        deserializeParameter castTo declared expected (serialize value ++ rest) =
          (casted (castTo expected value)).map (·, rest) := by
      intro signed counterpart typed isUnsigned same reads
      obtain ⟨word, rfl⟩ := exists_word typed sendable.notNull
      have positive : 0 ≤ word.toInt := by
        by_contra negative
        exact fits ⟨unsigned, signed, word, rfl, by rw [isUnsigned]; rfl, by omega⟩
      have width : counterpart.width = signed.width := by
        rw [PrimitiveType.width, PrimitiveType.width, same]
      have sameNumber : (word.cast width.symm).toNat = word.toNat := BitVec.toNat_cast _ _
      rw [← laws.number expected unsigned signed counterpart word (word.cast width.symm)
        isUnsigned positive sameNumber]
      apply deserializeParameter_of_read
      rw [unsigned, reads, serialize, same, ← sameNumber]
      exact eatValue_serialize (word.cast width.symm) rest
    -- Other types do not depend on the sign.
    have other : clientType declared true = clientType declared false →
        deserializeParameter castTo declared expected (serialize value ++ rest) =
          (casted (castTo expected value)).map (·, rest) := by
      intro same
      apply deserializeParameter_of_read
      rw [unsigned]
      exact readDeclared_serialize ⟨same ▸ sendable.typed, sendable.notNull, sendable.fits⟩ rest
    obtain ⟨type, isType, typed⟩ := sendable.typed
    cases declared with
    | tiny | short | year | int24 | long | longlong =>
      cases isType
      exact reread typed rfl rfl rfl
    | _ => exact other rfl
  · apply deserializeParameter_of_read
    rw [Bool.not_eq_true] at unsigned
    rw [unsigned]
    exact readDeclared_serialize sendable rest

/-- The result of a parser without what is left of the packet. -/
def resultOf {α : Type} (parse : Parse α) (bytes : Bytes) : Except Failure α :=
  (parse bytes).map Prod.fst

theorem deserializeParameters_cons {rest : List (DataType × ColumnType)} {bytes left : Bytes}
    (read : deserializeParameter castTo declared expected bytes = .ok (value, left)) :
    resultOf (deserializeParameters castTo ((expected, declared) :: rest)) bytes =
      (resultOf (deserializeParameters castTo rest) left).map (value :: ·) := by
  refine (congrArg (Except.map Prod.fst) (bind_ok read)).trans ?_
  rw [resultOf]
  cases tail : deserializeParameters castTo rest left with
  | error failure => exact congrArg (Except.map Prod.fst) (bind_error tail)
  | ok result => exact congrArg (Except.map Prod.fst) (bind_ok tail)

theorem of_map_cons {parsed : Except Failure (List ScalarValue)} {first : ScalarValue}
    (decoded : parsed.map (value :: ·) = .ok (first :: values)) :
    value = first ∧ parsed = .ok values := by
  cases parsed with
  | error failure => cases decoded
  | ok list =>
    cases decoded
    exact ⟨rfl, rfl⟩

/-- A parameter that is read up to its cast is decoded before the others. -/
theorem deserializeParameters_casted {pairs : List (DataType × ColumnType)}
    {bytes left : Bytes} {first : Option ScalarValue} {rest : Option (List ScalarValue)}
    (read : deserializeParameter castTo declared expected bytes = (casted first).map (·, left))
    (tail : resultOf (deserializeParameters castTo pairs) left = casted rest) :
    resultOf (deserializeParameters castTo ((expected, declared) :: pairs)) bytes =
      casted (do return (← first) :: (← rest)) := by
  cases first with
  | none => exact congrArg (Except.map Prod.fst) (bind_error read)
  | some value =>
    rw [deserializeParameters_cons read, tail]
    cases rest <;> rfl

/-- New types decode the values that are sent, but negative numbers of unsigned parameters, and the
nulls that are declared to be nulls. -/
theorem deserializeParameters_new (laws : CastLaws castTo) {types : List DataType}
    (count : parameters.length = types.length)
    (declared : ∀ parameter ∈ parameters, parameter.unsigned = false ∧
      (parameter.value = none → parameter.columnType = .null))
    (sendable : ∀ parameter ∈ parameters, ∀ value, parameter.value = some value →
      Sendable parameter.columnType parameter.unsigned value)
    (fits : ∀ pair ∈ types.zip parameters, ∀ value, pair.2.value = some value →
      ¬ Wraps pair.1 value) :
    resultOf (deserializeParameters castTo (types.zip (parameters.map (·.columnType))))
        (parameters.flatMap valueBytes) =
      casted ((types.zip parameters).mapM fun pair =>
        castTo pair.1 (pair.2.value.getD .null)) := by
  induction parameters generalizing types with
  | nil =>
    have noTypes : types = [] := length_eq_zero_iff.mp count.symm
    subst noTypes
    rfl
  | cons parameter others ih =>
    cases types with
    | nil => cases count
    | cons expected types =>
      rw [zip_cons_cons, forall_mem_cons] at fits
      have tail := ih (by simpa using count) (forall_mem_cons.mp declared).2
        (forall_mem_cons.mp sendable).2 fits.2
      obtain ⟨signed, null⟩ := declared parameter mem_cons_self
      have read : deserializeParameter castTo parameter.columnType expected
          (valueBytes parameter ++ others.flatMap valueBytes) =
            (casted (castTo expected (parameter.value.getD .null))).map
              (·, others.flatMap valueBytes) := by
        rw [valueBytes]
        cases isValue : parameter.value with
        | none =>
          rw [null isValue]
          exact deserializeParameter_of_read rfl
        | some value =>
          have sent := sendable parameter mem_cons_self value isValue
          rw [signed] at sent
          exact deserializeParameter_signed laws sent (fits.1 value isValue) _
      rw [map_cons, zip_cons_cons, zip_cons_cons, flatMap_cons, mapM_cons]
      exact deserializeParameters_casted read tail

/-- A null that is not declared to be one is not decoded. -/
theorem notNull_of_deserialized (laws : CastLaws castTo) {bytes left : Bytes}
    (read : deserializeParameter castTo declared expected bytes = .ok (value, left))
    (notDeclared : declared ≠ .null) : value.isNull = false := by
  obtain ⟨column, middle, isColumn, casted⟩ := of_bind_ok read
  cases cast : castTo expected column with
  | none =>
    rw [cast] at casted
    cases casted
  | some result =>
    rw [cast] at casted
    cases casted
    exact laws.notNull expected column value cast (readDeclared_notNull isColumn notDeclared)

theorem declared_of_deserialized (laws : CastLaws castTo) {types : List DataType}
    (count : parameters.length = types.length)
    (signed : ∀ parameter ∈ parameters, parameter.unsigned = false)
    (sendable : ∀ parameter ∈ parameters, ∀ value, parameter.value = some value →
      Sendable parameter.columnType parameter.unsigned value)
    (intended : (types.zip parameters).mapM
      (fun pair => castTo pair.1 (pair.2.value.getD .null)) = some values)
    (decoded : resultOf (deserializeParameters castTo (types.zip (parameters.map (·.columnType))))
      (parameters.flatMap valueBytes) = .ok values) :
    ∀ parameter ∈ parameters, parameter.value = none → parameter.columnType = .null := by
  induction parameters generalizing types values with
  | nil => exact forall_mem_nil _
  | cons parameter others ih =>
    cases types with
    | nil => cases count
    | cons expected types =>
      simp only [zip_cons_cons, mapM_cons, bind_some_iff, Option.pure_def,
        Option.some.injEq] at intended
      obtain ⟨first, castFirst, rest, castRest, rfl⟩ := intended
      rw [map_cons, zip_cons_cons, flatMap_cons] at decoded
      -- Once the parameter is read, the others are decoded from what is left.
      have later : ∀ {value}, deserializeParameter castTo parameter.columnType expected
          (valueBytes parameter ++ others.flatMap valueBytes) =
            .ok (value, others.flatMap valueBytes) →
          ∀ other ∈ others, other.value = none → other.columnType = .null := by
        intro value read
        rw [deserializeParameters_cons read] at decoded
        exact ih (by simpa using count) (forall_mem_cons.mp signed).2
          (forall_mem_cons.mp sendable).2 castRest (of_map_cons decoded).2
      refine forall_mem_cons.mpr ?_
      cases isValue : parameter.value with
      | some value =>
        have sent := sendable parameter mem_cons_self value isValue
        rw [signed parameter mem_cons_self] at sent
        rw [isValue, Option.getD_some] at castFirst
        refine ⟨nofun, @later first ?_⟩
        rw [valueBytes, isValue]
        refine (deserializeParameter_signed laws sent (not_wraps_of_cast laws castFirst) _).trans ?_
        rw [castFirst]
        rfl
      | none =>
        rw [isValue, Option.getD_none] at castFirst
        have bytes : valueBytes parameter = [] := by
          rw [valueBytes, isValue]
          rfl
        by_cases declared : parameter.columnType = .null
        · refine ⟨fun _ => declared, @later first ?_⟩
          rw [bytes, declared]
          refine (deserializeParameter_of_read rfl).trans ?_
          rw [castFirst]
          rfl
        · -- Anything else is read as a value, which is not the null.
          exfalso
          cases read : deserializeParameter castTo parameter.columnType expected
              (valueBytes parameter ++ others.flatMap valueBytes) with
          | error failure =>
            cases (congrArg (Except.map Prod.fst) (bind_error read)).symm.trans decoded
          | ok result =>
            obtain ⟨value, left⟩ := result
            rw [deserializeParameters_cons read] at decoded
            have isNull := laws.null expected first castFirst
            rw [← (of_map_cons decoded).1, notNull_of_deserialized laws read declared] at isNull
            cases isNull

/-! ## Types of the packet -/

theorem readTypes_typeBytes (parameters : List ClientParameter) (rest : Bytes) :
    readTypes false parameters.length (parameters.flatMap ExecutePacket.typeBytes ++ rest) =
      if parameters.all (fun parameter => !parameter.unsigned) then
        .ok (parameters.map (·.columnType), rest)
      else .error .panic := by
  induction parameters with
  | nil => rfl
  | cons parameter others ih =>
    obtain ⟨found, small⟩ := ColumnType.tryFrom_code parameter.columnType
    rw [length_cons, flatMap_cons, append_assoc, readTypes]
    refine (bind_ok (eatLe_leBytes (by split <;> omega) _)).trans ?_
    cases unsigned : parameter.unsigned with
    | true =>
      have large : ¬ parameter.columnType.code + 32768 < 256 := by omega
      simp [unsigned, large]
      rfl
    | false =>
      have isType : (if parameter.columnType.code + 0 < 256 then
          ColumnType.tryFrom (parameter.columnType.code + 0) else none) =
            some parameter.columnType := by
        rw [Nat.add_zero, if_pos small, found]
      simp only [Bool.false_eq_true, if_false, isType]
      rw [all_cons, unsigned, Bool.not_false, Bool.true_and]
      by_cases signed : others.all fun other => !other.unsigned
      · rw [if_pos signed] at ih ⊢
        exact bind_ok ih
      · rw [if_neg signed] at ih ⊢
        exact bind_error ih

/-- The column type of a statement's parameter type reads what the client sends: the value has the
wire type and signedness of the statement's type, or is a text where the statement expects one. -/
def ReadsReused (expected : DataType) (parameter : ClientParameter) : Prop :=
  ∃ declared, columnTypeOf expected = some declared ∧
    match parameter.value with
    | none => declared = .null
    | some value => Sendable declared (isUnsignedInteger expected) value ∨
      declared = .longBlob ∧ ∃ layout text, expected = .text layout ∧
        value = .text .utf8 (some text) ∧ (utf8Bytes text).length < 2 ^ 63

theorem deserializeParameter_reused (laws : CastLaws castTo) {parameter : ClientParameter}
    (isDeclared : columnTypeOf expected = some declared) (reads : ReadsReused expected parameter)
    (rest : Bytes) :
    deserializeParameter castTo declared expected (ExecutePacket.valueBytes parameter ++ rest) =
      (casted (castTo expected (parameter.value.getD .null))).map (·, rest) := by
  obtain ⟨same, isSame, reads⟩ := reads
  rw [isDeclared, some.injEq] at isSame
  subst isSame
  rw [valueBytes]
  cases isValue : parameter.value with
  | none =>
    rw [isValue] at reads
    have null : declared = .null := reads
    rw [null]
    exact deserializeParameter_of_read rfl
  | some value =>
    rw [isValue] at reads
    rcases reads with sendable | ⟨rfl, layout, text, rfl, rfl, fits⟩
    · exact deserializeParameter_of_read (readDeclared_serialize sendable rest)
    · have read : readDeclared false .longBlob (lenencStr (utf8Bytes text) ++ rest) =
          .ok (.bytes .binary (some (utf8Bytes text)), rest) :=
        bind_ok (readByteArray_lenencStr fits rest)
      rw [Option.getD_some, ← laws.text layout text]
      exact deserializeParameter_of_read read

theorem deserializeParameters_reused (laws : CastLaws castTo) {types : List DataType}
    (count : parameters.length = types.length)
    (reads : ∀ pair ∈ types.zip parameters, ReadsReused pair.1 pair.2) :
    ∃ declared, types.mapM columnTypeOf = some declared ∧
      resultOf (deserializeParameters castTo (types.zip declared))
          (parameters.flatMap ExecutePacket.valueBytes) =
        casted ((types.zip parameters).mapM fun pair =>
          castTo pair.1 (pair.2.value.getD .null)) := by
  induction types generalizing parameters with
  | nil =>
    have noParameters : parameters = [] := length_eq_zero_iff.mp count
    subst noParameters
    exact ⟨[], rfl, rfl⟩
  | cons expected types ih =>
    cases parameters with
    | nil => cases count
    | cons parameter others =>
      rw [zip_cons_cons, forall_mem_cons] at reads
      obtain ⟨declared, isDeclared, _⟩ := reads.1
      obtain ⟨declaredRest, areDeclared, decodedRest⟩ := ih (by simpa using count) reads.2
      refine ⟨declared :: declaredRest, by simp [isDeclared, areDeclared], ?_⟩
      rw [zip_cons_cons, zip_cons_cons, flatMap_cons, mapM_cons]
      exact deserializeParameters_casted
        (deserializeParameter_reused laws isDeclared reads.1 _) decodedRest

/-! ## Whole packets -/

theorem handleExecute_bytes {statements : Nat → Option (List DataType)} {packet : ExecutePacket}
    {bound : Option (List (ColumnType × Bool))} {types : List DataType}
    (isStatement : statements packet.statementId = some types)
    (wellFormed : packet.WellFormed bound types) :
    handleExecute castTo statements false packet.bytes =
      if types = [] then .ok ([], []) else
        (declaredTypes false types types.length (if packet.newTypes then 1 else 0) >>=
          fun declared => deserializeParameters castTo (types.zip declared))
          ((if packet.newTypes then packet.parameters.flatMap ExecutePacket.typeBytes else []) ++
            packet.parameters.flatMap ExecutePacket.valueBytes) := by
  have id : packet.statementId < 256 ^ 4 := wellFormed.statementId
  rw [handleExecute, bytes]
  refine (bind_ok (eatLe_leBytes id _)).trans ?_
  rw [isStatement]
  refine (bind_ok (eatLe_leBytes packet.flags.toNat_lt _)).trans ?_
  refine (bind_ok (eatLe_leBytes (by decide) _)).trans ?_
  by_cases noTypes : types = []
  · have noParameters : packet.parameters = [] := by
      have count := wellFormed.count
      rw [noTypes] at count
      exact length_eq_zero_iff.mp count
    rw [if_pos noTypes, noTypes, noParameters]
    rfl
  · have count := wellFormed.count
    have some_ : types.length ≠ 0 := by simpa using noTypes
    have parameters : packet.parameters.isEmpty = false := by
      cases empty : packet.parameters with
      | nil =>
        rw [empty] at count
        exact absurd count.symm some_
      | cons => rfl
    rw [if_neg noTypes, parameters, if_neg Bool.false_ne_true, parameterBytes]
    simp only [ne_eq, not_true_eq_false, if_false, Bool.false_eq_true, some_, pure_bind]
    have bitmap : packet.bitmap.length = NullBitmap.bitmapLen 0 types.length := by
      rw [wellFormed.bitmapLength, count]
    refine (bind_ok (show orFail _ (checkedEat _) _ = _ by
      rw [orFail, checkedEat_append bitmap])).trans ?_
    have flag : (if packet.newTypes then 1 else 0) < 256 ^ 1 := by split <;> decide
    exact bind_ok (eatLe_leBytes flag _)

variable (castTo) in
/-- The parameters that the client means are decoded; one that is no value of the statement's type
is answered with the error of its cast. -/
def Decodes (statements : Nat → Option (List DataType)) (packet : ExecutePacket)
    (types : List DataType) : Prop :=
  resultOf (handleExecute castTo statements false) packet.bytes =
    casted (packet.intended castTo types)

end Parameters

/-! ## A small cast -/

/-- Numbers are cast to numbers, bytes to texts, and any other value to its own type. -/
def smallCast (type : DataType) (value : ScalarValue) : Option ScalarValue :=
  if value.isNull then some .null
  else match type, value with
    | .primitive target, .primitive source (some word) =>
      match source.key word with
      | some key =>
        if isUnsignedInteger (.primitive target) ∧ key < 0 then none
        else some (.primitive target (some (BitVec.ofInt target.width key)))
      | none => none
    | .text layout, .bytes _ (some bytes) =>
      (textOfUtf8 bytes).map fun text => .text layout (some text)
    | .text layout, .text _ (some text) => some (.text layout (some text))
    | type, value => if value.hasType type then some value else none

theorem keys_of_unsignedOf {signed unsigned : PrimitiveType}
    (counterpart : unsignedOf signed = some unsigned) (word : BitVec signed.width)
    (other : BitVec unsigned.width) :
    signed.key word = some word.toInt ∧ unsigned.key other = some (other.toNat : Int) := by
  cases signed <;> cases counterpart <;> exact ⟨rfl, rfl⟩

theorem smallCast_laws : CastLaws smallCast where
  null type value cast := by
    cases cast
    rfl
  notNull type value result cast notNull := by
    unfold smallCast at cast
    rw [if_neg (by rw [notNull]; exact Bool.false_ne_true)] at cast
    split at cast
    case h_1 =>
      split at cast
      · split at cast <;> cases cast
        rfl
      · cases cast
    case h_2 =>
      obtain ⟨text, _, rfl⟩ := map_eq_some_iff.mp cast
      rfl
    case h_3 =>
      cases cast
      rfl
    case h_4 =>
      split at cast <;> cases cast
      exact notNull
  negative type unsigned signed word counterpart negative := by
    obtain ⟨target, isTarget⟩ := isSome_iff_exists.mp counterpart
    have key := (keys_of_unsignedOf isTarget word 0).1
    cases type with
    | primitive target =>
      simp only [smallCast, ScalarValue.isNull, isNone_some, Bool.false_eq_true, if_false, key]
      rw [if_pos ⟨unsigned, negative⟩]
    | _ => cases unsigned
  number type unsigned signed target word other counterpart positive same := by
    obtain ⟨signedKey, unsignedKey⟩ := keys_of_unsignedOf counterpart word other
    have number : word.toInt = (other.toNat : Int) := by
      rw [same]
      have cond := BitVec.toInt_eq_toNat_cond word
      have bound := word.isLt
      split at cond <;> omega
    cases type with
    | primitive type =>
      simp only [smallCast, ScalarValue.isNull, isNone_some, Bool.false_eq_true, if_false,
        signedKey, unsignedKey, number]
    | _ => cases unsigned
  text layout text := by
    simp [smallCast, ScalarValue.isNull]

def oneStatement (types : List DataType) : Nat → Option (List DataType) :=
  fun id => if id = 1 then some types else none

def numberAndText : ExecutePacket :=
  ⟨1, 0, [0], true, [⟨.long, false, some (.primitive .int32 (some 5))⟩,
    ⟨.varString, false, some (.text .utf8 (some "a"))⟩]⟩

end SecureFusion.Frontend
