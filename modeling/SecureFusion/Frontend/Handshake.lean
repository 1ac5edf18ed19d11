import SecureFusion.Frontend.Wire
import Mathlib.Algebra.BigOperators.Group.Multiset.Basic

/-!
# The handshake response of a client

The layout of the response follows from the capabilities that client and server share.
The proxy chooses the layout of the authentication response, and whether a plugin name
and connection attributes follow, by its own capabilities only; it then reads a
different layout from the one that a client without these capabilities writes.
-/

namespace SecureFusion.Frontend

open Library List Outcome

variable {rest response : Bytes} {entries : List (Bytes × Bytes)} {tail : Bytes}
  {rounds : Nat} {α : Type} {read : Option α} {value : α} (bytes : Bytes)

/-! ## Capabilities -/

abbrev CapabilityFlags := BitVec 32

namespace CapabilityFlags

def clientLongPassword : CapabilityFlags := 0x00000001
def clientLongFlag : CapabilityFlags := 0x00000004
def clientConnectWithDb : CapabilityFlags := 0x00000008
def clientLocalFiles : CapabilityFlags := 0x00000080
def clientProtocol41 : CapabilityFlags := 0x00000200
def clientInteractive : CapabilityFlags := 0x00000400
def clientTransactions : CapabilityFlags := 0x00002000
def clientSecureConnection : CapabilityFlags := 0x00008000
def clientMultiStatements : CapabilityFlags := 0x00010000
def clientMultiResults : CapabilityFlags := 0x00020000
def clientPsMultiResults : CapabilityFlags := 0x00040000
def clientPluginAuth : CapabilityFlags := 0x00080000
def clientConnectAttrs : CapabilityFlags := 0x00100000
def clientPluginAuthLenencClientData : CapabilityFlags := 0x00200000
def clientCanHandleExpiredPasswords : CapabilityFlags := 0x00400000
def clientSessionTrack : CapabilityFlags := 0x00800000

/-- Whether all flags of the second set are in the first. -/
def contains (flags wanted : CapabilityFlags) : Bool := flags &&& wanted == wanted

theorem contains_and (first second wanted : CapabilityFlags) :
    contains (first &&& second) wanted = (contains first wanted && contains second wanted) := by
  rw [Bool.eq_iff_iff, Bool.and_eq_true]
  simp only [contains, beq_iff_eq]
  constructor
  · intro both
    constructor
    · calc first &&& wanted = first &&& (first &&& second &&& wanted) := by rw [both]
        _ = first &&& second &&& wanted := by
          rw [← BitVec.and_assoc, ← BitVec.and_assoc, BitVec.and_self]
        _ = wanted := both
    · calc second &&& wanted = second &&& (first &&& second &&& wanted) := by rw [both]
        _ = first &&& second &&& wanted := by
          rw [BitVec.and_comm first, ← BitVec.and_assoc, ← BitVec.and_assoc, BitVec.and_self]
        _ = wanted := both
  · rintro ⟨inFirst, inSecond⟩
    rw [BitVec.and_assoc, inSecond, inFirst]

end CapabilityFlags

open CapabilityFlags

/-- What a client must support. -/
def requiredCapabilities : CapabilityFlags := clientProtocol41 ||| clientPluginAuth

/-- What the proxy offers to a client. -/
def supportedCapabilities : CapabilityFlags :=
  requiredCapabilities ||| clientLongPassword ||| clientLongFlag ||| clientConnectWithDb |||
    clientLocalFiles ||| clientInteractive ||| clientTransactions ||| clientSecureConnection |||
    clientMultiStatements ||| clientMultiResults ||| clientPsMultiResults |||
    clientConnectAttrs ||| clientPluginAuthLenencClientData |||
    clientCanHandleExpiredPasswords ||| clientSessionTrack

/-! ## Reading -/

/-- How reading a packet fails. -/
inductive ReadFailure where
  | unexpectedEof
  | invalidData
  | panic (message : String)
deriving DecidableEq, Repr

def orEof {α : Type} : Option α → Except ReadFailure α
  | none => .error .unexpectedEof
  | some value => .ok value

def orInvalid {α : Type} : Option α → Except ReadFailure α
  | none => .error .invalidData
  | some value => .ok value

theorem ok_of_orEof (succeeds : orEof read = .ok value) : read = some value := by
  cases read with
  | none => cases succeeds
  | some found => cases succeeds; rfl

theorem ok_of_orInvalid (succeeds : orInvalid read = .ok value) : read = some value := by
  cases read with
  | none => cases succeeds
  | some found => cases succeeds; rfl

/-- The response to the challenge, as it is written. -/
inductive ScrambleBuf where
  | nullTerminated (bytes : Bytes)
  | lenEncoded (bytes : Bytes)
  | fixedLength (bytes : Bytes)
deriving DecidableEq, Repr

def ScrambleBuf.asBytes : ScrambleBuf → Bytes
  | nullTerminated bytes => bytes
  | lenEncoded bytes => bytes
  | fixedLength bytes => bytes

/-- The authentication plugins that have a name of their own in the library. -/
inductive AuthPlugin where
  | mysqlOldPassword
  | mysqlClearPassword
  | mysqlNativePassword
  | cachingSha2Password
  | ed25519
  | other (name : Bytes)
deriving DecidableEq, Repr

namespace AuthPlugin

def asBytes : AuthPlugin → Bytes
  | mysqlOldPassword => utf8Bytes "mysql_old_password"
  | mysqlClearPassword => utf8Bytes "mysql_clear_password"
  | mysqlNativePassword => utf8Bytes "mysql_native_password"
  | cachingSha2Password => utf8Bytes "caching_sha2_password"
  | ed25519 => utf8Bytes "client_ed25519"
  | other name => name

def fromBytes (name : Bytes) : AuthPlugin :=
  if name = cachingSha2Password.asBytes then cachingSha2Password
  else if name = mysqlNativePassword.asBytes then mysqlNativePassword
  else if name = mysqlOldPassword.asBytes then mysqlOldPassword
  else if name = mysqlClearPassword.asBytes then mysqlClearPassword
  else if name = ed25519.asBytes then ed25519
  else other name

@[simp] theorem asBytes_fromBytes (name : Bytes) : (fromBytes name).asBytes = name := by
  unfold fromBytes
  split_ifs with sha2 native old clear ed25519
  · exact sha2.symm
  · exact native.symm
  · exact old.symm
  · exact clear.symm
  · exact ed25519.symm
  · rfl

end AuthPlugin

abbrev ConnectAttributes := Multiset (Bytes × Bytes)

/-- Puts an entry into the map in the place of one with the same key. -/
def ConnectAttributes.insert (attrs : ConnectAttributes) (key value : Bytes) :
    ConnectAttributes :=
  (key, value) ::ₘ attrs.filter (·.1 ≠ key)

/-- The handshake response as the proxy reads it. -/
structure CustomClientHandshake where
  capabilities : CapabilityFlags
  maxPacketSize : Nat
  collation : UInt8
  scrambleBuf : ScrambleBuf
  user : Bytes
  dbName : Option Bytes
  authPlugin : Option AuthPlugin
  connectAttributes : Option ConnectAttributes

/-- Reads entries while data is left; each takes two bytes at least, so that as many rounds as
there are bytes are enough. -/
def deserializeEntries : Nat → Bytes → ConnectAttributes →
    Except ReadFailure ConnectAttributes
  | 0, _, attrs => .ok attrs
  | rounds + 1, data, attrs =>
    if data = [] then .ok attrs
    else do
      let (key, data) ← orEof (checkedEatLenencStr data)
      let (value, data) ← orEof (checkedEatLenencStr data)
      deserializeEntries rounds data (attrs.insert key value)

/-- Reads the connection attributes after their length. -/
def deserializeConnectAttrs (buf : Bytes) :
    Except ReadFailure (ConnectAttributes × Bytes) := do
  let (dataLen, buf) ← orEof (checkedEatLenencInt buf)
  let (data, buf) ← orEof (checkedEat dataLen buf)
  let attrs ← deserializeEntries data.length data 0
  .ok (attrs, buf)

/-- Reads the response to the challenge in the layout that the server's capabilities give. -/
def deserializeScramble (serverCap : CapabilityFlags) (buf : Bytes) :
    Except ReadFailure (ScrambleBuf × Bytes) :=
  if serverCap.contains clientPluginAuthLenencClientData then do
    let (bytes, buf) ← orEof (checkedEatLenencStr buf)
    .ok (.lenEncoded bytes, buf)
  else if serverCap.contains clientSecureConnection then do
    let (length, buf) ← orEof (eatNat 1 buf)
    let (bytes, buf) ← orEof (checkedEat length buf)
    .ok (.fixedLength bytes, buf)
  else do
    let (bytes, buf) ← orInvalid (eatNullBytes buf)
    .ok (.nullTerminated bytes, buf)

/-- Reads the name of the database if both sides have the capability. -/
def deserializeDbName (sharedFlags : CapabilityFlags) (buf : Bytes) :
    Except ReadFailure (Option Bytes × Bytes) :=
  if sharedFlags.contains clientConnectWithDb then do
    let (name, buf) ← orInvalid (eatNullBytes buf)
    .ok (some name, buf)
  else .ok (none, buf)

/-- Reads the authentication plugin if the server has the capability. -/
def deserializeAuthPlugin (serverCap : CapabilityFlags) (buf : Bytes) :
    Option AuthPlugin × Bytes :=
  if serverCap.contains clientPluginAuth then
    let (authPluginName, buf) := eatNullStr buf
    (some (AuthPlugin.fromBytes authPluginName), buf)
  else (none, buf)

/-- Reads the connection attributes if the server has the capability. -/
def deserializeAttributes (serverCap : CapabilityFlags) (buf : Bytes) :
    Except ReadFailure (Option ConnectAttributes × Bytes) :=
  if serverCap.contains clientConnectAttrs then do
    let (attrs, buf) ← deserializeConnectAttrs buf
    .ok (some attrs, buf)
  else .ok (none, buf)

/-- Reads a handshake response. The library rejects flags that it does not know, and the proxy
unwraps its answer. -/
def CustomClientHandshake.deserialize (known serverCap : CapabilityFlags) (buf : Bytes) :
    Except ReadFailure (CustomClientHandshake × Bytes) := do
  let (sbuf, buf) ← orEof (checkedEat (4 + 4 + 1 + 23) buf)
  let clientFlags : CapabilityFlags := BitVec.ofNat 32 (ofLeBytes (sbuf.take 4))
  let maxPacketSize := ofLeBytes ((sbuf.drop 4).take 4)
  let collation := sbuf.getD 8 0
  if clientFlags &&& ~~~known ≠ 0 then
    .error (.panic "called Result::unwrap() on an Err value: UnknownCapabilityFlags")
  else if clientFlags.contains clientProtocol41 then do
    let sharedFlags := clientFlags &&& serverCap
    let (user, buf) ← orInvalid (eatNullBytes buf)
    let (scrambleBuf, buf) ← deserializeScramble serverCap buf
    let (dbName, buf) ← deserializeDbName sharedFlags buf
    let (authPlugin, buf) := deserializeAuthPlugin serverCap buf
    let (connectAttributes, buf) ← deserializeAttributes serverCap buf
    .ok ({ capabilities := clientFlags, maxPacketSize, collation, scrambleBuf, user, dbName,
           authPlugin, connectAttributes }, buf)
  else .error .invalidData

/-! ## Writing -/

/-- The layouts of the response to the challenge. -/
inductive AuthLayout where
  | lenEncoded
  | fixedLength
  | nullTerminated
deriving DecidableEq, Repr

/-- The layout of the authentication response. -/
def authLayout (flags : CapabilityFlags) : AuthLayout :=
  if flags.contains clientPluginAuthLenencClientData then .lenEncoded
  else if flags.contains clientSecureConnection then .fixedLength
  else .nullTerminated

def AuthLayout.encode (response : Bytes) : AuthLayout → Bytes
  | lenEncoded => lenencStr response
  | fixedLength => leBytes 1 response.length ++ response
  | nullTerminated => nullStr response

def AuthLayout.Fits (response : Bytes) : AuthLayout → Prop
  | lenEncoded => response.length < 2 ^ 64
  | fixedLength => response.length < 256
  | nullTerminated => 0 ∉ response

instance (response : Bytes) : (layout : AuthLayout) → Decidable (layout.Fits response)
  | .lenEncoded => inferInstanceAs (Decidable (response.length < 2 ^ 64))
  | .fixedLength => inferInstanceAs (Decidable (response.length < 256))
  | .nullTerminated => inferInstanceAs (Decidable (0 ∉ response))

def encodeEntries (attributes : List (Bytes × Bytes)) : Bytes :=
  attributes.flatMap fun (key, value) => lenencStr key ++ lenencStr value

/-- What a client sends. -/
structure HandshakeResponse41 where
  capabilities : CapabilityFlags
  maxPacketSize : BitVec 32
  collation : UInt8
  filler : Bytes
  user : Bytes
  authResponse : Bytes
  database : Bytes
  authPlugin : Bytes
  attributes : List (Bytes × Bytes)

namespace HandshakeResponse41

def header (response : HandshakeResponse41) : Bytes :=
  leBytes 4 response.capabilities.toNat ++ leBytes 4 response.maxPacketSize.toNat ++
    [response.collation] ++ response.filler

/-- The name of the database if both sides have the capability. -/
def encodeDatabase (response : HandshakeResponse41) (shared : CapabilityFlags) : Bytes :=
  if shared.contains clientConnectWithDb then nullStr response.database else []

/-- The name of the plugin if both sides have the capability. -/
def encodeAuthPlugin (response : HandshakeResponse41) (shared : CapabilityFlags) : Bytes :=
  if shared.contains clientPluginAuth then nullStr response.authPlugin else []

/-- The connection attributes if both sides have the capability. -/
def encodeAttributes (response : HandshakeResponse41) (shared : CapabilityFlags) : Bytes :=
  if shared.contains clientConnectAttrs then lenencStr (encodeEntries response.attributes)
  else []

def encodeTail (response : HandshakeResponse41) (shared : CapabilityFlags) : Bytes :=
  response.encodeDatabase shared ++ (response.encodeAuthPlugin shared ++
    response.encodeAttributes shared)

/-- The capabilities that a client shares with a server. -/
def shared (response : HandshakeResponse41) (serverCap : CapabilityFlags) : CapabilityFlags :=
  response.capabilities &&& serverCap

/-- The bytes of a response to a server with some capabilities. -/
def encode (response : HandshakeResponse41) (serverCap : CapabilityFlags) : Bytes :=
  response.header ++ (nullStr response.user ++
    ((authLayout (response.shared serverCap)).encode response.authResponse ++
      response.encodeTail (response.shared serverCap)))

/-- A response that the protocol can express. -/
structure WellFormed (response : HandshakeResponse41) (serverCap : CapabilityFlags) : Prop where
  protocol41 : response.capabilities.contains clientProtocol41 = true
  filler_length : response.filler.length = 23
  user_free : 0 ∉ response.user
  auth_fits : (authLayout (response.shared serverCap)).Fits response.authResponse
  database_free : 0 ∉ response.database
  authPlugin_free : 0 ∉ response.authPlugin
  attributes_distinct : (response.attributes.map Prod.fst).Nodup
  attributes_fit : (encodeEntries response.attributes).length < 2 ^ 64

end HandshakeResponse41

open HandshakeResponse41

/-- The proxy read what the client wrote. -/
structure CustomClientHandshake.Holds (handshake : CustomClientHandshake)
    (response : HandshakeResponse41) (serverCap : CapabilityFlags) : Prop where
  user : handshake.user = response.user
  authResponse : handshake.scrambleBuf.asBytes = response.authResponse
  database : handshake.dbName =
    if (response.shared serverCap).contains clientConnectWithDb then some response.database
    else none
  authPlugin : handshake.authPlugin.map AuthPlugin.asBytes =
    if (response.shared serverCap).contains clientPluginAuth then some response.authPlugin
    else none
  attributes : handshake.connectAttributes =
    if (response.shared serverCap).contains clientConnectAttrs then
      some (response.attributes : Multiset (Bytes × Bytes))
    else none

/-! ## Reading back what was written -/

def entrySize (entry : Bytes × Bytes) : Nat :=
  (lenencStr entry.1).length + (lenencStr entry.2).length

theorem length_encodeEntries (attributes : List (Bytes × Bytes)) :
    (encodeEntries attributes).length = (attributes.map entrySize).sum := by
  unfold encodeEntries
  rw [length_flatMap]
  simp only [length_append]
  rfl

theorem lenencStr_ne_nil : lenencStr bytes ≠ [] := by
  unfold lenencStr lenencInt
  split_ifs <;> simp

theorem length_lt_lenencStr : bytes.length < (lenencStr bytes).length := by
  unfold lenencStr lenencInt
  split_ifs <;> simp only [length_append, length_cons] <;> omega

theorem length_lenencInt_mono {first second : Nat} (le : first ≤ second) :
    (lenencInt first).length ≤ (lenencInt second).length := by
  unfold lenencInt
  split_ifs <;> simp <;> omega

variable {attrs : ConnectAttributes}

theorem ConnectAttributes.insert_of_not_mem {key : Bytes}
    (fresh : ∀ entry ∈ attrs, entry.1 ≠ key) (value : Bytes) :
    attrs.insert key value = (key, value) ::ₘ attrs := by
  rw [insert, Multiset.filter_eq_self.mpr fresh]

theorem deserializeEntries_encodeEntries (distinct : (entries.map Prod.fst).Nodup)
    (fits : (encodeEntries entries).length < 2 ^ 64)
    (enough : (encodeEntries entries).length ≤ rounds)
    (fresh : ∀ entry ∈ entries, ∀ other ∈ attrs, other.1 ≠ entry.1) :
    deserializeEntries rounds (encodeEntries entries) attrs =
      .ok ((entries : ConnectAttributes) + attrs) := by
  induction entries generalizing rounds attrs with
  | nil => cases rounds <;> simp [deserializeEntries, encodeEntries]
  | cons entry others ih =>
    have written : encodeEntries (entry :: others) =
        lenencStr entry.1 ++ (lenencStr entry.2 ++ encodeEntries others) := by
      simp [encodeEntries]
    rw [written] at fits enough ⊢
    simp only [length_append] at fits enough
    have keyLength := length_lt_lenencStr entry.1
    have valueLength := length_lt_lenencStr entry.2
    rw [map_cons, nodup_cons] at distinct
    cases rounds with
    | zero => omega
    | succ rounds =>
      have nonempty : lenencStr entry.1 ++ (lenencStr entry.2 ++ encodeEntries others) ≠ [] := by
        simp [lenencStr_ne_nil]
      rw [deserializeEntries, if_neg nonempty, checkedEatLenencStr_lenencStr (by omega), orEof,
        ok_bind]
      simp only
      rw [checkedEatLenencStr_lenencStr (by omega), orEof, ok_bind,
        ConnectAttributes.insert_of_not_mem (fresh entry mem_cons_self),
        ih distinct.2 (by omega) (by omega)]
      · rw [← Multiset.cons_coe, Multiset.cons_add, Multiset.add_cons]
      · intro other isOther known isKnown
        cases Multiset.mem_cons.mp isKnown with
        | inl same =>
          rw [same]
          intro sameKey
          exact distinct.1 (sameKey ▸ mem_map_of_mem isOther)
        | inr old => exact fresh other (mem_cons_of_mem _ isOther) known old

def ConnectAttributes.size (attrs : ConnectAttributes) : Nat := (attrs.map entrySize).sum

theorem ConnectAttributes.size_insert_le (attrs : ConnectAttributes) (key value : Bytes) :
    (attrs.insert key value).size ≤ entrySize (key, value) + attrs.size := by
  unfold size insert
  rw [Multiset.map_cons, Multiset.sum_cons]
  obtain ⟨dropped, whole⟩ := Multiset.le_iff_exists_add.mp (Multiset.filter_le (·.1 ≠ key) attrs)
  have sizes := congrArg (fun entries => (Multiset.map entrySize entries).sum) whole
  simp only [Multiset.map_add, Multiset.sum_add] at sizes
  omega

theorem size_of_deserializeEntries {data : Bytes} {result : ConnectAttributes}
    (read : deserializeEntries rounds data attrs = .ok result) :
    result.size ≤ data.length + attrs.size := by
  induction rounds generalizing data attrs with
  | zero =>
    cases read
    omega
  | succ rounds ih =>
    rw [deserializeEntries] at read
    by_cases empty : data = []
    · rw [if_pos empty] at read
      cases read
      omega
    · rw [if_neg empty] at read
      obtain ⟨⟨key, afterKey⟩, keyRead, read⟩ := bind_eq_ok_iff.mp read
      obtain ⟨⟨value, afterValue⟩, valueRead, read⟩ := bind_eq_ok_iff.mp read
      have rest := ih read
      have inserted := attrs.size_insert_le key value
      have keyBytes := length_of_checkedEatLenencStr (ok_of_orEof keyRead)
      have valueBytes := length_of_checkedEatLenencStr (ok_of_orEof valueRead)
      simp only [entrySize] at inserted
      omega

theorem deserializeConnectAttrs_encodeEntries (distinct : (entries.map Prod.fst).Nodup)
    (fits : (encodeEntries entries).length < 2 ^ 64) (rest : Bytes) :
    deserializeConnectAttrs (lenencStr (encodeEntries entries) ++ rest) =
      .ok ((entries : ConnectAttributes), rest) := by
  unfold deserializeConnectAttrs lenencStr
  rw [append_assoc, checkedEatLenencInt_lenencInt fits, orEof, ok_bind]
  simp only
  rw [checkedEat_append rfl, orEof, ok_bind]
  simp only
  rw [deserializeEntries_encodeEntries distinct fits le_rfl (by simp), ok_bind, add_zero]

theorem length_of_deserializeConnectAttrs {buf : Bytes} (read : deserializeConnectAttrs buf =
      .ok ((entries : ConnectAttributes), rest)) :
    (lenencStr (encodeEntries entries)).length + rest.length ≤ buf.length := by
  obtain ⟨⟨dataLen, afterLen⟩, lenRead, read⟩ := bind_eq_ok_iff.mp read
  obtain ⟨⟨data, left⟩, dataRead, read⟩ := bind_eq_ok_iff.mp read
  obtain ⟨attrs, entriesRead, same⟩ := bind_eq_ok_iff.mp read
  cases same
  obtain ⟨dataLength, rfl⟩ := append_of_checkedEat (ok_of_orEof dataRead)
  have size := size_of_deserializeEntries entriesRead
  have taken := length_of_checkedEatLenencInt (ok_of_orEof lenRead)
  have entriesLength : (encodeEntries entries).length ≤ data.length := by
    rw [length_encodeEntries]
    simpa [ConnectAttributes.size] using size
  have prefixLength := length_lenencInt_mono (entriesLength.trans dataLength.le)
  rw [length_append] at taken
  rw [lenencStr, length_append]
  omega

/-! ## The layouts of the response to the challenge -/

/-- The layout that the server expects reads a response that is written in another layout. -/
def AuthLayout.Agrees (response : Bytes) (expected written : AuthLayout) : Prop :=
  expected = written ∨ response = [] ∨ (written = .fixedLength ∧ response.length < 251)

variable {server : CapabilityFlags} {client : CapabilityFlags}

theorem authLayout_shared (client server : CapabilityFlags) :
    authLayout server = .lenEncoded ∨
      authLayout server = .fixedLength ∧ authLayout (client &&& server) ≠ .lenEncoded ∨
        authLayout (client &&& server) = authLayout server := by
  unfold authLayout
  rw [contains_and, contains_and]
  cases server.contains clientPluginAuthLenencClientData with
  | true => simp
  | false =>
    cases server.contains clientSecureConnection with
    | true => cases client.contains clientSecureConnection <;> simp
    | false => simp

theorem AuthLayout.Agrees.encode_eq
    (agrees : AuthLayout.Agrees response (authLayout server) (authLayout (client &&& server)))
    (fits : (authLayout (client &&& server)).Fits response) :
    (authLayout (client &&& server)).encode response = (authLayout server).encode response ∧
      (authLayout server).Fits response := by
  rcases agrees with same | empty | ⟨fixed, short⟩
  · rw [← same] at fits ⊢
    exact ⟨rfl, fits⟩
  · subst empty
    have zero : ∀ layout : AuthLayout, layout.encode [] = [0] := by
      intro layout
      cases layout <;> rfl
    refine ⟨by rw [zero, zero], ?_⟩
    cases authLayout server <;> simp [AuthLayout.Fits]
  · rcases authLayout_shared client server with lenenc | ⟨secure, _⟩ | same
    · rw [lenenc, fixed]
      refine ⟨?_, by simp only [AuthLayout.Fits]; omega⟩
      simp only [AuthLayout.encode, lenencStr, lenencInt, if_pos short]
      rw [leBytes_succ 0]
      rfl
    · rw [secure, fixed]
      exact ⟨rfl, by simp only [AuthLayout.Fits]; omega⟩
    · rw [same] at fits ⊢
      exact ⟨rfl, fits⟩

theorem deserializeScramble_encode (fits : (authLayout server).Fits response) (rest : Bytes) :
    ∃ scramble, deserializeScramble server ((authLayout server).encode response ++ rest) =
      .ok (scramble, rest) ∧ scramble.asBytes = response := by
  unfold deserializeScramble authLayout at *
  split_ifs at fits ⊢ with lenenc secure
  · refine ⟨.lenEncoded response, ?_, rfl⟩
    rw [AuthLayout.encode, checkedEatLenencStr_lenencStr fits]
    rfl
  · refine ⟨.fixedLength response, ?_, rfl⟩
    rw [AuthLayout.encode, append_assoc, eatNat_leBytes fits, orEof, ok_bind]
    simp only
    rw [checkedEat_append rfl]
    rfl
  · refine ⟨.nullTerminated response, ?_, rfl⟩
    rw [AuthLayout.encode, eatNullBytes_nullStr fits]
    rfl

theorem eq_nil_of_shift {first : UInt8} (free : 0 ∉ response)
    (same : nullStr response ++ tail = first :: (response ++ rest)) : response = [] := by
  have shifted : nullStr response = first :: response :=
    (append_inj same (by simp [nullStr])).1
  cases response with
  | nil => rfl
  | cons byte others =>
    have last : (first :: byte :: others).getLast? = some 0 := by
      rw [← shifted, nullStr, getLast?_append]
      rfl
    rw [getLast?_cons_cons] at last
    exact (free (mem_of_getLast? last)).elim

theorem AuthLayout.length_encode {layout : AuthLayout} (simple : layout ≠ .lenEncoded)
    (response : Bytes) : (layout.encode response).length = response.length + 1 := by
  cases layout with
  | lenEncoded => exact (simple rfl).elim
  | fixedLength => simp [encode, Nat.add_comm]
  | nullTerminated => simp [encode, nullStr]

theorem agrees_of_deserializeScramble {scramble : ScrambleBuf}
    (fits : (authLayout (client &&& server)).Fits response) (read : deserializeScramble server
      ((authLayout (client &&& server)).encode response ++ tail) = .ok (scramble, rest))
    (same : scramble.asBytes = response) (left : tail.length ≤ rest.length + 1) :
    AuthLayout.Agrees response (authLayout server) (authLayout (client &&& server)) := by
  have empty : ∀ {first : UInt8},
      (authLayout (client &&& server)).encode response ++ tail = first :: (response ++ rest) →
        authLayout (client &&& server) = .nullTerminated → response = [] := by
    intro first shifted layout
    rw [layout] at shifted fits
    exact eq_nil_of_shift fits shifted
  by_cases lenenc : server.contains clientPluginAuthLenencClientData = true
  · have expected : authLayout server = .lenEncoded := if_pos lenenc
    rw [deserializeScramble, if_pos lenenc] at read
    obtain ⟨⟨bytes, buf⟩, eaten, done⟩ := bind_eq_ok_iff.mp read
    cases done
    have same : bytes = response := same
    subst same
    by_cases rich : authLayout (client &&& server) = .lenEncoded
    · exact .inl (expected.trans rich.symm)
    · have length := AuthLayout.length_encode rich bytes
      obtain ⟨short, shifted⟩ := eq_of_checkedEatLenencStr (ok_of_orEof eaten)
        (by rw [length_append]; omega)
      cases layout : authLayout (client &&& server) with
      | lenEncoded => exact (rich layout).elim
      | fixedLength => exact .inr (.inr ⟨rfl, short⟩)
      | nullTerminated => exact .inr (.inl (empty shifted layout))
  · have poor : authLayout server ≠ .lenEncoded := by
      unfold authLayout
      rw [if_neg lenenc]
      split <;> simp
    have unset : authLayout (client &&& server) ≠ .lenEncoded := by
      rcases authLayout_shared client server with rich | ⟨_, unset⟩ | same
      · exact (poor rich).elim
      · exact unset
      · rwa [same]
    rw [deserializeScramble, if_neg lenenc] at read
    by_cases secure : server.contains clientSecureConnection = true
    · have expected : authLayout server = .fixedLength := by simp [authLayout, lenenc, secure]
      rw [if_pos secure] at read
      obtain ⟨⟨length, afterLength⟩, lengthEaten, read⟩ := bind_eq_ok_iff.mp read
      obtain ⟨⟨bytes, buf⟩, eaten, done⟩ := bind_eq_ok_iff.mp read
      cases done
      have same : bytes = response := same
      subst same
      obtain ⟨⟨front, after⟩, frontEaten, frontDone⟩ :=
        Option.bind_eq_some_iff.mp (ok_of_orEof lengthEaten)
      cases frontDone
      obtain ⟨single, whole⟩ := append_of_checkedEat frontEaten
      obtain ⟨first, rfl⟩ := length_eq_one_iff.mp single
      rw [(append_of_checkedEat (ok_of_orEof eaten)).2] at whole
      cases layout : authLayout (client &&& server) with
      | lenEncoded => exact (unset layout).elim
      | fixedLength => exact .inl expected
      | nullTerminated => exact .inr (.inl (empty whole layout))
    · have expected : authLayout server = .nullTerminated := by
        simp [authLayout, lenenc, secure]
      have written : authLayout (client &&& server) = .nullTerminated := by
        simp [authLayout, contains_and, lenenc, secure]
      exact .inl (expected.trans written.symm)

/-! ## What follows the response -/

section Tail

variable {response : HandshakeResponse41} {buf : Bytes} {wanted : CapabilityFlags}

theorem deserializeDbName_encode (wellFormed : response.WellFormed server) :
    deserializeDbName (response.shared server)
        (response.encodeDatabase (response.shared server) ++ rest) =
      .ok (if (response.shared server).contains clientConnectWithDb then some response.database
        else none, rest) := by
  unfold deserializeDbName encodeDatabase
  cases (response.shared server).contains clientConnectWithDb with
  | true =>
    simp only [if_true, eatNullBytes_nullStr wellFormed.database_free]
    rfl
  | false => rfl

theorem length_of_deserializeDbName
    (read : deserializeDbName (response.shared server) buf =
      .ok (if (response.shared server).contains clientConnectWithDb then some response.database
        else none, rest)) :
    (response.encodeDatabase (response.shared server)).length + rest.length = buf.length := by
  unfold deserializeDbName at read
  unfold encodeDatabase
  by_cases withDb : (response.shared server).contains clientConnectWithDb = true
  · rw [if_pos withDb, if_pos withDb] at read
    obtain ⟨⟨name, left⟩, eaten, done⟩ := bind_eq_ok_iff.mp read
    cases done
    rw [if_pos withDb, append_of_eatNullBytes (ok_of_orInvalid eaten), length_append]
  · rw [if_neg withDb, if_neg withDb] at read
    cases read
    rw [if_neg withDb, length_nil, Nat.zero_add]

theorem contains_shared
    (used : server.contains wanted = true → response.capabilities.contains wanted = true) :
    (response.shared server).contains wanted = server.contains wanted := by
  rw [shared, contains_and]
  cases inServer : server.contains wanted with
  | true => rw [used inServer]; rfl
  | false => exact Bool.and_false _

theorem contains_of_shared (inShared : (response.shared server).contains wanted = true) :
    response.capabilities.contains wanted = true ∧ server.contains wanted = true := by
  rw [shared, contains_and, Bool.and_eq_true] at inShared
  exact inShared

theorem deserializeAuthPlugin_encode (wellFormed : response.WellFormed server)
    (used : server.contains clientPluginAuth = true →
      response.capabilities.contains clientPluginAuth = true) :
    deserializeAuthPlugin server (response.encodeAuthPlugin (response.shared server) ++ rest) =
      (if (response.shared server).contains clientPluginAuth then
        some (AuthPlugin.fromBytes response.authPlugin) else none, rest) := by
  unfold deserializeAuthPlugin encodeAuthPlugin
  rw [contains_shared used]
  cases server.contains clientPluginAuth with
  | true => simp only [if_true, eatNullStr_nullStr wellFormed.authPlugin_free]
  | false => rfl

theorem length_of_deserializeAuthPlugin {plugin : Option AuthPlugin}
    (read : deserializeAuthPlugin server buf = (plugin, rest))
    (same : plugin.map AuthPlugin.asBytes =
      if (response.shared server).contains clientPluginAuth then some response.authPlugin
      else none) :
    (server.contains clientPluginAuth = true →
        response.capabilities.contains clientPluginAuth = true) ∧
      (response.encodeAuthPlugin (response.shared server)).length + rest.length ≤
        buf.length + 1 := by
  unfold deserializeAuthPlugin at read
  unfold encodeAuthPlugin
  by_cases inServer : server.contains clientPluginAuth = true
  · rw [if_pos inServer] at read
    cases read
    by_cases inShared : (response.shared server).contains clientPluginAuth = true
    · rw [if_pos inShared, Option.map_some, AuthPlugin.asBytes_fromBytes, Option.some.injEq] at same
      have taken := @length_of_eatNullStr buf _ _ rfl
      rw [same] at taken
      rw [if_pos inShared, nullStr, length_append, length_singleton]
      exact ⟨fun _ => (contains_of_shared inShared).1, by omega⟩
    · rw [if_neg inShared] at same
      cases same
  · rw [if_neg inServer] at read
    cases read
    have unshared : ¬(response.shared server).contains clientPluginAuth = true :=
      fun inShared => inServer (contains_of_shared inShared).2
    rw [if_neg unshared, length_nil]
    exact ⟨fun used => (inServer used).elim, by omega⟩

theorem deserializeAttributes_encode (wellFormed : response.WellFormed server)
    (used : server.contains clientConnectAttrs = true →
      response.capabilities.contains clientConnectAttrs = true) :
    deserializeAttributes server (response.encodeAttributes (response.shared server) ++ rest) =
      .ok (if (response.shared server).contains clientConnectAttrs then
        some (response.attributes : ConnectAttributes) else none, rest) := by
  unfold deserializeAttributes encodeAttributes
  rw [contains_shared used]
  cases server.contains clientConnectAttrs with
  | true =>
    simp only [if_true, deserializeConnectAttrs_encodeEntries wellFormed.attributes_distinct
      wellFormed.attributes_fit]
    rfl
  | false => rfl

theorem length_of_deserializeAttributes
    (read : deserializeAttributes server buf =
      .ok (if (response.shared server).contains clientConnectAttrs then
        some (response.attributes : ConnectAttributes) else none, rest)) :
    (server.contains clientConnectAttrs = true →
        response.capabilities.contains clientConnectAttrs = true) ∧
      (response.encodeAttributes (response.shared server)).length + rest.length ≤
        buf.length := by
  unfold deserializeAttributes at read
  unfold encodeAttributes
  by_cases inServer : server.contains clientConnectAttrs = true
  · rw [if_pos inServer] at read
    obtain ⟨⟨attrs, left⟩, attrsRead, done⟩ := bind_eq_ok_iff.mp read
    by_cases inShared : (response.shared server).contains clientConnectAttrs = true
    · rw [if_pos inShared] at done
      cases done
      rw [if_pos inShared]
      exact ⟨fun _ => (contains_of_shared inShared).1,
        length_of_deserializeConnectAttrs attrsRead⟩
    · rw [if_neg inShared] at done
      cases done
  · rw [if_neg inServer] at read
    have unshared : ¬(response.shared server).contains clientConnectAttrs = true :=
      fun inShared => inServer (contains_of_shared inShared).2
    rw [if_neg unshared] at read
    cases read
    rw [if_neg unshared, length_nil]
    exact ⟨fun used => (inServer used).elim, by omega⟩

end Tail

/-! ## The whole packet -/

section Packet

variable {response : HandshakeResponse41} {known : CapabilityFlags}

/-- The proxy can read a response: it knows the client's flags, its layout agrees with the
client's, and the client has the capabilities for a plugin name and for attributes that the
proxy has. -/
structure HandshakeResponse41.Readable (response : HandshakeResponse41)
    (known server : CapabilityFlags) : Prop where
  flags : response.capabilities &&& ~~~known = 0
  layout : AuthLayout.Agrees response.authResponse (authLayout server)
    (authLayout (response.shared server))
  authPlugin : server.contains clientPluginAuth = true →
    response.capabilities.contains clientPluginAuth = true
  attributes : server.contains clientConnectAttrs = true →
    response.capabilities.contains clientConnectAttrs = true

theorem length_header (wellFormed : response.WellFormed server) :
    response.header.length = 4 + 4 + 1 + 23 := by
  simp [header, wellFormed.filler_length]

theorem flags_header (response : HandshakeResponse41) :
    BitVec.ofNat 32 (ofLeBytes (response.header.take 4)) = response.capabilities := by
  have front : response.header.take 4 = leBytes 4 response.capabilities.toNat := by
    unfold header
    rw [append_assoc, append_assoc, take_left' (length_leBytes 4 response.capabilities.toNat)]
  have small : response.capabilities.toNat < 256 ^ 4 := response.capabilities.isLt
  rw [front, ofLeBytes_leBytes, Nat.mod_eq_of_lt small, BitVec.ofNat_toNat, BitVec.setWidth_eq]

theorem deserialize_encode (wellFormed : response.WellFormed server)
    (flags : response.capabilities &&& ~~~known = 0) :
    CustomClientHandshake.deserialize known server (response.encode server) = (do
      let (scrambleBuf, buf) ← deserializeScramble server
        ((authLayout (response.shared server)).encode response.authResponse ++
          response.encodeTail (response.shared server))
      let (dbName, buf) ← deserializeDbName (response.shared server) buf
      let (authPlugin, buf) := deserializeAuthPlugin server buf
      let (connectAttributes, buf) ← deserializeAttributes server buf
      .ok ({ capabilities := response.capabilities,
             maxPacketSize := ofLeBytes ((response.header.drop 4).take 4),
             collation := response.header.getD 8 0,
             scrambleBuf, user := response.user, dbName, authPlugin, connectAttributes },
        buf)) := by
  unfold CustomClientHandshake.deserialize encode
  rw [checkedEat_append (length_header wellFormed), orEof, ok_bind]
  simp only
  rw [flags_header, if_neg (not_not_intro flags), if_pos wellFormed.protocol41,
    eatNullBytes_nullStr wellFormed.user_free]
  rfl

theorem flags_of_deserialize (wellFormed : response.WellFormed server)
    {result : CustomClientHandshake × Bytes}
    (read : CustomClientHandshake.deserialize known server (response.encode server) =
      .ok result) : response.capabilities &&& ~~~known = 0 := by
  by_contra unknown
  unfold CustomClientHandshake.deserialize encode at read
  rw [checkedEat_append (length_header wellFormed), orEof, ok_bind] at read
  simp only at read
  rw [flags_header, if_pos unknown] at read
  contradiction

/-- The proxy reads exactly what a client wrote precisely if it can read the response. -/
theorem handshake_reads_iff (wellFormed : response.WellFormed server) :
    (∃ handshake rest, CustomClientHandshake.deserialize known server (response.encode server) =
        .ok (handshake, rest) ∧ handshake.Holds response server) ↔
      response.Readable known server := by
  constructor
  · rintro ⟨handshake, rest, read, holds⟩
    have flags : response.capabilities &&& ~~~known = 0 :=
      flags_of_deserialize wellFormed read
    rw [deserialize_encode wellFormed flags] at read
    obtain ⟨⟨scrambleBuf, afterScramble⟩, scrambleRead, read⟩ := bind_eq_ok_iff.mp read
    obtain ⟨⟨dbName, afterDb⟩, dbRead, read⟩ := bind_eq_ok_iff.mp read
    obtain ⟨⟨connectAttributes, afterAttributes⟩, attributesRead, read⟩ :=
      bind_eq_ok_iff.mp read
    cases read
    have database := holds.database
    have attributes := holds.attributes
    simp only at database attributes
    rw [database] at dbRead
    rw [attributes] at attributesRead
    have dbLength := length_of_deserializeDbName dbRead
    obtain ⟨plugin, pluginLength⟩ := length_of_deserializeAuthPlugin rfl holds.authPlugin
    obtain ⟨attrs, attributesLength⟩ := length_of_deserializeAttributes attributesRead
    refine ⟨flags, ?_, plugin, attrs⟩
    apply agrees_of_deserializeScramble wellFormed.auth_fits scrambleRead holds.authResponse
    rw [encodeTail, length_append, length_append]
    omega
  · intro readable
    have agrees := readable.layout.encode_eq wellFormed.auth_fits
    have written : (authLayout (response.shared server)).encode response.authResponse =
        (authLayout server).encode response.authResponse := agrees.1
    obtain ⟨scramble, scrambleRead, same⟩ := deserializeScramble_encode agrees.2
      (response.encodeTail (response.shared server))
    rw [← written] at scrambleRead
    have read := deserialize_encode wellFormed readable.flags
    rw [scrambleRead, ok_bind] at read
    simp only [encodeTail] at read
    rw [deserializeDbName_encode wellFormed, ok_bind] at read
    simp only at read
    rw [deserializeAuthPlugin_encode wellFormed readable.authPlugin] at read
    simp only at read
    rw [← append_nil (response.encodeAttributes _),
      deserializeAttributes_encode wellFormed readable.attributes, ok_bind] at read
    refine ⟨_, _, read, rfl, same, rfl, ?_, rfl⟩
    simp only
    split <;> simp

def fullClient : HandshakeResponse41 where
  capabilities := supportedCapabilities
  maxPacketSize := 1024
  collation := 46
  filler := List.replicate 23 0
  user := [97]
  authResponse := [1, 2, 3]
  database := [100]
  authPlugin := [112]
  attributes := [([107], [118])]

/-- A client that is like the other one but sends no connection attributes. -/
def plainClient : HandshakeResponse41 :=
  { fullClient with capabilities := supportedCapabilities ^^^ clientConnectAttrs }

/-- The proxy reads the response of a client with all its capabilities. -/
theorem handshake_reads_fullClient : ∃ handshake rest,
    CustomClientHandshake.deserialize (~~~0) supportedCapabilities
        (fullClient.encode supportedCapabilities) = .ok (handshake, rest) ∧
      handshake.Holds fullClient supportedCapabilities :=
  (handshake_reads_iff ⟨by decide, by decide, by decide, by decide, by decide, by decide,
    by decide, by decide⟩).mpr ⟨by decide, .inl (by decide), by decide, by decide⟩

/-- The proxy does not read the response of a client that sends no connection attributes. -/
theorem handshake_fails_plainClient :
    plainClient.WellFormed supportedCapabilities ∧
      CustomClientHandshake.deserialize (~~~0) supportedCapabilities
        (plainClient.encode supportedCapabilities) = .error .unexpectedEof := by
  refine ⟨⟨by decide, by decide, by decide, by decide, by decide, by decide, by decide,
    by decide⟩, rfl⟩

end Packet

end SecureFusion.Frontend
