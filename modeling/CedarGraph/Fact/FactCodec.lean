import CedarGraph.Fact.Key
import CedarGraph.Kernel.FactScan

/-!
# Values and facts as bytes

A value is written as the number of its type and its data, with the least byte of a number first.
The record of a fact has the data of its value, or the identity of an edge, between a header and a
checksum, and with the greatest byte of a number first.  What is not part of the record is known from
the key under which it is stored.

A reader accepts exactly what is written, so that a record has one reading and a fact one record.  A
fact whose text is longer than the limit for a record is valid, but it is not written.
-/

namespace Cedar

open FactEvent List Option StatusOr Value PhysicalType

open ByteCodec

/-! ### Values -/

/-- The type of a number. -/
def PhysicalType.ofNumber : UInt8 → Option PhysicalType
  | 1 => some .bool
  | 2 => some .int32
  | 3 => some .int64
  | 4 => some .float32
  | 5 => some .float64
  | 6 => some .timestamp64
  | 7 => some .string
  | 8 => some .binary
  | _ => none

theorem PhysicalType.ofNumber_eq_some_iff {number : UInt8} {type : PhysicalType} :
  ofNumber number = some type ↔ type.number.toUInt8 = number
  := by
  constructor
  · intro h
    unfold ofNumber at h
    split at h
    all_goals cases h
    all_goals rfl
  · rintro rfl
    cases type <;> rfl

namespace Value

/-- The data of a value, given how numbers and texts are written. -/
def bytes (put : Nat → Nat → List UInt8) (text : List UInt8 → List UInt8) : Value → List UInt8
  | bool value => [if value then 1 else 0]
  | int32 value => put 4 value.toUInt32.toNat
  | int64 value => put 8 value.toUInt64.toNat
  | float32 bits => put 4 bits.toNat
  | float64 bits => put 8 bits.toNat
  | timestamp value => put 8 value.toNat
  | string value => text value
  | binary value => text value

/-- The value of a type with some data, given how numbers and texts are read. -/
def ofBytes (get : Nat → List UInt8 → Option Nat) (text : List UInt8 → Option (List UInt8))
    (type : PhysicalType) (payload : List UInt8) : Option Value :=
  match type with
  | .bool =>
      if payload = [0] then some (.bool false)
      else if payload = [1] then some (.bool true)
      else none
  | .int32 => (get 4 payload).map fun word => .int32 (UInt32.ofNat word).toInt32
  | .int64 => (get 8 payload).map fun word => .int64 (UInt64.ofNat word).toInt64
  | .float32 => (get 4 payload).map fun word => .float32 (UInt32.ofNat word)
  | .float64 => (get 8 payload).map fun word => .float64 (UInt64.ofNat word)
  | .timestamp64 => (get 8 payload).map fun word => .timestamp (UInt64.ofNat word)
  | .string => (text payload).map .string
  | .binary => (text payload).map .binary

/-- The text of a value has the property, if the value is a text. -/
def TextHas (P : List UInt8 → Prop) : Value → Prop
  | string value => P value
  | binary value => P value
  | _ => True

section OfBytes

variable {put : Nat → Nat → List UInt8} {get : Nat → List UInt8 → Option Nat}
  {putText : List UInt8 → List UInt8} {getText : List UInt8 → Option (List UInt8)}
  {P : List UInt8 → Prop} {payload : List UInt8} {value : Value}

/-- Words of 32 bits are read exactly from their bytes. -/
theorem map_get_iff32 (hget : ∀ n bytes w, get n bytes = some w ↔ w < 256 ^ n ∧ bytes = put n w)
    {f : UInt32 → Value} :
  (get 4 payload).map (fun word => f (UInt32.ofNat word)) = some value ↔
    ∃ word, f word = value ∧ payload = put 4 word.toNat
  := by
  rw [map_eq_some_iff]
  constructor
  · rintro ⟨w, hw, rfl⟩
    obtain ⟨hlt, rfl⟩ := (hget _ _ _).mp hw
    use UInt32.ofNat w, rfl
    rw [UInt32.toNat_ofNat_of_lt' hlt]
  · rintro ⟨word, rfl, rfl⟩
    use word.toNat, (hget _ _ _).mpr ⟨word.toNat_lt, rfl⟩
    rw [UInt32.ofNat_toNat]

/-- Words of 64 bits are read exactly from their bytes. -/
theorem map_get_iff64 (hget : ∀ n bytes w, get n bytes = some w ↔ w < 256 ^ n ∧ bytes = put n w)
    {f : UInt64 → Value} :
  (get 8 payload).map (fun word => f (UInt64.ofNat word)) = some value ↔
    ∃ word, f word = value ∧ payload = put 8 word.toNat
  := by
  rw [map_eq_some_iff]
  constructor
  · rintro ⟨w, hw, rfl⟩
    obtain ⟨hlt, rfl⟩ := (hget _ _ _).mp hw
    use UInt64.ofNat w, rfl
    rw [UInt64.toNat_ofNat_of_lt' hlt]
  · rintro ⟨word, rfl, rfl⟩
    use word.toNat, (hget _ _ _).mpr ⟨word.toNat_lt, rfl⟩
    rw [UInt64.ofNat_toNat]

/-- Data are read as a value exactly if they are the data of this value. -/
theorem ofBytes_eq_some_iff
    (hget : ∀ n bytes w, get n bytes = some w ↔ w < 256 ^ n ∧ bytes = put n w)
    (htext : ∀ bytes text, getText bytes = some text ↔ P text ∧ bytes = putText text)
    {type : PhysicalType} :
  ofBytes get getText type payload = some value ↔
    value.type = type ∧ value.TextHas P ∧ payload = value.bytes put putText
  := by
  constructor
  · intro h
    cases type with
    | bool =>
      rw [ofBytes] at h
      split_ifs at h with hfalse htrue
      · obtain rfl := some.inj h
        exact ⟨rfl, trivial, hfalse⟩
      · obtain rfl := some.inj h
        exact ⟨rfl, trivial, htrue⟩
    | int32 =>
      obtain ⟨word, rfl, rfl⟩ := (map_get_iff32 hget (f := fun word => int32 word.toInt32)).mp h
      exact ⟨rfl, trivial, rfl⟩
    | int64 =>
      obtain ⟨word, rfl, rfl⟩ := (map_get_iff64 hget (f := fun word => int64 word.toInt64)).mp h
      exact ⟨rfl, trivial, rfl⟩
    | float32 =>
      obtain ⟨word, rfl, rfl⟩ := (map_get_iff32 hget).mp h
      exact ⟨rfl, trivial, rfl⟩
    | float64 | timestamp64 =>
      obtain ⟨word, rfl, rfl⟩ := (map_get_iff64 hget).mp h
      exact ⟨rfl, trivial, rfl⟩
    | string | binary =>
      obtain ⟨text, hread, rfl⟩ := map_eq_some_iff.mp h
      exact ⟨rfl, (htext _ _).mp hread⟩
  · rintro ⟨rfl, htextHas, rfl⟩
    cases value with
    | bool b => cases b <;> rfl
    | int32 x =>
      exact (map_get_iff32 hget (f := fun word => int32 word.toInt32)).mpr ⟨x.toUInt32, rfl, rfl⟩
    | int64 x =>
      exact (map_get_iff64 hget (f := fun word => int64 word.toInt64)).mpr ⟨x.toUInt64, rfl, rfl⟩
    | float32 x => exact (map_get_iff32 hget).mpr ⟨x, rfl, rfl⟩
    | float64 x | timestamp x => exact (map_get_iff64 hget).mpr ⟨x, rfl, rfl⟩
    | string x | binary x => exact map_eq_some_iff.mpr ⟨x, (htext _ _).mpr ⟨htextHas, rfl⟩, rfl⟩

end OfBytes

/-- A text behind its length. -/
def putLength (text : List UInt8) : List UInt8 :=
  putWord 4 text.length ++ text

/-- The text behind its length, if the length is that of all which follows. -/
def getLength (bytes : List UInt8) : Option (List UInt8) :=
  match getWord 4 bytes with
  | none => none
  | some (length, text) => if length ≠ text.length then none else some text

/-- A value as bytes. -/
def encode (value : Value) : List UInt8 :=
  value.type.number.toUInt8 :: value.bytes putWord putLength

/-- The value of some bytes. -/
def decode : List UInt8 → Option Value
  | [] => none
  | number :: payload =>
      match PhysicalType.ofNumber number with
      | none => none
      | some type => ofBytes (fun n => getAll (getWord n)) getLength type payload

theorem getLength_eq_some_iff (bytes text : List UInt8) :
  getLength bytes = some text ↔ text.length < 256 ^ 4 ∧ bytes = putLength text
  := by
  rw [getLength]
  constructor
  · intro h
    split at h
    · cases h
    case h_2 length rest hword =>
      obtain ⟨hlt, rfl⟩ := eq_of_getWord hword
      split at h
      · cases h
      case isFalse heq =>
        obtain rfl := some.inj h
        obtain rfl := not_not.mp heq
        exact ⟨hlt, rfl⟩
  · rintro ⟨hlt, rfl⟩
    rw [putLength, reads_getWord hlt]
    simp

/-- Bytes are read as a value exactly if they are those of this value, whose text has a length of 32
bits. -/
theorem decode_eq_some_iff {bytes : List UInt8} {value : Value} :
  decode bytes = some value ↔ value.TextHas (·.length < 256 ^ 4) ∧ bytes = value.encode
  := by
  rcases bytes with - | ⟨number, payload⟩
  · simp [decode, encode]
  · rw [decode, encode, cons.injEq]
    rcases htype : ofNumber number with - | type
    · simp only [reduceCtorEq, false_iff]
      rintro ⟨-, rfl, -⟩
      rw [ofNumber_eq_some_iff.mpr rfl] at htype
      cases htype
    · obtain rfl := ofNumber_eq_some_iff.mp htype
      rw [ofBytes_eq_some_iff (fun _ _ _ => getAll_getWord_iff) getLength_eq_some_iff]
      constructor
      · rintro ⟨rfl, htext, rfl⟩
        exact ⟨htext, rfl, rfl⟩
      · rintro ⟨htext, hnumber, rfl⟩
        refine ⟨?_, htext, rfl⟩
        rw [hnumber, ofNumber_eq_some_iff.mpr rfl] at htype
        apply some.inj htype

end Value

/-! ### Checksums -/

/-- The remainder of a polynomial with one more bit. -/
def crcShift (word : UInt32) : UInt32 :=
  if word &&& 1 = 1 then (word >>> 1) ^^^ 0x82f63b78 else word >>> 1

/-- The remainder of a byte.  The source has a table of them. -/
def byteExtension (byte : UInt32) : UInt32 :=
  crcShift^[8] byte

/-- The checksum CRC32C. -/
def crc32c (bytes : List UInt8) : UInt32 :=
  bytes.foldl (fun word byte => byteExtension ((word &&& 0xff) ^^^ byte.toUInt32) ^^^ (word >>> 8))
    0xffffffff ^^^ 0xffffffff

example : byteExtension 1 = 0xf26b8303 ∧ byteExtension 255 = 0xad7d5351 := by decide

/-! ### Facts -/

/-- The version of the format of records. -/
def factValueVersion : UInt8 := 1

/-- The kind of a record without a value. -/
def noValueKind : UInt8 := 0

/-- The kind of the record of the identity of an edge. -/
def edgeIdentityValueKind : UInt8 := 9

def factValueHeaderBytes : Nat := 11

def factValueChecksumBytes : Nat := 4

/-- The most bytes which a record may have between its header and its checksum. -/
def maxFactValuePayloadBytes : Nat := 16 * 1024 * 1024

/-- The data of a value in a record. -/
def Value.payload (value : Value) : List UInt8 :=
  value.bytes putBigEndian id

def encodeValuePayload (value : Value) : StatusOr (List UInt8) :=
  if value.payload.length > maxFactValuePayloadBytes then
    Status.invalidArgument "fact value" "payload exceeds size limit"
  else
    .ok value.payload

def decodeValuePayload (type : PhysicalType) (payload : List UInt8) : StatusOr Value :=
  match Value.ofBytes (fun n => getAll (getBigEndian n)) some type payload with
  | some value => .ok value
  | none => Status.corruption "fact value" "invalid physical value payload"

/-- The identity of an edge in a record. -/
def EdgeIdentity.payload (identity : EdgeIdentity) : List UInt8 :=
  putBigEndian 4 identity.homePartId.toNat ++ (putBigEndian 8 identity.edgeId.toNat ++
    (putBigEndian 4 identity.sourcePartId.toNat ++ (putBigEndian 8 identity.sourceVertexId.toNat ++
      (putBigEndian 4 identity.targetPartId.toNat ++
        (putBigEndian 8 identity.targetVertexId.toNat ++
          putBigEndian 8 identity.edgeType.toNat)))))

def encodeEdgeIdentityPayload (identity : EdgeIdentity) : StatusOr (List UInt8) := do
  identity.validate
  return identity.payload

/-- The identity of an edge from the numbers of a record. -/
def edgeIdentityFields : Reader EdgeIdentity := do
  let homePart ← getBigEndian 4
  let edgeId ← getBigEndian 8
  let sourcePart ← getBigEndian 4
  let source ← getBigEndian 8
  let targetPart ← getBigEndian 4
  let target ← getBigEndian 8
  let edgeType ← getBigEndian 8
  return ⟨.ofNat edgeId, .ofNat source, .ofNat target, .ofNat edgeType, .ofNat homePart,
    .ofNat sourcePart, .ofNat targetPart⟩

def decodeEdgeIdentityPayload (payload : List UInt8) : StatusOr EdgeIdentity :=
  if payload.length ≠ 44 then
    Status.corruption "edge identity fact" "invalid identity payload length"
  else
    match getAll edgeIdentityFields payload with
    | none => Status.corruption "edge identity fact" "invalid identity payload"
    | some identity =>
        match identity.validate with
        | .error error => Status.corruption "edge identity fact" error.text
        | .ok () => .ok identity

/-- The kind and the data of the record of a fact. -/
def factValuePayload (event : FactEvent) : StatusOr (UInt8 × List UInt8) :=
  match event.edgeIdentity, event.value with
  | some identity, _ => do
      let payload ← encodeEdgeIdentityPayload identity
      return (edgeIdentityValueKind, payload)
  | none, some value => do
      let payload ← encodeValuePayload value
      return (value.type.number.toUInt8, payload)
  | none, none => .ok (noValueKind, [])

/-- A record up to its checksum. -/
def factValueBody (operation : FactOperation) (schemaEpoch : UInt32) (kind : UInt8)
    (payload : List UInt8) : List UInt8 :=
  factValueVersion :: operation.number.toUInt8 :: (putBigEndian 4 schemaEpoch.toNat ++
    kind :: (putBigEndian 4 payload.length ++ payload))

/-- The record of a fact. -/
def encodeFactValue (event : FactEvent) : StatusOr (List UInt8) := do
  event.validate
  let (kind, payload) ← factValuePayload event
  let body := factValueBody event.operation event.schemaEpoch kind payload
  return body ++ putBigEndian 4 (crc32c body).toNat

/-- The operation of a number. -/
def FactOperation.ofNumber : UInt8 → Option FactOperation
  | 1 => some .put
  | 2 => some .delete
  | _ => none

/-- What the checks on an event say if its operation is not known. -/
def unknownOperation (ref : FactRef) (commitSeq : CommitSeq) : StatusError :=
  if commitSeq = 0 then
    ⟨.invalidArgument, "fact event", "zero commit sequence"⟩
  else
    match ref.validate with
    | .error error => error
    | .ok () => ⟨.invalidArgument, "fact mutation", "unknown operation"⟩

/-- The event with the number of an operation, if it passes the checks. -/
def checkedEvent (ref : FactRef) (validFrom : ValidTime) (commitSeq : CommitSeq)
    (operation : UInt8) (schemaEpoch : UInt32) (value : Option Value)
    (identity : Option EdgeIdentity) : StatusOr FactEvent :=
  match FactOperation.ofNumber operation with
  | none => Status.corruption "fact value" (unknownOperation ref commitSeq).text
  | some operation =>
      let event : FactEvent := ⟨ref, validFrom, commitSeq, operation, schemaEpoch, value, identity⟩
      match event.validate with
      | .error error => Status.corruption "fact value" error.text
      | .ok () => .ok event

/-- The header of a record: its version, operation, schema epoch, kind and length. -/
def factValueHeader : Reader (Nat × Nat × Nat × Nat × Nat) := do
  let version ← getBigEndian 1
  let operation ← getBigEndian 1
  let schemaEpoch ← getBigEndian 4
  let kind ← getBigEndian 1
  let payloadLength ← getBigEndian 4
  return (version, operation, schemaEpoch, kind, payloadLength)

/-- The fact of a record between its header and its checksum. -/
def decodeFactPayload (ref : FactRef) (validFrom : ValidTime) (commitSeq : CommitSeq)
    (operation : UInt8) (schemaEpoch : UInt32) (kind : UInt8) (payload : List UInt8) :
    StatusOr FactEvent :=
  if kind = edgeIdentityValueKind then do
    let identity ← decodeEdgeIdentityPayload payload
    checkedEvent ref validFrom commitSeq operation schemaEpoch none (some identity)
  else if kind = noValueKind then
    if payload.length ≠ 0 then
      Status.corruption "fact value" "missing value kind"
    else
      checkedEvent ref validFrom commitSeq operation schemaEpoch none none
  else
    match PhysicalType.ofNumber kind with
    | none => Status.corruption "fact value" "unknown physical value kind"
    | some type => do
        let value ← decodeValuePayload type payload
        checkedEvent ref validFrom commitSeq operation schemaEpoch (some value) none

/-- The fact of a record, given its key. -/
def decodeFactValue (ref : FactRef) (validFrom : ValidTime) (commitSeq : CommitSeq)
    (encoded : List UInt8) : StatusOr FactEvent :=
  if encoded.length < factValueHeaderBytes + factValueChecksumBytes then
    Status.corruption "fact value" "truncated value record"
  else
    match factValueHeader encoded with
    | none => Status.corruption "fact value" "unsupported value format"
    | some ((version, operation, schemaEpoch, kind, payloadLength), rest) =>
        if UInt8.ofNat version ≠ factValueVersion then
          Status.corruption "fact value" "unsupported value format"
        else if payloadLength > maxFactValuePayloadBytes ∨
            rest.length ≠ payloadLength + factValueChecksumBytes then
          Status.corruption "fact value" "invalid payload length"
        else
          let body := encoded.take (encoded.length - factValueChecksumBytes)
          if getAll (getBigEndian 4) (rest.drop payloadLength) ≠ some (crc32c body).toNat then
            Status.corruption "fact value" "CRC32C mismatch"
          else
            decodeFactPayload ref validFrom commitSeq (.ofNat operation) (.ofNat schemaEpoch)
              (.ofNat kind) (rest.take payloadLength)

/-! ### Readers accept what is written -/

section Records

variable {ref : FactRef} {validFrom : ValidTime} {commitSeq : CommitSeq} {event : FactEvent}
  {payload encoded : List UInt8} {identity : EdgeIdentity} {value : Value} {kind number : UInt8}

theorem decodeValuePayload_eq_ok_iff {type : PhysicalType} :
  decodeValuePayload type payload = .ok value ↔ value.type = type ∧ payload = value.payload
  := by
  have htext (bytes text : List UInt8) : some bytes = some text ↔ True ∧ bytes = id text := by
    simp
  have hread := @Value.ofBytes_eq_some_iff putBigEndian (fun n => getAll (getBigEndian n)) id some
    (fun _ => True) payload value (fun _ _ _ => getAll_getBigEndian_iff) htext type
  have htrue : value.TextHas fun _ => True := by cases value <;> trivial
  rw [decodeValuePayload]
  split
  case h_1 value' hvalue' =>
    rw [hvalue'] at hread
    simpa [htrue, Value.payload] using hread
  case h_2 hnone =>
    rw [hnone] at hread
    simpa [htrue, Value.payload, Status.corruption] using hread

/-- The identity of an edge is read exactly from its bytes. -/
theorem edgeIdentityFields_eq_some_iff {rest : List UInt8} :
  edgeIdentityFields payload = some (identity, rest) ↔ payload = identity.payload ++ rest
  := by
  simp only [edgeIdentityFields, ByteCodec.bind_eq_some_iff, pure_eq_some_iff,
    getBigEndian_eq_some_iff, EdgeIdentity.payload, append_assoc]
  constructor
  · rintro ⟨_, _, ⟨hhome, rfl⟩, _, _, ⟨hedge, rfl⟩, _, _, ⟨hsourcePart, rfl⟩, _, _, ⟨hsource, rfl⟩,
      _, _, ⟨htargetPart, rfl⟩, _, _, ⟨htarget, rfl⟩, _, _, ⟨htype, rfl⟩, rfl, rfl⟩
    rw [UInt32.toNat_ofNat_of_lt' hhome, UInt64.toNat_ofNat_of_lt' hedge,
      UInt32.toNat_ofNat_of_lt' hsourcePart, UInt64.toNat_ofNat_of_lt' hsource,
      UInt32.toNat_ofNat_of_lt' htargetPart, UInt64.toNat_ofNat_of_lt' htarget,
      UInt64.toNat_ofNat_of_lt' htype]
  · rintro rfl
    refine ⟨_, _, ⟨identity.homePartId.toNat_lt, rfl⟩, _, _, ⟨identity.edgeId.toNat_lt, rfl⟩, _, _,
      ⟨identity.sourcePartId.toNat_lt, rfl⟩, _, _, ⟨identity.sourceVertexId.toNat_lt, rfl⟩, _, _,
      ⟨identity.targetPartId.toNat_lt, rfl⟩, _, _, ⟨identity.targetVertexId.toNat_lt, rfl⟩, _, _,
      ⟨identity.edgeType.toNat_lt, rfl⟩, ?_, rfl⟩
    simp only [UInt64.ofNat_toNat, UInt32.ofNat_toNat]

theorem getAll_edgeIdentityFields_iff :
  getAll edgeIdentityFields payload = some identity ↔ payload = identity.payload
  := by
  rw [getAll_eq_some_iff, edgeIdentityFields_eq_some_iff, append_nil]

theorem length_edgeIdentityPayload (identity : EdgeIdentity) :
  identity.payload.length = 44
  := by
  simp [EdgeIdentity.payload]

theorem decodeEdgeIdentityPayload_eq_ok_iff :
  decodeEdgeIdentityPayload payload = .ok identity ↔
    identity.validate = .ok () ∧ payload = identity.payload
  := by
  rw [decodeEdgeIdentityPayload]
  constructor
  · intro h
    obtain ⟨-, h⟩ := guard_eq_ok_iff.mp h
    split at h
    · cases h
    case h_2 identity' hfields =>
      split at h
      · cases h
      case h_2 hvalid =>
        obtain rfl := Except.ok.inj h
        use hvalid
        apply getAll_edgeIdentityFields_iff.mp hfields
  · rintro ⟨hvalid, rfl⟩
    rw [if_neg (not_not.mpr (length_edgeIdentityPayload identity)),
      getAll_edgeIdentityFields_iff.mpr rfl]
    simp only [hvalid]

theorem FactOperation.ofNumber_eq_some_iff {operation : FactOperation} :
  FactOperation.ofNumber number = some operation ↔ operation.number.toUInt8 = number
  := by
  constructor
  · intro h
    unfold FactOperation.ofNumber at h
    split at h
    all_goals cases h
    all_goals rfl
  · rintro rfl
    cases operation <;> rfl

/-- The event has a key. -/
structure FactEvent.HasKey (event : FactEvent) (ref : FactRef) (validFrom : ValidTime)
    (commitSeq : CommitSeq) : Prop where
  ref : event.ref = ref
  validFrom : event.validFrom = validFrom
  commitSeq : event.commitSeq = commitSeq

theorem checkedEvent_eq_ok_iff {schemaEpoch : UInt32} {value : Option Value}
    {identity : Option EdgeIdentity} :
  checkedEvent ref validFrom commitSeq number schemaEpoch value identity = .ok event ↔
    event.validate = .ok () ∧ event.HasKey ref validFrom commitSeq ∧
      event.operation.number.toUInt8 = number ∧ event.schemaEpoch = schemaEpoch ∧
        event.value = value ∧ event.edgeIdentity = identity
  := by
  rw [checkedEvent]
  constructor
  · intro h
    split at h
    · cases h
    case h_2 operation hoperation =>
      dsimp only at h
      split at h
      · cases h
      case h_2 hvalid =>
        obtain rfl := Except.ok.inj h
        exact ⟨hvalid, ⟨rfl, rfl, rfl⟩, FactOperation.ofNumber_eq_some_iff.mp hoperation, rfl, rfl,
          rfl⟩
  · rintro ⟨hvalid, ⟨rfl, rfl, rfl⟩, hoperation, rfl, rfl, rfl⟩
    rw [FactOperation.ofNumber_eq_some_iff.mpr hoperation]
    dsimp only
    rw [hvalid]

/-- The kind and the data of an event in a record, of which the data may be too long. -/
def FactEvent.record (event : FactEvent) : UInt8 × List UInt8 :=
  match event.edgeIdentity, event.value with
  | some identity, _ => (edgeIdentityValueKind, identity.payload)
  | none, some value => (value.type.number.toUInt8, value.payload)
  | none, none => (noValueKind, [])

/-- A valid event with the identity of an edge has no value, and its identity is valid. -/
theorem FactEvent.identity_of_validate (hvalid : event.validate = .ok ())
    (hidentity : event.edgeIdentity = some identity) :
  event.value = none ∧ identity.validate = .ok ()
  := by
  have hfamily : event.ref.family = .edgeIdentity := by
    by_contra hne
    rw [edgeIdentity_of_validate hvalid hne] at hidentity
    cases hidentity
  rw [validate, if_pos hfamily, hidentity] at hvalid
  obtain ⟨-, hvalid⟩ := guard_eq_ok_iff.mp hvalid
  obtain ⟨_, -, hvalid⟩ := bind_eq_ok_iff.mp hvalid
  obtain ⟨hnone, hvalid⟩ := check_eq_ok_iff.mp hvalid
  obtain ⟨-, hvalid⟩ := check_eq_ok_iff.mp hvalid
  push Not at hnone
  exact ⟨by simpa using hnone.2.2.2, hvalid⟩

theorem factValuePayload_eq_ok_iff (hvalid : event.validate = .ok ()) {record : UInt8 × List UInt8} :
  factValuePayload event = .ok record ↔
    event.record.2.length ≤ maxFactValuePayloadBytes ∧ record = event.record
  := by
  rw [factValuePayload, FactEvent.record]
  rcases hidentity : event.edgeIdentity with - | identity
  · rcases hvalue : event.value with - | value
    · simp [eq_comm]
    · dsimp only
      rw [encodeValuePayload]
      split
      case isTrue hlong => simp [Status.invalidArgument, bind, Except.bind, not_le.mpr hlong]
      case isFalse hshort => simp [not_lt.mp hshort, eq_comm]
  · obtain ⟨-, hok⟩ := identity_of_validate hvalid hidentity
    have hlength : identity.payload.length ≤ maxFactValuePayloadBytes := by
      rw [length_edgeIdentityPayload]
      decide
    simp [encodeEdgeIdentityPayload, hok, hlength, eq_comm]

/-- The record of an event, of which the data may be too long. -/
def FactEvent.frame (event : FactEvent) : List UInt8 :=
  let body := factValueBody event.operation event.schemaEpoch event.record.1 event.record.2
  body ++ putBigEndian 4 (crc32c body).toNat

/-- A valid event is written, unless its data are too long. -/
theorem encodeFactValue_eq_ok_iff :
  encodeFactValue event = .ok encoded ↔
    event.validate = .ok () ∧ event.record.2.length ≤ maxFactValuePayloadBytes ∧
      encoded = event.frame
  := by
  rw [encodeFactValue, bind_eq_ok_iff]
  constructor
  · rintro ⟨_, hvalid, h⟩
    obtain ⟨record, hrecord, h⟩ := bind_eq_ok_iff.mp h
    obtain ⟨hlength, rfl⟩ := (factValuePayload_eq_ok_iff hvalid).mp hrecord
    exact ⟨hvalid, hlength, (Except.ok.inj h).symm⟩
  · rintro ⟨hvalid, hlength, rfl⟩
    use (), hvalid
    rw [(factValuePayload_eq_ok_iff hvalid).mpr ⟨hlength, rfl⟩]
    rfl

/-- Data are read as an event exactly if they are those of this event. -/
theorem decodeFactPayload_eq_ok_iff {schemaEpoch : UInt32} :
  decodeFactPayload ref validFrom commitSeq number schemaEpoch kind payload = .ok event ↔
    event.validate = .ok () ∧ event.HasKey ref validFrom commitSeq ∧
      event.operation.number.toUInt8 = number ∧ event.schemaEpoch = schemaEpoch ∧
        event.record = (kind, payload)
  := by
  have hkind (type : PhysicalType) :
      type.number.toUInt8 ≠ edgeIdentityValueKind ∧ type.number.toUInt8 ≠ noValueKind := by
    cases type <;> decide
  rw [decodeFactPayload, record]
  constructor
  · intro h
    split_ifs at h with hidentityKind hnoneKind hempty
    · obtain ⟨identity, hdecoded, hchecked⟩ := bind_eq_ok_iff.mp h
      obtain ⟨-, rfl⟩ := decodeEdgeIdentityPayload_eq_ok_iff.mp hdecoded
      obtain ⟨hvalid, hkey, hnumber, hepoch, -, hidentity⟩ := checkedEvent_eq_ok_iff.mp hchecked
      rw [hidentity, hidentityKind]
      exact ⟨hvalid, hkey, hnumber, hepoch, rfl⟩
    · cases h
    · obtain ⟨hvalid, hkey, hnumber, hepoch, hvalue, hidentity⟩ := checkedEvent_eq_ok_iff.mp h
      rw [hidentity, hvalue, hnoneKind, length_eq_zero_iff.mp (not_not.mp hempty)]
      exact ⟨hvalid, hkey, hnumber, hepoch, rfl⟩
    · split at h
      · cases h
      case h_2 type htype =>
        obtain ⟨value, hdecoded, hchecked⟩ := bind_eq_ok_iff.mp h
        obtain ⟨rfl, rfl⟩ := decodeValuePayload_eq_ok_iff.mp hdecoded
        obtain ⟨hvalid, hkey, hnumber, hepoch, hvalue, hidentity⟩ :=
          checkedEvent_eq_ok_iff.mp hchecked
        rw [hidentity, hvalue, ← ofNumber_eq_some_iff.mp htype]
        exact ⟨hvalid, hkey, hnumber, hepoch, rfl⟩
  · rintro ⟨hvalid, hkey, hnumber, hepoch, hrecord⟩
    rcases hidentity : event.edgeIdentity with - | identity
    · rcases hvalue : event.value with - | value
      · rw [hidentity, hvalue] at hrecord
        obtain ⟨rfl, rfl⟩ := Prod.mk.inj hrecord
        exact checkedEvent_eq_ok_iff.mpr ⟨hvalid, hkey, hnumber, hepoch, hvalue, hidentity⟩
      · rw [hidentity, hvalue] at hrecord
        obtain ⟨rfl, rfl⟩ := Prod.mk.inj hrecord
        rw [if_neg (hkind value.type).1, if_neg (hkind value.type).2,
          ofNumber_eq_some_iff.mpr rfl]
        dsimp only
        rw [decodeValuePayload_eq_ok_iff.mpr ⟨rfl, rfl⟩]
        exact checkedEvent_eq_ok_iff.mpr ⟨hvalid, hkey, hnumber, hepoch, hvalue, hidentity⟩
    · obtain ⟨hvalue, hok⟩ := identity_of_validate hvalid hidentity
      rw [hidentity] at hrecord
      obtain ⟨rfl, rfl⟩ := Prod.mk.inj hrecord
      rw [decodeEdgeIdentityPayload_eq_ok_iff.mpr ⟨hok, rfl⟩]
      exact checkedEvent_eq_ok_iff.mpr ⟨hvalid, hkey, hnumber, hepoch, hvalue, hidentity⟩

/-- The numbers of the header are read exactly from its bytes. -/
theorem factValueHeader_eq_some_iff {version operation schemaEpoch kind payloadLength : Nat}
    {rest : List UInt8} :
  factValueHeader encoded = some ((version, operation, schemaEpoch, kind, payloadLength), rest) ↔
    (version < 256 ∧ operation < 256 ∧ schemaEpoch < 256 ^ 4 ∧ kind < 256 ∧
      payloadLength < 256 ^ 4) ∧
    encoded = UInt8.ofNat version :: UInt8.ofNat operation :: (putBigEndian 4 schemaEpoch ++
      UInt8.ofNat kind :: (putBigEndian 4 payloadLength ++ rest))
  := by
  have hbyte (w : Nat) : putBigEndian 1 w = [UInt8.ofNat w] := by simp [putBigEndian]
  simp only [factValueHeader, ByteCodec.bind_eq_some_iff, pure_eq_some_iff,
    getBigEndian_eq_some_iff, Prod.mk.injEq, hbyte]
  constructor
  · rintro ⟨_, _, ⟨hversion, rfl⟩, _, _, ⟨hoperation, rfl⟩, _, _, ⟨hepoch, rfl⟩, _, _, ⟨hkind, rfl⟩,
      _, _, ⟨hlength, rfl⟩, ⟨rfl, rfl, rfl, rfl, rfl⟩, rfl⟩
    exact ⟨⟨hversion, hoperation, hepoch, hkind, hlength⟩, rfl⟩
  · rintro ⟨⟨hversion, hoperation, hepoch, hkind, hlength⟩, rfl⟩
    exact ⟨_, _, ⟨hversion, rfl⟩, _, _, ⟨hoperation, rfl⟩, _, _, ⟨hepoch, rfl⟩, _, _, ⟨hkind, rfl⟩,
      _, _, ⟨hlength, rfl⟩, ⟨rfl, rfl, rfl, rfl, rfl⟩, rfl⟩

/-- A record up to its checksum has a header, and it fits in the record. -/
theorem length_factValueBody (operation : FactOperation) (schemaEpoch : UInt32) (kind : UInt8)
    (payload : List UInt8) :
  (factValueBody operation schemaEpoch kind payload).length = factValueHeaderBytes + payload.length
  := by
  simp [factValueBody, factValueHeaderBytes]
  omega

/-- A record is read as an event exactly if it is the record of this event. -/
theorem decodeFactValue_eq_ok_iff :
  decodeFactValue ref validFrom commitSeq encoded = .ok event ↔
    event.HasKey ref validFrom commitSeq ∧ encodeFactValue event = .ok encoded
  := by
  rw [encodeFactValue_eq_ok_iff, decodeFactValue]
  constructor
  · intro h
    split at h
    · cases h
    split at h
    · cases h
    case h_2 version operation schemaEpoch kind payloadLength rest hheader =>
      obtain ⟨⟨hversionLt, hoperationLt, hepochLt, hkindLt, hlengthLt⟩, hencoded⟩ :=
        factValueHeader_eq_some_iff.mp hheader
      obtain ⟨hversion, h⟩ := guard_eq_ok_iff.mp h
      obtain ⟨hlengths, h⟩ := guard_eq_ok_iff.mp h
      push Not at hlengths
      obtain ⟨hchecksum, h⟩ := guard_eq_ok_iff.mp h
      obtain ⟨-, hstored⟩ := getAll_getBigEndian_iff.mp (not_not.mp hchecksum)
      obtain ⟨hvalid, hkey, hnumber, hepoch, hrecord⟩ := decodeFactPayload_eq_ok_iff.mp h
      have hpayload : (rest.take payloadLength).length = payloadLength := by
        rw [length_take]
        omega
      have hrest : rest = rest.take payloadLength ++ rest.drop payloadLength :=
        (take_append_drop _ _).symm
      -- what comes before the checksum is the header with the data
      have hsplit : encoded =
          factValueBody event.operation event.schemaEpoch event.record.1 event.record.2 ++
            rest.drop payloadLength := by
        rw [hencoded, factValueBody, hnumber, hepoch, hrecord, hpayload,
          UInt32.toNat_ofNat_of_lt' hepochLt, not_not.mp hversion]
        simp
      have hbody : encoded.take (encoded.length - factValueChecksumBytes) =
          factValueBody event.operation event.schemaEpoch event.record.1 event.record.2 := by
        have hcount : (rest.drop payloadLength).length = factValueChecksumBytes := by
          rw [length_drop]
          omega
        rw [hsplit, length_append, hcount, Nat.add_sub_cancel, take_left]
      refine ⟨hkey, hvalid, ?_, ?_⟩
      · rw [hrecord, hpayload]
        apply hlengths.1
      · rw [frame, ← hbody, ← hstored, hbody]
        apply hsplit
  · rintro ⟨hkey, hvalid, hlength, rfl⟩
    have hbytes := length_factValueBody event.operation event.schemaEpoch event.record.1
      event.record.2
    have hframe : event.frame.length =
        factValueHeaderBytes + event.record.2.length + factValueChecksumBytes := by
      rw [frame, length_append, hbytes]
      rfl
    have hlengthLt : event.record.2.length < 256 ^ 4 := lt_of_le_of_lt hlength (by decide)
    have hheader := (@factValueHeader_eq_some_iff event.frame factValueVersion.toNat
      event.operation.number.toUInt8.toNat event.schemaEpoch.toNat event.record.1.toNat
      event.record.2.length (event.record.2 ++ putBigEndian 4
        (crc32c (factValueBody event.operation event.schemaEpoch event.record.1
          event.record.2)).toNat)).mpr ⟨⟨UInt8.toNat_lt _, UInt8.toNat_lt _, UInt32.toNat_lt _,
            UInt8.toNat_lt _, hlengthLt⟩, by
              simp only [UInt8.ofNat_toNat, frame, factValueBody, cons_append,
                append_assoc]⟩
    rw [if_neg (by omega), hheader]
    dsimp only
    rw [if_neg (by simp), if_neg (by simp [factValueChecksumBytes, hlength]), hframe,
      Nat.add_sub_cancel, ← hbytes, frame, take_left, drop_left, take_left,
      if_neg]
    · simp only [UInt8.ofNat_toNat, UInt32.ofNat_toNat]
      exact decodeFactPayload_eq_ok_iff.mpr ⟨hvalid, hkey, rfl, rfl, rfl⟩
    · rw [not_not]
      exact getAll_getBigEndian_iff.mpr ⟨UInt32.toNat_lt _, rfl⟩

/-- The data of a value are short, unless it is a long text. -/
theorem length_payload_le_iff :
  value.payload.length ≤ maxFactValuePayloadBytes ↔
    value.TextHas (·.length ≤ maxFactValuePayloadBytes)
  := by
  have hfour : 4 ≤ maxFactValuePayloadBytes := by decide
  have height : 8 ≤ maxFactValuePayloadBytes := by decide
  have hone : 1 ≤ maxFactValuePayloadBytes := by decide
  cases value with
  | bool _ => simp [payload, bytes, TextHas, hone]
  | int32 _ | float32 _ => simp [payload, bytes, TextHas, hfour]
  | int64 _ | float64 _ | timestamp _ => simp [payload, bytes, TextHas, height]
  | string _ => rfl
  | binary _ => rfl

/-- The data of a valid event are short, unless its value is a long text. -/
theorem length_record_le_iff (hvalid : event.validate = .ok ()) :
  event.record.2.length ≤ maxFactValuePayloadBytes ↔
    ∀ value ∈ event.value, value.TextHas (·.length ≤ maxFactValuePayloadBytes)
  := by
  rw [record]
  rcases hidentity : event.edgeIdentity with - | identity
  · rcases hvalue : event.value with - | value
    · simp
    · simpa using length_payload_le_iff
  · obtain ⟨hvalue, -⟩ := identity_of_validate hvalid hidentity
    rw [hvalue]
    simp only [length_edgeIdentityPayload, not_mem_none, false_imp_iff, implies_true]
    decide

end Records

/-- A valid event whose text is not longer than the limit for a record is read as it was written, and
other events are not written.  What is read from a record is valid, has the key, and is written as
this record.  Values are read as they were written, and what is read as a value is written in the
same way. -/
theorem factValue_roundTrip :
  (∀ event : FactEvent, event.validate = .ok () →
    ((∃ encoded, encodeFactValue event = .ok encoded ∧
        decodeFactValue event.ref event.validFrom event.commitSeq encoded = .ok event) ↔
      ∀ value ∈ event.value, value.TextHas (·.length ≤ maxFactValuePayloadBytes))) ∧
  (∀ ref validFrom commitSeq encoded event,
    decodeFactValue ref validFrom commitSeq encoded = .ok event →
      event.validate = .ok () ∧ event.HasKey ref validFrom commitSeq ∧
        encodeFactValue event = .ok encoded) ∧
  (∀ value : Value, value.TextHas (·.length < 2 ^ 32) → Value.decode value.encode = some value) ∧
  (∀ bytes value, Value.decode bytes = some value → value.encode = bytes)
  := by
  refine ⟨?_, ?_, ?_, ?_⟩
  · intro event hvalid
    rw [← length_record_le_iff hvalid]
    constructor
    · rintro ⟨encoded, hencoded, -⟩
      apply (encodeFactValue_eq_ok_iff.mp hencoded).2.1
    · intro hlength
      have hencoded := encodeFactValue_eq_ok_iff.mpr ⟨hvalid, hlength, rfl⟩
      use event.frame, hencoded
      exact decodeFactValue_eq_ok_iff.mpr ⟨⟨rfl, rfl, rfl⟩, hencoded⟩
  · intro ref validFrom commitSeq encoded event h
    obtain ⟨hkey, hencoded⟩ := decodeFactValue_eq_ok_iff.mp h
    exact ⟨(encodeFactValue_eq_ok_iff.mp hencoded).1, hkey, hencoded⟩
  · intro value htext
    exact decode_eq_some_iff.mpr ⟨htext, rfl⟩
  · intro bytes value h
    exact (decode_eq_some_iff.mp h).2.symm

/-- The assertion of a property of a vertex with a text. -/
def textEvent (text : List UInt8) : FactEvent where
  ref := PropertyFact.vertex ⟨0, 1⟩ 7
  validFrom := 0
  commitSeq := 1
  schemaEpoch := 1
  value := some (.string text)

theorem validate_textEvent (text : List UInt8) :
  (textEvent text).validate = .ok ()
  := rfl

/-- A short text is read as it was written. -/
theorem textEvent_roundTrip :
  (textEvent [0x61]).validate = .ok () ∧
    ∃ encoded, encodeFactValue (textEvent [0x61]) = .ok encoded ∧
      decodeFactValue (PropertyFact.vertex ⟨0, 1⟩ 7) 0 1 encoded = .ok (textEvent [0x61])
  := by
  use validate_textEvent _
  apply (factValue_roundTrip.1 (textEvent [0x61]) (validate_textEvent _)).mpr
  intro value hvalue
  obtain rfl := some.inj hvalue
  change 1 ≤ maxFactValuePayloadBytes
  decide

/-- A text one byte longer than the limit for a record makes a valid event, which is not written. -/
theorem textEvent_not_encoded :
  ∃ event : FactEvent, event.validate = .ok () ∧
    (∀ value ∈ event.value, value.TextHas (·.length < 2 ^ 32)) ∧
    ¬ ∃ encoded, encodeFactValue event = .ok encoded ∧
      decodeFactValue event.ref event.validFrom event.commitSeq encoded = .ok event
  := by
  refine ⟨textEvent (replicate (maxFactValuePayloadBytes + 1) 0), validate_textEvent _, ?_, ?_⟩
  · intro value hvalue
    obtain rfl := some.inj hvalue
    change (replicate _ _).length < _
    rw [length_replicate]
    decide
  · rintro ⟨encoded, hencoded, -⟩
    obtain ⟨hvalid, hlength, -⟩ := encodeFactValue_eq_ok_iff.mp hencoded
    have hshort := (length_record_le_iff hvalid).mp hlength _ rfl
    change (replicate _ _).length ≤ _ at hshort
    rw [length_replicate] at hshort
    apply Nat.not_succ_le_self _ hshort

end Cedar
