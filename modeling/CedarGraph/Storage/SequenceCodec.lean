import CedarGraph.Fact.FactCodec
import CedarGraph.Storage.SequenceRecord

/-!
# Sequence records as bytes

A record of the store has its kind and its length before its data, and a checksum after them.  The
data of a sequence record have a header, and then for each fact the parts of its key but the commit.

There are two readers.  One puts the keys together into a list and checks the record.  The other one
puts them together into a row of bytes, and what it returns is checked on its own.  They accept the
same bytes and find the same keys.
-/

namespace Cedar

open Option StatusOr List

namespace MetaCodec

open ByteCodec

/-! ### Records of the store -/

/-- The version of the format of records. -/
def metaVersion : UInt8 := 1

/-- The kind of a compact sequence record. -/
def sequenceV2Kind : UInt8 := 9

def metaHeaderBytes : Nat := 6

def metaChecksumBytes : Nat := 4

/-- A record up to its checksum. -/
def recordBody (kind : UInt8) (payload : List UInt8) : List UInt8 :=
  metaVersion :: kind :: (putBigEndian 4 payload.length ++ payload)

/-- A record with its checksum. -/
def recordFrame (kind : UInt8) (payload : List UInt8) : List UInt8 :=
  recordBody kind payload ++ putBigEndian 4 (crc32c (recordBody kind payload)).toNat

def encodeRecord (kind : UInt8) (payload : List UInt8) : StatusOr (List UInt8) :=
  if payload.length > maxMetaPayloadBytes then
    Status.invalidArgument "metadata" "payload exceeds size limit"
  else
    .ok (recordFrame kind payload)

/-- The version, the kind and the length of a record. -/
def recordHeader : Reader (Nat × Nat × Nat) := do
  let version ← getBigEndian 1
  let kind ← getBigEndian 1
  let payloadLength ← getBigEndian 4
  return (version, kind, payloadLength)

/-- The data of a record of a kind. -/
def decodeRecordView (expectedKind : UInt8) (encoded : List UInt8) : StatusOr (List UInt8) :=
  if encoded.length < metaHeaderBytes + metaChecksumBytes then
    Status.corruption "metadata" "truncated record"
  else
    match recordHeader encoded with
    | none => Status.corruption "metadata" "invalid record header"
    | some ((version, kind, payloadLength), rest) =>
        if UInt8.ofNat version ≠ metaVersion ∨ UInt8.ofNat kind ≠ expectedKind ∨
            payloadLength > maxMetaPayloadBytes ∨
            rest.length ≠ payloadLength + metaChecksumBytes then
          Status.corruption "metadata" "invalid record header"
        else
          let body := encoded.take (encoded.length - metaChecksumBytes)
          if getAll (getBigEndian 4) (rest.drop payloadLength) ≠ some (crc32c body).toNat then
            Status.corruption "metadata" "CRC32C mismatch"
          else
            .ok (rest.take payloadLength)

/-! ### The data of sequence records -/

def sequenceV2PayloadVersion : UInt8 := 1

/-- The parts of the key of a fact but the commit. -/
def factDescriptor (fact : FactRef × ValidTime) : List UInt8 :=
  putBigEndian 4 fact.1.partId.toNat ++ (UInt8.ofNat fact.1.family.number ::
    (putBigEndian 2 fact.1.propertyId.toNat ++ (putBigEndian 8 fact.1.entityId.toNat ++
      timeBytes fact.2)))

/-- The data of a sequence record. -/
def sequenceV2Payload (txnId systemHlc : UInt64) (facts : List (FactRef × ValidTime)) :
    List UInt8 :=
  sequenceV2PayloadVersion :: factKeyVersion :: (putBigEndian 8 txnId.toNat ++
    (putBigEndian 8 systemHlc.toNat ++ (putBigEndian 4 facts.length ++
      facts.flatMap factDescriptor)))

def encodeSequenceRecordV2 (record : SequenceRecord) : StatusOr (List UInt8) := do
  record.validate
  let facts ← describeFactKeys record.commitSeq record.factKeys
  encodeRecord sequenceV2Kind (sequenceV2Payload record.txnId record.systemHlc facts)

/-- The header of the data, and the bytes of the facts. -/
structure SequenceV2Layout where
  txnId : UInt64
  systemHlc : UInt64
  factCount : Nat
  facts : List UInt8

/-- The numbers of the header. -/
def sequenceV2Header : Reader (Nat × Nat × Nat × Nat × Nat) := do
  let payloadVersion ← getBigEndian 1
  let keyVersion ← getBigEndian 1
  let txnId ← getBigEndian 8
  let systemHlc ← getBigEndian 8
  let factCount ← getBigEndian 4
  return (payloadVersion, keyVersion, txnId, systemHlc, factCount)

def parseSequenceV2Payload (bytes : List UInt8) : StatusOr SequenceV2Layout :=
  if bytes.length < sequenceV2HeaderBytes then
    Status.corruption "sequence record" "invalid sequence record"
  else
    match sequenceV2Header bytes with
    | none => Status.corruption "sequence record" "invalid sequence record"
    | some ((payloadVersion, keyVersion, txnId, systemHlc, factCount), rest) =>
        if UInt8.ofNat payloadVersion ≠ sequenceV2PayloadVersion then
          Status.corruption "sequence record" "unsupported sequence payload version"
        else if UInt8.ofNat keyVersion ≠ factKeyVersion then
          Status.corruption "sequence record" "unsupported fact key version"
        else if factCount = 0 ∨ factCount > rest.length / sequenceV2FactBytes ∨
            rest.length ≠ factCount * sequenceV2FactBytes then
          Status.corruption "sequence record" "invalid sequence record"
        else
          .ok ⟨.ofNat txnId, .ofNat systemHlc, factCount, rest⟩

/-- The numbers of the parts of a key. -/
def factDescriptorFields : Reader (Nat × Nat × Nat × Nat × Nat) := do
  let partId ← getBigEndian 4
  let family ← getBigEndian 1
  let propertyId ← getBigEndian 2
  let entityId ← getBigEndian 8
  let validFromDesc ← getBigEndian 8
  return (partId, family, propertyId, entityId, validFromDesc)

/-- The first fact of some bytes, and the bytes after it. -/
def readSequenceV2Fact (bytes : List UInt8) : StatusOr ((FactRef × ValidTime) × List UInt8) :=
  match factDescriptorFields bytes with
  | none => Status.corruption "sequence record" "invalid sequence record"
  | some ((partId, number, propertyId, entityId, validFromDesc), rest) =>
      match FactFamily.ofNumber number with
      | none =>
          Status.corruption "sequence record"
            (StatusError.text ⟨.invalidArgument, "fact reference", "unknown fact family"⟩)
      | some family =>
          let ref : FactRef := ⟨.ofNat partId, family, .ofNat propertyId, .ofNat entityId⟩
          match ref.validate with
          | .error error => Status.corruption "sequence record" error.text
          | .ok () => .ok ((ref, ~~~(UInt64.ofNat validFromDesc)), rest)

/-- The key of the first fact of some bytes, and the bytes after it. -/
def rebuildSequenceV2FactKey (commitSeq : CommitSeq) (bytes : List UInt8) :
    StatusOr (List UInt8 × List UInt8) := do
  let (fact, rest) ← readSequenceV2Fact bytes
  let key := encodeFactKey fact.1 fact.2 commitSeq
  if key = [] then
    Status.corruption "sequence record" "invalid fact identity"
  else
    return (key, rest)

/-- The keys of so many facts. -/
def rebuildKeys (commitSeq : CommitSeq) : Nat → List UInt8 → StatusOr (List (List UInt8))
  | 0, _ => .ok []
  | count + 1, bytes => do
      let (key, rest) ← rebuildSequenceV2FactKey commitSeq bytes
      let keys ← rebuildKeys commitSeq count rest
      return key :: keys

def decodeSequenceRecordV2 (encoded : List UInt8) (commitSeq : CommitSeq) :
    StatusOr SequenceRecord :=
  if commitSeq = 0 then
    Status.corruption "sequence record" "v2 sequence record requires its commit sequence"
  else do
    let payload ← decodeRecordView sequenceV2Kind encoded
    let header ← parseSequenceV2Payload payload
    let keys ← rebuildKeys commitSeq header.factCount header.facts
    let record : SequenceRecord := ⟨commitSeq, header.txnId, header.systemHlc, keys⟩
    match record.validate with
    | .error error => Status.corruption "sequence record" error.text
    | .ok () => return record

/-- A sequence record whose keys are one after another in a row of bytes. -/
structure SequenceRecordBytes where
  commitSeq : CommitSeq
  txnId : UInt64
  systemHlc : UInt64
  factCount : Nat
  identities : List UInt8

open SequenceRecordBytes

/-- The keys of so many facts after some bytes. -/
def appendKeys (commitSeq : CommitSeq) : Nat → List UInt8 → List UInt8 → StatusOr (List UInt8)
  | 0, _, owned => .ok owned
  | count + 1, bytes, owned => do
      let (key, rest) ← rebuildSequenceV2FactKey commitSeq bytes
      appendKeys commitSeq count rest (owned ++ key)

def decodeSequenceRecordViewV2 (encoded : List UInt8) (commitSeq : CommitSeq) :
    StatusOr SequenceRecordBytes :=
  if commitSeq = 0 then
    Status.corruption "sequence record" "v2 sequence record requires its commit sequence"
  else do
    let payload ← decodeRecordView sequenceV2Kind encoded
    let header ← parseSequenceV2Payload payload
    let owned ← appendKeys commitSeq header.factCount header.facts []
    return ⟨commitSeq, header.txnId, header.systemHlc, header.factCount, owned⟩

namespace SequenceRecordBytes

/-- The keys in the row of bytes. -/
def factKeys (view : SequenceRecordBytes) : List (List UInt8) :=
  (List.range view.factCount).map fun index =>
    (view.identities.drop (index * encodedFactKeyBytes)).take encodedFactKeyBytes

def validate (view : SequenceRecordBytes) : Status :=
  if view.commitSeq = 0 ∨ view.txnId = 0 ∨ view.factCount = 0 ∨
      view.identities.length ≠ view.factCount * encodedFactKeyBytes then
    Status.invalidArgument "sequence record" "invalid sequence metadata"
  else
    checkFactKeys view.commitSeq [] view.factKeys

end SequenceRecordBytes

/-! ### What is written is read -/

section Written

variable {kind : UInt8} {payload bytes : List UInt8} {commitSeq : CommitSeq}
  {facts : List (FactRef × ValidTime)}

theorem reads_byte (b : UInt8) :
  Reads (getBigEndian 1) [b] b.toNat
  := by
  have hreads := @reads_getBigEndian 1 b.toNat b.toNat_lt
  simpa [putBigEndian] using hreads

theorem reads_word32 (x : UInt32) :
  Reads (getBigEndian 4) (putBigEndian 4 x.toNat) x.toNat
  := reads_getBigEndian x.toNat_lt

theorem reads_word64 (x : UInt64) :
  Reads (getBigEndian 8) (putBigEndian 8 x.toNat) x.toNat
  := reads_getBigEndian x.toNat_lt

/-- The header of a record is read. -/
theorem recordHeader_recordFrame (hlength : payload.length ≤ maxMetaPayloadBytes) :
  recordHeader (recordFrame kind payload) =
    some ((metaVersion.toNat, kind.toNat, payload.length), payload ++
      putBigEndian 4 (crc32c (recordBody kind payload)).toNat)
  := by
  have hlengthLt : payload.length < 256 ^ 4 := lt_of_le_of_lt hlength (by decide)
  have hreads : Reads recordHeader ([metaVersion] ++ ([kind] ++ putBigEndian 4 payload.length))
      (metaVersion.toNat, kind.toNat, payload.length) := by
    apply (reads_byte _).bind
    apply (reads_byte _).bind
    apply (reads_getBigEndian hlengthLt).map
  rw [← hreads, recordFrame, recordBody]
  simp

/-- The data of a record which fit are read from it. -/
theorem decodeRecordView_recordFrame (hlength : payload.length ≤ maxMetaPayloadBytes) :
  decodeRecordView kind (recordFrame kind payload) = .ok payload
  := by
  have hbody : (recordBody kind payload).length = metaHeaderBytes + payload.length := by
    simp [recordBody, metaHeaderBytes]
    omega
  have hframe : (recordFrame kind payload).length =
      metaHeaderBytes + payload.length + metaChecksumBytes := by
    rw [recordFrame, length_append, hbody]
    rfl
  rw [decodeRecordView, if_neg (by omega), recordHeader_recordFrame hlength]
  dsimp only
  rw [if_neg (by simp [metaChecksumBytes, hlength]), hframe, Nat.add_sub_cancel, ← hbody,
    recordFrame, take_left, drop_left, take_left, if_neg]
  rw [not_not]
  exact getAll_getBigEndian_iff.mpr ⟨UInt32.toNat_lt _, rfl⟩

theorem length_factDescriptor (fact : FactRef × ValidTime) :
  (factDescriptor fact).length = sequenceV2FactBytes
  := by
  simp [factDescriptor, sequenceV2FactBytes]

theorem length_flatMap_factDescriptor (facts : List (FactRef × ValidTime)) :
  (facts.flatMap factDescriptor).length = facts.length * sequenceV2FactBytes
  := by
  induction facts with
  | nil => simp
  | cons fact facts ih =>
    rw [flatMap_cons, length_append, ih, length_factDescriptor, length_cons,
      Nat.succ_mul, Nat.add_comm]

theorem length_sequenceV2Payload (txnId systemHlc : UInt64) (facts : List (FactRef × ValidTime)) :
  (sequenceV2Payload txnId systemHlc facts).length =
    sequenceV2HeaderBytes + facts.length * sequenceV2FactBytes
  := by
  simp only [sequenceV2Payload, sequenceV2HeaderBytes, length_cons, length_append,
    length_putBigEndian, length_flatMap_factDescriptor]
  omega

/-- The header of the data is read. -/
theorem parseSequenceV2Payload_payload (txnId systemHlc : UInt64) (hfacts : facts ≠ [])
    (hlength : facts.length < 2 ^ 32) :
  parseSequenceV2Payload (sequenceV2Payload txnId systemHlc facts) =
    .ok ⟨txnId, systemHlc, facts.length, facts.flatMap factDescriptor⟩
  := by
  have hreads : Reads sequenceV2Header ([sequenceV2PayloadVersion] ++ ([factKeyVersion] ++
      (putBigEndian 8 txnId.toNat ++ (putBigEndian 8 systemHlc.toNat ++
        putBigEndian 4 facts.length))))
      (sequenceV2PayloadVersion.toNat, factKeyVersion.toNat, txnId.toNat, systemHlc.toNat,
        facts.length) := by
    apply (reads_byte _).bind
    apply (reads_byte _).bind
    apply (reads_word64 _).bind
    apply (reads_word64 _).bind
    apply (reads_getBigEndian (n := 4) hlength).map
  have hheader : sequenceV2Header (sequenceV2Payload txnId systemHlc facts) =
      some ((sequenceV2PayloadVersion.toNat, factKeyVersion.toNat, txnId.toNat, systemHlc.toNat,
        facts.length), facts.flatMap factDescriptor) := by
    rw [← hreads, sequenceV2Payload]
    simp
  have hcount : facts.length ≠ 0 := by simpa using hfacts
  have hdiv : facts.length * sequenceV2FactBytes / sequenceV2FactBytes = facts.length :=
    Nat.mul_div_cancel _ (by decide)
  rw [parseSequenceV2Payload, length_sequenceV2Payload, if_neg (by omega), hheader]
  dsimp only
  rw [if_neg (by simp), if_neg (by simp), length_flatMap_factDescriptor, hdiv,
    if_neg (by simp [hcount]), UInt64.ofNat_toNat, UInt64.ofNat_toNat]

/-- The key of a fact is rebuilt from its descriptor. -/
theorem rebuildSequenceV2FactKey_descriptor {fact : FactRef × ValidTime}
    (href : fact.1.validate = .ok ()) (hcommit : commitSeq ≠ 0) (rest : List UInt8) :
  rebuildSequenceV2FactKey commitSeq (factDescriptor fact ++ rest) =
    .ok (encodeFactKey fact.1 fact.2 commitSeq, rest)
  := by
  have hnumber : (UInt8.ofNat fact.1.family.number).toNat = fact.1.family.number :=
    UInt8.toNat_ofNat_of_lt fact.1.family.number_lt
  have hproperty : fact.1.propertyId.toNat < 256 ^ 2 := fact.1.propertyId.toNat_lt
  have hreads : Reads factDescriptorFields (putBigEndian 4 fact.1.partId.toNat ++
      ([UInt8.ofNat fact.1.family.number] ++ (putBigEndian 2 fact.1.propertyId.toNat ++
        (putBigEndian 8 fact.1.entityId.toNat ++ putBigEndian 8 (~~~fact.2).toNat))))
      (fact.1.partId.toNat, (UInt8.ofNat fact.1.family.number).toNat, fact.1.propertyId.toNat,
        fact.1.entityId.toNat, (~~~fact.2).toNat) := by
    apply (reads_word32 _).bind
    apply (reads_byte _).bind
    apply (reads_getBigEndian hproperty).bind
    apply (reads_word64 _).bind
    apply (reads_word64 _).map
  have hfields := hreads rest
  rw [hnumber] at hfields
  have hread : readSequenceV2Fact (factDescriptor fact ++ rest) = .ok (fact, rest) := by
    rw [readSequenceV2Fact, factDescriptor, timeBytes]
    simp only [singleton_append] at hfields
    rw [hfields]
    simp only [FactFamily.ofNumber_number, UInt32.ofNat_toNat, UInt16.ofNat_toNat,
      UInt64.ofNat_toNat, UInt64.not_not, href]
  have hkey : encodeFactKey fact.1 fact.2 commitSeq ≠ [] := by
    rw [encodeFactKey_eq href hcommit]
    simp [FactRef.keyBytes]
  rw [rebuildSequenceV2FactKey, hread, ok_bind]
  dsimp only
  rw [if_neg hkey]
  rfl

/-- The keys of facts are rebuilt from their descriptors. -/
theorem rebuildKeys_descriptors (hcommit : commitSeq ≠ 0)
    (hfacts : ∀ fact ∈ facts, fact.1.validate = .ok ()) :
  rebuildKeys commitSeq facts.length (facts.flatMap factDescriptor) =
    .ok (facts.map fun fact => encodeFactKey fact.1 fact.2 commitSeq)
  := by
  induction facts with
  | nil => rfl
  | cons fact facts ih =>
    obtain ⟨hfact, hfacts⟩ := forall_mem_cons.mp hfacts
    rw [length_cons, rebuildKeys, flatMap_cons,
      rebuildSequenceV2FactKey_descriptor hfact hcommit, ok_bind]
    dsimp only
    rw [ih hfacts]
    rfl

/-- Keys which pass the check are described, and they are those of their descriptions. -/
theorem describeFactKeys_of_check {keys : List (List UInt8)}
    (h : ∀ key ∈ keys, ∃ decoded, decodeFactKey key = .ok decoded ∧
      decoded.commitSeq = commitSeq) :
  ∃ facts, describeFactKeys commitSeq keys = .ok facts ∧
    (∀ fact ∈ facts, fact.1.validate = .ok ()) ∧
    facts.map (fun fact => encodeFactKey fact.1 fact.2 commitSeq) = keys
  := by
  induction keys with
  | nil => exact ⟨[], rfl, forall_mem_nil _, rfl⟩
  | cons key keys ih =>
    obtain ⟨⟨decoded, hdecoded, hcommit⟩, h⟩ := forall_mem_cons.mp h
    obtain ⟨facts, hfacts, hvalid, hkeys⟩ := ih h
    obtain ⟨href, -, hencoded⟩ := encodeFactKey_of_decodeFactKey hdecoded
    rw [hcommit] at hencoded
    refine ⟨(decoded.ref, decoded.validFrom) :: facts, ?_, ?_, ?_⟩
    · rw [describeFactKeys, hdecoded, ok_bind, if_neg (not_not.mpr hencoded), hfacts]
      rfl
    · exact forall_mem_cons.mpr ⟨href, hvalid⟩
    · rw [map_cons, hkeys, hencoded]

/-- A valid record is written exactly if its data fit, and then it is read as it was written. -/
theorem encodeSequenceRecordV2_of_validate {record : SequenceRecord}
    (hvalid : record.validate = .ok ()) :
  if sequenceV2HeaderBytes + record.factKeys.length * sequenceV2FactBytes ≤ maxMetaPayloadBytes then
    ∃ encoded, encodeSequenceRecordV2 record = .ok encoded ∧
      decodeSequenceRecordV2 encoded record.commitSeq = .ok record
  else
    encodeSequenceRecordV2 record = Status.invalidArgument "metadata" "payload exceeds size limit"
  := by
  obtain ⟨hmeta, hcheck⟩ := guard_eq_ok_iff.mp hvalid
  push Not at hmeta
  obtain ⟨hcommit, -, hnil, hlength⟩ := hmeta
  obtain ⟨facts, hfacts, hrefs, hkeys⟩ := describeFactKeys_of_check (checkFactKeys_eq_ok_iff.mp hcheck).1
  have hcount : record.factKeys.length = facts.length := by
    rw [← hkeys, length_map]
  have hsome : facts ≠ [] := by
    rintro rfl
    exact hnil hkeys.symm
  have hencode : encodeSequenceRecordV2 record =
      encodeRecord sequenceV2Kind (sequenceV2Payload record.txnId record.systemHlc facts) := by
    rw [encodeSequenceRecordV2, hvalid, ok_bind, hfacts, ok_bind]
  rw [hencode, encodeRecord, length_sequenceV2Payload, hcount]
  split
  case isTrue hfits =>
    refine ⟨_, if_neg (not_lt.mpr hfits), ?_⟩
    rw [decodeSequenceRecordV2, if_neg hcommit,
      decodeRecordView_recordFrame (by rw [length_sequenceV2Payload]; exact hfits),
      ok_bind, parseSequenceV2Payload_payload _ _ hsome (by omega), ok_bind]
    dsimp only
    rw [rebuildKeys_descriptors hcommit hrefs, ok_bind, hkeys, hvalid]
    rfl
  case isFalse hfits => exact if_pos (not_le.mp hfits)

end Written

/-! ### The two readers -/

open Except

section Readers

variable {bytes encoded owned : List UInt8} {commitSeq : CommitSeq} {keys : List (List UInt8)}

/-- A key which is rebuilt is a key. -/
theorem length_of_rebuildSequenceV2FactKey {key rest : List UInt8}
    (h : rebuildSequenceV2FactKey commitSeq bytes = .ok (key, rest)) :
  key.length = encodedFactKeyBytes
  := by
  obtain ⟨⟨fact, rest'⟩, -, h⟩ := bind_eq_ok_iff.mp h
  obtain ⟨hkey, h⟩ := guard_eq_ok_iff.mp h
  obtain ⟨rfl, -⟩ := Prod.mk.inj (ok.inj h)
  rw [encodeFactKey] at hkey ⊢
  split
  case h_1 href => simp [href] at hkey
  case h_2 href =>
    split
    case isTrue hcommit => simp [href, hcommit] at hkey
    case isFalse => simp [factIdentityPrefixBytes, encodedFactKeyBytes]

variable {count : Nat} {header : SequenceV2Layout}

/-- As many keys as there are facts are rebuilt. -/
theorem length_of_rebuildKeys (h : rebuildKeys commitSeq count bytes = .ok keys) :
  keys.length = count ∧ ∀ key ∈ keys, key.length = encodedFactKeyBytes
  := by
  induction count generalizing bytes keys with
  | zero =>
    obtain rfl := ok.inj h
    exact ⟨rfl, forall_mem_nil _⟩
  | succ count ih =>
    obtain ⟨⟨key, rest⟩, hkey, h⟩ := bind_eq_ok_iff.mp h
    obtain ⟨keys', hkeys', h⟩ := bind_eq_ok_iff.mp h
    obtain rfl := ok.inj h
    obtain ⟨hlength, hall⟩ := ih hkeys'
    exact ⟨by rw [length_cons, hlength],
      forall_mem_cons.mpr ⟨length_of_rebuildSequenceV2FactKey hkey, hall⟩⟩

/-- The row of bytes has the keys one after another. -/
theorem appendKeys_eq_ok_iff {result : List UInt8} :
  appendKeys commitSeq count bytes owned = .ok result ↔
    ∃ keys, rebuildKeys commitSeq count bytes = .ok keys ∧ result = owned ++ keys.flatten
  := by
  induction count generalizing bytes owned with
  | zero => simp [appendKeys, rebuildKeys, eq_comm]
  | succ count ih =>
    rw [appendKeys, rebuildKeys]
    constructor
    · intro h
      obtain ⟨⟨key, rest⟩, hkey, h⟩ := bind_eq_ok_iff.mp h
      obtain ⟨keys, hkeys, rfl⟩ := ih.mp h
      refine ⟨key :: keys, ?_, by rw [flatten_cons, append_assoc]⟩
      rw [hkey, ok_bind]
      dsimp only
      rw [hkeys]
      rfl
    · rintro ⟨_, h, rfl⟩
      obtain ⟨⟨key, rest⟩, hkey, h⟩ := bind_eq_ok_iff.mp h
      obtain ⟨keys, hkeys, h⟩ := bind_eq_ok_iff.mp h
      obtain rfl := ok.inj h
      rw [hkey]
      exact ih.mpr ⟨keys, hkeys, by rw [flatten_cons, append_assoc]⟩

/-- Entries of one length are found in their row. -/
theorem map_take_drop_flatten {n : Nat} (h : ∀ key ∈ keys, key.length = n) :
  (range keys.length).map (fun index => (keys.flatten.drop (index * n)).take n) = keys
  := by
  induction keys with
  | nil => rfl
  | cons key keys ih =>
    obtain ⟨hkey, hkeys⟩ := forall_mem_cons.mp h
    rw [List.length_cons, List.range_succ_eq_map, List.map_cons, List.map_map, List.flatten_cons]
    congr 1
    · rw [Nat.zero_mul, drop_zero, ← hkey, take_left]
    · nth_rewrite 3 [← ih hkeys]
      apply map_congr_left
      intro index _
      have hdrop : (key ++ keys.flatten).drop n = keys.flatten := by
        rw [← hkey, drop_left]
      rw [Function.comp_apply, Nat.succ_mul, Nat.add_comm, ← drop_drop, hdrop]

/-- The header of the data has a count of 32 bits, which is not zero. -/
theorem factCount_of_parseSequenceV2Payload (h : parseSequenceV2Payload bytes = .ok header) :
  header.factCount ≠ 0 ∧ header.factCount < 2 ^ 32
  := by
  obtain ⟨-, h⟩ := guard_eq_ok_iff.mp h
  split at h
  · cases h
  case h_2 hheader =>
    obtain ⟨-, h⟩ := guard_eq_ok_iff.mp h
    obtain ⟨-, h⟩ := guard_eq_ok_iff.mp h
    obtain ⟨hcount, h⟩ := guard_eq_ok_iff.mp h
    push Not at hcount
    obtain rfl := ok.inj h
    simp only [sequenceV2Header, ByteCodec.bind_eq_some_iff, getBigEndian_eq_some_iff] at hheader
    obtain ⟨_, _, -, _, _, -, _, _, -, _, _, -, _, _, ⟨hlt, -⟩, ⟨⟩, -⟩ := hheader
    exact ⟨hcount.1, hlt⟩

/-- What both readers find in some bytes. -/
structure FoundIn (encoded : List UInt8) (commitSeq : CommitSeq) (header : SequenceV2Layout)
    (keys : List (List UInt8)) : Prop where
  commit : commitSeq ≠ 0
  payload : ∃ payload, decodeRecordView sequenceV2Kind encoded = .ok payload ∧
    parseSequenceV2Payload payload = .ok header
  keys : rebuildKeys commitSeq header.factCount header.facts = .ok keys

/-- The reader of records accepts what is found if it passes the check. -/
theorem decodeSequenceRecordV2_eq_ok_iff {record : SequenceRecord} :
  decodeSequenceRecordV2 encoded commitSeq = .ok record ↔
    ∃ header keys, FoundIn encoded commitSeq header keys ∧
      record = ⟨commitSeq, header.txnId, header.systemHlc, keys⟩ ∧ record.validate = .ok ()
  := by
  constructor
  · intro h
    obtain ⟨hcommit, h⟩ := guard_eq_ok_iff.mp h
    obtain ⟨payload, hpayload, h⟩ := bind_eq_ok_iff.mp h
    obtain ⟨header, hheader, h⟩ := bind_eq_ok_iff.mp h
    obtain ⟨keys, hkeys, h⟩ := bind_eq_ok_iff.mp h
    dsimp only at h
    split at h
    · cases h
    case h_2 hvalid =>
      obtain rfl := ok.inj h
      exact ⟨header, keys, ⟨hcommit, ⟨payload, hpayload, hheader⟩, hkeys⟩, rfl, hvalid⟩
  · rintro ⟨header, keys, ⟨hcommit, ⟨payload, hpayload, hheader⟩, hkeys⟩, rfl, hvalid⟩
    rw [decodeSequenceRecordV2, if_neg hcommit, hpayload, ok_bind, hheader,
      ok_bind, hkeys, ok_bind]
    dsimp only
    rw [hvalid]
    rfl

/-- The other reader accepts what is found. -/
theorem decodeSequenceRecordViewV2_eq_ok_iff {view : SequenceRecordBytes} :
  decodeSequenceRecordViewV2 encoded commitSeq = .ok view ↔
    ∃ header keys, FoundIn encoded commitSeq header keys ∧
      view = ⟨commitSeq, header.txnId, header.systemHlc, header.factCount, keys.flatten⟩
  := by
  constructor
  · intro h
    obtain ⟨hcommit, h⟩ := guard_eq_ok_iff.mp h
    obtain ⟨payload, hpayload, h⟩ := bind_eq_ok_iff.mp h
    obtain ⟨header, hheader, h⟩ := bind_eq_ok_iff.mp h
    obtain ⟨owned, howned, h⟩ := bind_eq_ok_iff.mp h
    obtain ⟨keys, hkeys, rfl⟩ := appendKeys_eq_ok_iff.mp howned
    exact ⟨header, keys, ⟨hcommit, ⟨payload, hpayload, hheader⟩, hkeys⟩, (ok.inj h).symm⟩
  · rintro ⟨header, keys, ⟨hcommit, ⟨payload, hpayload, hheader⟩, hkeys⟩, rfl⟩
    rw [decodeSequenceRecordViewV2, if_neg hcommit, hpayload, ok_bind, hheader,
      ok_bind, appendKeys_eq_ok_iff.mpr ⟨keys, hkeys, rfl⟩]
    rfl

/-- What is found passes both checks or none, and both have the same keys. -/
theorem FoundIn.validate_iff (h : FoundIn encoded commitSeq header keys) :
  factKeys
      ⟨commitSeq, header.txnId, header.systemHlc, header.factCount, keys.flatten⟩ = keys ∧
    (validate
        ⟨commitSeq, header.txnId, header.systemHlc, header.factCount, keys.flatten⟩ = .ok () ↔
      SequenceRecord.validate ⟨commitSeq, header.txnId, header.systemHlc, keys⟩ = .ok ())
  := by
  obtain ⟨payload, -, hheader⟩ := h.payload
  obtain ⟨hzero, hlt⟩ := factCount_of_parseSequenceV2Payload hheader
  obtain ⟨hlength, hkeys⟩ := length_of_rebuildKeys h.keys
  have hfound : factKeys
      ⟨commitSeq, header.txnId, header.systemHlc, header.factCount, keys.flatten⟩ = keys := by
    rw [← hlength]
    exact map_take_drop_flatten hkeys
  have hrow : keys.flatten.length = header.factCount * encodedFactKeyBytes := by
    rw [length_flatten, map_congr_left hkeys, map_const', sum_replicate,
      hlength, smul_eq_mul]
  have hsome : keys ≠ [] := by
    rintro rfl
    exact hzero hlength.symm
  refine ⟨hfound, ?_⟩
  rw [validate, SequenceRecord.validate, hfound]
  have hle : ¬ header.factCount > 2 ^ 32 - 1 := by omega
  simp only [hzero, hrow, hsome, hlength, hle, ne_eq, not_true_eq_false]

end Readers

/-- A valid record whose data fit is read as it was written, and other ones are not written.  Bytes
are accepted by the reader of records exactly if the other reader accepts them and what it returns
passes its check, and then both find the same transaction, time and keys. -/
theorem sequenceRecordV2_codecs_agree :
  (∀ record : SequenceRecord, record.validate = .ok () →
    ((∃ encoded, encodeSequenceRecordV2 record = .ok encoded ∧
        decodeSequenceRecordV2 encoded record.commitSeq = .ok record) ↔
      sequenceV2HeaderBytes + record.factKeys.length * sequenceV2FactBytes ≤
        maxMetaPayloadBytes)) ∧
  ∀ encoded commitSeq,
    ((∃ record, decodeSequenceRecordV2 encoded commitSeq = .ok record) ↔
      ∃ view, decodeSequenceRecordViewV2 encoded commitSeq = .ok view ∧ view.validate = .ok ()) ∧
    ∀ record view, decodeSequenceRecordV2 encoded commitSeq = .ok record →
      decodeSequenceRecordViewV2 encoded commitSeq = .ok view →
        record.commitSeq = view.commitSeq ∧ record.txnId = view.txnId ∧
          record.systemHlc = view.systemHlc ∧ record.factKeys = view.factKeys
  := by
  constructor
  · intro record hvalid
    have hwritten := encodeSequenceRecordV2_of_validate hvalid
    split at hwritten
    case isTrue hfits => exact ⟨fun _ => hfits, fun _ => hwritten⟩
    case isFalse hfits =>
      refine ⟨?_, fun h => absurd h hfits⟩
      rintro ⟨encoded, hencoded, -⟩
      rw [hwritten] at hencoded
      cases hencoded
  · intro encoded commitSeq
    constructor
    · constructor
      · rintro ⟨record, hrecord⟩
        obtain ⟨header, keys, hfound, rfl, hvalid⟩ := decodeSequenceRecordV2_eq_ok_iff.mp hrecord
        exact ⟨_, decodeSequenceRecordViewV2_eq_ok_iff.mpr ⟨header, keys, hfound, rfl⟩,
          hfound.validate_iff.2.mpr hvalid⟩
      · rintro ⟨view, hview, hvalid⟩
        obtain ⟨header, keys, hfound, rfl⟩ := decodeSequenceRecordViewV2_eq_ok_iff.mp hview
        exact ⟨_, decodeSequenceRecordV2_eq_ok_iff.mpr ⟨header, keys, hfound, rfl,
          hfound.validate_iff.2.mp hvalid⟩⟩
    · intro record view hrecord hview
      obtain ⟨header, keys, hfound, rfl, -⟩ := decodeSequenceRecordV2_eq_ok_iff.mp hrecord
      obtain ⟨header', keys', hfound', rfl⟩ := decodeSequenceRecordViewV2_eq_ok_iff.mp hview
      obtain ⟨payload, hpayload, hheader⟩ := hfound.payload
      obtain ⟨payload', hpayload', hheader'⟩ := hfound'.payload
      obtain rfl := ok.inj (hpayload.symm.trans hpayload')
      obtain rfl := ok.inj (hheader.symm.trans hheader')
      obtain rfl := ok.inj (hfound.keys.symm.trans hfound'.keys)
      exact ⟨rfl, rfl, rfl, hfound.validate_iff.1.symm⟩

/-! ### A record which is too long -/

/-- The keys of so many vertices at the first commit. -/
def vertexKeys (count : Nat) : List (List UInt8) :=
  (List.range count).map fun index =>
    encodeFactKey (EntityFact.vertex ⟨0, UInt64.ofNat (index + 1)⟩) 0 1

/-- The record of a commit of so many vertices. -/
def vertexRecord (count : Nat) : SequenceRecord :=
  ⟨1, 1, 0, vertexKeys count⟩

theorem length_vertexKeys (count : Nat) :
  (vertexKeys count).length = count
  := by
  rw [vertexKeys, length_map, length_range]

theorem length_vertexRecord (count : Nat) :
  (vertexRecord count).factKeys.length = count
  := length_vertexKeys count

open UInt64 hiding not_not

theorem validate_vertexRecord {count : Nat} (hzero : count ≠ 0) (hcount : count < 2 ^ 32) :
  (vertexRecord count).validate = .ok ()
  := by
  have hid : ∀ index < count, (ofNat (index + 1)).toNat = index + 1 :=
    fun index hindex => toNat_ofNat_of_lt' (by
      change index + 1 < 2 ^ 64
      omega)
  have href : ∀ index < count,
      (EntityFact.vertex ⟨0, ofNat (index + 1)⟩).validate = .ok () := by
    intro index hindex
    have hne : ofNat (index + 1) ≠ 0 := by
      intro heq
      have htoNat := hid index hindex
      rw [heq] at htoNat
      cases htoNat
    rw [FactRef.validate, EntityFact.vertex, if_neg hne]
    rfl
  have hsome : vertexKeys count ≠ [] := by
    intro hnil
    have hlength := length_vertexKeys count
    rw [hnil] at hlength
    exact hzero hlength.symm
  rw [vertexRecord, SequenceRecord.validate, length_vertexKeys, if_neg]
  · refine checkFactKeys_eq_ok_iff.mpr ⟨?_, ?_, by simp⟩
    · intro key hkey
      obtain ⟨index, hindex, rfl⟩ := mem_map.mp hkey
      have hdecoded := @decodeFactKey_encodeFactKey _ 0 1 (href index (mem_range.mp hindex))
        (by decide)
      exact ⟨_, hdecoded, rfl⟩
    · refine Nodup.map_on ?_ nodup_range
      intro left hleft right hright heq
      have hleft' := mem_range.mp hleft
      have hright' := mem_range.mp hright
      have hsame := ((encodeFactKey_inj (href left hleft') (by decide) (href right hright')
        (by decide)).mp heq).1
      have hword : ofNat (left + 1) = ofNat (right + 1) :=
        congrArg FactRef.entityId hsame
      have htoNat := congrArg toNat hword
      rw [hid left hleft', hid right hright'] at htoNat
      omega
  · simp only [hsome, false_or]
    push Not
    exact ⟨by decide, by decide, by omega⟩

/-- The record of a commit of vertices is not written if there are too many of them. -/
theorem encodeSequenceRecordV2_vertexRecord {count : Nat} (hzero : count ≠ 0)
    (hcount : count < 2 ^ 32)
    (hlong : maxMetaPayloadBytes < sequenceV2HeaderBytes + count * sequenceV2FactBytes) :
  encodeSequenceRecordV2 (vertexRecord count) =
    Status.invalidArgument "metadata" "payload exceeds size limit"
  := by
  have hwritten := encodeSequenceRecordV2_of_validate (validate_vertexRecord hzero hcount)
  rw [vertexRecord, length_vertexKeys, if_neg (not_le.mpr hlong)] at hwritten
  exact hwritten

/-- The record of a commit of 729444 vertices is valid, but it is not written. -/
theorem crowdedRecord_not_written :
  (vertexRecord 729444).validate = .ok () ∧
    encodeSequenceRecordV2 (vertexRecord 729444) =
      Status.invalidArgument "metadata" "payload exceeds size limit"
  := by
  have hlong : maxMetaPayloadBytes < sequenceV2HeaderBytes + 729444 * sequenceV2FactBytes := by
    norm_num [sequenceV2HeaderBytes, sequenceV2FactBytes, maxMetaPayloadBytes]
  exact ⟨validate_vertexRecord (by simp) (by norm_num),
    encodeSequenceRecordV2_vertexRecord (by simp) (by norm_num) hlong⟩

/-- The record of a commit of 729443 vertices is read as it was written. -/
theorem fullRecord_roundTrip :
  ∃ encoded, encodeSequenceRecordV2 (vertexRecord 729443) = .ok encoded ∧
    decodeSequenceRecordV2 encoded (vertexRecord 729443).commitSeq = .ok (vertexRecord 729443)
  := by
  apply (sequenceRecordV2_codecs_agree.1 (vertexRecord 729443)
    (validate_vertexRecord (by simp) (by norm_num))).mpr
  rw [length_vertexRecord 729443]
  norm_num [sequenceV2HeaderBytes, sequenceV2FactBytes, maxMetaPayloadBytes]

end MetaCodec

end Cedar
