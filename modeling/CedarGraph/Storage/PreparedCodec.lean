import CedarGraph.Storage.CommitFacts
import CedarGraph.Storage.SequenceCodec

/-!
# Prepared commits as bytes

A batch which was prepared is kept as a record until it is decided.  The data of the record are the
lists of the batch one after another, each behind its length.

A valid batch is read as it was written, unless its data are too long for a record.  A beginning of
a record is rejected, and a batch which is read is valid.
-/

namespace Cedar

open FactEvent Option StoreCommitBatch StatusOr List EdgeIdentity

namespace PreparedCodec

open ByteCodec MetaCodec

/-! ### Records -/

/-- The kind of the record of a prepared commit. -/
def preparedRecord : UInt8 := 1

/-- The error of a record is one of this codec. -/
def asyncPrepare (error : StatusError) : StatusError :=
  { error with msg := "async prepare" }

/-- Records have the same format as those of the store. -/
def encodeRecord (kind : UInt8) (payload : List UInt8) : StatusOr (List UInt8) :=
  (MetaCodec.encodeRecord kind payload).mapError asyncPrepare

def decodeRecord (expectedKind : UInt8) (encoded : List UInt8) : StatusOr (List UInt8) :=
  (decodeRecordView expectedKind encoded).mapError asyncPrepare

/-! ### What is written -/

/-- The fact of a mutation. -/
def mutationEvent (mutation : PendingFactMutation) : FactEvent :=
  ⟨mutation.ref, mutation.validFrom, 1, mutation.operation, mutation.schemaEpoch, mutation.value,
    none⟩

def appendMutation (mutation : PendingFactMutation) : StatusOr (List UInt8) :=
  let key := encodeFactKey mutation.ref mutation.validFrom 1
  if key = [] then
    Status.invalidArgument "async prepare" "invalid mutation"
  else do
    let value ← encodeFactValue (mutationEvent mutation)
    return key ++ (putBigEndian 4 value.length ++ value)

def optionalTime : Option ValidTime → List UInt8
  | none => [0]
  | some time => [1] ++ putBigEndian 8 time.toNat

def refBytes (ref : FactRef) : List UInt8 :=
  putBigEndian 4 ref.partId.toNat ++ ([UInt8.ofNat ref.family.number] ++
    (putBigEndian 2 ref.propertyId.toNat ++ putBigEndian 8 ref.entityId.toNat))

def snapshotDependencyBytes (dependency : SnapshotWriteDependency) : List UInt8 :=
  refBytes dependency.ref ++ (putBigEndian 8 dependency.validFrom.toNat ++
    (optionalTime dependency.predecessor ++ (optionalTime dependency.successor ++
      putBigEndian 8 dependency.snapshotSeq.toNat)))

def appendObserved : Option FactEvent → StatusOr (List UInt8)
  | none => .ok []
  | some event =>
      let key := encodeFactKey event.ref event.validFrom event.commitSeq
      match encodeFactValue event with
      | .error _ => Status.invalidArgument "async prepare" "invalid observed event"
      | .ok value =>
          if key = [] then
            Status.invalidArgument "async prepare" "invalid observed event"
          else
            .ok (key ++ (putBigEndian 4 value.length ++ value))

/-- A strict read, with the bytes of the fact which it observed. -/
def strictDependencyBytes (dependency : StrictReadDependency) (observed : List UInt8) :
    List UInt8 :=
  (refBytes dependency.ref ++ (putBigEndian 8 dependency.validTime.toNat ++
    (putBigEndian 8 dependency.snapshotSeq.toNat ++
      [if dependency.observedEvent.isSome then 1 else 0]))) ++
    (observed ++ (optionalTime dependency.predecessor ++ optionalTime dependency.successor))

def appendStrictDependency (dependency : StrictReadDependency) : StatusOr (List UInt8) := do
  let observed ← appendObserved dependency.observedEvent
  return strictDependencyBytes dependency observed

/-- The data of a record, with the bytes of each mutation and of each strict read. -/
def batchPayload (batch : StoreCommitBatch) (mutations strictReads : List (List UInt8)) :
    List UInt8 :=
  (putBigEndian 8 batch.txnId.toNat ++ putBigEndian 8 batch.systemHlc.toNat) ++
    ((putBigEndian 4 mutations.length ++ mutations.flatten) ++
      ((putBigEndian 4 batch.edgeIdentities.length ++
          batch.edgeIdentities.flatMap EdgeIdentity.payload) ++
        ((putBigEndian 4 batch.snapshotWriteDependencies.length ++
            batch.snapshotWriteDependencies.flatMap snapshotDependencyBytes) ++
          (putBigEndian 4 strictReads.length ++ strictReads.flatten))))

def encodePreparedCommit (batch : StoreCommitBatch) : StatusOr (List UInt8) := do
  batch.validate
  let mutations ← batch.mutations.mapM appendMutation
  let strictReads ← batch.strictReadDependencies.mapM appendStrictDependency
  encodeRecord preparedRecord (batchPayload batch mutations strictReads)

/-! ### What is read -/

/-- A reader of the data which says what is wrong with them. -/
abbrev PayloadReader (α : Type) : Type :=
  StateT (List UInt8) (Except StatusError) α

variable {α β : Type}

def corrupt (message : String) : PayloadReader α := fun _ =>
  Status.corruption "async prepare" message

def readOr (message : String) (reader : Reader α) : PayloadReader α := fun bytes =>
  match reader bytes with
  | none => Status.corruption "async prepare" message
  | some result => .ok result

/-- A result which does not depend on the bytes which follow. -/
def settled (result : StatusOr α) : PayloadReader α := fun bytes =>
  result.map fun a => (a, bytes)

/-- A fact: its key, and its value behind the length. -/
def readEvent (keyMessage valueMessage : String) (commitSeq : CommitSeq → CommitSeq) :
    PayloadReader FactEvent := do
  let encodedKey ← readOr keyMessage (getBytes encodedFactKeyBytes)
  let key ← settled (decodeFactKey encodedKey)
  let value ← readOr valueMessage (getBigEndian 4 >>= getBytes)
  settled (decodeFactValue key.ref key.validFrom (commitSeq key.commitSeq) value)

def readMutation : PayloadReader PendingFactMutation := do
  let event ← readEvent "truncated mutation key" "invalid mutation value length" fun _ => 1
  return ⟨event.ref, event.validFrom, event.operation, event.schemaEpoch, event.value⟩

def readOptionalTime : Reader (Option ValidTime) := do
  let present ← getBigEndian 1
  if present > 1 then failure
  else if present = 0 then return none
  else
    let time ← getBigEndian 8
    return some (.ofNat time)

/-- The reference with some numbers, if it is valid. -/
def checkedRef (partId number propertyId entityId : Nat) : Option FactRef :=
  match FactFamily.ofNumber number with
  | none => none
  | some family =>
      let ref : FactRef := ⟨.ofNat partId, family, .ofNat propertyId, .ofNat entityId⟩
      match ref.validate with
      | .error _ => none
      | .ok () => some ref

def readRef : Reader FactRef := do
  let partId ← getBigEndian 4
  let number ← getBigEndian 1
  let propertyId ← getBigEndian 2
  let entityId ← getBigEndian 8
  StateT.lift (checkedRef partId number propertyId entityId)

def readSnapshotDependency : Reader SnapshotWriteDependency := do
  let ref ← readRef
  let validFrom ← getBigEndian 8
  let predecessor ← readOptionalTime
  let successor ← readOptionalTime
  let snapshotSeq ← getBigEndian 8
  return ⟨ref, .ofNat validFrom, predecessor, successor, .ofNat snapshotSeq⟩

/-- A strict read up to the mark of the fact which it observed. -/
def readStrictHeader : Reader (FactRef × Nat × Nat × Nat) := do
  let ref ← readRef
  let validTime ← getBigEndian 8
  let snapshotSeq ← getBigEndian 8
  let observed ← getBigEndian 1
  return (ref, validTime, snapshotSeq, observed)

def readObserved (observed : Nat) : PayloadReader (Option FactEvent) :=
  if observed > 1 then corrupt "invalid observed marker"
  else if observed = 1 then do
    let event ← readEvent "truncated observed key" "invalid observed value" id
    return some event
  else return none

def readFences : Reader (Option ValidTime × Option ValidTime) := do
  let predecessor ← readOptionalTime
  let successor ← readOptionalTime
  return (predecessor, successor)

def readStrictDependency : PayloadReader StrictReadDependency := do
  let header ← readOr "invalid strict dependency" readStrictHeader
  let observedEvent ← readObserved header.2.2.2
  let fences ← readOr "invalid strict fences" readFences
  return ⟨header.1, .ofNat header.2.1, .ofNat header.2.2.1, observedEvent, fences.1, fences.2⟩

def readMany (reader : PayloadReader α) : Nat → PayloadReader (List α)
  | 0 => return []
  | count + 1 => do
      let entry ← reader
      let entries ← readMany reader count
      return entry :: entries

/-- A list behind its length. -/
def readList (message : String) (reader : PayloadReader α) : PayloadReader (List α) := do
  let count ← readOr message (getBigEndian 4)
  readMany reader count

def readBatchHeader : Reader (Nat × Nat) := do
  let txnId ← getBigEndian 8
  let systemHlc ← getBigEndian 8
  return (txnId, systemHlc)

def readBatch : PayloadReader StoreCommitBatch := do
  let header ← readOr "truncated batch header" readBatchHeader
  let mutations ← readList "truncated batch header" readMutation
  let identities ← readList "truncated edge count"
    (readOr "truncated edge identity" edgeIdentityFields)
  let dependencies ← readList "truncated snapshot dependency count"
    (readOr "invalid snapshot dependency" readSnapshotDependency)
  let strictReads ← readList "truncated strict dependency count" readStrictDependency
  return ⟨.ofNat header.1, .ofNat header.2, mutations, identities, dependencies, strictReads, false⟩

def decodePreparedCommit (encoded : List UInt8) : StatusOr StoreCommitBatch := do
  let payload ← decodeRecord preparedRecord encoded
  let result ← readBatch payload
  if result.2 ≠ [] then
    Status.corruption "async prepare" "trailing bytes"
  else
    match result.1.validate with
    | .error error => Status.corruption "async prepare" error.text
    | .ok () => .ok result.1

/-! ### The parts of the data -/

/-- The reader reads a value from some bytes and leaves what follows them. -/
def Takes (x : PayloadReader α) (bytes : List UInt8) (a : α) : Prop :=
  ∀ rest, x (bytes ++ rest) = .ok (a, rest)

section Takes

variable {x : PayloadReader α} {f : α → PayloadReader β} {a : α} {b : β} {bytes more : List UInt8}

theorem takes_pure (a : α) :
  Takes (pure a) [] a
  := fun _ => rfl

theorem Takes.bind (hx : Takes x bytes a) (hf : Takes (f a) more b) :
  Takes (x >>= f) (bytes ++ more) b
  := by
  intro rest
  change (x (bytes ++ more ++ rest) >>= fun p => f p.1 p.2) = .ok (b, rest)
  rw [append_assoc, hx]
  exact hf rest

theorem Takes.map (g : α → β) (hx : Takes x bytes a) :
  Takes (x >>= fun a => pure (g a)) bytes (g a)
  := by
  have hmap := hx.bind (f := fun a => pure (g a)) (takes_pure (g a))
  rwa [append_nil] at hmap

theorem takes_readOr {reader : Reader α} (h : Reads reader bytes a) (message : String) :
  Takes (readOr message reader) bytes a
  := by
  intro rest
  rw [readOr, h rest]

theorem takes_settled {result : StatusOr α} (h : result = .ok a) :
  Takes (settled result) [] a
  := by
  intro rest
  rw [h]
  rfl

theorem takes_settled_bind {result : StatusOr α} (h : result = .ok a) (hf : Takes (f a) bytes b) :
  Takes (settled result >>= f) bytes b
  := (takes_settled h).bind hf

theorem takes_readMany {put : α → List UInt8} {l : List α} (h : ∀ a ∈ l, Takes x (put a) a) :
  Takes (readMany x l.length) (l.flatMap put) l
  := by
  induction l with
  | nil => exact takes_pure []
  | cons a l ih =>
    obtain ⟨ha, hl⟩ := forall_mem_cons.mp h
    exact ha.bind ((ih hl).map _)

theorem takes_readList {put : α → List UInt8} {l : List α} (h : ∀ a ∈ l, Takes x (put a) a)
    (hlength : l.length < 2 ^ 32) (message : String) :
  Takes (readList message x) (putBigEndian 4 l.length ++ l.flatMap put) l
  := (takes_readOr (reads_getBigEndian (n := 4) hlength) message).bind (takes_readMany h)

end Takes

theorem reads_readOptionalTime (time : Option ValidTime) :
  Reads readOptionalTime (optionalTime time) time
  := by
  cases time with
  | none =>
    exact (reads_byte 0).bind (reads_pure none)
  | some time =>
    have htime := (reads_word64 time).map fun time => some (UInt64.ofNat time)
    rw [UInt64.ofNat_toNat] at htime
    exact (reads_byte 1).bind htime

theorem reads_readRef {ref : FactRef} (href : ref.validate = .ok ()) :
  Reads readRef (refBytes ref) ref
  := by
  have hnumber : (UInt8.ofNat ref.family.number).toNat = ref.family.number :=
    UInt8.toNat_ofNat_of_lt ref.family.number_lt
  have hproperty : ref.propertyId.toNat < 256 ^ 2 := ref.propertyId.toNat_lt
  apply (reads_word32 _).bind
  apply (reads_byte _).bind
  apply (reads_getBigEndian hproperty).bind
  apply (reads_word64 _).bind
  intro rest
  rw [checkedRef, hnumber, FactFamily.ofNumber_number]
  simp only [UInt32.ofNat_toNat, UInt16.ofNat_toNat, UInt64.ofNat_toNat, href]
  rfl

theorem reads_readSnapshotDependency {dependency : SnapshotWriteDependency}
    (href : dependency.ref.validate = .ok ()) :
  Reads readSnapshotDependency (snapshotDependencyBytes dependency) dependency
  := by
  have hseq := (reads_word64 dependency.snapshotSeq).map fun snapshotSeq =>
    (⟨dependency.ref, .ofNat dependency.validFrom.toNat, dependency.predecessor,
      dependency.successor, .ofNat snapshotSeq⟩ : SnapshotWriteDependency)
  apply (reads_readRef href).bind
  apply (reads_word64 _).bind
  apply (reads_readOptionalTime _).bind
  apply (reads_readOptionalTime _).bind
  simpa only [UInt64.ofNat_toNat] using hseq

theorem reads_readFences (predecessor successor : Option ValidTime) :
  Reads readFences (optionalTime predecessor ++ optionalTime successor) (predecessor, successor)
  := (reads_readOptionalTime _).bind ((reads_readOptionalTime _).map _)

/-- The bytes of a fact. -/
def eventBytes (event : FactEvent) : List UInt8 :=
  encodeFactKey event.ref event.validFrom event.commitSeq ++
    (putBigEndian 4 event.frame.length ++ event.frame)

/-- The data of a fact are not longer than what is written of it. -/
theorem length_record_le (event : FactEvent) :
  event.record.2.length ≤ event.frame.length ∧
    event.frame.length = event.record.2.length + 15
  := by
  rw [frame, length_append, length_factValueBody, length_putBigEndian,
    factValueHeaderBytes]
  omega

variable {event : FactEvent} {mutation : PendingFactMutation}

theorem takes_readEvent (hvalid : event.validate = .ok ())
    (hfits : event.record.2.length ≤ maxFactValuePayloadBytes) {commitSeq : CommitSeq → CommitSeq}
    (hcommit : commitSeq event.commitSeq = event.commitSeq) (keyMessage valueMessage : String) :
  Takes (readEvent keyMessage valueMessage commitSeq) (eventBytes event) event
  := by
  have hseq := commitSeq_ne_zero hvalid
  have href := validate_ref hvalid
  have hkey := reads_getBytes (encodeFactKey event.ref event.validFrom event.commitSeq)
  rw [show (encodeFactKey event.ref event.validFrom event.commitSeq).length = encodedFactKeyBytes by
    rw [encodeFactKey_eq href hseq]
    simp [factIdentityPrefixBytes, encodedFactKeyBytes]] at hkey
  have hlength : event.frame.length < 256 ^ 4 := by
    rw [(length_record_le event).2]
    exact lt_of_le_of_lt (Nat.add_le_add_right hfits 15) (by decide)
  have hvalue := decodeFactValue_eq_ok_iff.mpr ⟨⟨rfl, rfl, hcommit.symm⟩,
    encodeFactValue_eq_ok_iff.mpr ⟨hvalid, hfits, rfl⟩⟩
  apply (takes_readOr hkey keyMessage).bind
  apply takes_settled_bind (decodeFactKey_encodeFactKey href hseq)
  rw [← append_nil (putBigEndian 4 _ ++ _)]
  apply (takes_readOr ((reads_getBigEndian hlength).bind (reads_getBytes _)) valueMessage).bind
  exact takes_settled hvalue

/-- The bytes of the fact which was observed. -/
def observedBytes (event : Option FactEvent) : List UInt8 :=
  (event.map eventBytes).getD []

theorem takes_readObserved {observed : Option FactEvent}
    (hobserved : ∀ event ∈ observed, event.validate = .ok () ∧
      event.record.2.length ≤ maxFactValuePayloadBytes) :
  Takes (readObserved (if observed.isSome then 1 else 0 : UInt8).toNat) (observedBytes observed)
    observed
  := by
  cases observed with
  | none => exact takes_pure none
  | some event =>
    obtain ⟨hvalid, hfits⟩ := hobserved event rfl
    exact (takes_readEvent hvalid hfits rfl _ _).map some

variable {dependency : StrictReadDependency} {bytes : List UInt8}

theorem takes_readStrictDependency (href : dependency.ref.validate = .ok ())
    (hobserved : ∀ event ∈ dependency.observedEvent, event.validate = .ok () ∧
      event.record.2.length ≤ maxFactValuePayloadBytes) :
  Takes readStrictDependency
    (strictDependencyBytes dependency (observedBytes dependency.observedEvent)) dependency
  := by
  have hheader : Reads readStrictHeader (refBytes dependency.ref ++
      (putBigEndian 8 dependency.validTime.toNat ++ (putBigEndian 8 dependency.snapshotSeq.toNat ++
        [if dependency.observedEvent.isSome then 1 else 0])))
      (dependency.ref, dependency.validTime.toNat, dependency.snapshotSeq.toNat,
        (if dependency.observedEvent.isSome then 1 else 0 : UInt8).toNat) := by
    apply (reads_readRef href).bind
    apply (reads_word64 _).bind
    apply (reads_word64 _).bind
    exact (reads_byte _).map _
  have hfences := (takes_readOr (reads_readFences dependency.predecessor dependency.successor)
    "invalid strict fences").map fun fences =>
      (⟨dependency.ref, .ofNat dependency.validTime.toNat, .ofNat dependency.snapshotSeq.toNat,
        dependency.observedEvent, fences.1, fences.2⟩ : StrictReadDependency)
  apply (takes_readOr hheader _).bind
  apply (takes_readObserved hobserved).bind
  simpa only [UInt64.ofNat_toNat] using hfences

/-! ### Batches -/

/-- The bytes of a strict read. -/
def strictReadBytes (dependency : StrictReadDependency) : List UInt8 :=
  strictDependencyBytes dependency (observedBytes dependency.observedEvent)

/-- The data of the record of a batch. -/
def preparedPayload (batch : StoreCommitBatch) : List UInt8 :=
  batchPayload batch (batch.mutations.map fun mutation => eventBytes (mutationEvent mutation))
    (batch.strictReadDependencies.map strictReadBytes)

/-- What the checks say about a strict read. -/
theorem of_strictRead_validate (h : dependency.validate = .ok ()) :
  dependency.ref.validate = .ok () ∧
    ∀ event ∈ dependency.observedEvent, event.validate = .ok ()
  := by
  obtain ⟨_, href, h⟩ := bind_eq_ok_iff.mp h
  obtain ⟨-, h⟩ := guard_eq_ok_iff.mp h
  obtain ⟨-, h⟩ := guard_eq_ok_iff.mp h
  refine ⟨href, ?_⟩
  intro event hevent
  rw [mem_def.mp hevent] at h
  obtain ⟨_, hobserved, -⟩ := bind_eq_ok_iff.mp h
  exact hobserved

/-- The parts of a valid batch are valid. -/
structure Checked (batch : StoreCommitBatch) : Prop where
  mutations : ∀ mutation ∈ batch.mutations, mutation.validate = .ok ()
  dependencies : ∀ dependency ∈ batch.snapshotWriteDependencies, dependency.ref.validate = .ok ()
  strictReads : ∀ dependency ∈ batch.strictReadDependencies, dependency.validate = .ok ()

theorem Checked.of_validate {batch : StoreCommitBatch} (h : batch.validate = .ok ()) :
  Checked batch
  := by
  have hvalid := Valid.of_validate h
  refine ⟨hvalid.mutations, ?_, hvalid.strictReads⟩
  intro dependency hdependency
  exact (lt_successor_of_validate (hvalid.dependencies dependency hdependency).1).1

/-- A fact whose reference is valid has a key. -/
theorem encodeFactKey_ne_nil (hvalid : event.validate = .ok ()) :
  encodeFactKey event.ref event.validFrom event.commitSeq ≠ []
  := by
  rw [encodeFactKey_eq (validate_ref hvalid) (commitSeq_ne_zero hvalid)]
  simp [FactRef.keyBytes]

theorem appendMutation_eq_ok_iff (hvalid : mutation.validate = .ok ()) :
  appendMutation mutation = .ok bytes ↔
    (mutationEvent mutation).record.2.length ≤ maxFactValuePayloadBytes ∧
      bytes = eventBytes (mutationEvent mutation)
  := by
  have hevent : (mutationEvent mutation).validate = .ok () :=
    validate_of_mutation hvalid (by decide)
  have hkey : encodeFactKey mutation.ref mutation.validFrom 1 ≠ [] := encodeFactKey_ne_nil hevent
  rw [appendMutation, if_neg hkey, bind_eq_ok_iff]
  constructor
  · rintro ⟨value, hvalue, h⟩
    obtain ⟨-, hfits, rfl⟩ := encodeFactValue_eq_ok_iff.mp hvalue
    exact ⟨hfits, (Except.ok.inj h).symm⟩
  · rintro ⟨hfits, rfl⟩
    exact ⟨_, encodeFactValue_eq_ok_iff.mpr ⟨hevent, hfits, rfl⟩, rfl⟩

theorem appendStrictDependency_eq_ok_iff (hvalid : dependency.validate = .ok ()) :
  appendStrictDependency dependency = .ok bytes ↔
    (∀ event ∈ dependency.observedEvent,
      event.record.2.length ≤ maxFactValuePayloadBytes) ∧ bytes = strictReadBytes dependency
  := by
  obtain ⟨-, hobserved⟩ := of_strictRead_validate hvalid
  rw [appendStrictDependency, strictReadBytes, bind_eq_ok_iff]
  cases hevent : dependency.observedEvent with
  | none => simp [appendObserved, observedBytes, eq_comm]
  | some event =>
    have hvalid := hobserved event hevent
    rw [appendObserved]
    constructor
    · rintro ⟨observed, hobserved, h⟩
      split at hobserved
      · cases hobserved
      case h_2 value hvalue =>
        obtain ⟨-, hfits, rfl⟩ := encodeFactValue_eq_ok_iff.mp hvalue
        obtain ⟨-, hobserved⟩ := guard_eq_ok_iff.mp hobserved
        rw [← Except.ok.inj hobserved] at h
        refine ⟨?_, (Except.ok.inj h).symm⟩
        rintro _ ⟨⟩
        exact hfits
    · rintro ⟨hfits, rfl⟩
      refine ⟨eventBytes event, ?_, rfl⟩
      rw [encodeFactValue_eq_ok_iff.mpr ⟨hvalid, hfits event rfl, rfl⟩]
      exact if_neg (encodeFactKey_ne_nil hvalid)

/-! ### Lengths -/

theorem length_le_flatten {l : List (List UInt8)} (h : bytes ∈ l) :
  bytes.length ≤ l.flatten.length
  := (sublist_flatten_of_mem h).length_le

/-- There are not more entries than bytes. -/
theorem length_le_flatMap {put : α → List UInt8} {l : List α} (h : ∀ a ∈ l, put a ≠ []) :
  l.length ≤ (l.flatMap put).length
  := by
  induction l with
  | nil => exact le_refl _
  | cons a l ih =>
    obtain ⟨ha, hl⟩ := forall_mem_cons.mp h
    have hpos := length_pos_of_ne_nil ha
    have hle := ih hl
    rw [flatMap_cons, length_append, length_cons]
    omega

theorem length_eventBytes_ge (event : FactEvent) :
  event.record.2.length ≤ (eventBytes event).length
  := by
  have hle := (length_record_le event).1
  simp only [eventBytes, length_append]
  omega

theorem length_batchPayload (batch : StoreCommitBatch) (mutations strictReads : List (List UInt8)) :
  (batchPayload batch mutations strictReads).length =
    32 + mutations.flatten.length + (batch.edgeIdentities.flatMap payload).length +
      (batch.snapshotWriteDependencies.flatMap snapshotDependencyBytes).length +
        strictReads.flatten.length
  := by
  simp only [batchPayload, length_append, length_putBigEndian]
  omega

section Batches

variable {batch : StoreCommitBatch} {encoded : List UInt8}

/-- The data of each fact of a batch whose data fit are short enough. -/
theorem fits_of_length (hfits : (preparedPayload batch).length ≤ maxMetaPayloadBytes) :
  (∀ mutation ∈ batch.mutations,
      (mutationEvent mutation).record.2.length ≤ maxFactValuePayloadBytes) ∧
    ∀ dependency ∈ batch.strictReadDependencies, ∀ event ∈ dependency.observedEvent,
      event.record.2.length ≤ maxFactValuePayloadBytes
  := by
  have hmax : maxFactValuePayloadBytes = maxMetaPayloadBytes := rfl
  rw [preparedPayload, length_batchPayload] at hfits
  constructor
  · intro mutation hmutation
    have hmem := length_le_flatten
      (mem_map_of_mem (f := fun mutation => eventBytes (mutationEvent mutation)) hmutation)
    have hle := length_eventBytes_ge (mutationEvent mutation)
    omega
  · intro dependency hdependency event hevent
    have hmem := length_le_flatten (mem_map_of_mem (f := strictReadBytes) hdependency)
    have hle := length_eventBytes_ge event
    have hread : (eventBytes event).length ≤ (strictReadBytes dependency).length := by
      rw [strictReadBytes, strictDependencyBytes, observedBytes, mem_def.mp hevent]
      simp only [map_some, getD_some, length_append]
      omega
    omega

/-- A valid batch is written exactly if its data fit. -/
theorem encodePreparedCommit_eq_ok_iff (hvalid : batch.validate = .ok ()) :
  encodePreparedCommit batch = .ok encoded ↔
    (preparedPayload batch).length ≤ maxMetaPayloadBytes ∧
      encoded = recordFrame preparedRecord (preparedPayload batch)
  := by
  have hchecked := Checked.of_validate hvalid
  have hrecord (payload : List UInt8) : encodeRecord preparedRecord payload = .ok encoded ↔
      payload.length ≤ maxMetaPayloadBytes ∧ encoded = recordFrame preparedRecord payload := by
    rw [encodeRecord, MetaCodec.encodeRecord]
    split
    case isTrue h => simp [Status.invalidArgument, Except.mapError, h]
    case isFalse h => simp [Except.mapError, not_lt.mp h, eq_comm]
  rw [encodePreparedCommit, hvalid, ok_bind, bind_eq_ok_iff]
  constructor
  · rintro ⟨mutations, hmutations, h⟩
    obtain ⟨strictReads, hstrict, h⟩ := bind_eq_ok_iff.mp h
    obtain ⟨-, rfl⟩ := (mapM_eq_ok_iff_map fun mutation hmutation _ =>
      appendMutation_eq_ok_iff (hchecked.mutations mutation hmutation)).mp hmutations
    obtain ⟨-, rfl⟩ := (mapM_eq_ok_iff_map fun dependency hdependency _ =>
      appendStrictDependency_eq_ok_iff (hchecked.strictReads dependency hdependency)).mp hstrict
    exact (hrecord _).mp h
  · rintro ⟨hfits, rfl⟩
    obtain ⟨hmutations, hstrict⟩ := fits_of_length hfits
    refine ⟨_, (mapM_eq_ok_iff_map fun mutation hmutation _ =>
      appendMutation_eq_ok_iff (hchecked.mutations mutation hmutation)).mpr ⟨hmutations, rfl⟩, ?_⟩
    apply bind_eq_ok_iff.mpr
    refine ⟨_, (mapM_eq_ok_iff_map fun dependency hdependency _ =>
      appendStrictDependency_eq_ok_iff (hchecked.strictReads dependency hdependency)).mpr
        ⟨hstrict, rfl⟩, ?_⟩
    exact (hrecord _).mpr ⟨hfits, rfl⟩

/-- The data of a batch are read. -/
theorem takes_readBatch (hvalid : batch.validate = .ok ())
    (hfits : (preparedPayload batch).length ≤ maxMetaPayloadBytes) :
  Takes readBatch (preparedPayload batch) { batch with freshTransactionId := false }
  := by
  have hchecked := Checked.of_validate hvalid
  obtain ⟨hmutations, hstrict⟩ := fits_of_length hfits
  have hmax : maxMetaPayloadBytes < 2 ^ 32 := by decide
  rw [preparedPayload, length_batchPayload] at hfits
  have hheader : Reads readBatchHeader
      (putBigEndian 8 batch.txnId.toNat ++ putBigEndian 8 batch.systemHlc.toNat)
      (batch.txnId.toNat, batch.systemHlc.toNat) :=
    (reads_word64 _).bind ((reads_word64 _).map _)
  -- no list has more entries than the record has bytes
  have hevents : batch.mutations.length < 2 ^ 32 := by
    have hle := @length_le_flatMap _ (fun mutation => eventBytes (mutationEvent mutation))
      batch.mutations fun mutation _ => by simp [eventBytes, putBigEndian]
    rw [flatMap_def] at hle
    omega
  have hidentities : batch.edgeIdentities.length < 2 ^ 32 := by
    have hle := @length_le_flatMap _ payload batch.edgeIdentities
      fun identity _ => by simp [payload, putBigEndian]
    omega
  have hdependencies : batch.snapshotWriteDependencies.length < 2 ^ 32 := by
    have hle := @length_le_flatMap _ snapshotDependencyBytes batch.snapshotWriteDependencies
      fun dependency _ => by simp [snapshotDependencyBytes, refBytes]
    omega
  have hreads : batch.strictReadDependencies.length < 2 ^ 32 := by
    have hle := @length_le_flatMap _ strictReadBytes batch.strictReadDependencies
      fun dependency _ => by simp [strictReadBytes, strictDependencyBytes, refBytes]
    rw [flatMap_def] at hle
    omega
  have hstrictReads := (@takes_readList _ readStrictDependency strictReadBytes
    batch.strictReadDependencies (fun dependency hdependency => by
      obtain ⟨href, hobserved⟩ := of_strictRead_validate (hchecked.strictReads _ hdependency)
      exact takes_readStrictDependency href fun event hevent =>
        ⟨hobserved event hevent, hstrict dependency hdependency event hevent⟩)
    hreads "truncated strict dependency count").map fun strictReads =>
      (⟨.ofNat batch.txnId.toNat, .ofNat batch.systemHlc.toNat, batch.mutations,
        batch.edgeIdentities, batch.snapshotWriteDependencies, strictReads, false⟩ :
          StoreCommitBatch)
  rw [preparedPayload, batchPayload, length_map, length_map, ← flatMap_def,
    ← flatMap_def]
  apply (takes_readOr hheader _).bind
  apply (takes_readList (fun mutation hmutation => (takes_readEvent
    (validate_of_mutation (hchecked.mutations mutation hmutation) (by decide))
    (hmutations mutation hmutation) rfl _ _).map _) hevents _).bind
  apply (takes_readList (fun identity _ =>
    takes_readOr (fun _ => edgeIdentityFields_eq_some_iff.mpr rfl) _) hidentities _).bind
  apply (takes_readList (fun dependency hdependency => takes_readOr
    (reads_readSnapshotDependency (hchecked.dependencies dependency hdependency)) _)
      hdependencies _).bind
  simpa only [UInt64.ofNat_toNat] using hstrictReads

theorem local_getBigEndian (n : Nat) :
  Local (getBigEndian n)
  := by
  intro bytes w rest h more
  obtain ⟨hlt, rfl⟩ := getBigEndian_eq_some_iff.mp h
  rw [append_assoc]
  exact reads_getBigEndian hlt _

theorem local_recordHeader :
  Local recordHeader
  := (local_getBigEndian 1).bind fun _ => (local_getBigEndian 1).bind fun _ =>
    (local_getBigEndian 4).map _

/-- A beginning of a record is not a record. -/
theorem decodeRecordView_take {kind : UInt8} {payload front more : List UInt8}
    (hfits : payload.length ≤ maxMetaPayloadBytes)
    (hsplit : recordFrame kind payload = front ++ more) (hmore : more ≠ []) :
  ∃ error, decodeRecordView kind front = .error error
  := by
  have hheader := @recordHeader_recordFrame kind payload hfits
  rw [hsplit] at hheader
  have hlength := length_pos_of_ne_nil hmore
  rw [decodeRecordView]
  split
  · exact ⟨_, rfl⟩
  · split
    · exact ⟨_, rfl⟩
    case h_2 version kind' payloadLength rest hfront =>
      rw [local_recordHeader _ _ _ hfront more] at hheader
      obtain ⟨hnumbers, hrest⟩ := Prod.mk.inj (some.inj hheader)
      have hsize : payloadLength = payload.length := congrArg (fun p => p.2.2) hnumbers
      have hrest := congrArg length hrest
      rw [length_append, length_append, length_putBigEndian] at hrest
      rw [if_pos]
      · exact ⟨_, rfl⟩
      · right; right; right
        rw [metaChecksumBytes]
        omega

/-- A valid batch is read as it was written exactly if its data fit, a proper beginning of what was
written is rejected, and every batch which is read is valid. -/
theorem preparedCommit_roundTrip :
  (∀ batch : StoreCommitBatch, batch.validate = .ok () →
    ((∃ encoded, encodePreparedCommit batch = .ok encoded ∧
        decodePreparedCommit encoded = .ok { batch with freshTransactionId := false }) ↔
      (preparedPayload batch).length ≤ maxMetaPayloadBytes)) ∧
  (∀ batch front more, encodePreparedCommit batch = .ok (front ++ more) → more ≠ [] →
    ∃ error, decodePreparedCommit front = .error error) ∧
  ∀ encoded batch, decodePreparedCommit encoded = .ok batch → batch.validate = .ok ()
  := by
  refine ⟨?_, ?_, ?_⟩
  · intro batch hvalid
    constructor
    · rintro ⟨encoded, hencoded, -⟩
      exact ((encodePreparedCommit_eq_ok_iff hvalid).mp hencoded).1
    · intro hfits
      refine ⟨_, (encodePreparedCommit_eq_ok_iff hvalid).mpr ⟨hfits, rfl⟩, ?_⟩
      have hread := takes_readBatch hvalid hfits []
      rw [append_nil] at hread
      -- the checks do not look at the mark
      have hagain : validate { batch with freshTransactionId := false } = .ok () :=
        hvalid
      rw [decodePreparedCommit, decodeRecord, decodeRecordView_recordFrame hfits]
      simp only [Except.mapError, ok_bind, hread, hagain, ne_eq, not_true_eq_false, if_false]
  · intro batch front more hencoded hmore
    have hvalid : batch.validate = .ok () := by
      obtain ⟨_, hvalid, -⟩ := bind_eq_ok_iff.mp hencoded
      exact hvalid
    obtain ⟨hfits, hsplit⟩ := (encodePreparedCommit_eq_ok_iff hvalid).mp hencoded
    obtain ⟨error, herror⟩ := decodeRecordView_take hfits hsplit.symm hmore
    refine ⟨asyncPrepare error, ?_⟩
    rw [decodePreparedCommit, decodeRecord, herror]
    rfl
  · intro encoded batch h
    obtain ⟨payload, -, h⟩ := bind_eq_ok_iff.mp h
    obtain ⟨result, -, h⟩ := bind_eq_ok_iff.mp h
    obtain ⟨-, h⟩ := guard_eq_ok_iff.mp h
    split at h
    · cases h
    case h_2 hvalid =>
      rw [← Except.ok.inj h]
      exact hvalid

end Batches

/-- A mutation which asserts a text. -/
def textMutation (text : List UInt8) : PendingFactMutation :=
  ⟨PropertyFact.vertex ⟨0, 1⟩ 7, 3, .put, 1, some (.string text)⟩

def textBatch (text : List UInt8) : StoreCommitBatch where
  txnId := 7
  systemHlc := 5
  mutations := [textMutation text]

theorem validate_textBatch (text : List UInt8) :
  (textBatch text).validate = .ok ()
  := rfl

theorem length_textBatch (text : List UInt8) :
  (preparedPayload (textBatch text)).length = text.length + 83
  := by
  have hkey : (encodeFactKey (mutationEvent (textMutation text)).ref
      (mutationEvent (textMutation text)).validFrom
      (mutationEvent (textMutation text)).commitSeq).length = 32 :=
    (by decide : (encodeFactKey (PropertyFact.vertex ⟨0, 1⟩ 7) 3 1).length = 32)
  have hframe := (length_record_le (mutationEvent (textMutation text))).2
  have htext : (mutationEvent (textMutation text)).record.2 = text := rfl
  rw [preparedPayload, length_batchPayload]
  simp only [textBatch, map_cons, map_nil, flatten_cons, flatten_nil, flatMap_nil, length_append,
    length_nil, eventBytes, length_putBigEndian, hframe, htext]
  omega

/-- A batch which creates an edge after a read of its source. -/
def edgeBatch : StoreCommitBatch where
  txnId := 7
  systemHlc := 5
  mutations := [textMutation [0x61], ⟨EntityFact.edge ⟨0, 1⟩, 3, .put, 0, none⟩]
  edgeIdentities := [⟨1, 1, 2, 1, 0, 0, 0⟩]
  snapshotWriteDependencies := [⟨EntityFact.edge ⟨0, 1⟩, 3, none, some 9, 4⟩]
  strictReadDependencies := [⟨EntityFact.vertex ⟨0, 1⟩, 3, 4,
    some ⟨EntityFact.vertex ⟨0, 1⟩, 2, 1, .put, 0, none, none⟩, some 2, none⟩]

theorem edgeBatch_roundTrip :
  edgeBatch.validate = .ok () ∧
    ∃ encoded, encodePreparedCommit edgeBatch = .ok encoded ∧
      decodePreparedCommit encoded = .ok edgeBatch
  := by
  have hvalid : edgeBatch.validate = .ok () := by
    decide
  use hvalid
  apply (preparedCommit_roundTrip.1 _ hvalid).mpr
  decide +kernel

/-- A text which fits into the value of a fact is too long for the record of a batch. -/
theorem longText_not_written :
  (textBatch (List.replicate 16777216 0)).validate = .ok () ∧
    ∀ encoded, encodePreparedCommit (textBatch (List.replicate 16777216 0)) ≠ .ok encoded
  := by
  refine ⟨validate_textBatch _, ?_⟩
  intro encoded hencoded
  have hfits := ((encodePreparedCommit_eq_ok_iff (validate_textBatch _)).mp hencoded).1
  rw [length_textBatch, length_replicate, maxMetaPayloadBytes] at hfits
  omega

end PreparedCodec

end Cedar
