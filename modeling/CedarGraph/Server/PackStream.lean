import CedarGraph.Cypher.Statement
import CedarGraph.Server.BoltCodec

/-!
# PackStream

The texts, values and maps of a request, and the fields and records of a reply.
-/

namespace Cedar

open ByteCodec Cypher

/-! ### Requests -/

variable (payload : List UInt8)

/-- A text of a length, and the offset behind it. -/
def packText (length offset maxBytes : Nat) : StatusOr (Text × Nat) :=
  if length > maxBytes ∨ offset > sizeMinus payload.length length then
    Status.resourceExhausted "bolt" "string exceeds configured limit"
  else
    .ok ((payload.drop offset).take length, offset + length)

/-- A string at an offset, and the offset behind it. -/
def readPackString (offset maxBytes : Nat) : StatusOr (Text × Nat) :=
  match payload[offset]? with
  | none => Status.parseError "bolt" "missing string"
  | some marker =>
      if 0x80 ≤ marker ∧ marker ≤ 0x8F then
        packText payload (marker.toNat - 0x80) (offset + 1) maxBytes
      else if marker = 0xD0 ∧ offset + 1 < payload.length then
        packText payload (payload.getD (offset + 1) 0).toNat (offset + 2) maxBytes
      else if marker = 0xD1 ∧ offset + 3 ≤ payload.length then
        packText payload
          ((payload.getD (offset + 1) 0).toNat * 256 + (payload.getD (offset + 2) 0).toNat)
          (offset + 3) maxBytes
      else
        Status.parseError "bolt" "unsupported string encoding"

/-- A value at an offset, and the offset behind it. -/
def readPackValue (offset maxBytes : Nat) : StatusOr (Value × Nat) :=
  match payload[offset]? with
  | none => Status.parseError "bolt" "missing value"
  | some marker =>
      if marker ≤ 0x7F then
        .ok (.int64 (Int64.ofNat marker.toNat), offset + 1)
      else if marker ≥ 0xF0 then
        .ok (.int64 marker.toInt8.toInt64, offset + 1)
      else if marker = 0xC2 then
        .ok (.bool false, offset + 1)
      else if marker = 0xC3 then
        .ok (.bool true, offset + 1)
      else if marker = 0xCC ∧ offset + 1 < payload.length then
        .ok (.int64 (Int64.ofNat (payload.getD (offset + 1) 0).toNat), offset + 2)
      else if (0x80 ≤ marker ∧ marker ≤ 0x8F) ∨ marker = 0xD0 ∨ marker = 0xD1 then do
        let (text, next) ← readPackString payload offset maxBytes
        .ok (.string text, next)
      else
        Status.parseError "bolt" "unsupported parameter value"

/-- Some entries at an offset, and the offset behind them. -/
def readPackEntries (payload : List UInt8) (maxBytes : Nat) :
    (count offset : Nat) → StatusOr (List (Text × Value) × Nat)
  | 0, offset => .ok ([], offset)
  | count + 1, offset => do
      let (key, offset) ← readPackString payload offset maxBytes
      let (value, offset) ← readPackValue payload offset maxBytes
      let (entries, offset) ← readPackEntries payload maxBytes count offset
      .ok ((key, value) :: entries, offset)

/-- A map at an offset, and the offset behind it.  If a key is there twice, the first one counts. -/
def readPackMap (offset maxBytes : Nat) : StatusOr (List (Text × Value) × Nat) :=
  match payload[offset]? with
  | none => Status.parseError "bolt" "missing map"
  | some marker =>
      if marker < 0xA0 ∨ marker > 0xAF then
        Status.parseError "bolt" "expected tiny map"
      else
        readPackEntries payload maxBytes (marker.toNat - 0xA0) (offset + 1)

/-- The statement of a request and its parameters.  What else the request says is read as well, but
nothing follows from it. -/
def readRun (maxBytes : Nat) : StatusOr (Text × List (Text × Value)) := do
  let (query, offset) ← readPackString payload 2 maxBytes
  let (parameters, offset) ← readPackMap payload offset maxBytes
  let _ ← readPackMap payload offset maxBytes
  .ok (query, parameters)

/-- The values of the parameters of a statement. -/
def bindParameters (values : List (Text × Value)) :
    List BoundParameter → (bindings : Bindings) → StatusOr Bindings
  | [], bindings => .ok bindings
  | parameter :: parameters, bindings =>
      match values.find? fun entry => entry.1 = parameter.name with
      | none => Status.bindError "bolt" "named parameter is missing"
      | some entry => do
          let bindings ← bindings.bind parameter.id (queryTypeFor entry.2) entry.2
          bindParameters values parameters bindings

/-- How many records a request asks for.  A request which is not understood asks for none. -/
def pullLimit (configured : Nat) : Nat :=
  if payload.length < 3 ∨ payload.getD 2 0 = 0xA0 then
    configured
  else if payload.getD 2 0 ≠ 0xA1 ∨ payload.length < 6 ∨ payload.getD 3 0 ≠ 0x81 ∨
      payload.getD 4 0 ≠ 0x6E then
    0
  else if payload.getD 5 0 ≤ 0x7F then
    (payload.getD 5 0).toNat
  else if payload.getD 5 0 = 0xCC ∧ payload.length ≥ 7 then
    (payload.getD 6 0).toNat
  else
    0

/-! ### Replies -/

/-- A string of at most 15 bytes. -/
def packString (value : Text) : StatusOr (List UInt8) :=
  if value.length > 15 then
    Status.resourceExhausted "bolt" "string exceeds tiny value limit"
  else
    .ok (UInt8.ofNat (0x80 + value.length) :: value)

/-- The bytes of a number. -/
def packInteger (value : Nat) : List UInt8 :=
  if value ≤ 0x7F then
    [UInt8.ofNat value]
  else if value ≤ 0xFF then
    [0xCC, UInt8.ofNat value]
  else if value ≤ 0xFFFFFFFF then
    0xCE :: putBigEndian 4 value
  else
    0xCF :: putBigEndian 8 value

/-- The bytes of the names of some fields. -/
def packFields : List Text → StatusOr (List UInt8)
  | [] => .ok []
  | field :: fields => do
      let encoded ← packString field
      let rest ← packFields fields
      .ok (encoded ++ rest)

/-- The reply to a statement: the names of the fields of its result. -/
def encodeBoltFields (fields : List Text) (maxFrameBytes : Nat) : StatusOr (List UInt8) :=
  if fields.length > 15 then
    Status.resourceExhausted "bolt" "too many result fields"
  else do
    let encoded ← packFields fields
    encodeBoltChunk
      ([0xB1, 0x70, 0xA1, 0x86, 0x66, 0x69, 0x65, 0x6C, 0x64, 0x73, UInt8.ofNat (0x90 + fields.length)]
        ++ encoded)
      maxFrameBytes

/-- Some rows of a result, whose values are packed already. -/
structure BoltBatch where
  columns : Nat
  rows : List (List UInt8)

/-- A row of a batch.  The result is none if there is no such row. -/
def encodeBoltRecord (batch : BoltBatch) (row maxFrameBytes : Nat) :
    Option (StatusOr (List UInt8)) :=
  if batch.columns > 15 then
    some (Status.resourceExhausted "bolt" "too many result columns")
  else
    (batch.rows[row]?).map fun values =>
      encodeBoltChunk ([0xB1, 0x71, UInt8.ofNat (0x90 + batch.columns)] ++ values) maxFrameBytes

/-- Without fields the reply to a statement has eleven bytes. -/
theorem encodeBoltFields_nil (maxFrameBytes : Nat) :
  (∃ frame, encodeBoltFields [] maxFrameBytes = .ok frame) ↔ 11 ≤ maxFrameBytes
  := by
  change (∃ frame, encodeBoltChunk _ maxFrameBytes = .ok frame) ↔ _
  rw [encodeBoltChunk]
  by_cases hfits : 11 ≤ maxFrameBytes
  · rw [if_neg]
    · simp [hfits]
    · simp
      omega
  · rw [if_pos]
    · simp [hfits, Status.resourceExhausted]
    · simp
      omega

/-! ### Bounds -/

section Bounds

open StatusOr

/-- The length which a string at an offset declares, and where its bytes start. -/
def packHeader (payload : List UInt8) (offset : Nat) : Option (Nat × Nat) :=
  match payload[offset]? with
  | none => none
  | some marker =>
      if 0x80 ≤ marker ∧ marker ≤ 0x8F then
        some (marker.toNat - 0x80, offset + 1)
      else if marker = 0xD0 ∧ offset + 1 < payload.length then
        some ((payload.getD (offset + 1) 0).toNat, offset + 2)
      else if marker = 0xD1 ∧ offset + 3 ≤ payload.length then
        some ((payload.getD (offset + 1) 0).toNat * 256 + (payload.getD (offset + 2) 0).toNat,
          offset + 3)
      else
        none

/-- A string at an offset declares no more bytes than the payload has. -/
def DeclaresWithin (payload : List UInt8) (offset : Nat) : Prop :=
  ∀ length start, packHeader payload offset = some (length, start) → length ≤ payload.length

/-- The bytes of a string at an offset are the declared ones, and they are in the payload. -/
def StringWithin (payload : List UInt8) (offset : Nat) (text : Text) (next : Nat) : Prop :=
  ∃ length start, packHeader payload offset = some (length, start) ∧ next = start + length ∧
    next ≤ payload.length ∧ text.length = length ∧ text = (payload.drop start).take length

/-- A value at an offset is in the payload, and so are the bytes of a string. -/
def ValueWithin (payload : List UInt8) (offset : Nat) (value : Value) (next : Nat) : Prop :=
  next ≤ payload.length ∧ ∀ text, value = .string text → StringWithin payload offset text next

/-- Each of some entries is read where the one before it ends, and is in the payload. -/
def EntriesWithin (payload : List UInt8) (maxBytes : Nat) :
    Nat → List (Text × Value) → Nat → Prop
  | offset, [], next => next = offset ∧ next ≤ payload.length
  | offset, entry :: entries, next => ∃ middle behind,
      readPackString payload offset maxBytes = .ok (entry.1, middle) ∧
      StringWithin payload offset entry.1 middle ∧
      readPackValue payload middle maxBytes = .ok (entry.2, behind) ∧
      ValueWithin payload middle entry.2 behind ∧
      EntriesWithin payload maxBytes behind entries next

/-- The offsets at which the keys and the values of entries are read. -/
def entryOffsets (payload : List UInt8) (maxBytes : Nat) : (count offset : Nat) → List Nat
  | 0, _ => []
  | count + 1, offset => offset ::
      match readPackString payload offset maxBytes with
      | .error _ => []
      | .ok (_, middle) => middle ::
          match readPackValue payload middle maxBytes with
          | .error _ => []
          | .ok (_, behind) => entryOffsets payload maxBytes count behind

variable {payload : List UInt8} {offset maxBytes : Nat}

/-- A string is read behind its header. -/
theorem readPackString_eq_ok_iff {text : Text} {next : Nat} :
  readPackString payload offset maxBytes = .ok (text, next) ↔
    ∃ length start, packHeader payload offset = some (length, start) ∧
      packText payload length start maxBytes = .ok (text, next)
  := by
  rw [readPackString, packHeader]
  cases payload[offset]? with
  | none => simp [Status.parseError]
  | some marker =>
    dsimp only
    split_ifs
    · simp
    · simp
    · simp
    · simp [Status.parseError]

/-- The header of a string is in the payload. -/
theorem start_le_of_packHeader {length start : Nat}
    (h : packHeader payload offset = some (length, start)) :
  start ≤ payload.length
  := by
  rw [packHeader] at h
  split at h
  · cases h
  case h_2 marker hmarker =>
    obtain ⟨hlt, -⟩ := List.getElem?_eq_some_iff.mp hmarker
    split_ifs at h
    all_goals
      obtain ⟨rfl, rfl⟩ := Prod.mk.inj (Option.some.inj h)
      omega

/-- A string which is read is in the payload exactly if it declares no more bytes than that has. -/
theorem stringWithin_iff {text : Text} {next : Nat}
    (h : readPackString payload offset maxBytes = .ok (text, next)) :
  StringWithin payload offset text next ↔ DeclaresWithin payload offset
  := by
  obtain ⟨length, start, hheader, htext⟩ := readPackString_eq_ok_iff.mp h
  have hstart := start_le_of_packHeader hheader
  obtain ⟨hfits, htext⟩ := guard_eq_ok_iff.mp htext
  obtain ⟨rfl, rfl⟩ := Prod.mk.inj (Except.ok.inj htext)
  constructor
  · rintro ⟨length, start, hheader, hnext, hle, -⟩ length' start' hheader'
    rw [hheader] at hheader'
    obtain ⟨rfl, -⟩ := Prod.mk.inj (Option.some.inj hheader')
    omega
  · intro hdeclares
    have hlength := hdeclares length start hheader
    rw [sizeMinus, if_pos hlength] at hfits
    refine ⟨length, start, hheader, rfl, by omega, ?_, rfl⟩
    rw [List.length_take, List.length_drop]
    omega

theorem StringWithin.le {text : Text} {next : Nat} (h : StringWithin payload offset text next) :
  next ≤ payload.length
  := by
  obtain ⟨_, _, -, -, hle, -⟩ := h
  apply hle

theorem isString_of_packHeader {marker : UInt8} {header : Nat × Nat}
    (hmarker : payload[offset]? = some marker) (h : packHeader payload offset = some header) :
  0x80 ≤ marker ∧ marker ≤ 0x8F ∨ marker = 0xD0 ∨ marker = 0xD1
  := by
  rw [packHeader, hmarker] at h
  dsimp only at h
  split_ifs at h with htiny hbyte hword
  · exact Or.inl htiny
  · exact Or.inr (Or.inl hbyte.1)
  · exact Or.inr (Or.inr hword.1)

/-- A value which is read is in the payload exactly if it is not a string which declares too many
bytes. -/
theorem valueWithin_iff {value : Value} {next : Nat}
    (h : readPackValue payload offset maxBytes = .ok (value, next)) :
  ValueWithin payload offset value next ↔ DeclaresWithin payload offset
  := by
  rw [readPackValue] at h
  split at h
  · cases h
  case h_2 marker hmarker =>
    obtain ⟨hlt, -⟩ := List.getElem?_eq_some_iff.mp hmarker
    have hstring := fun header => @isString_of_packHeader payload offset marker header hmarker
    split_ifs at h
    any_goals
      obtain ⟨rfl, rfl⟩ := Prod.mk.inj (Except.ok.inj h)
      refine iff_of_true ⟨by omega, by rintro _ ⟨⟩⟩ fun length start hheader => ?_
      have hmarker := hstring _ hheader
      grind
    · obtain ⟨⟨text, next⟩, htext, h⟩ := bind_eq_ok_iff.mp h
      obtain ⟨rfl, rfl⟩ := Prod.mk.inj (Except.ok.inj h)
      rw [← stringWithin_iff htext]
      constructor
      · intro hvalue
        apply hvalue.2 text rfl
      · intro hwithin
        use hwithin.le
        rintro _ ⟨⟩
        exact hwithin
    · cases h

/-- Entries which are read are in the payload exactly if no string among them declares too many
bytes. -/
theorem entriesWithin_iff {count : Nat} {entries : List (Text × Value)} {next : Nat}
    (hoffset : offset ≤ payload.length)
    (h : readPackEntries payload maxBytes count offset = .ok (entries, next)) :
  EntriesWithin payload maxBytes offset entries next ↔
    ∀ start ∈ entryOffsets payload maxBytes count offset, DeclaresWithin payload start
  := by
  induction count generalizing offset entries with
  | zero =>
    obtain ⟨rfl, rfl⟩ := Prod.mk.inj (Except.ok.inj h)
    simp [EntriesWithin, entryOffsets, hoffset]
  | succ count ih =>
    obtain ⟨⟨key, middle⟩, hkey, h⟩ := bind_eq_ok_iff.mp h
    obtain ⟨⟨value, behind⟩, hvalue, h⟩ := bind_eq_ok_iff.mp h
    obtain ⟨⟨rest, _⟩, hrest, h⟩ := bind_eq_ok_iff.mp h
    obtain ⟨rfl, rfl⟩ := Prod.mk.inj (Except.ok.inj h)
    rw [entryOffsets, hkey]
    dsimp only
    rw [hvalue]
    simp only [List.forall_mem_cons, ← stringWithin_iff hkey, ← valueWithin_iff hvalue]
    constructor
    · rintro ⟨_, _, hkey', hstring, hvalue', hwithin, hentries⟩
      obtain ⟨-, rfl⟩ := Prod.mk.inj (Except.ok.inj (hkey'.symm.trans hkey))
      obtain ⟨-, rfl⟩ := Prod.mk.inj (Except.ok.inj (hvalue'.symm.trans hvalue))
      exact ⟨hstring, hwithin, (ih hwithin.1 hrest).mp hentries⟩
    · rintro ⟨hstring, hwithin, hall⟩
      exact ⟨middle, behind, hkey, hstring, hvalue, hwithin, (ih hwithin.1 hrest).mpr hall⟩

/-- What is read of a payload at an offset is in the payload exactly if the strings which are read
declare no more bytes than it has.  A number which is written is read exactly if it needs no more
than one byte, and a string if it is not longer than the limit. -/
theorem packStream_iff (payload : List UInt8) (offset maxBytes : Nat) :
  (∀ text next, readPackString payload offset maxBytes = .ok (text, next) →
      (StringWithin payload offset text next ↔ DeclaresWithin payload offset)) ∧
    (∀ value next, readPackValue payload offset maxBytes = .ok (value, next) →
      (ValueWithin payload offset value next ↔ DeclaresWithin payload offset)) ∧
    (∀ entries next, readPackMap payload offset maxBytes = .ok (entries, next) →
      ∃ marker ∈ payload[offset]?, (EntriesWithin payload maxBytes (offset + 1) entries next ↔
        ∀ start ∈ entryOffsets payload maxBytes (marker.toNat - 0xA0) (offset + 1),
          DeclaresWithin payload start)) ∧
    (∀ value < 2 ^ 63, (readPackValue (packInteger value) 0 maxBytes =
      .ok (.int64 (Int64.ofNat value), (packInteger value).length) ↔ value < 256)) ∧
    ∀ text encoded, packString text = .ok encoded →
      (readPackString encoded 0 maxBytes = .ok (text, encoded.length) ↔ text.length ≤ maxBytes)
  := by
  refine ⟨fun _ _ => stringWithin_iff, fun _ _ => valueWithin_iff, ?_, ?_, ?_⟩
  · intro entries next h
    rw [readPackMap] at h
    split at h
    · cases h
    case h_2 marker hmarker =>
      obtain ⟨hlt, -⟩ := List.getElem?_eq_some_iff.mp hmarker
      obtain ⟨-, h⟩ := guard_eq_ok_iff.mp h
      exact ⟨marker, hmarker, entriesWithin_iff hlt h⟩
  · intro value _
    rw [packInteger]
    split_ifs with hseven hbyte hword
    · have hmarker : UInt8.ofNat value ≤ 0x7F := by
        rw [UInt8.le_iff_toNat_le, UInt8.toNat_ofNat']
        simp
        omega
      have hmod : value % 256 = value := by omega
      simp [readPackValue, hmarker, hmod]
      omega
    · have hmod : value % 256 = value := by omega
      simp [readPackValue, hmod]
      omega
    · simp [readPackValue, Status.parseError]
      omega
    · simp [readPackValue, Status.parseError]
      omega
  · intro text encoded h
    obtain ⟨hshort, h⟩ := guard_eq_ok_iff.mp h
    obtain rfl := Except.ok.inj h
    have hmarker : (UInt8.ofNat (0x80 + text.length)).toNat = 0x80 + text.length := by
      rw [UInt8.toNat_ofNat']
      omega
    have hheader : packHeader (UInt8.ofNat (0x80 + text.length) :: text) 0 =
        some (text.length, 1) := by
      rw [packHeader, List.getElem?_cons_zero]
      dsimp only
      rw [if_pos, hmarker, Nat.add_sub_cancel_left]
      rw [UInt8.le_iff_toNat_le, UInt8.le_iff_toNat_le, hmarker]
      simp
      omega
    simp only [readPackString_eq_ok_iff, hheader, Option.some.injEq, Prod.mk.injEq, and_assoc,
      exists_and_left, exists_eq_left']
    simp [packText, sizeMinus, Status.resourceExhausted, Nat.add_comm 1]

/-- The payload declares two bytes, which are not there. -/
theorem readPackString_missingBytes :
  readPackString [0x82] 0 100 = .ok ([], 3) ∧
    ¬ ∃ next, readPackValue (packInteger 256) 0 100 = .ok (.int64 256, next)
  := by
  constructor
  · decide +kernel
  · rintro ⟨next, h⟩
    cases h

end Bounds

end Cedar
