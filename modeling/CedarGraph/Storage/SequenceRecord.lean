import CedarGraph.Storage.FactColumn

/-!
# Sequence records

Every commit leaves a record of its transaction and of the keys of its facts.  The compact format
stores the parts of the keys apart from the commit, which is the key of the record itself.
-/

namespace Cedar

open FactEvent List StatusOr

/-- What is recorded about a commit. -/
structure SequenceRecord where
  commitSeq : CommitSeq
  txnId : UInt64
  systemHlc : UInt64
  factKeys : List (List UInt8)
  deriving DecidableEq

/-- The keys of facts are valid, agree with the commit and differ. -/
def checkFactKeys (commitSeq : CommitSeq) :
    List (List UInt8) → List (List UInt8) → Status
  | _, [] => .ok ()
  | seen, key :: keys =>
      match decodeFactKey key with
      | .error _ => Status.invalidArgument "sequence record" "invalid fact key"
      | .ok decoded =>
          if decoded.commitSeq ≠ commitSeq then
            Status.invalidArgument "sequence record" "fact key commit sequence disagrees"
          else if seen.contains key then
            Status.invalidArgument "sequence record" "duplicate fact key"
          else
            checkFactKeys commitSeq (key :: seen) keys

/-- Keys pass the checks exactly if they are those of facts of the commit, differ, and are new. -/
theorem checkFactKeys_eq_ok_iff {commitSeq : CommitSeq} {seen keys : List (List UInt8)} :
  checkFactKeys commitSeq seen keys = .ok () ↔
    (∀ key ∈ keys, ∃ decoded, decodeFactKey key = .ok decoded ∧ decoded.commitSeq = commitSeq) ∧
      keys.Nodup ∧ ∀ key ∈ keys, key ∉ seen
  := by
  induction keys generalizing seen with
  | nil => simp [checkFactKeys]
  | cons key keys ih =>
    rw [checkFactKeys, forall_mem_cons, nodup_cons, forall_mem_cons]
    cases decodeFactKey key with
    | error => simp [Status.invalidArgument]
    | ok decoded =>
      simp only [check_eq_ok_iff, ih, contains_iff_mem, Except.ok.injEq,
        exists_eq_left', not_not]
      grind

def SequenceRecord.validate (record : SequenceRecord) : Status :=
  if record.commitSeq = 0 ∨ record.txnId = 0 ∨ record.factKeys = [] ∨
      record.factKeys.length > 2 ^ 32 - 1 then
    Status.invalidArgument "sequence record" "invalid sequence metadata"
  else
    checkFactKeys record.commitSeq [] record.factKeys

/-- A record in the compact format. -/
structure SequenceRecordV2 where
  txnId : UInt64
  systemHlc : UInt64
  facts : List (FactRef × ValidTime)

def maxMetaPayloadBytes : Nat := 16 * 1024 * 1024

def sequenceV2HeaderBytes : Nat := 1 + 1 + 8 + 8 + 4

def sequenceV2FactBytes : Nat := 4 + 1 + 2 + 8 + 8

/-- The parts of keys of facts, which give the keys back. -/
def describeFactKeys (commitSeq : CommitSeq) :
    List (List UInt8) → StatusOr (List (FactRef × ValidTime))
  | [] => .ok []
  | key :: keys => do
      let fact ← decodeFactKey key
      if encodeFactKey fact.ref fact.validFrom commitSeq ≠ key then
        Status.invalidArgument "sequence record" "fact key is not representable in meta sequence v2"
      else
        let rest ← describeFactKeys commitSeq keys
        return (fact.ref, fact.validFrom) :: rest

/-- A record is written in the compact format. -/
def encodeSequenceRecordV2 (record : SequenceRecord) : StatusOr SequenceRecordV2 := do
  record.validate
  let facts ← describeFactKeys record.commitSeq record.factKeys
  if sequenceV2HeaderBytes + facts.length * sequenceV2FactBytes > maxMetaPayloadBytes then
    Status.invalidArgument "metadata" "payload exceeds size limit"
  else
    return ⟨record.txnId, record.systemHlc, facts⟩

/-- What a record says, with the keys of its facts. -/
structure SequenceRecordView where
  commitSeq : CommitSeq
  txnId : UInt64
  factKeys : List (List UInt8)

/-- The keys of facts are put together again. -/
def rebuildFactKeys (commitSeq : CommitSeq) :
    List (FactRef × ValidTime) → StatusOr (List (List UInt8))
  | [] => .ok []
  | fact :: facts =>
      match fact.1.validate with
      | .error _ => Status.corruption "sequence record" "invalid fact reference"
      | .ok () => do
          let key := encodeFactKey fact.1 fact.2 commitSeq
          if key = [] then
            Status.corruption "sequence record" "invalid fact identity"
          else
            let keys ← rebuildFactKeys commitSeq facts
            return key :: keys

/-- A record in the compact format is read. -/
def decodeSequenceRecordView (record : SequenceRecordV2) (commitSeq : CommitSeq) :
    StatusOr SequenceRecordView :=
  if commitSeq = 0 then
    Status.corruption "sequence record" "v2 sequence record requires its commit sequence"
  else if record.facts = [] then
    Status.corruption "sequence record" "invalid sequence record"
  else do
    let keys ← rebuildFactKeys commitSeq record.facts
    return ⟨commitSeq, record.txnId, keys⟩

def SequenceRecordView.validate (view : SequenceRecordView) : Status :=
  if view.commitSeq = 0 ∨ view.txnId = 0 ∨ view.factKeys = [] then
    Status.invalidArgument "sequence record" "invalid sequence metadata"
  else
    checkFactKeys view.commitSeq [] view.factKeys

section Roundtrip

variable {events : List FactEvent} {commitSeq : CommitSeq}

/-- The facts of a commit. -/
def OfCommit (commitSeq : CommitSeq) (events : List FactEvent) : Prop :=
  ∀ event ∈ events, event.validate = .ok () ∧ event.commitSeq = commitSeq

/-- The keys of valid facts are described by reference and valid time. -/
theorem describeFactKeys_eq (hevents : OfCommit commitSeq events) :
  describeFactKeys commitSeq (events.map encodedKey) =
    .ok (events.map fun event => (event.ref, event.validFrom))
  := by
  induction events with
  | nil => rfl
  | cons event events ih =>
    obtain ⟨⟨hvalid, hcommit⟩, hevents⟩ := forall_mem_cons.mp hevents
    have hkey : encodeFactKey event.ref event.validFrom commitSeq = event.encodedKey := by
      rw [encodedKey, hcommit]
    rw [map_cons, describeFactKeys, decodeFactKey_encodedKey hvalid,
      ok_bind, if_neg (not_not.mpr hkey), ih hevents]
    rfl

/-- The keys of valid facts are rebuilt. -/
theorem rebuildFactKeys_eq (hevents : OfCommit commitSeq events) :
  rebuildFactKeys commitSeq (events.map fun event => (event.ref, event.validFrom)) =
    .ok (events.map encodedKey)
  := by
  induction events with
  | nil => rfl
  | cons event events ih =>
    obtain ⟨⟨hvalid, hcommit⟩, hevents⟩ := forall_mem_cons.mp hevents
    have hkey : encodeFactKey event.ref event.validFrom event.commitSeq ≠ [] := by
      rw [encodeFactKey_eq (validate_ref hvalid) (commitSeq_ne_zero hvalid)]
      simp [FactRef.keyBytes]
    rw [map_cons, rebuildFactKeys, validate_ref hvalid]
    rw [← hcommit, if_neg hkey, hcommit, ih hevents]
    rw [map_cons, encodedKey, hcommit]
    rfl

end Roundtrip

end Cedar
