import CedarGraph.Storage.Reopen

/-!
# The facts of a valid batch

The facts of a batch which passes its checks are valid and have different keys.  They can therefore
all be written, and the only thing which can be wrong with the record of the batch is its size.
-/

namespace Cedar

open FactEvent List StatusOr StoreCommitBatch

namespace StoreCommitBatch

variable {batch : StoreCommitBatch} {commitSeq : CommitSeq}

/-- A valid mutation gives a valid fact. -/
theorem validate_of_mutation {mutation : PendingFactMutation} (h : mutation.validate = .ok ())
    (hcommit : commitSeq ≠ 0) :
  FactEvent.validate ⟨mutation.ref, mutation.validFrom, commitSeq, mutation.operation,
    mutation.schemaEpoch, mutation.value, none⟩ = .ok ()
  := by
  obtain ⟨_, hmutation, -⟩ := bind_eq_ok_iff.mp h
  rw [FactEvent.validate, if_neg hcommit, hmutation, if_neg (family_ne_of_validate h).2]
  rfl

/-- A valid identity gives a valid fact. -/
theorem validate_of_identity {identity : EdgeIdentity} (h : identity.validate = .ok ())
    (hcommit : commitSeq ≠ 0) :
  FactEvent.validate ⟨identityRef identity, 0, commitSeq, .put, 0, none, some identity⟩ = .ok ()
  := by
  have hedge : identity.edgeId ≠ 0 := by
    intro hzero
    rw [EdgeIdentity.validate, if_pos (Or.inl hzero)] at h
    cases h
  have hmutation : validateMutation (identityRef identity) .put 0 none = .ok () := by
    simp [validateMutation, FactRef.validate, identityRef, FactRef.isProperty,
      isStateFamily, hedge]
  rw [FactEvent.validate, if_neg hcommit, hmutation]
  simp [identityRef, EdgeIdentity.edgeRef, h]

/-- The facts of a valid batch are valid and have its commit. -/
theorem ofCommit_commitFacts (h : batch.validate = .ok ()) (hcommit : commitSeq ≠ 0) :
  OfCommit commitSeq (batch.commitFacts commitSeq)
  := by
  have hvalid := Valid.of_validate h
  intro event hevent
  use ?_, commitSeq_of_mem_commitFacts hevent
  obtain hevent | hevent := mem_append.mp hevent
  · obtain ⟨mutation, hmutation, rfl⟩ := mem_map.mp hevent
    apply validate_of_mutation (hvalid.mutations mutation hmutation) hcommit
  · obtain ⟨identity, hidentity, rfl⟩ := mem_map.mp hevent
    apply validate_of_identity (hvalid.identities identity hidentity) hcommit

/-- The facts of a valid batch have different keys. -/
theorem pairwise_commitFacts (h : batch.validate = .ok ()) (hcommit : commitSeq ≠ 0) :
  (batch.commitFacts commitSeq).Pairwise fun e f => e.encodedKey ≠ f.encodedKey
  := by
  have hvalid := ofCommit_commitFacts h hcommit
  obtain ⟨-, -, -, -, hkeys, -, -, -, hedges, -⟩ := Valid.of_validate h
  have hdiffer : (batch.commitFacts commitSeq).Pairwise fun e f =>
      e.ref = f.ref → e.validFrom ≠ f.validFrom := by
    apply pairwise_append.mpr
    refine ⟨?_, ?_, ?_⟩
    · apply pairwise_map.mpr ((pairwise_map.mp hkeys).imp _)
      intro m n hne (href : m.ref = n.ref) (htime : m.validFrom = n.validFrom)
      apply hne
      rw [href, htime]
    · apply pairwise_map.mpr ((pairwise_map.mp hedges).imp _)
      intro i j hne href
      obtain ⟨hpart, -, -, hedge⟩ := FactRef.mk.inj href
      cases hne (Prod.ext hpart hedge)
    · -- a mutation is not one of an identity
      intro e he f hf href
      obtain ⟨mutation, hmutation, rfl⟩ := mem_map.mp he
      obtain ⟨identity, -, rfl⟩ := mem_map.mp hf
      have hfamily := (exists_mutation_of_validate h).1 mutation hmutation
      cases hfamily (congrArg FactRef.family href)
  apply hdiffer.imp_of_mem
  intro e f he hf hne hkey
  obtain ⟨href, htime, -⟩ :=
    (encodedKey_inj (hvalid e he).1 (hvalid f hf).1).mp hkey
  apply hne href htime

end StoreCommitBatch

variable {events : List FactEvent} {commitSeq : CommitSeq}

/-- Valid facts can be encoded. -/
theorem exists_encodeFacts (h : ∀ event ∈ events, event.validate = .ok ()) :
  ∃ encoded, encodeFacts events = .ok encoded
  := by
  induction events with
  | nil => use []; rfl
  | cons event events ih =>
    obtain ⟨hvalid, hevents⟩ := forall_mem_cons.mp h
    obtain ⟨encoded, hencoded⟩ := ih hevents
    use ⟨event, hvalid⟩ :: encoded
    rw [encodeFacts]
    split
    case h_1 hstatus =>
      rw [hvalid] at hstatus
      cases hstatus
    · rw [hencoded]
      rfl

/-- The bytes of the record of a batch. -/
def StoreCommitBatch.recordBytes (batch : StoreCommitBatch) : Nat :=
  sequenceV2HeaderBytes +
    (batch.mutations.length + batch.edgeIdentities.length) * sequenceV2FactBytes

/-- The record of a valid batch can be written if it is not too large. -/
theorem sequenceRecord_isOk_iff {batch : StoreCommitBatch} {facts : List ValidFactEvent}
    (h : batch.validate = .ok ()) (hcommit : commitSeq ≠ 0)
    (hfacts : encodeFacts (batch.commitFacts commitSeq) = .ok facts) :
  (∃ record, DecidedBatch.sequenceRecord ⟨batch, commitSeq, facts⟩ = .ok record) ↔
    batch.recordBytes ≤ maxMetaPayloadBytes
  := by
  have hvalid := ofCommit_commitFacts h hcommit
  obtain ⟨htxn, -, hmutations, -⟩ := Valid.of_validate h
  have hkeys : (facts.map fun event => event.val.encodedKey) =
      (batch.commitFacts commitSeq).map encodedKey := by
    rw [← map_val_of_encodeFacts hfacts, map_map]
    rfl
  have hlength : (batch.commitFacts commitSeq).length =
      batch.mutations.length + batch.edgeIdentities.length := by
    simp [commitFacts]
  have hsize : (batch.commitFacts commitSeq).length * sequenceV2FactBytes +
      sequenceV2HeaderBytes = batch.recordBytes := by
    rw [recordBytes, hlength, Nat.add_comm]
  rw [DecidedBatch.sequenceRecord, hkeys]
  constructor
  · rintro ⟨record, hrecord⟩
    obtain ⟨_, -, hrecord⟩ := bind_eq_ok_iff.mp hrecord
    rw [describeFactKeys_eq hvalid, ok_bind, length_map] at hrecord
    split at hrecord
    · cases hrecord
    · omega
  · intro hle
    have hvalidate : SequenceRecord.validate ⟨commitSeq, batch.txnId, batch.systemHlc,
        (batch.commitFacts commitSeq).map encodedKey⟩ = .ok () := by
      rw [SequenceRecord.validate, if_neg]
      · refine checkFactKeys_eq_ok_iff.mpr
          ⟨?_, pairwise_map.mpr (pairwise_commitFacts h hcommit), by simp⟩
        intro key hkey
        obtain ⟨event, hevent, rfl⟩ := mem_map.mp hkey
        exact ⟨_, decodeFactKey_encodedKey (hvalid event hevent).1, (hvalid event hevent).2⟩
      · have hpositive := length_pos_of_ne_nil hmutations
        rw [← length_eq_zero_iff, length_map]
        rw [recordBytes, maxMetaPayloadBytes, sequenceV2FactBytes] at hle
        push Not
        refine ⟨hcommit, htxn, by omega, by omega⟩
    use ⟨batch.txnId, batch.systemHlc,
      (batch.commitFacts commitSeq).map fun event => (event.ref, event.validFrom)⟩
    rw [encodeSequenceRecordV2, hvalidate, ok_bind, describeFactKeys_eq hvalid,
      ok_bind, if_neg (by rw [length_map]; omega)]
    rfl

end Cedar
