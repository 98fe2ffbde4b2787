import CedarGraph.Kernel.PreparedDecision

/-!
# Listing prepared commits

The batches which are prepared can be listed, in the form in which they were handed in.  The events
of this form are rebuilt from the mutations of the store: the assertion of an edge gets the identity
of the edge, and the dependencies are left out.

The form can be handed in again exactly if the batch has no identities of edges and no
dependencies.  An assertion of an edge may not carry an identity.
-/

namespace Cedar

open List StatusOr

open StoreCommitBatch

/-- The identity of an edge which a batch asserts with a mutation. -/
def StoreCommitBatch.assertedIdentity (batch : StoreCommitBatch) (mutation : PendingFactMutation) :
    Option EdgeIdentity :=
  if mutation.ref.family = .edgeState then
    batch.edgeIdentities.find? fun candidate =>
      candidate.edgeRef.homePartId = mutation.ref.partId ∧
        candidate.edgeRef.edgeId = mutation.ref.entityId
  else
    none

/-- A batch in the form in which it is listed. -/
def toPublicPreparedBatch (batch : StoreCommitBatch) : PreparedCommitBatch where
  txnId := batch.txnId
  systemHlc := batch.systemHlc
  events := batch.mutations.map fun mutation =>
    { ref := mutation.ref, validFrom := mutation.validFrom, commitSeq := 1,
      operation := mutation.operation, schemaEpoch := mutation.schemaEpoch,
      value := mutation.value, edgeIdentity := batch.assertedIdentity mutation }

/-- The batches agree in what the listing should keep. -/
structure StoreCommitBatch.SameContent (batch other : StoreCommitBatch) : Prop where
  txnId : batch.txnId = other.txnId
  systemHlc : batch.systemHlc = other.systemHlc
  mutations : batch.mutations = other.mutations
  edgeIdentities : batch.edgeIdentities = other.edgeIdentities
  snapshotWriteDependencies : batch.snapshotWriteDependencies = other.snapshotWriteDependencies
  strictReadDependencies : batch.strictReadDependencies = other.strictReadDependencies

/-- A batch can be finalized as it is listed: the events are valid, and the batch which they make is
the listed one. -/
def StoreCommitBatch.ListedFaithfully (batch : StoreCommitBatch) : Prop :=
  (∀ event ∈ (toPublicPreparedBatch batch).events, event.validate = .ok ()) ∧
    ∃ stored, toStorePreparedBatch (toPublicPreparedBatch batch) = .ok stored ∧
      stored.SameContent batch

section Listing

variable {batch : StoreCommitBatch} {identity : EdgeIdentity}

/-- Without identities the events are the mutations. -/
theorem storePreparedEvents_mutations {mutations : List PendingFactMutation}
    (hvalid : ∀ mutation ∈ mutations, mutation.validate = .ok ()) :
  storePreparedEvents (mutations.map fun mutation =>
    { ref := mutation.ref, validFrom := mutation.validFrom, commitSeq := 1,
      operation := mutation.operation, schemaEpoch := mutation.schemaEpoch,
      value := mutation.value }) = .ok (mutations, [])
  := by
  induction mutations with
  | nil => rfl
  | cons mutation mutations ih =>
    have hmutation := hvalid mutation mem_cons_self
    rw [map_cons, storePreparedEvents, validate_of_mutation hmutation (by decide),
      if_neg (family_ne_of_validate hmutation).2,
      ih fun other hother => hvalid other (mem_cons_of_mem _ hother)]
    rfl

end Listing

/-- A batch is listed as it can be finalized exactly if it has no identities of edges and no
dependencies. -/
theorem listedFaithfully_iff {batch : StoreCommitBatch} (h : batch.validate = .ok ()) :
  batch.ListedFaithfully ↔
    batch.edgeIdentities = [] ∧ batch.snapshotWriteDependencies = [] ∧
      batch.strictReadDependencies = []
  := by
  constructor
  · rintro ⟨hevents, stored, hstored, hsame⟩
    obtain ⟨⟨-, hsnapshot, hstrict, -⟩, -⟩ := toStorePreparedBatch_plain hstored
    refine ⟨?_, hsame.snapshotWriteDependencies.symm.trans hsnapshot,
      hsame.strictReadDependencies.symm.trans hstrict⟩
    by_contra hne
    obtain ⟨identity, hidentity⟩ := exists_mem_of_ne_nil _ hne
    obtain ⟨mutation, hmutation, hmatches⟩ :=
      any_eq_true.mp ((Valid.of_validate h).asserted identity hidentity)
    obtain ⟨hfamily, -, hpart, hentity⟩ := of_decide_eq_true hmatches
    -- the event which asserts the edge has an identity, and is not the fact of an identity
    have hvalid := hevents _ (mem_map_of_mem hmutation)
    have hnone := FactEvent.edgeIdentity_of_validate hvalid (by
      rw [hfamily]
      decide)
    dsimp only at hnone
    rw [assertedIdentity, if_pos hfamily, find?_eq_none] at hnone
    exact hnone identity hidentity (decide_eq_true ⟨hpart.symm, hentity.symm⟩)
  · rintro ⟨hidentities, hsnapshot, hstrict⟩
    obtain ⟨htxn, hhlc, hmutations, hvalid, -⟩ := Valid.of_validate h
    have hnone (mutation : PendingFactMutation) : batch.assertedIdentity mutation = none := by
      rw [assertedIdentity, hidentities]
      split <;> rfl
    have hpublic : toPublicPreparedBatch batch = ⟨batch.txnId, batch.systemHlc,
        batch.mutations.map fun mutation =>
          { ref := mutation.ref, validFrom := mutation.validFrom, commitSeq := 1,
            operation := mutation.operation, schemaEpoch := mutation.schemaEpoch,
            value := mutation.value }⟩ := by
      simp only [toPublicPreparedBatch, hnone]
    -- only whether the number is fresh may differ, and the checks do not ask for it
    have hstored : validate
        { txnId := batch.txnId, systemHlc := batch.systemHlc, mutations := batch.mutations } =
        .ok () := by
      rw [← h, validate, validate, hidentities, hsnapshot, hstrict]
      rfl
    rw [ListedFaithfully, hpublic]
    constructor
    · intro event hevent
      obtain ⟨mutation, hmutation, rfl⟩ := mem_map.mp hevent
      apply validate_of_mutation (hvalid mutation hmutation) (by decide)
    · use { txnId := batch.txnId, systemHlc := batch.systemHlc, mutations := batch.mutations }
      constructor
      · rw [toStorePreparedBatch, if_neg (by simp [htxn, hhlc, hmutations]),
          storePreparedEvents_mutations hvalid, ok_bind]
        dsimp only
        rw [hstored]
        rfl
      · exact ⟨rfl, rfl, rfl, hidentities.symm, hsnapshot.symm, hstrict.symm⟩

/-- A batch which asserts a vertex. -/
def listedVertex : StoreCommitBatch where
  txnId := 7
  systemHlc := 7
  mutations := [⟨EntityFact.vertex ⟨0, 1⟩, 5, .put, 0, none⟩]

/-- The assertion of a vertex is listed as it can be finalized. -/
theorem listedVertex_listedFaithfully :
  listedVertex.validate = .ok () ∧ listedVertex.ListedFaithfully
  := by
  have hvalid : listedVertex.validate = .ok () := by decide +kernel
  exact ⟨hvalid, (listedFaithfully_iff hvalid).mpr ⟨rfl, rfl, rfl⟩⟩

/-- A batch which asserts an edge between the vertices 1 and 2, with its identity. -/
def listedEdge : StoreCommitBatch where
  txnId := 7
  systemHlc := 7
  mutations := [⟨EntityFact.edge ⟨0, 3⟩, 5, .put, 0, none⟩]
  edgeIdentities := [⟨3, 1, 2, 1, 0, 0, 0⟩]

/-- The assertion of an edge is listed with an event which is not valid, so that the listed batch
cannot be handed in again. -/
theorem listedEdge_not_listedFaithfully :
  listedEdge.validate = .ok () ∧ ¬ listedEdge.ListedFaithfully ∧
    toStorePreparedBatch (toPublicPreparedBatch listedEdge) =
      Status.invalidArgument "fact event" "edge identity payload on non-identity fact"
  := by
  refine ⟨by decide +kernel, ?_, by decide +kernel⟩
  rintro ⟨hevents, -⟩
  have hvalid := hevents _ mem_cons_self
  revert hvalid
  decide +kernel

end Cedar
