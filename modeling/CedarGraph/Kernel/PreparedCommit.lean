import CedarGraph.Storage.DurableState

/-!
# Prepared commits

A batch can be prepared first and decided later.  A decision is written before it is carried out, and
carries a certificate: the same decision may be repeated, and another one is refused.  A decision to
commit runs the path of an ordinary commit, with all its checks.
-/

namespace Cedar

/-- A batch which is to be prepared. -/
structure PreparedCommitBatch where
  txnId : TxnId
  systemHlc : UInt64
  events : List FactEvent
  deriving DecidableEq

/-- The mutations of some events and the identities of edges in them.  The event of an identity
becomes an assertion of the edge. -/
def storePreparedEvents :
    List FactEvent → StatusOr (List PendingFactMutation × List EdgeIdentity)
  | [] => .ok ([], [])
  | event :: events => do
      event.validate
      let (mutationRef, identities) ←
        if event.ref.family = .edgeIdentity then
          match event.edgeIdentity with
          | none => Status.invalidArgument "prepared commit" "edge identity is missing"
          | some identity => .ok (EntityFact.edge identity.edgeRef, [identity])
        else
          .ok (event.ref, [])
      let rest ← storePreparedEvents events
      return (⟨mutationRef, event.validFrom, event.operation, event.schemaEpoch, event.value⟩ ::
        rest.1, identities ++ rest.2)

def toStorePreparedBatch (batch : PreparedCommitBatch) : StatusOr StoreCommitBatch :=
  if batch.txnId = 0 ∨ batch.systemHlc = 0 ∨ batch.events = [] then
    Status.invalidArgument "prepared commit" "invalid batch"
  else do
    let events ← storePreparedEvents batch.events
    let stored : StoreCommitBatch :=
      { txnId := batch.txnId, systemHlc := batch.systemHlc, mutations := events.1,
        edgeIdentities := events.2 }
    stored.validate
    return stored

/-- What is decided about a prepared transaction. -/
inductive PreparedDecisionOutcome where
  | commit
  | abort
  deriving DecidableEq

/-- A decision with its certificate. -/
structure PreparedDecision where
  txnId : TxnId
  outcome : PreparedDecisionOutcome
  certificate : List UInt8
  deriving DecidableEq

/-- What a commit comes to. -/
inductive CommitOutcome where
  | committed
  | aborted
  deriving DecidableEq

structure CommitResult where
  outcome : CommitOutcome
  commitSeq : CommitSeq
  txnId : TxnId
  status : Status
  deriving DecidableEq

/-- A failed commit counts as aborted. -/
def toCommitResult (txnId : TxnId) : StatusOr CommitSeq → CommitResult
  | .ok commitSeq => ⟨.committed, commitSeq, txnId, .ok ()⟩
  | .error status => ⟨.aborted, 0, txnId, .error status⟩

/-- Which batches have few enough bytes: by the estimate before a commit, in what a commit writes,
and in the record of a prepared batch. -/
structure PreparedOptions extends GroupOptions where
  writeFits : StoreCommitBatch → Bool
  recordFits : StoreCommitBatch → Bool

def maxCertificateBytes : Nat := 16 * 1024 * 1024 - 13

/-! ### Commits of one batch -/

namespace DurableState

/-- The edges whose identities are among the facts of a commit. -/
def committedEdgeIds : List (List UInt8) → StatusOr (List (PartId × EdgeId))
  | [] => .ok []
  | key :: keys => do
      let decoded ← decodeFactKey key
      let rest ← committedEdgeIds keys
      if decoded.ref.family = .edgeIdentity then
        return (decoded.ref.partId, decoded.ref.entityId) :: rest
      else
        return rest

/-- The identities of a batch are those which were committed. -/
def checkCommittedIdentities (facts : FactColumn) (committed : List (PartId × EdgeId)) :
    List EdgeIdentity → Status
  | [] => .ok ()
  | identity :: identities =>
      if (identity.homePartId, identity.edgeId) ∉ committed then
        Status.conflict "commit" "transaction ID belongs to a different batch"
      else
        match readLatestEdgeIdentity facts identity.edgeRef with
        | none =>
            Status.corruption "commit" "committed edge lacks an authoritative identity fact"
        | some latest =>
            if latest ≠ identity then
              Status.conflict "commit" "transaction ID belongs to a different batch"
            else
              checkCommittedIdentities facts committed identities

/-- The mutations of a batch are those which were committed. -/
def checkCommittedMutations (facts : FactColumn) (commitSeq : CommitSeq) :
    List PendingFactMutation → List (List UInt8) → Status
  | [], _ => .ok ()
  | _ :: _, [] => Status.conflict "commit" "transaction ID belongs to a different batch"
  | mutation :: mutations, key :: keys =>
      if encodeFactKey mutation.ref mutation.validFrom commitSeq ≠ key then
        Status.conflict "commit" "transaction ID belongs to a different batch"
      else
        match facts.events.find? fun event => event.encodedKey = key with
        | none => Status.notFound "read committed fact" ""
        | some actual =>
            if actual.operation ≠ mutation.operation ∨ actual.schemaEpoch ≠ mutation.schemaEpoch ∨
                (actual.value == mutation.value) = false then
              Status.conflict "commit" "transaction ID belongs to a different batch"
            else
              checkCommittedMutations facts commitSeq mutations keys

/-- The record of a commit. -/
def sequence (state : DurableState) (commitSeq : CommitSeq) : Option SequenceRecordV2 :=
  (state.sequences.find? fun entry => entry.1 = commitSeq).map Prod.snd

/-- A batch whose transaction has an outcome is compared with what was committed. -/
def replayCommit (state : DurableState) (batch : StoreCommitBatch)
    (outcome : TransactionOutcomeRecord) : StatusOr CommitSeq :=
  if outcome.commitSeq < state.sequenceRetentionWatermark then
    .error ⟨.snapshotExpired, "commit",
      "sequence record was pruned below the sequence retention watermark"⟩
  else
    match state.sequence outcome.commitSeq with
    | none => Status.corruption "commit" "outcome is missing sequence record"
    | some record => do
        let view ← decodeSequenceRecordView record outcome.commitSeq
        if view.txnId ≠ batch.txnId ∨ record.systemHlc ≠ batch.systemHlc ∨
            view.factKeys.length ≠ batch.mutations.length + batch.edgeIdentities.length then
          Status.conflict "commit" "transaction ID belongs to a different batch"
        else do
          let committed ← committedEdgeIds view.factKeys
          if committed.dedup.length ≠ batch.edgeIdentities.length then
            Status.conflict "commit" "transaction ID belongs to a different batch"
          else do
            checkCommittedIdentities state.store.facts committed batch.edgeIdentities
            checkCommittedMutations state.store.facts outcome.commitSeq batch.mutations
              view.factKeys
            return outcome.commitSeq

/-- A batch which passed its validation is written and published as the next commit. -/
def writeCommit (options : PreparedOptions) (state : DurableState) (batch : StoreCommitBatch) :
    StatusOr (CommitSeq × DurableState) :=
  if state.store.visibleSeq = -1 then
    .error ⟨.resourceExhausted, "commit", "commit sequence exhausted"⟩
  else do
    let commitSeq := state.store.visibleSeq + 1
    let facts ← encodeFacts (batch.commitFacts commitSeq)
    let decided : DecidedBatch := ⟨batch, commitSeq, facts⟩
    let record ← decided.sequenceRecord
    if !options.writeFits batch then
      .error ⟨.resourceExhausted, "commit", "encoded batch exceeds hard byte limit"⟩
    else
      let store ← state.store.writeDecidedGroup ⟨state.store.visibleSeq, [decided]⟩
      return (commitSeq,
        { state with
          store := store
          sequences := state.sequences ++ [(commitSeq, record)]
          transactionOutcomes := ⟨batch.txnId, commitSeq⟩ :: state.transactionOutcomes })

end DurableState

/-! ### The database -/

/-- A store with the batches which are prepared and the decisions. -/
structure PreparedDatabase where
  state : DurableState
  prepared : List StoreCommitBatch := []
  decisions : List PreparedDecision := []

namespace PreparedDatabase

variable (options : PreparedOptions) (db : PreparedDatabase) (txnId : TxnId)

/-- The batch of a transaction which is prepared. -/
def lookup : Option StoreCommitBatch :=
  db.prepared.find? fun batch => batch.txnId = txnId

def resolvePreparedDecision : Option PreparedDecision :=
  db.decisions.find? fun decision => decision.txnId = txnId

/-- The record of a prepared batch is deleted. -/
def erase : PreparedDatabase :=
  { db with prepared := db.prepared.filter fun batch => batch.txnId ≠ txnId }

/-- A batch is prepared, unless its transaction is terminal, belongs to another batch or is
committed. -/
def persistPreparedCommit (batch : PreparedCommitBatch) : StatusOr PreparedDatabase :=
  if batch.txnId = 0 then
    Status.invalidArgument "prepared decision" "zero transaction ID"
  else if (db.resolvePreparedDecision batch.txnId).isSome then
    Status.conflict "prepared commit" "transaction is terminal"
  else do
    let stored ← toStorePreparedBatch batch
    if !options.recordFits stored then
      Status.invalidArgument "async prepare" "payload exceeds size limit"
    else
      match db.lookup stored.txnId with
      | some existing =>
          if existing = stored then
            .ok db
          else
            Status.conflict "async prepare" "transaction ID belongs to a different batch"
      | none =>
          if (db.state.outcome stored.txnId).isSome then
            Status.conflict "async prepare" "transaction ID is already committed"
          else
            .ok { db with prepared := stored :: db.prepared }

/-- A decision about a prepared transaction is written, unless there is another one. -/
def persistPreparedDecision (db : PreparedDatabase) (decision : PreparedDecision) :
    StatusOr PreparedDatabase :=
  if decision.txnId = 0 ∨ decision.certificate = [] ∨
      decision.certificate.length > maxCertificateBytes then
    Status.invalidArgument "prepared decision" "invalid decision"
  else
    match db.resolvePreparedDecision decision.txnId with
    | some existing =>
        if existing = decision then
          .ok db
        else
          Status.conflict "prepared decision" "terminal certificate differs"
    | none =>
        if (db.lookup decision.txnId).isNone then
          Status.notFound "prepared decision" "transaction is not prepared"
        else
          .ok { db with decisions := decision :: db.decisions }

/-- A prepared batch commits: the checks of an ordinary commit, and that it is the one which was
prepared. -/
def commitDirect (batch : StoreCommitBatch) : StatusOr CommitSeq × PreparedDatabase :=
  match batch.validate with
  | .error status => (.error status, db)
  | .ok () =>
      if !options.fits batch then
        (.error ⟨.resourceExhausted, "commit", "encoded batch exceeds hard byte limit"⟩, db)
      else
        match db.lookup batch.txnId with
        | none => (Status.notFound "async prepare" "prepared transaction is missing", db)
        | some prepared =>
            if prepared ≠ batch then
              (Status.conflict "async prepare" "prepared transaction differs from final batch", db)
            else
              match if batch.freshTransactionId then none else db.state.outcome batch.txnId with
              | some outcome => (db.state.replayCommit batch outcome, db)
              | none =>
                  let checked := validateSnapshotWriteDependencies options.sorter db.state.store
                    batch.snapshotWriteDependencies
                  let state := { db.state with store := checked.2 }
                  match (do
                      checked.1
                      validateStrictReadDependencies checked.2 batch.strictReadDependencies
                      validateEdgeIdentitiesForCommit checked.2.facts batch
                      state.writeCommit options batch) with
                  | .error status => (.error status, { db with state := state })
                  | .ok (commitSeq, written) =>
                      (.ok commitSeq, ({ db with state := written } : PreparedDatabase).erase
                        batch.txnId)

/-- The commit of a transaction which is visible. -/
def resolveTransaction : StatusOr (Option CommitSeq) :=
  if txnId = 0 then
    Status.invalidArgument "transaction" "zero transaction ID"
  else
    match db.state.outcome txnId with
    | none => .ok none
    | some outcome =>
        if outcome.commitSeq > db.state.store.visibleSeq then
          .ok none
        else if outcome.commitSeq < db.state.sequenceRetentionWatermark then
          .error ⟨.snapshotExpired, "transaction",
            "sequence record was pruned below the sequence retention watermark"⟩
        else
          match db.state.sequence outcome.commitSeq with
          | none => Status.corruption "transaction" "outcome is missing sequence record"
          | some record => do
              let view ← decodeSequenceRecordView record outcome.commitSeq
              if view.txnId ≠ txnId ∨ view.commitSeq ≠ outcome.commitSeq then
                Status.corruption "transaction" "outcome and sequence disagree"
              else
                return some outcome.commitSeq

/-- A decision to commit is carried out, or the commit it has come to is looked up. -/
def carryOut : StatusOr CommitResult × PreparedDatabase :=
  match db.lookup txnId with
  | some batch =>
      let result := db.commitDirect options batch
      (.ok (toCommitResult txnId result.1), result.2)
  | none =>
      (do
        match ← db.resolveTransaction txnId with
        | none => Status.notFound "prepared commit" "transaction is not prepared"
        | some commitSeq => .ok (toCommitResult txnId (.ok commitSeq)),
        db)

/-- A prepared transaction is decided to commit. -/
def finalizePreparedCommit (certificate : List UInt8) :
    StatusOr CommitResult × PreparedDatabase :=
  if txnId = 0 ∨ certificate = [] then
    (Status.invalidArgument "prepared commit" "invalid terminal decision", db)
  else
    let desired : PreparedDecision := ⟨txnId, .commit, certificate⟩
    match db.resolvePreparedDecision txnId with
    | some terminal =>
        if terminal ≠ desired then
          (Status.conflict "prepared commit" "terminal certificate differs", db)
        else
          db.carryOut options txnId
    | none =>
        match db.persistPreparedDecision desired with
        | .error status => (.error status, db)
        | .ok decided => decided.carryOut options txnId

/-- The record of an abort replaces the one of the prepared batch. -/
def storeAbort : PreparedDatabase :=
  ({ db with state := db.state.step (.abort txnId) } : PreparedDatabase).erase txnId

/-- A prepared transaction is decided to abort. -/
def abortPreparedCommit (certificate : List UInt8) : Status × PreparedDatabase :=
  if txnId = 0 ∨ certificate = [] then
    (Status.invalidArgument "prepared commit" "invalid terminal decision", db)
  else
    let desired : PreparedDecision := ⟨txnId, .abort, certificate⟩
    match db.resolvePreparedDecision txnId with
    | some terminal =>
        if terminal ≠ desired then
          (Status.conflict "prepared commit" "terminal certificate differs", db)
        else
          (.ok (), db.storeAbort txnId)
    | none =>
        match db.persistPreparedDecision desired with
        | .error status => (.error status, db)
        | .ok decided => (.ok (), decided.storeAbort txnId)

end PreparedDatabase

/-! ### Runs -/

/-- An operation on a database.  A batch of ordinary commits, a vacuum and a reopening leave the
prepared batches and the decisions alone. -/
inductive PreparedStep where
  | durable (step : DurableStep)
  | persist (batch : PreparedCommitBatch)
  | finalize (txnId : TxnId) (certificate : List UInt8)
  | abort (txnId : TxnId) (certificate : List UInt8)

namespace PreparedStep

/-- The operation is a decision about a transaction. -/
def decides (txnId : TxnId) : PreparedStep → Bool
  | .durable _ => false
  | .persist _ => false
  | .finalize decided _ => decided = txnId
  | .abort decided _ => decided = txnId

/-- The operation prunes sequence records. -/
def prunes : PreparedStep → Bool
  | .durable .pruneWatermark => true
  | .durable (.pruneBatch _) => true
  | _ => false

end PreparedStep

namespace PreparedDatabase

/-- A step.  An operation which fails is not heard of, but what it has written stays. -/
def step (options : PreparedOptions) (db : PreparedDatabase) : PreparedStep → PreparedDatabase
  | .durable step => { db with state := db.state.step step }
  | .persist batch =>
      match db.persistPreparedCommit options batch with
      | .error _ => db
      | .ok prepared => prepared
  | .finalize txnId certificate => (db.finalizePreparedCommit options txnId certificate).2
  | .abort txnId certificate => (db.abortPreparedCommit txnId certificate).2

/-- A run. -/
def run (options : PreparedOptions) (db : PreparedDatabase) (steps : List PreparedStep) :
    PreparedDatabase :=
  steps.foldl (step options) db

end PreparedDatabase

end Cedar
