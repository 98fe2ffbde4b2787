import CedarGraph.Storage.CommitRuns
import CedarGraph.Storage.SequenceRecord
import CedarGraph.Storage.Vacuum

/-!
# Reopening a store

When a store is opened again, the sequence records from the retention watermark on are compared with
the outcomes of the transactions and with the facts.  A commit, a batch of a vacuum and a batch of
pruned records are each written at once, so that a crash leaves what some of these steps have
written.

A store can be opened again exactly if no transaction has been committed again under the number of
one whose record is retained: a batch which says that its number is fresh is not compared with the
outcomes, and replaces the outcome of the other one.
-/

namespace Cedar

/-- The outcome of a transaction which was committed. -/
structure TransactionOutcomeRecord where
  txnId : TxnId
  commitSeq : CommitSeq
  deriving DecidableEq

/-- What a store has written, with what it knows about its facts. -/
structure DurableState where
  store : CommitStore
  /-- The sequence records in the order of their commits. -/
  sequences : List (CommitSeq × SequenceRecordV2) := []
  /-- The writes of outcomes, from late to early ones.  A transaction has one key, so that a later
  one replaces an earlier one: what is stored is `outcome`. -/
  transactionOutcomes : List TransactionOutcomeRecord := []
  /-- The transactions which were aborted. -/
  asyncTerminals : List TxnId := []
  vacuumState : Option VacuumState := none
  oldestReadableSeq : CommitSeq := 0
  sequenceRetentionWatermark : CommitSeq := 0

/-- How thoroughly a store is validated when it is opened. -/
structure RecoveryOptions where
  sequenceValidationOutcomeBatchSize : Nat
  recoveryValidationRecentSequences : UInt64
  deepRecoveryValidation : Bool

/-! ### Validation -/

/-- A key of a fact in a sequence record agrees with its commit, and the fact is there if it is
required. -/
def validateSequenceFacts (facts : FactColumn) (commitSeq : CommitSeq) (requireFacts : Bool) :
    List (List UInt8) → Status
  | [] => .ok ()
  | key :: keys =>
      match decodeFactKey key with
      | .error _ => Status.corruption "fact store" "sequence contains invalid fact key"
      | .ok decoded =>
          if decoded.commitSeq ≠ commitSeq then
            Status.corruption "fact store" "sequence contains invalid fact key"
          else if requireFacts && !facts.events.any (fun event => event.encodedKey = key) then
            Status.corruption "fact store" "sequence record is missing fact"
          else
            validateSequenceFacts facts commitSeq requireFacts keys

def validateSequenceRecordContent (facts : FactColumn) (commitSeq : CommitSeq)
    (sequence : SequenceRecordView) (requireFacts : Bool) : Status :=
  if sequence.commitSeq ≠ commitSeq then
    Status.corruption "fact store" "sequence record has wrong commit sequence"
  else
    match sequence.validate with
    | .error _ => Status.corruption "sequence record" "invalid sequence metadata"
    | .ok () => validateSequenceFacts facts commitSeq requireFacts sequence.factKeys

/-- The outcome of a transaction which is there. -/
def DurableState.outcome (state : DurableState) (txnId : TxnId) :
    Option TransactionOutcomeRecord :=
  state.transactionOutcomes.find? fun outcome => outcome.txnId = txnId

/-- The outcomes of some transactions agree with their records. -/
def validateSequenceOutcomeBatch (state : DurableState) :
    List (TxnId × CommitSeq) → Status
  | [] => .ok ()
  | expected :: rest =>
      match state.outcome expected.1 with
      | none => Status.corruption "fact store" "sequence record is missing outcome"
      | some outcome =>
          if outcome.txnId ≠ expected.1 ∨ outcome.commitSeq ≠ expected.2 then
            Status.corruption "fact store" "outcome and sequence disagree"
          else
            validateSequenceOutcomeBatch state rest

/-- Where the scan of the sequence records stands: the next commit, the outcomes which are still to
be compared, and the records which have not been passed. -/
structure SequenceScan where
  expected : CommitSeq
  outcomes : List (TxnId × CommitSeq)
  rest : List (CommitSeq × SequenceRecordV2)

/-- The scan of the sequence records. -/
def scanSequences (options : RecoveryOptions) (state : DurableState) (requireFactsFrom : CommitSeq) :
    CommitSeq → List (TxnId × CommitSeq) → List (CommitSeq × SequenceRecordV2) →
      StatusOr SequenceScan
  | expected, outcomes, [] => .ok ⟨expected, outcomes, []⟩
  | expected, outcomes, entry :: rest =>
      if ¬ expected ≤ state.store.visibleSeq then
        .ok ⟨expected, outcomes, entry :: rest⟩
      else if entry.1 ≠ expected then
        Status.corruption "fact store" "missing durable sequence record"
      else do
        let sequence ← decodeSequenceRecordView entry.2 expected
        validateSequenceRecordContent state.store.facts expected sequence
          (decide (expected ≥ requireFactsFrom))
        let outcomes := outcomes ++ [(sequence.txnId, expected)]
        if outcomes.length = options.sequenceValidationOutcomeBatchSize then
          validateSequenceOutcomeBatch state outcomes
          scanSequences options state requireFactsFrom (expected + 1) [] rest
        else
          scanSequences options state requireFactsFrom (expected + 1) outcomes rest

/-- The end of the scan. -/
def finishScan (state : DurableState) (scan : SequenceScan) : Status := do
  validateSequenceOutcomeBatch state scan.outcomes
  if scan.expected ≠ state.store.visibleSeq + 1 then
    Status.corruption "fact store" "visible watermark lacks contiguous sequences"
  else if scan.rest ≠ [] then
    Status.corruption "fact store" "sequence exceeds visible watermark"
  else
    .ok ()

/-- The commit from which the facts must be there. -/
def requireFactsFrom (options : RecoveryOptions) (state : DurableState) : CommitSeq :=
  if options.deepRecoveryValidation then
    state.oldestReadableSeq
  else
    let recent := max 1 options.recoveryValidationRecentSequences
    let recentFloor :=
      if state.store.visibleSeq > recent then state.store.visibleSeq - recent + 1 else 1
    max state.oldestReadableSeq recentFloor

/-- The validation of a store which is opened. -/
def validateCommittedSequences (options : RecoveryOptions) (state : DurableState) : Status :=
  if state.store.visibleSeq = 0 then
    .ok ()
  else do
    let firstExpected := max 1 state.sequenceRetentionWatermark
    let scan ← scanSequences options state (requireFactsFrom options state) firstExpected []
      (state.sequences.dropWhile fun entry => entry.1 < firstExpected)
    finishScan state scan

/-! ### Steps -/

/-- The record of a decided batch. -/
def DecidedBatch.sequenceRecord (decided : DecidedBatch) : StatusOr SequenceRecordV2 :=
  encodeSequenceRecordV2 ⟨decided.commitSeq, decided.batch.txnId, decided.batch.systemHlc,
    decided.facts.map fun event => event.val.encodedKey⟩

/-- The records of a decided group. -/
def sequenceRecords : List DecidedBatch → StatusOr (List (CommitSeq × SequenceRecordV2))
  | [] => .ok []
  | decided :: rest => do
      let record ← decided.sequenceRecord
      let records ← sequenceRecords rest
      return (decided.commitSeq, record) :: records

/-- What is written at once. -/
inductive DurableStep where
  /-- A group which is formed from the front of a queue commits. -/
  | commit (options : GroupOptions) (limit : Nat) (queue : List StoreCommitBatch)
  | abort (txnId : TxnId)
  /-- A vacuum writes its target. -/
  | beginVacuum (oldestReadable : CommitSeq)
  /-- A vacuum deletes some facts. -/
  | vacuumBatch (maxKeys : Nat)
  /-- The watermark is written before records are deleted. -/
  | pruneWatermark
  | pruneBatch (keysPerBatch : Nat)
  /-- The store is opened again after a crash. -/
  | reopen (options : RecoveryOptions) (sizes : ValidationSizes)

namespace DurableState

/-- A group commits. -/
def commit (options : GroupOptions) (state : DurableState) (requests : List StoreCommitBatch) :
    DurableState :=
  match state.store.decideAndEncodeGroup options requests with
  | .error _ => state
  | .ok decided =>
      match sequenceRecords decided.2.decided, decided.1.writeDecidedGroup decided.2 with
      | .ok records, .ok store =>
          { state with
            store := store
            sequences := state.sequences ++ records
            transactionOutcomes :=
              (decided.2.decided.map fun d => ⟨d.batch.txnId, d.commitSeq⟩).reverse ++
                state.transactionOutcomes }
      | _, _ => state

def step (state : DurableState) : DurableStep → DurableState
  | .commit options limit queue => state.commit options (CommitConflictIndex.select {} limit queue)
  | .abort txnId => { state with asyncTerminals := txnId :: state.asyncTerminals }
  | .beginVacuum oldestReadable =>
      if oldestReadable ≤ state.oldestReadableSeq ∨ oldestReadable > state.store.visibleSeq then
        state
      else
        { state with
          vacuumState := some ⟨oldestReadable, .prepared, []⟩
          oldestReadableSeq := oldestReadable }
  | .vacuumBatch maxKeys =>
      match state.vacuumState with
      | none => state
      | some vacuum =>
          match VacuumStore.deleteObsoleteFactVersions maxKeys
              ⟨state.store.facts, state.vacuumState, state.oldestReadableSeq, state.store.visibleSeq⟩
                vacuum with
          | .error _ => state
          | .ok result =>
              { state with
                store := { state.store with facts := result.1.facts }
                vacuumState := result.1.vacuumState }
  | .pruneWatermark =>
      if state.oldestReadableSeq ≤ 1 ∨
          state.oldestReadableSeq ≤ state.sequenceRetentionWatermark then
        state
      else
        { state with sequenceRetentionWatermark := state.oldestReadableSeq }
  | .pruneBatch keysPerBatch =>
      if state.oldestReadableSeq ≤ 1 ∨
          state.sequenceRetentionWatermark < state.oldestReadableSeq then
        state
      else
        { state with
          sequences := state.sequences.drop (min keysPerBatch
            (state.sequences.takeWhile fun entry => entry.1 < state.oldestReadableSeq).length) }
  | .reopen options sizes =>
      match validateCommittedSequences options state with
      | .error _ => state
      | .ok () =>
          { state with
            store := .opened sizes state.store.facts state.store.visibleSeq
              (state.transactionOutcomes.map TransactionOutcomeRecord.txnId) }

/-- A run. -/
def run (state : DurableState) (steps : List DurableStep) : DurableState :=
  steps.foldl step state

end DurableState

end Cedar
