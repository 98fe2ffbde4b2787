import CedarGraph.Storage.DependencyValidation

/-!
# Groups of commits

A group of batches is decided before it is written: each batch is validated against the facts which
are visible, and those which pass get the next commits.  A decided group is written as a whole, if
nothing has become visible since it was decided, and then published to the index of recent writes,
the filter over references and the cache of chains.
-/

namespace Cedar

/-- A fact which may be written. -/
abbrev ValidFactEvent : Type := { event : FactEvent // event.validate = .ok () }

/-- The facts of a batch are encoded, unless one of them is not valid. -/
def encodeFacts : List FactEvent → StatusOr (List ValidFactEvent)
  | [] => .ok []
  | event :: events =>
      match hvalid : event.validate with
      | .error status => .error status
      | .ok () => do
          let encoded ← encodeFacts events
          return ⟨event, hvalid⟩ :: encoded

/-- A batch which passed its validation. -/
structure DecidedBatch where
  batch : StoreCommitBatch
  commitSeq : CommitSeq
  facts : List ValidFactEvent

/-- A group which was decided. -/
structure DecidedEpoch where
  baseVisibleSeq : CommitSeq
  decided : List DecidedBatch

/-- The facts of a decided group. -/
def DecidedEpoch.facts (epoch : DecidedEpoch) : List ValidFactEvent :=
  epoch.decided.flatMap DecidedBatch.facts

/-- What a decision depends on apart from the store: how the dependencies are sorted, and which
batches have few enough bytes. -/
structure GroupOptions where
  sorter : Sorter fun dependency : SnapshotWriteDependency => dependency.ref.storeKey
  fits : StoreCommitBatch → Bool

namespace CommitStore

variable (options : GroupOptions)

/-- The checks on a batch which come before those of its dependencies, with the transactions of the
group so far. -/
def admitBatch (store : CommitStore) (transactionIds : List TxnId) (batch : StoreCommitBatch) :
    Status := do
  batch.validate
  if !options.fits batch then
    .error ⟨.resourceExhausted, "commit", "encoded batch exceeds hard byte limit"⟩
  else if batch.txnId ∈ transactionIds then
    Status.conflict "commit" "duplicate transaction ID in group"
  else if !batch.freshTransactionId && store.outcomes.contains batch.txnId then
    Status.conflict "commit" "transaction ID is already committed"
  else
    .ok ()

/-- The validation of a batch, which may change the cache of chains. -/
def validateBatch (store : CommitStore) (transactionIds : List TxnId) (batch : StoreCommitBatch) :
    Status × CommitStore :=
  match store.admitBatch options transactionIds batch with
  | .error status => (.error status, store)
  | .ok () =>
      let checked := validateSnapshotWriteDependencies options.sorter store
        batch.snapshotWriteDependencies
      match checked.1 with
      | .error status => (.error status, checked.2)
      | .ok () =>
          (do
            validateStrictReadDependencies checked.2 batch.strictReadDependencies
            validateEdgeIdentitiesForCommit checked.2.facts batch,
            checked.2)

/-- The transaction of a batch counts as one of the group. -/
def registers (batch : StoreCommitBatch) : Bool :=
  match batch.validate with
  | .error _ => false
  | .ok () => options.fits batch

/-- The batches of a group are decided one after the other, each against the facts which are
visible.  The ones which pass get the next commits. -/
def decideBatches (options : GroupOptions) :
    CommitStore → List TxnId → (committedCount : Nat) → List StoreCommitBatch →
      StatusOr (CommitStore × List DecidedBatch)
  | store, _, _, [] => .ok (store, [])
  | store, transactionIds, committedCount, batch :: requests =>
      let validated := store.validateBatch options transactionIds batch
      let transactionIds :=
        if registers options batch then batch.txnId :: transactionIds else transactionIds
      match validated.1 with
      | .error _ => decideBatches options validated.2 transactionIds committedCount requests
      | .ok () =>
          if store.visibleSeq.toNat + committedCount ≥ 2 ^ 64 - 1 then
            .error ⟨.resourceExhausted, "commit", "commit sequence exhausted"⟩
          else do
            let commitSeq := UInt64.ofNat (store.visibleSeq.toNat + committedCount + 1)
            let facts ← encodeFacts (batch.commitFacts commitSeq)
            let rest ← decideBatches options validated.2 transactionIds (committedCount + 1) requests
            return (rest.1, ⟨batch, commitSeq, facts⟩ :: rest.2)

/-- A group is decided. -/
def decideAndEncodeGroup (store : CommitStore) (requests : List StoreCommitBatch) : StatusOr
    (CommitStore × DecidedEpoch) := do
  let result ← decideBatches options store [] 0 requests
  return (result.1, ⟨store.visibleSeq, result.2⟩)

/-- A fact is published. -/
def publishFact (store : CommitStore) (event : FactEvent) : CommitStore :=
  { store with
    identityHistory := store.identityHistory.map fun history => history.publish event.ref
    recentFactWriteIndex := store.recentFactWriteIndex.map fun index =>
      index.publish event.ref event.commitSeq
    versionValidationCache := store.versionValidationCache.map fun cache =>
      cache.publish event.ref event.validFrom event.commitSeq }

/-- A decided group is written and published, unless something has become visible since it was
decided. -/
def writeDecidedGroup (store : CommitStore) (epoch : DecidedEpoch) : StatusOr CommitStore :=
  if epoch.decided.isEmpty then
    .ok store
  else if store.visibleSeq ≠ epoch.baseVisibleSeq then
    Status.conflict "commit" "decided epoch base is no longer current"
  else
    let written : CommitStore :=
      { store with
        facts := store.facts.putAll epoch.facts
        outcomes := epoch.decided.map (fun decided => decided.batch.txnId) ++ store.outcomes
        visibleSeq := UInt64.ofNat (epoch.baseVisibleSeq.toNat + epoch.decided.length) }
    .ok (epoch.facts.foldl (fun store event => store.publishFact event.val) written)

end CommitStore

/-! ### Runs -/

/-- How large the index, the filter and the cache of a store are, and whether the filter is built
from the facts when the store is opened. -/
structure ValidationSizes where
  exactCount : Nat
  filterWords : Nat
  windowSequences : UInt64
  cacheSets : Nat
  historyBytes : Nat
  skipHistoryRebuild : Bool

/-- A store which was just opened. -/
def CommitStore.opened (sizes : ValidationSizes) (facts : FactColumn) (visibleSeq : CommitSeq)
    (outcomes : List TxnId) : CommitStore where
  facts := facts
  visibleSeq := visibleSeq
  outcomes := outcomes
  identityHistory :=
    let history := FactIdentityHistory.empty sizes.historyBytes
    some (if sizes.skipHistoryRebuild then history.disable
      else history.publishAll (facts.events.map FactEvent.ref))
  recentFactWriteIndex :=
    some (RecentFactWriteIndex.empty sizes.exactCount sizes.filterWords visibleSeq
      sizes.windowSequences)
  versionValidationCache := some (VersionValidationCache.empty sizes.cacheSets)

/-- A store with the groups which were decided and not yet written, and those which were written. -/
structure CommitState where
  store : CommitStore
  epochs : List DecidedEpoch := []
  written : List DecidedEpoch := []

/-- A step of a run: a group is formed from the front of a queue and decided, or a decided group is
written. -/
inductive CommitStep where
  | decide (limit : Nat) (queue : List StoreCommitBatch)
  | write (epoch : Nat)

namespace CommitState

/-- What was committed. -/
def committed (state : CommitState) : List DecidedBatch :=
  state.written.flatMap DecidedEpoch.decided

/-- A step.  A decision which fails changes nothing, and a group which is not written is lost. -/
def step (options : GroupOptions) (state : CommitState) : CommitStep → CommitState
  | .decide limit queue =>
      match state.store.decideAndEncodeGroup options
          (CommitConflictIndex.select {} limit queue) with
      | .error _ => state
      | .ok result =>
          { state with store := result.1, epochs := state.epochs ++ [result.2] }
  | .write i =>
      match state.epochs[i]? with
      | none => state
      | some epoch =>
          match state.store.writeDecidedGroup epoch with
          | .error _ => { state with epochs := state.epochs.eraseIdx i }
          | .ok store =>
              { store := store
                epochs := state.epochs.eraseIdx i
                written := state.written ++ [epoch] }

/-- A run. -/
def run (options : GroupOptions) (state : CommitState) (steps : List CommitStep) : CommitState :=
  steps.foldl (step options) state

end CommitState

end Cedar
