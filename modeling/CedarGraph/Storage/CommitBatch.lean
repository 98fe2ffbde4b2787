import CedarGraph.Storage.FactColumn

/-!
# Batches of commits

A transaction hands the store a batch of mutations together with what it depends on: a mutation may
depend on the facts which its snapshot saw around it, and a strict read on what it observed.  The
conflict index keeps batches apart which must not be written in one group.
-/

namespace Cedar

/-- The number of a transaction. -/
abbrev TxnId : Type := UInt64

/-- A mutation of a fact before its commit. -/
structure PendingFactMutation where
  ref : FactRef
  validFrom : ValidTime
  operation : FactOperation := .put
  schemaEpoch : UInt32 := 0
  value : Option Value := none
  deriving DecidableEq

def PendingFactMutation.validate (mutation : PendingFactMutation) : Status := do
  validateMutation mutation.ref mutation.operation mutation.schemaEpoch mutation.value
  if mutation.ref.family = .edgeIdentity then
    Status.invalidArgument "fact mutation" "edge identity uses StoreCommitBatch identity payload"
  else
    .ok ()

/-- What a mutation depends on: the snapshot of the transaction, and the boundaries which it saw
around the mutation. -/
structure SnapshotWriteDependency where
  ref : FactRef
  validFrom : ValidTime
  predecessor : Option ValidTime := none
  successor : Option ValidTime := none
  snapshotSeq : CommitSeq
  deriving DecidableEq

def SnapshotWriteDependency.validate (dependency : SnapshotWriteDependency) : Status := do
  dependency.ref.validate
  if dependency.predecessor.any (· ≥ dependency.validFrom) then
    Status.invalidArgument "snapshot write dependency" "predecessor is not before mutation"
  else if dependency.successor.any (· ≤ dependency.validFrom) then
    Status.invalidArgument "snapshot write dependency" "successor is not after mutation"
  else
    .ok ()

/-- What a strict read depends on: what its snapshot saw around the instant of the read. -/
structure StrictReadDependency where
  ref : FactRef
  validTime : ValidTime
  snapshotSeq : CommitSeq
  observedEvent : Option FactEvent := none
  predecessor : Option ValidTime := none
  successor : Option ValidTime := none
  deriving DecidableEq

def StrictReadDependency.validate (dependency : StrictReadDependency) : Status := do
  dependency.ref.validate
  if dependency.predecessor.any (· > dependency.validTime) then
    Status.invalidArgument "strict read dependency" "predecessor is after read time"
  else if dependency.successor.any (· ≤ dependency.validTime) then
    Status.invalidArgument "strict read dependency" "successor is not after read time"
  else
    match dependency.observedEvent with
    | some observed => do
        observed.validate
        if observed.ref ≠ dependency.ref ∨ observed.validFrom > dependency.validTime ∨
            observed.commitSeq > dependency.snapshotSeq ∨
              dependency.predecessor.any (· ≥ dependency.validTime) then
          Status.invalidArgument "strict read dependency"
            "observed event disagrees with read identity"
        else
          .ok ()
    | none =>
        if dependency.predecessor.isSome then
          Status.invalidArgument "strict read dependency" "empty read has a predecessor fence"
        else
          .ok ()

/-- What a transaction hands to the store. -/
structure StoreCommitBatch where
  txnId : TxnId
  systemHlc : UInt64
  mutations : List PendingFactMutation
  edgeIdentities : List EdgeIdentity := []
  snapshotWriteDependencies : List SnapshotWriteDependency := []
  strictReadDependencies : List StrictReadDependency := []
  freshTransactionId : Bool := false
  deriving DecidableEq

namespace StoreCommitBatch

/-- The keys of the mutations, which must be valid and differ. -/
def mutationKeys : List (List UInt8) → List PendingFactMutation → StatusOr (List (List UInt8))
  | facts, [] => .ok facts
  | facts, mutation :: mutations => do
      mutation.validate
      let key := encodeFactKey mutation.ref mutation.validFrom 1
      if key = [] ∨ key ∈ facts then
        Status.invalidArgument "commit batch" "duplicate fact mutation"
      else
        mutationKeys (key :: facts) mutations

/-- The snapshot dependencies are valid, differ, and are those of mutations. -/
def checkDependencies (facts : List (List UInt8)) :
    List (List UInt8) → List SnapshotWriteDependency → Status
  | _, [] => .ok ()
  | seen, dependency :: dependencies => do
      dependency.validate
      let key := encodeFactKey dependency.ref dependency.validFrom 1
      if key ∉ facts ∨ key ∈ seen then
        Status.invalidArgument "commit batch" "invalid snapshot write dependency"
      else
        checkDependencies facts (key :: seen) dependencies

/-- The strict reads are valid and differ. -/
def checkStrictReads : List (FactRef × ValidTime) → List StrictReadDependency → Status
  | _, [] => .ok ()
  | seen, dependency :: dependencies => do
      dependency.validate
      if encodeFactKey dependency.ref 0 1 = [] ∨ (dependency.ref, dependency.validTime) ∈ seen then
        Status.invalidArgument "commit batch" "duplicate strict read dependency"
      else
        checkStrictReads ((dependency.ref, dependency.validTime) :: seen) dependencies

/-- The identities of edges are valid and differ. -/
def edgeIds : List (PartId × EdgeId) → List EdgeIdentity → StatusOr (List (PartId × EdgeId))
  | seen, [] => .ok seen
  | seen, identity :: identities => do
      identity.validate
      let key := (identity.homePartId, identity.edgeId)
      if key ∈ seen then
        Status.invalidArgument "commit batch" "duplicate edge identity"
      else
        edgeIds (key :: seen) identities

/-- The batch asserts the existence of an edge. -/
def assertsEdge (batch : StoreCommitBatch) (edge : PartId × EdgeId) : Bool :=
  batch.mutations.any fun mutation =>
    mutation.ref.family = .edgeState ∧ mutation.operation = .put ∧
      mutation.ref.partId = edge.1 ∧ mutation.ref.entityId = edge.2

/-- The checks on a batch. -/
def validate (batch : StoreCommitBatch) : Status := do
  if batch.txnId = 0 ∨ batch.systemHlc = 0 ∨ batch.mutations = [] then
    Status.invalidArgument "commit batch" "missing transaction, time, or facts"
  else
    let facts ← mutationKeys [] batch.mutations
    checkDependencies facts [] batch.snapshotWriteDependencies
    checkStrictReads [] batch.strictReadDependencies
    let edges ← edgeIds [] batch.edgeIdentities
    if edges.any fun edge => !batch.assertsEdge edge then
      Status.invalidArgument "commit batch" "edge identity lacks state assertion"
    else
      .ok ()

/-- The reference of the fact which states the identity of an edge. -/
def identityRef (identity : EdgeIdentity) : FactRef :=
  ⟨identity.homePartId, .edgeIdentity, 0, identity.edgeId⟩

/-- The facts of a batch: those of its mutations, and the identities of its edges. -/
def commitFacts (batch : StoreCommitBatch) (commitSeq : CommitSeq) : List FactEvent :=
  batch.mutations.map (fun mutation =>
    { ref := mutation.ref, validFrom := mutation.validFrom, commitSeq := commitSeq,
      operation := mutation.operation, schemaEpoch := mutation.schemaEpoch,
      value := mutation.value }) ++
  batch.edgeIdentities.map fun identity =>
    { ref := identityRef identity, validFrom := 0, commitSeq := commitSeq, operation := .put,
      edgeIdentity := some identity }

end StoreCommitBatch

/-! ### The conflict index -/

/-- What a batch touches. -/
structure CommitFootprint where
  txnIds : List TxnId
  writes : List FactRef
  strictReads : List FactRef
  edgeIds : List (PartId × EdgeId)

def buildCommitFootprint (batch : StoreCommitBatch) : CommitFootprint where
  txnIds := [batch.txnId]
  writes := batch.mutations.map PendingFactMutation.ref
  strictReads := batch.strictReadDependencies.map StrictReadDependency.ref
  edgeIds := batch.edgeIdentities.map fun identity => (identity.homePartId, identity.edgeId)

/-- What the batches of a group touch. -/
structure CommitConflictIndex where
  txnIds : List TxnId := []
  writes : List FactRef := []
  strictReads : List FactRef := []
  edgeIds : List (PartId × EdgeId) := []

namespace CommitConflictIndex

/-- The index has one of the values. -/
def containsAny {α : Type} [DecidableEq α] (values index : List α) : Bool :=
  values.any fun value => index.contains value

def canInsert (index : CommitConflictIndex) (candidate : CommitFootprint) : Bool :=
  !containsAny candidate.txnIds index.txnIds && !containsAny candidate.writes index.writes &&
    !containsAny candidate.writes index.strictReads &&
      !containsAny candidate.strictReads index.writes &&
        !containsAny candidate.edgeIds index.edgeIds

def insert (index : CommitConflictIndex) (candidate : CommitFootprint) : CommitConflictIndex where
  txnIds := candidate.txnIds ++ index.txnIds
  writes := candidate.writes ++ index.writes
  strictReads := candidate.strictReads ++ index.strictReads
  edgeIds := candidate.edgeIds ++ index.edgeIds

/-- The requests from the front of the queue which form a group: up to a limit, and up to the first
one which touches what an earlier one touches. -/
def select (index : CommitConflictIndex) :
    (limit : Nat) → List StoreCommitBatch → List StoreCommitBatch
  | 0, _ => []
  | _, [] => []
  | limit + 1, batch :: queue =>
      let footprint := buildCommitFootprint batch
      if index.canInsert footprint then
        batch :: (index.insert footprint).select limit queue
      else
        []

end CommitConflictIndex

end Cedar
