import CedarGraph.Storage.CommitBatch
import CedarGraph.Storage.SequenceRecord

/-!
# The index of a query delta

Committed facts are offered to a query delta as descriptors.  A publisher queues them, a worker
takes them from the queue and indexes them, and a repair reads those which were not accepted from
the store.  A descriptor is indexed if it follows the last indexed commit.  Facts which a projection
has taken over are retired, and the delta starts again at another base.
-/

namespace Cedar

/-- The facts committed after `baseSeq`, through `through`.  If a commit is missing, `firstMissing`
is the first such one, and zero otherwise. -/
structure QueryDeltaView where
  baseSeq : CommitSeq
  through : CommitSeq
  facts : List FactEvent
  firstMissing : CommitSeq := 0
  deriving DecidableEq

/-- The facts of a commit, or the mutations which they come from. -/
structure QueryDeltaCommit where
  commitSeq : CommitSeq
  facts : List FactEvent := []
  mutations : List PendingFactMutation := []
  edgeIdentities : List EdgeIdentity := []
  deriving DecidableEq

namespace QueryDeltaCommit

/-- The facts of a descriptor are valid and have its commit. -/
def checkFacts (commitSeq : CommitSeq) : List FactEvent → Status
  | [] => .ok ()
  | event :: events => do
      event.validate
      if event.commitSeq ≠ commitSeq then
        Status.invalidArgument "query delta" "fact commit differs from descriptor"
      else
        checkFacts commitSeq events

def validate (commit : QueryDeltaCommit) : Status := do
  if commit.commitSeq = 0 then
    Status.invalidArgument "query delta" "zero commit sequence"
  else do
    checkFacts commit.commitSeq commit.facts
    if commit.facts ≠ [] ∧ commit.mutations ≠ [] then
      Status.invalidArgument "query delta" "descriptor contains both facts and mutations"
    else do
      commit.mutations.forM PendingFactMutation.validate
      commit.edgeIdentities.forM EdgeIdentity.validate

/-- The descriptor with the facts which its mutations make. -/
def normalize (commit : QueryDeltaCommit) : QueryDeltaCommit :=
  { commit with
    facts := commit.facts ++ commit.mutations.map fun mutation =>
      { ref := mutation.ref, validFrom := mutation.validFrom, commitSeq := commit.commitSeq,
        operation := mutation.operation, schemaEpoch := mutation.schemaEpoch,
        value := mutation.value }
    mutations := [] }

end QueryDeltaCommit

structure QueryDeltaOptions where
  baseSeq : CommitSeq := 0
  queueCapacity : Nat := 262144
  softMemoryBytes : Nat := 256 * 2 ^ 20
  hardMemoryBytes : Nat := 512 * 2 ^ 20
  maxLagCommits : Nat := 262144
  softLagCommits : Nat := 0

structure QueryDeltaRepairLimits where
  maxCommits : Nat := 4096
  maxBytes : Nat := 32 * 2 ^ 20

/-- The part of a delta which a lease keeps. -/
structure DeltaChunk where
  first : CommitSeq
  last : CommitSeq
  commit : QueryDeltaCommit
  memoryBytes : Nat

/-- What the worker is at: it has taken a descriptor from the queue, or it has indexed it. -/
inductive DeltaWorker where
  | idle
  | popped (commit : QueryDeltaCommit)
  | indexed
  deriving DecidableEq

/-- A delta with the counters, the indexed descriptors, the queue and the epoch of its leases. -/
structure QueryDelta where
  options : QueryDeltaOptions
  indexedThrough : CommitSeq
  visibleSeq : CommitSeq
  /-- The first commit which is known to be missing, or zero. -/
  firstMissing : CommitSeq := 0
  enqueuedThrough : CommitSeq
  commits : List QueryDeltaCommit := []
  leaseCommits : List QueryDeltaCommit := []
  chunks : List DeltaChunk := []
  memoryBytes : Nat := 0
  queueSize : Nat := 0
  publishedQueue : List QueryDeltaCommit := []
  worker : DeltaWorker := .idle
  hardLimitReached : Bool := false
  softLagReached : Bool := false
  softMemoryReached : Bool := false
  /-- The events of leases by snapshot. -/
  leaseIndexCache : List (CommitSeq × List FactEvent) := []
  activeLeases : Nat := 0
  retired : List DeltaChunk := []
  retiredBytes : Nat := 0

/-- A lease of the facts committed after `baseSeq`, through `through`. -/
structure QueryDelta.Lease where
  baseSeq : CommitSeq
  through : CommitSeq
  firstMissing : CommitSeq
  commits : List QueryDeltaCommit
  chunks : List DeltaChunk
  events : List FactEvent

/-- The sequence records which a repair reads in a snapshot of the store, by their keys, and the
facts which their keys have. -/
structure RepairSource where
  /-- The last commit which the snapshot sees. -/
  commitSeq : CommitSeq
  sequenceRetention : CommitSeq
  records : List (CommitSeq × SequenceRecord)
  readExactFacts : List (List UInt8) → StatusOr (List FactEvent)

namespace RepairSource

/-- The records from an expected sequence on, through the last one. -/
def readRecords (last : CommitSeq) :
    CommitSeq → List (CommitSeq × SequenceRecord) → StatusOr (List SequenceRecord)
  | _, [] => .ok []
  | expected, (key, record) :: rest =>
      if key ≠ expected then
        Status.corruption "scan sequence range" "sequence key disagrees with requested range"
      else if record.commitSeq ≠ expected then
        Status.corruption "scan sequence range" "non-contiguous sequence metadata"
      else if expected = last then
        .ok [record]
      else do
        let records ← readRecords last (expected + 1) rest
        return record :: records

/-- The records of a range of sequences. -/
def readSequenceRange (source : RepairSource) (first last : CommitSeq) :
    StatusOr (List SequenceRecord) :=
  if first = 0 ∨ last < first ∨ last > source.commitSeq then
    Status.invalidArgument "scan sequence range" "invalid snapshot range"
  else if first < source.sequenceRetention then
    .error ⟨.snapshotExpired, "scan sequence range",
      "sequence record range starts below the sequence retention watermark"⟩
  else do
    let records ← readRecords last first (source.records.dropWhile fun entry => entry.1 < first)
    if records.length ≠ last.toNat - first.toNat + 1 then
      Status.corruption "scan sequence range" "missing sequence metadata"
    else
      return records

end RepairSource

namespace QueryDelta

/-- A new delta has at least one place in its queue, and no hard bound below the soft one. -/
def new (options : QueryDeltaOptions) : QueryDelta where
  options :=
    { options with
      queueCapacity := if options.queueCapacity = 0 then 1 else options.queueCapacity
      hardMemoryBytes := max options.hardMemoryBytes options.softMemoryBytes }
  indexedThrough := options.baseSeq
  visibleSeq := options.baseSeq
  enqueuedThrough := options.baseSeq

/-- A commit is missing, unless an earlier one is. -/
def setMissing (delta : QueryDelta) (missing : CommitSeq) : QueryDelta :=
  if missing ≠ 0 ∧ (delta.firstMissing = 0 ∨ missing < delta.firstMissing) then
    { delta with firstMissing := missing }
  else
    delta

def advanceVisible (delta : QueryDelta) (sequence : CommitSeq) : QueryDelta :=
  { delta with visibleSeq := max delta.visibleSeq sequence }

section Index

variable (estimatedBytes : QueryDeltaCommit → Nat)

variable (delta : QueryDelta)

/-- The soft bounds which a descriptor reaches. -/
def noteSoftBounds (bytes : Nat) : QueryDelta :=
  { delta with
    softLagReached := delta.softLagReached ||
      (delta.options.softLagCommits ≠ 0 && delta.commits.length + 1 ≥ delta.options.softLagCommits)
    softMemoryReached := delta.softMemoryReached ||
      (delta.options.softMemoryBytes ≠ 0 && (bytes ≥ delta.options.softMemoryBytes ||
        delta.memoryBytes ≥ delta.options.softMemoryBytes - bytes)) }

/-- Indexes a descriptor, unless a hard bound is reached. -/
def indexLocked (commit : QueryDeltaCommit) : QueryDelta × Status :=
  match commit.validate with
  | .error error => (delta, .error error)
  | .ok () =>
      let bytes := estimatedBytes commit
      let delta := delta.noteSoftBounds bytes
      if bytes + delta.memoryBytes + delta.retiredBytes > delta.options.hardMemoryBytes ∨
          delta.commits.length ≥ delta.options.maxLagCommits then
        ({ delta with hardLimitReached := true }.setMissing commit.commitSeq,
          Status.resourceExhausted "query delta" "hard memory or lag bound reached")
      else
        let indexed := commit.normalize
        let delta : QueryDelta := { delta with
          commits := delta.commits ++ [indexed]
          leaseCommits := delta.leaseCommits ++ [indexed]
          chunks := delta.chunks ++ [⟨commit.commitSeq, commit.commitSeq, indexed, bytes⟩]
          memoryBytes := delta.memoryBytes + bytes
          indexedThrough := commit.commitSeq
          visibleSeq := max delta.visibleSeq commit.commitSeq }
        (if delta.firstMissing ≠ 0 ∧ delta.indexedThrough ≥ delta.firstMissing then
          { delta with firstMissing := 0 }
        else
          delta, .ok ())

/-- Indexes a published descriptor at once. -/
def observePublished (commit : QueryDeltaCommit) : QueryDelta × Status :=
  match commit.validate with
  | .error error => (delta, .error error)
  | .ok () =>
      if commit.commitSeq ≤ delta.options.baseSeq then
        (delta, Status.invalidArgument "query delta" "commit is not after projection base")
      else
        let delta := delta.advanceVisible commit.commitSeq
        if commit.commitSeq ≠ delta.indexedThrough + 1 then
          (delta.setMissing (delta.indexedThrough + 1),
            Status.conflict "query delta" "published commit is not contiguous")
        else if delta.queueSize ≥ delta.options.queueCapacity then
          (delta.setMissing commit.commitSeq,
            Status.resourceExhausted "query delta" "descriptor queue is full")
        else
          match delta.indexLocked estimatedBytes commit with
          | (delta, .ok ()) => ({ delta with queueSize := delta.queueSize + 1 }, .ok ())
          | (delta, .error error) => (delta, .error error)

/-- Queues a published descriptor, unless a fault is injected. -/
def enqueuePublished (commit : QueryDeltaCommit) (injected : Status) : QueryDelta × Status :=
  match commit.validate with
  | .error error => (delta, .error error)
  | .ok () =>
      if commit.commitSeq ≤ delta.options.baseSeq then
        (delta, Status.invalidArgument "query delta" "commit is not after projection base")
      else if commit.commitSeq ≠ delta.enqueuedThrough + 1 then
        ((delta.setMissing (delta.enqueuedThrough + 1)).advanceVisible commit.commitSeq,
          Status.conflict "query delta" "published commit is not contiguous")
      else if delta.publishedQueue.length ≥ delta.options.queueCapacity then
        ((delta.setMissing commit.commitSeq).advanceVisible commit.commitSeq,
          Status.resourceExhausted "query delta" "descriptor queue is full")
      else
        match injected with
        | .error error => (delta, .error error)
        | .ok () =>
            ({ delta with
              publishedQueue := delta.publishedQueue ++ [commit]
              enqueuedThrough := commit.commitSeq }.advanceVisible commit.commitSeq, .ok ())

/-- The idle worker takes a descriptor from the queue. -/
def workerPop : QueryDelta :=
  match delta.worker, delta.publishedQueue with
  | .idle, commit :: rest => { delta with publishedQueue := rest, worker := .popped commit }
  | _, _ => delta

/-- The worker indexes the descriptor which it has taken, if it follows the last indexed one. -/
def workerIndex : QueryDelta :=
  match delta.worker with
  | .popped commit =>
      let delta := { delta with worker := .indexed }
      if commit.commitSeq ≠ delta.indexedThrough + 1 then
        delta.setMissing (delta.indexedThrough + 1)
      else
        (delta.indexLocked estimatedBytes commit).1
  | _ => delta

/-- The worker is done with its descriptor. -/
def workerDone : QueryDelta :=
  match delta.worker with
  | .indexed => { delta with worker := .idle }
  | _ => delta

/-- The descriptors of sequence records, within a limit of bytes. -/
def repairDescriptors (source : RepairSource) (maxBytes : Nat) :
    Nat → List SequenceRecord → StatusOr (List QueryDeltaCommit)
  | _, [] => .ok []
  | bytes, sequence :: rest => do
      let events ← source.readExactFacts sequence.factKeys
      let descriptor : QueryDeltaCommit :=
        { commitSeq := sequence.commitSeq, facts := events,
          edgeIdentities := events.filterMap FactEvent.edgeIdentity }
      let bytes := bytes + estimatedBytes descriptor
      if bytes > maxBytes then
        Status.resourceExhausted "query delta repair" "byte repair budget exceeded"
      else do
        let descriptors ← repairDescriptors source maxBytes bytes rest
        return descriptor :: descriptors

/-- Indexes descriptors one after another, to the first one which fails. -/
def indexAll : QueryDelta → List QueryDeltaCommit → QueryDelta × Status
  | delta, [] => (delta, .ok ())
  | delta, descriptor :: rest =>
      match delta.indexLocked estimatedBytes descriptor with
      | (delta, .ok ()) => indexAll delta rest
      | (delta, .error error) => (delta, .error error)

/-- Indexes the commits through a target, which are read from the store. -/
def repairThrough (source : RepairSource) (target : CommitSeq) (limits : QueryDeltaRepairLimits) :
    QueryDelta × Status :=
  if target ≤ delta.indexedThrough then
    (delta, .ok ())
  else if target > source.commitSeq then
    (delta, Status.invalidArgument "query delta repair" "target exceeds snapshot")
  else if target.toNat - delta.indexedThrough.toNat > limits.maxCommits then
    (delta, Status.resourceExhausted "query delta repair" "commit repair budget exceeded")
  else
    match source.readSequenceRange (delta.indexedThrough + 1) target with
    | .error error => (delta, .error error)
    | .ok sequences =>
        match repairDescriptors estimatedBytes source limits.maxBytes 0 sequences with
        | .error error => (delta, .error error)
        | .ok repaired =>
            match delta.indexAll estimatedBytes repaired with
            | (delta, .error error) => (delta, .error error)
            | (delta, .ok ()) =>
                let delta := { delta with
                  queueSize := 0
                  publishedQueue := []
                  enqueuedThrough := delta.indexedThrough }
                (if delta.firstMissing ≠ 0 ∧ delta.firstMissing ≤ delta.indexedThrough then
                  { delta with firstMissing := 0 }
                else
                  delta, .ok ())

/-- Frees the places of the queue which indexed descriptors take. -/
def consumeThrough (through : CommitSeq) : QueryDelta × Status :=
  if through > delta.indexedThrough then
    (delta, Status.invalidArgument "query delta" "consume exceeds indexed coverage")
  else
    ({ delta with queueSize := 0 }, .ok ())

/-- The retired chunks are freed, if there is no lease. -/
def freeRetired : QueryDelta :=
  if delta.activeLeases = 0 then { delta with retired := [], retiredBytes := 0 } else delta

/-- Drops what a projection has taken over, which is the new base. -/
def retireThrough (through : CommitSeq) : QueryDelta × Status :=
  if through < delta.options.baseSeq ∨ through > delta.indexedThrough then
    (delta, Status.invalidArgument "query delta" "retirement is outside indexed coverage")
  else
    let commits := delta.commits.filter fun commit => commit.commitSeq > through
    let retiring := delta.chunks.takeWhile fun chunk => chunk.last ≤ through
    let delta : QueryDelta := { delta with
      commits := commits
      leaseCommits := delta.leaseCommits.dropWhile fun commit => commit.commitSeq ≤ through
      chunks := delta.chunks.dropWhile fun chunk => chunk.last ≤ through
      retired := delta.retired ++ retiring
      retiredBytes := delta.retiredBytes + (retiring.map DeltaChunk.memoryBytes).sum }
    let delta : QueryDelta := { delta.freeRetired with
      leaseIndexCache := []
      memoryBytes := (commits.map estimatedBytes).sum
      options := { delta.options with baseSeq := through }
      queueSize := 0
      enqueuedThrough :=
        if delta.publishedQueue = [] then delta.indexedThrough else delta.enqueuedThrough }
    (if delta.firstMissing ≠ 0 ∧ delta.firstMissing ≤ through then
      { delta with firstMissing := 0 }
    else
      delta, .ok ())

/-- Starts again at a base. -/
def resetBase (base : CommitSeq) : QueryDelta :=
  { delta with
    options := { delta.options with baseSeq := base }
    indexedThrough := base
    visibleSeq := base
    firstMissing := 0
    memoryBytes := 0
    queueSize := 0
    hardLimitReached := false
    softLagReached := false
    softMemoryReached := false
    commits := []
    leaseIndexCache := []
    leaseCommits := []
    chunks := []
    retired := []
    retiredBytes := 0
    publishedQueue := []
    enqueuedThrough := base }

end Index

/-! ### Views and leases -/

/-- The delta is contiguous from its base through a snapshot. -/
def checkCovered (delta : QueryDelta) (snapshot : CommitSeq) : Status :=
  if snapshot < delta.options.baseSeq then
    Status.invalidArgument "query delta" "snapshot precedes projection base"
  else if snapshot > delta.indexedThrough ∨
      (delta.firstMissing ≠ 0 ∧ delta.firstMissing ≤ snapshot) ∨ delta.hardLimitReached then
    Status.resourceExhausted "query delta" "delta is not contiguous through snapshot"
  else
    .ok ()

/-- The descriptors after the base, through a snapshot. -/
def covered (delta : QueryDelta) (snapshot : CommitSeq) (commits : List QueryDeltaCommit) :
    List QueryDeltaCommit :=
  commits.filter fun commit =>
    commit.commitSeq > delta.options.baseSeq ∧ commit.commitSeq ≤ snapshot

/-- The facts after the base, through a snapshot. -/
def acquireThrough (sorter : Sorter FactEvent.eventKey) (delta : QueryDelta)
    (snapshot : CommitSeq) : StatusOr QueryDeltaView := do
  delta.checkCovered snapshot
  return ⟨delta.options.baseSeq, snapshot,
    sorter.sort ((delta.covered snapshot delta.commits).flatMap QueryDeltaCommit.facts),
    delta.firstMissing⟩

/-- The cached events of a snapshot, if a lease still keeps them alive. -/
def cachedEvents (delta : QueryDelta) (snapshot : CommitSeq) (alive : Bool) :
    Option (List FactEvent) :=
  if alive then delta.leaseIndexCache.lookup snapshot else none

/-- A lease of the facts after the base, through a snapshot.  Its events are taken from the cache,
or they are sorted and put there; a full cache drops some entry. -/
def acquireLeaseThrough (sorter : Sorter FactEvent.eventKey) (delta : QueryDelta)
    (snapshot : CommitSeq) (alive : Bool) (evicted : Nat) :
    QueryDelta × StatusOr QueryDelta.Lease :=
  match delta.checkCovered snapshot with
  | .error error => (delta, .error error)
  | .ok () =>
      let visible := delta.covered snapshot delta.leaseCommits
      let visibleChunks := delta.chunks.filter fun chunk =>
        chunk.first > delta.options.baseSeq ∧ chunk.last ≤ snapshot
      let delta := { delta with activeLeases := delta.activeLeases + 1 }
      match delta.cachedEvents snapshot alive with
      | some events =>
          (delta, .ok ⟨delta.options.baseSeq, snapshot, delta.firstMissing, visible, visibleChunks,
            events⟩)
      | none =>
          let events := sorter.sort (visible.flatMap QueryDeltaCommit.facts)
          let cache := (snapshot, events) ::
            delta.leaseIndexCache.filter fun entry => entry.1 ≠ snapshot
          ({ delta with
            leaseIndexCache := if cache.length > 8 then cache.eraseIdx evicted else cache },
            .ok ⟨delta.options.baseSeq, snapshot, delta.firstMissing, visible, visibleChunks,
              events⟩)

/-- The end of a lease: the last one frees the retired chunks. -/
def releaseLease (delta : QueryDelta) : QueryDelta :=
  { delta with activeLeases := delta.activeLeases - 1 }.freeRetired

end QueryDelta

end Cedar
