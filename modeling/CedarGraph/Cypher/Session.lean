import CedarGraph.Cypher.Statement
import CedarGraph.Kernel.TransactionOverlay

/-!
# System time of statements

A statement can ask for the graph as of a commit.  Outside a transaction a snapshot of that commit is
read, or of the last one if that is older.

Inside a transaction the commit only decides whether staged mutations are read.  The snapshot is the
one of the transaction, whatever commit the statement asks for, so the answer is right only if nothing
was committed between the two.
-/

namespace Cedar

open List

open StatusOr

open Cypher

/-- A row of an execution. -/
structure RuntimeRow where
  ref : FactRef
  effective : Option ValidTimeInterval := none
  point : Option ValidTime := none
  propertyValue : Option Value := none
  deriving DecidableEq

/-! ### Snapshots -/

/-- The committed facts, the last commit and the oldest one which can still be read. -/
structure SnapshotStore where
  facts : FactColumn
  visibleSeq : CommitSeq
  oldestReadableSeq : CommitSeq

/-- A snapshot of a commit, or of the last one. -/
def SnapshotStore.beginSnapshot (store : SnapshotStore) (asOf : Option CommitSeq) :
    StatusOr Snapshot :=
  let requested := asOf.getD store.visibleSeq
  if requested < store.oldestReadableSeq then
    .error ⟨.snapshotExpired, "snapshot", "sequence is below retention boundary"⟩
  else if requested > store.visibleSeq then
    Status.invalidArgument "snapshot" "sequence exceeds visible watermark"
  else
    .ok ⟨store.facts, requested⟩

/-- A transaction which has not ended keeps its snapshot readable. -/
structure OpenTransaction (store : SnapshotStore) where
  snapshotSeq : CommitSeq
  writes : StagedWrites
  readable : store.oldestReadableSeq ≤ snapshotSeq
  published : snapshotSeq ≤ store.visibleSeq

/-- The snapshot of a transaction, with or without what it has staged. -/
def OpenTransaction.beginReadSnapshot {store : SnapshotStore} (transaction : OpenTransaction store)
    (includeStaged : Bool) : StatusOr TransactionOverlayReader := do
  let base ← store.beginSnapshot (some transaction.snapshotSeq)
  .ok ⟨base, transaction.writes, includeStaged⟩

/-- The events which the reader of a snapshot sees. -/
def Snapshot.visibleEvents (snapshot : Snapshot) : List FactEvent :=
  visible snapshot.commitSeq snapshot.facts.events

/-- The events which the reader of a transaction sees. -/
def TransactionOverlayReader.visibleEvents (reader : TransactionOverlayReader) : List FactEvent :=
  reader.base.visibleEvents ++
    if reader.includeStaged then
      reader.writes.mutations.map reader.mutationEvent ++
        reader.writes.edgeIdentities.map reader.identityEvent
    else []

/-! ### Statements -/

/-- What of a statement decides about the snapshot it reads. -/
structure ExecutionScope where
  partScope : PartScope
  systemTimeAsOf : Option CommitSeq
  systemTimeRange : Option (CommitSeq × CommitSeq)
  validTime : Option ValidTimeInterval
  graph : Text

def makeExecutionScope (statement : BoundStatement) : ExecutionScope where
  partScope := statement.partScope
  systemTimeAsOf := statement.systemTime.bind TimeScope.asOf
  systemTimeRange :=
    statement.systemTime.bind fun scope =>
      if scope.asOf.isSome then none else scope.stop.map fun stop => (scope.start, stop)
  validTime :=
    statement.validTime.bind fun scope =>
      if scope.asOf.isSome then none else scope.stop.map fun stop => ⟨scope.start, some stop⟩
  graph := statement.graph

/-- A statement with its query.  The rows of a query are determined by the events which it sees and by
the values of its parameters. -/
structure PreparedCypher where
  boundStatement : BoundStatement
  rows : List FactEvent → Bindings → StatusOr (List RuntimeRow)

structure CypherRequest where
  bindings : Bindings := []
  systemTimeAsOf : Option CommitSeq := none
  systemTimeFrom : Option CommitSeq := none
  systemTimeTo : Option CommitSeq := none
  partId : Option PartId := none
  graph : Option Text := none

/-- A range of commits which a request asks for is the one of the statement. -/
def requestRangeDiffers (statement : BoundStatement) (request : CypherRequest) : Bool :=
  match statement.systemTime, request.systemTimeFrom, request.systemTimeTo with
  | some scope, some start, some stop =>
      scope.asOf.isSome || scope.stop != some stop || scope.start != start
  | _, _, _ => true

/-- A request may not differ from the statement. -/
def validateRequest (statement : BoundStatement) (request : CypherRequest) : Status :=
  if request.graph.any (· ≠ statement.graph) then
    Status.bindError "cypher session" "request graph differs from prepared graph"
  else if request.partId.any (· ≠ statement.partId) then
    Status.bindError "cypher session" "request PartID differs from prepared PartID"
  else if request.systemTimeAsOf.isSome ∧
      request.systemTimeAsOf ≠ statement.systemTime.bind TimeScope.asOf then
    Status.bindError "cypher session" "request system-time differs from prepared scope"
  else if (request.systemTimeFrom.isSome ∨ request.systemTimeTo.isSome) ∧
      requestRangeDiffers statement request then
    Status.bindError "cypher session" "request system-time range differs from prepared scope"
  else
    .ok ()

namespace SnapshotStore

variable (store : SnapshotStore)

/-- The snapshot which a statement reads outside a transaction. -/
def snapshotFor (statement : BoundStatement) : StatusOr Snapshot := do
  let current ← store.beginSnapshot none
  match statement.systemTime with
  | none => .ok current
  | some scope =>
      if current.commitSeq = 0 then
        .ok current
      else
        match scope.asOf, scope.stop with
        | some requested, _ => store.beginSnapshot (some (min current.commitSeq requested))
        | none, none =>
            Status.invalidArgument "cypher session" "system-time scope is incomplete"
        | none, some stop =>
            if scope.start > min current.commitSeq stop then
              Status.invalidArgument "cypher session" "system-time range starts after snapshot"
            else
              store.beginSnapshot (some (min current.commitSeq stop))

/-- A statement outside a transaction. -/
def execute (prepared : PreparedCypher) (request : CypherRequest) :
    StatusOr (List RuntimeRow) := do
  validateRequest prepared.boundStatement request
  let snapshot ← store.snapshotFor prepared.boundStatement
  prepared.rows snapshot.visibleEvents request.bindings

/-- A statement inside a transaction.  A statement about older commits does not see what is staged. -/
def executeIn {store : SnapshotStore} (transaction : OpenTransaction store)
    (prepared : PreparedCypher) (request : CypherRequest) : StatusOr (List RuntimeRow) := do
  validateRequest prepared.boundStatement request
  let scope := makeExecutionScope prepared.boundStatement
  let historical := scope.systemTimeAsOf.isSome || scope.systemTimeRange.isSome
  let reader ← transaction.beginReadSnapshot (!historical)
  prepared.rows reader.visibleEvents request.bindings

end SnapshotStore

/-! ### As of a commit -/

/-- A statement asks for the graph as of a commit. -/
def PreparedCypher.AsOf (prepared : PreparedCypher) (requested : CommitSeq) : Prop :=
  ∃ scope, prepared.boundStatement.systemTime = some scope ∧ scope.asOf = some requested

/-- As of a commit means the same outside a transaction and inside: what that commit sees and the
snapshot sees. -/
structure SystemTimeFaithful (store : SnapshotStore) (transaction : OpenTransaction store)
    (requested : CommitSeq) : Prop where
  outside : ∀ prepared request rows, prepared.AsOf requested →
    store.execute prepared request = .ok rows →
      prepared.rows (visible (min requested store.visibleSeq) store.facts.events) request.bindings =
        .ok rows
  inside : ∀ prepared request rows, prepared.AsOf requested →
    SnapshotStore.executeIn transaction prepared request = .ok rows →
      prepared.rows (visible (min requested transaction.snapshotSeq) store.facts.events)
          request.bindings =
        .ok rows

open SnapshotStore

section AsOf

variable {store : SnapshotStore} {transaction : OpenTransaction store} {requested : CommitSeq}
  {prepared : PreparedCypher} {request : CypherRequest} {rows : List RuntimeRow}
  {snapshot : Snapshot}

/-- A snapshot sees the facts of the store up to the commit which was asked for. -/
theorem SnapshotStore.eq_of_beginSnapshot {asOf : Option CommitSeq}
    (h : store.beginSnapshot asOf = .ok snapshot) :
  snapshot = ⟨store.facts, asOf.getD store.visibleSeq⟩
  := by
  rw [beginSnapshot] at h
  split at h
  · cases h
  split at h
  · cases h
  · exact (Except.ok.inj h).symm

/-- The snapshot of a transaction can be read. -/
theorem OpenTransaction.beginReadSnapshot_eq_ok (includeStaged : Bool) :
  transaction.beginReadSnapshot includeStaged =
    .ok ⟨⟨store.facts, transaction.snapshotSeq⟩, transaction.writes, includeStaged⟩
  := by
  rw [beginReadSnapshot, beginSnapshot]
  rw [Option.getD_some, if_neg (not_lt.mpr transaction.readable), if_neg (not_lt.mpr transaction.published)]
  rfl

/-- Outside a transaction the older one of the two commits is read. -/
theorem SnapshotStore.visibleEvents_snapshotFor (hasOf : prepared.AsOf requested)
    (h : store.snapshotFor prepared.boundStatement = .ok snapshot) :
  snapshot.visibleEvents = visible (min requested store.visibleSeq) store.facts.events
  := by
  obtain ⟨scope, hscope, hrequested⟩ := hasOf
  rw [snapshotFor, bind_eq_ok_iff] at h
  obtain ⟨current, hcurrent, h⟩ := h
  have hlast := eq_of_beginSnapshot hcurrent
  rw [Option.getD_none] at hlast
  rw [hscope] at h
  dsimp only at h
  split at h
  case isTrue hzero =>
    obtain rfl := Except.ok.inj h
    have hvisible : store.visibleSeq = 0 := by
      rw [hlast] at hzero
      exact hzero
    rw [hlast, Snapshot.visibleEvents, hvisible, min_eq_right (UInt64.zero_le)]
  case isFalse =>
    rw [hrequested] at h
    rw [eq_of_beginSnapshot h, Snapshot.visibleEvents, Option.getD_some, hlast, min_comm]

/-- Inside a transaction the snapshot of the transaction is read. -/
theorem SnapshotStore.executeIn_eq (hasOf : prepared.AsOf requested) :
  executeIn transaction prepared request =
    (validateRequest prepared.boundStatement request).bind fun _ =>
      prepared.rows (visible transaction.snapshotSeq store.facts.events) request.bindings
  := by
  obtain ⟨scope, hscope, hrequested⟩ := hasOf
  have hhistorical :
      (makeExecutionScope prepared.boundStatement).systemTimeAsOf.isSome = true := by
    rw [makeExecutionScope, hscope, Option.bind_some, hrequested]
    rfl
  rw [executeIn]
  dsimp only
  rw [hhistorical, Bool.true_or, Bool.not_true, OpenTransaction.beginReadSnapshot_eq_ok]
  dsimp only [bind, Except.bind, TransactionOverlayReader.visibleEvents]
  rw [if_neg Bool.false_ne_true, append_nil, Snapshot.visibleEvents]

/-- What the older one of two commits sees is what it sees of the newer one. -/
theorem visible_min {events : List FactEvent} {snapshotSeq : CommitSeq} :
  visible (min requested snapshotSeq) events =
    (visible snapshotSeq events).filter fun event => event.commitSeq ≤ requested
  := by
  rw [visible, visible, filter_filter]
  apply filter_congr
  intro event _
  rw [← Bool.decide_and]
  exact decide_eq_decide.mpr le_min_iff

/-- A query which lists the references of all events that it sees. -/
def listAll (requested : CommitSeq) : PreparedCypher where
  boundStatement := { systemTime := some { asOf := some requested } }
  rows events _ := .ok (events.map fun event => { ref := event.ref })

/-- As of a commit means the same exactly if no fact which the transaction sees is newer. -/
theorem systemTimeFaithful_iff (store : SnapshotStore) (transaction : OpenTransaction store)
    (requested : CommitSeq) :
  SystemTimeFaithful store transaction requested ↔
    ∀ event ∈ store.facts.events, event.commitSeq ≤ transaction.snapshotSeq →
      event.commitSeq ≤ requested
  := by
  constructor
  · intro h event hmem hseen
    have hasOf : (listAll requested).AsOf requested := ⟨_, rfl, rfl⟩
    have hrows := h.inside (listAll requested) {} _ hasOf (executeIn_eq hasOf)
    have hlength := congrArg length (Except.ok.inj hrows)
    rw [length_map, length_map, visible_min, length_filter_eq_length_iff] at hlength
    simpa using hlength event (mem_visible.mpr ⟨hmem, hseen⟩)
  · intro hnone
    have hsame : visible (min requested transaction.snapshotSeq) store.facts.events =
        visible transaction.snapshotSeq store.facts.events := by
      rw [visible_min, filter_eq_self]
      intro event hmem
      obtain ⟨hmem, hseen⟩ := mem_visible.mp hmem
      exact decide_eq_true (hnone event hmem hseen)
    refine ⟨?_, ?_⟩
    · intro prepared request rows hasOf hrows
      rw [execute, bind_eq_ok_iff] at hrows
      obtain ⟨-, -, hrows⟩ := hrows
      rw [bind_eq_ok_iff] at hrows
      obtain ⟨snapshot, hsnapshot, hrows⟩ := hrows
      rw [visibleEvents_snapshotFor hasOf hsnapshot] at hrows
      exact hrows
    · intro prepared request rows hasOf hrows
      rw [executeIn_eq hasOf] at hrows
      obtain ⟨-, -, hrows⟩ := bind_eq_ok_iff.mp hrows
      rw [hsame]
      exact hrows

end AsOf

/-! ### A newer commit -/

/-- The vertices which are there at the time 0. -/
def vertexRows (events : List FactEvent) : List RuntimeRow :=
  ((events.map FactEvent.ref).dedup.filter fun ref => ref.family = .vertexState ∧
    ∃ event ∈ events, event.ref = ref ∧ event.validFrom = 0 ∧ event.operation = .put ∧
      ∀ other ∈ events, other.ref = ref → other.validFrom = 0 →
        other.commitSeq ≤ event.commitSeq).map fun ref => { ref := ref, point := some 0 }

/-- The statement `FOR SYSTEM_TIME AS OF 1 MATCH (a) RETURN a`. -/
def asOfOne : PreparedCypher where
  boundStatement :=
    { systemTime := some { asOf := some 1 }
      patterns := [⟨[0x61], [], [], [], [0x61], [], 1, 1, false, none, none, none, none⟩]
      projections := [⟨[0x61], []⟩] }
  rows events _ := .ok (vertexRows events)

/-- The vertex 1, which the second commit creates. -/
def secondVertex : FactEvent where
  ref := ⟨0, .vertexState, 0, 1⟩
  validFrom := 0
  commitSeq := 2
  operation := .put
  schemaEpoch := 0

def secondStore : SnapshotStore where
  facts := ⟨[secondVertex], by decide, List.pairwise_singleton _ _⟩
  visibleSeq := 2
  oldestReadableSeq := 1

/-- A transaction which has begun after the second commit. -/
def secondTransaction : OpenTransaction secondStore where
  snapshotSeq := 2
  writes := ⟨[], [], by simp, by simp, by simp, by simp⟩
  readable := by decide
  published := by decide

/-- As of the first commit there is no vertex, but a transaction finds the one of the second. -/
theorem secondTransaction_not_faithful :
  ¬ SystemTimeFaithful secondStore secondTransaction 1
  := by
  intro h
  have hrows := h.inside asOfOne {} [{ ref := ⟨0, .vertexState, 0, 1⟩, point := some 0 }]
    ⟨_, rfl, rfl⟩ (by decide +kernel)
  revert hrows
  decide +kernel

end Cedar
