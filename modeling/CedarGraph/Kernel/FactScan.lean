import CedarGraph.Kernel.CanonicalReader
import CedarGraph.Lib.Lists

/-!
# Row reads and columnar reads

A snapshot reads the facts of a specification in batches, either as events or as columns.  A row
read filters the facts which a scan of the store visits; a columnar read leaves the filter to the
scan of every partition.  Both count what they have delivered and stop at the limit on rows.
-/

namespace Cedar

open FactEvent FactReadSpec List Option StatusOr UInt64 Grouping Sorter

/-! ### Columns -/

/-- The cells of the columns. -/
inductive FactCell where
  | uint32 (value : UInt32)
  | uint64 (value : UInt64)
  | int32 (value : Int32)
  | int64 (value : Int64)
  | float32 (bits : UInt32)
  | float64 (bits : UInt64)
  | uint8 (value : UInt8)
  | bytes (value : List UInt8)
  deriving DecidableEq

/-- The number of a physical type. -/
def PhysicalType.number : PhysicalType → UInt32
  | .bool => 1
  | .int32 => 2
  | .int64 => 3
  | .float32 => 4
  | .float64 => 5
  | .timestamp64 => 6
  | .string => 7
  | .binary => 8

/-- The number of an operation. -/
def FactOperation.number : FactOperation → UInt32
  | .put => 1
  | .delete => 2

/-- The cell of an event in a column, unless it is absent.  The sequence number under which the
engine stores the event is not part of the event. -/
def FactEvent.cell (storageSequence : FactEvent → UInt64) (event : FactEvent) :
    FactColumnId → Option FactCell
  | .partId => some (.uint32 event.ref.partId)
  | .factFamily => some (.uint32 (.ofNat event.ref.family.number))
  | .propertyId => some (.uint32 event.ref.propertyId.toUInt32)
  | .entityId => some (.uint64 event.ref.entityId)
  | .validFrom => some (.uint64 event.validFrom)
  | .cedarCommitSeq => some (.uint64 event.commitSeq)
  | .storageSequence => some (.uint64 (storageSequence event))
  | .operation => some (.uint32 event.operation.number)
  | .schemaEpoch => some (.uint32 event.schemaEpoch)
  | .physicalType => some (.uint32 (event.value.elim 0 fun value => value.type.number))
  | .boolValue =>
      match event.value with
      | some (.bool value) => some (.uint8 value.toUInt8)
      | _ => none
  | .int32Value =>
      match event.value with
      | some (.int32 value) => some (.int32 value)
      | _ => none
  | .int64Value =>
      match event.value with
      | some (.int64 value) => some (.int64 value)
      | _ => none
  | .float32Value =>
      match event.value with
      | some (.float32 bits) => some (.float32 bits)
      | _ => none
  | .float64Value =>
      match event.value with
      | some (.float64 bits) => some (.float64 bits)
      | _ => none
  | .timestamp64Value =>
      match event.value with
      | some (.timestamp value) => some (.uint64 value)
      | _ => none
  | .bytesValue =>
      match event.value with
      | some (.string bytes) => some (.bytes bytes)
      | some (.binary bytes) => some (.bytes bytes)
      | _ => none
  | .sourcePartId => event.edgeIdentity.map fun identity => .uint32 identity.sourcePartId
  | .sourceVertexId => event.edgeIdentity.map fun identity => .uint64 identity.sourceVertexId
  | .targetPartId => event.edgeIdentity.map fun identity => .uint32 identity.targetPartId
  | .targetVertexId => event.edgeIdentity.map fun identity => .uint64 identity.targetVertexId
  | .edgeType => event.edgeIdentity.map fun identity => .uint64 identity.edgeType

/-- A row of a columnar batch. -/
structure ColumnarRow where
  /-- The fact which the row has been read from.  The batches of the engine carry its key, those
  which are delivered do not. -/
  source : FactEvent
  /-- The cells, one for every projected column. -/
  cells : List (Option FactCell)
  deriving DecidableEq

/-- The row which describes an event. -/
def columnarRow (storageSequence : FactEvent → UInt64) (projection : List FactColumnId)
    (event : FactEvent) : ColumnarRow :=
  ⟨event, projection.map (event.cell storageSequence)⟩

/-! ### Batches -/

/-- What a read has delivered, and what it keeps for the next batch. -/
structure Batches (α : Type) where
  delivered : List (List α) := []
  batch : List α := []
  emitted : Nat := 0
  limitReached : Bool := false

open Batches

namespace Batches

variable {α : Type}

/-- A scan visits the elements until the visitor stops it. -/
def visit (visitor : Batches α → α → Batches α) : Batches α → List α → Batches α
  | state, [] => state
  | state, a :: l =>
      if state.limitReached then state else visit visitor (visitor state a) l

/-- A row read appends an event, and delivers the batch when it is full or reaches the limit. -/
def append (spec : FactReadSpec) (state : Batches α) (a : α) : Batches α :=
  let batchLimit := match spec.maxRows with
    | some maxRows => min spec.batchRowLimit.toNat maxRows.toNat
    | none => spec.batchRowLimit.toNat
  if spec.maxRows.any fun maxRows => maxRows.toNat ≤ state.emitted then
    { state with limitReached := true }
  else
    let batch := state.batch ++ [a]
    let reachesLimit := spec.maxRows.any fun maxRows =>
      maxRows.toNat - state.emitted ≤ batch.length
    if !reachesLimit && batch.length < batchLimit then
      { state with batch := batch }
    else
      { delivered := state.delivered ++ [batch]
        batch := []
        emitted := state.emitted + batch.length
        limitReached := reachesLimit }

/-- A columnar read delivers what the limit leaves of a batch. -/
def boundedVisitor (spec : FactReadSpec) (state : Batches α) : Batches α :=
  match spec.maxRows with
  | none => { state with delivered := state.delivered ++ [state.batch], batch := [] }
  | some maxRows =>
      if maxRows.toNat ≤ state.emitted then
        { state with limitReached := true }
      else
        let take := min (maxRows.toNat - state.emitted) state.batch.length
        if take = 0 then
          { state with limitReached := true }
        else
          { delivered := state.delivered ++ [state.batch.take take]
            batch := []
            emitted := state.emitted + take
            limitReached := maxRows.toNat ≤ state.emitted + take || take < state.batch.length }

/-- The batch is delivered, unless it is empty. -/
def flush (spec : FactReadSpec) (state : Batches α) : Batches α :=
  if state.batch = [] then state else boundedVisitor spec state

/-- A columnar read appends a row, and delivers the batch when it is full. -/
def appendRow (spec : FactReadSpec) (state : Batches α) (a : α) : Batches α :=
  let state := { state with batch := state.batch ++ [a] }
  if state.batch.length = spec.batchRowLimit.toNat then flush spec state else state

/-! ### What a read delivers -/

/-- The first elements, up to the limit of a specification. -/
def limited (spec : FactReadSpec) (l : List α) : List α :=
  match spec.maxRows with
  | some maxRows => l.take maxRows.toNat
  | none => l

@[simp]
theorem limited_nil (spec : FactReadSpec) :
  limited spec ([] : List α) = []
  := by
  rw [limited]
  split <;> simp

theorem limited_eq_nil_iff {spec : FactReadSpec} {l : List α} :
  limited spec l = [] ↔ spec.maxRows = some 0 ∨ l = []
  := by
  rw [limited]
  split
  case h_1 maxRows hmax =>
    rw [take_eq_nil_iff, hmax, some.injEq, ← UInt64.toNat_inj]
    rfl
  case h_2 hmax => simp [hmax]

/-- A read has delivered or kept all which it has seen, or has stopped at the limit. -/
inductive Delivers (spec : FactReadSpec) (state : Batches α) (seen : List α) : Prop where
  | running
      (hrunning : state.limitReached = false)
      (hseen : state.delivered.flatten ++ state.batch = seen)
      (hemitted : ∀ maxRows ∈ spec.maxRows,
        state.emitted = state.delivered.flatten.length ∧ state.emitted ≤ maxRows.toNat)
  | reached
      (hreached : state.limitReached = true)
      (maxRows : UInt64) (hmax : spec.maxRows = some maxRows)
      (hle : maxRows.toNat ≤ seen.length)
      (htake : state.delivered.flatten = seen.take maxRows.toNat)

open Delivers

section Delivers

variable {spec : FactReadSpec} {state : Batches α} {seen : List α}

/-- A read which has stopped ignores what follows. -/
theorem Delivers.append_of_reached
    (h : Delivers spec state seen) (hreached : state.limitReached = true) (l : List α) :
  Delivers spec state (seen ++ l)
  := by
  cases h with
  | running hrunning => simp [hreached] at hrunning
  | reached _ maxRows hmax hle htake =>
    apply reached hreached maxRows hmax
    · rw [length_append]
      omega
    · rw [take_append_of_le_length hle, htake]

/-- What holds while a read runs holds of one which has stopped. -/
theorem and_append_of_reached {Q : Prop} {l : List α} (hreached : state.limitReached = true)
    (h : Delivers spec state seen ∧ (state.limitReached = false → Q)) :
  Delivers spec state (seen ++ l) ∧ (state.limitReached = false → Q)
  := ⟨h.1.append_of_reached hreached l, by simp [hreached]⟩

/-- A scan keeps what its visitor keeps, until the visitor stops it. -/
theorem visit_induction
    {visitor : Batches α → α → Batches α} {P : Batches α → List α → Prop}
    (hstep : ∀ state seen a, state.limitReached = false → P state seen →
      P (visitor state a) (seen ++ [a]))
    (hreached : ∀ state seen l, state.limitReached = true → P state seen → P state (seen ++ l))
    (h : P state seen) (l : List α) :
  P (visit visitor state l) (seen ++ l)
  := by
  induction l generalizing state seen with
  | nil =>
    rw [append_nil]
    apply h
  | cons a l ih =>
    rw [visit]
    split
    case isTrue hstop =>
      apply hreached _ _ _ hstop h
    case isFalse hrun =>
      rw [append_cons]
      apply ih
      apply hstep _ _ _ (by simpa using hrun) h

/-- The batch of a row read leaves room for at least one row. -/
def HasRoom (spec : FactReadSpec) (state : Batches α) : Prop :=
  state.limitReached = false →
    ∀ maxRows ∈ spec.maxRows, state.emitted + state.batch.length < maxRows.toNat

/-- A row read which appends an event delivers or keeps it. -/
theorem Delivers.append
    (h : Delivers spec state seen) (hroom : HasRoom spec state)
    (hrunning : state.limitReached = false) (a : α) :
  Delivers spec (state.append spec a) (seen ++ [a]) ∧ HasRoom spec (state.append spec a)
  := by
  cases h with
  | reached hreached => simp [hrunning] at hreached
  | running _ hseen hemitted =>
    have hseen' : state.delivered.flatten ++ (state.batch ++ [a]) = seen ++ [a] := by
      rw [← append_assoc, hseen]
    have hnot : (spec.maxRows.any fun maxRows => maxRows.toNat ≤ state.emitted) = false := by
      rw [Option.any_eq_false]
      intro maxRows hmax
      have hlt := hroom hrunning maxRows hmax
      apply decide_eq_false
      omega
    rw [Batches.append, hnot, if_neg Bool.false_ne_true]
    cases hreach : spec.maxRows.any fun maxRows =>
      maxRows.toNat - state.emitted ≤ (state.batch ++ [a]).length with
    | true =>
      obtain ⟨maxRows, hmax, hle⟩ := Option.any_eq_true .. |>.mp hreach
      have hlt := hroom hrunning maxRows hmax
      have hall : (seen ++ [a]).length = maxRows.toNat := by
        rw [← hseen', length_append, ← (hemitted maxRows hmax).1]
        simp only [decide_eq_true_eq, length_append, length_singleton] at hle ⊢
        omega
      simp only [hreach, Bool.not_true, Bool.false_and, Bool.false_eq_true, if_false]
      constructor
      · apply reached rfl maxRows hmax (le_of_eq hall.symm)
        rw [← hall, take_length, ← hseen']
        simp
      · rintro ⟨⟩
    | false =>
      have hfree : ∀ maxRows ∈ spec.maxRows,
          state.emitted + (state.batch ++ [a]).length < maxRows.toNat := by
        intro maxRows hmax
        have hlt := of_decide_eq_false (Option.any_eq_false .. |>.mp hreach maxRows hmax)
        omega
      simp only [hreach]
      split_ifs
      · constructor
        · exact running hrunning hseen' hemitted
        · intro _
          apply hfree
      · constructor
        · apply running rfl (by simpa using hseen')
          intro maxRows hmax
          refine ⟨?_, le_of_lt (hfree maxRows hmax)⟩
          simp [(hemitted maxRows hmax).1]
        · intro _
          apply hfree

/-- The visitor of a columnar read delivers the batch up to the limit. -/
theorem Delivers.boundedVisitor
    (h : Delivers spec state seen) (hrunning : state.limitReached = false)
    (hbatch : state.batch ≠ []) :
  Delivers spec (state.boundedVisitor spec) seen ∧
    ((state.boundedVisitor spec).limitReached = false → (state.boundedVisitor spec).batch = [])
  := by
  cases h with
  | reached hreached => simp [hrunning] at hreached
  | running _ hseen hemitted =>
    unfold Batches.boundedVisitor
    cases hmax : spec.maxRows with
    | none =>
      constructor
      · apply running (by exact hrunning)
        · simp [← hseen]
        · simp [hmax]
      · intro _
        rfl
    | some maxRows =>
      obtain ⟨hcount, hle⟩ := hemitted maxRows hmax
      have hlength : seen.length = state.emitted + state.batch.length := by
        rw [← hseen, length_append, hcount]
      have hpos : 0 < state.batch.length := length_pos_iff.mpr hbatch
      have htake : seen.take maxRows.toNat = state.delivered.flatten ++
          state.batch.take (min (maxRows.toNat - state.emitted) state.batch.length) := by
        rw [← hseen, take_append, take_of_length_le (hcount ▸ hle), ← hcount, ← take_eq_take_min]
      dsimp only
      split
      case isTrue hfull =>
        constructor
        · apply reached rfl maxRows hmax (by omega)
          simp [htake, Nat.sub_eq_zero_of_le hfull]
        · simp
      case isFalse hnot =>
        rw [if_neg (by omega)]
        by_cases hreach : maxRows.toNat ≤ state.emitted + state.batch.length
        · constructor
          · apply reached _ maxRows hmax (by omega)
            · simp [htake]
            · simp only [Bool.or_eq_true, decide_eq_true_eq]
              omega
          · simp
        · have hall : min (maxRows.toNat - state.emitted) state.batch.length =
              state.batch.length := by
            omega
          rw [hall, take_length]
          constructor
          · apply running (by simp [hreach])
            · simp [← hseen]
            · intro maxRows' hmem
              obtain rfl : maxRows = maxRows' := by simpa [hmax] using hmem
              simp only [flatten_append, flatten_singleton, length_append]
              omega
          · simp

/-- Delivering the batch of a columnar read leaves nothing behind. -/
theorem Delivers.flush (h : Delivers spec state seen) (hrunning : state.limitReached = false) :
  Delivers spec (state.flush spec) seen ∧
    ((state.flush spec).limitReached = false → (state.flush spec).batch = [])
  := by
  unfold Batches.flush
  split
  case isTrue hbatch =>
    use h
    intro _
    apply hbatch
  case isFalse hbatch =>
    apply h.boundedVisitor hrunning hbatch

/-- A columnar read which appends a row delivers or keeps it. -/
theorem Delivers.appendRow
    (h : Delivers spec state seen) (hrunning : state.limitReached = false) (a : α) :
  Delivers spec (state.appendRow spec a) (seen ++ [a])
  := by
  cases h with
  | reached hreached => simp [hrunning] at hreached
  | running _ hseen hemitted =>
    have hkept : Delivers spec { state with batch := state.batch ++ [a] } (seen ++ [a]) := by
      apply running (by exact hrunning) (by simp [← hseen]) (by exact hemitted)
    unfold Batches.appendRow
    dsimp only
    split
    · apply (hkept.flush (by exact hrunning)).1
    · apply hkept

/-- A read which has nothing left has delivered the elements up to the limit. -/
theorem Delivers.flatten_eq
    (h : Delivers spec state seen) (hbatch : state.limitReached = false → state.batch = []) :
  state.delivered.flatten = limited spec seen
  := by
  cases h with
  | running hrunning hseen hemitted =>
    rw [hbatch hrunning, append_nil] at hseen
    unfold limited
    split
    case h_1 maxRows hmax =>
      obtain ⟨hcount, hle⟩ := hemitted maxRows hmax
      rw [hseen, take_of_length_le]
      rw [← hseen, ← hcount]
      apply hle
    case h_2 => apply hseen
  | reached _ maxRows hmax _ htake =>
    rw [limited, hmax, htake]

/-- A scan whose visitor ignores some elements visits the others. -/
theorem visit_filter
    (p : α → Bool) (visitor : Batches α → α → Batches α) (state : Batches α) (l : List α) :
  visit (fun state a => if p a then visitor state a else state) state l =
    visit visitor state (l.filter p)
  := by
  induction l generalizing state with
  | nil => rfl
  | cons a l ih =>
    rw [visit, filter_cons]
    by_cases hp : p a
    · rw [if_pos hp, if_pos hp, visit, ih]
    · rw [ih]
      split
      case isTrue hreached =>
        cases l.filter p with
        | nil => rfl
        | cons b l' => rw [visit, if_pos hreached]
      case isFalse => rfl

end Delivers

/-- A read visits the partitions one after another until it stops. -/
def visitParts (visitPart : Batches α → PartId → StatusOr (Batches α)) :
    Batches α → List PartId → StatusOr (Batches α)
  | state, [] => .ok state
  | state, part :: parts => do
      let state ← visitPart state part
      if state.limitReached then return state else visitParts visitPart state parts

/-- A read keeps over all partitions what it keeps over each of them. -/
theorem visitParts_eq_ok
    {visitPart : Batches α → PartId → StatusOr (Batches α)} {P : Batches α → List α → Prop}
    {elements : PartId → List α}
    {parts : List PartId}
    (hpart : ∀ part ∈ parts, ∀ state seen, state.limitReached = false → P state seen →
      ∃ state', visitPart state part = .ok state' ∧ P state' (seen ++ elements part))
    (hreached : ∀ state seen l, state.limitReached = true → P state seen → P state (seen ++ l))
    {state : Batches α} {seen : List α} (hrunning : state.limitReached = false)
    (h : P state seen) :
  ∃ state', visitParts visitPart state parts = .ok state' ∧
    P state' (seen ++ parts.flatMap elements)
  := by
  induction parts generalizing state seen with
  | nil =>
    simpa [visitParts] using h
  | cons part parts ih =>
    obtain ⟨hpart, hparts⟩ := forall_mem_cons.mp hpart
    obtain ⟨state', heq, hstep⟩ := hpart state seen hrunning h
    rw [visitParts, heq, ok_bind, flatMap_cons, ← append_assoc]
    split
    case isTrue hstop =>
      use state', rfl
      apply hreached _ _ _ hstop hstep
    case isFalse hrun =>
      apply ih hparts (by simpa using hrun) hstep

end Batches

/-! ### Scans of the store -/

/-- The bounds on entities which a scan applies, both inclusive. -/
structure FactScanBounds where
  entityIdMin : Option UInt64 := none
  entityIdMax : Option UInt64 := none

/-- The entity lies within the bounds. -/
def FactScanBounds.contains (bounds : FactScanBounds) (entityId : UInt64) : Bool :=
  bounds.entityIdMin.all (· ≤ entityId) && bounds.entityIdMax.all (entityId ≤ ·)

/-- The bounds of a read.  An exclusive end of zero is dropped. -/
def toFactScanBounds (spec : FactReadSpec) : FactScanBounds :=
  ⟨spec.entityRange.min, (spec.entityRange.maxExclusive.filter (· ≠ 0)).map (· - 1)⟩

/-- The facts of a partition, a family and a property. -/
structure FactPrefix where
  partId : PartId
  family : FactFamily
  propertyId : PropertyId

open FactPrefix

/-- Some reference has the prefix. -/
def FactPrefix.validate (pre : FactPrefix) : Status :=
  match FactRef.validate ⟨pre.partId, pre.family, pre.propertyId, 1⟩ with
  | .ok () => .ok ()
  | .error _ => Status.invalidArgument "fact prefix" "invalid family or property ID"

/-- The reference has the prefix. -/
def FactPrefix.matches (pre : FactPrefix) (ref : FactRef) : Bool :=
  pre.partId = ref.partId && pre.family = ref.family && pre.propertyId = ref.propertyId

namespace CanonicalFactReader

variable (reader : CanonicalFactReader)

/-- The facts of a family which the snapshot sees. -/
def scanFamily (family : FactFamily) : List FactEvent :=
  reader.scan.filter fun event => event.ref.family = family

/-- The facts of a prefix within the bounds which the snapshot sees. -/
def scanPrefix (pre : FactPrefix) (bounds : FactScanBounds) : StatusOr (List FactEvent) := do
  pre.validate
  if FactReadSpec.reversed bounds.entityIdMin bounds.entityIdMax then
    Status.invalidArgument "fact scan" "invalid entity range"
  else
    .ok (reader.scan.filter fun event =>
      pre.matches event.ref && bounds.contains event.ref.entityId)

variable (spec : FactReadSpec)

/-- The scan of a prefix takes the event into the columns. -/
def selected (pre : FactPrefix) (bounds : FactScanBounds) (event : FactEvent) : Bool :=
  pre.matches event.ref && bounds.contains event.ref.entityId &&
    spec.validFromMin.all (· ≤ event.validFrom) && spec.validFromMax.all (event.validFrom ≤ ·) &&
    spec.commitSeqMin.all (· ≤ event.commitSeq) && spec.commitSeqMax.all (event.commitSeq ≤ ·)

/-- The columns of the facts of a prefix within the bounds. -/
def scanColumnar (storageSequence : FactEvent → UInt64) (spec : FactReadSpec) (pre : FactPrefix)
    (bounds : FactScanBounds) (state : Batches ColumnarRow) : StatusOr (Batches ColumnarRow) := do
  pre.validate
  if spec.batchRowLimit = 0 then
    Status.invalidArgument "columnar scan" "zero batch row limit"
  else if spec.projection = [] then
    Status.invalidArgument "columnar scan" "missing projection"
  else if FactReadSpec.reversed bounds.entityIdMin bounds.entityIdMax ||
      FactReadSpec.reversed spec.validFromMin spec.validFromMax ||
      FactReadSpec.reversed spec.commitSeqMin spec.commitSeqMax then
    Status.invalidArgument "columnar scan" "invalid inclusive range"
  else if bounds.entityIdMax = some 0 then
    .ok state
  else if ¬ spec.projection.Nodup then
    Status.invalidArgument "columnar scan" "duplicate projection column"
  else
    let rows := (reader.scan.filter (selected spec pre bounds)).map
      (columnarRow storageSequence spec.projection)
    let state := Batches.visit (Batches.appendRow spec) { state with batch := [] } rows
    return if state.limitReached then state else state.flush spec

/-- The partitions which have facts of a family and a property, in increasing order. -/
def partitions (family : FactFamily) (propertyId : PropertyId) : List PartId :=
  Grouping.keys (fun event => event.ref.partId)
    (reader.scan.filter fun event => event.ref.family = family && event.ref.propertyId = propertyId)

/-! ### Reads -/

/-- A row read takes the events of its specification. -/
def visitEvent (state : Batches FactEvent) (event : FactEvent) : Batches FactEvent :=
  if spec.matchesReadSpec event then state.append spec event else state

/-- The scan of a partition of a row read. -/
def scanPartEvents (state : Batches FactEvent) (part : PartId) : StatusOr (Batches FactEvent) := do
  let events ← reader.scanPrefix ⟨part, spec.family, spec.propertyId⟩ (toFactScanBounds spec)
  return Batches.visit (visitEvent spec) state events

/-- The batches of a row read. -/
def readEventBatches : StatusOr (List (List FactEvent)) := do
  spec.validate
  if spec.maxRows = some 0 then
    return []
  else
    let state ←
      if spec.partScope.kind = .all then
        pure (Batches.visit (visitEvent spec) {} (reader.scanFamily spec.family))
      else
        Batches.visitParts (reader.scanPartEvents spec) {} spec.partScope.parts
    return if state.batch ≠ [] ∧ ¬ state.limitReached then
      state.delivered ++ [state.batch] else state.delivered

/-- The scan of a partition of a columnar read. -/
def scanPartColumns (storageSequence : FactEvent → UInt64) (spec : FactReadSpec)
    (bounds : FactScanBounds) (state : Batches ColumnarRow) (part : PartId) :
    StatusOr (Batches ColumnarRow) :=
  reader.scanColumnar storageSequence spec ⟨part, spec.family, spec.propertyId⟩ bounds state

/-- The batches of a columnar read. -/
def readColumnarBatches (storageSequence : FactEvent → UInt64) (spec : FactReadSpec) :
    StatusOr (List (List ColumnarRow)) := do
  spec.validate
  if spec.projection = [] then
    Status.invalidArgument "canonical reader" "missing projection"
  else
    let state ←
      if spec.partScope.kind = .all then
        -- the scans of all partitions are not given the bounds on entities
        Batches.visitParts (reader.scanPartColumns storageSequence spec {}) {}
          (reader.partitions spec.family spec.propertyId)
      else
        Batches.visitParts (reader.scanPartColumns storageSequence spec (toFactScanBounds spec)) {}
          spec.partScope.parts
    return state.delivered

/-- The rows which a read delivers.  A read which fails has failed before its first batch. -/
def rowsOf {α : Type} : StatusOr (List (List α)) → List α
  | .ok batches => batches.flatten
  | .error _ => []

/-! ### The facts of a read -/

section Facts

variable {reader} {spec : FactReadSpec}

variable {event : FactEvent} {state : Batches FactEvent} {seen : List FactEvent}

/-- A fact which the snapshot sees has a valid prefix. -/
theorem validate_of_mem_scan (hevent : event ∈ reader.scan) :
  FactPrefix.validate ⟨event.ref.partId, event.ref.family, event.ref.propertyId⟩ = .ok () ∧
    event.ref.entityId ≠ 0
  := by
  have hmem := (mem_visible.mp ((insertion storeKey).mem_sort.mp hevent)).1
  have hmutation := validateMutation_of_validate (reader.facts.valid event hmem)
  obtain ⟨_, href, -⟩ := bind_eq_ok_iff.mp hmutation
  obtain ⟨hentity, href⟩ := check_eq_ok_iff.mp href
  have hone : FactRef.validate
      ⟨event.ref.partId, event.ref.family, event.ref.propertyId, 1⟩ = .ok () := by
    apply href
  rw [FactPrefix.validate, hone]
  use rfl, hentity

/-- The facts which the snapshot sees are sorted by partition. -/
theorem pairwise_partId (p : FactEvent → Bool) :
  (reader.scan.filter p).Pairwise fun e f => e.ref.partId ≤ f.ref.partId
  := by
  apply Pairwise.filter
  apply ((insertion storeKey).sorted _).imp
  intro e f hle
  obtain hlt | ⟨heq, -⟩ := Prod.Lex.toLex_le_toLex.mp (ref_storeKey_le hle)
  · apply le_of_lt hlt
  · apply le_of_eq heq

/-- The facts of a read are those of its partitions, one after another. -/
theorem flatMap_matching {parts : List PartId} (hparts : parts.Pairwise (· < ·))
    (hmem : ∀ event ∈ reader.matching spec, event.ref.partId ∈ parts) :
  (parts.flatMap fun part =>
    (reader.matching spec).filter fun event => event.ref.partId = part) = reader.matching spec
  := by
  apply flatMap_filter_eq Function.injective_id hparts hmem
  apply pairwise_partId

theorem matchesReadSpec_iff :
  spec.matchesReadSpec event = true ↔
    spec.partScope.contains event.ref.partId = true ∧ event.ref.family = spec.family ∧
      event.ref.propertyId = spec.propertyId ∧
      spec.entityRange.min.all (· ≤ event.ref.entityId) = true ∧
      spec.entityRange.maxExclusive.all (event.ref.entityId < ·) = true ∧
      spec.validFromMin.all (· ≤ event.validFrom) = true ∧
      spec.validFromMax.all (event.validFrom ≤ ·) = true ∧
      spec.commitSeqMin.all (· ≤ event.commitSeq) = true ∧
      spec.commitSeqMax.all (event.commitSeq ≤ ·) = true
  := by
  simp only [matchesReadSpec, Bool.and_eq_true, decide_eq_true_eq, and_assoc]

/-- The bounds of a scan are those of the range, but for an end of zero. -/
theorem contains_toFactScanBounds (entityId : UInt64) :
  (toFactScanBounds spec).contains entityId =
    (spec.entityRange.min.all (· ≤ entityId) &&
      (spec.entityRange.maxExclusive.filter (· ≠ 0)).all (entityId < ·))
  := by
  rw [FactScanBounds.contains, toFactScanBounds]
  congr 1
  cases hmax : spec.entityRange.maxExclusive.filter (· ≠ 0) with
  | none => rfl
  | some max =>
    obtain ⟨-, hne⟩ := filter_eq_some_iff.mp hmax
    have hpos : 1 ≤ max := by
      grind
    simp only [map_some, all_some]
    rw [decide_eq_decide, le_iff_toNat_le, lt_iff_toNat_lt,
      UInt64.toNat_sub_of_le _ _ hpos]
    have hpos' := le_iff_toNat_le.mp hpos
    simp only [toNat_one] at hpos' ⊢
    omega

/-- A valid range gives bounds which are not reversed. -/
theorem reversed_toFactScanBounds (hvalid : spec.entityRange.validate = .ok ()) :
  reversed (toFactScanBounds spec).entityIdMin (toFactScanBounds spec).entityIdMax =
    false
  := by
  unfold reversed
  split
  case h_1 min max hmin hmax =>
    obtain ⟨maxExclusive, hfilter, rfl⟩ := map_eq_some_iff.mp hmax
    obtain ⟨hmax', -⟩ := filter_eq_some_iff.mp hfilter
    have hmin' : spec.entityRange.min = some min := hmin
    unfold EntityRange.validate at hvalid
    rw [hmin', hmax'] at hvalid
    obtain ⟨hlt, -⟩ := check_eq_ok_iff.mp hvalid
    grind
  case h_2 => rfl

/-- The scan of a prefix of a row read visits the facts of the read in the partition. -/
theorem filter_scanPrefix (part : PartId) :
  (reader.scan.filter fun event =>
      FactPrefix.matches ⟨part, spec.family, spec.propertyId⟩ event.ref &&
        (toFactScanBounds spec).contains event.ref.entityId).filter spec.matchesReadSpec =
    (reader.matching spec).filter fun event => event.ref.partId = part
  := by
  rw [matching, List.filter_filter, List.filter_filter]
  apply List.filter_congr
  intro event _
  rw [Bool.eq_iff_iff]
  simp only [Bool.and_eq_true, FactPrefix.matches, decide_eq_true_eq, contains_toFactScanBounds]
  constructor
  · rintro ⟨hmatches, ⟨⟨hpart, -⟩, -⟩, -⟩
    use hpart.symm, hmatches
  · rintro ⟨hpart, hmatches⟩
    obtain ⟨-, hfamily, hproperty, hmin, hmax, -⟩ := matchesReadSpec_iff.mp hmatches
    use hmatches, ⟨⟨hpart.symm, hfamily.symm⟩, hproperty.symm⟩, hmin
    cases hend : spec.entityRange.maxExclusive with
    | none => rfl
    | some maxExclusive =>
      rw [hend] at hmax
      rw [Option.filter_some]
      split
      · apply hmax
      · rfl

/-- The bounds on entities which a columnar read gives to its scans. -/
def columnarBounds (spec : FactReadSpec) : FactScanBounds :=
  if spec.partScope.kind = .all then {} else toFactScanBounds spec

/-- A columnar read differs in the range of entities, which its bounds have. -/
theorem exists_columnarSpec (spec : FactReadSpec) :
  ∃ range, columnarSpec spec = { spec with entityRange := range } ∧
    ∀ entityId, (columnarBounds spec).contains entityId = true ↔
      range.min.all (· ≤ entityId) = true ∧ range.maxExclusive.all (entityId < ·) = true
  := by
  rw [columnarBounds, columnarSpec]
  split
  · exact ⟨_, rfl, by simp [FactScanBounds.contains]⟩
  · refine ⟨_, rfl, fun entityId => ?_⟩
    rw [contains_toFactScanBounds, Bool.and_eq_true]

/-- A read of an invalid prefix is about no fact. -/
theorem matching_eq_nil {part : PartId}
    (hchecked : validate ⟨part, spec.family, spec.propertyId⟩ ≠ .ok ()) :
  reader.matching spec = []
  := by
  apply filter_eq_nil_iff.mpr
  intro event hevent hmatches
  obtain ⟨-, hfamily, hproperty, -⟩ := matchesReadSpec_iff.mp hmatches
  apply hchecked
  rw [← hfamily, ← hproperty]
  apply (validate_of_mem_scan hevent).1

/-- A valid scope other than the wildcard has the partitions of the facts of a read. -/
theorem partId_mem_parts (hkind : spec.partScope.kind ≠ .all)
    (hevent : event ∈ reader.matching spec) :
  event.ref.partId ∈ spec.partScope.parts
  := by
  obtain ⟨hscope, -⟩ := matchesReadSpec_iff.mp (mem_filter.mp hevent).2
  simpa [PartScope.contains, hkind] using hscope

/-- A row read keeps this over its scans. -/
def ReadsRows (spec : FactReadSpec) (state : Batches FactEvent) (seen : List FactEvent) : Prop :=
  Batches.Delivers spec state seen ∧ Batches.HasRoom spec state

theorem ReadsRows.visit (h : ReadsRows spec state seen) (l : List FactEvent) :
  ReadsRows spec (visit (append spec) state l) (seen ++ l)
  := by
  apply visit_induction _ _ h
  · rintro state seen event hrunning ⟨hdelivers, hroom⟩
    apply hdelivers.append hroom hrunning
  · intro state seen l
    apply and_append_of_reached

/-- The batches of a row read which has kept this are the first facts which it has seen. -/
theorem ReadsRows.flatten_eq (h : ReadsRows spec state seen) :
  List.flatten (if state.batch ≠ [] ∧ ¬ state.limitReached then
      state.delivered ++ [state.batch] else state.delivered) = limited spec seen
  := by
  obtain ⟨hdelivers, hroom⟩ := h
  split
  case isTrue hlast =>
    cases hdelivers with
    | reached hreached => simp [hreached] at hlast
    | running hrunning hseen hemitted =>
      have hall : (state.delivered ++ [state.batch]).flatten = seen := by
        simp [← hseen]
      rw [hall, limited]
      split
      case h_1 maxRows hmax =>
        have hlt := hroom hrunning maxRows hmax
        rw [(hemitted maxRows hmax).1, ← length_append, hseen] at hlt
        rw [take_of_length_le (le_of_lt hlt)]
      case h_2 => rfl
  case isFalse hlast =>
    apply hdelivers.flatten_eq
    intro hrunning
    by_contra hbatch
    apply hlast
    use hbatch
    simp [hrunning]

end Facts

variable {reader}

variable {spec : FactReadSpec}

/-- A row read delivers the facts of its specification, up to the limit. -/
theorem rowsOf_readEventBatches (hvalid : spec.validate = .ok ()) :
  rowsOf (reader.readEventBatches spec) = limited spec (reader.matching spec)
  := by
  obtain ⟨hscope, hrange, -⟩ := of_validate hvalid
  rw [readEventBatches, hvalid]
  by_cases hzero : spec.maxRows = some 0
  · simp [hzero, rowsOf, limited]
  · rw [if_neg hzero]
    have hstart : ReadsRows spec {} [] := by
      constructor
      · apply Delivers.running rfl rfl
        simp
      · intro _ maxRows hmax
        apply Nat.pos_of_ne_zero
        intro hmax'
        apply hzero
        have hmax0 : maxRows = 0 := UInt64.toNat_inj.mp hmax'
        rw [mem_def.mp hmax, hmax0]
    by_cases hkind : spec.partScope.kind = .all
    · have hevents : (reader.scanFamily spec.family).filter spec.matchesReadSpec =
          reader.matching spec := by
        rw [scanFamily, List.filter_filter]
        apply filter_congr
        intro event _
        rw [Bool.eq_iff_iff, Bool.and_eq_true, decide_eq_true_eq]
        constructor
        · rintro ⟨hmatches, -⟩
          apply hmatches
        · intro hmatches
          use hmatches, (matchesReadSpec_iff.mp hmatches).2.1
      unfold visitEvent
      rw [if_pos hkind, visit_filter, hevents]
      apply (hstart.visit _).flatten_eq
    · obtain ⟨hparts, hsorted⟩ := PartScope.pairwise_parts hscope hkind
      rw [if_neg hkind]
      by_cases hchecked : validate ⟨0, spec.family, spec.propertyId⟩ = .ok ()
      · obtain ⟨state, hstate, hreads⟩ := @visitParts_eq_ok _ (reader.scanPartEvents spec)
          (ReadsRows spec) _ _
          (by
            intro part _ state seen _ h
            have hvalid : validate ⟨part, spec.family, spec.propertyId⟩ = .ok () := hchecked
            rw [scanPartEvents, scanPrefix, hvalid,
              if_neg (by simp [reversed_toFactScanBounds hrange])]
            refine ⟨_, rfl, ?_⟩
            unfold visitEvent
            rw [visit_filter, filter_scanPrefix part]
            apply h.visit)
          (fun _ _ _ => and_append_of_reached) _ _ rfl hstart
        rw [flatMap_matching hsorted fun event => partId_mem_parts hkind] at hreads
        rw [hstate]
        apply hreads.flatten_eq
      · obtain ⟨part, parts, heq⟩ := exists_cons_of_ne_nil hparts
        rw [matching_eq_nil hchecked, heq, visitParts, scanPartEvents, scanPrefix]
        cases hpart : validate ⟨part, spec.family, spec.propertyId⟩ with
        | ok => exact absurd hpart hchecked
        | error e => simp [rowsOf, bind, Except.bind, limited_nil]

/-- A columnar read keeps this over the scans of its partitions. -/
def ReadsColumns (spec : FactReadSpec) (state : Batches ColumnarRow) (seen : List ColumnarRow) :
    Prop :=
  Batches.Delivers spec state seen ∧ (state.limitReached = false → state.batch = [])

variable {state : Batches ColumnarRow} {seen : List ColumnarRow}

/-- The columnar scan of a valid prefix takes the facts which it selects. -/
theorem scanPartColumns_eq_ok (reader : CanonicalFactReader)
    (storageSequence : FactEvent → UInt64) {bounds : FactScanBounds} (hvalid : spec.validate = .ok ())
    (hprojection : spec.projection ≠ [])
    (hbounds : reversed bounds.entityIdMin bounds.entityIdMax = false) (part : PartId)
    (hchecked : validate ⟨part, spec.family, spec.propertyId⟩ = .ok ())
    (hrunning : state.limitReached = false) (h : ReadsColumns spec state seen) :
  ∃ state', reader.scanPartColumns storageSequence spec bounds state part = .ok state' ∧
    ReadsColumns spec state' (seen ++
      (reader.scan.filter (selected spec ⟨part, spec.family, spec.propertyId⟩ bounds)).map
        (columnarRow storageSequence spec.projection))
  := by
  obtain ⟨-, -, hbatch, htime, hcommit, hnodup⟩ := of_validate hvalid
  obtain ⟨hdelivers, hempty⟩ := h
  rw [scanPartColumns, scanColumnar, hchecked, if_neg hbatch, if_neg hprojection,
    if_neg (by simp [hbounds, htime, hcommit])]
  by_cases hzero : bounds.entityIdMax = some 0
  · -- entities have other numbers than zero
    have hnone : reader.scan.filter
        (selected spec ⟨part, spec.family, spec.propertyId⟩ bounds) = [] := by
      apply filter_eq_nil_iff.mpr
      intro event hevent hselected
      apply (validate_of_mem_scan hevent).2
      simp only [selected, FactScanBounds.contains, hzero] at hselected
      grind
    rw [if_pos hzero, hnone]
    simpa using ⟨hdelivers, hempty⟩
  · rw [if_neg hzero, if_neg (not_not.mpr hnodup)]
    have hstate : { state with batch := [] } = state := by
      rw [← hempty hrunning]
    rw [hstate]
    refine ⟨_, rfl, ?_⟩
    have hvisit := visit_induction
      (P := Delivers spec)
      (fun _ _ row hrun hd => hd.appendRow hrun row)
      (fun _ _ l hreached hd => hd.append_of_reached hreached l) hdelivers
      ((reader.scan.filter (selected spec ⟨part, spec.family, spec.propertyId⟩ bounds)).map
        (columnarRow storageSequence spec.projection))
    split
    case isTrue hreached =>
      use hvisit
      intro hrun
      simp [hreached] at hrun
    case isFalse hrun =>
      apply hvisit.flush (by simpa using hrun)

/-- The columnar scans of some partitions take the facts which the read is about. -/
theorem visitParts_scanPartColumns (reader : CanonicalFactReader)
    (storageSequence : FactEvent → UInt64) (hvalid : spec.validate = .ok ())
    (hprojection : spec.projection ≠ []) {parts : List PartId}
    (hchecked : ∀ part ∈ parts, validate ⟨part, spec.family, spec.propertyId⟩ = .ok ())
    (hsorted : parts.Pairwise (· < ·))
    (hscope : ∀ part ∈ parts, spec.partScope.contains part = true)
    (hmem : ∀ event ∈ reader.matching (columnarSpec spec), event.ref.partId ∈ parts) :
  ∃ state, visitParts
      (reader.scanPartColumns storageSequence spec (columnarBounds spec)) {} parts = .ok state ∧
    state.delivered.flatten =
      (limited spec (reader.matching (columnarSpec spec))).map
        (columnarRow storageSequence spec.projection)
  := by
  obtain ⟨-, hrange, -⟩ := of_validate hvalid
  have hbounds : reversed (columnarBounds spec).entityIdMin
      (columnarBounds spec).entityIdMax = false := by
    rw [columnarBounds]
    split
    · rfl
    · apply reversed_toFactScanBounds hrange
  have hstart : ReadsColumns spec {} [] := by
    constructor
    · apply Delivers.running rfl rfl
      simp
    · intro _
      rfl
  obtain ⟨state, hstate, hdelivers, hempty⟩ := visitParts_eq_ok
    (P := ReadsColumns spec)
    (fun part hpart _ _ => reader.scanPartColumns_eq_ok storageSequence hvalid hprojection hbounds
      part (hchecked part hpart))
    (fun _ _ _ => and_append_of_reached) rfl hstart
  use state, hstate
  have hrows : (parts.flatMap fun part =>
      (reader.scan.filter (selected spec ⟨part, spec.family, spec.propertyId⟩
        (columnarBounds spec))).map (columnarRow storageSequence spec.projection)) =
      (reader.matching (columnarSpec spec)).map (columnarRow storageSequence spec.projection) := by
    rw [← map_flatMap, ← flatMap_matching hsorted hmem]
    apply congrArg
    apply flatMap_congr
    intro part hpart
    obtain ⟨range, hspec, hbounds⟩ := exists_columnarSpec spec
    rw [matching, hspec, List.filter_filter]
    apply List.filter_congr
    intro event _
    rw [Bool.eq_iff_iff, Bool.and_eq_true, matchesReadSpec_iff]
    simp only [selected, FactPrefix.matches, Bool.and_eq_true, decide_eq_true_eq, hbounds]
    constructor
    · rintro ⟨⟨⟨⟨⟨⟨⟨rfl, hf⟩, hp⟩, hmin, hmax⟩, h1⟩, h2⟩, h3⟩, h4⟩
      use rfl, (hscope _ hpart), hf.symm, hp.symm, hmin, hmax, h1, h2, h3, h4
    · rintro ⟨rfl, -, hf, hp, hmin, hmax, h1, h2, h3, h4⟩
      use ⟨⟨⟨⟨⟨⟨rfl, hf.symm⟩, hp.symm⟩, hmin, hmax⟩, h1⟩, h2⟩, h3⟩, h4
  rw [hdelivers.flatten_eq hempty, nil_append, hrows, limited, limited]
  split <;> simp

/-- A columnar read delivers the facts of its own specification, up to the limit. -/
theorem rowsOf_readColumnarBatches (storageSequence : FactEvent → UInt64)
    (hvalid : spec.validate = .ok ()) (hprojection : spec.projection ≠ []) :
  rowsOf (reader.readColumnarBatches storageSequence spec) =
    (limited spec (reader.matching (columnarSpec spec))).map
      (columnarRow storageSequence spec.projection)
  := by
  obtain ⟨hscope, -⟩ := of_validate hvalid
  obtain ⟨range, hspec, -⟩ := exists_columnarSpec spec
  rw [readColumnarBatches, hvalid, if_neg hprojection]
  by_cases hkind : spec.partScope.kind = .all
  · have hbounds : columnarBounds spec = {} := if_pos hkind
    have hchecked : ∀ part ∈ reader.partitions spec.family spec.propertyId,
        validate ⟨part, spec.family, spec.propertyId⟩ = .ok () := by
      intro part hpart
      obtain ⟨event, hevent, rfl⟩ := mem_keys.mp hpart
      obtain ⟨hscan, hevent⟩ := mem_filter.mp hevent
      simp only [Bool.and_eq_true, decide_eq_true_eq] at hevent
      rw [← hevent.1, ← hevent.2]
      apply (validate_of_mem_scan hscan).1
    have hmem : ∀ event ∈ reader.matching (columnarSpec spec),
        event.ref.partId ∈ reader.partitions spec.family spec.propertyId := by
      intro event hevent
      rw [hspec] at hevent
      obtain ⟨hscan, hmatches⟩ := mem_filter.mp hevent
      obtain ⟨-, hfamily, hproperty, -⟩ := matchesReadSpec_iff.mp hmatches
      apply Grouping.mem_keys.mpr
      use event
      simp [hscan, hfamily, hproperty]
    have hsorted : (reader.partitions spec.family spec.propertyId).Pairwise (· < ·) :=
      (((pairwise_map.mpr (pairwise_partId _)).sublist (dedup_sublist _)).and
        (nodup_dedup _)).imp fun h => lt_of_le_of_ne h.1 h.2
    obtain ⟨state, hstate, hflatten⟩ := visitParts_scanPartColumns reader storageSequence
      hvalid hprojection hchecked hsorted (by simp [PartScope.contains, hkind]) hmem
    rw [if_pos hkind, ← hbounds, hstate]
    apply hflatten
  · have hbounds : columnarBounds spec = toFactScanBounds spec := if_neg hkind
    rw [if_neg hkind, ← hbounds]
    obtain ⟨hne, hsorted⟩ := PartScope.pairwise_parts hscope hkind
    by_cases hchecked : validate ⟨0, spec.family, spec.propertyId⟩ = .ok ()
    · obtain ⟨state, hstate, hflatten⟩ := visitParts_scanPartColumns reader storageSequence
        hvalid hprojection (fun _ _ => hchecked) hsorted
        (by simp [PartScope.contains, hkind])
        (by
          intro event hevent
          have hmem := partId_mem_parts (by rwa [hspec]) hevent
          rwa [hspec] at hmem)
      rw [hstate]
      apply hflatten
    · obtain ⟨part, parts, heq⟩ := exists_cons_of_ne_nil hne
      rw [@matching_eq_nil _ _ 0 (by rwa [hspec]), heq, visitParts, scanPartColumns, scanColumnar]
      cases hpart : validate ⟨part, spec.family, spec.propertyId⟩ with
      | ok => exact absurd hpart hchecked
      | error e => simp [rowsOf, bind, Except.bind, limited_nil]

/-! ### Rows and columns -/

/-- A columnar read takes the event although it lies outside of the range of entities: the range
is not given to the scans of all partitions, and an end of zero is dropped. -/
def IsStray (spec : FactReadSpec) (event : FactEvent) : Prop :=
  (spec.partScope.kind = .all ∨ spec.entityRange.maxExclusive = some 0) ∧
    FactReadSpec.matchesReadSpec { spec with entityRange := {} } event = true ∧
    spec.matchesReadSpec event = false

/-- The rows of a columnar read describe the events of the row read.  Either nothing is projected,
which a columnar read refuses, and there is nothing to deliver; or as many events as are delivered
precede each stray one in the store. -/
def ColumnarAgrees (reader : CanonicalFactReader) (spec : FactReadSpec) : Prop :=
  let events := visible reader.commitSeq reader.facts.events
  if spec.projection = [] then
    spec.maxRows = some 0 ∨ ∀ event ∈ events, spec.matchesReadSpec event = false
  else
    ∀ event ∈ events, IsStray spec event → ∃ maxRows, spec.maxRows = some maxRows ∧
      maxRows.toNat ≤ events.countP fun other =>
        spec.matchesReadSpec other && decide (other.storeKey < event.storeKey)

/-- Facts have different positions in the store. -/
theorem pairwise_scan_lt (reader : CanonicalFactReader) :
  reader.scan.Pairwise fun e f => e.storeKey < f.storeKey
  := by
  have hdistinct : reader.scan.Pairwise fun e f => e.storeKey ≠ f.storeKey := by
    have hperm := (insertion storeKey).perm
      (visible reader.commitSeq reader.facts.events)
    apply hperm.symm.pairwise _ Ne.symm
    apply ((pairwise_map.mp reader.facts.distinct).filter _).imp
    intro e f hne heq
    apply hne
    obtain ⟨href, heq⟩ := Prod.mk.inj heq
    obtain ⟨hvalid, hcommit⟩ := Prod.mk.inj heq
    rw [chainKey, chainKey, FactRef.storeKey_injective href, UInt64.not_inj.mp hvalid,
      UInt64.not_inj.mp hcommit]
  have hsorted := (insertion storeKey).sorted
    (visible reader.commitSeq reader.facts.events)
  apply (hsorted.and hdistinct).imp
  rintro e f ⟨hle, hne⟩
  apply lt_of_le_of_ne hle hne

/-- The specification of a columnar read differs from that of the row read in the range of
entities, if it does. -/
theorem columnarSpec_eq (hvalid : spec.entityRange.validate = .ok ()) :
  columnarSpec spec =
    if spec.partScope.kind = .all ∨ spec.entityRange.maxExclusive = some 0 then
      { spec with entityRange := {} } else spec
  := by
  obtain ⟨scope, family, property, ⟨min, maxExclusive⟩, _⟩ := spec
  rw [columnarSpec]
  by_cases hkind : scope.kind = .all
  · simp [hkind]
  · cases maxExclusive with
    | none => simp [hkind]
    | some max =>
      by_cases hzero : max = 0
      · obtain rfl := hzero
        cases min with
        | none => simp [hkind]
        | some min =>
          rw [EntityRange.validate] at hvalid
          obtain ⟨hlt, -⟩ := check_eq_ok_iff.mp hvalid
          exact absurd (UInt64.zero_le) hlt
      · simp [hkind, hzero]

/-- The events which only the columnar read is about are the stray ones. -/
theorem isStray_iff (hvalid : spec.entityRange.validate = .ok ()) (event : FactEvent) :
  (columnarSpec spec).matchesReadSpec event = true ∧ spec.matchesReadSpec event = false ↔
    IsStray spec event
  := by
  rw [columnarSpec_eq hvalid, IsStray]
  split
  case isTrue h => simp [h]
  case isFalse h =>
    rw [or_iff_not_imp_left] at h
    simp only [or_iff_not_imp_left, h, false_and, iff_false, not_and]
    intro htrue
    simp [htrue]

/-- The columnar read is about every event of the row read. -/
theorem matches_columnarSpec {spec : FactReadSpec} (hvalid : spec.entityRange.validate = .ok ())
    {event : FactEvent} (hmatches : spec.matchesReadSpec event = true) :
  (columnarSpec spec).matchesReadSpec event = true
  := by
  rw [columnarSpec_eq hvalid]
  split
  · obtain ⟨hscope, hfamily, hproperty, -, -, hrest⟩ := matchesReadSpec_iff.mp hmatches
    apply matchesReadSpec_iff.mpr
    exact ⟨hscope, hfamily, hproperty, rfl, rfl, hrest⟩
  · apply hmatches

/-- The rows of a columnar read describe the events of the row read, in order and up to the limit,
exactly if no stray event comes too early. -/
theorem readColumnar_describes_iff
    (reader : CanonicalFactReader) (storageSequence : FactEvent → UInt64) (spec : FactReadSpec)
    (hvalid : spec.validate = .ok ()) :
  rowsOf (reader.readColumnarBatches storageSequence spec) =
      (rowsOf (reader.readEventBatches spec)).map (columnarRow storageSequence spec.projection) ↔
    reader.ColumnarAgrees spec
  := by
  obtain ⟨-, hrange, -⟩ := of_validate hvalid
  have hscan : ∀ event, event ∈ reader.scan ↔
      event ∈ visible reader.commitSeq reader.facts.events := by
    intro event
    apply (insertion storeKey).mem_sort
  have hcount : ∀ p : FactEvent → Bool, reader.scan.countP p =
      (visible reader.commitSeq reader.facts.events).countP p := by
    apply ((insertion storeKey).perm _).countP_eq
  rw [rowsOf_readEventBatches hvalid, ColumnarAgrees]
  by_cases hprojection : spec.projection = []
  · have hrefused : rowsOf (reader.readColumnarBatches storageSequence spec) = [] := by
      rw [readColumnarBatches, hvalid, if_pos hprojection]
      rfl
    rw [if_pos hprojection, hrefused, eq_comm, map_eq_nil_iff, limited_eq_nil_iff, matching, filter_eq_nil_iff]
    simp only [hscan, Bool.not_eq_true]
  · rw [if_neg hprojection, rowsOf_readColumnarBatches storageSequence hvalid hprojection,
      (map_injective_iff.mpr fun _ _ heq => congrArg ColumnarRow.source heq).eq_iff]
    simp only [← isStray_iff hrange, ← hcount, ← hscan, and_imp]
    rw [limited, limited]
    have hwider := fun event => @matches_columnarSpec spec hrange event
    cases hmax : spec.maxRows with
    | some maxRows =>
      simp only [some.injEq, exists_eq_left']
      apply take_filter_eq_iff reader.pairwise_scan_lt hwider
    | none =>
      simp only [reduceCtorEq, false_and, exists_false, matching]
      constructor
      · intro heq event hevent hcolumnar hnot
        have hmem := mem_filter.mpr ⟨hevent, hcolumnar⟩
        rw [heq] at hmem
        simp [hnot] at hmem
      · intro hnone
        apply filter_congr
        intro event hevent
        rw [Bool.eq_iff_iff]
        refine ⟨?_, hwider event⟩
        intro hcolumnar
        simpa using hnone event hevent hcolumnar

/-- Two vertices of one partition. -/
def twoVertices : CommittedFacts where
  events := [⟨EntityFact.vertex ⟨1, 3⟩, 0, 1, .put, 0, none, none⟩,
    ⟨EntityFact.vertex ⟨1, 5⟩, 0, 1, .put, 0, none, none⟩]
  valid := by decide
  distinct := by decide

/-- A read of the second of the two vertices. -/
def secondVertex (partScope : PartScope) : FactReadSpec where
  partScope := partScope
  entityRange := ⟨some 5, some 6⟩
  projection := [.partId, .entityId]

/-- In all partitions the columnar read delivers both vertices, the row read one. -/
theorem secondVertex_strays :
  rowsOf (readColumnarBatches ⟨twoVertices, 1⟩ (fun _ => 7) (secondVertex ⟨.all, []⟩)) ≠
    (rowsOf (readEventBatches ⟨twoVertices, 1⟩ (secondVertex ⟨.all, []⟩))).map
      (columnarRow (fun _ => 7) (secondVertex ⟨.all, []⟩).projection)
  := by decide

/-- In the partition of the vertices the range is given to the scan. -/
theorem secondVertex_agrees_in_part :
  (secondVertex ⟨.exact, [1]⟩).validate = .ok () ∧
    rowsOf (readColumnarBatches ⟨twoVertices, 1⟩ (fun _ => 7) (secondVertex ⟨.exact, [1]⟩)) =
      (rowsOf (readEventBatches ⟨twoVertices, 1⟩ (secondVertex ⟨.exact, [1]⟩))).map
        (columnarRow (fun _ => 7) (secondVertex ⟨.exact, [1]⟩).projection)
  := by
  have hvalid : (secondVertex ⟨.exact, [1]⟩).validate = .ok () := by
    decide
  use hvalid
  apply (readColumnar_describes_iff ⟨twoVertices, 1⟩ (fun _ => 7) _ hvalid).mpr
  rintro event - ⟨hstray, -⟩
  exact absurd hstray (by decide)

end CanonicalFactReader

end Cedar
