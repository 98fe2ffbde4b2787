import CedarGraph.Relational.Operators
import CedarGraph.Lib.ByteCodec

/-!
# Spilled joins

A join which does not get the memory for its index writes its rows to partitions by the hash of
their keys, and joins one partition after another.  A written row is a frame: its size, the number
of its cells, its interval and its cells.  The scratch returns what was written.
-/

namespace Cedar

open ByteCodec

/-! ### Rows as bytes -/

/-- The type with a number. -/
def QueryType.ofNumber : Nat → Option QueryType
  | 0 => some .bool
  | 1 => some .int32
  | 2 => some .int64
  | 3 => some .float32
  | 4 => some .float64
  | 5 => some .timestamp64
  | 6 => some .string
  | 7 => some .binary
  | 8 => some .vertexRef
  | 9 => some .edgeRef
  | 10 => some .validTime
  | 11 => some .validDuration
  | 12 => some .commitSeq
  | 13 => some .validTimeInterval
  | 14 => some .path
  | 15 => some .journey
  | _ => none

namespace Relational

def putBool (b : Bool) : List UInt8 := putWord 1 b.toNat

def getBool : Reader Bool := do
  let w ← getWord 1
  return w ≠ 0

/-- An interval: its start, whether it has an end, and the end. -/
def serializeInterval (interval : ValidTimeInterval) : List UInt8 :=
  putWord 8 interval.start.toNat ++ (putBool interval.stop.isSome ++
    match interval.stop with
    | some stop => putWord 8 stop.toNat
    | none => [])

def deserializeInterval : Reader ValidTimeInterval := do
  let start ← getWord 8
  let hasStop ← getBool
  if hasStop then
    let stop ← getWord 8
    return ⟨.ofNat start, some (.ofNat stop)⟩
  else
    return ⟨.ofNat start, none⟩

/-- A datum: the number of its kind, and its bytes. -/
def serializeScalar : RelationalScalar → List UInt8
  | .bool value => putWord 1 0 ++ putBool value
  | .int32 value => putWord 1 1 ++ putWord 4 value.toUInt32.toNat
  | .int64 value => putWord 1 2 ++ putWord 8 value.toUInt64.toNat
  | .float bits => putWord 1 3 ++ putWord 4 bits.toNat
  | .double bits => putWord 1 4 ++ putWord 8 bits.toNat
  | .timestamp value => putWord 1 5 ++ putWord 8 value.toNat
  | .string bytes => putWord 1 6 ++ putText bytes
  | .binary bytes => putWord 1 7 ++ putText bytes
  | .vertexRef ref => putWord 1 8 ++ (putWord 4 ref.partId.toNat ++ putWord 8 ref.vertexId.toNat)
  | .edgeRef ref => putWord 1 9 ++ (putWord 4 ref.homePartId.toNat ++ putWord 8 ref.edgeId.toNat)
  | .validTime time => putWord 1 10 ++ putWord 8 time.toNat
  | .validDuration duration => putWord 1 11 ++ putWord 8 duration.toNat
  | .commitSeq seq => putWord 1 12 ++ putWord 8 seq.toNat
  | .interval interval => putWord 1 13 ++ serializeInterval interval

/-- A word of eight bytes, as a datum. -/
def getScalar (kind : UInt64 → RelationalScalar) : Reader RelationalScalar := do
  let w ← getWord 8
  return kind (.ofNat w)

/-- The datum of a kind. -/
def deserializeKind : Nat → Reader RelationalScalar
  | 0 => return .bool (← getBool)
  | 1 => return .int32 (UInt32.ofNat (← getWord 4)).toInt32
  | 2 => getScalar fun w => .int64 w.toInt64
  | 3 => return .float (.ofNat (← getWord 4))
  | 4 => getScalar .double
  | 5 => getScalar .timestamp
  | 6 => return .string (← getText)
  | 7 => return .binary (← getText)
  | 8 => do
      let part ← getWord 4
      getScalar fun id => .vertexRef ⟨.ofNat part, id⟩
  | 9 => do
      let part ← getWord 4
      getScalar fun id => .edgeRef ⟨.ofNat part, id⟩
  | 10 => getScalar .validTime
  | 11 => getScalar .validDuration
  | 12 => getScalar .commitSeq
  | 13 => return .interval (← deserializeInterval)
  | _ => failure

def deserializeScalar : Reader RelationalScalar := do
  let kind ← getWord 1
  deserializeKind kind

def serializeCell (cell : RelationalCell) : List UInt8 :=
  putWord 1 cell.type.number ++ (putBool cell.present ++
    if cell.present then serializeScalar cell.value else [])

def serializeEffective : Option ValidTimeInterval → List UInt8
  | some interval => putBool true ++ serializeInterval interval
  | none => putBool false

/-- A row without the hash which it remembers.  The number of cells has four bytes. -/
def serializeRow (row : RelationalRow) : List UInt8 :=
  putWord 4 row.cells.length ++ (serializeEffective row.effective ++
    row.cells.flatMap serializeCell)

/-- A row after the size of its bytes, which has four bytes. -/
def framedRow (row : RelationalRow) : List UInt8 :=
  putWord 4 (serializeRow row).length ++ serializeRow row

def corruption {α : Type} (message : String) : StatusOr α :=
  Status.corruption "query relational" message

/-- What a reader reads, or an error. -/
def readOr {α : Type} (reader : Reader α) (payload : List UInt8) (message : String) :
    StatusOr (α × List UInt8) :=
  match reader payload with
  | some result => .ok result
  | none => corruption message

/-- The type and the presence of a cell. -/
def readCellFrame : Reader (QueryType × Bool) := do
  let type ← getWord 1
  match QueryType.ofNumber type with
  | none => failure
  | some type => return (type, ← getBool)

/-- A cell.  A missing one has the default datum. -/
def deserializeCell (payload : List UInt8) : StatusOr (RelationalCell × List UInt8) := do
  let ((type, present), payload) ← readOr readCellFrame payload "invalid spilled cell frame"
  if present then
    let (value, payload) ← readOr deserializeScalar payload "invalid spilled scalar"
    return (⟨type, true, value⟩, payload)
  else
    return ({ type := type }, payload)

def deserializeCells : Nat → List UInt8 → StatusOr (List RelationalCell × List UInt8)
  | 0, payload => .ok ([], payload)
  | n + 1, payload => do
      let (cell, payload) ← deserializeCell payload
      let (cells, payload) ← deserializeCells n payload
      return (cell :: cells, payload)

def deserializeEffective (payload : List UInt8) :
    StatusOr (Option ValidTimeInterval × List UInt8) := do
  let (hasEffective, payload) ← readOr getBool payload "invalid spilled row frame"
  if hasEffective then
    let (interval, payload) ← readOr deserializeInterval payload "invalid spilled interval"
    return (some interval, payload)
  else
    return (none, payload)

def deserializeRow (payload : List UInt8) : StatusOr RelationalRow := do
  let (count, payload) ← readOr (getWord 4) payload "invalid spilled row frame"
  let (effective, payload) ← deserializeEffective payload
  if count > payload.length / 2 then corruption "spilled cell count exceeds frame"
  else
    let (cells, payload) ← deserializeCells count payload
    if payload ≠ [] then corruption "spilled row trailing bytes"
    else return { cells := cells, effective := effective }

/-- The first frame of a run, and what follows it. -/
def scanFrame (payload : List UInt8) : StatusOr (List UInt8 × List UInt8) := do
  let (size, payload) ← readOr (getWord 4) payload "invalid spilled row framing"
  if size > payload.length then corruption "invalid spilled row framing"
  else if size < 5 then corruption "invalid spilled row frame"
  else
    let frame := payload.take size
    let (count, body) ← readOr (getWord 4) frame "spilled cell count exceeds frame"
    let (_, body) ← readOr getBool body "spilled cell count exceeds frame"
    if count > body.length / 2 then corruption "spilled cell count exceeds frame"
    else return (frame, payload.drop size)

/-- The frames of a run.  Every frame takes some bytes, so that there are not more of them than
bytes. -/
def scanFrames : Nat → List UInt8 → StatusOr (List (List UInt8))
  | _, [] => .ok []
  | 0, _ => corruption "invalid spilled row framing"
  | fuel + 1, payload => do
      let (frame, rest) ← scanFrame payload
      let frames ← scanFrames fuel rest
      return frame :: frames

/-- The rows of a run. -/
def deserializeRows (payload : List UInt8) (granted : Bool) : StatusOr (List RelationalRow) := do
  let frames ← scanFrames payload.length payload
  if !granted then needsSpill
  else frames.mapM deserializeRow

/-! ### Partitions -/

def partitionCount : Nat := 256

/-- The partition of a key.  Missing keys are in the first one. -/
def partitionOf (std : StdHash) (key : RelationalCell) : Nat :=
  if key.present then (hashCell std key).toNat % partitionCount else 0

/-- The rows of a stream which are written to a partition, each as a run. -/
def partitionRuns (std : StdHash) (stream : BatchStream) (key partition : Nat) :
    List (List UInt8) :=
  (stream.rows.filter fun row => partitionOf std (cell row key) = partition).map framedRow

def readSpilledRows (runs : List (List UInt8)) (granted : Bool) :
    StatusOr (List RelationalRow) := do
  let rows ← runs.mapM fun payload => deserializeRows payload granted
  return rows.flatten

/-- The hash of a key in the index of a partition. -/
def bucketHash (std : StdHash) (key : RelationalCell) : UInt64 :=
  if key.present then hashCell std key else 0

/-- The right rows of a partition with the key of a left row. -/
def partitionMatches (std : StdHash) (input : JoinInput) (rights : List RelationalRow)
    (left : RelationalRow) : List RelationalRow :=
  (rights.filter fun right =>
    bucketHash std (cell right input.rightKey) = bucketHash std (cell left input.leftKey)).filter
      (rowsMatch input left)

/-- The join which looks the left rows up in the written right rows of their partitions. -/
def externalHashJoin (std : StdHash) (input : JoinInput) (budget : Budget) :
    StatusOr BatchStream :=
  if !budget.scratch then needsSpill
  else do
    let partitions ← (List.range partitionCount).mapM fun partition =>
      readSpilledRows (partitionRuns std input.right input.rightKey partition) budget.scratch
    let rows := input.left.rows.flatMap fun left =>
      joinRow input.kind left (partitionMatches std input
        (partitions.getD (partitionOf std (cell left input.leftKey)) []) left)
    if rows ≠ [] ∧ !budget.output then needsSpill
    else if rows.length > budget.maxOutputRows then outputRowsExhausted
    else return { rows := rows }

def hashJoin (std : StdHash) (input : JoinInput) (budget : Budget) (spill : Option Budget) :
    StatusOr BatchStream :=
  match hashJoinInMemory std input budget, spill with
  | .error error, some spill =>
      if (needsSpill : StatusOr BatchStream) = .error error then externalHashJoin std input spill
      else .error error
  | result, _ => result

variable (std : StdHash) (sorter : LessSort RelationalRow) (input : JoinInput) (budget : Budget)

/-- The join of a partition of which both sides are written. -/
def sortMergePartition (partition : Nat) : StatusOr (List RelationalRow) := do
  let runs := partitionRuns std input.left input.leftKey partition
  if runs = [] then return []
  else
    let left ← readSpilledRows runs budget.scratch
    let right ← readSpilledRows (partitionRuns std input.right input.rightKey partition)
      budget.scratch
    let part := { input with
      left := { rows := sorter.sort (keyLess input.leftKey) left }
      right := { rows := sorter.sort (keyLess input.rightKey) right } }
    let joined ← sortMergeJoinInMemory sorter part budget
    return joined.rows

/-- The partitions are joined one after another, within the rows which may be produced. -/
def sortMergePartitions (std : StdHash) (sorter : LessSort RelationalRow) (input : JoinInput)
    (budget : Budget) : List Nat → List RelationalRow → StatusOr (List RelationalRow)
  | [], rows => .ok rows
  | partition :: partitions, rows => do
      let joined ← sortMergePartition std sorter input budget partition
      if rows.length + joined.length > budget.maxOutputRows then outputRowsExhausted
      else sortMergePartitions std sorter input budget partitions (rows ++ joined)

def externalSortMergeJoin : StatusOr BatchStream :=
  if !budget.scratch then needsSpill
  else do
    let rows ← sortMergePartitions std sorter input budget (List.range partitionCount) []
    return { rows := sorter.sort (keyLess input.leftKey) rows, orderSpecified := true }

def sortMergeJoin (spill : Option Budget) : StatusOr BatchStream :=
  match sortMergeJoinInMemory sorter input budget, spill with
  | .error error, some spill =>
      if (needsSpill : StatusOr BatchStream) = .error error then
        externalSortMergeJoin std sorter input spill
      else .error error
  | result, _ => result

end Relational

end Cedar
