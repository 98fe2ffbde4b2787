import CedarGraph.Relational.Aggregate
import CedarGraph.Lib.IntervalUnion

/-!
# The temporal join

The interval merge join joins rows with equal keys during the time when both are effective.  A
semijoin keeps the left rows clipped to the union of these times, and an antijoin clips them to the
gaps.  A sweep over the right rows of every left row predicts the number of rows of the result.
-/

namespace Cedar

namespace Relational

/-! ### The order of temporal rows -/

/-- The order of lists of cells: by the first difference, and then by length. -/
def cellsLess : List RelationalCell → List RelationalCell → Bool
  | left :: lefts, right :: rights =>
      match left.compare right with
      | .lt => true
      | .gt => false
      | .eq => cellsLess lefts rights
  | [], _ :: _ => true
  | _, [] => false

/-- The order of rows by key, start, end and cells.  An absent end comes last. -/
def temporalRowLess (key : Nat) (left right : RelationalRow) : Bool :=
  match (cell left key).compare (cell right key), left.effective, right.effective with
  | .lt, _, _ => true
  | .gt, _, _ => false
  | .eq, some ⟨start, stop⟩, some ⟨start', stop'⟩ =>
      if start ≠ start' then start < start'
      else
        match stop, stop' with
        | some _, none => true
        | none, some _ => false
        | some stop, some stop' =>
            if stop ≠ stop' then stop < stop' else cellsLess left.cells right.cells
        | none, none => cellsLess left.cells right.cells
  | .eq, _, _ => false

/-- Rows of which each one is merged into the last one of the result so far, if the two touch. -/
def coalesceRowsFrom : RelationalRow → List RelationalRow → List RelationalRow
  | last, [] => [last]
  | last, row :: rows =>
      if touches last row then coalesceRowsFrom (extend last row) rows
      else last :: coalesceRowsFrom row rows

def sortAndCoalesceTemporalRows (sorter : LessSort RelationalRow) (key : Nat)
    (rows : List RelationalRow) : List RelationalRow :=
  match sorter.sort (temporalRowLess key) rows with
  | [] => []
  | row :: rows => coalesceRowsFrom row rows

/-! ### The rows for a left row -/

/-- The order of intervals by start and end.  An absent end comes last. -/
def intervalLess (left right : ValidTimeInterval) : Bool :=
  if left.start ≠ right.start then left.start < right.start
  else
    match left.stop, right.stop with
    | none, _ => false
    | some _, none => true
    | some left, some right => left < right

def normalizeIntervals (sorter : LessSort ValidTimeInterval) (intervals : List ValidTimeInterval) :
    List ValidTimeInterval :=
  Span.normalize (sorter.sort intervalLess intervals)

abbrev TemporalJoinInput : Type := JoinInput

/-- The rows in the bucket of a key, in order. -/
def bucketRows (std : StdHash) (key : Nat) (rows : List RelationalRow) (hash : UInt64) :
    List RelationalRow :=
  rows.filter fun row => hashCell std (cell row key) = hash

/-- The right rows with the key of a left row. -/
def candidates (std : StdHash) (input : TemporalJoinInput) (rights : List RelationalRow)
    (left : RelationalRow) : List RelationalRow :=
  (bucketRows std input.rightKey rights (hashCell std (cell left input.leftKey))).filter
    (rowsMatch input left)

/-- The time when both rows are effective, unless there is none. -/
def commonInterval (left right : RelationalRow) : Option ValidTimeInterval :=
  match left.effective, right.effective with
  | some left, some right => intersect left right
  | _, _ => none

/-- The times when a left row and a right row with its key are effective. -/
def overlaps (std : StdHash) (input : TemporalJoinInput) (rights : List RelationalRow)
    (left : RelationalRow) : List ValidTimeInterval :=
  (candidates std input rights left).filterMap (commonInterval left)

/-- The row during an interval.  It keeps the remembered hash. -/
def clipTo (row : RelationalRow) (interval : ValidTimeInterval) : RelationalRow :=
  { row with effective := some interval }

/-- The rows which the join publishes for a left row. -/
def temporalRows (std : StdHash) (sorter : LessSort ValidTimeInterval) (input : TemporalJoinInput)
    (rights : List RelationalRow) (left : RelationalRow) : List RelationalRow :=
  match input.kind with
  | .inner =>
      (candidates std input rights left).filterMap fun right =>
        (commonInterval left right).map (clipTo (combine left right))
  | .semi => (normalizeIntervals sorter (overlaps std input rights left)).map (clipTo left)
  | .anti =>
      match left.effective with
      | some interval =>
          (Span.gapsFrom interval.stop interval.start
            (normalizeIntervals sorter (overlaps std input rights left))).map (clipTo left)
      | none => []

/-! ### The predicted number of rows -/

def endsAfter (stop : Option ValidTime) (point : ValidTime) : Bool :=
  stop.all (point < ·)

/-- What is known of the coverage at a cursor. -/
structure Probe where
  found : Bool := false
  coverageEnd : Option ValidTime := none
  nextStart : Option ValidTime := none

/-- The end of the coverage after an overlap: the new end, unless both are present and the old one
is not earlier. -/
def updateEnd : Option ValidTime → Option ValidTime → Option ValidTime
  | some stop, some stop' => if stop < stop' then some stop' else some stop
  | _, stop' => stop'

/-- One more overlap is looked at from a cursor. -/
def probeStep (cursor : ValidTime) (probe : Probe) (overlap : ValidTimeInterval) : Probe :=
  if ¬ cursor < overlap.start ∧ endsAfter overlap.stop cursor = true then
    { probe with
      found := true
      coverageEnd := updateEnd probe.coverageEnd overlap.stop }
  else if cursor < overlap.start ∧ (probe.nextStart.all (overlap.start < ·)) = true then
    { probe with nextStart := some overlap.start }
  else
    probe

/-- The end of the coverage after one more overlap.  It is read even when it is absent: this is the
failure. -/
def extendStep (extended : Option ValidTime) (overlap : ValidTimeInterval) :
    Option (Option ValidTime) := do
  let reached ← extended
  if reached < overlap.start ∨ endsAfter overlap.stop reached = false then return some reached
  else return overlap.stop

/-- The end of the coverage, until no overlap extends it. -/
def extendCoverage (overlaps : List ValidTimeInterval) :
    Nat → Option ValidTime → Option (Option ValidTime)
  | 0, _ => none
  | _ + 1, none => some none
  | fuel + 1, some stop => do
      let extended ← overlaps.foldlM extendStep (some stop)
      if extended = some stop then return some stop else extendCoverage overlaps fuel extended

/-- The fragments of a left row from a cursor on, by a sweep over its overlaps.  There is no result
if the fuel runs out or an absent end is read. -/
def countCoverageFragments (kind : JoinKind) (stop : Option ValidTime)
    (overlaps : List ValidTimeInterval) : Nat → ValidTime → Nat → Option Nat
  | 0, _, _ => none
  | fuel + 1, cursor, fragments =>
      let probe := overlaps.foldl (probeStep cursor) {}
      if !probe.found then
        match probe.nextStart with
        | some next =>
            countCoverageFragments kind stop overlaps fuel next
              (if kind = .anti ∧ cursor < next then fragments + 1 else fragments)
        | none =>
            some (if kind = .anti ∧ endsAfter stop cursor = true then fragments + 1 else fragments)
      else
        let fragments := if kind = .semi then fragments + 1 else fragments
        match extendCoverage overlaps fuel probe.coverageEnd with
        | none => none
        | some none => some fragments
        | some (some coverageEnd) =>
            if endsAfter stop coverageEnd then
              countCoverageFragments kind stop overlaps fuel coverageEnd fragments
            else
              some fragments

/-- The predicted number of rows for a left row. -/
def predictedRows (std : StdHash) (input : TemporalJoinInput) (fuel : Nat)
    (left : RelationalRow) : Option Nat :=
  match input.kind, left.effective with
  | .inner, _ =>
      some ((candidates std input input.right.rows left).countP fun right =>
        (commonInterval left right).isSome)
  | kind, some interval =>
      countCoverageFragments kind interval.stop (overlaps std input input.right.rows left) fuel
        interval.start 0
  | _, none => some 0

variable (std : StdHash) (rowSort : LessSort RelationalRow) (intervalSort : LessSort ValidTimeInterval)

/-- The number of rows after they have been coalesced. -/
def countCoalescedCoverageRows (input : TemporalJoinInput) : Nat :=
  (sortAndCoalesceTemporalRows rowSort input.leftKey
    (input.left.rows.flatMap (temporalRows std intervalSort input input.right.rows))).length

/-! ### The join -/

/-- The rows of a semijoin or an antijoin are counted again after they have been coalesced, if they
are predicted to be too many. -/
def RecountsRows (input : TemporalJoinInput) (counts : List Nat) (budget : Budget) : Prop :=
  input.kind ≠ .inner ∧ counts.sum > budget.maxOutputRows

instance (input : TemporalJoinInput) (counts : List Nat) (budget : Budget) :
    Decidable (RecountsRows input counts budget) :=
  inferInstanceAs (Decidable (_ ∧ _))

/-- The predicted number of rows of the result. -/
def outputRows (input : TemporalJoinInput) (counts : List Nat) (budget : Budget) : Nat :=
  if RecountsRows input counts budget then
    countCoalescedCoverageRows std rowSort intervalSort input
  else
    counts.sum

/-- The rows which the join publishes. -/
def publishedRows (input : TemporalJoinInput) : List RelationalRow :=
  (rowSort.sort (temporalRowLess input.leftKey) input.left.rows).flatMap
    (temporalRows std intervalSort input
      (rowSort.sort (temporalRowLess input.rightKey) input.right.rows))

/-- The interval merge join.  A sweep which predicts a number of rows without a result stops it, as
one whose count overflows does. -/
def intervalMergeJoin (fuel : Nat) (input : TemporalJoinInput) (fragments : FragmentBudget)
    (budget : Budget) : StatusOr BatchStream := do
  validateJoin input
  if !intervalsValid input.left.rows then
    Status.invalidArgument "temporal join" "left interval is absent or invalid"
  else if !intervalsValid input.right.rows then
    Status.invalidArgument "temporal join" "right interval is absent or invalid"
  else
    match input.left.rows.mapM (predictedRows std input fuel) with
    | none => Status.resourceExhausted "query" "temporal output row overflow"
    | some counts =>
        let predicted := outputRows std rowSort intervalSort input counts budget
        if RecountsRows input counts budget ∧ !budget.scratch then
          Status.resourceExhausted "query" "memory budget exceeded"
        else if predicted > budget.maxOutputRows then
          Status.resourceExhausted "query" "output row budget exceeded"
        else if fragments.limit = 0 ∧ predicted ≠ 0 then
          Status.resourceExhausted "query" "interval fragment budget exceeded"
        else if predicted = 0 then
          return { rows := [], orderSpecified := true }
        else if !budget.scratch then
          Status.resourceExhausted "query" "memory budget exceeded"
        else if !budget.output then
          memoryExhausted
        else
          let (rows, _) ← publishAll budget.maxOutputRows
            (publishedRows std rowSort intervalSort input) ([], fragments)
          return {
            rows := sortAndCoalesceTemporalRows rowSort input.leftKey rows
            orderSpecified := true }

end Relational

end Cedar
