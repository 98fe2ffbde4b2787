import CedarGraph.Relational.Operators

/-!
# Aggregation

The rows of a stream are grouped by some columns.  An aggregate computes one row for every group.
The temporal aggregate sweeps over the starts and ends of the rows of a group and counts, for every
stretch of time between two of them, the rows which are effective there.
-/

namespace Cedar

/-- The number of fragments which an operator may still publish. -/
structure FragmentBudget where
  limit : Nat
  used : Nat := 0

namespace Relational

/-! ### Groups -/

/-- The rows which have one key. -/
structure Group where
  key : List RelationalCell
  rows : List RelationalRow
  deriving DecidableEq

/-- The cells of a row in some columns. -/
def groupCells (groupBy : List Nat) (row : RelationalRow) : List RelationalCell :=
  groupBy.map (cell row)

def validateGroupBy (input : BatchStream) (groupBy : List Nat) : Status :=
  if input.rows.any fun row => groupBy.any fun column => row.cells.length ≤ column then
    Status.invalidArgument "relational aggregate" "group column is out of range"
  else
    .ok ()

def hashGroupKey (std : StdHash) (key : List RelationalCell) : UInt64 :=
  key.foldl (fun hash cell => combineHash hash (hashCell std cell)) 0x9e3779b97f4a7c15

/-- The groups with a row added to the first one which has its hash and its key, or in a group of
its own. -/
def addToGroups (std : StdHash) (groupBy : List Nat) (row : RelationalRow) :
    List Group → List Group
  | [] => [⟨groupCells groupBy row, [row]⟩]
  | group :: groups =>
      if hashGroupKey std group.key = hashGroupKey std (groupCells groupBy row) ∧
          RelationalCell.listEq group.key (groupCells groupBy row) = true then
        { group with rows := group.rows ++ [row] } :: groups
      else
        group :: addToGroups std groupBy row groups

/-- The groups of the rows of a stream, in the order of their first rows.  Without columns there is
one group, even if there are no rows. -/
def buildGroups (std : StdHash) (input : BatchStream) (groupBy : List Nat) :
    StatusOr (List Group) := do
  validateGroupBy input groupBy
  let groups := input.rows.foldl (fun groups row => addToGroups std groupBy row groups) []
  return if input.rows = [] ∧ groupBy = [] then groups ++ [⟨[], []⟩] else groups

/-! ### Aggregates -/

inductive AggregateKind where
  | count
  | sum
  | min
  | max
  deriving DecidableEq

structure AggregateSpec where
  kind : AggregateKind
  inputColumn : Nat

/-- What an aggregate other than a count has seen. -/
structure Accumulator where
  accumulated : Option RelationalCell := none
  int64Sum : Int64 := 0
  doubleSum : UInt64 := 0

def outOfRange {α : Type} : StatusOr α :=
  Status.invalidArgument "row aggregate" "aggregate column is out of range"

/-- The sum of two numbers, unless it overflows. -/
def checkedAdd (sum value : Int64) : Option Int64 :=
  if (0 < value ∧ Int64.maxValue.toInt - value.toInt < sum.toInt) ∨
      (value < 0 ∧ sum.toInt < Int64.minValue.toInt - value.toInt) then
    none
  else
    some (sum + value)

/-- The accumulator after one more cell.  The sum of floating-point numbers is a parameter. -/
def accumulate (addDouble : UInt64 → UInt64 → UInt64) (kind : AggregateKind) (state : Accumulator)
    (cell : RelationalCell) : StatusOr Accumulator := do
  if !cell.present then
    return state
  else if state.accumulated.any fun previous => previous.type ≠ cell.type then
    Status.invalidArgument "row aggregate" "aggregate input types differ"
  else
    match kind with
    | .sum =>
        match cell.type, cell.value with
        | .int64, .int64 value =>
            match checkedAdd state.int64Sum value with
            | none => Status.numericOverflow "row aggregate" "sum overflow"
            | some sum =>
                return { state with
                  int64Sum := sum, accumulated := some (state.accumulated.getD cell) }
        | .float64, .double value =>
            return { state with
              doubleSum := addDouble state.doubleSum value,
              accumulated := some (state.accumulated.getD cell) }
        | _, _ =>
            Status.invalidArgument "row aggregate" "sum requires exact int64 or float64 input"
    | _ =>
        match state.accumulated with
        | none => return { state with accumulated := some cell }
        | some previous =>
            if (kind = .min ∧ cell.compare previous = .lt) ∨
                (kind = .max ∧ cell.compare previous = .gt) then
              return { state with accumulated := some cell }
            else
              return state

/-- The value of an aggregate for a group. -/
def aggregateOne (addDouble : UInt64 → UInt64 → UInt64) (group : Group) (spec : AggregateSpec) :
    StatusOr RelationalCell := do
  if group.rows.any fun row => row.cells.length ≤ spec.inputColumn then
    outOfRange
  else
    let cells := group.rows.map fun row => cell row spec.inputColumn
    match spec.kind with
    | .count => return ⟨.int64, true, .int64 (.ofNat (cells.countP (·.present)))⟩
    | kind =>
        let state ← cells.foldlM (accumulate addDouble kind) {}
        match kind, state.accumulated with
        | _, none => return ⟨.int64, false, .bool false⟩
        | .sum, some first =>
            if first.type = .int64 then return ⟨.int64, true, .int64 state.int64Sum⟩
            else return ⟨.float64, true, .double state.doubleSum⟩
        | _, some cell => return cell

/-- One row for every group. -/
def aggregateRows (std : StdHash) (addDouble : UInt64 → UInt64 → UInt64) (input : BatchStream)
    (groupBy : List Nat) (aggregates : List AggregateSpec) (budget : Budget) :
    StatusOr BatchStream := do
  validateGroupBy input groupBy
  if !budget.scratch then
    Status.resourceExhausted "query" "memory budget exceeded"
  else
    let groups ← buildGroups std input groupBy
    if groups.length > budget.maxOutputRows then outputRowsExhausted
    else if !budget.output then Status.resourceExhausted "query" "memory budget exceeded"
    else
      let rows ← groups.mapM fun group => do
        let cells ← aggregates.mapM (aggregateOne addDouble group)
        return { cells := group.key ++ cells }
      return { rows := rows }

/-! ### Publication of temporal rows -/

/-- Two rows with equal cells, of which the second starts where the first ends. -/
def touches (last row : RelationalRow) : Bool :=
  RelationalCell.listEq last.cells row.cells &&
    match last.effective, row.effective with
    | some left, some right => left.stop = some right.start
    | _, _ => false

/-- The first row, until the end of the second. -/
def extend (last row : RelationalRow) : RelationalRow :=
  match last.effective, row.effective with
  | some left, some right => { last with effective := some ⟨left.start, right.stop⟩ }
  | _, _ => last

/-- A row is published: it extends the last one, or it follows it. -/
def publish (row : RelationalRow) (budget : FragmentBudget) (maxOutputRows : Nat)
    (output : List RelationalRow) : StatusOr (List RelationalRow × FragmentBudget) :=
  match output.getLast? with
  | some last =>
      if touches last row then .ok (output.dropLast ++ [extend last row], budget)
      else if output.length ≥ maxOutputRows then
        Status.resourceExhausted "query" "output row budget exceeded"
      else if 1 > budget.limit - budget.used then
        Status.resourceExhausted "query" "interval fragment budget exceeded"
      else .ok (output ++ [row], { budget with used := budget.used + 1 })
  | none =>
      if output.length ≥ maxOutputRows then
        Status.resourceExhausted "query" "output row budget exceeded"
      else if 1 > budget.limit - budget.used then
        Status.resourceExhausted "query" "interval fragment budget exceeded"
      else .ok (output ++ [row], { budget with used := budget.used + 1 })

/-- Rows are published one after another. -/
def publishAll (maxOutputRows : Nat) : List RelationalRow → List RelationalRow × FragmentBudget →
    StatusOr (List RelationalRow × FragmentBudget)
  | [], state => .ok state
  | row :: rows, (output, budget) => do
      let state ← publish row budget maxOutputRows output
      publishAll maxOutputRows rows state

/-! ### The temporal aggregate -/

/-- A start or an end of a row. -/
structure TemporalEvent where
  time : ValidTime
  delta : Int

/-- The starts and ends of some rows. -/
def temporalEvents (rows : List RelationalRow) : List TemporalEvent :=
  rows.flatMap fun row =>
    match row.effective with
    | some interval => ⟨interval.start, 1⟩ :: (interval.stop.map fun stop => ⟨stop, -1⟩).toList
    | none => []

/-- The rows have intervals which are not empty. -/
def intervalsValid (rows : List RelationalRow) : Bool :=
  rows.all fun row => row.effective.any fun interval => decide interval.Valid

/-- The fragments of a group by the sweep which counts them: the number of rows effective so far
and the count of the last fragment, unless a gap follows it. -/
def countSweep : List TemporalEvent → Int → Option Int → Nat
  | [], active, last => if 0 < active ∧ last ≠ some active then 1 else 0
  | event :: events, active, last =>
      let rest := events.dropWhile fun other => other.time = event.time
      let active' := active + event.delta +
        ((events.takeWhile fun other => other.time = event.time).map TemporalEvent.delta).sum
      if 0 < active ∧ last ≠ some active then 1 + countSweep rest active' (some active)
      else if active = 0 then countSweep rest active' none
      else countSweep rest active' last
  termination_by events => events.length
  decreasing_by
    all_goals
      have hle := (List.dropWhile_sublist (fun other : TemporalEvent =>
        decide (other.time = event.time)) (l := events)).length_le
      simp only [List.length_cons]
      omega

/-- An order of the events by time. -/
def timeLess (left right : TemporalEvent) : Bool := left.time < right.time

/-- The order of the events by time, ends before starts. -/
def eventLess (left right : TemporalEvent) : Bool :=
  if left.time ≠ right.time then left.time < right.time else left.delta < right.delta

/-- The number of fragments of a group. -/
def countTemporalGroupFragments (sorter : LessSort TemporalEvent) (group : Group) :
    StatusOr Nat :=
  if !intervalsValid group.rows then
    Status.invalidArgument "temporal aggregate" "input interval is absent or invalid"
  else if temporalEvents group.rows = [] then .ok 0
  else .ok (countSweep (sorter.sort timeLess (temporalEvents group.rows)) 0 none)

/-- The number of rows which the temporal aggregate is going to produce. -/
def rowBound (std : StdHash) (sorter : LessSort TemporalEvent) (input : BatchStream)
    (groupBy : List Nat) : StatusOr Nat := do
  let groups ← buildGroups std input groupBy
  let fragments ← groups.mapM (countTemporalGroupFragments sorter)
  return fragments.sum

/-- The row of a stretch of time of a group. -/
def countRow (key : List RelationalCell) (count : Int) (interval : ValidTimeInterval) :
    RelationalRow :=
  { cells := key ++ [⟨.int64, true, .int64 (.ofInt count)⟩], effective := some interval }

/-- The rows of the stretches of time between the events, from the last event and the number of
rows effective after it on.  An unbounded row at the end needs the number of unbounded rows, which
is a signed number of 32 bits, to be positive. -/
def sweepRows (key : List RelationalCell) (unbounded : Int32) :
    List TemporalEvent → Int → ValidTime → List RelationalRow
  | [], count, previous =>
      if 0 < count ∧ 0 < unbounded then [countRow key count ⟨previous, none⟩] else []
  | event :: events, count, previous =>
      let rest := events.dropWhile fun other => other.time = event.time
      let count' := count + event.delta +
        ((events.takeWhile fun other => other.time = event.time).map TemporalEvent.delta).sum
      (if previous < event.time ∧ 0 < count then
        [countRow key count ⟨previous, some event.time⟩] else []) ++
        sweepRows key unbounded rest count' event.time
  termination_by events => events.length
  decreasing_by
    all_goals
      have hle := (List.dropWhile_sublist (fun other : TemporalEvent =>
        decide (other.time = event.time)) (l := events)).length_le
      simp only [List.length_cons]
      omega

/-- The rows which the temporal aggregate publishes for a group. -/
def groupRows (sorter : LessSort TemporalEvent) (group : Group) : List RelationalRow :=
  let unbounded : Int32 := .ofNat (group.rows.countP fun row =>
    row.effective.any fun interval => interval.stop = none)
  match sorter.sort eventLess (temporalEvents group.rows) with
  | [] => []
  | event :: events => sweepRows group.key unbounded (event :: events) 0 event.time

/-- The groups are published one after another. -/
def publishGroups (sorter : LessSort TemporalEvent) (maxOutputRows : Nat) :
    List Group → List RelationalRow × FragmentBudget →
    StatusOr (List RelationalRow × FragmentBudget)
  | [], state => .ok state
  | group :: groups, state =>
      if !intervalsValid group.rows then
        Status.invalidArgument "temporal aggregate" "input interval is absent or invalid"
      else do
        let state ← publishAll maxOutputRows (groupRows sorter group) state
        publishGroups sorter maxOutputRows groups state

/-- The numbers of rows of every group which are effective, with the times when they are. -/
def temporalAggregate (std : StdHash) (sorter : LessSort TemporalEvent) (input : BatchStream)
    (groupBy : List Nat) (fragments : FragmentBudget) (budget : Budget) :
    StatusOr BatchStream := do
  validateGroupBy input groupBy
  let outputRows ← rowBound std sorter input groupBy
  if outputRows > budget.maxOutputRows then
    Status.resourceExhausted "query" "output row budget exceeded"
  else if fragments.limit = 0 ∧ outputRows ≠ 0 then
    Status.resourceExhausted "query" "interval fragment budget exceeded"
  else if outputRows = 0 then
    return { rows := [], orderSpecified := true }
  else if !budget.scratch then
    Status.resourceExhausted "query" "memory budget exceeded"
  else
    let groups ← buildGroups std input groupBy
    if !budget.output then Status.resourceExhausted "query" "memory budget exceeded"
    else
      let (rows, _) ← publishGroups sorter budget.maxOutputRows groups ([], fragments)
      return { rows := rows, orderSpecified := true }

end Relational

end Cedar
