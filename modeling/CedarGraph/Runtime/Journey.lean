import CedarGraph.Lib.LabelSearch
import CedarGraph.Runtime.KHop

/-!
# Journeys

A journey takes the edges of a graph one after the other, each for the duration which it has at the
departure, and waits at vertices in between.  The edge and both of its ends are present for the
whole traversal, and a vertex is present while a journey waits there.

A journey is searched for that arrives as early as possible, departs as late as possible, or takes
as little time as possible.  A label of a search holds the traversals of its path, which the source
finds by following the labels back.
-/

namespace Cedar

abbrev ValidDuration : Type := UInt64

structure JourneyRequest where
  source : VertexRef
  target : VertexRef
  interval : ValidTimeInterval
  /-- The property of an edge which holds its duration. -/
  durationProperty : Option PropertyId := none
  /-- The duration of an edge, if it does not come from a property. -/
  durationAt : Option (EdgeRef → ValidTime → StatusOr (Option ValidDuration)) := none
  arrivalDeadline : Option ValidTime := none
  /-- The greatest number of traversals, or zero if there is none. -/
  maxHops : UInt32 := 0
  direction : ExpandDirection := .out
  edgeType : Option UInt64 := none

/-- An edge which is taken at a time. -/
structure JourneyTraversal where
  traversal : TemporalTraversal
  departure : ValidTime
  arrival : ValidTime
  duration : ValidDuration
  deriving DecidableEq

structure JourneyValue where
  vertices : List VertexRef := []
  edges : List EdgeRef := []
  departures : List ValidTime := []
  arrivals : List ValidTime := []
  initialDeparture : ValidTime
  finalArrival : ValidTime
  departure : ValidTime
  arrival : ValidTime
  duration : ValidDuration
  deriving DecidableEq

/-- The results of an operation on the entries of a list, without the absent ones. -/
def StatusOr.collect {α β : Type} (f : α → StatusOr (Option β)) : List α → StatusOr (List β)
  | [] => .ok []
  | entry :: entries => do
      let result ← f entry
      let results ← collect f entries
      return result.toList ++ results

/-! ### Traversals in time -/

/-- The arrival after a duration. -/
def addDuration (departure : ValidTime) (duration : ValidDuration) : StatusOr ValidTime :=
  if duration > -1 - departure then
    Status.numericOverflow "journey" "arrival time overflows"
  else
    .ok (departure + duration)

/-- A traversal starts and ends within an interval. -/
def traversalFits (effective : ValidTimeInterval) (departure : ValidTime)
    (duration : ValidDuration) : Bool :=
  if departure < effective.start then
    false
  else
    match effective.stop with
    | none => true
    | some stop =>
        if departure ≥ stop then false else duration = 0 ∨ duration < stop - departure

/-- One of the intervals covers a wait. -/
def coversWaitingInterval (intervals : List StateInterval) (arrival departure : ValidTime) : Bool :=
  arrival ≥ departure ∨
    ∃ state ∈ intervals, ¬ state.interval.start > arrival ∧
      (state.interval.stop.all fun stop => departure ≤ stop)

/-- One of the intervals contains an instant. -/
def visibleAt (intervals : List StateInterval) (time : ValidTime) : Bool :=
  ∃ state ∈ intervals, ¬ time < state.interval.start ∧
    (state.interval.stop.all fun stop => time < stop)

/-! ### Durations -/

/-- The arrivals at the given departures do not decrease. -/
def callbackFifo (durationAt : ValidTime → StatusOr (Option ValidDuration)) :
    Option ValidTime → List ValidTime → Status
  | _, [] => .ok ()
  | previous, time :: times => do
      match ← durationAt time with
      | none => callbackFifo durationAt previous times
      | some duration =>
          let arrival ← addDuration time duration
          if previous.any (arrival < ·) then
            Status.notSupported "journey" "duration callback is non-FIFO"
          else
            callbackFifo durationAt (some arrival) times

/-- The instants of a bounded interval. -/
def instants (first stop : ValidTime) : List ValidTime :=
  (List.range (stop.toNat - first.toNat)).map fun n => first + UInt64.ofNat n

/-- A later departure on an edge does not arrive earlier. -/
def validateCallbackFifo (request : JourneyRequest) (traversal : TemporalTraversal) : Status :=
  match request.durationAt with
  | none => .ok ()
  | some durationAt =>
      match traversal.effective.stop with
      | none =>
          Status.notSupported "journey" "FIFO cannot be proven for an unbounded duration callback"
      | some stop =>
          if stop ≤ traversal.effective.start then
            .ok ()
          else if stop - traversal.effective.start > 1000000 then
            Status.notSupported "journey" "duration callback interval is too wide to prove FIFO"
          else
            callbackFifo (durationAt traversal.edge) none
              (instants traversal.effective.start stop)

/-- The duration which a value stands for. -/
def durationValue : Value → StatusOr ValidDuration
  | .int32 value =>
      if value < 0 then Status.invalidArgument "journey" "duration is negative"
      else .ok value.toInt64.toUInt64
  | .int64 value =>
      if value < 0 then Status.invalidArgument "journey" "duration is negative"
      else .ok value.toUInt64
  | .timestamp value => .ok value
  | _ => .error ⟨.schemaMismatch, "journey", "duration must be numeric"⟩

/-- The arrivals at the ends of the intervals of a registered duration do not decrease. -/
def propertyFifo (effective : ValidTimeInterval) :
    Option ValidTime → List StateInterval → Status
  | _, [] => .ok ()
  | previous, state :: states =>
      match intersect state.interval effective, state.value with
      | some clipped, some value => do
          let duration ← durationValue value
          let first ← addDuration clipped.start duration
          if previous.any (first < ·) then
            Status.notSupported "journey" "registered duration is non-FIFO"
          else
            match clipped.stop with
            | none =>
                if duration ≠ 0 then
                  let _ ← addDuration (-1) duration
                  propertyFifo effective (some first) states
                else
                  propertyFifo effective (some first) states
            | some stop =>
                if stop ≤ clipped.start then
                  propertyFifo effective previous states
                else
                  let last ← addDuration (stop - 1) duration
                  propertyFifo effective (some last) states
      | _, _ => propertyFifo effective previous states

namespace TemporalGraph

variable (graph : TemporalGraph) (request : JourneyRequest)

def vertexIntervals (vertex : VertexRef) : List StateInterval :=
  graph.presentIntervals (EntityFact.vertex vertex)

def durationIntervals (edge : EdgeRef) (property : PropertyId) : List StateInterval :=
  graph.presentIntervals (PropertyFact.edge edge property)

/-- A later departure on an edge with a registered duration does not arrive earlier. -/
def validatePropertyFifo (edge : EdgeRef) (effective : ValidTimeInterval) (property : PropertyId) :
    Status :=
  propertyFifo effective none (graph.durationIntervals edge property)

/-- The duration of an edge at a departure. -/
def propertyDuration (edge : EdgeRef) (time : ValidTime) : StatusOr (Option ValidDuration) :=
  match request.durationAt, request.durationProperty with
  | some durationAt, _ => durationAt edge time
  | none, none => .ok none
  | none, some property =>
      match (graph.durationIntervals edge property).find? fun state =>
          state.interval.Contains time with
      | some ⟨_, some value⟩ => do
          let duration ← durationValue value
          return some duration
      | _ => .ok none

/-- The check of a fragment of an edge, if its duration is registered. -/
def checkPropertyFifo (oriented : TemporalTraversal) : Status :=
  match request.durationProperty, intersect oriented.effective request.interval with
  | some property, some effective => graph.validatePropertyFifo oriented.edge effective property
  | _, _ => .ok ()

end TemporalGraph

/-! ### Expansions -/

/-- The edges of a vertex, as a journey takes them. -/
def JourneyRequest.expansion (request : JourneyRequest) (vertex : VertexRef) :
    GraphExpansionRequest :=
  ⟨[vertex], request.interval, request.direction, request.edgeType⟩

def TemporalTraversal.swap (traversal : TemporalTraversal) : TemporalTraversal :=
  { traversal with source := traversal.target, target := traversal.source }

/-- The traversal as it leaves a vertex. -/
def TemporalTraversal.orient (direction : ExpandDirection) (vertex : VertexRef)
    (traversal : TemporalTraversal) : Option TemporalTraversal :=
  match direction with
  | .out => if traversal.source ≠ vertex then none else some traversal
  | .into => if traversal.target ≠ vertex then none else some traversal.swap
  | .both =>
      if traversal.source = vertex then some traversal
      else if traversal.target = vertex then some traversal.swap
      else none

/-- The traversal as it enters a vertex. -/
def TemporalTraversal.orientInto (direction : ExpandDirection) (vertex : VertexRef)
    (traversal : TemporalTraversal) : Option TemporalTraversal :=
  match direction with
  | .out => if traversal.target ≠ vertex then none else some traversal
  | .into => if traversal.source ≠ vertex then none else some traversal.swap
  | .both =>
      if traversal.target = vertex then some traversal
      else if traversal.source = vertex then some traversal.swap
      else none

/-- The direction of the edges which enter the vertices that edges of a direction lead to. -/
def ExpandDirection.reverse : ExpandDirection → ExpandDirection
  | .out => .into
  | .into => .out
  | .both => .both

namespace TemporalGraph

variable (sorter : Sorter TemporalTraversal.sortKey) (graph : TemporalGraph)
  (request : JourneyRequest)

/-- A fragment of an edge, taken as soon as it can be after the arrival at a vertex. -/
def departAt (vertex : VertexRef) (arrival : ValidTime) (traversal : TemporalTraversal) :
    StatusOr (Option JourneyTraversal) := do
  validateCallbackFifo request traversal
  match traversal.orient request.direction vertex with
  | none => return none
  | some oriented =>
      graph.checkPropertyFifo request oriented
      let departure := if arrival < oriented.effective.start then oriented.effective.start
        else arrival
      if departure > arrival ∧
          ¬ coversWaitingInterval (graph.vertexIntervals oriented.source) arrival departure then
        return none
      else
        match ← graph.propertyDuration request oriented.edge departure with
        | none => return none
        | some duration =>
            let stop ← addDuration departure duration
            if ¬ traversalFits oriented.effective departure duration then
              return none
            else if request.interval.stop.any (stop ≥ ·) then
              return none
            else
              return some ⟨oriented, departure, stop, duration⟩

/-- The traversals from a vertex after an arrival. -/
def expandAt (vertex : VertexRef) (arrival : ValidTime) : StatusOr (List JourneyTraversal) := do
  let rows ← graph.expandTemporal sorter (request.expansion vertex)
  StatusOr.collect (graph.departAt request vertex arrival) rows

end TemporalGraph

/-- Traversals in the order of their ends, edges and times. -/
def JourneyTraversal.sortKey (step : JourneyTraversal) :
    (PartId ×ₗ VertexId) ×ₗ (PartId ×ₗ VertexId) ×ₗ (PartId ×ₗ EdgeId) ×ₗ ValidTime ×ₗ ValidTime :=
  toLex (toLex (step.traversal.source.partId, step.traversal.source.vertexId),
    toLex (toLex (step.traversal.target.partId, step.traversal.target.vertexId),
      toLex (toLex (step.traversal.edge.homePartId, step.traversal.edge.edgeId),
        toLex (step.departure, step.arrival))))

/-- Traversals with late departures first. -/
def JourneyTraversal.latestKey (step : JourneyTraversal) :
    ValidTimeᵒᵈ ×ₗ (PartId ×ₗ VertexId) ×ₗ (PartId ×ₗ VertexId) ×ₗ (PartId ×ₗ EdgeId) ×ₗ
      ValidTime ×ₗ ValidTime :=
  toLex (OrderDual.toDual step.departure, step.sortKey)

/-- The last of so many points from a first one which is feasible. -/
def latestFeasible (feasible : ValidTime → StatusOr Bool) (lower : ValidTime) :
    Nat → StatusOr (Option ValidTime)
  | 0 => do
      if ← feasible lower then return some lower else return none
  | n + 1 => do
      let point := lower + UInt64.ofNat (n + 1)
      if ← feasible point then return some point else latestFeasible feasible lower n

namespace TemporalGraph

variable (sorter : Sorter TemporalTraversal.sortKey) (sorter' : Sorter JourneyTraversal.latestKey)
  (graph : TemporalGraph) (request : JourneyRequest)

/-- A departure on a fragment of an edge arrives within it, and by the deadline. -/
def feasibleBy (deadline : ValidTime) (oriented : TemporalTraversal) (point : ValidTime) :
    StatusOr Bool := do
  match ← graph.propertyDuration request oriented.edge point with
  | none => return false
  | some duration =>
      let arrival ← addDuration point duration
      if arrival > deadline then return false
      else if request.interval.stop.any (arrival ≥ ·) then return false
      else return traversalFits oriented.effective point duration

/-- The latest departure on a fragment by which a deadline can be met. -/
def latestUpper (deadline : ValidTime) (oriented : TemporalTraversal) : ValidTime :=
  let upper := match oriented.effective.stop with
    | none => deadline
    | some stop => min deadline (stop - 1)
  match request.interval.stop with
  | none => upper
  | some stop => min upper (stop - 1)

/-- A fragment of an edge, taken as late as the deadline at its end allows.  The final target is
present at the arrival, and any other vertex until the deadline. -/
def arriveBy (target : VertexRef) (deadline : ValidTime) (finalTarget : Bool)
    (raw : TemporalTraversal) : StatusOr (Option JourneyTraversal) :=
  match raw.orientInto request.direction target with
  | none => return none
  | some oriented => do
      validateCallbackFifo request oriented
      graph.checkPropertyFifo request oriented
      let lower := oriented.effective.start
      if deadline < lower ∨ oriented.effective.stop = some 0 ∨ request.interval.stop = some 0 then
        return none
      else
        let upper := latestUpper request deadline oriented
        if upper < lower then
          return none
        else
          match ← latestFeasible (graph.feasibleBy request deadline oriented) lower
              (upper.toNat - lower.toNat) with
          | none => return none
          | some departure =>
              match ← graph.propertyDuration request oriented.edge departure with
              | none => return none
              | some duration =>
                  let arrival ← addDuration departure duration
                  let intervals := graph.vertexIntervals target
                  let present := if finalTarget then visibleAt intervals arrival
                    else coversWaitingInterval intervals arrival deadline
                  return if present then some ⟨oriented, departure, arrival, duration⟩ else none

/-- The traversals into a vertex by a deadline, those with late departures first. -/
def latestIncoming (target : VertexRef) (deadline : ValidTime) (finalTarget : Bool) :
    StatusOr (List JourneyTraversal) := do
  let rows ← graph.expandTemporal sorter
    { request.expansion target with direction := request.direction.reverse }
  let candidates ← StatusOr.collect (graph.arriveBy request target deadline finalTarget) rows
  return sorter'.sort candidates

end TemporalGraph

/-- The journey along some traversals. -/
def buildJourney (steps : List JourneyTraversal) (initial : ValidTime) : JourneyValue :=
  match steps with
  | [] =>
      { initialDeparture := initial, finalArrival := initial, departure := initial,
        arrival := initial, duration := 0 }
  | first :: rest =>
      let arrival := ((first :: rest).getLast (List.cons_ne_nil first rest)).arrival
      { vertices := first.traversal.source :: steps.map (·.traversal.target)
        edges := steps.map (·.traversal.edge)
        departures := steps.map (·.departure)
        arrivals := steps.map (·.arrival)
        initialDeparture := initial
        finalArrival := arrival
        departure := initial
        arrival := arrival
        duration := arrival - initial }

/-! ### The searches -/

/-- A vertex which a journey reaches at a time. -/
structure JourneyLabel where
  vertex : VertexRef
  time : ValidTime
  depth : UInt32
  path : List JourneyTraversal

/-- The depth of a label, unless the number of traversals is not bounded. -/
def JourneyRequest.stateDepth (request : JourneyRequest) (depth : UInt32) : UInt32 :=
  if request.maxHops = 0 then 0 else depth

/-- The state for which a label stands. -/
def JourneyRequest.timedKey (request : JourneyRequest) (label : JourneyLabel) :
    VertexRef × UInt32 × ValidTime :=
  (label.vertex, request.stateDepth label.depth, label.time)

/-- The check before a label is expanded.  One at the greatest number of traversals is left. -/
def JourneyRequest.checkDepth {α : Type} (request : JourneyRequest) (depth : UInt32)
    (next : StatusOr (List α)) : StatusOr (List α) :=
  if request.maxHops ≠ 0 ∧ depth ≥ request.maxHops then
    .ok []
  else if depth = -1 then
    Status.resourceExhausted "journey" "path depth overflow"
  else
    next

namespace TemporalGraph

variable (sorter : Sorter TemporalTraversal.sortKey) (graph : TemporalGraph)
  (request : JourneyRequest)

/-- The labels after a label, as early as possible. -/
def earliestNext (current : JourneyLabel) : StatusOr (List JourneyLabel) :=
  request.checkDepth current.depth do
    let next ← graph.expandAt sorter request current.vertex current.time
    return next.map fun step =>
      ⟨step.traversal.target, step.arrival, current.depth + 1, current.path ++ [step]⟩

/-- A journey which arrives as early as possible. -/
def earliestArrival (fuel : Nat) : Option (StatusOr JourneyValue) :=
  match request.interval.validate with
  | .error _ => some (Status.invalidArgument "journey" "invalid interval")
  | .ok () =>
      -- of the pending labels with the earliest arrival the oldest one is taken
      (LabelSearch.search request.timedKey (fun a b => a.time ≤ b.time)
        (fun label => label.vertex = request.target) (graph.earliestNext sorter request) fuel
        ⟨request.source, request.interval.start, 0, []⟩).map fun outcome => do
          match (← outcome).found with
          | some label => return buildJourney label.path request.interval.start
          | none => Status.notFound "journey" "target is unreachable"

/-- The labels before a label, as late as possible. -/
def latestNext (sorter' : Sorter JourneyTraversal.latestKey) (current : JourneyLabel) :
    StatusOr (List JourneyLabel) :=
  request.checkDepth current.depth do
    let incoming ← graph.latestIncoming sorter sorter' request current.vertex current.time
      (current.depth = 0)
    return incoming.map fun step =>
      ⟨step.traversal.source, step.departure, current.depth + 1, step :: current.path⟩

/-- A journey which departs as late as possible. -/
def latestDeparture (sorter' : Sorter JourneyTraversal.latestKey) (fuel : Nat) :
    Option (StatusOr JourneyValue) :=
  match request.arrivalDeadline <|> request.interval.stop with
  | none =>
      some (Status.notSupported "journey" "latest departure requires a finite time bound")
  | some deadline =>
      if deadline ≤ request.interval.start then
        some (Status.notFound "journey" "target is unreachable")
      else
        -- of the pending labels with the latest departure the newest one is taken
        (LabelSearch.search request.timedKey (fun a b => b.time < a.time)
          (fun label => label.vertex = request.source) (graph.latestNext sorter request sorter')
          fuel ⟨request.target, deadline, 0, []⟩).map fun outcome => do
            match (← outcome).found with
            | some label => return buildJourney label.path label.time
            | none => Status.notFound "journey" "target is unreachable"

end TemporalGraph

/-- A vertex which a journey with a first departure reaches at a time. -/
structure ParetoLabel where
  vertex : VertexRef
  departure : ValidTime
  arrival : ValidTime
  depth : UInt32
  path : List JourneyTraversal

namespace ParetoLabel

/-- The time which the journey takes. -/
def elapsed (label : ParetoLabel) : ValidDuration :=
  label.arrival - label.departure

/-- The label takes the place of the answer. -/
def better (label answer : ParetoLabel) : Bool :=
  if label.elapsed = answer.elapsed ∧ label.departure = answer.departure then
    -- paths are compared traversal by traversal
    label.path.map JourneyTraversal.sortKey < answer.path.map JourneyTraversal.sortKey
  else
    label.elapsed < answer.elapsed ∨
      label.elapsed = answer.elapsed ∧ label.departure < answer.departure

end ParetoLabel

/-- The state for which a label stands. -/
def JourneyRequest.paretoKey (request : JourneyRequest) (label : ParetoLabel) :
    VertexRef × UInt32 × ValidTime × ValidTime :=
  (label.vertex, request.stateDepth label.depth, label.departure, label.arrival)

namespace TemporalGraph

variable (sorter : Sorter TemporalTraversal.sortKey) (sorter' : Sorter JourneyTraversal.sortKey)
  (graph : TemporalGraph) (request : JourneyRequest)

/-- The labels after a label.  The first traversal fixes the departure of the journey. -/
def fastestNext (current : ParetoLabel) : StatusOr (List ParetoLabel) :=
  request.checkDepth current.depth do
    let next ← graph.expandAt sorter request current.vertex current.arrival
    return (sorter'.sort next).map fun step =>
      ⟨step.traversal.target, if current.depth = 0 then step.departure else current.departure,
        step.arrival, current.depth + 1, current.path ++ [step]⟩

/-- The answer after a label. -/
def improve (answer : Option ParetoLabel) (current : ParetoLabel) : Option ParetoLabel :=
  if current.vertex = request.target ∧ current.depth ≠ 0 ∧ answer.all current.better then
    some current
  else
    answer

/-- A journey which takes as little time as possible. -/
def fastestDuration (fuel : Nat) : Option (StatusOr JourneyValue) :=
  match request.interval.stop with
  | none =>
      some (Status.notSupported "journey" "fastest duration requires a finite time bound")
  | some stop =>
      if stop ≤ request.interval.start then
        some (Status.notFound "journey" "target is unreachable")
      else
        -- the pending labels are taken in the order in which they were found
        (LabelSearch.search request.paretoKey (fun _ _ => true) (fun _ => false)
          (graph.fastestNext sorter sorter' request) fuel
          ⟨request.source, request.interval.start, request.interval.start, 0, []⟩).map
            fun outcome => do
              match (← outcome).processed.foldl (improve request) none with
              | some answer => return buildJourney answer.path answer.departure
              | none => Status.notFound "journey" "target is unreachable"

end TemporalGraph

end Cedar
