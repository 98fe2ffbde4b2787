import CedarGraph.Fact.ReadSpec
import CedarGraph.Lib.Grouping
import CedarGraph.Temporal.CommittedFacts

/-!
# Reading the state at an instant

A stream of events, in which those of one reference follow each other, is turned into the rows of
the states which contain an instant: the events of a reference are collected until another one
follows, then they are corrected and materialized.
-/

namespace Cedar

open Grouping

/-- The state at an instant in a snapshot, of the facts which a read is about. -/
structure CanonicalStateReadSpec where
  facts : FactReadSpec
  validTime : ValidTime
  snapshotSeq : CommitSeq
  maxRows : Option UInt64 := none

/-- A state of a fact. -/
structure CanonicalStateRow where
  ref : FactRef
  effective : ValidTimeInterval
  commitSeq : CommitSeq
  value : Option Value

/-- The commit of the boundary at an instant. -/
def boundaryCommit (boundaries : List CorrectedBoundary) (start : ValidTime)
    (fallback : CommitSeq) : CommitSeq :=
  match boundaries.find? fun boundary => boundary.validFrom = start with
  | some boundary => boundary.commitSeq
  | none => fallback

/-- The rows of the states of a reference which contain an instant. -/
def stateRows (ref : FactRef) (boundaries : List CorrectedBoundary) (validTime : ValidTime)
    (snapshotSeq : CommitSeq) : List CanonicalStateRow :=
  ((materializePresentState boundaries).filter fun state =>
    state.interval.Contains validTime).map fun state =>
      ⟨ref, state.interval, boundaryCommit boundaries state.interval.start snapshotSeq, state.value⟩

/-- A stream with the events of the current reference and the rows which it has emitted. -/
structure StateRowStream where
  currentRef : Option FactRef := none
  currentEvents : List FactEvent := []
  output : List CanonicalStateRow := []
  limitReached : Bool := false

namespace StateRowStream

variable (sorter : Sorter FactEvent.chainKey) (spec : CanonicalStateReadSpec)

/-- Emits the rows of the current reference.  The stream ends once it has as many rows as are
asked for. -/
def flushCurrent (stream : StateRowStream) : StatusOr StateRowStream :=
  match stream.currentRef, stream.currentEvents with
  | some ref, event :: events => do
      let boundaries ← resolveCorrectedBoundaries sorter (event :: events) spec.snapshotSeq
      let output := stream.output ++ stateRows ref boundaries spec.validTime spec.snapshotSeq
      return match spec.maxRows with
        | some maxRows =>
            if output.length ≥ maxRows.toNat then
              { stream with output := output.take maxRows.toNat, limitReached := true }
            else
              { stream with output := output, currentEvents := [] }
        | none => { stream with output := output, currentEvents := [] }
  | _, _ => .ok stream

/-- Takes an event, after which the rows of the reference before it are emitted. -/
def consume (stream : StateRowStream) (event : FactEvent) : StatusOr StateRowStream :=
  if stream.limitReached then .ok stream
  else if stream.currentRef = some event.ref then
    .ok { stream with currentEvents := stream.currentEvents ++ [event] }
  else do
    let stream ← stream.flushCurrent sorter spec
    if stream.limitReached then .ok stream
    else
      .ok { stream with
        currentRef := some event.ref
        currentEvents := stream.currentEvents ++ [event] }

/-- Emits the rows of the last reference. -/
def finish (stream : StateRowStream) : StatusOr StateRowStream :=
  if stream.limitReached then .ok stream else stream.flushCurrent sorter spec

/-- The rows of a stream of events which a stream in some state goes on with. -/
def run (stream : StateRowStream) (events : List FactEvent) :
    StatusOr (List CanonicalStateRow) := do
  let stream ← events.foldlM (consume sorter spec) stream
  let stream ← stream.finish sorter spec
  return stream.output

/-! ### The rows of a stream -/

/-- The rows of the events of one reference. -/
def groupRows : List FactEvent → StatusOr (List CanonicalStateRow)
  | [] => .ok []
  | event :: events => do
      let boundaries ← resolveCorrectedBoundaries sorter (event :: events) spec.snapshotSeq
      return stateRows event.ref boundaries spec.validTime spec.snapshotSeq

variable {spec}

/-- The rows of events whose reference has the boundaries. -/
theorem groupRows_eq_ok {ref : FactRef} {boundaries : List CorrectedBoundary}
    {events : List FactEvent} (hnonempty : events ≠ []) (hsame : ∀ event ∈ events, event.ref = ref)
    (hresolve : resolveCorrectedBoundaries sorter events spec.snapshotSeq = .ok boundaries) :
  groupRows sorter spec events = .ok (stateRows ref boundaries spec.validTime spec.snapshotSeq)
  := by
  obtain ⟨event, events, rfl⟩ := List.exists_cons_of_ne_nil hnonempty
  rw [groupRows, hresolve, hsame event List.mem_cons_self]
  rfl

/-- Without a limit, a stream emits the rows of the current events. -/
theorem flushCurrent_cons (hmax : spec.maxRows = none) (event : FactEvent)
    (events : List FactEvent) (output : List CanonicalStateRow) :
  flushCurrent sorter spec ⟨some event.ref, event :: events, output, false⟩ = do
    let rows ← groupRows sorter spec (event :: events)
    return ⟨some event.ref, [], output ++ rows, false⟩
  := by
  simp only [flushCurrent, groupRows, hmax]
  cases resolveCorrectedBoundaries sorter (event :: events) spec.snapshotSeq with
  | error error => rfl
  | ok boundaries => rfl

/-- Without a limit, a stream processes the groups of events with one reference. -/
theorem run_eq_collect (hmax : spec.maxRows = none) (current : List FactEvent)
    (output : List CanonicalStateRow) (events : List FactEvent) :
  run sorter spec ⟨current.head?.map FactEvent.ref, current, output, false⟩ events =
    collect FactEvent.ref (groupRows sorter spec) current output events
  := by
  induction events generalizing current output with
  | nil =>
    cases current with
    | nil => rfl
    | cons first current =>
      have hflush := flushCurrent_cons sorter hmax first current output
      simp only [run, List.foldlM_nil, StatusOr.pure_eq_ok, StatusOr.ok_bind, finish,
        List.head?_cons, Option.map_some, hflush, collect]
      cases groupRows sorter spec (first :: current) with
      | error error => rfl
      | ok rows => rfl
  | cons event events ih =>
    cases current with
    | nil =>
      rw [collect, ← ih]
      simp [run, consume, flushCurrent]
    | cons first current =>
      rw [collect]
      by_cases heq : first.ref = event.ref
      · rw [← ih]
        simp [run, consume, heq]
      · have hflush := flushCurrent_cons sorter hmax first current output
        simp only [run, List.foldlM_cons, consume, hflush, List.head?_cons, Option.map_some,
          Option.some.injEq, heq]
        cases groupRows sorter spec (first :: current) with
        | error error => rfl
        | ok rows =>
          simp [← ih, run]

end StateRowStream

end Cedar
