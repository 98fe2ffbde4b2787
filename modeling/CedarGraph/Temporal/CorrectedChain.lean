import CedarGraph.Lib.Sorting
import CedarGraph.Temporal.Interval

/-!
# Corrected fact chains

A snapshot sees the events of a fact chain whose commits are not newer than its own.  At every
valid time the newest of the visible events is the corrected boundary, and the state asserted
by a boundary lasts until the next one.  `resolveCorrectedBoundaries` computes the boundaries
and `materializePresentState` the maximal intervals of present state.

The order which `std::sort` gives to events with the same valid time and commit is open, so the
functions take a sorter.

The main result is that at every instant the intervals show the value of the governing event:
the newest visible event at the latest valid time not after the instant.
-/

namespace Cedar

open FactEvent List

open Timeline

/-- The visible correction at one valid time of a chain. -/
structure CorrectedBoundary where
  validFrom : ValidTime
  commitSeq : CommitSeq
  operation : FactOperation
  schemaEpoch : UInt32
  value : Option Value
  edgeIdentity : Option EdgeIdentity
  deriving DecidableEq

/-- The boundary which an event makes. -/
def toBoundary (event : FactEvent) : CorrectedBoundary :=
  ⟨event.validFrom, event.commitSeq, event.operation, event.schemaEpoch, event.value,
    event.edgeIdentity⟩

/-- The events visible at the snapshot, each of which must be valid and have the reference of the
ones before it. -/
def visibleEvents (snapshotSeq : CommitSeq) :
    Option FactRef → List FactEvent → StatusOr (List FactEvent)
  | _, [] => .ok []
  | ref, event :: events =>
      if event.commitSeq > snapshotSeq then
        visibleEvents snapshotSeq ref events
      else do
        event.validate
        match ref with
        | none =>
            let visible ← visibleEvents snapshotSeq (some event.ref) events
            return event :: visible
        | some known =>
            if known ≠ event.ref then
              Status.invalidArgument "corrected fact chain" "mixed fact references"
            else
              let visible ← visibleEvents snapshotSeq (some known) events
              return event :: visible

/-- The last event of every valid time, after the events are sorted unless they are already. -/
def correctedBoundaries (sorter : Sorter FactEvent.chainKey) (visible : List FactEvent) :
    List CorrectedBoundary :=
  (lastOfRuns FactEvent.validFrom (sorter.unlessSorted.sort visible)).map toBoundary

/-- The corrected boundaries of the events at a snapshot, by valid time. -/
def resolveCorrectedBoundaries (sorter : Sorter FactEvent.chainKey) (events : List FactEvent)
    (snapshotSeq : CommitSeq) : StatusOr (List CorrectedBoundary) := do
  let visible ← visibleEvents snapshotSeq none events
  return correctedBoundaries sorter visible

/-- The state from each PUT up to the next boundary. -/
def presentState : List CorrectedBoundary → List StateInterval
  | [] => []
  | boundary :: boundaries =>
      let stop := boundaries.head?.map CorrectedBoundary.validFrom
      if boundary.operation = .put then
        ⟨⟨boundary.validFrom, stop⟩, boundary.value⟩ :: presentState boundaries
      else
        presentState boundaries

/-- The maximal intervals of present state. -/
def materializePresentState (boundaries : List CorrectedBoundary) : List StateInterval :=
  coalesce (presentState boundaries)

/-! ### Chains -/

/-- Valid events of one fact reference, of which no two share a valid time and a commit. -/
structure FactChain where
  /-- The reference of the chain. -/
  ref : FactRef
  /-- The events of the chain, in any order. -/
  events : List FactEvent
  /-- Every event passes its check. -/
  valid : ∀ event ∈ events, event.validate = .ok ()
  /-- Every event has the reference of the chain. -/
  sameRef : ∀ event ∈ events, event.ref = ref
  /-- A commit changes the state from a valid time on once. -/
  distinct : (events.map FactEvent.chainKey).Nodup

/-- The events of a list with commits not newer than a snapshot. -/
def visible (snapshotSeq : CommitSeq) (events : List FactEvent) : List FactEvent :=
  events.filter fun event => event.commitSeq ≤ snapshotSeq

variable {events : List FactEvent}

theorem mem_visible {snapshotSeq : CommitSeq} {event : FactEvent} :
  event ∈ visible snapshotSeq events ↔ event ∈ events ∧ event.commitSeq ≤ snapshotSeq
  := by
  simp [visible]

/-- Valid events of one reference are collected without an error. -/
theorem visibleEvents_eq_ok {ref : FactRef} (snapshotSeq : CommitSeq)
    (hvalid : ∀ event ∈ events, event.validate = .ok ())
    (href : ∀ event ∈ events, event.ref = ref) :
    ∀ known : Option FactRef, (∀ r ∈ known, r = ref) →
      visibleEvents snapshotSeq known events = .ok (visible snapshotSeq events)
  := by
  induction events with
  | nil =>
    intro known _
    rfl
  | cons event events ih =>
    intro known hknown
    obtain ⟨hvalid', hvalid⟩ := forall_mem_cons.mp hvalid
    obtain ⟨href', href⟩ := forall_mem_cons.mp href
    have ih := ih hvalid href
    by_cases hlate : event.commitSeq > snapshotSeq
    · have hdrop : ¬ event.commitSeq ≤ snapshotSeq := not_le_of_gt hlate
      simp [visibleEvents, visible, hdrop, ih known hknown]
    · have hkeep : event.commitSeq ≤ snapshotSeq := le_of_not_gt hlate
      have hnext : visibleEvents snapshotSeq (some ref) events = .ok (visible snapshotSeq events) :=
        ih (some ref) (by simp)
      cases known with
      | none => simp [visibleEvents, visible, hlate, hkeep, hvalid', href', hnext]
      | some known =>
        obtain rfl := hknown known rfl
        simp [visibleEvents, visible, hkeep, hvalid', href', hnext]

/-! ### Corrected boundaries -/

section Boundaries

variable (sorter : Sorter FactEvent.chainKey) {events : List FactEvent}

theorem sorted_validFrom (events : List FactEvent) :
  (sorter.sort events).Pairwise fun e f => e.validFrom ≤ f.validFrom
  := by
  apply (sorter.sorted events).imp
  intro e f hef
  obtain hlt | ⟨heq, -⟩ := Prod.Lex.toLex_le_toLex.mp hef
  · apply le_of_lt hlt
  · apply le_of_eq heq

/-- The corrected boundaries are in strictly increasing order of valid time. -/
theorem increasing_correctedBoundaries (events : List FactEvent) :
  Increasing CorrectedBoundary.validFrom (correctedBoundaries sorter events)
  := by
  apply pairwise_map.mpr
  apply pairwise_lastOfRuns
  apply sorted_validFrom

/-- A corrected boundary is made by a newest event of its valid time. -/
theorem exists_of_mem_correctedBoundaries
    {boundary : CorrectedBoundary} (h : boundary ∈ correctedBoundaries sorter events) :
  ∃ e ∈ events, toBoundary e = boundary ∧
    ∀ f ∈ events, f.validFrom = e.validFrom → f.commitSeq ≤ e.commitSeq
  := by
  obtain ⟨e, he, rfl⟩ := mem_map.mp h
  use e, sorter.unlessSorted.mem_sort.mp (mem_of_mem_lastOfRuns _ he), rfl
  intro f hf heq
  apply rank_le_of_mem_lastOfRuns validFrom commitSeq
    (sorter.unlessSorted.sorted events) he (sorter.unlessSorted.mem_sort.mpr hf) heq

/-- Every valid time of an event has a corrected boundary. -/
theorem exists_mem_correctedBoundaries {e : FactEvent} (h : e ∈ events) :
  ∃ boundary ∈ correctedBoundaries sorter events, boundary.validFrom = e.validFrom
  := by
  obtain ⟨f, hf, hfe⟩ :=
    exists_mem_lastOfRuns validFrom (sorter.unlessSorted.mem_sort.mpr h)
  use toBoundary f, mem_map_of_mem hf
  apply hfe

end Boundaries

/-! ### Present state -/

/-- The value which a boundary sets, if it is a PUT. -/
def CorrectedBoundary.state (boundary : CorrectedBoundary) : Option (Option Value) :=
  if boundary.operation = .put then some boundary.value else none

theorem CorrectedBoundary.state_eq_some_iff
    {boundary : CorrectedBoundary} {value : Option Value} :
  boundary.state = some value ↔ boundary.operation = .put ∧ boundary.value = value
  := by
  simp [CorrectedBoundary.state]

theorem presentState_eq_sweep :
    ∀ boundaries : List CorrectedBoundary,
      presentState boundaries =
        sweep CorrectedBoundary.validFrom CorrectedBoundary.state boundaries
  | [] => rfl
  | boundary :: boundaries => by
      rw [presentState, sweep, presentState_eq_sweep boundaries]
      by_cases hput : boundary.operation = .put
      · simp [CorrectedBoundary.state, hput]
      · simp [CorrectedBoundary.state, hput]

/-- The present state is the timeline of the boundaries. -/
theorem materializePresentState_eq_timeline (boundaries : List CorrectedBoundary) :
  materializePresentState boundaries =
    timeline CorrectedBoundary.validFrom CorrectedBoundary.state boundaries
  := by
  rw [materializePresentState, presentState_eq_sweep, coalesce, timeline]

/-! ### The governing event -/

/-- The event is the newest one visible at the snapshot, at the latest valid time not after the
instant `t` that has a visible event. -/
structure GoverningEvent (events : List FactEvent) (snapshotSeq : CommitSeq) (t : ValidTime)
    (event : FactEvent) : Prop where
  mem : event ∈ events
  /-- The snapshot sees the event. -/
  visible : event.commitSeq ≤ snapshotSeq
  /-- The event is effective at the instant. -/
  le : event.validFrom ≤ t
  /-- No visible event takes effect later. -/
  latest : ∀ e ∈ events, e.commitSeq ≤ snapshotSeq → e.validFrom ≤ t →
    e.validFrom ≤ event.validFrom
  /-- No visible event corrects it. -/
  newest : ∀ e ∈ events, e.commitSeq ≤ snapshotSeq → e.validFrom = event.validFrom →
    e.commitSeq ≤ event.commitSeq

section Governing

variable (sorter : Sorter FactEvent.chainKey) {events : List FactEvent} {snapshotSeq : CommitSeq}
  {t : ValidTime}

variable {boundary : CorrectedBoundary} {e : FactEvent}

/-- The boundary which governs an instant is made by a governing event. -/
theorem exists_governingEvent (h : Governs CorrectedBoundary.validFrom
      (correctedBoundaries sorter (visible snapshotSeq events)) t boundary) :
  ∃ event, GoverningEvent events snapshotSeq t event ∧ toBoundary event = boundary
  := by
  obtain ⟨event, hmem, rfl, hnewest⟩ := exists_of_mem_correctedBoundaries sorter h.mem
  obtain ⟨hevent, hvisible⟩ := mem_visible.mp hmem
  use event
  refine ⟨⟨hevent, hvisible, h.le, ?_, ?_⟩, rfl⟩
  · intro e he hseen het
    obtain ⟨b, hb, hbe⟩ := exists_mem_correctedBoundaries sorter (mem_visible.mpr ⟨he, hseen⟩)
    rw [← hbe]
    apply h.latest b hb
    rw [hbe]
    apply het
  · intro e he hseen heq
    apply hnewest e (mem_visible.mpr ⟨he, hseen⟩) heq

/-- Governing events of a chain at one instant are the same. -/
theorem GoverningEvent.unique (hdistinct : (events.map chainKey).Nodup) {f : FactEvent}
    (he : GoverningEvent events snapshotSeq t e) (hf : GoverningEvent events snapshotSeq t f) :
  e = f
  := by
  have htime : e.validFrom = f.validFrom := by
    apply le_antisymm
    · apply hf.latest e he.mem he.visible he.le
    · apply he.latest f hf.mem hf.visible hf.le
  have hcommit : e.commitSeq = f.commitSeq := by
    apply le_antisymm
    · apply hf.newest e he.mem he.visible htime
    · apply he.newest f hf.mem hf.visible htime.symm
  apply inj_on_of_nodup_map hdistinct he.mem hf.mem
  rw [chainKey, chainKey, htime, hcommit]

/-- An instant with a governing event has a governing boundary. -/
theorem GoverningEvent.exists_governs (he : GoverningEvent events snapshotSeq t e) :
  ∃ boundary, Governs CorrectedBoundary.validFrom
    (correctedBoundaries sorter (Cedar.visible snapshotSeq events)) t boundary
  := by
  obtain ⟨b, hb, hbe⟩ :=
    exists_mem_correctedBoundaries sorter (mem_visible.mpr ⟨he.mem, he.visible⟩)
  use b, hb, hbe ▸ he.le
  intro c hc hct
  obtain ⟨f, hf, rfl, -⟩ := exists_of_mem_correctedBoundaries sorter hc
  obtain ⟨hf, hseen⟩ := mem_visible.mp hf
  rw [hbe]
  apply he.latest f hf hseen hct

/-- The boundary made by the governing event of a chain governs the instant. -/
theorem governs_iff (hdistinct : (events.map chainKey).Nodup) :
  Governs CorrectedBoundary.validFrom
      (correctedBoundaries sorter (visible snapshotSeq events)) t boundary ↔
    ∃ event, GoverningEvent events snapshotSeq t event ∧ toBoundary event = boundary
  := by
  constructor
  · apply exists_governingEvent
  · rintro ⟨event, hevent, rfl⟩
    obtain ⟨b, hb⟩ := hevent.exists_governs sorter
    obtain ⟨f, hf, rfl⟩ := exists_governingEvent sorter hb
    rw [hevent.unique hdistinct hf]
    apply hb

end Governing

/-! ### The state of a chain -/

namespace FactChain

variable (chain : FactChain) (snapshotSeq : CommitSeq)

/-- The corrected boundaries of a chain at a snapshot. -/
def boundariesAt : List CorrectedBoundary :=
  correctedBoundaries (Sorter.insertion FactEvent.chainKey) (visible snapshotSeq chain.events)

/-- The maximal intervals of present state of a chain at a snapshot. -/
def stateAt : List StateInterval :=
  materializePresentState (chain.boundariesAt snapshotSeq)

theorem nodup_visible :
  ((visible snapshotSeq chain.events).map chainKey).Nodup
  := by
  apply Nodup.sublist _ chain.distinct
  apply filter_sublist.map

variable {events : List FactEvent}

/-- Whatever the sorter and the order of the events, those of a chain which the snapshot sees
resolve to its boundaries. -/
theorem resolve_eq_boundariesAt_of_visible (sorter : Sorter chainKey)
    (hsubset : ∀ event ∈ events, event ∈ chain.events)
    (hperm : (visible snapshotSeq events).Perm (visible snapshotSeq chain.events)) :
  resolveCorrectedBoundaries sorter events snapshotSeq = .ok (chain.boundariesAt snapshotSeq)
  := by
  have hvisible : visibleEvents snapshotSeq none events = .ok (visible snapshotSeq events) := by
    apply visibleEvents_eq_ok snapshotSeq _ _ none (by simp)
    · exact chain.ref
    · intro event hevent
      apply chain.valid event (hsubset event hevent)
    · intro event hevent
      apply chain.sameRef event (hsubset event hevent)
  rw [resolveCorrectedBoundaries, hvisible, StatusOr.ok_bind, boundariesAt]
  unfold correctedBoundaries
  rw [Sorter.sort_eq_of_perm _ _ hperm.symm (chain.nodup_visible snapshotSeq)]
  rfl

/-- The events of a chain in any order resolve to its boundaries. -/
theorem resolve_eq_boundariesAt (sorter : Sorter chainKey)
    (hperm : events.Perm chain.events) :
  resolveCorrectedBoundaries sorter events snapshotSeq = .ok (chain.boundariesAt snapshotSeq)
  := by
  apply chain.resolve_eq_boundariesAt_of_visible
  · intro event
    apply hperm.mem_iff.mp
  · apply hperm.filter

theorem increasing_boundariesAt :
  Increasing CorrectedBoundary.validFrom (chain.boundariesAt snapshotSeq)
  := increasing_correctedBoundaries _ _

/-- The states of a chain are laid out in order. -/
theorem laid_stateAt :
  Laid (chain.stateAt snapshotSeq)
  := by
  rw [stateAt, materializePresentState_eq_timeline]
  apply laid_timeline
  apply chain.increasing_boundariesAt

variable {snapshotSeq}

end FactChain

/-! ### Correctness -/

/-- The intervals are strictly sorted, pairwise disjoint, not empty, and maximal: no interval
touches the next one with an equal value. -/
structure CanonicalState (states : List StateInterval) : Prop where
  sorted : states.Pairwise fun a b => a.interval.start < b.interval.start
  disjoint : states.Pairwise fun a b => ∀ t, ¬ (a.interval.Contains t ∧ b.interval.Contains t)
  nonempty : ∀ a ∈ states, a.interval.Valid
  maximal : states.IsChain fun a b =>
    ¬ (a.value == b.value ∧ a.interval.stop = some b.interval.start)

/-- The present state of boundaries in order is canonical. -/
theorem canonicalState_materializePresentState
    {boundaries : List CorrectedBoundary}
    (h : Increasing CorrectedBoundary.validFrom boundaries) :
  CanonicalState (materializePresentState boundaries)
  := by
  rw [materializePresentState_eq_timeline]
  have hlaid : Laid (timeline CorrectedBoundary.validFrom CorrectedBoundary.state boundaries) :=
    laid_timeline h
  constructor
  · apply hlaid.ordered.imp_of_mem
    intro p q hp _ hpq
    exact hpq.start_lt (hlaid.valid p hp)
  · apply hlaid.ordered.imp
    rintro a b hab t ⟨ha, hb⟩
    apply lt_irrefl t (hab.lt_of_contains ha hb)
  · apply hlaid.valid
  · apply coalesce_maximal

/-- At every instant the present state shows, up to agreement, the value put by the governing
event. -/
theorem exists_mem_presentState_iff (sorter : Sorter chainKey)
    (hdistinct : (events.map chainKey).Nodup) (snapshotSeq : CommitSeq) (t : ValidTime)
    (value : Option Value) :
  (∃ state ∈ materializePresentState (correctedBoundaries sorter (visible snapshotSeq events)),
      state.interval.Contains t ∧ Agree state.value value) ↔
    ∃ event, GoverningEvent events snapshotSeq t event ∧ event.operation = .put ∧
      Agree event.value value
  := by
  rw [materializePresentState_eq_timeline,
    exists_mem_timeline_iff (increasing_correctedBoundaries sorter _)]
  simp only [governs_iff sorter hdistinct]
  constructor
  · rintro ⟨_, ⟨event, hevent, rfl⟩, v, hv, hagree⟩
    obtain ⟨hput, rfl⟩ := CorrectedBoundary.state_eq_some_iff.mp hv
    use event, hevent, hput, hagree
  · rintro ⟨event, hevent, hput, hagree⟩
    use toBoundary event, ⟨event, hevent, rfl⟩, event.value
    apply And.intro _ hagree
    apply CorrectedBoundary.state_eq_some_iff.mpr ⟨hput, rfl⟩

/-- For the events of a chain, whatever their order, the materialized state at a snapshot is
canonical, and it shows at every instant the value put by the governing event. -/
theorem materializePresentState_resolveCorrectedBoundaries
    (chain : FactChain) (sorter : Sorter FactEvent.chainKey) (snapshotSeq : CommitSeq) :
  ∃ boundaries, resolveCorrectedBoundaries sorter chain.events snapshotSeq = .ok boundaries ∧
    (∀ t value,
      (∃ state ∈ materializePresentState boundaries,
          state.interval.Contains t ∧ Agree state.value value) ↔
        ∃ event, GoverningEvent chain.events snapshotSeq t event ∧ event.operation = .put ∧
          Agree event.value value) ∧
    CanonicalState (materializePresentState boundaries) ∧
    ∀ (sorter' : Sorter FactEvent.chainKey) (events : List FactEvent),
      events.Perm chain.events →
        resolveCorrectedBoundaries sorter' events snapshotSeq = .ok boundaries
  := by
  use chain.boundariesAt snapshotSeq
  use chain.resolve_eq_boundariesAt snapshotSeq sorter (Perm.refl _)
  use exists_mem_presentState_iff (Sorter.insertion _) chain.distinct snapshotSeq
  use canonicalState_materializePresentState (chain.increasing_boundariesAt snapshotSeq)
  intro sorter' events hperm
  apply chain.resolve_eq_boundariesAt snapshotSeq sorter' hperm

/-- A chain in which the second commit corrects what the first one put at 10. -/
def correctionChain : FactChain where
  ref := ⟨0, .vertexProperty, 1, 1⟩
  events :=
    [{ ref := ⟨0, .vertexProperty, 1, 1⟩, validFrom := 20, commitSeq := 1, operation := .delete,
       schemaEpoch := 1 },
     { ref := ⟨0, .vertexProperty, 1, 1⟩, validFrom := 10, commitSeq := 1, schemaEpoch := 1,
       value := some (.int64 5) },
     { ref := ⟨0, .vertexProperty, 1, 1⟩, validFrom := 10, commitSeq := 2, schemaEpoch := 1,
       value := some (.int64 7) }]
  valid := by decide
  sameRef := by decide
  distinct := by decide

theorem materializePresentState_correctionChain :
  ∃ boundaries,
    resolveCorrectedBoundaries (Sorter.insertion _) correctionChain.events 2 = .ok boundaries ∧
    resolveCorrectedBoundaries (Sorter.insertion _) correctionChain.events.reverse 2 =
      .ok boundaries ∧
    materializePresentState boundaries = [⟨⟨10, some 20⟩, some (.int64 7)⟩]
  := by
  obtain ⟨boundaries, hresolve, -, -, hperm⟩ :=
    materializePresentState_resolveCorrectedBoundaries correctionChain (Sorter.insertion _) 2
  use boundaries, hresolve, hperm _ _ (reverse_perm _)
  rw [← Except.ok.inj hresolve]
  decide

end Cedar
