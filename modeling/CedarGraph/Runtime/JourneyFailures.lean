import CedarGraph.Runtime.JourneyLegs

/-!
# Failures of expansions

An expansion of a search for a journey fails if an arrival is not a time, or if a duration is not
known to keep the order of arrivals.  It does not fail because something was not found: this is what
the search itself says at its end.
-/

namespace Cedar

/-! ### Failures -/

namespace StatusOr

variable {α β : Type} {x : StatusOr α} {f : α → StatusOr β}

/-- The operation does not fail because something was not found. -/
def NeverNotFound (x : StatusOr α) : Prop :=
  ∀ error, x = .error error → error.code ≠ .notFound

theorem neverNotFound_ok (a : α) :
  NeverNotFound (.ok a : StatusOr α)
  := by
  rintro _ ⟨⟩

theorem neverNotFound_error {error : StatusError} (h : error.code ≠ .notFound) :
  NeverNotFound (.error error : StatusOr α)
  := by
  rintro _ ⟨⟩
  apply h

theorem NeverNotFound.bind (h : NeverNotFound x) (h' : ∀ a, x = .ok a → NeverNotFound (f a)) :
  NeverNotFound (x >>= f)
  := by
  cases x with
  | error error =>
    rintro _ ⟨⟩
    apply h error rfl
  | ok a => apply h' a rfl

theorem NeverNotFound.collect {g : α → StatusOr (Option β)} (h : ∀ a, NeverNotFound (g a))
    (l : List α) :
  NeverNotFound (StatusOr.collect g l)
  := by
  induction l with
  | nil => apply neverNotFound_ok
  | cons a l ih =>
    apply (h a).bind
    intro _ _
    apply ih.bind
    intro _ _
    apply neverNotFound_ok

end StatusOr

open StatusOr

theorem neverNotFound_addDuration (departure : ValidTime) (duration : ValidDuration) :
  NeverNotFound (addDuration departure duration)
  := by
  rw [addDuration]
  split
  · apply neverNotFound_error (by decide)
  · apply neverNotFound_ok

theorem neverNotFound_callbackFifo {durationAt : ValidTime → StatusOr (Option ValidDuration)}
    (h : ∀ time, NeverNotFound (durationAt time)) (previous : Option ValidTime)
    (times : List ValidTime) :
  NeverNotFound (callbackFifo durationAt previous times)
  := by
  induction times generalizing previous with
  | nil => apply neverNotFound_ok
  | cons time times ih =>
    apply (h time).bind
    intro found _
    split
    · apply ih
    · apply (neverNotFound_addDuration _ _).bind
      intro arrival _
      split
      · apply neverNotFound_error (by decide)
      · apply ih

theorem neverNotFound_durationValue (value : Value) :
  NeverNotFound (durationValue value)
  := by
  rw [durationValue.eq_def]
  split
  · split
    · apply neverNotFound_error (by decide)
    · apply neverNotFound_ok
  · split
    · apply neverNotFound_error (by decide)
    · apply neverNotFound_ok
  · apply neverNotFound_ok
  · apply neverNotFound_error (by decide)

theorem neverNotFound_propertyFifo (effective : ValidTimeInterval) (previous : Option ValidTime)
    (states : List StateInterval) :
  NeverNotFound (propertyFifo effective previous states)
  := by
  induction states generalizing previous with
  | nil => apply neverNotFound_ok
  | cons state states ih =>
    rw [propertyFifo]
    split
    · apply (neverNotFound_durationValue _).bind
      intro duration _
      apply (neverNotFound_addDuration _ _).bind
      intro first _
      split
      · apply neverNotFound_error (by decide)
      · split
        · split
          · apply (neverNotFound_addDuration _ _).bind
            intro _ _
            apply ih
          · apply ih
        · split
          · apply ih
          · apply (neverNotFound_addDuration _ _).bind
            intro _ _
            apply ih
    · apply ih

namespace TemporalGraph

section Failures

variable {graph : TemporalGraph} {request : JourneyRequest}
  {duration : EdgeRef → ValidTime → Option ValidDuration}
  {sorter : Sorter TemporalTraversal.sortKey}

theorem neverNotFound_expandTemporal (expansion : GraphExpansionRequest) :
  NeverNotFound (graph.expandTemporal sorter expansion)
  := by
  rw [expandTemporal]
  split
  · apply neverNotFound_error (by decide)
  · apply neverNotFound_ok

theorem neverNotFound_checkPropertyFifo (oriented : TemporalTraversal) :
  NeverNotFound (graph.checkPropertyFifo request oriented)
  := by
  rw [checkPropertyFifo]
  split
  · apply neverNotFound_propertyFifo
  · apply neverNotFound_ok

variable (hduration : ∀ edge time,
  graph.propertyDuration request edge time = .ok (duration edge time))

include hduration

theorem neverNotFound_propertyDuration (edge : EdgeRef) (time : ValidTime) :
  NeverNotFound (graph.propertyDuration request edge time)
  := by
  rw [hduration]
  apply neverNotFound_ok

/-- A duration which is given is checked without a failure of its own. -/
theorem neverNotFound_checkCallback (traversal : TemporalTraversal) :
  NeverNotFound (validateCallbackFifo request traversal)
  := by
  rw [validateCallbackFifo]
  split
  · apply neverNotFound_ok
  case h_2 durationAt hdurationAt =>
    split
    · apply neverNotFound_error (by decide)
    · split
      · apply neverNotFound_ok
      · split
        · apply neverNotFound_error (by decide)
        · apply neverNotFound_callbackFifo
          intro time
          have h := neverNotFound_propertyDuration hduration traversal.edge time
          rw [propertyDuration, hdurationAt] at h
          apply h

theorem neverNotFound_expandAt (vertex : VertexRef) (arrival : ValidTime) :
  NeverNotFound (graph.expandAt sorter request vertex arrival)
  := by
  apply (neverNotFound_expandTemporal _).bind
  intro rows _
  apply NeverNotFound.collect
  intro traversal
  apply (neverNotFound_checkCallback hduration traversal).bind
  intro _ _
  split
  · apply neverNotFound_ok
  · apply (neverNotFound_checkPropertyFifo _).bind
    intro _ _
    dsimp only
    generalize (if arrival < _ then _ else arrival) = departure
    split
    · apply neverNotFound_ok
    · apply (neverNotFound_propertyDuration hduration _ _).bind
      intro _ _
      split
      · apply neverNotFound_ok
      · apply (neverNotFound_addDuration _ _).bind
        intro _ _
        split
        · apply neverNotFound_ok
        · split
          · apply neverNotFound_ok
          · apply neverNotFound_ok

theorem neverNotFound_feasibleBy (deadline : ValidTime) (oriented : TemporalTraversal)
    (point : ValidTime) :
  NeverNotFound (graph.feasibleBy request deadline oriented point)
  := by
  apply (neverNotFound_propertyDuration hduration _ _).bind
  intro _ _
  split
  · apply neverNotFound_ok
  · apply (neverNotFound_addDuration _ _).bind
    intro _ _
    split
    · apply neverNotFound_ok
    · split
      · apply neverNotFound_ok
      · apply neverNotFound_ok

theorem neverNotFound_arriveBy (target : VertexRef) (deadline : ValidTime) (finalTarget : Bool)
    (raw : TemporalTraversal) :
  NeverNotFound (graph.arriveBy request target deadline finalTarget raw)
  := by
  have hlatest : ∀ oriented lower n,
      NeverNotFound (latestFeasible (graph.feasibleBy request deadline oriented) lower n) := by
    intro oriented lower n
    induction n with
    | zero =>
      apply (neverNotFound_feasibleBy hduration _ _ _).bind
      intro _ _
      split
      · apply neverNotFound_ok
      · apply neverNotFound_ok
    | succ n ih =>
      apply (neverNotFound_feasibleBy hduration _ _ _).bind
      intro _ _
      split
      · apply neverNotFound_ok
      · apply ih
  rw [arriveBy]
  split
  · apply neverNotFound_ok
  · apply (neverNotFound_checkCallback hduration _).bind
    intro _ _
    apply (neverNotFound_checkPropertyFifo _).bind
    intro _ _
    dsimp only
    split
    · apply neverNotFound_ok
    · split
      · apply neverNotFound_ok
      · apply (hlatest _ _ _).bind
        intro _ _
        split
        · apply neverNotFound_ok
        · apply (neverNotFound_propertyDuration hduration _ _).bind
          intro _ _
          split
          · apply neverNotFound_ok
          · apply (neverNotFound_addDuration _ _).bind
            intro _ _
            apply neverNotFound_ok

end Failures

end TemporalGraph

end Cedar
