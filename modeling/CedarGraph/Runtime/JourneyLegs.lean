import CedarGraph.Runtime.Journey

/-!
# The legs of journeys

A leg is an edge which is taken from a departure to an arrival.  It is feasible if the edge has a
duration at the departure, and is present with both of its ends from the departure to the arrival.

The expansions of the searches yield feasible legs.  The one forward takes a fragment of an edge as
soon as it is present.  The one backward takes it as late as possible, so that no feasible leg in
the same fragment departs later.
-/

namespace Cedar

open Except ExpandDirection GraphExpansionRequest Option StatusOr TemporalTraversal EntityFact

/-- An edge which is taken from a departure to an arrival. -/
structure JourneyLeg where
  source : VertexRef
  edge : EdgeRef
  target : VertexRef
  departure : ValidTime
  arrival : ValidTime
  deriving DecidableEq

def JourneyTraversal.leg (step : JourneyTraversal) : JourneyLeg :=
  ⟨step.traversal.source, step.traversal.edge, step.traversal.target, step.departure, step.arrival⟩

/-! ### Presence -/

/-- Canonical state is laid out in order. -/
theorem CanonicalState.laid {states : List StateInterval} (h : CanonicalState states) :
  Timeline.Laid states
  where
  ordered := by
    apply (h.sorted.and h.disjoint).imp_of_mem
    rintro a b - hb ⟨hlt, hdisjoint⟩
    -- the start of the later interval is not in the earlier one
    apply Span.exists_stop_le _ (le_of_lt hlt)
    intro ha
    apply hdisjoint b.interval.start ⟨ha, (h.nonempty b hb).contains_start⟩
  valid := h.nonempty

namespace TemporalGraph

variable {graph : TemporalGraph} {ref : FactRef} {s t : ValidTime}

/-- What is present throughout an interval is so in one of its maximal intervals. -/
theorem exists_state_of_present (hstate : ref.isProperty = false) (hle : s ≤ t)
    (h : ∀ r, s ≤ r → r ≤ t → graph.Effective ref r) :
  ∃ state ∈ graph.presentIntervals ref, state.interval.Contains s ∧ state.interval.Contains t
  := by
  have hcanonical := graph.canonical ref
  obtain ⟨state, hmem, hs⟩ := h s (le_refl s) hle
  use state, hmem, hs
  by_contra ht
  -- otherwise the interval ends before `t`, where another one begins, so that they touch
  obtain ⟨stop, hstop, hstopt⟩ := Span.exists_stop_le ht (le_trans hs.1 hle)
  have hsstop : s < stop := hs.2 stop hstop
  obtain ⟨other, hother, hcontains⟩ := h stop (le_of_lt hsstop) hstopt
  have hne : other ≠ state := by
    rintro rfl
    apply lt_irrefl stop (hcontains.2 stop hstop)
  have hstart : other.interval.start = stop := by
    by_contra hne'
    have hlt : other.interval.start < stop := lt_of_le_of_ne hcontains.1 hne'
    apply hne
    apply @Timeline.Laid.eq_of_contains _ _ _ _ _ _ hcanonical.laid hother hmem
    · apply hcontains.of_le (le_max_right _ _) (max_le (le_of_lt hsstop) (le_of_lt hlt))
    · refine ⟨le_trans hs.1 (le_max_left _ _), ?_⟩
      rw [hstop]
      rintro _ ⟨⟩
      apply max_lt hsstop hlt
  apply hcanonical.laid.not_mergeable hcanonical.maximal hmem hother
  constructor
  · rw [graph.valueless ref hstate state hmem, graph.valueless ref hstate other hother]
    rfl
  · rw [Span.Meets, hstop, hstart]

/-- The vertex is present from an arrival until the next departure. -/
def Waits (graph : TemporalGraph) (vertex : VertexRef) (s t : ValidTime) : Prop :=
  ∀ r, s ≤ r → r < t → graph.Effective (EntityFact.vertex vertex) r

/-- The check of a wait asks whether the vertex is present. -/
theorem coversWaitingInterval_iff {vertex : VertexRef} :
  coversWaitingInterval (graph.vertexIntervals vertex) s t ↔ graph.Waits vertex s t
  := by
  simp only [coversWaitingInterval, decide_eq_true_eq, all_eq_true, not_lt]
  constructor
  · rintro (hle | ⟨state, hmem, hstart, hstop⟩) r hs ht
    · cases not_lt_of_ge (le_trans hle hs) ht
    · use state, hmem
      refine ⟨le_trans hstart hs, fun stop hmem => ?_⟩
      apply lt_of_lt_of_le ht (hstop stop hmem)
  · intro h
    by_cases hle : t ≤ s
    · apply Or.inl hle
    · apply Or.inr
      -- the vertex is present at the last instant of the wait in the same interval
      obtain ⟨state, hmem, hs, ht⟩ := @exists_state_of_present graph
        (EntityFact.vertex vertex) s (t - 1) rfl (by grind) (by
          intro r hr hrt
          apply h r hr
          grind)
      use state, hmem, hs.1
      intro stop hstop
      have hbefore := ht.2 stop hstop
      grind

end TemporalGraph

/-! ### Times of a traversal -/

/-- The arrival is the departure and the duration, if this is a time. -/
theorem addDuration_eq_ok_iff {departure arrival : ValidTime} {duration : ValidDuration} :
  addDuration departure duration = .ok arrival ↔
    arrival.toNat = departure.toNat + duration.toNat
  := by
  have hlast : (-1 - departure).toNat = 2 ^ 64 - 1 - departure.toNat := by
    rw [UInt64.toNat_sub_of_le _ _ (Word.le_neg_one departure)]
    rfl
  have hlt := departure.toNat_lt
  have harrival := arrival.toNat_lt
  rw [addDuration]
  split
  case isTrue hover =>
    rw [gt_iff_lt, UInt64.lt_iff_toNat_lt] at hover
    constructor
    · rintro ⟨⟩
    · intro heq
      omega
  case isFalse hfit =>
    rw [gt_iff_lt, UInt64.lt_iff_toNat_lt] at hfit
    have hsum : (departure + duration).toNat = departure.toNat + duration.toNat := by
      rw [UInt64.toNat_add]
      omega
    rw [← hsum, ok.injEq, UInt64.toNat_inj, eq_comm]

/-- A traversal fits into an interval which contains its departure and its arrival. -/
theorem traversalFits_iff {effective : ValidTimeInterval} {departure arrival : ValidTime}
    {duration : ValidDuration} (harrival : arrival.toNat = departure.toNat + duration.toNat) :
  traversalFits effective departure duration ↔
    effective.Contains departure ∧ effective.Contains arrival
  := by
  have hle : departure ≤ arrival := by
    rw [UInt64.le_iff_toNat_le]
    omega
  have hcontains : ∀ t, effective.Contains t ↔ effective.start ≤ t ∧
      ∀ stop, effective.stop = some stop → t < stop := fun _ => Iff.rfl
  rw [traversalFits, hcontains, hcontains]
  split
  case isTrue hearly =>
    simp only [Bool.false_eq_true, false_iff]
    rintro ⟨⟨hstart, -⟩, -⟩
    apply not_le_of_gt hearly hstart
  case isFalse hstart =>
    rw [not_lt] at hstart
    rcases effective.stop with - | stop
    · simp [hstart, le_trans hstart hle]
    · simp only [some.injEq, forall_eq', hstart, le_trans hstart hle, true_and]
      split
      case isTrue hlate =>
        simp only [Bool.false_eq_true, false_iff, not_and]
        intro hlt
        cases not_le_of_gt hlt hlate
      case isFalse hbefore =>
        rw [not_le] at hbefore
        have hdiff := UInt64.toNat_sub_of_le _ _ (le_of_lt hbefore)
        have hlt := UInt64.lt_iff_toNat_lt.mp hbefore
        have hzero : duration = 0 ↔ duration.toNat = 0 := by
          rw [← UInt64.toNat_inj, UInt64.toNat_zero]
        simp only [decide_eq_true_eq, UInt64.lt_iff_toNat_lt, hzero]
        omega

/-! ### Registered durations -/

section Fifo

/-- A departure within an interval arrives at a time, with the duration registered for it. -/
def ArrivesAt (effective : ValidTimeInterval) (states : List StateInterval) (t : ValidTime)
    (arrival : Nat) : Prop :=
  effective.Contains t ∧ ∃ state ∈ states, state.interval.Contains t ∧
    ∃ value ∈ state.value, ∃ lasting, durationValue value = .ok lasting ∧
      arrival = t.toNat + lasting.toNat

variable {effective clipped : ValidTimeInterval} {state : StateInterval}
  {states : List StateInterval} {t stop : ValidTime} {arrival : Nat} {value : Value}
  {lasting : ValidDuration}

theorem arrivesAt_cons :
  ArrivesAt effective (state :: states) t arrival ↔
    ArrivesAt effective [state] t arrival ∨ ArrivesAt effective states t arrival
  := by
  simp only [ArrivesAt, List.exists_mem_cons_iff, List.not_mem_nil, false_and, exists_false,
    or_false]
  apply and_or_left

/-- An intersection with a bounded interval has a last instant. -/
theorem exists_last_of_intersect (hbounded : effective.stop = some stop)
    (hclipped : intersect state.interval effective = some clipped) :
  ∃ stop, clipped.stop = some stop ∧ ¬ stop ≤ clipped.start ∧ clipped.Contains (stop - 1) ∧
    ∀ t, clipped.Contains t → t ≤ stop - 1
  := by
  have hvalid := valid_of_intersect hclipped
  cases hstop : clipped.stop with
  | none =>
    have hcontains := (@contains_of_intersect _ _ _ (laterStart clipped.start stop) hclipped).mp
      ⟨(laterStart_le_iff.mp le_rfl).1, by simp [hstop]⟩
    cases not_lt_of_ge (laterStart_le_iff.mp le_rfl).2 (hcontains.2.2 stop hbounded)
  | some last =>
    have hlt := hvalid last hstop
    refine ⟨last, rfl, not_le.mpr hlt, ⟨by grind, ?_⟩, ?_⟩
    · rintro _ h
      grind
    · intro t ht
      have := ht.2 last hstop
      grind

variable (hbounded : effective.stop = some stop)
  (hordered : states.Pairwise fun a b => a.interval.Before b.interval)
  (hvalues : ∀ state ∈ states, ∀ value ∈ state.value, ∃ lasting, durationValue value = .ok lasting)
  (hfits : ∀ t arrival, ArrivesAt effective states t arrival → arrival < 2 ^ 64)

include hbounded hordered hvalues hfits

/-- The rest of the check passes if no departure arrives earlier than one before it. -/
theorem propertyFifo_eq_ok_iff_of_previous {previous : Option ValidTime} :
  propertyFifo effective previous states = .ok () ↔
    (∀ p ∈ previous, ∀ t arrival, ArrivesAt effective states t arrival → p.toNat ≤ arrival) ∧
    ∀ t t' arrival arrival', t < t' → ArrivesAt effective states t arrival →
      ArrivesAt effective states t' arrival' → arrival ≤ arrival'
  := by
  induction states generalizing previous with
  | nil => simp [propertyFifo, ArrivesAt]
  | cons state states ih =>
    obtain ⟨hbefore, hordered⟩ := List.pairwise_cons.mp hordered
    obtain ⟨hvalue, hvalues⟩ := List.forall_mem_cons.mp hvalues
    have hrest := fun t arrival h => hfits t arrival (arrivesAt_cons.mpr (Or.inr h))
    rw [propertyFifo]
    split
    case h_1 clipped value hclipped hsome =>
      obtain ⟨lasting, hlasting⟩ := hvalue value hsome
      have hone : ∀ t arrival, ArrivesAt effective [state] t arrival ↔
          clipped.Contains t ∧ arrival = t.toNat + lasting.toNat := by
        intro t arrival
        rw [contains_of_intersect hclipped]
        simp [ArrivesAt, hsome, hlasting]
        tauto
      obtain ⟨last, hlast, hlt, hcontains, hmax⟩ := exists_last_of_intersect hbounded hclipped
      have hstart := (valid_of_intersect hclipped).contains_start
      have hadd : ∀ t, clipped.Contains t → ∃ arrival, addDuration t lasting = .ok arrival ∧
          arrival.toNat = t.toNat + lasting.toNat := by
        intro t ht
        have hlt := hfits t _ (arrivesAt_cons.mpr (Or.inl ((hone _ _).mpr ⟨ht, rfl⟩)))
        use .ofNat (t.toNat + lasting.toNat)
        rw [addDuration_eq_ok_iff, and_self, UInt64.toNat_ofNat_of_lt' hlt]
      obtain ⟨first, hfirst, hfirst'⟩ := hadd _ hstart
      obtain ⟨final, hfinal, hfinal'⟩ := hadd _ hcontains
      have hbetween : ∀ t t' arrival, clipped.Contains t → ArrivesAt effective states t' arrival →
          t < t' := by
        rintro t t' arrival ht ⟨-, other, hother, ht', -⟩
        apply (hbefore other hother).lt_of_contains ((contains_of_intersect hclipped).mp ht).1 ht'
      rw [hlasting, ok_bind, hfirst, ok_bind, hlast]
      dsimp only
      rw [if_neg hlt, hfinal, ok_bind]
      apply guard_eq_ok_iff.trans
      rw [ih hordered hvalues hrest]
      simp only [arrivesAt_cons, hone, any_eq_true, decide_eq_true_eq, not_exists, not_and, not_lt,
        UInt64.le_iff_toNat_le, mem_some_iff, forall_eq'] at hmax ⊢
      constructor
      · rintro ⟨hprevious, hlater, hfifo⟩
        constructor
        · rintro p hp t arrival (⟨ht, rfl⟩ | h)
          · have hle := hprevious p hp
            have hle' := UInt64.le_iff_toNat_le.mp ht.1
            omega
          · have hle := hprevious p hp
            have hle' := hmax _ hstart
            have hle'' := hlater t arrival h
            omega
        · rintro t t' arrival arrival' hlt (⟨ht, rfl⟩ | h) (⟨ht', rfl⟩ | h')
          · rw [UInt64.lt_iff_toNat_lt] at hlt
            omega
          · have hle := hmax t ht
            have hle' := hlater t' arrival' h'
            omega
          · cases lt_asymm hlt (hbetween t' t arrival ht' h)
          · apply hfifo t t' arrival arrival' hlt h h'
      · rintro ⟨hprevious, hfifo⟩
        refine ⟨?_, ?_, ?_⟩
        · intro p hp
          apply hprevious p hp clipped.start _ (Or.inl ⟨hstart, hfirst'⟩)
        · intro t arrival h
          apply hfifo _ t _ arrival (hbetween _ t arrival hcontains h)
            (Or.inl ⟨hcontains, hfinal'⟩) (Or.inr h)
        · intro t t' arrival arrival' hlt h h'
          apply hfifo t t' arrival arrival' hlt (Or.inr h) (Or.inr h')
    case h_2 hskip =>
      have hnone : ∀ t arrival, ¬ ArrivesAt effective [state] t arrival := by
        rintro t arrival ⟨ht, _, hmem, hstate, value, hvalue, -⟩
        rw [List.mem_singleton.mp hmem] at hstate hvalue
        rcases hclipped : intersect state.interval effective with - | clipped
        · apply not_contains_of_intersect hclipped ⟨hstate, ht⟩
        · apply hskip clipped value hclipped hvalue
      simp only [arrivesAt_cons, hnone, false_or]
      apply ih hordered hvalues hrest

/-- The check of a registered duration in a bounded interval, in which no arrival overflows, passes
if and only if a later departure does not arrive earlier. -/
theorem propertyFifo_eq_ok_iff :
  propertyFifo effective none states = .ok () ↔
    ∀ t t' arrival arrival', t < t' → ArrivesAt effective states t arrival →
      ArrivesAt effective states t' arrival' → arrival ≤ arrival'
  := by
  rw [propertyFifo_eq_ok_iff_of_previous hbounded hordered hvalues hfits]
  simp

end Fifo

/-- A ferry takes 5 until 10 and then, after a pause, 1. -/
def pausingStates : List StateInterval :=
  [⟨⟨0, some 10⟩, some (.int64 5)⟩, ⟨⟨20, some 30⟩, some (.int64 1)⟩]

theorem propertyFifo_pausingStates :
  propertyFifo ⟨0, some 50⟩ none pausingStates = .ok () ∧
    ∀ t t' arrival arrival', t < t' → ArrivesAt ⟨0, some 50⟩ pausingStates t arrival →
      ArrivesAt ⟨0, some 50⟩ pausingStates t' arrival' → arrival ≤ arrival'
  := by
  have hvalues : ∀ state ∈ pausingStates, ∀ value ∈ state.value, ∃ lasting ≤ 5,
      durationValue value = .ok lasting := by
    simp only [pausingStates, List.forall_mem_cons, mem_some_iff, forall_eq']
    exact ⟨⟨5, by decide, rfl⟩, ⟨1, by decide, rfl⟩, List.forall_mem_nil _⟩
  have hfifo : propertyFifo ⟨0, some 50⟩ none pausingStates = .ok () := by
    decide
  use hfifo
  apply (propertyFifo_eq_ok_iff rfl _ _ _).mp hfifo
  · simp [pausingStates, Span.Before]
  · intro state hstate value hvalue
    obtain ⟨lasting, -, hlasting⟩ := hvalues state hstate value hvalue
    exact ⟨lasting, hlasting⟩
  · rintro t _ ⟨ht, state, hstate, -, value, hvalue, lasting, hlasting, rfl⟩
    obtain ⟨_, hle, hlasting'⟩ := hvalues state hstate value hvalue
    rw [hlasting] at hlasting'
    obtain rfl := ok.inj hlasting'
    have hlt := UInt64.lt_iff_toNat_lt.mp (ht.2 50 rfl)
    have hle' := UInt64.le_iff_toNat_le.mp hle
    simp at hlt hle'
    omega

namespace TemporalGraph

/-! ### Feasible legs -/

section Legs

variable (graph : TemporalGraph) (request : JourneyRequest)
  (duration : EdgeRef → ValidTime → Option ValidDuration)

/-- An edge is taken within the requested interval, for its duration at the departure, and it is
present with both of its ends meanwhile. -/
structure FeasibleVia (identity : EdgeIdentity) (leg : JourneyLeg) : Prop where
  mem : identity ∈ graph.identities
  type : ∀ edgeType ∈ request.edgeType, identity.edgeType = edgeType
  leads : (request.expansion leg.source).Leads identity leg.source leg.target
  edge : leg.edge = identity.edgeRef
  duration : ∃ lasting, duration leg.edge leg.departure = some lasting ∧
    leg.arrival.toNat = leg.departure.toNat + lasting.toNat
  departs : request.interval.Contains leg.departure
  arrives : request.interval.Contains leg.arrival
  present : ∀ t, leg.departure ≤ t → t ≤ leg.arrival → graph.Traversable identity t

/-- The leg is feasible along some edge. -/
def FeasibleLeg (leg : JourneyLeg) : Prop :=
  ∃ identity, graph.FeasibleVia request duration identity leg

/-- After a wait the edge is taken as soon as it is present with its ends. -/
structure PromptVia (s : ValidTime) (identity : EdgeIdentity) (leg : JourneyLeg) : Prop where
  feasible : graph.FeasibleVia request duration identity leg
  after : s ≤ leg.departure
  waits : graph.Waits leg.source s leg.departure
  prompt : leg.departure = s ∨ ¬ graph.Traversable identity (leg.departure - 1)

variable {graph request duration} {identity : EdgeIdentity} {leg : JourneyLeg}

/-- A leg does not arrive before it departs. -/
theorem FeasibleVia.le (h : graph.FeasibleVia request duration identity leg) :
  leg.departure ≤ leg.arrival
  := by
  obtain ⟨lasting, -, heq⟩ := h.duration
  rw [UInt64.le_iff_toNat_le]
  omega

variable {interval : ValidTimeInterval} {t : ValidTime}

/-- Where the edge and its ends are present throughout, they are so in one traversal. -/
theorem exists_traversal_of_present {s : ValidTime} (hle : s ≤ t) (hs : interval.Contains s)
    (ht : interval.Contains t) (h : ∀ r, s ≤ r → r ≤ t → graph.Traversable identity r) :
  ∃ traversal ∈ graph.traversals interval identity,
    traversal.effective.Contains s ∧ traversal.effective.Contains t
  := by
  obtain ⟨edge, hedge, hes, het⟩ := @exists_state_of_present graph
    (edge identity.edgeRef) s t rfl hle fun r hs ht => (h r hs ht).edge
  obtain ⟨source, hsource, hss, hst⟩ := @exists_state_of_present graph
    (vertex identity.sourceRef) s t rfl hle fun r hs ht => (h r hs ht).source
  obtain ⟨target, htarget, hts, htt⟩ := @exists_state_of_present graph
    (vertex identity.targetRef) s t rfl hle fun r hs ht => (h r hs ht).target
  obtain ⟨traversal, hmem, hiff⟩ :=
    exists_mem_traversals_of_states hedge hsource htarget hs hes hss hts
  use traversal, hmem, (hiff s).mpr ⟨hs, hes, hss, hts⟩
  apply (hiff t).mpr ⟨ht, het, hst, htt⟩

/-- Two traversals of an edge with a common instant are effective at the same instants. -/
theorem contains_iff_of_mem_traversals {traversal other : TemporalTraversal}
    (hmem : traversal ∈ graph.traversals interval identity)
    (hother : other ∈ graph.traversals interval identity) (ht : traversal.effective.Contains t)
    (ht' : other.effective.Contains t) (r : ValidTime) :
  traversal.effective.Contains r ↔ other.effective.Contains r
  := by
  obtain ⟨edge, hedge, source, hsource, target, htarget, clipped, hclipped, rfl⟩ :=
    mem_traversals_iff.mp hmem
  obtain ⟨edge', hedge', source', hsource', target', htarget', clipped', hclipped', rfl⟩ :=
    mem_traversals_iff.mp hother
  obtain ⟨-, he, hs, ht⟩ := (contains_clipped hclipped).mp ht
  obtain ⟨-, he', hs', ht'⟩ := (contains_clipped hclipped').mp ht'
  obtain rfl := (graph.canonical _).laid.eq_of_contains hedge hedge' he he'
  obtain rfl := (graph.canonical _).laid.eq_of_contains hsource hsource' hs hs'
  obtain rfl := (graph.canonical _).laid.eq_of_contains htarget htarget' ht ht'
  exact (contains_clipped hclipped).trans (contains_clipped hclipped').symm

/-- A traversal which starts within the interval starts where the edge and its ends begin to be
present. -/
theorem not_traversable_before_start {traversal : TemporalTraversal}
    (hmem : traversal ∈ graph.traversals interval identity)
    (hstart : interval.start < traversal.effective.start) :
  ¬ graph.Traversable identity (traversal.effective.start - 1)
  := by
  intro hbefore
  have hfirst := (valid_of_mem_traversals hmem).contains_start
  obtain ⟨hin, htraversable⟩ := traversable_of_mem_traversals hmem hfirst
  have hle : traversal.effective.start - 1 ≤ traversal.effective.start := by
    grind
  have hin' : interval.Contains (traversal.effective.start - 1) := by
    apply hin.of_le _ hle
    grind
  obtain ⟨other, hother, hs, ht⟩ := exists_traversal_of_present hle hin' hin (by
    intro r hr hr'
    rcases eq_or_lt_of_le hr with rfl | hr
    · apply hbefore
    · have heq : r = traversal.effective.start := by
        grind
      rw [heq]
      apply htraversable)
  -- the traversal would contain the instant before its start
  have hearly := ((contains_iff_of_mem_traversals hmem hother hfirst ht _).mpr hs).1
  grind

/-- The fragment of a feasible leg. -/
theorem FeasibleVia.exists_traversal (h : graph.FeasibleVia request duration identity leg) :
  ∃ traversal ∈ graph.traversals request.interval identity,
    traversal.effective.Contains leg.departure ∧ traversal.effective.Contains leg.arrival
  := exists_traversal_of_present h.le h.departs h.arrives h.present

end Legs

end TemporalGraph

/-! ### Orientation -/

section Orient

variable {request : JourneyRequest} {identity : EdgeIdentity} {traversal oriented : TemporalTraversal}
  {vertex other : VertexRef}

/-- An oriented traversal leads from the vertex along the edge. -/
theorem TemporalTraversal.orient_eq_some_iff (hsource : traversal.source = identity.sourceRef)
    (htarget : traversal.target = identity.targetRef) :
  (∃ oriented, traversal.orient request.direction vertex = some oriented ∧
      oriented.target = other) ↔ (request.expansion vertex).Leads identity vertex other
  := by
  rw [Leads]
  have hdirection : (request.expansion vertex).direction = request.direction := rfl
  rw [hdirection]
  cases request.direction with
  | out => grind [orient]
  | into | both => grind [orient, swap]

theorem TemporalTraversal.of_orient
    (h : traversal.orient request.direction vertex = some oriented) :
  oriented.source = vertex ∧ oriented.edge = traversal.edge ∧
    oriented.effective = traversal.effective
  := by
  cases hdirection : request.direction with
  | out => grind [orient]
  | into | both => grind [orient, swap]

/-- A traversal oriented into a vertex leads to it along the edge. -/
theorem TemporalTraversal.orientInto_eq_some_iff (hsource : traversal.source = identity.sourceRef)
    (htarget : traversal.target = identity.targetRef) :
  (∃ oriented, traversal.orientInto request.direction vertex = some oriented ∧
      oriented.source = other) ↔ (request.expansion other).Leads identity other vertex
  := by
  rw [Leads]
  have hdirection : (request.expansion other).direction = request.direction := rfl
  rw [hdirection]
  cases request.direction with
  | out => grind [orientInto]
  | into | both => grind [orientInto, swap]

theorem TemporalTraversal.of_orientInto
    (h : traversal.orientInto request.direction vertex = some oriented) :
  oriented.target = vertex ∧ oriented.edge = traversal.edge ∧
    oriented.effective = traversal.effective
  := by
  cases hdirection : request.direction with
  | out => grind [orientInto]
  | into | both => grind [orientInto, swap]

end Orient

/-- The collected results are those of the entries. -/
theorem StatusOr.mem_collect_iff {α β : Type} {f : α → StatusOr (Option β)} {l : List α}
    {m : List β} (h : collect f l = .ok m) {b : β} :
  b ∈ m ↔ ∃ a ∈ l, f a = .ok (some b)
  := by
  induction l generalizing m with
  | nil =>
    rw [← ok.inj h]
    simp
  | cons a l ih =>
    obtain ⟨result, hresult, h⟩ := bind_eq_ok_iff.mp h
    obtain ⟨results, hresults, h⟩ := bind_eq_ok_iff.mp h
    rw [← ok.inj h, List.mem_append, ih hresults, List.exists_mem_cons_iff, hresult]
    simp

/-- Every entry has a result. -/
theorem StatusOr.exists_of_collect {α β : Type} {f : α → StatusOr (Option β)} {l : List α}
    {m : List β} (h : collect f l = .ok m) {a : α} (ha : a ∈ l) :
  ∃ result, f a = .ok result
  := by
  induction l generalizing m with
  | nil => cases ha
  | cons a' l ih =>
    obtain ⟨result, hresult, h⟩ := bind_eq_ok_iff.mp h
    obtain ⟨results, hresults, -⟩ := bind_eq_ok_iff.mp h
    rcases List.mem_cons.mp ha with rfl | ha
    · use result
    · apply ih hresults ha

namespace TemporalGraph

section Depart

variable {graph : TemporalGraph} {request : JourneyRequest}
  {duration : EdgeRef → ValidTime → Option ValidDuration} {identity : EdgeIdentity}
  {leg : JourneyLeg} {traversal : TemporalTraversal} {vertex : VertexRef} {s : ValidTime}

/-- A leg is feasible if a traversal of its edge is effective from its departure to its arrival. -/
theorem feasibleVia_of_contains {lasting : ValidDuration}
    (h : identity ∈ graph.identities ∧
      (request.expansion leg.source).Leads identity leg.source leg.target ∧
      leg.edge = identity.edgeRef ∧ ∃ traversal ∈ graph.traversals request.interval identity,
        traversal.effective.Contains leg.departure ∧ traversal.effective.Contains leg.arrival)
    (htype : ∀ edgeType ∈ request.edgeType, identity.edgeType = edgeType)
    (hduration : duration leg.edge leg.departure = some lasting)
    (harrival : leg.arrival.toNat = leg.departure.toNat + lasting.toNat) :
  graph.FeasibleVia request duration identity leg
  := by
  obtain ⟨hidentity, hleads, hedge, traversal, hmem, hdeparts, harrives⟩ := h
  exact {
    mem := hidentity
    type := htype
    leads := hleads
    edge := hedge
    duration := ⟨lasting, hduration, harrival⟩
    departs := (traversable_of_mem_traversals hmem hdeparts).1
    arrives := (traversable_of_mem_traversals hmem harrives).1
    present := fun t hle hle' => (traversable_of_mem_traversals hmem
      (harrives.of_le (le_trans hdeparts.1 hle) hle')).2 }

variable (hduration : ∀ edge time,
  graph.propertyDuration request edge time = .ok (duration edge time))

include hduration in
/-- A departure is as soon as possible. -/
theorem promptVia_of_departAt {step : JourneyTraversal}
    (hmem : traversal ∈ graph.traversals request.interval identity)
    (hidentity : identity ∈ graph.identities)
    (htype : ∀ edgeType ∈ request.edgeType, identity.edgeType = edgeType)
    (hs : request.interval.start ≤ s)
    (h : graph.departAt request vertex s traversal = .ok (some step)) :
  step.leg.source = vertex ∧ graph.PromptVia request duration s identity step.leg
  := by
  obtain ⟨_, -, h⟩ := bind_eq_ok_iff.mp h
  obtain ⟨hsource, hedge, htarget, -⟩ := eq_of_mem_traversals hmem
  split at h
  · cases h
  case h_2 oriented horient =>
    obtain ⟨_, -, h⟩ := bind_eq_ok_iff.mp h
    obtain ⟨hvertex, hedge', heffective⟩ := of_orient horient
    have hleads := (orient_eq_some_iff hsource htarget).mp
      ⟨oriented, horient, rfl⟩
    dsimp only at h
    -- the departure is the arrival, or the start of the fragment if this is later
    generalize hdeparture : (if s < oriented.effective.start then oriented.effective.start
      else s) = departure at h
    have hcases : departure = s ∨ s < departure ∧ departure = oriented.effective.start := by
      rw [← hdeparture]
      split
      case isTrue hlt => apply Or.inr ⟨hlt, rfl⟩
      case isFalse => apply Or.inl rfl
    split at h
    · cases h
    case isFalse hwait =>
      obtain ⟨found, hfound, h⟩ := bind_eq_ok_iff.mp h
      rw [hduration] at hfound
      split at h
      · cases h
      case h_2 lasting =>
        obtain ⟨stop, hstop, h⟩ := bind_eq_ok_iff.mp h
        have harrival := addDuration_eq_ok_iff.mp hstop
        split at h
        · cases h
        case isFalse hfits =>
          split at h
          · cases h
          · obtain rfl := some.inj (ok.inj h)
            rw [not_not, traversalFits_iff harrival, heffective] at hfits
            rw [← hvertex] at hleads
            use hvertex
            refine ⟨feasibleVia_of_contains ⟨hidentity, hleads, hedge'.trans hedge, traversal, hmem,
              hfits⟩ htype (ok.inj hfound) harrival, ?_, ?_, ?_⟩
            · rcases hcases with heq | ⟨hlt, -⟩
              · apply le_of_eq heq.symm
              · apply le_of_lt hlt
            · intro r hr hlt
              have hcovers := not_not.mp (not_and.mp hwait (lt_of_le_of_lt hr hlt))
              apply coversWaitingInterval_iff.mp hcovers r hr hlt
            · rcases hcases with heq | ⟨hlt, heq⟩
              · apply Or.inl heq
              · apply Or.inr
                rw [heq, heffective] at hlt
                rw [heq, heffective]
                apply not_traversable_before_start hmem (lt_of_le_of_lt hs hlt)

include hduration in
/-- A leg which departs as soon as possible is found. -/
theorem exists_departAt {result : Option JourneyTraversal}
    (hmem : traversal ∈ graph.traversals request.interval identity)
    (hdeparts : traversal.effective.Contains leg.departure)
    (harrives : traversal.effective.Contains leg.arrival)
    (hprompt : graph.PromptVia request duration s identity leg) (hvertex : leg.source = vertex)
    (h : graph.departAt request vertex s traversal = .ok result) :
  ∃ step, result = some step ∧ step.leg = leg
  := by
  obtain ⟨hfeasible, hafter, hwaits, hsoon⟩ := hprompt
  obtain ⟨lasting, hlasting, harrival⟩ := hfeasible.duration
  obtain ⟨hsource, hedge, htarget, -⟩ := eq_of_mem_traversals hmem
  obtain ⟨oriented, horient, hother⟩ :=
    (orient_eq_some_iff hsource htarget).mpr (hvertex ▸ hfeasible.leads)
  obtain ⟨hvertex', hedge', heffective⟩ := of_orient horient
  -- the fragment is taken when it starts, or at once
  have hdeparture : (if s < oriented.effective.start then oriented.effective.start else s) =
      leg.departure := by
    rw [heffective]
    rcases eq_or_lt_of_le hafter with rfl | hlt
    · rw [if_neg (not_lt_of_ge hdeparts.1)]
    · have hnot : ¬ graph.Traversable identity (leg.departure - 1) := by
        rcases hsoon with heq | hnot
        · cases (ne_of_gt hlt) heq
        · apply hnot
      have hstart : traversal.effective.start = leg.departure := by
        by_contra hne
        have hlt' := lt_of_le_of_ne hdeparts.1 hne
        apply hnot
        apply (traversable_of_mem_traversals hmem (hdeparts.of_le _ _)).2
        · grind
        · grind
      rw [if_pos (by rw [hstart]; apply hlt), hstart]
  obtain ⟨_, -, h⟩ := bind_eq_ok_iff.mp h
  rw [horient] at h
  obtain ⟨_, -, h⟩ := bind_eq_ok_iff.mp h
  have hcovers : coversWaitingInterval (graph.vertexIntervals oriented.source) s leg.departure := by
    rw [coversWaitingInterval_iff, hvertex', ← hvertex]
    apply hwaits
  have hlasting' : graph.propertyDuration request oriented.edge leg.departure =
      .ok (some lasting) := by
    rw [hduration, hedge', hedge, ← hfeasible.edge, hlasting]
  have hfits : traversalFits oriented.effective leg.departure lasting := by
    rw [traversalFits_iff harrival, heffective]
    use hdeparts
  have hinside : ¬ request.interval.stop.any (leg.arrival ≥ ·) := by
    rw [any_eq_true]
    rintro ⟨stop, hstop, hle⟩
    apply not_le_of_gt (hfeasible.arrives.2 stop hstop) (of_decide_eq_true hle)
  rw [hdeparture, if_neg (fun hand => hand.2 hcovers), hlasting', ok_bind] at h
  dsimp only at h
  rw [addDuration_eq_ok_iff.mpr harrival, ok_bind, if_neg (not_not.mpr hfits),
    if_neg hinside] at h
  refine ⟨_, (ok.inj h).symm, ?_⟩
  rw [JourneyTraversal.leg]
  rw [hvertex', ← hvertex, hedge', hedge, ← hfeasible.edge, hother]

include hduration in
/-- The traversals from a vertex are the legs which depart as soon as possible. -/
theorem exists_mem_expandAt_iff {sorter : Sorter sortKey}
    {steps : List JourneyTraversal} (hs : request.interval.start ≤ s)
    (h : graph.expandAt sorter request vertex s = .ok steps) :
  (∃ step ∈ steps, step.leg = leg) ↔
    leg.source = vertex ∧ ∃ identity, graph.PromptVia request duration s identity leg
  := by
  obtain ⟨rows, hrows, h⟩ := bind_eq_ok_iff.mp h
  have hselects {identity : EdgeIdentity} :=
    @selects_iff (request.expansion vertex) vertex rfl identity
  constructor
  · rintro ⟨step, hstep, rfl⟩
    obtain ⟨traversal, htraversal, hdepart⟩ := (mem_collect_iff h).mp hstep
    obtain ⟨identity, hidentity, hselected, hmem⟩ := (mem_expandTemporal_iff hrows).mp htraversal
    obtain ⟨hvertex, hprompt⟩ := promptVia_of_departAt hduration hmem hidentity
      (hselects.mp hselected).1 hs hdepart
    use hvertex, identity
  · rintro ⟨hvertex, identity, hprompt⟩
    obtain ⟨traversal, hmem, hdeparts, harrives⟩ := hprompt.feasible.exists_traversal
    have htraversal : traversal ∈ rows := by
      apply (mem_expandTemporal_iff hrows).mpr
      use identity, hprompt.feasible.mem
      apply And.intro (hselects.mpr ⟨hprompt.feasible.type, leg.target, ?_⟩) hmem
      rw [← hvertex]
      apply hprompt.feasible.leads
    obtain ⟨result, hresult⟩ := exists_of_collect h htraversal
    obtain ⟨step, rfl, hleg⟩ := exists_departAt hduration hmem hdeparts harrives hprompt hvertex
      hresult
    use step, (mem_collect_iff h).mpr ⟨traversal, htraversal, hresult⟩

end Depart

end TemporalGraph

/-! ### The latest departure on a fragment -/

/-- The search finds the last feasible point. -/
theorem latestFeasible_spec {feasible : ValidTime → StatusOr Bool} {lower : ValidTime} {n : Nat}
    {result : Option ValidTime} (hbound : lower.toNat + n < 2 ^ 64)
    (h : latestFeasible feasible lower n = .ok result) :
  (∀ p, result = some p → lower ≤ p ∧ feasible p = .ok true) ∧
    ∀ q, lower ≤ q → q.toNat ≤ lower.toNat + n → feasible q = .ok true →
      ∃ p, result = some p ∧ q ≤ p
  := by
  induction n with
  | zero =>
    obtain ⟨found, hfound, h⟩ := bind_eq_ok_iff.mp h
    have honly : ∀ q, lower ≤ q → q.toNat ≤ lower.toNat + 0 → q = lower := by
      intro q hle hle'
      rw [UInt64.le_iff_toNat_le] at hle
      rw [← UInt64.toNat_inj]
      omega
    cases found with
    | true =>
      obtain rfl := ok.inj h
      constructor
      · rintro _ ⟨⟩
        use le_refl _
      · intro q hle hle' _
        use lower, rfl
        rw [honly q hle hle']
    | false =>
      obtain rfl := ok.inj h
      constructor
      · rintro _ ⟨⟩
      · intro q hle hle' htrue
        rw [honly q hle hle', hfound] at htrue
        cases htrue
  | succ n ih =>
    obtain ⟨found, hfound, h⟩ := bind_eq_ok_iff.mp h
    have hpoint : (lower + UInt64.ofNat (n + 1)).toNat = lower.toNat + (n + 1) := by
      rw [UInt64.toNat_add, UInt64.toNat_ofNat_of_lt' (by rw [UInt64.size]; omega),
        Nat.mod_eq_of_lt hbound]
    cases found with
    | true =>
      obtain rfl := ok.inj h
      constructor
      · rintro _ ⟨⟩
        refine ⟨?_, hfound⟩
        rw [UInt64.le_iff_toNat_le]
        omega
      · intro q hle hle' _
        refine ⟨_, rfl, ?_⟩
        rw [UInt64.le_iff_toNat_le]
        omega
    | false =>
      obtain ⟨hsound, hlatest⟩ := ih (by omega) h
      use hsound
      intro q hle hle' htrue
      rcases Nat.lt_or_ge (lower.toNat + n) q.toNat with hlt | hge
      · have heq : q = lower + UInt64.ofNat (n + 1) := by
          rw [← UInt64.toNat_inj]
          omega
        rw [heq, hfound] at htrue
        cases htrue
      · apply hlatest q hle hge htrue

namespace TemporalGraph

/-- A later departure on an edge does not arrive earlier. -/
def Fifo (duration : EdgeRef → ValidTime → Option ValidDuration) : Prop :=
  ∀ edge s t lasting lasting', s ≤ t → duration edge s = some lasting →
    duration edge t = some lasting' → s.toNat + lasting.toNat ≤ t.toNat + lasting'.toNat

section Arrive

variable {graph : TemporalGraph} {request : JourneyRequest}
  {duration : EdgeRef → ValidTime → Option ValidDuration} {identity : EdgeIdentity}
  {leg : JourneyLeg} {traversal oriented : TemporalTraversal} {target : VertexRef}
  {deadline : ValidTime} {finalTarget : Bool}

variable (hduration : ∀ edge time,
  graph.propertyDuration request edge time = .ok (duration edge time))

include hduration in
/-- A departure is feasible if it arrives in the fragment by the deadline. -/
theorem feasibleBy_eq_ok_true_iff {point : ValidTime} :
  graph.feasibleBy request deadline oriented point = .ok true ↔
    ∃ lasting arrival, duration oriented.edge point = some lasting ∧
      arrival.toNat = point.toNat + lasting.toNat ∧ arrival ≤ deadline ∧
      (∀ stop, request.interval.stop = some stop → arrival < stop) ∧
      oriented.effective.Contains point ∧ oriented.effective.Contains arrival
  := by
  rw [feasibleBy, hduration, ok_bind]
  constructor
  · intro h
    split at h
    · cases h
    case h_2 lasting hlasting =>
      obtain ⟨arrival, harrival, h⟩ := bind_eq_ok_iff.mp h
      have hsum := addDuration_eq_ok_iff.mp harrival
      use lasting, arrival, hlasting, hsum
      split at h
      · cases h
      case isFalse hlate =>
        use not_lt.mp hlate
        split at h
        · cases h
        case isFalse hinside =>
          refine ⟨?_, (traversalFits_iff hsum).mp (ok.inj h)⟩
          intro stop hstop
          simpa [hstop] using hinside
  · rintro ⟨lasting, arrival, hlasting, hsum, hle, hinside, hfits⟩
    rw [hlasting]
    dsimp only
    rw [addDuration_eq_ok_iff.mpr hsum, ok_bind, if_neg (not_lt.mpr hle), if_neg ?_,
      (traversalFits_iff hsum).mpr hfits]
    · rfl
    · rw [any_eq_true]
      rintro ⟨stop, hstop, hge⟩
      apply not_le_of_gt (hinside stop hstop) (of_decide_eq_true hge)

/-- The upper bound on the departure is not passed by a feasible one. -/
theorem le_latestUpper {point arrival : ValidTime} (hle : point ≤ arrival)
    (hdeadline : arrival ≤ deadline)
    (hinside : ∀ stop, request.interval.stop = some stop → arrival < stop)
    (hcontains : oriented.effective.Contains arrival) :
  point ≤ latestUpper request deadline oriented
  := by
  have hpred : ∀ stop : ValidTime, arrival < stop → point ≤ stop - 1 := by
    grind
  have hpoint := le_trans hle hdeadline
  rw [latestUpper]
  rcases hstop : oriented.effective.stop with - | stop
  · rcases hlast : request.interval.stop with - | last
    · apply hpoint
    · apply le_min hpoint (hpred last (hinside last hlast))
  · have hbefore := hpred stop (hcontains.2 stop hstop)
    rcases hlast : request.interval.stop with - | last
    · apply le_min hpoint hbefore
    · apply le_min (le_min hpoint hbefore) (hpred last (hinside last hlast))

include hduration in
/-- The result on a fragment is about its latest feasible departure. -/
theorem arriveBy_eq {raw : TemporalTraversal} {result : Option JourneyTraversal}
    (horient : raw.orientInto request.direction target = some oriented)
    (h : graph.arriveBy request target deadline finalTarget raw = .ok result) :
  ∃ latest : Option ValidTime,
    (∀ p, latest = some p → graph.feasibleBy request deadline oriented p = .ok true) ∧
    (∀ q, graph.feasibleBy request deadline oriented q = .ok true →
      ∃ p, latest = some p ∧ q ≤ p) ∧
    result = latest.bind fun p => (duration oriented.edge p).bind fun lasting =>
      if (if finalTarget then visibleAt (graph.vertexIntervals target) (p + lasting)
          else coversWaitingInterval (graph.vertexIntervals target) (p + lasting) deadline) then
        some ⟨oriented, p, p + lasting, lasting⟩
      else none
  := by
  -- a feasible departure is in the range which is searched
  have hrange : ∀ q, graph.feasibleBy request deadline oriented q = .ok true →
      oriented.effective.start ≤ q ∧ q ≤ deadline ∧ q ≤ latestUpper request deadline oriented ∧
        oriented.effective.stop ≠ some 0 ∧ request.interval.stop ≠ some 0 := by
    intro q hq
    obtain ⟨lasting, arrival, -, hsum, hle, hinside, hcontains, hcontains'⟩ :=
      (feasibleBy_eq_ok_true_iff hduration).mp hq
    have hqa : q ≤ arrival := by
      rw [UInt64.le_iff_toNat_le]
      omega
    use hcontains.1, le_trans hqa hle, le_latestUpper hqa hle hinside hcontains'
    constructor
    · intro hzero
      cases not_lt_of_ge (UInt64.zero_le) (hcontains.2 0 hzero)
    · intro hzero
      cases not_lt_of_ge (UInt64.zero_le) (hinside 0 hzero)
  rw [arriveBy, horient] at h
  obtain ⟨_, -, h⟩ := bind_eq_ok_iff.mp h
  obtain ⟨_, -, h⟩ := bind_eq_ok_iff.mp h
  dsimp only at h
  split at h
  case isTrue hnone =>
    use none
    obtain rfl := ok.inj h
    refine ⟨by rintro _ ⟨⟩, ?_, rfl⟩
    intro q hq
    obtain ⟨hlower, hdeadline, -, hstop, hstop'⟩ := hrange q hq
    rcases hnone with hlt | hzero | hzero
    · cases not_lt_of_ge (le_trans hlower hdeadline) hlt
    · cases hstop hzero
    · cases hstop' hzero
  case isFalse =>
    split at h
    case isTrue hlt =>
      use none
      obtain rfl := ok.inj h
      refine ⟨by rintro _ ⟨⟩, ?_, rfl⟩
      intro q hq
      obtain ⟨hlower, -, hupper, -⟩ := hrange q hq
      cases not_lt_of_ge (le_trans hlower hupper) hlt
    case isFalse hle =>
      rw [not_lt, UInt64.le_iff_toNat_le] at hle
      obtain ⟨latest, hlatest, h⟩ := bind_eq_ok_iff.mp h
      have hlt := (latestUpper request deadline oriented).toNat_lt
      obtain ⟨hsound, hlast⟩ := latestFeasible_spec (by omega) hlatest
      use latest
      refine ⟨fun p hp => (hsound p hp).2, ?_, ?_⟩
      · intro q hq
        obtain ⟨hlower, -, hupper, -⟩ := hrange q hq
        rw [UInt64.le_iff_toNat_le] at hupper
        apply hlast q hlower (by omega) hq
      · split at h
        · apply (ok.inj h).symm
        case h_2 departure =>
          rw [hduration, ok_bind] at h
          rw [bind_some]
          split at h
          case h_1 hnone =>
            rw [hnone]
            apply (ok.inj h).symm
          case h_2 lasting hlasting =>
            obtain ⟨arrival, harrival, h⟩ := bind_eq_ok_iff.mp h
            have hsum : arrival = departure + lasting := by
              rw [addDuration] at harrival
              split at harrival
              · cases harrival
              · apply (ok.inj harrival).symm
            rw [hlasting, bind_some, ← hsum]
            apply (ok.inj h).symm

/-- Where an edge can be taken, both vertices are present. -/
theorem effective_of_leads {request : GraphExpansionRequest} {u v : VertexRef} {t : ValidTime}
    (hleads : request.Leads identity u v) (h : graph.Traversable identity t) :
  graph.Effective (vertex u) t ∧ graph.Effective (vertex v) t
  := by
  rcases hleads with ⟨-, rfl, rfl⟩ | ⟨-, rfl, rfl⟩
  · exact ⟨h.source, h.target⟩
  · exact ⟨h.target, h.source⟩

variable {sorter : Sorter TemporalTraversal.sortKey} {sorter' : Sorter JourneyTraversal.latestKey}
  {steps : List JourneyTraversal}

include hduration in
/-- A traversal into a vertex is feasible, and the vertex is present until the deadline. -/
theorem feasible_of_mem_latestIncoming {step : JourneyTraversal}
    (h : graph.latestIncoming sorter sorter' request target deadline finalTarget = .ok steps)
    (hstep : step ∈ steps) :
  graph.FeasibleLeg request duration step.leg ∧ step.leg.target = target ∧
    step.arrival ≤ deadline ∧ (finalTarget = false → graph.Waits target step.arrival deadline)
  := by
  obtain ⟨rows, hrows, h⟩ := bind_eq_ok_iff.mp h
  obtain ⟨candidates, hcandidates, h⟩ := bind_eq_ok_iff.mp h
  rw [← ok.inj h, (sorter'.perm _).mem_iff] at hstep
  obtain ⟨raw, hraw, harrive⟩ := (mem_collect_iff hcandidates).mp hstep
  obtain ⟨identity, hidentity, hselected, hmem⟩ := (mem_expandTemporal_iff hrows).mp hraw
  have htype := ((selects_iff rfl).mp hselected).1
  obtain ⟨hsource, hedge, htarget, -⟩ := eq_of_mem_traversals hmem
  rcases horient : raw.orientInto request.direction target with - | oriented
  · rw [arriveBy, horient] at harrive
    cases harrive
  obtain ⟨hinto, hedge', heffective⟩ := of_orientInto horient
  have hleads := (orientInto_eq_some_iff hsource htarget).mp
    ⟨oriented, horient, rfl⟩
  obtain ⟨latest, hfeasible, -, hresult⟩ := arriveBy_eq hduration horient harrive
  obtain ⟨p, rfl, hlatest⟩ := bind_eq_some_iff.mp hresult.symm
  obtain ⟨lasting, hlasting, hlatest⟩ := bind_eq_some_iff.mp hlatest
  obtain ⟨lasting', arrival, hlasting', hsum, hle, -, hcontains⟩ :=
    (feasibleBy_eq_ok_true_iff hduration).mp (hfeasible p rfl)
  obtain rfl : lasting = lasting' := some.inj (hlasting.symm.trans hlasting')
  have harrival : p + lasting = arrival := by
    rw [← UInt64.toNat_inj, UInt64.toNat_add, hsum, Nat.mod_eq_of_lt]
    rw [← hsum]
    apply arrival.toNat_lt
  rw [harrival, ite_none_right_eq_some] at hlatest
  obtain ⟨hpresent, hlatest⟩ := hlatest
  obtain rfl := some.inj hlatest
  rw [← hinto] at hleads
  rw [heffective] at hcontains
  refine ⟨⟨identity, ?_⟩, hinto, hle, ?_⟩
  · apply feasibleVia_of_contains ⟨hidentity, hleads, hedge'.trans hedge, raw, hmem, hcontains⟩
      htype hlasting hsum
  · rintro rfl
    apply coversWaitingInterval_iff.mp hpresent

include hduration in
/-- For a feasible leg there is a traversal into its end which does not depart earlier, and the
vertex it leaves is present meanwhile. -/
theorem exists_mem_latestIncoming (hfifo : Fifo duration)
    (h : graph.latestIncoming sorter sorter' request target deadline finalTarget = .ok steps)
    (hleg : graph.FeasibleVia request duration identity leg) (htarget : leg.target = target)
    (hle : leg.arrival ≤ deadline)
    (hwaits : finalTarget = false → graph.Waits target leg.arrival deadline) :
  ∃ step ∈ steps, step.leg.source = leg.source ∧ leg.departure ≤ step.departure ∧
    ∀ r, leg.departure ≤ r → r ≤ step.departure →
      graph.Effective (vertex leg.source) r
  := by
  obtain ⟨rows, hrows, h⟩ := bind_eq_ok_iff.mp h
  obtain ⟨candidates, hcandidates, h⟩ := bind_eq_ok_iff.mp h
  obtain ⟨raw, hmem, hdeparts, harrives⟩ := hleg.exists_traversal
  have hleads := hleg.leads
  rw [htarget] at hleads
  have hraw : raw ∈ rows := by
    apply (mem_expandTemporal_iff hrows).mpr
    use identity, hleg.mem
    apply And.intro ((selects_iff rfl).mpr ⟨hleg.type, leg.source, ?_⟩) hmem
    -- the edges which are followed backward are those which lead to the vertex
    have hdirection : (request.expansion leg.source).direction = request.direction := rfl
    rw [Leads, hdirection] at hleads
    rw [Leads]
    cases hway : request.direction with
    | out | into => simpa [hway, reverse, and_comm] using hleads
    | both => simpa [hway, reverse, and_comm, or_comm] using hleads
  obtain ⟨result, hresult⟩ := exists_of_collect hcandidates hraw
  obtain ⟨hsource, hedge, htarget', -⟩ := eq_of_mem_traversals hmem
  obtain ⟨oriented, horient, hother⟩ :=
    (orientInto_eq_some_iff hsource htarget').mpr hleads
  obtain ⟨hinto, hedge', heffective⟩ := of_orientInto horient
  obtain ⟨latest, hsound, hlast, heq⟩ := arriveBy_eq hduration horient hresult
  -- the leg itself is feasible in the fragment, so that the latest departure is not earlier
  obtain ⟨lasting, hlasting, hsum⟩ := hleg.duration
  have hedges : oriented.edge = leg.edge := by
    rw [hedge', hedge, hleg.edge]
  obtain ⟨p, rfl, hlep⟩ := hlast leg.departure ((feasibleBy_eq_ok_true_iff hduration).mpr
    ⟨lasting, leg.arrival, by rw [hedges, hlasting], hsum, hle, hleg.arrives.2,
      by rw [heffective]; exact ⟨hdeparts, harrives⟩⟩)
  obtain ⟨lasting', arrival, hlasting', hsum', hle', -, hcontains⟩ :=
    (feasibleBy_eq_ok_true_iff hduration).mp (hsound p rfl)
  have harrival : p + lasting' = arrival := by
    rw [← UInt64.toNat_inj, UInt64.toNat_add, hsum', Nat.mod_eq_of_lt]
    rw [← hsum']
    apply arrival.toNat_lt
  rw [heffective] at hcontains
  rw [bind_some, hlasting', bind_some, harrival, if_pos ?_] at heq
  · refine ⟨⟨oriented, p, arrival, lasting'⟩, ?_, hother, hlep, ?_⟩
    · rw [← ok.inj h, (sorter'.perm _).mem_iff]
      apply (mem_collect_iff hcandidates).mpr ⟨raw, hraw, ?_⟩
      rw [hresult, heq]
    · intro r hr hrp
      have hr' := hcontains.1.of_le (le_trans hdeparts.1 hr) hrp
      apply (effective_of_leads hleads (traversable_of_mem_traversals hmem hr').2).1
  · cases finalTarget with
    | true =>
      rw [if_pos rfl]
      simp only [visibleAt, decide_eq_true_eq, all_eq_true, not_lt]
      apply (effective_of_leads hleads (traversable_of_mem_traversals hmem hcontains.2).2).2
    | false =>
      rw [if_neg Bool.false_ne_true, coversWaitingInterval_iff]
      intro r hr hlt
      apply hwaits rfl r _ hlt
      -- by the order of arrivals the wait is not longer
      apply le_trans _ hr
      have hfirst := hfifo oriented.edge leg.departure p lasting lasting' hlep
        (by rw [hedges, hlasting]) hlasting'
      rw [UInt64.le_iff_toNat_le]
      omega

end Arrive

end TemporalGraph

end Cedar
