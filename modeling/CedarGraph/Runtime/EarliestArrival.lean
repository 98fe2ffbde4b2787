import CedarGraph.Runtime.LatestDeparture

/-!
# Arriving as early as possible

The search for a journey which arrives as early as possible goes forward from the source at the
start of the interval.  On every fragment of an edge it takes the earliest departure, and none of the
later ones.

The labels of the search are those of the prompt journeys.  Hence the search is right about all
journeys if and only if each of them can be replaced by a prompt one which does not arrive later.
If an edge has no duration at first, then it is not taken later either.
-/

namespace Cedar

open List JourneyRequest StatusOr LabelSearch

namespace TemporalGraph

section Earliest

variable (graph : TemporalGraph) (request : JourneyRequest)
  (duration : EdgeRef → ValidTime → Option ValidDuration)

/-- The label of the source at the start of the interval. -/
def startLabel : JourneyLabel :=
  ⟨request.source, request.interval.start, 0, []⟩

/-- The path of a label is a prompt journey. -/
structure Forward (label : JourneyLabel) : Prop where
  prompt : graph.IsPrompt request duration request.source request.interval.start
    (label.path.map JourneyTraversal.leg) label.vertex label.time
  hops : request.Counts label.depth label.path.length

/-- The state is that of a prompt journey after some of its legs. -/
def ForwardTrack (legs : List JourneyLeg) (t : ValidTime) (i : Nat)
    (state : VertexRef × UInt32 × ValidTime) : Prop :=
  ∃ before after, legs = before ++ after ∧ before.length = i ∧
    state.2.1 = request.stateDepth (UInt32.ofNat i) ∧
    graph.IsPrompt request duration state.1 state.2.2 after request.target t

variable {graph request duration} {sorter : Sorter TemporalTraversal.sortKey}
  {legs : List JourneyLeg} {t : ValidTime}

variable (hduration : ∀ edge time,
  graph.propertyDuration request edge time = .ok (duration edge time))

variable (sorter) in
include hduration in
/-- The search explores prompt journeys. -/
theorem explores_earliest :
  Explores request.timedKey (fun label => decide (label.vertex = request.target))
    (graph.earliestNext sorter request) (startLabel request) (graph.Forward request duration)
  where
  good_init := ⟨.nil, counts_zero⟩
  good := by
    intro current next label hcurrent _ hnext hmem _
    rcases of_checkDepth hnext with ⟨hdepth, hhops, hnext⟩ | ⟨-, -, rfl⟩
    · obtain ⟨steps, hsteps, hnext⟩ := bind_eq_ok_iff.mp hnext
      rw [← Except.ok.inj hnext] at hmem
      obtain ⟨step, hstep, rfl⟩ := mem_map.mp hmem
      obtain ⟨hsource, identity, hprompt⟩ :=
        (exists_mem_expandAt_iff hduration hcurrent.prompt.le hsteps).mp ⟨step, hstep, rfl⟩
      constructor
      · rw [map_append]
        apply hcurrent.prompt.append hprompt hsource
      · rw [length_append]
        apply hcurrent.hops.succ hdepth hhops
    · cases hmem

variable (sorter) in
include hduration in
/-- The search tracks a prompt journey. -/
theorem tracks_earliest (hlegs : graph.PromptWithin request duration legs t) :
  Tracks request.timedKey (fun label => decide (label.vertex = request.target))
    (graph.earliestNext sorter request) (startLabel request) (graph.Forward request duration)
    legs.length (graph.ForwardTrack request duration legs t)
  where
  init := ⟨[], legs, rfl, rfl, rfl, hlegs.prompt⟩
  next := by
    rintro i current next hi hcurrent - hnext ⟨before, after, hsplit, hlength, hdepth, hafter⟩
    cases after with
    | nil =>
      rw [hsplit, append_nil] at hi
      omega
    | cons leg after =>
      obtain ⟨hsource, ⟨identity, hprompt⟩, hrest⟩ := hafter.of_cons
      have hnext := next_eq_of_checkDepth hnext hdepth hlegs.hops hi
      obtain ⟨steps, hsteps, hnext⟩ := bind_eq_ok_iff.mp hnext
      obtain ⟨step, hstep, rfl⟩ :=
        (exists_mem_expandAt_iff hduration hcurrent.prompt.le hsteps).mpr
          ⟨hsource, identity, hprompt⟩
      refine ⟨⟨step.traversal.target, step.arrival, current.depth + 1, current.path ++ [step]⟩, ?_,
        before ++ [step.leg], after, ?_, ?_, stateDepth_succ hdepth, hrest⟩
      · rw [← Except.ok.inj hnext]
        apply mem_map.mpr ⟨step, hstep, rfl⟩
      · rw [hsplit, append_assoc, singleton_append]
      · rw [length_append, hlength, length_singleton]

variable {label : JourneyLabel} {outcome : StatusOr JourneyValue}

/-- A state of a prompt journey is not later than its end. -/
theorem ForwardTrack.le {i : Nat}
    (h : graph.ForwardTrack request duration legs t i (request.timedKey label)) :
  label.time ≤ t
  := by
  obtain ⟨before, after, -, -, -, hafter⟩ := h
  apply hafter.le

/-- The whole prompt journey leads to the target. -/
theorem ForwardTrack.vertex_eq
    (h : graph.ForwardTrack request duration legs t legs.length (request.timedKey label)) :
  label.vertex = request.target
  := by
  obtain ⟨before, after, hsplit, hlength, -, hafter⟩ := h
  obtain rfl : after = [] := by
    rw [hsplit, length_append] at hlength
    apply eq_nil_of_length_eq_zero
    omega
  apply hafter.of_nil.1

variable (graph request duration) in
/-- A journey which is found arrives as early as any, and one is found if there is any. -/
def EarliestOptimal (outcome : StatusOr JourneyValue) : Prop :=
  (∀ journey, outcome = .ok journey → ∃ first rest,
    journey = buildJourney (first :: rest) request.interval.start ∧
    graph.JourneyWithin request duration ((first :: rest).map JourneyTraversal.leg) ∧
    ∀ legs, graph.JourneyWithin request duration legs →
      ∀ last ∈ legs.getLast?, journey.finalArrival ≤ last.arrival) ∧
  ∀ error, outcome = .error error → error.code = .notFound →
    ∀ legs, ¬ graph.JourneyWithin request duration legs

variable (graph request duration) in
/-- What the search says about prompt journeys: the one it finds arrives as early as any, and it
finds one if there is any. -/
def PromptOptimal (outcome : StatusOr JourneyValue) : Prop :=
  (∀ journey, outcome = .ok journey → ∃ first rest,
    journey = buildJourney (first :: rest) request.interval.start ∧
    graph.PromptWithin request duration ((first :: rest).map JourneyTraversal.leg)
      journey.finalArrival ∧
    ∀ legs t, graph.PromptWithin request duration legs t → journey.finalArrival ≤ t) ∧
  ∀ error, outcome = .error error → error.code = .notFound →
    ∀ legs t, ¬ graph.PromptWithin request duration legs t

/-- The journey along the traversals of a prompt journey arrives at its end. -/
theorem IsPrompt.finalArrival_eq {u w : VertexRef} {s initial : ValidTime}
    {first : JourneyTraversal} {rest : List JourneyTraversal}
    (h : graph.IsPrompt request duration u s ((first :: rest).map JourneyTraversal.leg) w t) :
  (buildJourney (first :: rest) initial).finalArrival = t
  := by
  apply h.arrival_eq (JourneyTraversal.leg ((first :: rest).getLast (cons_ne_nil first rest)))
  rw [getLast?_map]
  rfl

variable (sorter) in
include hduration in
/-- The search for an early arrival finds a prompt journey which arrives as early as any, unless
there is none. -/
theorem exists_earliestArrival {fuel : Nat} (hne : request.source ≠ request.target)
    (hfuel : Nat.card (VertexRef × UInt32 × ValidTime) < fuel) :
  ∃ outcome, graph.earliestArrival sorter request fuel = some outcome ∧
    graph.PromptOptimal request duration outcome
  := by
  have hexplores := @explores_earliest graph request duration sorter hduration
  rw [earliestArrival]
  split
  · refine ⟨_, rfl, ?_, ?_⟩
    · rintro _ ⟨⟩
    · rintro _ ⟨⟩ ⟨⟩
  obtain ⟨found, hsearch⟩ := hexplores.exists_search
    (fun a b => a.time ≤ b.time) _ (fun _ _ => id) hfuel
  rw [startLabel] at hsearch
  rw [hsearch, Option.map_some]
  refine ⟨_, rfl, ?_, ?_⟩
  · intro journey hjourney
    obtain ⟨outcome, rfl, hvalue⟩ := bind_eq_ok_iff.mp hjourney
    split at hvalue
    case h_1 label hfound =>
      obtain rfl := Except.ok.inj hvalue
      obtain ⟨hlabel, hstop, hbest⟩ := hexplores.of_found hsearch hfound (·.time)
        (fun a b hab => of_decide_eq_true hab)
        (fun a b hab => le_of_lt (not_le.mp (of_decide_eq_false hab)))
      have htarget : label.vertex = request.target := of_decide_eq_true hstop
      have hprompt := htarget ▸ hlabel.prompt
      rcases hpath : label.path with - | ⟨first, rest⟩
      · rw [hpath] at hprompt
        cases hne hprompt.of_nil.1
      · rw [hpath] at hprompt
        rw [hprompt.finalArrival_eq]
        use first, rest, rfl
        refine ⟨⟨hprompt, ?_⟩, ?_⟩
        · rw [length_map, ← hpath]
          apply hlabel.hops.withinHops
        · intro legs t hlegs
          obtain ⟨i, -, other, htrack, hcost⟩ := hbest legs.length _
            (tracks_earliest sorter hduration hlegs)
            (fun p htrack => decide_eq_true htrack.vertex_eq)
          apply le_trans hcost htrack.le
    case h_2 => cases hvalue
  · intro error herror hcode legs t hlegs
    cases found with
    | error error' =>
      obtain rfl := Except.error.inj herror
      obtain ⟨label, hlabel⟩ := exists_expand_of_run hsearch
      apply neverNotFound_checkDepth _ _ hlabel hcode
      apply (neverNotFound_expandAt hduration label.vertex label.time).bind
        fun _ _ => neverNotFound_ok _
    | ok outcome =>
      rw [ok_bind] at herror
      split at herror
      · cases herror
      case h_2 hnone =>
        obtain ⟨hprocessed, htracked⟩ := hexplores.of_exhausted hsearch hnone
        obtain ⟨p, hp, htrack⟩ := htracked _ _ (tracks_earliest sorter hduration hlegs)
        have hopen := (hprocessed p hp).2
        rw [htrack.vertex_eq, decide_eq_false_iff_not] at hopen
        apply hopen rfl

variable (graph request duration) in
/-- Every journey can be replaced by a prompt one which does not arrive later. -/
def Promptable : Prop :=
  ∀ legs, graph.JourneyWithin request duration legs → ∀ last ∈ legs.getLast?,
    ∃ prompt t, graph.PromptWithin request duration prompt t ∧ t ≤ last.arrival

/-- The search for an early arrival ends.  If it does not fail, then it is right about all journeys
if and only if each of them can be replaced by a prompt one. -/
theorem earliestArrival_optimal_iff (sorter : Sorter TemporalTraversal.sortKey)
    (graph : TemporalGraph) (request : JourneyRequest)
    (duration : EdgeRef → ValidTime → Option ValidDuration)
    (hduration : ∀ edge time, graph.propertyDuration request edge time = .ok (duration edge time))
    (hne : request.source ≠ request.target) :
  ∃ bound, ∀ fuel ≥ bound, ∃ outcome,
    graph.earliestArrival sorter request fuel = some outcome ∧
    ((∀ error, outcome = .error error → error.code = .notFound) →
      (graph.EarliestOptimal request duration outcome ↔ graph.Promptable request duration))
  := by
  use Nat.card (VertexRef × UInt32 × ValidTime) + 1
  intro fuel hfuel
  obtain ⟨outcome, houtcome, hprompt⟩ :=
    exists_earliestArrival sorter hduration hne (Nat.lt_of_succ_le hfuel)
  use outcome, houtcome
  intro hends
  constructor
  · intro hoptimal legs hlegs last hlast
    cases houtcome : outcome with
    | error error => cases hoptimal.2 error houtcome (hends error houtcome) legs hlegs
    | ok journey =>
      obtain ⟨first, rest, -, hwithin, -⟩ := hprompt.1 journey houtcome
      obtain ⟨_, _, -, -, hbest⟩ := hoptimal.1 journey houtcome
      refine ⟨_, _, hwithin, hbest legs hlegs last hlast⟩
  · intro hall
    constructor
    · intro journey hjourney
      obtain ⟨first, rest, heq, hwithin, hbest⟩ := hprompt.1 journey hjourney
      use first, rest, heq, hwithin.journeyWithin
      intro legs hlegs last hlast
      obtain ⟨prompt, t, hwithin', hle⟩ := hall legs hlegs last hlast
      apply le_trans (hbest prompt t hwithin') hle
    · intro error herror hcode legs hlegs
      have hnil : legs ≠ [] := by
        rintro rfl
        apply hne hlegs.journey.eq_of_nil
      obtain ⟨prompt, t, hwithin, -⟩ := hall legs hlegs _ (getLast?_eq_some_getLast hnil)
      apply hprompt.2 error herror hcode prompt t hwithin

end Earliest

/-- An edge from 1 to 2 which is present until 10. -/
def ferryFacts : CommittedFacts where
  events := [
    ⟨EntityFact.vertex ⟨0, 1⟩, 0, 1, .put, 0, none, none⟩,
    ⟨EntityFact.vertex ⟨0, 2⟩, 0, 1, .put, 0, none, none⟩,
    ⟨⟨0, .edgeIdentity, 0, 1⟩, 0, 1, .put, 0, none, some ⟨1, 1, 2, 1, 0, 0, 0⟩⟩,
    ⟨EntityFact.edge ⟨0, 1⟩, 0, 1, .put, 0, none, none⟩,
    ⟨EntityFact.edge ⟨0, 1⟩, 10, 1, .delete, 0, none, none⟩]
  valid := by decide +kernel
  distinct := by decide +kernel

/-- The edge has no duration at 0, and takes 1 at later times. -/
def ferryDuration (_ : EdgeRef) (time : ValidTime) : Option ValidDuration :=
  if time = 0 then none else some 1

/-- A journey from 1 to 2. -/
def ferryRequest : JourneyRequest where
  source := ⟨0, 1⟩
  target := ⟨0, 2⟩
  interval := ⟨0, some 10⟩
  durationAt := some fun edge time => .ok (ferryDuration edge time)

/-- The same journey, on which the edge always takes 1. -/
def steadyRequest : JourneyRequest :=
  { ferryRequest with durationAt := some fun _ _ => .ok (some 1) }

/-- The journey which departs at 0 is prompt. -/
theorem steady_isPrompt :
  (ferryFacts.graphAt 1).IsPrompt steadyRequest (fun _ _ => some 1) ⟨0, 1⟩ 0
    [⟨⟨0, 1⟩, ⟨0, 1⟩, ⟨0, 2⟩, 0, 1⟩] ⟨0, 2⟩ 1
  := by
  apply @IsPrompt.cons _ _ _ _ _ ⟨1, 1, 2, 1, 0, 0, 0⟩ ⟨⟨0, 1⟩, ⟨0, 1⟩, ⟨0, 2⟩, 0, 1⟩ _ _ _ .nil
  use feasibleVia_of_contains (by decide +kernel) (by rintro _ ⟨⟩) rfl rfl, le_refl _,
    fun _ _ hlt => (UInt64.not_lt_zero hlt).elim, .inl rfl

/-- A leg of a journey arrives one later than it departs. -/
theorem arrival_of_steady {legs : List JourneyLeg} {leg : JourneyLeg}
    (h : (ferryFacts.graphAt 1).JourneyWithin steadyRequest (fun _ _ => some 1) legs)
    (hleg : leg ∈ legs) :
  leg.arrival.toNat = leg.departure.toNat + 1
  := by
  obtain ⟨before, after, rfl⟩ := append_of_mem hleg
  obtain ⟨⟨_, hvia⟩, -⟩ := h.journey.of_append
  obtain ⟨_, ⟨⟩, harrival⟩ := hvia.duration
  apply harrival

/-- The search for the journey on which the edge always takes 1 is right. -/
theorem steady_earliestArrival :
  ∃ bound, ∀ fuel ≥ bound, ∃ outcome,
    (ferryFacts.graphAt 1).earliestArrival (Sorter.insertion _) steadyRequest fuel = some outcome ∧
    ((∀ error, outcome = .error error → error.code = .notFound) →
      (ferryFacts.graphAt 1).EarliestOptimal steadyRequest (fun _ _ => some 1) outcome)
  := by
  have hprompt : (ferryFacts.graphAt 1).Promptable steadyRequest fun _ _ => some 1 := by
    intro legs hlegs last hlast
    refine ⟨_, 1, ⟨steady_isPrompt, fun h => (h rfl).elim⟩, ?_⟩
    rw [UInt64.le_iff_toNat_le, arrival_of_steady hlegs (mem_of_getLast? hlast)]
    apply Nat.le_add_left
  obtain ⟨bound, hbound⟩ := earliestArrival_optimal_iff (Sorter.insertion _) (ferryFacts.graphAt 1)
    steadyRequest (fun _ _ => some 1) (fun _ _ => rfl) (by decide)
  use bound
  intro fuel hfuel
  obtain ⟨outcome, houtcome, hiff⟩ := hbound fuel hfuel
  use outcome, houtcome, fun hends => (hiff hends).mpr hprompt

/-- The durations keep the order of arrivals. -/
theorem fifo_ferryDuration :
  Fifo ferryDuration
  := by
  apply @fifo_of_eq _ 1
  simp [ferryDuration, eq_comm]

/-- The journey which departs at 1. -/
theorem ferry_journeyWithin :
  (ferryFacts.graphAt 1).JourneyWithin ferryRequest ferryDuration
    [⟨⟨0, 1⟩, ⟨0, 1⟩, ⟨0, 2⟩, 1, 2⟩]
  where
  journey := by
    apply @IsJourney.cons _ _ _ ⟨⟨0, 1⟩, ⟨0, 1⟩, ⟨0, 2⟩, 1, 2⟩ [] _
      ⟨⟨1, 1, 2, 1, 0, 0, 0⟩, feasibleVia_of_contains (by decide +kernel) (by rintro _ ⟨⟩) rfl rfl⟩
      _ .nil
    rintro _ ⟨⟩
  hops hbounded := (hbounded rfl).elim

/-- The search does not find the journey which departs at 1, as the edge has no duration at 0. -/
theorem ferry_not_earliestOptimal :
  (∀ edge time, (ferryFacts.graphAt 1).propertyDuration ferryRequest edge time =
    .ok (ferryDuration edge time)) ∧ Fifo ferryDuration ∧
  ∃ outcome,
    (ferryFacts.graphAt 1).earliestArrival (Sorter.insertion _) ferryRequest 2 = some outcome ∧
    outcome = Status.notFound "journey" "target is unreachable" ∧
    ¬ (ferryFacts.graphAt 1).EarliestOptimal ferryRequest ferryDuration outcome
  := by
  refine ⟨fun _ _ => rfl, fifo_ferryDuration, _, by decide +kernel, rfl, ?_⟩
  intro hoptimal
  apply hoptimal.2 _ rfl rfl _ ferry_journeyWithin

end TemporalGraph

end Cedar
