import CedarGraph.Runtime.JourneyPaths

/-!
# Departing as late as possible

The search for a journey which departs as late as possible goes backward from the target.  On every
fragment of an edge it takes the latest departure by which the deadline at its end is met.

The search tracks any journey from its end.  By the order of arrivals the latest departure on a
fragment is not earlier than that of the journey, and the vertices of the journey are present in
between, so that the journey could have waited.  Hence no journey departs later than the one which
is found, and one is found if there is any.
-/

namespace Cedar

open JourneyRequest List StatusOr LabelSearch

namespace TemporalGraph

section Latest

variable (graph : TemporalGraph) (request : JourneyRequest)
  (duration : EdgeRef → ValidTime → Option ValidDuration) (deadline : ValidTime)

/-- The legs lead from the source to the target by the deadline. -/
structure JourneyBy (legs : List JourneyLeg) : Prop where
  journey : graph.IsJourney request duration request.source legs request.target
  hops : request.WithinHops legs.length
  arrives : ∀ leg ∈ legs.getLast?, leg.arrival ≤ deadline

/-- The label of the target at the deadline. -/
def deadlineLabel : JourneyLabel :=
  ⟨request.target, deadline, 0, []⟩

/-- The path of a label leads to the target by the deadline. -/
structure Backward (label : JourneyLabel) : Prop where
  depth : label.depth ≠ 0
  departs : ∃ first rest, label.path = first :: rest ∧ first.departure = label.time
  journey : graph.IsJourney request duration label.vertex (label.path.map JourneyTraversal.leg)
    request.target
  arrives : ∀ leg ∈ (label.path.map JourneyTraversal.leg).getLast?, leg.arrival ≤ deadline
  hops : request.Counts label.depth label.path.length

/-- The label is the first one, or its path leads to the target. -/
def BackwardLabel (label : JourneyLabel) : Prop :=
  label = deadlineLabel request deadline ∨
    request.timedKey label ≠ request.timedKey (deadlineLabel request deadline) ∧
      graph.Backward request duration deadline label

/-- The state is that of the last legs of a journey, at a time which is not earlier than their
departure.  The vertex is present in between. -/
def BackwardTrack (legs : List JourneyLeg) (i : Nat) (state : VertexRef × UInt32 × ValidTime) :
    Prop :=
  ∃ before after, legs = before ++ after ∧ after.length = i ∧
    state.2.1 = request.stateDepth (UInt32.ofNat i) ∧
    match after with
    | [] => state = request.timedKey (deadlineLabel request deadline)
    | leg :: _ => state.1 = leg.source ∧ leg.departure ≤ state.2.2 ∧
        ∀ r, leg.departure ≤ r → r ≤ state.2.2 →
          graph.Effective (EntityFact.vertex leg.source) r

variable {graph request duration deadline}
  {sorter : Sorter TemporalTraversal.sortKey} {sorter' : Sorter JourneyTraversal.latestKey}

/-- A traversal into the vertex of a label extends its path. -/
theorem Backward.cons {current : JourneyLabel} {step : JourneyTraversal}
    (hcurrent : graph.BackwardLabel request duration deadline current)
    (hdepth : current.depth ≠ -1) (hhops : request.maxHops = 0 ∨ current.depth < request.maxHops)
    (hstep : graph.FeasibleLeg request duration step.leg)
    (htarget : step.leg.target = current.vertex) (hle : step.arrival ≤ current.time)
    (hwaits : decide (current.depth = 0) = false →
      graph.Waits current.vertex step.arrival current.time) :
  graph.Backward request duration deadline
    ⟨step.traversal.source, step.departure, current.depth + 1, step :: current.path⟩
  := by
  have hcounts : request.Counts current.depth current.path.length := by
    rcases hcurrent with rfl | ⟨-, hcurrent⟩
    · apply counts_zero
    · apply hcurrent.hops
  constructor
  · intro hzero
    rw [← UInt32.toNat_inj, depth_toNat_succ hdepth, UInt32.toNat_zero] at hzero
    omega
  · use step, current.path
  · rw [map_cons]
    apply IsJourney.cons hstep
    · intro next hnext
      rcases hcurrent with rfl | ⟨-, hcurrent⟩
      · cases hnext
      · obtain ⟨first, rest, hpath, hfirst⟩ := hcurrent.departs
        rw [hpath] at hnext
        obtain rfl : first.leg = next := by simpa using hnext
        rw [JourneyTraversal.leg] at htarget
        rw [show first.leg.departure = current.time from hfirst, JourneyTraversal.leg, htarget]
        use hle
        apply hwaits (decide_eq_false hcurrent.depth)
    · rw [htarget]
      rcases hcurrent with rfl | ⟨-, hcurrent⟩
      · apply IsJourney.nil
      · apply hcurrent.journey
  · intro leg hleg
    rcases hcurrent with rfl | ⟨-, hcurrent⟩
    · obtain rfl : step.leg = leg := by simpa [deadlineLabel] using hleg
      apply hle
    · obtain ⟨first, rest, hpath, -⟩ := hcurrent.departs
      apply hcurrent.arrives leg
      rw [map_cons] at hleg
      rw [hpath, map_cons] at hleg ⊢
      rwa [getLast?_cons_cons] at hleg
  · apply hcounts.succ hdepth hhops

variable (hduration : ∀ edge time,
  graph.propertyDuration request edge time = .ok (duration edge time))

variable (sorter sorter') in
include hduration in
/-- The search explores paths to the target. -/
theorem explores_latest :
  Explores request.timedKey (fun label => decide (label.vertex = request.source))
    (graph.latestNext sorter request sorter') (deadlineLabel request deadline)
    (graph.BackwardLabel request duration deadline)
  where
  good_init := Or.inl rfl
  good := by
    intro current next label hcurrent _ hnext hmem hkey
    refine Or.inr ⟨hkey, ?_⟩
    rcases of_checkDepth hnext with ⟨hdepth, hhops, hnext⟩ | ⟨-, -, rfl⟩
    · obtain ⟨steps, hsteps, hnext⟩ := bind_eq_ok_iff.mp hnext
      rw [← Except.ok.inj hnext] at hmem
      obtain ⟨step, hstep, rfl⟩ := mem_map.mp hmem
      obtain ⟨hfeasible, htarget, hle, hwaits⟩ :=
        feasible_of_mem_latestIncoming hduration hsteps hstep
      apply Backward.cons hcurrent hdepth hhops hfeasible htarget hle hwaits
    · cases hmem

variable {legs : List JourneyLeg}

variable (sorter sorter') in
include hduration in
/-- The search tracks a journey from its end. -/
theorem tracks_latest
    (hfifo : Fifo duration) (hlegs : graph.JourneyBy request duration deadline legs) :
  Tracks request.timedKey (fun label => decide (label.vertex = request.source))
    (graph.latestNext sorter request sorter') (deadlineLabel request deadline)
    (graph.BackwardLabel request duration deadline) legs.length
    (graph.BackwardTrack request deadline legs)
  where
  init := by
    use legs, []
    rw [append_nil]
    use rfl, rfl, rfl
  next := by
    rintro i current next hi hcurrent - hnext ⟨before, after, hsplit, hlength, hdepth, htrack⟩
    obtain ⟨before, leg, rfl⟩ : ∃ before' leg, before = before' ++ [leg] := by
      rcases eq_nil_or_concat before with rfl | ⟨before', leg, rfl⟩
      · rw [hsplit, nil_append] at hi
        omega
      · use before', leg
        rw [concat_eq_append]
    rw [append_assoc, singleton_append] at hsplit
    have hjourney := hlegs.journey
    rw [hsplit] at hjourney
    obtain ⟨⟨identity, hleg⟩, hwaits, hrest⟩ := hjourney.of_append
    have hnext := next_eq_of_checkDepth hnext hdepth hlegs.hops hi
    obtain ⟨steps, hsteps, hnext⟩ := bind_eq_ok_iff.mp hnext
    -- the leg ends at the vertex of the label, by its time
    have hend : leg.target = current.vertex ∧ leg.arrival ≤ current.time ∧
        (decide (current.depth = 0) = false →
          graph.Waits current.vertex leg.arrival current.time) := by
      cases after with
      | nil =>
        rcases hcurrent with rfl | ⟨hkey, -⟩
        · use hrest.eq_of_nil
          constructor
          · apply hlegs.arrives leg
            rw [hsplit, getLast?_append, getLast?_singleton]
            rfl
          · rintro ⟨⟩
        · cases hkey htrack
      | cons second after =>
        obtain ⟨hvertex, hle, hpresent⟩ := htrack
        obtain ⟨hwait, hwaits⟩ := hwaits second rfl
        have htarget := hrest.source_eq
        use htarget.symm.trans hvertex.symm, le_trans hwait hle
        intro _ r hr hlt
        rw [show current.vertex = second.source from hvertex]
        rcases lt_or_ge r second.departure with hearly | hlate
        · rw [htarget]
          apply hwaits r hr hearly
        · apply hpresent r hlate (le_of_lt hlt)
    obtain ⟨htarget, hle, hwaits⟩ := hend
    obtain ⟨step, hstep, hsource, hdeparture, hpresent⟩ :=
      exists_mem_latestIncoming hduration hfifo hsteps hleg htarget hle hwaits
    refine ⟨⟨step.traversal.source, step.departure, current.depth + 1, step :: current.path⟩, ?_, ?_⟩
    · rw [← Except.ok.inj hnext]
      apply mem_map.mpr ⟨step, hstep, rfl⟩
    · refine ⟨before, leg :: after, hsplit, ?_, ?_, hsource, hdeparture, hpresent⟩
      · rw [length_cons, hlength]
      · apply stateDepth_succ hdepth

variable (graph request duration deadline) in
/-- A journey which is found departs as late as any, and one is found if there is any. -/
def LatestOptimal (outcome : StatusOr JourneyValue) : Prop :=
  (∀ journey, outcome = .ok journey → ∃ first rest,
    journey = buildJourney (first :: rest) first.departure ∧
    graph.JourneyBy request duration deadline ((first :: rest).map JourneyTraversal.leg) ∧
    ∀ legs, graph.JourneyBy request duration deadline legs →
      ∀ leg ∈ legs.head?, leg.departure ≤ first.departure) ∧
  ∀ error, outcome = .error error → error.code = .notFound →
    ∀ legs, ¬ graph.JourneyBy request duration deadline legs

/-- A state of a journey is not earlier than the journey departs. -/
theorem BackwardTrack.departure_le {i : Nat} {label : JourneyLabel}
    (h : graph.BackwardTrack request deadline legs i (request.timedKey label))
    (hlegs : graph.JourneyBy request duration deadline legs) :
  ∀ leg ∈ legs.head?, leg.departure ≤ label.time
  := by
  intro first hfirst
  obtain ⟨rest, rfl⟩ := head?_eq_some_iff.mp hfirst
  have hle := hlegs.journey.departure_le
  obtain ⟨before, after, hsplit, -, -, htrack⟩ := h
  cases after with
  | nil =>
    obtain ⟨leg, hlast⟩ : ∃ leg, (first :: rest).getLast? = some leg := by
      use (first :: rest).getLast (cons_ne_nil _ _)
      apply getLast?_eq_some_getLast
    have hmem := mem_of_getLast? hlast
    obtain ⟨before', after', hleg⟩ := append_of_mem hmem
    have hjourney := hlegs.journey
    rw [hleg] at hjourney
    obtain ⟨⟨identity, hvia⟩, -⟩ := hjourney.of_append
    have htime : label.time = deadline := congrArg (·.2.2) htrack
    rw [htime]
    apply le_trans (hle leg hmem) (le_trans hvia.le (hlegs.arrives leg hlast))
  | cons leg after =>
    apply le_trans (hle leg _) htrack.2.1
    rw [hsplit]
    apply mem_append_right _ mem_cons_self

/-- The whole journey leads from the source. -/
theorem BackwardTrack.vertex_eq {label : JourneyLabel}
    (h : graph.BackwardTrack request deadline legs legs.length (request.timedKey label))
    (hne : request.source ≠ request.target)
    (hlegs : graph.JourneyBy request duration deadline legs) :
  label.vertex = request.source
  := by
  obtain ⟨before, after, hsplit, hlength, -, htrack⟩ := h
  obtain rfl : before = [] := by
    rw [hsplit, length_append] at hlength
    apply eq_nil_of_length_eq_zero
    omega
  subst hsplit
  have hjourney := hlegs.journey
  cases legs with
  | nil => cases hne hjourney.eq_of_nil
  | cons leg legs => apply htrack.1.trans hjourney.source_eq

variable (sorter sorter') in
include hduration in
/-- The search for a late departure finds a journey which departs as late as any, unless there is
none. -/
theorem exists_latestDeparture {fuel : Nat}
    (hfifo : Fifo duration) (hne : request.source ≠ request.target)
    (hdeadline : (request.arrivalDeadline <|> request.interval.stop) = some deadline)
    (hlate : request.interval.start < deadline)
    (hfuel : Nat.card (VertexRef × UInt32 × ValidTime) < fuel) :
  ∃ outcome, graph.latestDeparture sorter request sorter' fuel = some outcome ∧
    graph.LatestOptimal request duration deadline outcome
  := by
  have hexplores := @explores_latest graph request duration deadline sorter sorter' hduration
  obtain ⟨found, hsearch⟩ := hexplores.exists_search
    (fun a b => b.time < a.time) _ (fun _ _ => id) hfuel
  rw [latestDeparture, hdeadline]
  dsimp only
  rw [if_neg (not_le.mpr hlate)]
  rw [deadlineLabel] at hsearch
  rw [hsearch, Option.map_some]
  refine ⟨_, rfl, ?_, ?_⟩
  · intro journey hjourney
    obtain ⟨outcome, rfl, hvalue⟩ := bind_eq_ok_iff.mp hjourney
    split at hvalue
    case h_1 label hfound =>
      obtain rfl := Except.ok.inj hvalue
      obtain ⟨hlabel, hstop, hbest⟩ := hexplores.of_found hsearch hfound
        (fun label => OrderDual.toDual label.time)
        (fun a b hab => le_of_lt (of_decide_eq_true hab))
        (fun a b hab => not_lt.mp (of_decide_eq_false hab))
      have hsource : label.vertex = request.source := of_decide_eq_true hstop
      rcases hlabel with rfl | ⟨-, hlabel⟩
      · cases hne hsource.symm
      · obtain ⟨first, rest, hpath, hfirst⟩ := hlabel.departs
        use first, rest
        rw [← hpath, hfirst]
        refine ⟨rfl, ⟨?_, ?_, hlabel.arrives⟩, ?_⟩
        · rw [← hsource]
          apply hlabel.journey
        · rw [length_map]
          apply hlabel.hops.withinHops
        · intro legs hlegs leg hleg
          obtain ⟨i, -, other, htrack, hcost⟩ := hbest legs.length _
            (tracks_latest sorter sorter' hduration hfifo hlegs)
            (fun p htrack => decide_eq_true (htrack.vertex_eq hne hlegs))
          apply le_trans (htrack.departure_le hlegs leg hleg) hcost
    case h_2 => cases hvalue
  · intro error herror hcode legs hlegs
    cases found with
    | error error' =>
      obtain rfl := Except.error.inj herror
      obtain ⟨label, hlabel⟩ := exists_expand_of_run hsearch
      apply neverNotFound_checkDepth _ _ hlabel hcode
      apply NeverNotFound.bind _ fun _ _ => neverNotFound_ok _
      apply (neverNotFound_expandTemporal _).bind
      intro rows _
      apply (NeverNotFound.collect (neverNotFound_arriveBy hduration _ _ _) rows).bind
      intro _ _
      apply neverNotFound_ok
    | ok outcome =>
      rw [ok_bind] at herror
      split at herror
      · cases herror
      case h_2 hnone =>
        obtain ⟨hprocessed, htracked⟩ := hexplores.of_exhausted hsearch hnone
        obtain ⟨p, hp, htrack⟩ := htracked _ _
          (tracks_latest sorter sorter' hduration hfifo hlegs)
        have hopen := (hprocessed p hp).2
        rw [htrack.vertex_eq hne hlegs, decide_eq_false_iff_not] at hopen
        apply hopen rfl

/-- The search for a late departure ends.  It finds a journey which departs as late as any, unless
there is none. -/
theorem latestDeparture_optimal (sorter : Sorter TemporalTraversal.sortKey)
    (sorter' : Sorter JourneyTraversal.latestKey) (graph : TemporalGraph) (request : JourneyRequest)
    (duration : EdgeRef → ValidTime → Option ValidDuration) (deadline : ValidTime)
    (hduration : ∀ edge time, graph.propertyDuration request edge time = .ok (duration edge time))
    (hfifo : Fifo duration) (hne : request.source ≠ request.target)
    (hdeadline : (request.arrivalDeadline <|> request.interval.stop) = some deadline)
    (hlate : request.interval.start < deadline) :
  ∃ bound, ∀ fuel ≥ bound, ∃ outcome,
    graph.latestDeparture sorter request sorter' fuel = some outcome ∧
    graph.LatestOptimal request duration deadline outcome
  := by
  use Nat.card (VertexRef × UInt32 × ValidTime) + 1
  intro fuel hfuel
  apply exists_latestDeparture sorter sorter' hduration hfifo hne hdeadline hlate
    (Nat.lt_of_succ_le hfuel)

end Latest

/-- An edge from 1 to 2 which is present until 100, and one from 2 to 3 which is so from 50 on. -/
def relayFacts : CommittedFacts where
  events := [
    ⟨EntityFact.vertex ⟨0, 1⟩, 0, 1, .put, 0, none, none⟩,
    ⟨EntityFact.vertex ⟨0, 2⟩, 0, 1, .put, 0, none, none⟩,
    ⟨EntityFact.vertex ⟨0, 3⟩, 0, 1, .put, 0, none, none⟩,
    ⟨⟨0, .edgeIdentity, 0, 1⟩, 0, 1, .put, 0, none, some ⟨1, 1, 2, 1, 0, 0, 0⟩⟩,
    ⟨⟨0, .edgeIdentity, 0, 2⟩, 0, 1, .put, 0, none, some ⟨2, 2, 3, 1, 0, 0, 0⟩⟩,
    ⟨EntityFact.edge ⟨0, 1⟩, 0, 1, .put, 0, none, none⟩,
    ⟨EntityFact.edge ⟨0, 1⟩, 100, 1, .delete, 0, none, none⟩,
    ⟨EntityFact.edge ⟨0, 2⟩, 50, 1, .put, 0, none, none⟩,
    ⟨EntityFact.edge ⟨0, 2⟩, 100, 1, .delete, 0, none, none⟩]
  valid := by decide +kernel
  distinct := by decide +kernel

/-- A journey from 1 to 3, on which every edge takes 1. -/
def relayRequest : JourneyRequest where
  source := ⟨0, 1⟩
  target := ⟨0, 3⟩
  interval := ⟨0, some 100⟩
  durationAt := some fun _ _ => .ok (some 1)

/-- Durations which do not differ keep the order of arrivals. -/
theorem fifo_of_eq {duration : EdgeRef → ValidTime → Option ValidDuration} {lasting : ValidDuration}
    (h : ∀ edge t, ∀ found ∈ duration edge t, found = lasting) :
  Fifo duration
  := by
  intro edge s t _ _ hle hs ht
  rw [h edge s _ hs, h edge t _ ht]
  rw [UInt64.le_iff_toNat_le] at hle
  omega

theorem relay_latestDeparture :
  ∃ bound, ∀ fuel ≥ bound, ∃ outcome,
    (relayFacts.graphAt 1).latestDeparture (Sorter.insertion _) relayRequest (Sorter.insertion _)
      fuel = some outcome ∧
    (relayFacts.graphAt 1).LatestOptimal relayRequest (fun _ _ => some 1) 100 outcome
  := latestDeparture_optimal (Sorter.insertion _) (Sorter.insertion _) (relayFacts.graphAt 1)
    relayRequest (fun _ _ => some 1) 100 (fun _ _ => rfl) (@fifo_of_eq _ 1 (by simp)) (by decide) rfl (by decide)

end TemporalGraph

end Cedar
