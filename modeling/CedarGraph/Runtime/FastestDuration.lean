import CedarGraph.Runtime.EarliestArrival

/-!
# Taking as little time as possible

The search for a journey which takes as little time as possible goes forward from the source at the
start of the interval, like the one for an early arrival.  A label also has the departure of its
first traversal, and the answer is the best one of the labels at the target.

The labels are again those of the prompt journeys.  A prompt journey leaves the source at once, or
when the first edge appears, also if a later departure would only shorten a wait.  Hence the search
is right about all journeys if and only if each of them can be replaced by a prompt one which does
not take more time.
-/

namespace Cedar

open JourneyRequest List Or LabelSearch StatusOr

/-! ### The best label -/

namespace ParetoLabel

variable {label answer : ParetoLabel}

theorem elapsed_le_of_better (h : label.better answer = true) :
  label.elapsed ≤ answer.elapsed
  := by
  rw [better] at h
  split at h
  case isTrue heq => apply le_of_eq heq.1
  case isFalse =>
    rcases of_decide_eq_true h with hlt | ⟨heq, -⟩
    · apply le_of_lt hlt
    · apply le_of_eq heq

theorem elapsed_le_of_not_better (h : label.better answer = false) :
  answer.elapsed ≤ label.elapsed
  := by
  rw [better] at h
  split at h
  case isTrue heq => apply le_of_eq heq.1.symm
  case isFalse => apply not_lt.mp (not_or.mp (of_decide_eq_false h)).1

end ParetoLabel

namespace TemporalGraph

section Improve

variable {request : JourneyRequest} {answer : Option ParetoLabel} {current : ParetoLabel}

/-- The label is an answer. -/
def Answers (request : JourneyRequest) (label : ParetoLabel) : Prop :=
  label.vertex = request.target ∧ label.depth ≠ 0

/-- The answer does not get worse. -/
theorem exists_improve_of_answer {label : ParetoLabel} (h : answer = some label) :
  ∃ best, improve request answer current = some best ∧ best.elapsed ≤ label.elapsed
  := by
  subst h
  rw [improve]
  split
  case isTrue h => use current, rfl, ParetoLabel.elapsed_le_of_better h.2.2
  case isFalse => use label

/-- The answer after some labels is the best one. -/
theorem foldl_improve (labels : List ParetoLabel) (answer : Option ParetoLabel) :
  (∀ best, labels.foldl (improve request) answer = some best →
    answer = some best ∨ best ∈ labels ∧ Answers request best) ∧
  (∀ label, answer = some label ∨ label ∈ labels ∧ Answers request label →
    ∃ best, labels.foldl (improve request) answer = some best ∧ best.elapsed ≤ label.elapsed)
  := by
  induction labels generalizing answer with
  | nil =>
    constructor
    · intro best hbest
      apply inl hbest
    · rintro label (hlabel | ⟨hmem, -⟩)
      · use label, hlabel
      · cases hmem
  | cons current labels ih =>
    obtain ⟨hsound, hbest⟩ := ih (improve request answer current)
    constructor
    · intro best hfold
      rcases hsound best hfold with hanswer | ⟨hmem, hbest⟩
      · rw [improve] at hanswer
        split at hanswer
        case isTrue hbetter =>
          obtain rfl := Option.some.inj hanswer
          apply inr ⟨mem_cons_self, hbetter.1, hbetter.2.1⟩
        case isFalse => apply inl hanswer
      · apply inr ⟨mem_cons_of_mem _ hmem, hbest⟩
    · intro label hlabel
      have hstep : (∃ best, improve request answer current = some best ∧
          best.elapsed ≤ label.elapsed) ∨ label ∈ labels ∧ Answers request label := by
        rcases hlabel with hanswer | ⟨hmem, hlabel⟩
        · apply inl (exists_improve_of_answer hanswer)
        · rcases mem_cons.mp hmem with rfl | hmem
          · left
            rw [improve]
            split
            · use label
            case isFalse hworse =>
              rcases answer with - | best
              · cases hworse ⟨hlabel.1, hlabel.2, rfl⟩
              · use best, rfl
                apply ParetoLabel.elapsed_le_of_not_better
                rw [Bool.eq_false_iff]
                intro hbetter
                apply hworse ⟨hlabel.1, hlabel.2, hbetter⟩
          · apply inr ⟨hmem, hlabel⟩
      rcases hstep with ⟨best, heq, hle⟩ | hmem
      · obtain ⟨best', hfold, hle'⟩ := hbest best (inl heq)
        use best', hfold, le_trans hle' hle
      · apply hbest label (inr hmem)

end Improve

/-! ### The search -/

section Fastest

variable (graph : TemporalGraph) (request : JourneyRequest)
  (duration : EdgeRef → ValidTime → Option ValidDuration)

/-- The label of the source at the start of the interval. -/
def originLabel : ParetoLabel :=
  ⟨request.source, request.interval.start, request.interval.start, 0, []⟩

/-- The path of a label is a prompt journey with the departure of the label. -/
structure Onward (label : ParetoLabel) : Prop where
  depth : label.depth ≠ 0
  departs : ∃ first rest, label.path = first :: rest ∧ first.departure = label.departure
  prompt : graph.IsPrompt request duration request.source request.interval.start
    (label.path.map JourneyTraversal.leg) label.vertex label.arrival
  hops : request.Counts label.depth label.path.length

/-- The label is the first one, or its path is a prompt journey. -/
def OnwardLabel (label : ParetoLabel) : Prop :=
  label = originLabel request ∨
    request.paretoKey label ≠ request.paretoKey (originLabel request) ∧
      graph.Onward request duration label

/-- The legs do not come back to the source at the start of the interval, unless the number of legs
is counted. -/
def Leaves (legs : List JourneyLeg) : Prop :=
  request.maxHops = 0 → ∀ before after, legs = before ++ after →
    graph.IsPrompt request duration request.source request.interval.start before
      request.source request.interval.start → before = []

/-- The state is that of a prompt journey after some of its legs. -/
def OnwardTrack (legs : List JourneyLeg) (t : ValidTime) (i : Nat)
    (state : VertexRef × UInt32 × ValidTime × ValidTime) : Prop :=
  ∃ before after, legs = before ++ after ∧ before.length = i ∧
    state.2.1 = request.stateDepth (UInt32.ofNat i) ∧
    state.2.2.1 = (before.head?.map (·.departure)).getD request.interval.start ∧
    graph.IsPrompt request duration request.source request.interval.start before state.1
      state.2.2.2 ∧
    graph.IsPrompt request duration state.1 state.2.2.2 after request.target t

variable {graph request duration} {sorter : Sorter TemporalTraversal.sortKey}
  {sorter' : Sorter JourneyTraversal.sortKey} {legs : List JourneyLeg} {t : ValidTime}

variable {label : ParetoLabel} {leg : JourneyLeg}

/-- The path of a label is prompt. -/
theorem OnwardLabel.prompt (h : graph.OnwardLabel request duration label) :
  graph.IsPrompt request duration request.source request.interval.start
    (label.path.map JourneyTraversal.leg) label.vertex label.arrival
  := by
  rcases h with rfl | ⟨-, h⟩
  · apply IsPrompt.nil
  · apply h.prompt

theorem OnwardLabel.hops (h : graph.OnwardLabel request duration label) :
  request.Counts label.depth label.path.length
  := by
  rcases h with rfl | ⟨-, h⟩
  · apply counts_zero
  · apply h.hops

/-- One more traversal: the first one fixes the departure. -/
theorem OnwardLabel.next {current : ParetoLabel} {step : JourneyTraversal}
    {identity : EdgeIdentity} (h : graph.OnwardLabel request duration current)
    (hdepth : current.depth ≠ -1) (hhops : request.maxHops = 0 ∨ current.depth < request.maxHops)
    (hprompt : graph.PromptVia request duration current.arrival identity step.leg)
    (hsource : step.leg.source = current.vertex) :
  graph.Onward request duration
    ⟨step.traversal.target, if current.depth = 0 then step.departure else current.departure,
      step.arrival, current.depth + 1, current.path ++ [step]⟩
  where
  depth := by
    intro hzero
    rw [← UInt32.toNat_inj, depth_toNat_succ hdepth, UInt32.toNat_zero] at hzero
    omega
  departs := by
    rcases h with rfl | ⟨-, h⟩
    · exact ⟨step, [], rfl, rfl⟩
    · obtain ⟨first, rest, hpath, hfirst⟩ := h.departs
      dsimp only
      rw [hpath, if_neg h.depth]
      exact ⟨first, rest ++ [step], rfl, hfirst⟩
  prompt := by
    rw [map_append]
    apply h.prompt.append hprompt hsource
  hops := by
    rw [length_append]
    apply h.hops.succ hdepth hhops

variable (hduration : ∀ edge time,
  graph.propertyDuration request edge time = .ok (duration edge time))

variable (sorter sorter') in
include hduration in
/-- The search explores prompt journeys. -/
theorem explores_fastest :
  Explores request.paretoKey (fun _ => false)
    (graph.fastestNext sorter sorter' request) (originLabel request)
    (graph.OnwardLabel request duration)
  where
  good_init := Or.inl rfl
  good := by
    intro current next label hcurrent _ hnext hmem hkey
    rcases of_checkDepth hnext with ⟨hdepth, hhops, hnext⟩ | ⟨-, -, rfl⟩
    · obtain ⟨steps, hsteps, hnext⟩ := bind_eq_ok_iff.mp hnext
      rw [← Except.ok.inj hnext] at hmem
      obtain ⟨step, hstep, rfl⟩ := mem_map.mp hmem
      obtain ⟨hsource, identity, hprompt⟩ :=
        (exists_mem_expandAt_iff hduration hcurrent.prompt.le hsteps).mp
          ⟨step, (sorter'.perm steps).mem_iff.mp hstep, rfl⟩
      apply Or.inr ⟨hkey, hcurrent.next hdepth hhops hprompt hsource⟩
    · cases hmem

/-- After a leg the label is not the first one. -/
theorem OnwardLabel.onward {label : ParetoLabel} {before after : List JourneyLeg}
    (h : graph.OnwardLabel request duration label)
    (hlegs : request.WithinHops (before ++ after).length)
    (hleaves : graph.Leaves request duration (before ++ after)) (hbefore : before ≠ [])
    (hdepth : request.stateDepth label.depth = request.stateDepth (UInt32.ofNat before.length))
    (hprompt : graph.IsPrompt request duration request.source request.interval.start before
      label.vertex label.arrival) :
  graph.Onward request duration label
  := by
  rcases h with rfl | ⟨-, h⟩
  · exfalso
    apply hbefore
    by_cases hhops : request.maxHops = 0
    · apply hleaves hhops before after rfl hprompt
    · have hle := hlegs hhops
      have hmax := request.maxHops.toNat_lt
      rw [length_append] at hle
      rw [stateDepth, stateDepth, if_neg hhops, if_neg hhops,
        ← UInt32.toNat_inj, UInt32.toNat_ofNat_of_lt' (by rw [UInt32.size]; omega)] at hdepth
      apply eq_nil_of_length_eq_zero hdepth.symm
  · apply h

variable (sorter sorter') in
include hduration in
/-- The search tracks a prompt journey. -/
theorem tracks_fastest (hlegs : graph.PromptWithin request duration legs t)
    (hleaves : graph.Leaves request duration legs) :
  Tracks request.paretoKey (fun _ => false)
    (graph.fastestNext sorter sorter' request) (originLabel request)
    (graph.OnwardLabel request duration) legs.length (graph.OnwardTrack request duration legs t)
  where
  init := ⟨[], legs, rfl, rfl, rfl, rfl, .nil, hlegs.prompt⟩
  next := by
    rintro i current next hi hcurrent - hnext
      ⟨before, after, rfl, hlength, hdepth, hdeparture, hbefore, hafter⟩
    cases after with
    | nil =>
      rw [append_nil] at hi
      omega
    | cons leg after =>
      obtain ⟨hsource, ⟨identity, hprompt⟩, hrest⟩ := hafter.of_cons
      have hnext := next_eq_of_checkDepth hnext hdepth hlegs.hops hi
      obtain ⟨steps, hsteps, hnext⟩ := bind_eq_ok_iff.mp hnext
      obtain ⟨step, hstep, rfl⟩ :=
        (exists_mem_expandAt_iff hduration hcurrent.prompt.le hsteps).mpr
          ⟨hsource, identity, hprompt⟩
      refine ⟨⟨step.traversal.target,
          if current.depth = 0 then step.departure else current.departure, step.arrival,
          current.depth + 1, current.path ++ [step]⟩, ?_,
        before ++ [step.leg], after, ?_, ?_, stateDepth_succ hdepth, ?_,
        hbefore.append hprompt hsource, hrest⟩
      · rw [← Except.ok.inj hnext]
        apply mem_map.mpr ⟨step, (sorter'.perm steps).mem_iff.mpr hstep, rfl⟩
      · rw [append_assoc, singleton_append]
      · rw [length_append, hlength, length_singleton]
      · -- only the first label takes the departure of the leg
        cases before with
        | nil =>
          obtain rfl : current = originLabel request := by
            rcases hcurrent with rfl | ⟨hkey, -⟩
            · rfl
            · exfalso
              apply hkey
              obtain ⟨hvertex, harrival⟩ := hbefore.of_nil
              subst hlength
              exact Prod.ext hvertex.symm
                (Prod.ext hdepth (Prod.ext hdeparture harrival.symm))
          rfl
        | cons first before =>
          have honward := hcurrent.onward hlegs.hops hleaves (cons_ne_nil first before)
            (hlength ▸ hdepth) hbefore
          exact (if_neg honward.depth).trans hdeparture

/-- A prompt journey which comes back to the source at the start of the interval can be shortened. -/
theorem PromptWithin.exists_leaves (h : graph.PromptWithin request duration (leg :: legs) t)
    (hloop : request.maxHops = 0 → request.source = request.target → t ≠ request.interval.start) :
  ∃ leg' legs', graph.PromptWithin request duration (leg' :: legs') t ∧
    leg.departure ≤ leg'.departure ∧ graph.Leaves request duration (leg' :: legs')
  := by
  induction hlength : legs.length using Nat.strong_induction_on generalizing leg legs with
  | _ n ih =>
    by_cases hleaves : graph.Leaves request duration (leg :: legs)
    · use leg, legs, h, le_refl _
    · simp only [Leaves, not_forall] at hleaves
      obtain ⟨hhops, before, after, hsplit, hback, hbefore⟩ := hleaves
      -- what comes after the return is a shorter prompt journey
      have hprompt := h.prompt
      rw [hsplit] at hprompt
      obtain ⟨v, r, hbefore', hafter⟩ := hprompt.of_append
      obtain ⟨rfl, rfl⟩ := hback.unique hbefore'
      cases after with
      | nil =>
        obtain ⟨htarget, htime⟩ := hafter.of_nil
        cases hloop hhops htarget htime.symm
      | cons leg' legs' =>
        obtain ⟨first, before, rfl⟩ := exists_cons_of_ne_nil hbefore
        obtain ⟨rfl, hlegs⟩ := cons.inj hsplit
        have hshorter : legs'.length < n := by
          rw [← hlength, hlegs, append_eq, length_append, length_cons]
          omega
        obtain ⟨leg'', legs'', hwithin, hle, hleaves⟩ :=
          ih legs'.length hshorter ⟨hafter, fun hbounded => (hbounded hhops).elim⟩ rfl
        refine ⟨leg'', legs'', hwithin, le_trans ?_ hle, hleaves⟩
        -- the first leg of the loop departs at the start of the interval
        obtain ⟨-, ⟨identity, hvia⟩, hrest⟩ := hback.of_cons
        obtain ⟨-, ⟨identity', hvia'⟩, -⟩ := hafter.of_cons
        apply le_trans (le_trans hvia.feasible.le hrest.le) hvia'.after

variable (graph request duration) in
/-- A journey which is found takes as little time as any, and one is found if there is any. -/
def FastestOptimal (outcome : StatusOr JourneyValue) : Prop :=
  (∀ journey, outcome = .ok journey → ∃ first rest,
    journey = buildJourney (first :: rest) first.departure ∧
    graph.JourneyWithin request duration ((first :: rest).map JourneyTraversal.leg) ∧
    ∀ leg legs, graph.JourneyWithin request duration (leg :: legs) →
      ∀ last ∈ (leg :: legs).getLast?,
        journey.finalArrival - journey.initialDeparture ≤ last.arrival - leg.departure) ∧
  ∀ error, outcome = .error error → error.code = .notFound →
    ∀ leg legs, ¬ graph.JourneyWithin request duration (leg :: legs)

variable (graph request duration) in
/-- The legs are a prompt journey with the given departure and arrival, for which the search has a
label.  It has none for a loop at the start of the interval, if legs are not counted. -/
def Searched (departure arrival : ValidTime) : Prop :=
  ∃ leg legs, graph.PromptWithin request duration (leg :: legs) arrival ∧
    leg.departure = departure ∧
    (request.maxHops = 0 → request.source = request.target → arrival ≠ request.interval.start)

variable (graph request duration) in
/-- What the search says about prompt journeys: the one it finds takes as little time as any, and it
finds one if there is any. -/
def FastestPrompt (outcome : StatusOr JourneyValue) : Prop :=
  (∀ journey, outcome = .ok journey → ∃ first rest,
    journey = buildJourney (first :: rest) first.departure ∧
    graph.JourneyWithin request duration ((first :: rest).map JourneyTraversal.leg) ∧
    graph.Searched request duration journey.initialDeparture journey.finalArrival ∧
    ∀ departure arrival, graph.Searched request duration departure arrival →
      journey.finalArrival - journey.initialDeparture ≤ arrival - departure) ∧
  ∀ error, outcome = .error error → error.code = .notFound →
    ∀ departure arrival, ¬ graph.Searched request duration departure arrival

/-- The label after the whole prompt journey is an answer with its departure and arrival. -/
theorem OnwardTrack.answers
    (h : graph.OnwardTrack request duration (leg :: legs) t (leg :: legs).length
      (request.paretoKey label)) (hlabel : graph.OnwardLabel request duration label)
    (hlegs : graph.PromptWithin request duration (leg :: legs) t)
    (hleaves : graph.Leaves request duration (leg :: legs)) :
  Answers request label ∧ label.departure = leg.departure ∧ label.arrival = t
  := by
  obtain ⟨before, after, hsplit, hlength, hdepth, hdeparture, hbefore, hafter⟩ := h
  obtain rfl : after = [] := by
    have hsum := congrArg length hsplit
    rw [length_append] at hsum
    apply eq_nil_of_length_eq_zero
    omega
  rw [append_nil] at hsplit
  subst hsplit
  have honward := @OnwardLabel.onward _ _ _ label (leg :: legs) [] hlabel
    (by rw [append_nil]; apply hlegs.hops) (by rw [append_nil]; apply hleaves)
    (cons_ne_nil leg legs) hdepth hbefore
  obtain ⟨hvertex, harrival⟩ := hafter.of_nil
  exact ⟨⟨hvertex, honward.depth⟩, hdeparture, harrival⟩

/-- An answer is the end of a prompt journey which is searched. -/
theorem OnwardLabel.of_answers (h : graph.OnwardLabel request duration label)
    (hanswers : Answers request label) :
  ∃ first rest, label.path = first :: rest ∧ first.departure = label.departure ∧
    graph.PromptWithin request duration ((first :: rest).map JourneyTraversal.leg) label.arrival ∧
    graph.Searched request duration label.departure label.arrival
  := by
  rcases h with rfl | ⟨hkey, h⟩
  · cases hanswers.2 rfl
  · obtain ⟨first, rest, hpath, hfirst⟩ := h.departs
    have hprompt := h.prompt
    rw [hanswers.1, hpath] at hprompt
    have hwithin : graph.PromptWithin request duration
        ((first :: rest).map JourneyTraversal.leg) label.arrival := by
      refine ⟨hprompt, ?_⟩
      rw [length_map, ← hpath]
      apply h.hops.withinHops
    refine ⟨first, rest, hpath, hfirst, hwithin, first.leg, rest.map JourneyTraversal.leg, hwithin,
      hfirst, ?_⟩
    intro hhops hsource hstart
    apply hkey
    -- a loop at the start of the interval also departs then
    obtain ⟨-, ⟨identity, hvia⟩, hrest⟩ := hprompt.of_cons
    have hdeparture : label.departure = request.interval.start := by
      apply le_antisymm
      · rw [← hfirst, ← hstart]
        apply le_trans hvia.feasible.le hrest.le
      · rw [← hfirst]
        apply hvia.after
    have hdepth : request.stateDepth label.depth = request.stateDepth 0 := by
      rw [stateDepth, stateDepth, if_pos hhops, if_pos hhops]
    exact Prod.ext (hanswers.1.trans hsource.symm) (Prod.ext hdepth (Prod.ext hdeparture hstart))

variable {fuel : Nat} {outcome : StatusOr JourneyValue}

variable (sorter sorter') in
include hduration in
/-- The labels of the search are those of prompt journeys, and it reaches the end of every prompt
journey which is searched. -/
theorem processed_of_search {outcome : Outcome ParetoLabel}
    (hsearch : search request.paretoKey (fun _ _ => true) (fun _ => false)
      (graph.fastestNext sorter sorter' request) fuel (originLabel request) = some (.ok outcome)) :
  (∀ label ∈ outcome.processed, graph.OnwardLabel request duration label) ∧
    ∀ departure arrival, graph.Searched request duration departure arrival →
      ∃ label ∈ outcome.processed, Answers request label ∧ label.elapsed ≤ arrival - departure
  := by
  have hexplores := @explores_fastest graph request duration sorter sorter' hduration
  have hnone : outcome.found = none := by
    rcases hfound : outcome.found with - | label
    · rfl
    · obtain ⟨-, hstop, -⟩ := hexplores.of_found hsearch hfound (fun _ => 0)
        (fun _ _ _ => le_refl 0) (fun _ _ _ => le_refl 0)
      cases hstop
  obtain ⟨hprocessed, htracked⟩ := hexplores.of_exhausted hsearch hnone
  use fun label hmem => (hprocessed label hmem).1
  rintro departure arrival h
  obtain ⟨leg, legs, hwithin, rfl, hloop⟩ := h
  obtain ⟨leg', legs', hwithin', hle, hleaves⟩ := hwithin.exists_leaves hloop
  obtain ⟨label, hmem, htrack⟩ := htracked _ _
    (tracks_fastest sorter sorter' hduration hwithin' hleaves)
  obtain ⟨hanswers, hdeparture, harrival⟩ :=
    htrack.answers (hprocessed label hmem).1 hwithin' hleaves
  use label, hmem, hanswers
  rw [ParetoLabel.elapsed, hdeparture, harrival]
  obtain ⟨-, ⟨identity, hvia⟩, hrest⟩ := hwithin'.prompt.of_cons
  have hle' := le_trans hvia.feasible.le hrest.le
  rw [UInt64.le_iff_toNat_le, UInt64.toNat_sub_of_le _ _ hle',
    UInt64.toNat_sub_of_le _ _ (le_trans hle hle')]
  rw [UInt64.le_iff_toNat_le] at hle
  omega

variable (sorter sorter') in
include hduration in
/-- The search for a fast journey finds a prompt journey which takes as little time as any, unless
there is none. -/
theorem exists_fastestDuration
    (hfuel : Nat.card (VertexRef × UInt32 × ValidTime × ValidTime) < fuel) :
  ∃ outcome, graph.fastestDuration sorter sorter' request fuel = some outcome ∧
    graph.FastestPrompt request duration outcome
  := by
  have hexplores := @explores_fastest graph request duration sorter sorter' hduration
  rw [fastestDuration]
  split
  · refine ⟨_, rfl, ?_, ?_⟩
    · rintro _ ⟨⟩
    · rintro _ ⟨⟩ ⟨⟩
  case h_2 stop hstop =>
    split
    case isTrue hle =>
      refine ⟨_, rfl, ?_, ?_⟩
      · rintro _ ⟨⟩
      · rintro _ _ _ departure arrival ⟨leg, legs, hwithin, -⟩
        obtain ⟨⟨identity, hvia⟩, -⟩ :=
          @IsJourney.of_append _ _ _ _ _ _ [] _ hwithin.journeyWithin.journey
        apply not_lt_of_ge (le_trans hle hvia.departs.1) (hvia.departs.2 stop hstop)
    case isFalse =>
      obtain ⟨found, hsearch⟩ := hexplores.exists_search
        (fun _ _ => true) _ (fun _ _ => id) hfuel
      have hsearch' := hsearch
      rw [originLabel] at hsearch'
      rw [hsearch', Option.map_some]
      refine ⟨_, rfl, ?_, ?_⟩
      · intro journey hjourney
        obtain ⟨outcome, rfl, hvalue⟩ := bind_eq_ok_iff.mp hjourney
        obtain ⟨hsound, hbest⟩ := @foldl_improve request outcome.processed none
        obtain ⟨hprocessed, hreached⟩ := processed_of_search sorter sorter' hduration hsearch
        split at hvalue
        case h_1 answer hanswer =>
          obtain rfl := Except.ok.inj hvalue
          obtain ⟨hmem, hanswers⟩ := (hsound answer hanswer).resolve_left (by rintro ⟨⟩)
          obtain ⟨first, rest, hpath, hfirst, hwithin, hsearched⟩ :=
            (hprocessed answer hmem).of_answers hanswers
          rw [hpath, ← hfirst]
          use first, rest, rfl, hwithin.journeyWithin
          rw [hwithin.prompt.finalArrival_eq]
          have hinitial : (buildJourney (first :: rest) first.departure).initialDeparture =
              answer.departure := hfirst
          rw [hinitial]
          use hsearched
          intro departure arrival hsearched'
          obtain ⟨label, hmem', hanswers', hle⟩ := hreached departure arrival hsearched'
          obtain ⟨best, hfold, hle'⟩ := hbest label (inr ⟨hmem', hanswers'⟩)
          rw [hanswer] at hfold
          obtain rfl := Option.some.inj hfold
          apply le_trans hle' hle
        case h_2 => cases hvalue
      · intro error herror hcode departure arrival hsearched
        cases found with
        | error error' =>
          obtain rfl := Except.error.inj herror
          obtain ⟨label, hlabel⟩ := exists_expand_of_run hsearch
          apply neverNotFound_checkDepth _ _ hlabel hcode
          apply (neverNotFound_expandAt hduration label.vertex label.arrival).bind
            fun _ _ => neverNotFound_ok _
        | ok outcome =>
          obtain ⟨label, hmem, hanswers, -⟩ :=
            (processed_of_search sorter sorter' hduration hsearch).2 departure arrival hsearched
          obtain ⟨best, hfold, -⟩ := (@foldl_improve request outcome.processed none).2 label
            (inr ⟨hmem, hanswers⟩)
          rw [ok_bind, hfold] at herror
          cases herror

variable (graph request duration) in
/-- Every journey can be replaced by a prompt one which is searched and does not take more time. -/
def Hastenable : Prop :=
  ∀ leg legs, graph.JourneyWithin request duration (leg :: legs) →
    ∀ last ∈ (leg :: legs).getLast?, ∃ departure arrival,
      graph.Searched request duration departure arrival ∧
        arrival - departure ≤ last.arrival - leg.departure

/-- The search for a fast journey ends.  If it does not fail, then it is right about all journeys if
and only if each of them can be replaced by a prompt one. -/
theorem fastestDuration_optimal_iff (sorter : Sorter TemporalTraversal.sortKey)
    (sorter' : Sorter JourneyTraversal.sortKey) (graph : TemporalGraph) (request : JourneyRequest)
    (duration : EdgeRef → ValidTime → Option ValidDuration)
    (hduration : ∀ edge time, graph.propertyDuration request edge time = .ok (duration edge time)) :
  ∃ bound, ∀ fuel ≥ bound, ∃ outcome,
    graph.fastestDuration sorter sorter' request fuel = some outcome ∧
    ((∀ error, outcome = .error error → error.code = .notFound) →
      (graph.FastestOptimal request duration outcome ↔ graph.Hastenable request duration))
  := by
  use Nat.card (VertexRef × UInt32 × ValidTime × ValidTime) + 1
  intro fuel hfuel
  obtain ⟨outcome, houtcome, hprompt⟩ :=
    exists_fastestDuration sorter sorter' hduration (Nat.lt_of_succ_le hfuel)
  use outcome, houtcome
  intro hends
  constructor
  · intro hoptimal leg legs hlegs last hlast
    cases houtcome : outcome with
    | error error => cases hoptimal.2 error houtcome (hends error houtcome) leg legs hlegs
    | ok journey =>
      obtain ⟨first, rest, -, -, hsearched, -⟩ := hprompt.1 journey houtcome
      obtain ⟨_, _, -, -, hbest⟩ := hoptimal.1 journey houtcome
      refine ⟨_, _, hsearched, hbest leg legs hlegs last hlast⟩
  · intro hall
    constructor
    · intro journey hjourney
      obtain ⟨first, rest, heq, hwithin, -, hbest⟩ := hprompt.1 journey hjourney
      use first, rest, heq, hwithin
      intro leg legs hlegs last hlast
      obtain ⟨departure, arrival, hsearched, hle⟩ := hall leg legs hlegs last hlast
      apply le_trans (hbest departure arrival hsearched) hle
    · intro error herror hcode leg legs hlegs
      obtain ⟨departure, arrival, hsearched, -⟩ := hall leg legs hlegs _
        (getLast?_eq_some_getLast (cons_ne_nil leg legs))
      apply hprompt.2 error herror hcode departure arrival hsearched

end Fastest

theorem steady_fastestDuration :
  ∃ bound, ∀ fuel ≥ bound, ∃ outcome,
    (ferryFacts.graphAt 1).fastestDuration (Sorter.insertion _) (Sorter.insertion _) steadyRequest
      fuel = some outcome ∧
    ((∀ error, outcome = .error error → error.code = .notFound) →
      (ferryFacts.graphAt 1).FastestOptimal steadyRequest (fun _ _ => some 1) outcome)
  := by
  have hhasten : (ferryFacts.graphAt 1).Hastenable steadyRequest fun _ _ => some 1 := by
    intro leg legs hlegs last hlast
    have hmem := mem_of_getLast? hlast
    have hle := UInt64.le_iff_toNat_le.mp (hlegs.journey.departure_le last hmem)
    have harrival := arrival_of_steady hlegs hmem
    use 0, 1, ⟨_, _, ⟨steady_isPrompt, fun h => (h rfl).elim⟩, rfl, fun _ => nofun⟩
    rw [UInt64.le_iff_toNat_le, UInt64.toNat_sub_of_le last.arrival, harrival]
    · simp
      omega
    · rw [UInt64.le_iff_toNat_le]
      omega
  obtain ⟨bound, hbound⟩ := fastestDuration_optimal_iff (Sorter.insertion _) (Sorter.insertion _)
    (ferryFacts.graphAt 1) steadyRequest (fun _ _ => some 1) (fun _ _ => rfl)
  use bound
  intro fuel hfuel
  obtain ⟨outcome, houtcome, hiff⟩ := hbound fuel hfuel
  use outcome, houtcome, fun hends => (hiff hends).mpr hhasten

/-! ### The searches end -/

section Ending

variable (sorter : Sorter TemporalTraversal.sortKey) (sorter' : Sorter JourneyTraversal.sortKey)
  (latest : Sorter JourneyTraversal.latestKey) (graph : TemporalGraph) (request : JourneyRequest)

/-- The labels of the search for an early arrival, after so many rounds. -/
def earliestLabels (rounds : Nat) : List JourneyLabel :=
  created request.timedKey (fun a b => a.time ≤ b.time) (fun label => label.vertex = request.target)
    (graph.earliestNext sorter request) rounds [startLabel request] [startLabel request]

/-- The labels of the search for a late departure, after so many rounds. -/
def latestLabels (deadline : ValidTime) (rounds : Nat) : List JourneyLabel :=
  created request.timedKey (fun a b => b.time < a.time) (fun label => label.vertex = request.source)
    (graph.latestNext sorter request latest) rounds [deadlineLabel request deadline]
    [deadlineLabel request deadline]

/-- The labels of the search for a fast journey, after so many rounds. -/
def fastestLabels (rounds : Nat) : List ParetoLabel :=
  created request.paretoKey (fun _ _ => true) (fun _ => false)
    (graph.fastestNext sorter sorter' request) rounds [originLabel request] [originLabel request]

/-- Without a bound on the traversals, labels at the same vertex and time have the same key. -/
theorem timedKey_eq_of_state {request : JourneyRequest} (hhops : request.maxHops = 0)
    (a b : JourneyLabel) (h : (a.vertex, a.time) = (b.vertex, b.time)) :
  request.timedKey a = request.timedKey b
  := by
  obtain ⟨hvertex, htime⟩ := Prod.mk.inj h
  rw [timedKey, timedKey, stateDepth, stateDepth, if_pos hhops, if_pos hhops, hvertex, htime]

theorem paretoKey_eq_of_state {request : JourneyRequest} (hhops : request.maxHops = 0)
    (a b : ParetoLabel)
    (h : (a.vertex, a.departure, a.arrival) = (b.vertex, b.departure, b.arrival)) :
  request.paretoKey a = request.paretoKey b
  := by
  obtain ⟨hvertex, htimes⟩ := Prod.mk.inj h
  rw [paretoKey, paretoKey, stateDepth, stateDepth, if_pos hhops, if_pos hhops, hvertex, htimes]

/-- If the number of traversals is not bounded, then the searches make at most one label for each
vertex and time, or vertex, departure and arrival, and they end in as many rounds, also if edges
take no time. -/
theorem searches_end (hhops : request.maxHops = 0) :
  (∀ rounds, ((graph.earliestLabels sorter request rounds).map fun label =>
      (label.vertex, label.time)).Nodup) ∧
    (∀ fuel > Nat.card (VertexRef × ValidTime), ∃ outcome,
      graph.earliestArrival sorter request fuel = some outcome) ∧
    (∀ deadline rounds, ((graph.latestLabels sorter latest request deadline rounds).map fun label =>
      (label.vertex, label.time)).Nodup) ∧
    (∀ fuel > Nat.card (VertexRef × ValidTime), ∃ outcome,
      graph.latestDeparture sorter request latest fuel = some outcome) ∧
    (∀ rounds, ((graph.fastestLabels sorter sorter' request rounds).map fun label =>
      (label.vertex, label.departure, label.arrival)).Nodup) ∧
    ∀ fuel > Nat.card (VertexRef × ValidTime × ValidTime), ∃ outcome,
      graph.fastestDuration sorter sorter' request fuel = some outcome
  := by
  have htimed := timedKey_eq_of_state hhops
  have hpareto := paretoKey_eq_of_state hhops
  refine ⟨?_, ?_, ?_, ?_, ?_, ?_⟩
  · apply nodup_created htimed
  · intro fuel hfuel
    rw [earliestArrival]
    split
    · exact ⟨_, rfl⟩
    · apply exists_map_search htimed hfuel
  · intro deadline
    apply nodup_created htimed
  · intro fuel hfuel
    rw [latestDeparture]
    split
    · exact ⟨_, rfl⟩
    · split
      · exact ⟨_, rfl⟩
      · apply exists_map_search htimed hfuel
  · apply nodup_created hpareto
  · intro fuel hfuel
    rw [fastestDuration]
    split
    · exact ⟨_, rfl⟩
    · split
      · exact ⟨_, rfl⟩
      · apply exists_map_search hpareto hfuel

end Ending

/-- Both edges can be taken in either direction, and take no time. -/
theorem searches_end_relay :
  ∃ fuel, ∃ outcome, (relayFacts.graphAt 1).earliestArrival (Sorter.insertion _)
    { relayRequest with durationAt := some fun _ _ => .ok (some 0), direction := .both } fuel =
      some outcome
  := ⟨_, (searches_end (Sorter.insertion _) (Sorter.insertion _) (Sorter.insertion _) _ _ rfl).2.1
    _ (Nat.lt_succ_self _)⟩

/-- The journey which departs at 50 and does not wait. -/
theorem relay_journeyWithin :
  (relayFacts.graphAt 1).JourneyWithin relayRequest (fun _ _ => some 1)
    [⟨⟨0, 1⟩, ⟨0, 1⟩, ⟨0, 2⟩, 50, 51⟩, ⟨⟨0, 2⟩, ⟨0, 2⟩, ⟨0, 3⟩, 51, 52⟩]
  where
  journey := by
    apply @IsJourney.cons _ _ _ ⟨⟨0, 1⟩, ⟨0, 1⟩, ⟨0, 2⟩, 50, 51⟩ _ _
      ⟨⟨1, 1, 2, 1, 0, 0, 0⟩, feasibleVia_of_contains (by decide +kernel) (by rintro _ ⟨⟩) rfl rfl⟩
    · rintro _ ⟨⟩
      use by decide
      intro r hle hlt
      cases not_lt_of_ge hle hlt
    · apply @IsJourney.cons _ _ _ ⟨⟨0, 2⟩, ⟨0, 2⟩, ⟨0, 3⟩, 51, 52⟩ [] _
        ⟨⟨2, 2, 3, 1, 0, 0, 0⟩, feasibleVia_of_contains (by decide +kernel) (by rintro _ ⟨⟩) rfl rfl⟩
        _ .nil
      rintro _ ⟨⟩
  hops hbounded := (hbounded rfl).elim

/-- The journey which is found departs at once and takes 51, while another one takes 2. -/
theorem relay_not_fastestOptimal :
  (∀ edge time, (relayFacts.graphAt 1).propertyDuration relayRequest edge time = .ok (some 1)) ∧
  Fifo (fun _ _ => some 1) ∧
  ∃ outcome,
    (relayFacts.graphAt 1).fastestDuration (Sorter.insertion _) (Sorter.insertion _) relayRequest 4 =
      some outcome ∧
    ¬ (relayFacts.graphAt 1).FastestOptimal relayRequest (fun _ _ => some 1) outcome
  := by
  use fun _ _ => rfl, @fifo_of_eq _ 1 (by simp), .ok {
    vertices := [⟨0, 1⟩, ⟨0, 2⟩, ⟨0, 3⟩]
    edges := [⟨0, 1⟩, ⟨0, 2⟩]
    departures := [0, 50]
    arrivals := [1, 51]
    initialDeparture := 0
    finalArrival := 51
    departure := 0
    arrival := 51
    duration := 51 }
  constructor
  · decide +kernel
  · intro hoptimal
    obtain ⟨first, rest, -, -, hbest⟩ := hoptimal.1 _ rfl
    have hle := hbest _ _ relay_journeyWithin _ rfl
    revert hle
    decide

end TemporalGraph

end Cedar
