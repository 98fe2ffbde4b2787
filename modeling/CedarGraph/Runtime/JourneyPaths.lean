import CedarGraph.Runtime.JourneyFailures

/-!
# Journeys and searches

A journey consists of feasible legs, with waits in between.  A journey is prompt if every leg departs
as soon as its edge is present with both of its ends, counted from the arrival before it or, for the
first leg, from a given time.  These are the journeys on which a search goes forward.
-/

namespace Cedar

open UInt32

instance : Finite VertexRef :=
  Finite.of_injective (fun vertex => (vertex.partId, vertex.vertexId)) (by
    rintro ⟨part, id⟩ ⟨part', id'⟩ heq
    obtain ⟨rfl, rfl⟩ := Prod.mk.inj heq
    rfl)

namespace JourneyRequest

/-- So many legs are not too many. -/
def WithinHops (request : JourneyRequest) (n : Nat) : Prop :=
  request.maxHops ≠ 0 → n ≤ request.maxHops.toNat

variable {request : JourneyRequest} {depth : UInt32} {n : Nat}

/-- A label which is expanded, as long as one more leg is not too many. -/
theorem of_checkDepth {α : Type} {next : StatusOr (List α)} {candidates : List α}
    (h : request.checkDepth depth next = .ok candidates) :
  depth ≠ -1 ∧ (request.maxHops = 0 ∨ depth < request.maxHops) ∧ next = .ok candidates ∨
    request.maxHops ≠ 0 ∧ request.maxHops ≤ depth ∧ candidates = []
  := by
  rw [checkDepth] at h
  split at h
  case isTrue hlast => apply Or.inr ⟨hlast.1, hlast.2, (Except.ok.inj h).symm⟩
  case isFalse hmore =>
    split at h
    · cases h
    case isFalse hdepth =>
      refine Or.inl ⟨hdepth, ?_, h⟩
      by_contra hnone
      rw [not_or, not_lt] at hnone
      apply hmore hnone

/-- A label at a depth below the greatest number of legs is expanded. -/
theorem next_eq_of_checkDepth {α : Type} {next : StatusOr (List α)} {candidates : List α}
    (h : request.checkDepth depth next = .ok candidates)
    (hdepth : request.stateDepth depth = request.stateDepth (ofNat n))
    {m : Nat} (hm : request.WithinHops m) (hn : n < m) :
  next = .ok candidates
  := by
  rcases of_checkDepth h with ⟨-, -, hnext⟩ | ⟨hhops, hle, -⟩
  · apply hnext
  · have hlt := hm hhops
    have hmax := request.maxHops.toNat_lt
    rw [stateDepth, stateDepth, if_neg hhops, if_neg hhops] at hdepth
    rw [hdepth, le_iff_toNat_le, toNat_ofNat_of_lt' (by rw [size]; omega)]
      at hle
    omega

/-- The depth after a depth. -/
theorem stateDepth_succ (hdepth : request.stateDepth depth = request.stateDepth (ofNat n)) :
  request.stateDepth (depth + 1) = request.stateDepth (ofNat (n + 1))
  := by
  rw [stateDepth, stateDepth] at hdepth ⊢
  split
  · rfl
  case isFalse hhops =>
    rw [if_neg hhops, if_neg hhops] at hdepth
    rw [hdepth, ofNat_add]
    rfl

/-- The depth of a label is the length of its path, if the number of legs is bounded. -/
def Counts (request : JourneyRequest) (depth : UInt32) (n : Nat) : Prop :=
  request.maxHops ≠ 0 → n = depth.toNat ∧ depth ≤ request.maxHops

theorem counts_zero :
  request.Counts 0 0
  := fun _ => ⟨rfl, UInt32.zero_le⟩

/-- A depth which is not the last one has a next one. -/
theorem depth_toNat_succ (hdepth : depth ≠ -1) :
  (depth + 1).toNat = depth.toNat + 1
  := by
  have hlt := depth.toNat_lt
  have hlast : depth.toNat ≠ 2 ^ 32 - 1 := by
    intro heq
    apply hdepth
    apply UInt32.toNat_inj.mp
    rw [heq]
    rfl
  rw [UInt32.toNat_add, UInt32.toNat_one]
  omega

/-- One more leg is counted. -/
theorem Counts.succ (h : request.Counts depth n) (hdepth : depth ≠ -1)
    (hhops : request.maxHops = 0 ∨ depth < request.maxHops) :
  request.Counts (depth + 1) (n + 1)
  := by
  intro hbounded
  have hlt := lt_iff_toNat_lt.mp (hhops.resolve_left hbounded)
  rw [(h hbounded).1, le_iff_toNat_le, depth_toNat_succ hdepth]
  omega

/-- A path whose legs are counted does not have too many. -/
theorem Counts.withinHops (h : request.Counts depth n) :
  request.WithinHops n
  := by
  intro hbounded
  rw [(h hbounded).1]
  apply le_iff_toNat_le.mp (h hbounded).2

/-- The check of the depth does not fail because something was not found. -/
theorem neverNotFound_checkDepth {α : Type} {next : StatusOr (List α)}
    (h : StatusOr.NeverNotFound next) :
  StatusOr.NeverNotFound (request.checkDepth depth next)
  := by
  rw [checkDepth]
  split
  · apply StatusOr.neverNotFound_ok
  · split
    · apply StatusOr.neverNotFound_error
      intro heq
      cases heq
    · apply h

end JourneyRequest

namespace TemporalGraph

/-! ### Journeys -/

section Journeys

variable (graph : TemporalGraph) (request : JourneyRequest)
  (duration : EdgeRef → ValidTime → Option ValidDuration)

/-- The legs lead from one vertex to another.  Between two legs there is a wait. -/
inductive IsJourney : VertexRef → List JourneyLeg → VertexRef → Prop
  | nil {v : VertexRef} : IsJourney v [] v
  | cons {leg : JourneyLeg} {legs : List JourneyLeg} {w : VertexRef}
      (feasible : graph.FeasibleLeg request duration leg)
      (waits : ∀ next ∈ legs.head?, leg.arrival ≤ next.departure ∧
        graph.Waits leg.target leg.arrival next.departure)
      (rest : IsJourney leg.target legs w) :
      IsJourney leg.source (leg :: legs) w

variable {graph request duration} {u w : VertexRef} {leg first : JourneyLeg}
  {legs before after : List JourneyLeg}

/-- The first leg of a journey leaves its first vertex. -/
theorem IsJourney.source_eq (h : graph.IsJourney request duration u (leg :: legs) w) :
  leg.source = u
  := by
  cases h with
  | cons => rfl

/-- A journey without legs stays at its vertex. -/
theorem IsJourney.eq_of_nil (h : graph.IsJourney request duration u [] w) :
  u = w
  := by
  cases h with
  | nil => rfl

/-- A leg within a journey is feasible, and so is the rest of the journey after it. -/
theorem IsJourney.of_append (h : graph.IsJourney request duration u (before ++ leg :: after) w) :
  graph.FeasibleLeg request duration leg ∧
    (∀ next ∈ after.head?, leg.arrival ≤ next.departure ∧
      graph.Waits leg.target leg.arrival next.departure) ∧
    graph.IsJourney request duration leg.target after w
  := by
  induction before generalizing u with
  | nil =>
    cases h with
    | cons hfeasible hwaits hrest => use hfeasible, hwaits, hrest
  | cons first before ih =>
    cases h with
    | cons _ _ hrest => apply ih hrest

/-- The legs of a journey do not depart before the first one. -/
theorem IsJourney.departure_le (h : graph.IsJourney request duration u (first :: legs) w) :
  ∀ leg ∈ first :: legs, first.departure ≤ leg.departure
  := by
  induction legs generalizing u first with
  | nil =>
    intro leg hleg
    rw [List.mem_singleton.mp hleg]
  | cons second legs ih =>
    cases h with
    | cons hfeasible hwaits hrest =>
      intro leg hleg
      rcases List.mem_cons.mp hleg with rfl | hleg
      · apply le_refl
      · obtain ⟨identity, hvia⟩ := hfeasible
        apply le_trans hvia.le
        apply le_trans (hwaits second rfl).1 (ih hrest leg hleg)

variable (graph request duration) in
/-- The legs lead from the source to the target, and they are not too many. -/
structure JourneyWithin (legs : List JourneyLeg) : Prop where
  journey : graph.IsJourney request duration request.source legs request.target
  hops : request.WithinHops legs.length

end Journeys

/-! ### Prompt journeys -/

section Prompt

variable (graph : TemporalGraph) (request : JourneyRequest)
  (duration : EdgeRef → ValidTime → Option ValidDuration)

/-- The legs lead from a vertex at a time to a vertex at a time, and each one departs as soon as its
edge is present with both of its ends. -/
inductive IsPrompt : VertexRef → ValidTime → List JourneyLeg → VertexRef → ValidTime → Prop
  | nil {v : VertexRef} {s : ValidTime} : IsPrompt v s [] v s
  | cons {s t : ValidTime} {identity : EdgeIdentity} {leg : JourneyLeg} {legs : List JourneyLeg}
      {w : VertexRef} (prompt : graph.PromptVia request duration s identity leg)
      (rest : IsPrompt leg.target leg.arrival legs w t) :
      IsPrompt leg.source s (leg :: legs) w t

variable {graph request duration} {u w : VertexRef} {s t : ValidTime} {identity : EdgeIdentity}
  {leg : JourneyLeg} {legs : List JourneyLeg}

/-- A prompt journey without legs stays at its vertex and time. -/
theorem IsPrompt.of_nil (h : graph.IsPrompt request duration u s [] w t) :
  u = w ∧ s = t
  := by
  cases h with
  | nil => use rfl

/-- The first leg of a prompt journey leaves its vertex, and the rest is prompt from there. -/
theorem IsPrompt.of_cons (h : graph.IsPrompt request duration u s (leg :: legs) w t) :
  leg.source = u ∧ (∃ identity, graph.PromptVia request duration s identity leg) ∧
    graph.IsPrompt request duration leg.target leg.arrival legs w t
  := by
  cases h with
  | cons hprompt hrest => use rfl, ⟨_, hprompt⟩, hrest

/-- A prompt journey does not arrive before its start. -/
theorem IsPrompt.le (h : graph.IsPrompt request duration u s legs w t) :
  s ≤ t
  := by
  induction h with
  | nil => apply le_refl
  | cons hprompt _ ih => apply le_trans hprompt.after (le_trans hprompt.feasible.le ih)

/-- A prompt journey is a journey. -/
theorem IsPrompt.journey (h : graph.IsPrompt request duration u s legs w t) :
  graph.IsJourney request duration u legs w
  := by
  induction h with
  | nil => apply IsJourney.nil
  | @cons _ _ _ leg legs _ hprompt hrest ih =>
    apply IsJourney.cons ⟨_, hprompt.feasible⟩ _ ih
    intro next hnext
    obtain ⟨rest, rfl⟩ := List.head?_eq_some_iff.mp hnext
    obtain ⟨hsource, ⟨_, hprompt'⟩, -⟩ := hrest.of_cons
    use hprompt'.after
    rw [← hsource]
    apply hprompt'.waits

/-- A prompt journey can be extended. -/
theorem IsPrompt.append (h : graph.IsPrompt request duration u s legs w t)
    (hprompt : graph.PromptVia request duration t identity leg) (hsource : leg.source = w) :
  graph.IsPrompt request duration u s (legs ++ [leg]) leg.target leg.arrival
  := by
  induction h with
  | nil =>
    subst hsource
    apply IsPrompt.cons hprompt .nil
  | cons hprompt' _ ih => apply IsPrompt.cons hprompt' (ih hprompt hsource)

/-- A prompt journey can be divided. -/
theorem IsPrompt.of_append {before after : List JourneyLeg}
    (h : graph.IsPrompt request duration u s (before ++ after) w t) :
  ∃ v r, graph.IsPrompt request duration u s before v r ∧
    graph.IsPrompt request duration v r after w t
  := by
  induction before generalizing u s with
  | nil => use u, s, .nil, h
  | cons leg before ih =>
    obtain ⟨rfl, ⟨identity, hprompt⟩, hrest⟩ := h.of_cons
    obtain ⟨v, r, hbefore, hafter⟩ := ih hrest
    use v, r, .cons hprompt hbefore, hafter

/-- The legs of a prompt journey fix its end. -/
theorem IsPrompt.unique {w' : VertexRef} {t' : ValidTime}
    (h : graph.IsPrompt request duration u s legs w t)
    (h' : graph.IsPrompt request duration u s legs w' t') :
  w = w' ∧ t = t'
  := by
  induction h with
  | nil => apply h'.of_nil
  | cons _ _ ih => apply ih h'.of_cons.2.2

/-- The last leg of a prompt journey arrives at its end. -/
theorem IsPrompt.arrival_eq (h : graph.IsPrompt request duration u s legs w t) :
  ∀ last ∈ legs.getLast?, last.arrival = t
  := by
  induction h with
  | nil => rintro _ ⟨⟩
  | @cons _ _ _ leg legs _ _ hrest ih =>
    intro last hlast
    cases legs with
    | nil =>
      obtain rfl : leg = last := by simpa using hlast
      apply hrest.of_nil.2
    | cons second legs =>
      apply ih last
      rwa [List.getLast?_cons_cons] at hlast

variable (graph request duration) in
/-- The legs lead promptly from the source at the start of the interval to the target at a time, and
they are not too many. -/
structure PromptWithin (legs : List JourneyLeg) (t : ValidTime) : Prop where
  prompt : graph.IsPrompt request duration request.source request.interval.start legs
    request.target t
  hops : request.WithinHops legs.length

/-- A prompt journey to the target is a journey to it. -/
theorem PromptWithin.journeyWithin (h : graph.PromptWithin request duration legs t) :
  graph.JourneyWithin request duration legs
  where
  journey := h.prompt.journey
  hops := h.hops

end Prompt

end TemporalGraph

end Cedar
