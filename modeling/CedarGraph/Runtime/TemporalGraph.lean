import CedarGraph.Temporal.CommittedFacts

/-!
# Temporal graphs

A snapshot of the store shows a graph whose vertices and edges are present at some intervals of
valid time.  An expansion follows the edges of a frontier, and clips them to the instants at which
the edge and both of its ends are present.
-/

namespace Cedar

open Option EntityFact

inductive ExpandDirection where
  | out
  | into
  | both
  deriving DecidableEq

/-- The edges of a snapshot, and the present state of its facts. -/
structure TemporalGraph where
  identities : List EdgeIdentity
  /-- The intervals at which a fact is present. -/
  presentIntervals : FactRef → List StateInterval
  canonical : ∀ ref, CanonicalState (presentIntervals ref)
  /-- Vertices and edges are present without a value. -/
  valueless : ∀ ref, ref.isProperty = false → ∀ state ∈ presentIntervals ref, state.value = none

/-- A valid event of a vertex or of an edge has no value. -/
theorem FactEvent.value_eq_none {event : FactEvent} (hvalid : event.validate = .ok ())
    (hstate : event.ref.isProperty = false) :
  event.value = none
  := by
  have hmutation := validateMutation_of_validate hvalid
  obtain ⟨_, -, hmutation⟩ := StatusOr.bind_eq_ok_iff.mp hmutation
  rw [if_pos (by simp [hstate])] at hmutation
  split at hmutation
  · cases hmutation
  case isFalse hnone => simpa using (not_or.mp hnone).2

/-- The present state of a vertex or of an edge has no value. -/
theorem FactChain.value_stateAt (chain : FactChain) (snapshotSeq : CommitSeq)
    (hstate : chain.ref.isProperty = false) {state : StateInterval}
    (hmem : state ∈ chain.stateAt snapshotSeq) :
  state.value = none
  := by
  have hcanonical := canonicalState_materializePresentState
    (chain.increasing_boundariesAt snapshotSeq)
  -- the event which governs the start of the interval agrees with its value
  obtain ⟨event, hevent, -, hagree⟩ :=
    (exists_mem_presentState_iff (Sorter.insertion _) chain.distinct snapshotSeq _ _).mp
      ⟨state, hmem, (hcanonical.nonempty state hmem).contains_start, Agree.refl _⟩
  rw [FactEvent.value_eq_none (chain.valid event hevent.mem)
    (by rw [chain.sameRef event hevent.mem, hstate])] at hagree
  rcases hagree with heq | hbeq
  · apply heq.symm
  · cases hvalue : state.value with
    | none => rfl
    | some value =>
      rw [hvalue] at hbeq
      cases hbeq

/-- The graph which committed facts show at a snapshot. -/
def CommittedFacts.graphAt (facts : CommittedFacts) (snapshotSeq : CommitSeq) : TemporalGraph where
  identities := ((visible snapshotSeq facts.events).filterMap FactEvent.edgeIdentity).dedup
  presentIntervals ref := (facts.chain ref).stateAt snapshotSeq
  canonical ref :=
    canonicalState_materializePresentState ((facts.chain ref).increasing_boundariesAt snapshotSeq)
  valueless ref hstate _ hmem := (facts.chain ref).value_stateAt snapshotSeq hstate hmem

/-- An edge which is followed at the instants at which it is present between its ends. -/
structure TemporalTraversal where
  source : VertexRef
  edge : EdgeRef
  target : VertexRef
  edgeType : UInt64
  effective : ValidTimeInterval
  deriving DecidableEq

/-- Traversals are ordered by their start, the vertex which they leave and their edge. -/
def TemporalTraversal.sortKey (traversal : TemporalTraversal) :
    ValidTime ×ₗ PartId ×ₗ VertexId ×ₗ EdgeId :=
  toLex (traversal.effective.start, toLex (traversal.source.partId,
    toLex (traversal.source.vertexId, traversal.edge.edgeId)))

/-- The edges of some vertices within an interval. -/
structure GraphExpansionRequest where
  frontier : List VertexRef
  interval : ValidTimeInterval
  direction : ExpandDirection := .out
  edgeType : Option UInt64 := none

/-- The edge has the requested type, and it leaves or enters the frontier in the requested
direction. -/
def GraphExpansionRequest.selects (request : GraphExpansionRequest) (identity : EdgeIdentity) :
    Bool :=
  (request.edgeType.all fun edgeType => identity.edgeType = edgeType) &&
    match request.direction with
    | .out => identity.sourceRef ∈ request.frontier
    | .into => identity.targetRef ∈ request.frontier
    | .both => identity.sourceRef ∈ request.frontier ∨ identity.targetRef ∈ request.frontier

namespace TemporalGraph

variable (graph : TemporalGraph)

/-- The traversals of an edge within an interval. -/
def traversals (interval : ValidTimeInterval) (identity : EdgeIdentity) : List TemporalTraversal :=
  (graph.presentIntervals (EntityFact.edge identity.edgeRef)).flatMap fun edge =>
    (graph.presentIntervals (EntityFact.vertex identity.sourceRef)).flatMap fun source =>
      match (intersect interval edge.interval).bind (intersect · source.interval) with
      | none => []
      | some effective =>
          (graph.presentIntervals (EntityFact.vertex identity.targetRef)).filterMap fun target =>
            (intersect effective target.interval).map fun clipped =>
              ⟨identity.sourceRef, identity.edgeRef, identity.targetRef, identity.edgeType, clipped⟩

/-- The traversals of the selected edges, in order. -/
def expandTemporal (sorter : Sorter TemporalTraversal.sortKey) (request : GraphExpansionRequest) :
    StatusOr (List TemporalTraversal) :=
  match request.interval.validate with
  | .error _ => .error ⟨.invalidArgument, "graph expansion", "invalid request interval"⟩
  | .ok () =>
      .ok (sorter.sort ((graph.identities.filter request.selects).flatMap
        (graph.traversals request.interval)))

/-! ### The instants of an expansion -/

/-- The fact is present at the instant. -/
def Effective (ref : FactRef) (t : ValidTime) : Prop :=
  ∃ state ∈ graph.presentIntervals ref, state.interval.Contains t

/-- The edge and both of its ends are present at the instant. -/
structure Traversable (identity : EdgeIdentity) (t : ValidTime) : Prop where
  edge : graph.Effective (EntityFact.edge identity.edgeRef) t
  source : graph.Effective (EntityFact.vertex identity.sourceRef) t
  target : graph.Effective (EntityFact.vertex identity.targetRef) t

instance (ref : FactRef) (t : ValidTime) : Decidable (graph.Effective ref t) :=
  inferInstanceAs (Decidable (∃ state ∈ graph.presentIntervals ref, state.interval.Contains t))

instance (identity : EdgeIdentity) (t : ValidTime) : Decidable (graph.Traversable identity t) :=
  decidable_of_iff (graph.Effective (EntityFact.edge identity.edgeRef) t ∧
      graph.Effective (EntityFact.vertex identity.sourceRef) t ∧
      graph.Effective (EntityFact.vertex identity.targetRef) t)
    ⟨fun h => ⟨h.1, h.2.1, h.2.2⟩, fun h => ⟨h.edge, h.source, h.target⟩⟩

variable {graph} {interval : ValidTimeInterval} {identity : EdgeIdentity}
  {traversal : TemporalTraversal}

/-- A traversal comes from an interval of the edge and from one of either end. -/
theorem mem_traversals_iff :
  traversal ∈ graph.traversals interval identity ↔
    ∃ edge ∈ graph.presentIntervals (EntityFact.edge identity.edgeRef),
    ∃ source ∈ graph.presentIntervals (vertex identity.sourceRef),
    ∃ target ∈ graph.presentIntervals (vertex identity.targetRef),
    ∃ clipped, (((intersect interval edge.interval).bind (intersect · source.interval)).bind
        (intersect · target.interval)) = some clipped ∧
      traversal = ⟨identity.sourceRef, identity.edgeRef, identity.targetRef, identity.edgeType,
        clipped⟩
  := by
  simp only [traversals, List.mem_flatMap]
  apply exists_congr
  intro edge
  apply and_congr_right
  intro _
  apply exists_congr
  intro source
  apply and_congr_right
  intro _
  cases (intersect interval edge.interval).bind (intersect · source.interval) with
  | none => simp
  | some effective =>
    simp only [List.mem_filterMap, map_eq_some_iff, bind_some, @eq_comm _ traversal]

variable {t : ValidTime}

/-- The intersection of four intervals contains the instants which they have in common. -/
theorem contains_clipped {edge source target clipped : ValidTimeInterval}
    (h : ((intersect interval edge).bind (intersect · source)).bind (intersect · target) =
      some clipped) :
  clipped.Contains t ↔
    interval.Contains t ∧ edge.Contains t ∧ source.Contains t ∧ target.Contains t
  := by
  obtain ⟨between, hbetween, hclipped⟩ := bind_eq_some_iff.mp h
  obtain ⟨within, hwithin, hbetween⟩ := bind_eq_some_iff.mp hbetween
  rw [contains_of_intersect hclipped, contains_of_intersect hbetween, contains_of_intersect hwithin,
    and_assoc, and_assoc]

/-- A traversal is effective within the interval, where the edge and its ends are present. -/
theorem traversable_of_mem_traversals (hmem : traversal ∈ graph.traversals interval identity)
    (ht : traversal.effective.Contains t) :
  interval.Contains t ∧ graph.Traversable identity t
  := by
  obtain ⟨edge, hedge, source, hsource, target, htarget, clipped, hclipped, rfl⟩ :=
    mem_traversals_iff.mp hmem
  obtain ⟨hin, hcontains, hcontains', hcontains''⟩ := (contains_clipped hclipped).mp ht
  use hin
  exact ⟨⟨edge, hedge, hcontains⟩, ⟨source, hsource, hcontains'⟩, ⟨target, htarget, hcontains''⟩⟩

/-- Intervals of the edge and of its ends with a common instant give a traversal. -/
theorem exists_mem_traversals_of_states {edge source target : StateInterval}
    (hedge : edge ∈ graph.presentIntervals (EntityFact.edge identity.edgeRef))
    (hsource : source ∈ graph.presentIntervals (vertex identity.sourceRef))
    (htarget : target ∈ graph.presentIntervals (vertex identity.targetRef))
    (hin : interval.Contains t) (hcontains : edge.interval.Contains t)
    (hcontains' : source.interval.Contains t) (hcontains'' : target.interval.Contains t) :
  ∃ traversal ∈ graph.traversals interval identity, ∀ r, traversal.effective.Contains r ↔
    interval.Contains r ∧ edge.interval.Contains r ∧ source.interval.Contains r ∧
      target.interval.Contains r
  := by
  -- none of the three intersections is empty, since they contain the instant
  rcases hwithin : intersect interval edge.interval with - | within
  · cases not_contains_of_intersect hwithin ⟨hin, hcontains⟩
  have hin' := (contains_of_intersect hwithin).mpr ⟨hin, hcontains⟩
  rcases hbetween : intersect within source.interval with - | between
  · cases not_contains_of_intersect hbetween ⟨hin', hcontains'⟩
  have hin'' := (contains_of_intersect hbetween).mpr ⟨hin', hcontains'⟩
  rcases hclipped : intersect between target.interval with - | clipped
  · cases not_contains_of_intersect hclipped ⟨hin'', hcontains''⟩
  have hall : ((intersect interval edge.interval).bind (intersect · source.interval)).bind
      (intersect · target.interval) = some clipped := by
    rw [hwithin, bind_some, hbetween, bind_some, hclipped]
  refine ⟨_, mem_traversals_iff.mpr ⟨edge, hedge, source, hsource, target, htarget, clipped, hall,
    rfl⟩, ?_⟩
  intro r
  apply contains_clipped hall

/-- The ends, the edge and the type of a traversal are those of its identity. -/
theorem eq_of_mem_traversals (hmem : traversal ∈ graph.traversals interval identity) :
  traversal.source = identity.sourceRef ∧ traversal.edge = identity.edgeRef ∧
    traversal.target = identity.targetRef ∧ traversal.edgeType = identity.edgeType
  := by
  obtain ⟨_, _, _, _, _, _, _, _, rfl⟩ := mem_traversals_iff.mp hmem
  use rfl, rfl, rfl

/-- A traversal is effective at some instant. -/
theorem valid_of_mem_traversals (hmem : traversal ∈ graph.traversals interval identity) :
  traversal.effective.Valid
  := by
  obtain ⟨_, _, _, _, _, _, _, hclipped, rfl⟩ := mem_traversals_iff.mp hmem
  obtain ⟨_, -, hclipped⟩ := bind_eq_some_iff.mp hclipped
  apply valid_of_intersect hclipped

/-- An expansion within a valid interval is made. -/
theorem exists_expandTemporal (sorter : Sorter TemporalTraversal.sortKey)
    {request : GraphExpansionRequest} (hvalid : request.interval.Valid) :
  ∃ rows, graph.expandTemporal sorter request = .ok rows
  := by
  rw [expandTemporal, (ValidTimeInterval.validate_eq_ok_iff _).mpr hvalid]
  exact ⟨_, rfl⟩

/-- An expansion has the traversals of the selected edges. -/
theorem mem_expandTemporal_iff {sorter : Sorter TemporalTraversal.sortKey}
    {request : GraphExpansionRequest} {rows : List TemporalTraversal}
    (h : graph.expandTemporal sorter request = .ok rows) :
  traversal ∈ rows ↔ ∃ identity ∈ graph.identities, request.selects identity ∧
    traversal ∈ graph.traversals request.interval identity
  := by
  rw [expandTemporal] at h
  split at h
  · cases h
  · rw [← Except.ok.inj h, (sorter.perm _).mem_iff]
    simp only [List.mem_flatMap, List.mem_filter, and_assoc]

end TemporalGraph

/-! ### The steps of the graph -/

/-- The edge leads from one vertex to the other in the requested direction. -/
def GraphExpansionRequest.Leads (request : GraphExpansionRequest) (identity : EdgeIdentity)
    (u v : VertexRef) : Prop :=
  request.direction ≠ .into ∧ identity.sourceRef = u ∧ identity.targetRef = v ∨
    request.direction ≠ .out ∧ identity.targetRef = u ∧ identity.sourceRef = v

instance (request : GraphExpansionRequest) (identity : EdgeIdentity) (u v : VertexRef) :
    Decidable (request.Leads identity u v) :=
  inferInstanceAs (Decidable (_ ∨ _))

/-- At the instant an edge of the requested type leads from one vertex to the other, and it is
present like both of them. -/
def TemporalGraph.Step (graph : TemporalGraph) (request : GraphExpansionRequest) (t : ValidTime)
    (u v : VertexRef) : Prop :=
  ∃ identity ∈ graph.identities, (∀ edgeType ∈ request.edgeType, identity.edgeType = edgeType) ∧
    request.Leads identity u v ∧ graph.Traversable identity t

/-- The edges from a vertex which are selected are those that lead from it. -/
theorem GraphExpansionRequest.selects_iff {request : GraphExpansionRequest} {u : VertexRef}
    (h : request.frontier = [u]) {identity : EdgeIdentity} :
  request.selects identity ↔
    (∀ edgeType ∈ request.edgeType, identity.edgeType = edgeType) ∧
      ∃ v, request.Leads identity u v
  := by
  have htype : (request.edgeType.all fun edgeType => identity.edgeType = edgeType) = true ↔
      ∀ edgeType ∈ request.edgeType, identity.edgeType = edgeType := by
    cases request.edgeType with
    | none => simp
    | some edgeType => simp
  rw [selects, Bool.and_eq_true, htype, h]
  apply and_congr_right
  simp only [Leads, exists_or]
  cases request.direction with
  | out => simp
  | into => simp
  | both => simp

end Cedar
