import CedarGraph.Runtime.TemporalGraph

/-!
# Overlap expansions

An expansion returns the selected edges at the instants at which they are present between their
ends.  An instant of an edge is in one traversal only: the intervals of a fact have no common instants, and
a snapshot has an edge once, however many of its ends are in the frontier.
-/

namespace List

variable {α : Type*} {p : α → Bool} {l : List α}

/-- A sum of one number for every entry with a property. -/
theorem sum_map_ite_and (c : Prop) [Decidable c] (P : α → Prop) [DecidablePred P] (l : List α)
    (k : Nat) :
  (l.map fun a => if c ∧ P a then k else 0).sum = if c then l.countP (P ·) * k else 0
  := by
  induction l with
  | nil => simp
  | cons a l ih =>
    rw [map_cons, sum_cons, ih, countP_cons]
    by_cases hc : c
    · by_cases ha : P a
      · simp only [hc, ha, and_self, if_true, decide_true, Nat.add_mul, Nat.one_mul, Nat.add_comm]
      · simp [ha]
    · simp only [hc, false_and, if_false]

/-- Of entries no two of which have a property there is one with it at most. -/
theorem countP_of_pairwise (h : l.Pairwise fun a b => ¬ (p a = true ∧ p b = true)) :
  l.countP p = if ∃ a ∈ l, p a = true then 1 else 0
  := by
  induction l with
  | nil => simp
  | cons a l ih =>
    obtain ⟨hhead, htail⟩ := pairwise_cons.mp h
    rw [countP_cons, ih htail]
    by_cases ha : p a = true
    · have hnone : ¬ ∃ b ∈ l, p b = true := by
        rintro ⟨b, hb, hpb⟩
        apply hhead b hb ⟨ha, hpb⟩
      rw [if_neg hnone, if_pos ha, if_pos ⟨a, mem_cons_self, ha⟩]
    · simp [ha]

end List

namespace Cedar

open EdgeIdentity List TemporalGraph TemporalTraversal EntityFact

namespace CommittedFacts

variable (facts : CommittedFacts) (snapshotSeq : CommitSeq)

/-- The snapshot has the identity of an edge. -/
def HasIdentity (identity : EdgeIdentity) : Prop :=
  ∃ event ∈ facts.events, event.commitSeq ≤ snapshotSeq ∧ event.edgeIdentity = some identity

/-- The event which the snapshot takes for the instant puts the fact. -/
def PresentAt (ref : FactRef) (t : ValidTime) : Prop :=
  ∃ event, GoverningEvent (facts.chain ref).events snapshotSeq t event ∧ event.operation = .put

/-- An edge and both of its ends are present at the instant. -/
def PresentBetween (identity : EdgeIdentity) (t : ValidTime) : Prop :=
  facts.PresentAt snapshotSeq (EntityFact.edge identity.edgeRef) t ∧
    facts.PresentAt snapshotSeq (EntityFact.vertex identity.sourceRef) t ∧
    facts.PresentAt snapshotSeq (EntityFact.vertex identity.targetRef) t

end CommittedFacts

/-- The edge has the requested type, and the end from which it is followed is in the frontier. -/
def GraphExpansionRequest.Matches (request : GraphExpansionRequest) (identity : EdgeIdentity) :
    Prop :=
  (∀ edgeType ∈ request.edgeType, identity.edgeType = edgeType) ∧
    (request.direction ≠ .into ∧ identity.sourceRef ∈ request.frontier ∨
      request.direction ≠ .out ∧ identity.targetRef ∈ request.frontier)

/-- The traversal is one of the edge. -/
def TemporalTraversal.follows (traversal : TemporalTraversal) (identity : EdgeIdentity) : Bool :=
  traversal.source = identity.sourceRef ∧ traversal.edge = identity.edgeRef ∧
    traversal.target = identity.targetRef ∧ traversal.edgeType = identity.edgeType

/-- The number of traversals of an edge which contain an instant. -/
def traversalsAt (rows : List TemporalTraversal) (identity : EdgeIdentity) (t : ValidTime) : Nat :=
  rows.countP fun traversal => traversal.follows identity && decide (traversal.effective.Contains t)

theorem traversalsAt_flatMap {α : Type*} (l : List α) (f : α → List TemporalTraversal)
    (identity : EdgeIdentity) (t : ValidTime) :
  traversalsAt (l.flatMap f) identity t = (l.map fun a => traversalsAt (f a) identity t).sum
  := countP_flatMap

/-- The rows are the overlap expansion of a request. -/
structure IsOverlapExpansion (facts : CommittedFacts) (snapshotSeq : CommitSeq)
    (request : GraphExpansionRequest) (rows : List TemporalTraversal) : Prop where
  /-- An instant at which an edge is present between its ends is in one traversal. -/
  once : ∀ identity t, facts.HasIdentity snapshotSeq identity → request.Matches identity →
    request.interval.Contains t → facts.PresentBetween snapshotSeq identity t →
      traversalsAt rows identity t = 1
  /-- No other instant is in a traversal. -/
  never : ∀ identity t,
    ¬ (request.interval.Contains t ∧ facts.PresentBetween snapshotSeq identity t) →
      traversalsAt rows identity t = 0
  /-- Only edges which are asked for are traversed. -/
  only : ∀ traversal ∈ rows, ∃ identity, facts.HasIdentity snapshotSeq identity ∧
    request.Matches identity ∧ traversal.follows identity = true

namespace TemporalGraph

variable {graph : TemporalGraph} {interval : ValidTimeInterval} {identity other : EdgeIdentity}
  {t : ValidTime}

/-- A fact has an instant in one interval at most. -/
theorem countP_presentIntervals (ref : FactRef) (t : ValidTime) :
  (graph.presentIntervals ref).countP (fun state => decide (state.interval.Contains t)) =
    if graph.Effective ref t then 1 else 0
  := by
  rw [countP_of_pairwise]
  · simp only [decide_eq_true_eq]
    rfl
  · simp only [decide_eq_true_eq]
    exact (graph.canonical ref).disjoint.imp fun h => h t

/-- The traversals of an edge within an interval, with the interval before the target is met. -/
theorem traversals_eq :
  graph.traversals interval identity =
    (graph.presentIntervals (edge identity.edgeRef)).flatMap fun edge =>
      (graph.presentIntervals (vertex identity.sourceRef)).flatMap fun source =>
        ((intersect interval edge.interval).bind (intersect · source.interval)).toList.flatMap
          fun effective =>
            (graph.presentIntervals (vertex identity.targetRef)).filterMap fun target =>
              (intersect effective target.interval).map fun clipped =>
                ⟨identity.sourceRef, identity.edgeRef, identity.targetRef, identity.edgeType,
                  clipped⟩
  := by
  rw [traversals]
  congr 1
  funext edge
  congr 1
  funext source
  cases (intersect interval edge.interval).bind (intersect · source.interval) with
  | none => rfl
  | some effective => simp only [Option.toList_some, flatMap_singleton]

/-- Each interval of the target which contains the instant gives one traversal. -/
theorem traversalsAt_clipped (effective : ValidTimeInterval) (targets : List StateInterval) :
  traversalsAt (targets.filterMap fun target =>
      (intersect effective target.interval).map fun clipped =>
        ⟨identity.sourceRef, identity.edgeRef, identity.targetRef, identity.edgeType, clipped⟩)
      identity t =
    if effective.Contains t then
      targets.countP fun target => decide (target.interval.Contains t)
    else 0
  := by
  rw [traversalsAt, countP_filterMap]
  have heach : ∀ target : StateInterval,
      (((intersect effective target.interval).map fun clipped =>
          (⟨identity.sourceRef, identity.edgeRef, identity.targetRef, identity.edgeType,
            clipped⟩ : TemporalTraversal)).map fun traversal =>
          traversal.follows identity && decide (traversal.effective.Contains t)).getD false =
        decide (effective.Contains t ∧ target.interval.Contains t) := by
    intro target
    cases h : intersect effective target.interval with
    | none =>
      have hnot := @not_contains_of_intersect _ _ t h
      simp [hnot]
    | some clipped =>
      simp [follows, contains_of_intersect h]
  simp only [heach]
  split
  case isTrue h => simp only [h, true_and]
  case isFalse h => simp [h]

/-- The interval before the target is met contains the instants of the three before it. -/
theorem sum_clipped (edge source : ValidTimeInterval) (t : ValidTime) (k : Nat) :
  (((intersect interval edge).bind (intersect · source)).toList.map fun effective =>
      if effective.Contains t then k else 0).sum =
    if (interval.Contains t ∧ edge.Contains t) ∧ source.Contains t then k else 0
  := by
  cases hwithin : intersect interval edge with
  | none =>
    rw [if_neg fun h => not_contains_of_intersect hwithin h.1]
    rfl
  | some within =>
    simp only [← contains_of_intersect hwithin, Option.bind_some]
    cases hsource : intersect within source with
    | none =>
      rw [if_neg (not_contains_of_intersect hsource)]
      rfl
    | some effective =>
      simp only [← contains_of_intersect hsource, Option.toList_some, map_singleton,
        sum_singleton]

/-- The traversals of an edge contain an instant once, when the edge and its ends do. -/
theorem traversalsAt_traversals :
  traversalsAt (graph.traversals interval identity) identity t =
    if interval.Contains t ∧ graph.Traversable identity t then 1 else 0
  := by
  rw [traversals_eq]
  simp only [traversalsAt_flatMap, traversalsAt_clipped, sum_clipped, sum_map_ite_and,
    countP_presentIntervals]
  by_cases hin : interval.Contains t
  · by_cases hall : graph.Traversable identity t
    · simp [hall, hall.edge, hall.source, hall.target]
    · have hnot : ¬ (graph.Effective (edge identity.edgeRef) t ∧
          graph.Effective (vertex identity.sourceRef) t ∧
          graph.Effective (vertex identity.targetRef) t) :=
        fun h => hall ⟨h.1, h.2.1, h.2.2⟩
      grind
  · rw [if_neg hin, if_neg fun h => hin h.1]

/-- A traversal of another edge does not follow the edge. -/
theorem traversalsAt_traversals_of_ne (hne : other ≠ identity) :
  traversalsAt (graph.traversals interval other) identity t = 0
  := by
  rw [traversalsAt, countP_eq_zero]
  intro traversal hmem
  obtain ⟨hsource, hedge, htarget, htype⟩ := eq_of_mem_traversals hmem
  intro hfollows
  rw [Bool.and_eq_true, follows, decide_eq_true_eq] at hfollows
  obtain ⟨⟩ := other
  simp_all [sourceRef, targetRef, edgeRef]

/-- An expansion has an instant of a selected edge once, when the edge and its ends are present. -/
theorem traversalsAt_expandTemporal {sorter : Sorter sortKey}
    {request : GraphExpansionRequest} {rows : List TemporalTraversal}
    (hnodup : graph.identities.Nodup) (h : graph.expandTemporal sorter request = .ok rows) :
  traversalsAt rows identity t =
    if (identity ∈ graph.identities ∧ request.selects identity = true) ∧
      request.interval.Contains t ∧ graph.Traversable identity t then 1 else 0
  := by
  have heach : ∀ other, traversalsAt (graph.traversals request.interval other) identity t =
      if True ∧ other = identity then
        (if request.interval.Contains t ∧ graph.Traversable identity t then 1 else 0) else 0 := by
    intro other
    by_cases hother : other = identity
    · rw [if_pos ⟨trivial, hother⟩, hother, traversalsAt_traversals]
    · rw [if_neg fun h => hother h.2, traversalsAt_traversals_of_ne hother]
  have hrows : traversalsAt rows identity t =
      traversalsAt ((graph.identities.filter request.selects).flatMap
        (graph.traversals request.interval)) identity t := by
    rw [expandTemporal] at h
    split at h
    · cases h
    · rw [← Except.ok.inj h]
      exact (sorter.perm _).countP_eq _
  rw [hrows, traversalsAt_flatMap]
  simp only [heach, sum_map_ite_and]
  -- a snapshot has the edge once
  have hcount : (graph.identities.filter request.selects).countP (· = identity) =
      if identity ∈ graph.identities ∧ request.selects identity = true then 1 else 0 := by
    rw [countP_of_pairwise]
    · simp only [decide_eq_true_eq, exists_eq_right, mem_filter]
    · refine (hnodup.filter _).imp ?_
      simp only [decide_eq_true_eq]
      rintro a b hab ⟨rfl, rfl⟩
      exact hab rfl
  split_ifs <;> simp_all

end TemporalGraph

/-! ### Expansions of a snapshot -/

namespace CommittedFacts

variable (facts : CommittedFacts) (snapshotSeq : CommitSeq)

variable {t : ValidTime} {identity : EdgeIdentity}

theorem effective_iff {ref : FactRef} :
  (facts.graphAt snapshotSeq).Effective ref t ↔ facts.PresentAt snapshotSeq ref t
  := by
  have hstate := exists_mem_presentState_iff (Sorter.insertion _) (facts.chain ref).distinct
    snapshotSeq t
  constructor
  · rintro ⟨state, hmem, hcontains⟩
    obtain ⟨event, hevent, hput, -⟩ := (hstate _).mp ⟨state, hmem, hcontains, Agree.refl _⟩
    exact ⟨event, hevent, hput⟩
  · rintro ⟨event, hevent, hput⟩
    obtain ⟨state, hmem, hcontains, -⟩ := (hstate _).mpr ⟨event, hevent, hput, Agree.refl _⟩
    exact ⟨state, hmem, hcontains⟩

theorem traversable_iff :
  (facts.graphAt snapshotSeq).Traversable identity t ↔ facts.PresentBetween snapshotSeq identity t
  := by
  simp only [PresentBetween, ← effective_iff]
  exact ⟨fun h => ⟨h.edge, h.source, h.target⟩, fun h => ⟨h.1, h.2.1, h.2.2⟩⟩

theorem mem_identities_iff :
  identity ∈ (facts.graphAt snapshotSeq).identities ↔ facts.HasIdentity snapshotSeq identity
  := by
  simp only [graphAt, HasIdentity, mem_dedup, mem_filterMap, visible, mem_filter,
    decide_eq_true_eq, and_assoc]

end CommittedFacts

theorem GraphExpansionRequest.selects_iff_matches {request : GraphExpansionRequest}
    {identity : EdgeIdentity} :
  request.selects identity = true ↔ request.Matches identity
  := by
  rw [selects, Bool.and_eq_true, Option.all_eq_true]
  simp only [decide_eq_true_eq]
  apply and_congr_right
  cases request.direction with
  | out => simp
  | into => simp
  | both => simp

/-- Within a valid interval an expansion is made, and it is the overlap expansion: the instants at
which a selected edge is present between its ends are in one of its traversals each. -/
theorem expandTemporal_isOverlapExpansion (facts : CommittedFacts) (snapshotSeq : CommitSeq)
    (sorter : Sorter TemporalTraversal.sortKey) (request : GraphExpansionRequest)
    (hvalid : request.interval.Valid) :
  ∃ rows, (facts.graphAt snapshotSeq).expandTemporal sorter request = .ok rows ∧
    IsOverlapExpansion facts snapshotSeq request rows
  := by
  obtain ⟨rows, hrows⟩ := exists_expandTemporal sorter hvalid
  have hnodup : (facts.graphAt snapshotSeq).identities.Nodup := nodup_dedup _
  refine ⟨rows, hrows, ?_, ?_, ?_⟩
  · intro identity t hidentity hmatches hin hpresent
    rw [traversalsAt_expandTemporal hnodup hrows, if_pos]
    rw [facts.mem_identities_iff, facts.traversable_iff, GraphExpansionRequest.selects_iff_matches]
    exact ⟨⟨hidentity, hmatches⟩, hin, hpresent⟩
  · intro identity t hnot
    rw [traversalsAt_expandTemporal hnodup hrows, if_neg]
    rw [facts.traversable_iff]
    exact fun h => hnot h.2
  · intro traversal hmem
    obtain ⟨identity, hidentity, hselects, htraversal⟩ :=
      (mem_expandTemporal_iff hrows).mp hmem
    refine ⟨identity, (facts.mem_identities_iff _).mp hidentity,
      GraphExpansionRequest.selects_iff_matches.mp hselects, ?_⟩
    simpa [follows] using eq_of_mem_traversals htraversal

/-- A loop at 1, and an edge from 1 to 2 which is taken away from 4 to 6. -/
def loopFacts : CommittedFacts where
  events := [
    ⟨EntityFact.vertex ⟨0, 1⟩, 0, 1, .put, 0, none, none⟩,
    ⟨EntityFact.vertex ⟨0, 2⟩, 2, 1, .put, 0, none, none⟩,
    ⟨⟨0, .edgeIdentity, 0, 1⟩, 0, 1, .put, 0, none, some ⟨1, 1, 1, 1, 0, 0, 0⟩⟩,
    ⟨⟨0, .edgeIdentity, 0, 2⟩, 0, 1, .put, 0, none, some ⟨2, 1, 2, 1, 0, 0, 0⟩⟩,
    ⟨EntityFact.edge ⟨0, 1⟩, 0, 1, .put, 0, none, none⟩,
    ⟨EntityFact.edge ⟨0, 2⟩, 0, 1, .put, 0, none, none⟩,
    ⟨EntityFact.edge ⟨0, 2⟩, 4, 1, .delete, 0, none, none⟩,
    ⟨EntityFact.edge ⟨0, 2⟩, 6, 1, .put, 0, none, none⟩]
  valid := by decide +kernel
  distinct := by decide +kernel

/-- The edges at 1 and 2 in both directions. -/
def loopRequest : GraphExpansionRequest :=
  ⟨[⟨0, 1⟩, ⟨0, 2⟩], ⟨0, some 8⟩, .both, none⟩

/-- The loop is traversed once, and so is either interval of the edge between the two vertices. -/
theorem loop_isOverlapExpansion :
  IsOverlapExpansion loopFacts 1 loopRequest [
    ⟨⟨0, 1⟩, ⟨0, 1⟩, ⟨0, 1⟩, 1, ⟨0, some 8⟩⟩,
    ⟨⟨0, 1⟩, ⟨0, 2⟩, ⟨0, 2⟩, 1, ⟨2, some 4⟩⟩,
    ⟨⟨0, 1⟩, ⟨0, 2⟩, ⟨0, 2⟩, 1, ⟨6, some 8⟩⟩]
  := by
  obtain ⟨rows, hrows, hexpansion⟩ := expandTemporal_isOverlapExpansion loopFacts 1
    (Sorter.insertion _) loopRequest (by decide)
  have hloop : (loopFacts.graphAt 1).expandTemporal (Sorter.insertion _) loopRequest = .ok [
      ⟨⟨0, 1⟩, ⟨0, 1⟩, ⟨0, 1⟩, 1, ⟨0, some 8⟩⟩,
      ⟨⟨0, 1⟩, ⟨0, 2⟩, ⟨0, 2⟩, 1, ⟨2, some 4⟩⟩,
      ⟨⟨0, 1⟩, ⟨0, 2⟩, ⟨0, 2⟩, 1, ⟨6, some 8⟩⟩] := by
    decide +kernel
  rw [hloop] at hrows
  rw [Except.ok.inj hrows]
  exact hexpansion

end Cedar
