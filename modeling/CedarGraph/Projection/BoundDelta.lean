import CedarGraph.Projection.DeltaCoverage
import CedarGraph.Projection.Chain
import CedarGraph.Lib.Lists

/-!
# The delta of a bound query

A query is bound to a projection with a base, to a view of the delta and to a lease of it.  The view
is compared with the base, the lease gives the events, and each of them is acquired by itself: what
happens to the delta in between may move its base.  A slice of the query merges the events of those
facts which have an interval in the projection.
-/

namespace Cedar

open List Except

/-- The delta which a query is bound to. -/
structure DeltaBinding where
  view : QueryDeltaView
  lease : QueryDelta.Lease

namespace QueryDelta

/-- A view may be merged with a projection. -/
def usable (base snapshot : CommitSeq) (view : QueryDeltaView) : Bool :=
  view.baseSeq = base && decide (view.through ≥ snapshot) && view.firstMissing = 0

/-- Binds a query at a snapshot to a projection with a base.  The view is one of the delta at first,
and the lease one of the delta later.  A query which may not merge the delta is bound to none. -/
def bind (sorter : Sorter FactEvent.eventKey) (base snapshot : CommitSeq) (first later : QueryDelta)
    (alive : Bool) (evicted : Nat) : StatusOr (Option DeltaBinding) :=
  match first.acquireThrough sorter snapshot with
  | .error _ => .ok none
  | .ok view =>
      if usable base snapshot view then do
        let lease ← (later.acquireLeaseThrough sorter snapshot alive evicted).2
        return some ⟨view, lease⟩
      else
        .ok none

/-- The events of a reference, which lie together. -/
def Lease.eventsForRange (lease : Lease) (ref : FactRef) : List FactEvent :=
  (lease.events.dropWhile fun event => event.ref.storeKey < ref.storeKey).takeWhile fun event =>
    event.ref = ref

end QueryDelta

/-- A chain of a projection, with the entities of its intervals. -/
structure ProjectionChain where
  header : ProjectionHeader
  entityIds : List UInt64

/-- What a slice of a plan is about: the facts of one property, or the states, of the entities in a
range of a part. -/
structure CoverageSlice where
  family : FactFamily
  partId : PartId
  propertyId : Option PropertyId
  entityMin : UInt64
  entityMaxExclusive : UInt64

/-- The family of the facts about a property. -/
def CoverageSlice.factFamily (slice : CoverageSlice) (property : PropertyId) : FactFamily :=
  if property = 0 then slice.family
  else if slice.family = .edgeState ∨ slice.family = .edgeProperty then .edgeProperty
  else .vertexProperty

/-- The slice is about the fact. -/
def CoverageSlice.Covers (slice : CoverageSlice) (ref : FactRef) : Prop :=
  ref.partId = slice.partId ∧ ref.propertyId = slice.propertyId.getD 0 ∧
    ref.family = slice.factFamily ref.propertyId ∧ slice.entityMin ≤ ref.entityId ∧
    ref.entityId < slice.entityMaxExclusive

instance (slice : CoverageSlice) (ref : FactRef) : Decidable (slice.Covers ref) :=
  inferInstanceAs (Decidable (_ ∧ _))

/-- The facts of a chain.  A slice may say which property they are about. -/
def ProjectionChain.facts (slice : CoverageSlice) (chain : ProjectionChain) : List FactRef :=
  let property := slice.propertyId.getD chain.header.propertyId
  chain.entityIds.map fun entityId =>
    ⟨chain.header.partId, slice.factFamily property, property, entityId⟩

/-- A slice of a query which merges chains of a projection with the delta. -/
structure DeltaMergeSlice extends CoverageSlice where
  chains : List ProjectionChain
  covers_facts : ∀ chain ∈ chains, ∀ ref ∈ chain.facts toCoverageSlice, toCoverageSlice.Covers ref

/-- The facts with an interval in a chain, each once. -/
def DeltaMergeSlice.baseByFact (slice : DeltaMergeSlice) : List FactRef :=
  (slice.chains.flatMap fun chain => chain.facts slice.toCoverageSlice).dedup

/-- The events of the delta which a slice over a projection merges, fact by fact. -/
def DeltaBinding.deltaEvents (binding : DeltaBinding) (base : CommitSeq) (slice : DeltaMergeSlice) :
    StatusOr (List FactEvent) :=
  if slice.chains.any fun chain =>
      chain.header.baseSeq ≠ binding.view.baseSeq || chain.header.baseSeq ≠ base then
    Status.conflict "query runtime" "projection and delta base sequences must match exactly"
  else
    .ok (slice.baseByFact.flatMap binding.lease.eventsForRange)

/-- The view and the lease have one base, and the query fails or merges exactly what was committed
for the slice after the base of the projection, through the snapshot. -/
def DeltaBinding.MergesExactly (log : CommitLog) (base snapshot : CommitSeq)
    (binding : DeltaBinding) (slice : DeltaMergeSlice) : Prop :=
  binding.lease.baseSeq = binding.view.baseSeq ∧
    ∀ events, binding.deltaEvents base slice = .ok events →
      events.Perm ((log.between base snapshot).filter fun event => slice.Covers event.ref)

namespace QueryDelta

/-- The events of a coverage with a reference are those of the range. -/
theorem Lease.eventsForRange_eq {log : CommitLog} {base snapshot : CommitSeq} {lease : Lease}
    (h : log.IsCoverage base snapshot lease.events) (ref : FactRef) :
  lease.eventsForRange ref = lease.events.filter fun event => event.ref = ref
  := by
  have hsorted : lease.events.Pairwise fun e f => e.ref.storeKey ≤ f.ref.storeKey := by
    apply h.sorted.imp
    intro e f hlt
    apply Prod.Lex.monotone_fst _ _ hlt.le
  rw [eventsForRange, dropWhile_eq_filter, takeWhile_eq_filter, filter_filter]
  · apply filter_congr
    intro event _
    by_cases heq : event.ref = ref
    · simp [heq]
    · simp [heq]
  · apply (hsorted.filter _).imp_of_mem
    intro e f he _ hle hf
    have hge := (mem_filter.mp he).2
    simp only [decide_eq_true_eq, Bool.not_eq_true', decide_eq_false_iff_not, not_lt] at hf hge ⊢
    apply FactRef.storeKey_injective
    rw [hf] at hle
    apply le_antisymm hle hge
  · apply hsorted.imp
    intro e f hle hf
    simp only [decide_eq_true_eq] at hf ⊢
    apply lt_of_le_of_lt hle hf

/-- What a query is bound to: a view of the delta at first, and a lease of the delta later. -/
theorem of_bind {log : CommitLog} {sorter : Sorter FactEvent.eventKey} {base snapshot : CommitSeq}
    {first later : QueryDelta} {alive : Bool} {evicted : Nat} {binding : DeltaBinding}
    (hlater : later.Covers log)
    (hbind : bind sorter base snapshot first later alive evicted = .ok (some binding)) :
  binding.view.baseSeq = base ∧ binding.lease.baseSeq = later.options.baseSeq ∧
    log.IsCoverage later.options.baseSeq snapshot binding.lease.events
  := by
  rw [bind] at hbind
  split at hbind
  · cases hbind
  case h_2 view hview =>
    split at hbind
    case isFalse => cases hbind
    case isTrue husable =>
      obtain ⟨lease, hlease, hbind⟩ := StatusOr.bind_eq_ok_iff.mp hbind
      obtain rfl := Option.some.inj (ok.inj hbind)
      have hevents := (hlater.acquireLeaseThrough sorter snapshot alive evicted).2 lease hlease
      obtain ⟨_, -, herror⟩ | ⟨-, lease', hlease', hbase', -⟩ :=
        acquireLeaseThrough_cases later sorter snapshot alive evicted
      · rw [herror] at hlease
        cases hlease
      · obtain rfl : lease' = lease := ok.inj (hlease'.symm.trans hlease)
        simp only [usable, Bool.and_eq_true, decide_eq_true_eq] at husable
        obtain ⟨⟨rfl, -⟩, -⟩ := husable
        use rfl, hbase'

end QueryDelta

/-- The entries with a property are those with a weaker one, if and only if the properties are the
same in the list. -/
theorem filter_perm_filter_iff {α : Type} {p q : α → Bool} {l : List α}
    (hpq : ∀ a, p a = true → q a = true) :
  (l.filter p).Perm (l.filter q) ↔ ∀ a ∈ l, q a = true → p a = true
  := by
  constructor
  · intro hperm a ha hq
    apply (mem_filter.mp (hperm.mem_iff.mpr (mem_filter.mpr ⟨ha, hq⟩))).2
  · intro hqp
    have hsame : l.filter p = l.filter q := by
      apply filter_congr
      intro a ha
      rw [Bool.eq_iff_iff]
      exact ⟨hpq a, hqp a ha⟩
    rw [hsame]

namespace QueryDelta

/-- The slice of the first two vertices, with a chain after the first commit which has some of
them. -/
def vertexSlice (entityIds : List UInt64) (hids : entityIds ⊆ [1, 2]) : DeltaMergeSlice where
  family := .vertexState
  partId := 0
  propertyId := none
  entityMin := 1
  entityMaxExclusive := 3
  chains := [⟨{ baseSeq := 1, partId := 0 }, entityIds⟩]
  covers_facts := by
    intro chain hchain ref href
    obtain rfl := mem_singleton.mp hchain
    obtain ⟨entityId, hentity, rfl⟩ := mem_map.mp href
    have hrange : 1 ≤ entityId ∧ entityId < 3 := by
      have hmem := hids hentity
      rw [mem_pair] at hmem
      rcases hmem with rfl | rfl
      · decide
      · decide
    use rfl, rfl, rfl, hrange.1, hrange.2

/-- The log in which the first two commits create a vertex each. -/
def createdLog : CommitLog where
  events sequence :=
    if sequence = 1 ∨ sequence = 2 then
      [{ ref := EntityFact.vertex ⟨0, sequence⟩, validFrom := 3, commitSeq := sequence }]
    else
      []
  commitSeq_eq sequence event hevent := by
    split at hevent
    · rw [mem_singleton.mp hevent]
    · cases hevent
  distinct sequence := by
    split
    · apply nodup_singleton
    · apply nodup_nil

/-- A publisher queues the second commit, and the worker indexes it. -/
def createdSteps : List Step :=
  [.enqueuePublished ⟨2, [], [{ ref := EntityFact.vertex ⟨0, 2⟩, validFrom := 3 }], []⟩ (.ok ()),
    .workerPop, .workerIndex, .workerDone]

/-- The delta after the first commit has indexed the second one. -/
def createdDelta : QueryDelta :=
  (new { baseSeq := 1 }).run (fun _ => 1) (Sorter.insertion _) createdSteps

/-- The binding of a query at the second commit, with some steps between the view and the lease. -/
def bindCreated (between : List Step) : StatusOr (Option DeltaBinding) :=
  bind (Sorter.insertion _) 1 2 createdDelta
    (createdDelta.run (fun _ => 1) (Sorter.insertion _) between) true 0

theorem exists_bindCreated {between : List Step} {α : Type} {f : DeltaBinding → α} {a : α}
    (h : (bindCreated between).map (Option.map f) = .ok (some a)) :
  ∃ binding, bindCreated between = .ok (some binding) ∧ f binding = a
  := by
  rcases hbind : bindCreated between with _ | _ | binding
  · simp [hbind, Except.map] at h
  · simp [hbind, Except.map] at h
  · rw [hbind] at h
    use binding, rfl, Option.some.inj (ok.inj h)

end QueryDelta

end Cedar
