import CedarGraph.Storage.CommitBatch
import CedarGraph.Storage.TemporalNeighborhood
import CedarGraph.Storage.VersionValidationCache

/-!
# The validation of dependencies

Before a batch is committed, the store checks that nothing which it depends on has changed since its
snapshot.  A mutation must not overlap a newer event, which is found in the chain of its reference
unless the index of recent writes or the filter over references shows that there is none.  A strict
read must observe the same event between the same boundaries as at its snapshot.
-/

namespace Cedar

open FactEvent List Option VersionValidationCache TemporalNeighborhood

/-- The part of a store which a validation reads. -/
structure CommitStore where
  facts : FactColumn
  visibleSeq : CommitSeq
  /-- The transactions which have an outcome. -/
  outcomes : List TxnId := []
  identityHistory : Option FactIdentityHistory := none
  recentFactWriteIndex : Option RecentFactWriteIndex := none
  versionValidationCache : Option VersionValidationCache := none

/-- The interval of a boundary, up to the next boundary, with the latest commit. -/
structure CurrentFactInterval where
  validFrom : ValidTime
  validTo : Option ValidTime
  commitSeq : CommitSeq

/-- The intervals of the boundaries of a chain, from late to early ones. -/
def toIntervals : Option ValidTime → List ValidationBoundary → List CurrentFactInterval
  | _, [] => []
  | validTo, boundary :: boundaries =>
      ⟨boundary.validFrom, validTo, boundary.commitSeq⟩ ::
        toIntervals (some boundary.validFrom) boundaries

/-- The boundaries of a chain: the first fact of every valid time has the latest commit. -/
def scanBoundaries (idPrefix : List UInt8) :
    Option ValidTime → List FactEvent → StatusOr (List ValidationBoundary)
  | _, [] => .ok []
  | previousBoundary, event :: rest =>
      if ¬ idPrefix.isPrefixOf event.encodedKey then
        .ok []
      else do
        let key ← decodeFactKey event.encodedKey
        if previousBoundary = some key.validFrom then
          scanBoundaries idPrefix previousBoundary rest
        else
          let boundaries ← scanBoundaries idPrefix (some key.validFrom) rest
          return ⟨key.validFrom, key.commitSeq⟩ :: boundaries

/-- The chain of a reference, from the cache or from the facts. -/
def currentBoundaries (facts : FactColumn) (cache : Option VersionValidationCache)
    (generation : UInt64) (ref : FactRef) :
    StatusOr (List ValidationBoundary × Option VersionValidationCache) :=
  let cached := cache.map fun cache => cache.lookupChain ref
  match cached.bind Prod.fst with
  | some boundaries => .ok (boundaries, cached.map Prod.snd)
  | none => do
      let boundaries ← scanBoundaries ref.keyBytes none (facts.seek ref.keyBytes)
      return (boundaries, (cached.map Prod.snd).map fun cache =>
        cache.prime ref boundaries generation)

/-- A newer event overlaps the interval which a mutation changes. -/
def conflicts (dependency : SnapshotWriteDependency) (interval : CurrentFactInterval) : Bool :=
  if interval.commitSeq ≤ dependency.snapshotSeq then
    false
  else if interval.validFrom < dependency.validFrom then
    !(interval.validTo.isNone || interval.validTo.any (· ≤ dependency.validFrom))
  else
    !dependency.successor.any (interval.validFrom ≥ ·)

/-- The dependencies which must be compared with their chains. -/
def pendingDependencies (store : CommitStore) :
    List SnapshotWriteDependency → StatusOr (List SnapshotWriteDependency)
  | [] => .ok []
  | dependency :: dependencies =>
      if dependency.snapshotSeq > store.visibleSeq then
        Status.invalidArgument "commit" "snapshot dependency exceeds visible watermark"
      else do
        let pending ← pendingDependencies store dependencies
        if store.recentFactWriteIndex.any fun index =>
            index.canProveUnchanged dependency.ref dependency.snapshotSeq then
          return pending
        else if store.identityHistory.any fun history =>
            !history.mightContain dependency.ref then
          return pending
        else
          return dependency :: pending

/-- The chain of a reference, which is not read again if it is the one which was read last. -/
def boundariesFor (facts : FactColumn) (generation : UInt64) (cache : Option VersionValidationCache)
    (current : Option (FactRef × List ValidationBoundary)) (ref : FactRef) :
    StatusOr (List ValidationBoundary × Option VersionValidationCache) :=
  match current.filter fun p => p.1 = ref with
  | some p => .ok (p.2, cache)
  | none => currentBoundaries facts cache generation ref

/-- The dependencies are compared with their chains, and the chain of a reference is read once. -/
def checkPending (facts : FactColumn) (generation : UInt64) :
    Option VersionValidationCache → Option (FactRef × List ValidationBoundary) →
      List SnapshotWriteDependency → Status × Option VersionValidationCache
  | cache, _, [] => (.ok (), cache)
  | cache, current, dependency :: dependencies =>
      match boundariesFor facts generation cache current dependency.ref with
      | .error status => (.error status, cache)
      | .ok (boundaries, cache) =>
          if (toIntervals none boundaries).any (conflicts dependency) then
            (Status.conflict "commit" "snapshot write conflicts with a later overlapping event",
              cache)
          else
            checkPending facts generation cache (some (dependency.ref, boundaries)) dependencies

/-- The snapshot dependencies of a batch, which are sorted by reference. -/
def validateSnapshotWriteDependencies
    (sorter : Sorter fun dependency : SnapshotWriteDependency => dependency.ref.storeKey)
    (store : CommitStore) (dependencies : List SnapshotWriteDependency) : Status × CommitStore :=
  match pendingDependencies store dependencies with
  | .error status => (.error status, store)
  | .ok pending =>
      let generation := (store.versionValidationCache.map fun cache =>
        cache.publishGeneration).getD 0
      let checked := checkPending store.facts generation store.versionValidationCache none
        (sorter.sort pending)
      (checked.1, { store with versionValidationCache := checked.2 })

/-- What a strict read observes. -/
def currentStrictReadIdentity (store : CommitStore) (ref : FactRef) (validTime : ValidTime)
    (commitLimit : CommitSeq) : StatusOr TemporalNeighborhood :=
  readTemporalNeighborhoodWithIterator store.identityHistory store.facts ref validTime commitLimit

/-- The comparison of events, which does not compare the identities of edges. -/
def sameFactEvent (left right : FactEvent) : Bool :=
  left.ref == right.ref && left.validFrom == right.validFrom && left.commitSeq == right.commitSeq &&
    left.operation == right.operation && left.schemaEpoch == right.schemaEpoch &&
      left.value == right.value

def sameOptionalFactEvent : Option FactEvent → Option FactEvent → Bool
  | none, none => true
  | some left, some right => sameFactEvent left right
  | _, _ => false

def sameStrictReadIdentity (left right : TemporalNeighborhood) : Bool :=
  sameOptionalFactEvent left.observed right.observed && left.predecessor == right.predecessor &&
    left.successor == right.successor

/-- What a dependency says that its read observed. -/
def StrictReadDependency.identity (dependency : StrictReadDependency) : TemporalNeighborhood :=
  ⟨dependency.observedEvent, dependency.predecessor, dependency.successor⟩

/-- The strict reads of a batch observe what they observed at their snapshots. -/
def validateStrictReadDependencies (store : CommitStore) : List StrictReadDependency → Status
  | [] => .ok ()
  | dependency :: dependencies =>
      if dependency.snapshotSeq > store.visibleSeq then
        Status.invalidArgument "commit" "strict dependency exceeds visible watermark"
      else do
        let atSnapshot ← currentStrictReadIdentity store dependency.ref dependency.validTime
          dependency.snapshotSeq
        if !sameStrictReadIdentity atSnapshot dependency.identity then
          Status.conflict "commit" "strict read identity does not match its snapshot"
        else
          let current ← currentStrictReadIdentity store dependency.ref dependency.validTime
            store.visibleSeq
          if !sameStrictReadIdentity atSnapshot current then
            Status.conflict "commit" "strict read was changed after its snapshot"
          else
            validateStrictReadDependencies store dependencies

/-- The identity of an edge, if it has one. -/
def readLatestEdgeIdentity (facts : FactColumn) (edge : EdgeRef) : Option EdgeIdentity :=
  let ref : FactRef := ⟨edge.homePartId, .edgeIdentity, 0, edge.edgeId⟩
  match facts.seek (encodeFactKey ref 0 (-1)) with
  | [] => none
  | event :: _ =>
      if ref.keyBytes.isPrefixOf event.encodedKey then
        if event.operation = .delete then none else event.edgeIdentity
      else
        none

/-- The assertions of edges in a batch name edges which have an identity, and the identities in it
are those which the edges have. -/
def validateEdgeIdentitiesForCommit (facts : FactColumn) (batch : StoreCommitBatch) : Status :=
  if batch.mutations.any fun mutation =>
      mutation.ref.family = .edgeState ∧ mutation.operation = .put ∧
        (readLatestEdgeIdentity facts ⟨mutation.ref.partId, mutation.ref.entityId⟩).isNone ∧
          ¬ batch.edgeIdentities.any fun identity =>
            identity.homePartId = mutation.ref.partId ∧ identity.edgeId = mutation.ref.entityId then
    Status.invalidArgument "commit" "first edge assertion requires identity"
  else if batch.edgeIdentities.any fun identity =>
      (readLatestEdgeIdentity facts identity.edgeRef).any (· ≠ identity) then
    .error ⟨.identityConflict, "commit", "edge ID has a different identity"⟩
  else
    .ok ()

/-! ### Chains -/

section Chains

variable {facts : FactColumn} {ref : FactRef} {events : List FactEvent}

/-- The events before the start of the scan of a chain have a smaller reference. -/
theorem encodedKey_lt_keyBytes_iff {event : FactEvent} (hvalid : event.validate = .ok ()) :
  event.encodedKey < ref.keyBytes ↔ event.ref.storeKey < ref.storeKey
  := by
  have hbytes := @ByteCodec.append_lt_append_iff event.ref.keyBytes ref.keyBytes
    (timeBytes event.validFrom ++ timeBytes event.commitSeq) [] (by simp)
  rw [append_nil] at hbytes
  rw [encodedKey, encodeFactKey_eq (validate_ref hvalid)
    (commitSeq_ne_zero hvalid), hbytes, FactRef.keyBytes_lt_iff]
  simp

/-- A scan of a chain starts with the events of its reference. -/
theorem takeWhile_seek_keyBytes :
  (facts.seek ref.keyBytes).takeWhile (fun event => ref.keyBytes.isPrefixOf event.encodedKey) =
    (facts.chain ref).events
  := by
  rw [FactColumn.takeWhile_seek_eq_filter]
  · apply filter_congr
    intro event hevent
    rw [decide_eq_decide, encodedKey_lt_keyBytes_iff (facts.valid event hevent)]
    apply and_iff_left_of_imp
    rintro rfl
    apply lt_irrefl
  · intro event hevent hstart
    rw [encodedKey_lt_keyBytes_iff (facts.valid event hevent), not_lt] at hstart
    exact hstart

theorem scanBoundaries_takeWhile (previous : Option ValidTime) :
  scanBoundaries ref.keyBytes previous
      (events.takeWhile fun event => ref.keyBytes.isPrefixOf event.encodedKey) =
    scanBoundaries ref.keyBytes previous events
  := by
  induction events generalizing previous with
  | nil => rfl
  | cons event events ih =>
    cases hkey : ref.keyBytes.isPrefixOf event.encodedKey with
    | false => simp [scanBoundaries, hkey]
    | true => simp [scanBoundaries, hkey, ih]

/-- A scan finds a boundary for every event which is not at the boundary before it. -/
theorem scanBoundaries_eq_ok
    (hevents : OfRef ref events)
    (hsorted : events.Pairwise fun e f => f.chainKey < e.chainKey) (previous : Option ValidTime) :
  ∃ boundaries, scanBoundaries ref.keyBytes previous events = .ok boundaries ∧
    ∀ event ∈ events, previous = some event.validFrom ∨
      ∃ boundary ∈ boundaries, boundary.validFrom = event.validFrom ∧
        event.commitSeq ≤ boundary.commitSeq
  := by
  induction events generalizing previous with
  | nil =>
    use [], rfl
    simp
  | cons event events ih =>
    obtain ⟨⟨hvalid, href⟩, hevents⟩ := forall_mem_cons.mp hevents
    obtain ⟨hfirst, hsorted⟩ := pairwise_cons.mp hsorted
    have hkey := (isPrefixOf_encodedKey_iff hvalid).mpr href
    have hdecode := decodeFactKey_encodedKey hvalid
    by_cases hsame : previous = some event.validFrom
    · obtain rfl := hsame
      obtain ⟨boundaries, hscan, hall⟩ := ih hevents hsorted (some event.validFrom)
      use boundaries
      constructor
      · simp [scanBoundaries, hkey, hdecode, hscan]
      · intro other hother
        obtain rfl | hother := mem_cons.mp hother
        · left
          rfl
        · apply hall other hother
    · obtain ⟨boundaries, hscan, hall⟩ := ih hevents hsorted (some event.validFrom)
      use ⟨event.validFrom, event.commitSeq⟩ :: boundaries
      constructor
      · simp [scanBoundaries, hkey, hdecode, hsame, hscan]
      · intro other hother
        right
        obtain rfl | hother := mem_cons.mp hother
        · use ⟨other.validFrom, other.commitSeq⟩
          simp
        · obtain heq | ⟨boundary, hboundary, htime, hle⟩ := hall other hother
          · -- the event is at the boundary which was just found, with an older commit
            use ⟨event.validFrom, event.commitSeq⟩, mem_cons_self, some.inj heq
            obtain hlt | ⟨-, hlt⟩ := Prod.Lex.toLex_lt_toLex.mp (hfirst other hother)
            · cases hlt.ne (some.inj heq).symm
            · apply le_of_lt hlt
          · use boundary, mem_cons_of_mem _ hboundary

/-- The chain of a reference covers its events. -/
theorem scanBoundaries_covers (facts : FactColumn) (ref : FactRef) :
  ∃ boundaries, scanBoundaries ref.keyBytes none (facts.seek ref.keyBytes) = .ok boundaries ∧
    Covers facts.events ref boundaries
  := by
  have hevents : OfRef ref (facts.chain ref).events := by
    intro event hevent
    use (facts.chain ref).valid event hevent, (facts.chain ref).sameRef event hevent
  have hsorted := @FactColumn.sorted_chainKey facts ref (fun event => event.ref = ref) (by simp)
  obtain ⟨boundaries, hscan, hall⟩ := scanBoundaries_eq_ok hevents hsorted none
  use boundaries
  constructor
  · rw [← scanBoundaries_takeWhile, takeWhile_seek_keyBytes, hscan]
  · intro event hevent href
    obtain hnone | hboundary := hall event (mem_filter.mpr ⟨hevent, by simp [href]⟩)
    · cases hnone
    · exact hboundary

/-- The cache is sound, if there is one. -/
def CacheSound (cache : Option VersionValidationCache) (events : List FactEvent) : Prop :=
  ∀ known ∈ cache, VersionValidationCache.Sound known events

end Chains

/-! ### Snapshot dependencies -/

section Snapshot

variable {facts : FactColumn} {dependency : SnapshotWriteDependency}

/-- No event at a boundary of the interval which a mutation changes is newer than its snapshot. -/
def SnapshotUnchanged (events : List FactEvent) (dependency : SnapshotWriteDependency) : Prop :=
  ∀ event ∈ events, event.ref = dependency.ref → dependency.validFrom ≤ event.validFrom →
    (∀ successor ∈ dependency.successor, event.validFrom < successor) →
      event.commitSeq ≤ dependency.snapshotSeq

variable {boundaries : List ValidationBoundary}

theorem mem_toIntervals {boundary : ValidationBoundary} (hmem : boundary ∈ boundaries)
    (validTo : Option ValidTime) :
  ∃ interval ∈ toIntervals validTo boundaries, interval.validFrom = boundary.validFrom ∧
    interval.commitSeq = boundary.commitSeq
  := by
  induction boundaries generalizing validTo with
  | nil => cases hmem
  | cons first boundaries ih =>
    obtain rfl | hmem := mem_cons.mp hmem
    · use ⟨boundary.validFrom, validTo, boundary.commitSeq⟩
      simp [toIntervals]
    · obtain ⟨interval, hinterval, hsame⟩ := ih hmem (some first.validFrom)
      use interval, mem_cons_of_mem _ hinterval

/-- A newer event at a boundary of the interval would conflict. -/
theorem snapshotUnchanged_of_not_conflicts
    (hcovers : Covers facts.events dependency.ref boundaries)
    (hnone : (toIntervals none boundaries).any (conflicts dependency) = false) :
  SnapshotUnchanged facts.events dependency
  := by
  intro event hevent href hstart hstop
  obtain ⟨boundary, hboundary, htime, hle⟩ := hcovers event hevent href
  obtain ⟨interval, hinterval, hfrom, hcommit⟩ := mem_toIntervals hboundary none
  have hconflict := any_eq_false.mp hnone interval hinterval
  rw [htime] at hfrom
  rw [conflicts] at hconflict
  split at hconflict
  case isTrue hold =>
    rw [hcommit] at hold
    apply le_trans hle hold
  · rw [hfrom, if_neg (not_lt.mpr hstart)] at hconflict
    -- the boundary is before the successor
    cases hsuccessor : dependency.successor with
    | none => simp [hsuccessor] at hconflict
    | some successor =>
      have hlt := hstop successor hsuccessor
      simp [hsuccessor, not_le.mpr hlt] at hconflict

/-- What is compared with the chains without a conflict is unchanged, and the cache stays sound. -/
theorem checkPending_sound {cache : Option VersionValidationCache}
    {current : Option (FactRef × List ValidationBoundary)} (hcache : CacheSound cache facts.events)
    (hcurrent : ∀ p ∈ current, Covers facts.events p.1 p.2)
    (generation : UInt64) (pending : List SnapshotWriteDependency) :
  CacheSound (checkPending facts generation cache current pending).2 facts.events ∧
    ((checkPending facts generation cache current pending).1 = .ok () →
      ∀ dependency ∈ pending, SnapshotUnchanged facts.events dependency)
  := by
  induction pending generalizing cache current with
  | nil => simpa [checkPending] using hcache
  | cons dependency pending ih =>
    obtain ⟨boundaries, cache', hread, hcovers, hcache'⟩ : ∃ boundaries cache',
        boundariesFor facts generation cache current dependency.ref = .ok (boundaries, cache') ∧
          Covers facts.events dependency.ref boundaries ∧ CacheSound cache' facts.events := by
      rw [boundariesFor]
      split
      case h_1 p hsame =>
        obtain ⟨hp, heq⟩ := filter_eq_some_iff.mp hsame
        use p.2, cache, rfl
        rw [← of_decide_eq_true heq]
        use hcurrent p hp
      · obtain ⟨scanned, hscan, hcovers⟩ := scanBoundaries_covers facts dependency.ref
        have hcommits : ∀ event ∈ facts.events, event.commitSeq ≠ 0 := by
          intro event hevent
          apply commitSeq_ne_zero (facts.valid event hevent)
        cases cache with
        | none =>
          use scanned, none
          simp [currentBoundaries, hscan, hcovers, CacheSound]
        | some cache =>
          have hsound := hcache cache rfl
          have hlookup := @Sound.lookupChain cache facts.events dependency.ref hsound
          cases hfound : (cache.lookupChain dependency.ref).1 with
          | some boundaries =>
            use boundaries, some (cache.lookupChain dependency.ref).2
            simp [currentBoundaries, hfound, hlookup.1 boundaries hfound, CacheSound, hlookup.2]
          | none =>
            use scanned, some ((cache.lookupChain dependency.ref).2.prime dependency.ref scanned generation)
            simp [currentBoundaries, hfound, hscan, hcovers, CacheSound,
              hlookup.2.prime hcovers hcommits generation]
    rw [checkPending, hread]
    simp only
    split
    · constructor
      · exact hcache'
      · intro hok
        cases hok
    case isFalse hnone =>
      have hnone := Bool.eq_false_of_not_eq_true hnone
      have hnext : ∀ p ∈ some (dependency.ref, boundaries),
          Covers facts.events p.1 p.2 := by
        rintro p hp
        obtain rfl := some.inj hp
        exact hcovers
      obtain ⟨hsound, hrest⟩ := ih hcache' hnext
      use hsound
      intro hok other hother
      obtain rfl | hother := mem_cons.mp hother
      · apply snapshotUnchanged_of_not_conflicts hcovers hnone
      · apply hrest hok other hother

/-- What the index and the filter know is sound for the facts of a store. -/
structure CommitStore.Sound (store : CommitStore) : Prop where
  visible : ∀ event ∈ store.facts.events, event.commitSeq ≤ store.visibleSeq
  history : ∀ history ∈ store.identityHistory, ∀ event ∈ store.facts.events,
    FactIdentityHistory.mightContain history event.ref = true
  recent : ∀ index ∈ store.recentFactWriteIndex,
    RecentFactWriteIndex.Sound index store.facts.events
  cache : CacheSound store.versionValidationCache store.facts.events

variable {store : CommitStore}

/-- The dependencies which are not compared with their chains are unchanged. -/
theorem pendingDependencies_sound (hstore : store.Sound)
    {dependencies pending : List SnapshotWriteDependency}
    (h : pendingDependencies store dependencies = .ok pending) :
  ∀ dependency ∈ dependencies, dependency.snapshotSeq ≤ store.visibleSeq ∧
    (dependency ∈ pending ∨ SnapshotUnchanged store.facts.events dependency)
  := by
  induction dependencies generalizing pending with
  | nil => simp
  | cons first dependencies ih =>
    rw [pendingDependencies] at h
    split at h
    · cases h
    case isFalse hseq =>
      obtain ⟨rest, hrest, h⟩ := StatusOr.bind_eq_ok_iff.mp h
      have ih := ih hrest
      have htail {pending : List SnapshotWriteDependency} (hsub : rest ⊆ pending) :
          ∀ dependency ∈ dependencies, dependency.snapshotSeq ≤ store.visibleSeq ∧
            (dependency ∈ pending ∨ SnapshotUnchanged store.facts.events dependency) := by
        intro dependency hdependency
        obtain ⟨hle, hmem | hunchanged⟩ := ih dependency hdependency
        · use hle, Or.inl (hsub hmem)
        · use hle, Or.inr hunchanged
      rw [forall_mem_cons]
      split at h
      case isTrue hproof =>
        obtain rfl := Except.ok.inj h
        refine ⟨⟨not_lt.mp hseq, Or.inr ?_⟩, htail (Subset.refl _)⟩
        intro event hevent href _ _
        obtain ⟨index, hindex, hproof⟩ := (any_eq_true _ _).mp hproof
        apply (hstore.recent index hindex).commitSeq_le_of_canProveUnchanged hproof hevent href
      · split at h
        case isTrue habsent =>
          obtain rfl := Except.ok.inj h
          refine ⟨⟨not_lt.mp hseq, Or.inr ?_⟩, htail (Subset.refl _)⟩
          intro event hevent href _ _
          obtain ⟨history, hhistory, habsent⟩ := (any_eq_true _ _).mp habsent
          rw [← href, hstore.history history hhistory event hevent] at habsent
          cases habsent
        · obtain rfl := Except.ok.inj h
          use ⟨not_lt.mp hseq, Or.inl mem_cons_self⟩, htail (subset_cons_self _ _)

/-- The validation of snapshot dependencies keeps the store sound, and those which pass it are
unchanged. -/
theorem validateSnapshotWriteDependencies_sound (hstore : store.Sound)
    (sorter : Sorter fun dependency : SnapshotWriteDependency => dependency.ref.storeKey)
    (dependencies : List SnapshotWriteDependency) :
  (∃ cache, (validateSnapshotWriteDependencies sorter store dependencies).2 =
      { store with versionValidationCache := cache } ∧ CacheSound cache store.facts.events) ∧
    ((validateSnapshotWriteDependencies sorter store dependencies).1 = .ok () →
      ∀ dependency ∈ dependencies, dependency.snapshotSeq ≤ store.visibleSeq ∧
        SnapshotUnchanged store.facts.events dependency)
  := by
  rw [validateSnapshotWriteDependencies]
  split
  · constructor
    · use store.versionValidationCache, rfl, hstore.cache
    · intro hok
      cases hok
  case h_2 pending hpending =>
    have hchecked := @checkPending_sound _ _ none hstore.cache (by simp)
      ((store.versionValidationCache.map fun cache => cache.publishGeneration).getD 0)
      (sorter.sort pending)
    constructor
    · use (checkPending store.facts
        ((store.versionValidationCache.map fun cache => cache.publishGeneration).getD 0)
        store.versionValidationCache none (sorter.sort pending)).2, rfl, hchecked.1
    · intro hok dependency hdependency
      obtain ⟨hle, hmem | hunchanged⟩ :=
        pendingDependencies_sound hstore hpending dependency hdependency
      · use hle, hchecked.2 hok dependency (sorter.mem_sort.mpr hmem)
      · use hle

end Snapshot

end Cedar
