import CedarGraph.Lib.SortedList
import CedarGraph.Projection.DeltaIndex

/-!
# The coverage of a query delta

A query delta never claims to cover what it does not have.  Whatever the publisher, the worker, a
repair and the projections do, in any order, the indexed descriptors are those of the commits after
the base, through the last indexed one, without a gap.  So the facts of a view, and the events of a
lease, are exactly what was committed after the base, through the snapshot.
-/

namespace Cedar

open Except List StatusOr QueryDeltaCommit QueryDelta

/-- The facts of every commit.  A commit changes a fact from a valid time on once. -/
structure CommitLog where
  events : CommitSeq → List FactEvent
  commitSeq_eq : ∀ sequence, ∀ event ∈ events sequence, event.commitSeq = sequence
  distinct : ∀ sequence,
    ((events sequence).map fun event => (event.ref, event.validFrom)).Nodup

namespace CommitLog

variable (log : CommitLog)

/-- The facts committed after a base, through a snapshot. -/
def between (base snapshot : CommitSeq) : List FactEvent :=
  (List.range' (base.toNat + 1) (snapshot.toNat - base.toNat)).flatMap fun sequence =>
    log.events (UInt64.ofNat sequence)

/-- The events are those committed after a base, through a snapshot, each once and in order. -/
structure IsCoverage (base snapshot : CommitSeq) (events : List FactEvent) : Prop where
  perm : events.Perm (log.between base snapshot)
  sorted : events.Pairwise fun e f => e.eventKey < f.eventKey

/-- A descriptor carries the facts of its commit. -/
def Carries (commit : QueryDeltaCommit) : Prop :=
  commit.normalize.facts.Perm (log.events commit.commitSeq)

/-- The keys of the sequence records of a store have the facts of their commits. -/
def CarriesAll (source : RepairSource) : Prop :=
  ∀ entry ∈ source.records, ∀ events, source.readExactFacts entry.2.factKeys = .ok events →
    events.Perm (log.events entry.2.commitSeq)

variable {log} {base snapshot : CommitSeq}

/-- Facts of the log have different positions. -/
theorem nodup_between :
  ((log.between base snapshot).map FactEvent.eventKey).Nodup
  := by
  rw [between, map_flatMap]
  apply nodup_flatMap.mpr
  constructor
  · intro sequence _
    apply pairwise_map.mpr
    apply (pairwise_map.mp (log.distinct (UInt64.ofNat sequence))).imp
    intro e f hne heq
    obtain ⟨href, hkey⟩ := Prod.mk.inj heq
    obtain ⟨htime, -⟩ := Prod.mk.inj hkey
    apply hne (Prod.ext (FactRef.storeKey_injective href) htime)
  · have hlt : ∀ sequence ∈ range' (base.toNat + 1) (snapshot.toNat - base.toNat),
        sequence < 2 ^ 64 := by
      intro sequence hmem
      have hbound := snapshot.toNat_lt
      rw [mem_range'_1] at hmem
      omega
    apply (nodup_range' (s := base.toNat + 1) (n := snapshot.toNat - base.toNat)).imp_of_mem
    intro m n hm hn hne key hkey hkey'
    obtain ⟨e, he, rfl⟩ := mem_map.mp hkey
    obtain ⟨f, hf, heq⟩ := mem_map.mp hkey'
    have hcommit : e.commitSeq = f.commitSeq := by
      apply congrArg (fun key => (ofLex (ofLex key).2).2) heq.symm
    rw [log.commitSeq_eq _ e he, log.commitSeq_eq _ f hf] at hcommit
    apply hne
    rw [← UInt64.toNat_ofNat_of_lt' (hlt m hm), ← UInt64.toNat_ofNat_of_lt' (hlt n hn), hcommit]

/-- The sorted facts of the log are a coverage. -/
theorem isCoverage_sort (sorter : Sorter FactEvent.eventKey) {events : List FactEvent}
    (hperm : events.Perm (log.between base snapshot)) :
  log.IsCoverage base snapshot (sorter.sort events)
  := by
  have hsort := (sorter.perm events).trans hperm
  apply IsCoverage.mk hsort
  have hnodup : ((sorter.sort events).map FactEvent.eventKey).Nodup :=
    (hsort.map _).nodup_iff.mpr nodup_between
  apply ((sorter.sorted events).and (pairwise_map.mp hnodup)).imp
  rintro e f ⟨hle, hne⟩
  apply lt_of_le_of_ne hle hne

/-- There is one coverage. -/
theorem IsCoverage.unique {events events' : List FactEvent}
    (h : log.IsCoverage base snapshot events) (h' : log.IsCoverage base snapshot events') :
  events = events'
  := by
  apply eq_of_pairwise_of_mem_iff _ h.sorted h'.sorted
  · intro event
    rw [h.perm.mem_iff, h'.perm.mem_iff]
  · intro e f hlt hgt
    apply lt_asymm hlt hgt

/-- Descriptors with consecutive commits have the facts of the log. -/
theorem flatMap_facts_perm {commits : List QueryDeltaCommit}
    (hcarried : ∀ commit ∈ commits, commit.facts.Perm (log.events commit.commitSeq)) :
  (commits.flatMap facts).Perm
    ((commits.map fun commit => commit.commitSeq.toNat).flatMap fun sequence =>
      log.events (UInt64.ofNat sequence))
  := by
  induction commits with
  | nil => apply Perm.refl
  | cons commit commits ih =>
    rw [flatMap_cons, map_cons, flatMap_cons, UInt64.ofNat_toNat]
    apply Perm.append
    · apply hcarried commit mem_cons_self
    · apply ih
      intro other hother
      apply hcarried other (mem_cons_of_mem _ hother)

end CommitLog

/-! ### The invariant -/

namespace QueryDelta

/-- The indexed descriptors are those of the commits after the base, through the last indexed one;
what is queued carries the facts of its commit, and what is cached is a coverage. -/
structure Covers (log : CommitLog) (delta : QueryDelta) : Prop where
  base_le : delta.options.baseSeq ≤ delta.indexedThrough
  consecutive : (delta.commits.map fun commit => commit.commitSeq.toNat) =
    List.range' (delta.options.baseSeq.toNat + 1)
      (delta.indexedThrough.toNat - delta.options.baseSeq.toNat)
  carried : ∀ commit ∈ delta.commits, commit.facts.Perm (log.events commit.commitSeq)
  leaseCommits_eq : delta.leaseCommits = delta.commits
  queued : ∀ commit ∈ delta.publishedQueue, log.Carries commit
  popped : ∀ commit, delta.worker = .popped commit → log.Carries commit
  cached : ∀ entry ∈ delta.leaseIndexCache, entry.1 ≤ delta.indexedThrough ∧
    log.IsCoverage delta.options.baseSeq entry.1 entry.2

/-- What the deltas have indexed, queued and cached is the same. -/
structure SameIndex (delta delta' : QueryDelta) : Prop where
  baseSeq_eq : delta'.options.baseSeq = delta.options.baseSeq
  indexedThrough_eq : delta'.indexedThrough = delta.indexedThrough
  commits_eq : delta'.commits = delta.commits
  leaseCommits_eq : delta'.leaseCommits = delta.leaseCommits
  publishedQueue_eq : delta'.publishedQueue = delta.publishedQueue
  worker_eq : delta'.worker = delta.worker
  leaseIndexCache_eq : delta'.leaseIndexCache = delta.leaseIndexCache

open SameIndex

/-- The second delta is the first one with an indexed descriptor. -/
structure Indexes (delta : QueryDelta) (commit : QueryDeltaCommit) (delta' : QueryDelta) : Prop
    where
  baseSeq_eq : delta'.options.baseSeq = delta.options.baseSeq
  indexedThrough_eq : delta'.indexedThrough = commit.commitSeq
  commits_eq : delta'.commits = delta.commits ++ [commit.normalize]
  leaseCommits_eq : delta'.leaseCommits = delta.leaseCommits ++ [commit.normalize]
  publishedQueue_eq : delta'.publishedQueue = delta.publishedQueue
  worker_eq : delta'.worker = delta.worker
  leaseIndexCache_eq : delta'.leaseIndexCache = delta.leaseIndexCache

section Covers

variable {log : CommitLog} {delta delta' : QueryDelta} {commit : QueryDeltaCommit}
  {estimatedBytes : QueryDeltaCommit → Nat}

theorem SameIndex.refl (delta : QueryDelta) :
  SameIndex delta delta
  := ⟨rfl, rfl, rfl, rfl, rfl, rfl, rfl⟩

theorem SameIndex.setMissing (h : SameIndex delta delta') (missing : CommitSeq) :
  SameIndex delta (delta'.setMissing missing)
  := by
  rw [QueryDelta.setMissing]
  split
  case isTrue => exact { h with }
  case isFalse => apply h

theorem SameIndex.freeRetired (h : SameIndex delta delta') :
  SameIndex delta delta'.freeRetired
  := by
  rw [QueryDelta.freeRetired]
  split
  case isTrue => exact { h with }
  case isFalse => apply h

theorem Covers.of_sameIndex (h : delta.Covers log) (hsame : SameIndex delta delta') :
  delta'.Covers log
  where
  base_le := by
    rw [hsame.baseSeq_eq, hsame.indexedThrough_eq]
    apply h.base_le
  consecutive := by
    rw [hsame.baseSeq_eq, hsame.indexedThrough_eq, hsame.commits_eq]
    apply h.consecutive
  carried := by
    rw [hsame.commits_eq]
    apply h.carried
  leaseCommits_eq := by
    rw [hsame.leaseCommits_eq, hsame.commits_eq]
    apply h.leaseCommits_eq
  queued := by
    rw [hsame.publishedQueue_eq]
    apply h.queued
  popped := by
    rw [hsame.worker_eq]
    apply h.popped
  cached := by
    rw [hsame.baseSeq_eq, hsame.indexedThrough_eq, hsame.leaseIndexCache_eq]
    apply h.cached

/-- A descriptor which follows the last indexed one extends the coverage. -/
theorem Covers.of_indexes (h : delta.Covers log)
    (hnext : commit.commitSeq.toNat = delta.indexedThrough.toNat + 1)
    (hcarries : log.Carries commit) (hindexes : Indexes delta commit delta') :
  delta'.Covers log
  := by
  have hbase := UInt64.le_iff_toNat_le.mp h.base_le
  constructor
  · rw [hindexes.baseSeq_eq, hindexes.indexedThrough_eq, UInt64.le_iff_toNat_le]
    omega
  · have hcount : delta.indexedThrough.toNat + 1 - delta.options.baseSeq.toNat =
        delta.indexedThrough.toNat - delta.options.baseSeq.toNat + 1 := by
      omega
    have hlast : delta.options.baseSeq.toNat + 1 +
        1 * (delta.indexedThrough.toNat - delta.options.baseSeq.toNat) =
          delta.indexedThrough.toNat + 1 := by
      omega
    rw [hindexes.baseSeq_eq, hindexes.indexedThrough_eq, hindexes.commits_eq, map_append,
      h.consecutive, hnext, hcount, range'_concat, hlast]
    simp [QueryDeltaCommit.normalize, hnext]
  · rw [hindexes.commits_eq]
    intro other hother
    rcases mem_append.mp hother with hother | hother
    · apply h.carried other hother
    · rw [mem_singleton.mp hother]
      apply hcarries
  · rw [hindexes.leaseCommits_eq, hindexes.commits_eq, h.leaseCommits_eq]
  · rw [hindexes.publishedQueue_eq]
    apply h.queued
  · rw [hindexes.worker_eq]
    apply h.popped
  · rw [hindexes.baseSeq_eq, hindexes.indexedThrough_eq, hindexes.leaseIndexCache_eq]
    intro entry hentry
    obtain ⟨hle, hcoverage⟩ := h.cached entry hentry
    apply And.intro _ hcoverage
    rw [UInt64.le_iff_toNat_le] at hle ⊢
    omega

/-! ### Indexing -/

/-- A descriptor is indexed, or the index stays. -/
theorem indexLocked_cases (estimatedBytes : QueryDeltaCommit → Nat) (delta : QueryDelta)
    (commit : QueryDeltaCommit) :
  (∃ error, (delta.indexLocked estimatedBytes commit).2 = .error error ∧
      SameIndex delta (delta.indexLocked estimatedBytes commit).1) ∨
    ((delta.indexLocked estimatedBytes commit).2 = .ok () ∧
      Indexes delta commit (delta.indexLocked estimatedBytes commit).1)
  := by
  rw [indexLocked]
  rcases commit.validate with error | ⟨⟨⟩⟩
  · left
    use error, rfl
    apply SameIndex.refl
  · dsimp only
    split
    case isTrue =>
      left
      refine ⟨_, rfl, ?_⟩
      apply SameIndex.setMissing
      apply SameIndex.mk <;> rfl
    case isFalse =>
      right
      use rfl
      split
      case isTrue => apply Indexes.mk <;> rfl
      case isFalse => apply Indexes.mk <;> rfl

/-- Indexing a descriptor which follows the last indexed one keeps the invariant. -/
theorem Covers.indexLocked (h : delta.Covers log)
    (hnext : commit.commitSeq.toNat = delta.indexedThrough.toNat + 1)
    (hcarries : log.Carries commit) :
  (delta.indexLocked estimatedBytes commit).1.Covers log
  := by
  rcases indexLocked_cases estimatedBytes delta commit with ⟨_, -, hsame⟩ | ⟨-, hindexes⟩
  · apply h.of_sameIndex hsame
  · apply h.of_indexes hnext hcarries hindexes

/-- Indexing descriptors with consecutive commits keeps the invariant. -/
theorem Covers.indexAll {descriptors : List QueryDeltaCommit} (h : delta.Covers log)
    (hnext : (descriptors.map fun commit => commit.commitSeq.toNat) =
      range' (delta.indexedThrough.toNat + 1) descriptors.length)
    (hcarries : ∀ commit ∈ descriptors, log.Carries commit) :
  (delta.indexAll estimatedBytes descriptors).1.Covers log
  := by
  induction descriptors generalizing delta with
  | nil => apply h
  | cons descriptor descriptors ih =>
    rw [map_cons] at hnext
    obtain ⟨hfirst, hrest⟩ := cons.inj hnext
    have hindexed := @Covers.indexLocked log delta descriptor estimatedBytes h hfirst
      (hcarries descriptor mem_cons_self)
    rw [indexAll]
    rcases hresult : delta.indexLocked estimatedBytes descriptor with ⟨next, error | ⟨⟨⟩⟩⟩
    · rw [hresult] at hindexed
      apply hindexed
    · rw [hresult] at hindexed
      apply ih hindexed
      · rcases indexLocked_cases estimatedBytes delta descriptor with ⟨_, herror, -⟩ | ⟨-, hindexes⟩
        · rw [hresult] at herror
          cases herror
        · rw [hresult] at hindexes
          rw [hindexes.indexedThrough_eq, hfirst, hrest]
      · intro commit hcommit
        apply hcarries commit (mem_cons_of_mem _ hcommit)

/-! ### Repair -/

/-- The records of a range have consecutive commits, and are records of the store. -/
theorem readRecords_spec {last : CommitSeq} {records : List (CommitSeq × SequenceRecord)}
    {expected : CommitSeq} {found : List SequenceRecord} (hle : expected ≤ last)
    (hread : RepairSource.readRecords last expected records = .ok found) :
  (found.map fun record => record.commitSeq.toNat) = range' expected.toNat found.length ∧
    ∀ record ∈ found, ∃ entry ∈ records, entry.2 = record
  := by
  induction records generalizing expected found with
  | nil =>
    obtain rfl := ok.inj hread
    use rfl
    intro record hrecord
    cases hrecord
  | cons entry records ih =>
    obtain ⟨key, record⟩ := entry
    obtain ⟨-, hread⟩ := guard_eq_ok_iff.mp hread
    obtain ⟨hcommit, hread⟩ := guard_eq_ok_iff.mp hread
    rw [not_not] at hcommit
    split at hread
    case isTrue =>
      obtain rfl := ok.inj hread
      constructor
      · simp [hcommit]
      · intro other hother
        use (key, record), mem_cons_self
        rw [mem_singleton.mp hother]
    case isFalse hne =>
      obtain ⟨rest, hrest, hfound⟩ := bind_eq_ok_iff.mp hread
      obtain rfl := ok.inj hfound
      have hlt := UInt64.lt_iff_toNat_lt.mp (lt_of_le_of_ne hle hne)
      have hnext : (expected + 1).toNat = expected.toNat + 1 := by
        apply Word.toNat_add_one
        rintro rfl
        have hbound := last.toNat_lt
        change 2 ^ 64 - 1 < last.toNat at hlt
        omega
      have hle' : expected + 1 ≤ last := by
        rw [UInt64.le_iff_toNat_le]
        omega
      obtain ⟨hconsecutive, hmem⟩ := ih hle' hrest
      constructor
      · rw [map_cons, length_cons, range'_succ, hconsecutive, hcommit, hnext]
      · intro other hother
        rcases mem_cons.mp hother with rfl | hother
        · use (key, other), mem_cons_self
        · obtain ⟨entry, hentry, heq⟩ := hmem other hother
          use entry, mem_cons_of_mem _ hentry

variable {source : RepairSource} {through : CommitSeq}

/-- The descriptors of sequence records have their commits and carry their facts. -/
theorem repairDescriptors_spec {maxBytes bytes : Nat} {sequences : List SequenceRecord}
    {repaired : List QueryDeltaCommit} (hsource : log.CarriesAll source)
    (hmem : ∀ sequence ∈ sequences, ∃ entry ∈ source.records, entry.2 = sequence)
    (hrepaired : repairDescriptors estimatedBytes source maxBytes bytes sequences = .ok repaired) :
  (repaired.map fun commit => commit.commitSeq) = sequences.map SequenceRecord.commitSeq ∧
    ∀ commit ∈ repaired, log.Carries commit
  := by
  induction sequences generalizing bytes repaired with
  | nil =>
    obtain rfl := ok.inj hrepaired
    use rfl
    intro commit hcommit
    cases hcommit
  | cons sequence sequences ih =>
    obtain ⟨events, hevents, hrepaired⟩ := bind_eq_ok_iff.mp hrepaired
    obtain ⟨-, hrepaired⟩ := budget_eq_ok_iff.mp hrepaired
    obtain ⟨rest, hrest, hrepaired⟩ := bind_eq_ok_iff.mp hrepaired
    obtain rfl := ok.inj hrepaired
    obtain ⟨hmem', hmem⟩ := forall_mem_cons.mp hmem
    obtain ⟨hcommits, hcarries⟩ := ih hmem hrest
    constructor
    · rw [map_cons, map_cons, hcommits]
    · intro commit hcommit
      rcases mem_cons.mp hcommit with rfl | hcommit
      · obtain ⟨entry, hentry, rfl⟩ := hmem'
        rw [CommitLog.Carries, QueryDeltaCommit.normalize, map_nil, append_nil]
        apply hsource entry hentry events hevents
      · apply hcarries commit hcommit

/-- A repair keeps the invariant. -/
theorem Covers.repairThrough (h : delta.Covers log) (hsource : log.CarriesAll source)
    (target : CommitSeq) (limits : QueryDeltaRepairLimits) :
  (delta.repairThrough estimatedBytes source target limits).1.Covers log
  := by
  rw [QueryDelta.repairThrough]
  split
  case isTrue => apply h
  split
  case isTrue => apply h
  split
  case isTrue => apply h
  rcases hsequences : source.readSequenceRange (delta.indexedThrough + 1) target with _ | sequences
  · apply h
  dsimp only
  rcases hrepaired : repairDescriptors estimatedBytes source limits.maxBytes 0 sequences
    with _ | repaired
  · apply h
  dsimp only
  -- the range has no gap, so that the descriptors follow the indexed ones
  obtain ⟨hrange, hsequences⟩ := check_eq_ok_iff.mp hsequences
  obtain ⟨-, hsequences⟩ := guard_eq_ok_iff.mp hsequences
  obtain ⟨found, hfound, hsequences⟩ := bind_eq_ok_iff.mp hsequences
  obtain ⟨-, hsequences⟩ := guard_eq_ok_iff.mp hsequences
  obtain rfl := ok.inj hsequences
  push Not at hrange
  obtain ⟨hconsecutive, hmem⟩ := readRecords_spec hrange.2.1 hfound
  have hmem' : ∀ record ∈ found, ∃ entry ∈ source.records, entry.2 = record := by
    intro record hrecord
    obtain ⟨entry, hentry, heq⟩ := hmem record hrecord
    use entry, (dropWhile_sublist _).subset hentry
  obtain ⟨hcommits, hcarries⟩ := repairDescriptors_spec hsource hmem' hrepaired
  have hnext : (delta.indexedThrough + 1).toNat = delta.indexedThrough.toNat + 1 := by
    apply Word.toNat_add_one
    intro hmax
    apply hrange.1
    rw [hmax]
    rfl
  have hlength : repaired.length = found.length := by
    have hlengths := congrArg length hcommits
    simpa using hlengths
  have hindexed : (delta.indexAll estimatedBytes repaired).1.Covers log := by
    apply h.indexAll _ hcarries
    have htoNat := congrArg (map UInt64.toNat) hcommits
    rw [map_map, map_map] at htoNat
    rw [hlength, ← hnext, ← hconsecutive]
    apply htoNat
  rcases hresult : delta.indexAll estimatedBytes repaired with ⟨next, _ | ⟨⟨⟩⟩⟩
  · rw [hresult] at hindexed
    apply hindexed
  · rw [hresult] at hindexed
    have hdone : Covers log { next with
        queueSize := 0, publishedQueue := [], enqueuedThrough := next.indexedThrough } :=
      { hindexed with queued := by simp }
    dsimp only
    split
    case isTrue => exact { hdone with }
    case isFalse => apply hdone

/-! ### Retirement -/

/-- The numbers of a range which lie in a range within it. -/
theorem filter_range'_eq {base stop first last : Nat} {p : Nat → Bool}
    (hp : ∀ n, (base < n ∧ n ≤ stop) ∧ p n = true ↔ first < n ∧ n ≤ last) :
  (range' (base + 1) (stop - base)).filter p = range' (first + 1) (last - first)
  := by
  have hmem : ∀ {a b n : Nat}, n ∈ range' (a + 1) (b - a) ↔ a < n ∧ n ≤ b := by
    intro a b n
    rw [mem_range'_1]
    omega
  apply eq_of_pairwise_of_mem_iff _ (Pairwise.filter p pairwise_lt_range')
    pairwise_lt_range'
  · intro n
    rw [mem_filter, hmem, hmem, hp]
  · intro m n hlt hgt
    apply lt_asymm hlt hgt

variable {snapshot : CommitSeq}

/-- The descriptors through a snapshot have the commits through it. -/
theorem Covers.map_covered (h : delta.Covers log) (hindexed : snapshot ≤ delta.indexedThrough) :
  ((delta.covered snapshot delta.commits).map fun commit => commit.commitSeq.toNat) =
    range' (delta.options.baseSeq.toNat + 1)
      (snapshot.toNat - delta.options.baseSeq.toNat)
  := by
  have hmap : ((delta.covered snapshot delta.commits).map fun commit => commit.commitSeq.toNat) =
      (delta.commits.map fun commit => commit.commitSeq.toNat).filter fun n =>
        delta.options.baseSeq.toNat < n ∧ n ≤ snapshot.toNat := by
    rw [filter_map]
    rfl
  rw [UInt64.le_iff_toNat_le] at hindexed
  rw [hmap, h.consecutive, filter_range'_eq]
  intro n
  rw [decide_eq_true_eq]
  omega

/-- A delta which has dropped what was indexed through a sequence, and its cache, covers what
follows. -/
theorem Covers.of_retired (h : delta.Covers log)
    (hthrough : delta.options.baseSeq ≤ through ∧ through ≤ delta.indexedThrough)
    (hbase : delta'.options.baseSeq = through)
    (hindexed : delta'.indexedThrough = delta.indexedThrough)
    (hcommits : delta'.commits = delta.commits.filter fun commit => commit.commitSeq > through)
    (hlease : delta'.leaseCommits =
      delta.leaseCommits.dropWhile fun commit => commit.commitSeq ≤ through)
    (hqueue : delta'.publishedQueue = delta.publishedQueue) (hworker : delta'.worker = delta.worker)
    (hcache : delta'.leaseIndexCache = []) :
  delta'.Covers log
  where
  base_le := by
    rw [hbase, hindexed]
    apply hthrough.2
  consecutive := by
    have hmap : ((delta.commits.filter fun commit => commit.commitSeq > through).map fun commit =>
        commit.commitSeq.toNat) =
          (delta.commits.map fun commit => commit.commitSeq.toNat).filter (through.toNat < ·) := by
      rw [filter_map]
      rfl
    have hle := UInt64.le_iff_toNat_le.mp hthrough.1
    rw [hbase, hindexed, hcommits, hmap, h.consecutive, filter_range'_eq]
    intro n
    rw [decide_eq_true_eq]
    omega
  carried := by
    rw [hcommits]
    intro commit hcommit
    apply h.carried commit (mem_filter.mp hcommit).1
  leaseCommits_eq := by
    rw [hlease, hcommits, h.leaseCommits_eq, dropWhile_eq_filter]
    · apply filter_congr
      intro commit _
      rw [Bool.eq_iff_iff]
      simp
    · have hsorted : (range' (delta.options.baseSeq.toNat + 1)
          (delta.indexedThrough.toNat - delta.options.baseSeq.toNat)).Pairwise (· < ·) :=
        pairwise_lt_range'
      rw [← h.consecutive] at hsorted
      apply (pairwise_map.mp hsorted).imp
      intro a b hlt hb
      rw [decide_eq_true_eq] at hb ⊢
      apply le_trans (UInt64.le_iff_toNat_le.mpr hlt.le) hb
  queued := by
    rw [hqueue]
    apply h.queued
  popped := by
    rw [hworker]
    apply h.popped
  cached := by
    rw [hcache]
    intro entry hentry
    cases hentry

/-- Retirement keeps the invariant. -/
theorem Covers.retireThrough (h : delta.Covers log) (through : CommitSeq) :
  (delta.retireThrough estimatedBytes through).1.Covers log
  := by
  rw [QueryDelta.retireThrough]
  split
  case isTrue => apply h
  case isFalse hrange =>
    push Not at hrange
    dsimp only
    have hfree := fun retired : QueryDelta => (refl retired).freeRetired
    split
    · exact h.of_retired hrange rfl (hfree _).indexedThrough_eq (hfree _).commits_eq
        (hfree _).leaseCommits_eq (hfree _).publishedQueue_eq (hfree _).worker_eq rfl
    · exact h.of_retired hrange rfl (hfree _).indexedThrough_eq (hfree _).commits_eq
        (hfree _).leaseCommits_eq (hfree _).publishedQueue_eq (hfree _).worker_eq rfl

/-! ### Publishing -/

/-- A valid descriptor which follows a commit has the next sequence. -/
theorem toNat_of_next {sequence : CommitSeq} (hnext : commit.commitSeq = sequence + 1)
    (hvalid : commit.validate = .ok ()) :
  commit.commitSeq.toNat = sequence.toNat + 1
  := by
  rw [hnext]
  apply Word.toNat_add_one
  rintro rfl
  have hzero : commit.commitSeq = 0 := hnext
  rw [validate, if_pos hzero] at hvalid
  cases hvalid

theorem Covers.observePublished (h : delta.Covers log) (hcarries : log.Carries commit) :
  (delta.observePublished estimatedBytes commit).1.Covers log
  := by
  rw [QueryDelta.observePublished]
  rcases hvalid : commit.validate with _ | ⟨⟨⟩⟩
  · apply h
  dsimp only
  split
  case isTrue => apply h
  have hvisible : (delta.advanceVisible commit.commitSeq).Covers log :=
    { h with }
  split
  case isTrue => apply hvisible.of_sameIndex ((refl _).setMissing _)
  case isFalse hnext =>
    split
    case isTrue => apply hvisible.of_sameIndex ((refl _).setMissing _)
    case isFalse =>
      have hindexed := @Covers.indexLocked log _ commit estimatedBytes hvisible
        (toNat_of_next (not_not.mp hnext) hvalid) hcarries
      rcases hresult : (delta.advanceVisible commit.commitSeq).indexLocked estimatedBytes commit
        with ⟨next, _ | ⟨⟨⟩⟩⟩
      · rw [hresult] at hindexed
        apply hindexed
      · rw [hresult] at hindexed
        exact { hindexed with }

theorem Covers.enqueuePublished (h : delta.Covers log) (hcarries : log.Carries commit)
    (injected : Status) :
  (delta.enqueuePublished commit injected).1.Covers log
  := by
  unfold QueryDelta.enqueuePublished
  rcases commit.validate with _ | ⟨⟨⟩⟩
  · apply h
  dsimp only
  split
  case isTrue => apply h
  split
  case isTrue =>
    have hmissing := h.of_sameIndex ((refl delta).setMissing (delta.enqueuedThrough + 1))
    exact { hmissing with }
  split
  case isTrue =>
    have hmissing := h.of_sameIndex ((refl delta).setMissing commit.commitSeq)
    exact { hmissing with }
  rcases injected with _ | ⟨⟨⟩⟩
  · apply h
  · refine { h with queued := ?_ }
    intro other hother
    rcases mem_append.mp hother with hother | hother
    · apply h.queued other hother
    · rw [mem_singleton.mp hother]
      apply hcarries

theorem Covers.workerPop (h : delta.Covers log) :
  delta.workerPop.Covers log
  := by
  rw [QueryDelta.workerPop]
  split
  case h_1 commit rest _ hqueue =>
    have hqueued := h.queued
    rw [hqueue] at hqueued
    refine { h with queued := ?_, popped := ?_ }
    · intro other hother
      apply hqueued other (mem_cons_of_mem _ hother)
    · intro other hother
      obtain rfl := DeltaWorker.popped.inj hother
      apply hqueued commit mem_cons_self
  case h_2 => apply h

theorem Covers.workerIndex (h : delta.Covers log) :
  (delta.workerIndex estimatedBytes).Covers log
  := by
  rw [QueryDelta.workerIndex]
  split
  case h_1 commit hworker =>
    have hindexed : Covers log { delta with worker := .indexed } := by
      refine { h with popped := ?_ }
      intro other hother
      cases hother
    dsimp only
    split
    case isTrue => apply hindexed.of_sameIndex ((refl _).setMissing _)
    case isFalse hnext =>
      rcases hvalid : commit.validate with error | ⟨⟨⟩⟩
      · rw [QueryDelta.indexLocked, hvalid]
        apply hindexed
      · apply hindexed.indexLocked (toNat_of_next (not_not.mp hnext) hvalid)
        apply h.popped commit hworker
  case h_2 => apply h

theorem Covers.workerDone (h : delta.Covers log) :
  delta.workerDone.Covers log
  := by
  rw [QueryDelta.workerDone]
  split
  case h_1 =>
    refine { h with popped := ?_ }
    intro other hother
    cases hother
  case h_2 => apply h

theorem Covers.resetBase (h : delta.Covers log) (base : CommitSeq) :
  (delta.resetBase base).Covers log
  where
  base_le := le_rfl
  consecutive := by
    simp [QueryDelta.resetBase]
  carried := forall_mem_nil _
  leaseCommits_eq := rfl
  queued := forall_mem_nil _
  popped := h.popped
  cached := forall_mem_nil _

/-! ### Views and leases -/

/-- What a delta claims to cover lies between its base and the last indexed commit. -/
theorem le_of_checkCovered (hcovered : delta.checkCovered snapshot = .ok ()) :
  delta.options.baseSeq ≤ snapshot ∧ snapshot ≤ delta.indexedThrough
  := by
  obtain ⟨hbase, hcovered⟩ := check_eq_ok_iff.mp hcovered
  obtain ⟨hindexed, -⟩ := budget_eq_ok_iff.mp hcovered
  push Not at hindexed
  use not_lt.mp hbase, hindexed.1

/-- The sorted facts of the covered descriptors are a coverage. -/
theorem Covers.isCoverage_sort (h : delta.Covers log)
    (hcovered : delta.checkCovered snapshot = .ok ()) (sorter : Sorter FactEvent.eventKey) :
  log.IsCoverage delta.options.baseSeq snapshot
    (sorter.sort ((delta.covered snapshot delta.commits).flatMap facts))
  := by
  apply CommitLog.isCoverage_sort
  rw [CommitLog.between, ← h.map_covered (le_of_checkCovered hcovered).2]
  apply CommitLog.flatMap_facts_perm
  intro commit hcommit
  apply h.carried commit (mem_filter.mp hcommit).1

/-- A view has the facts committed after the base, through the snapshot. -/
theorem Covers.acquireThrough (h : delta.Covers log) {sorter : Sorter FactEvent.eventKey}
    {view : QueryDeltaView} (hview : delta.acquireThrough sorter snapshot = .ok view) :
  log.IsCoverage delta.options.baseSeq snapshot view.facts
  := by
  obtain ⟨_, hcovered, hview⟩ := bind_eq_ok_iff.mp hview
  obtain rfl := ok.inj hview
  apply h.isCoverage_sort hcovered

/-- A lease has the facts committed after the base, through the snapshot, and keeps the
invariant. -/
theorem Covers.acquireLeaseThrough (h : delta.Covers log) (sorter : Sorter FactEvent.eventKey)
    (snapshot : CommitSeq) (alive : Bool) (evicted : Nat) :
  (delta.acquireLeaseThrough sorter snapshot alive evicted).1.Covers log ∧
    ∀ lease, (delta.acquireLeaseThrough sorter snapshot alive evicted).2 = .ok lease →
      log.IsCoverage delta.options.baseSeq snapshot lease.events
  := by
  rw [QueryDelta.acquireLeaseThrough]
  rcases hcovered : delta.checkCovered snapshot with _ | ⟨⟨⟩⟩
  · use h
    intro lease hlease
    cases hlease
  have hleased : Covers log { delta with activeLeases := delta.activeLeases + 1 } :=
    { h with }
  have hsorted := h.isCoverage_sort hcovered sorter
  dsimp only
  split
  case h_1 events hcached =>
    use hleased
    intro lease hlease
    obtain rfl := ok.inj hlease
    rw [cachedEvents] at hcached
    split at hcached
    case isTrue =>
      obtain ⟨_, _, heq, -⟩ := lookup_eq_some_iff.mp hcached
      apply (h.cached (snapshot, events) _).2
      rw [show delta.leaseIndexCache = _ from heq]
      simp
    case isFalse => cases hcached
  case h_2 =>
    constructor
    · refine { h with cached := ?_ }
      have hcache : ∀ entry ∈ (snapshot, sorter.sort ((delta.covered snapshot
          delta.commits).flatMap facts)) ::
            delta.leaseIndexCache.filter (fun entry => entry.1 ≠ snapshot),
          entry.1 ≤ delta.indexedThrough ∧
            log.IsCoverage delta.options.baseSeq entry.1 entry.2 := by
        intro entry hentry
        rcases mem_cons.mp hentry with rfl | hentry
        · use (le_of_checkCovered hcovered).2
        · apply h.cached entry (mem_filter.mp hentry).1
      intro entry hentry
      apply hcache entry
      rw [h.leaseCommits_eq] at hentry
      split at hentry
      case isTrue => apply (eraseIdx_sublist _ _).subset hentry
      case isFalse => apply hentry
    · intro lease hlease
      obtain rfl := ok.inj hlease
      rw [h.leaseCommits_eq]
      apply hsorted

end Covers

/-! ### Runs -/

/-- What a publisher, the worker, a repair, a projection or a query does. -/
inductive Step where
  | enqueuePublished (commit : QueryDeltaCommit) (injected : Status)
  | workerPop
  | workerIndex
  | workerDone
  | observePublished (commit : QueryDeltaCommit)
  | repairThrough (source : RepairSource) (target : CommitSeq) (limits : QueryDeltaRepairLimits)
  | retireThrough (through : CommitSeq)
  | resetBase (base : CommitSeq)
  | consumeThrough (through : CommitSeq)
  | acquireLeaseThrough (snapshot : CommitSeq) (alive : Bool) (evicted : Nat)
  | releaseLease

/-- A step of a delta.  A repair, a retirement and a new base wait until the worker is idle. -/
def step (estimatedBytes : QueryDeltaCommit → Nat) (sorter : Sorter FactEvent.eventKey)
    (delta : QueryDelta) : Step → QueryDelta
  | .enqueuePublished commit injected => (delta.enqueuePublished commit injected).1
  | .workerPop => delta.workerPop
  | .workerIndex => delta.workerIndex estimatedBytes
  | .workerDone => delta.workerDone
  | .observePublished commit => (delta.observePublished estimatedBytes commit).1
  | .repairThrough source target limits =>
      if delta.worker = .idle then (delta.repairThrough estimatedBytes source target limits).1
      else delta
  | .retireThrough through =>
      if delta.worker = .idle then (delta.retireThrough estimatedBytes through).1 else delta
  | .resetBase base => if delta.worker = .idle then delta.resetBase base else delta
  | .consumeThrough through => (delta.consumeThrough through).1
  | .acquireLeaseThrough snapshot alive evicted =>
      (delta.acquireLeaseThrough sorter snapshot alive evicted).1
  | .releaseLease => delta.releaseLease

/-- A run of a delta. -/
def run (estimatedBytes : QueryDeltaCommit → Nat) (sorter : Sorter FactEvent.eventKey)
    (delta : QueryDelta) (steps : List Step) : QueryDelta :=
  steps.foldl (step estimatedBytes sorter) delta

/-- The descriptors of a step carry the facts of the log. -/
def Step.Offers (log : CommitLog) : Step → Prop
  | .enqueuePublished commit _ => log.Carries commit
  | .observePublished commit => log.Carries commit
  | .repairThrough source _ _ => log.CarriesAll source
  | _ => True

section Run

variable {log : CommitLog} {delta : QueryDelta} {estimatedBytes : QueryDeltaCommit → Nat}
  {sorter : Sorter FactEvent.eventKey}

/-- A step keeps the invariant. -/
theorem Covers.step (h : delta.Covers log) {step : Step} (hoffers : step.Offers log) :
  (delta.step estimatedBytes sorter step).Covers log
  := by
  cases step with
  | enqueuePublished commit injected => apply h.enqueuePublished hoffers
  | workerPop => apply h.workerPop
  | workerIndex => apply h.workerIndex
  | workerDone => apply h.workerDone
  | observePublished commit => apply h.observePublished hoffers
  | repairThrough source target limits =>
    rw [QueryDelta.step]
    split
    · apply h.repairThrough hoffers
    · apply h
  | retireThrough through =>
    rw [QueryDelta.step]
    split
    · apply h.retireThrough
    · apply h
  | resetBase base =>
    rw [QueryDelta.step]
    split
    · apply h.resetBase
    · apply h
  | consumeThrough through =>
    rw [QueryDelta.step, QueryDelta.consumeThrough]
    split
    · apply h
    · exact { h with }
  | acquireLeaseThrough snapshot alive evicted =>
    apply (h.acquireLeaseThrough sorter snapshot alive evicted).1
  | releaseLease =>
    have hreleased : Covers log { delta with activeLeases := delta.activeLeases - 1 } :=
    { h with }
    apply hreleased.of_sameIndex (refl _).freeRetired

/-- A run keeps the invariant. -/
theorem Covers.run {steps : List Step} (h : delta.Covers log)
    (hoffers : ∀ step ∈ steps, step.Offers log) :
  (delta.run estimatedBytes sorter steps).Covers log
  := by
  induction steps generalizing delta with
  | nil => apply h
  | cons step steps ih =>
    obtain ⟨hfirst, hrest⟩ := forall_mem_cons.mp hoffers
    apply ih (h.step hfirst) hrest

theorem covers_new (options : QueryDeltaOptions) :
  (new options).Covers log
  where
  base_le := le_rfl
  consecutive := by
    simp [new]
  carried := forall_mem_nil _
  leaseCommits_eq := rfl
  queued := forall_mem_nil _
  popped := by
    intro commit hcommit
    cases hcommit
  cached := forall_mem_nil _

/-- A lease is given where the delta claims to cover the snapshot. -/
theorem acquireLeaseThrough_cases (delta : QueryDelta) (sorter : Sorter FactEvent.eventKey)
    (snapshot : CommitSeq) (alive : Bool) (evicted : Nat) :
  (∃ error, delta.checkCovered snapshot = .error error ∧
      (delta.acquireLeaseThrough sorter snapshot alive evicted).2 = .error error) ∨
    (delta.checkCovered snapshot = .ok () ∧
      ∃ lease, (delta.acquireLeaseThrough sorter snapshot alive evicted).2 = .ok lease ∧
        lease.baseSeq = delta.options.baseSeq ∧ lease.through = snapshot)
  := by
  rw [acquireLeaseThrough]
  rcases delta.checkCovered snapshot with error | ⟨⟨⟩⟩
  · left
    use error
  · right
    use rfl
    dsimp only
    split
    case h_1 => refine ⟨_, rfl, rfl, rfl⟩
    case h_2 => refine ⟨_, rfl, rfl, rfl⟩

/-- After any run of a new delta, a view and a lease have exactly the facts committed after the
base, through the snapshot, each once and in order, and they agree. -/
theorem acquired_of_run {options : QueryDeltaOptions} {steps : List Step}
    (hoffers : ∀ step ∈ steps, step.Offers log) (snapshot : CommitSeq)
    (sorter' sorter'' : Sorter FactEvent.eventKey) (alive : Bool) (evicted : Nat) :
  let delta := (QueryDelta.new options).run estimatedBytes sorter steps
  (∀ view, delta.acquireThrough sorter' snapshot = .ok view →
    view.baseSeq = delta.options.baseSeq ∧ view.through = snapshot ∧
      log.IsCoverage delta.options.baseSeq snapshot view.facts) ∧
  (∀ lease, (delta.acquireLeaseThrough sorter'' snapshot alive evicted).2 = .ok lease →
    lease.baseSeq = delta.options.baseSeq ∧ lease.through = snapshot ∧
      log.IsCoverage delta.options.baseSeq snapshot lease.events) ∧
  (delta.acquireThrough sorter' snapshot).map QueryDeltaView.facts =
    (delta.acquireLeaseThrough sorter'' snapshot alive evicted).2.map QueryDelta.Lease.events
  := by
  intro delta
  have h : delta.Covers log := (covers_new options).run hoffers
  have hlease := (h.acquireLeaseThrough sorter'' snapshot alive evicted).2
  refine ⟨?_, ?_, ?_⟩
  · intro view hview
    have hfacts := h.acquireThrough hview
    obtain ⟨_, -, hview⟩ := bind_eq_ok_iff.mp hview
    obtain rfl := ok.inj hview
    refine ⟨rfl, rfl, hfacts⟩
  · intro lease hok
    have hevents := hlease lease hok
    rcases acquireLeaseThrough_cases delta sorter'' snapshot alive evicted with
      ⟨_, -, herror⟩ | ⟨-, lease', hok', hbase, hthrough⟩
    · rw [herror] at hok
      cases hok
    · obtain rfl : lease' = lease := by
        rw [hok'] at hok
        apply ok.inj hok
      refine ⟨hbase, hthrough, hevents⟩
  · rcases acquireLeaseThrough_cases delta sorter'' snapshot alive evicted with
      ⟨_, hcovered, herror⟩ | ⟨hcovered, lease, hok, -, -⟩
    · rw [herror, acquireThrough, hcovered]
      rfl
    · rw [hok, acquireThrough, hcovered]
      apply congrArg ok
      apply (h.isCoverage_sort hcovered sorter').unique (hlease lease hok)

end Run

/-- The log in which the first commit creates a vertex. -/
def vertexLog : CommitLog where
  events sequence :=
    if sequence = 1 then
      [{ ref := EntityFact.vertex ⟨0, 1⟩, validFrom := 3, commitSeq := 1 }]
    else
      []
  commitSeq_eq sequence event hevent := by
    split at hevent
    case isTrue hfirst => rw [List.mem_singleton.mp hevent, hfirst]
    case isFalse => cases hevent
  distinct sequence := by
    split
    case isTrue => apply List.nodup_singleton
    case isFalse => apply List.nodup_nil

/-- A publisher queues the first commit, and the worker indexes it. -/
def vertexSteps : List Step :=
  [.enqueuePublished ⟨1, [], [{ ref := EntityFact.vertex ⟨0, 1⟩, validFrom := 3 }], []⟩ (.ok ()),
    .workerPop, .workerIndex, .workerDone]

/-- The view of the first commit has the vertex. -/
theorem vertexSteps_acquired :
  ∃ view, ((QueryDelta.new {}).run (fun _ => 1) (Sorter.insertion _) vertexSteps).acquireThrough
      (Sorter.insertion _) 1 = .ok view ∧ vertexLog.IsCoverage 0 1 view.facts
  := by
  have hoffers : ∀ step ∈ vertexSteps, step.Offers vertexLog := by
    intro step hstep
    simp only [vertexSteps, mem_cons, not_mem_nil, or_false] at hstep
    rcases hstep with rfl | rfl | rfl | rfl
    · apply Perm.refl
    · trivial
    · trivial
    · trivial
  have hview : ((new {}).run (fun _ => 1) (Sorter.insertion _)
      vertexSteps).acquireThrough (Sorter.insertion _) 1 =
        .ok ⟨0, 1, [{ ref := EntityFact.vertex ⟨0, 1⟩, validFrom := 3, commitSeq := 1 }], 0⟩ := by
    decide +kernel
  refine ⟨_, hview, ?_⟩
  apply ((acquired_of_run hoffers 1 _ (Sorter.insertion _) true 0).1 _ hview).2.2

end QueryDelta

end Cedar
