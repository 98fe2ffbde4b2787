import CedarGraph.Lib.SetAssociative
import CedarGraph.Storage.FactIdentityHistory

/-!
# The index of recent writes

A bounded summary of the writes since the store was opened.  It has the latest commit of some
references, and filters over the references of windows of commits.  A reference is unchanged since
a snapshot if its latest commit is known and not newer, or if no filter with newer commits contains
it.

The main result is that the index proves a reference unchanged only if it is.
-/

namespace Cedar

open FactIdentityHistory List EntityFact

open SetAssociative

/-- The hash of a reference in tables. -/
def factIdentityHash (ref : FactRef) : UInt64 :=
  let mix (value : UInt64) : UInt64 :=
    let value := value + 0x9e3779b97f4a7c15
    let value := (value ^^^ (value >>> 30)) * 0xbf58476d1ce4e5b9
    let value := (value ^^^ (value >>> 27)) * 0x94d049bb133111eb
    value ^^^ (value >>> 31)
  let familyProperty := (ref.partId.toUInt64 <<< 32) |||
    (UInt64.ofNat ref.family.number <<< 16) ||| ref.propertyId.toUInt64
  mix ref.entityId ^^^ mix familyProperty

/-- The hash functions of an index. -/
class IdentityHashing where
  base : FactRef → UInt64
  step : UInt64 → UInt64

/-- A filter over the references of the commits of a window. -/
structure WindowFilter where
  firstSequence : UInt64 := 0
  lastSequence : UInt64 := 0
  publishedThrough : UInt64 := 0
  identities : Nat := 0
  active : Bool := false
  words : List UInt64

open WindowFilter

/-- The summary of recent writes. -/
structure RecentFactWriteIndex where
  filters : List WindowFilter
  maxIdentitiesPerFilter : Nat
  windowSequences : UInt64
  windowAnchorSequence : UInt64
  /-- The latest commits of some references. -/
  exactBuckets : Table FactRef UInt64
  /-- The way of each bucket which is replaced next. -/
  nextReplace : List Nat
  exactCoverageStartSeq : UInt64
  coverageStartSeq : UInt64
  latestPublishedSeq : UInt64

section Hashing

variable [hashing : IdentityHashing]

namespace WindowFilter

/-- The bits of a reference, one for each of the three probes. -/
def bits (words : List UInt64) (ref : FactRef) : List UInt64 :=
  let mask := UInt64.ofNat words.length * 64 - 1
  let base := hashing.base ref
  [0, 1, 2].map fun probe => (base + probe * hashing.step base) &&& mask

def mightContain (words : List UInt64) (ref : FactRef) : Bool :=
  if words = [] then
    true
  else
    (bits words ref).all (FactIdentityHistory.testBit words)

def add (words : List UInt64) (ref : FactRef) : List UInt64 :=
  (bits words ref).foldl FactIdentityHistory.setBit words

/-- The filter is used for a new window. -/
def clear (windowSequences firstSequence : UInt64) (filter : WindowFilter) : WindowFilter where
  firstSequence := firstSequence
  lastSequence :=
    if -1 - firstSequence < windowSequences - 1 then -1 else firstSequence + windowSequences - 1
  publishedThrough := if firstSequence = 0 then 0 else firstSequence - 1
  identities := 0
  active := true
  words := filter.words.map fun _ => 0

/-- The filter is not used any more. -/
def drop (filter : WindowFilter) : WindowFilter :=
  { filter with active := false, words := filter.words.map fun _ => 0 }

/-- The window of the filter has a commit. -/
def hasSequence (sequence : UInt64) (filter : WindowFilter) : Bool :=
  filter.active && filter.firstSequence ≤ sequence && sequence ≤ filter.lastSequence

end WindowFilter

namespace RecentFactWriteIndex

/-- The index when the store is opened, with given numbers of buckets and of words. -/
def empty (exactCount words : Nat) (coverageStartSeq windowSequences : UInt64) :
    RecentFactWriteIndex where
  filters := if words = 0 then [] else List.replicate 4 { words := List.replicate words 0 }
  maxIdentitiesPerFilter := words * 4
  windowSequences := max 1 windowSequences
  windowAnchorSequence := if coverageStartSeq = -1 then coverageStartSeq else coverageStartSeq + 1
  exactBuckets := List.replicate exactCount (List.replicate 4 none)
  nextReplace := List.replicate exactCount 0
  exactCoverageStartSeq := coverageStartSeq
  coverageStartSeq := coverageStartSeq
  latestPublishedSeq := coverageStartSeq

/-- The bucket of a reference. -/
def bucketOf (exactCount : Nat) (ref : FactRef) : Nat :=
  (hashing.base ref).toNat % exactCount

variable (index : RecentFactWriteIndex) (ref : FactRef)

def publishExact (sequence : UInt64) : RecentFactWriteIndex :=
  if index.exactBuckets = [] then
    index
  else
    let home := bucketOf index.exactBuckets.length
    let ways := homeWays home index.exactBuckets ref
    match find ref ways with
    | some i =>
        let latest := (lookup ref ways).getD 0
        { index with
          exactBuckets := write home index.exactBuckets ref i (some (ref, max latest sequence)) }
    | none =>
        match ways.findIdx? Option.isNone with
        | some i =>
            { index with
              exactBuckets := write home index.exactBuckets ref i (some (ref, sequence)) }
        | none =>
            let i := index.nextReplace.getD (home ref) 0
            { index with
              exactBuckets := write home index.exactBuckets ref i (some (ref, sequence))
              nextReplace := index.nextReplace.set (home ref) ((i + 1) % 4) }

/-- The first commit of the window of a commit. -/
def windowStart (sequence : UInt64) : UInt64 :=
  if sequence ≤ index.windowAnchorSequence then
    index.windowAnchorSequence
  else
    let quotient := (sequence - index.windowAnchorSequence) / index.windowSequences
    if quotient > (-1 - index.windowAnchorSequence) / index.windowSequences then
      -1
    else
      index.windowAnchorSequence + quotient * index.windowSequences

/-- The place of the first filter whose window starts first. -/
def oldest : List WindowFilter → Nat
  | [] => 0
  | [_] => 0
  | filter :: next :: rest =>
      let i := oldest (next :: rest)
      match (next :: rest)[i]? with
      | some other => if other.firstSequence < filter.firstSequence then i + 1 else 0
      | none => 0

/-- A filter for a new window: one which is not used, or the oldest one, whose commits are not
covered any more. -/
def activateFilter (firstSequence : UInt64) : RecentFactWriteIndex × Nat :=
  match index.filters.findIdx? (fun filter => !filter.active) with
  | some i =>
      ({ index with
        filters := index.filters.modify i (WindowFilter.clear index.windowSequences firstSequence) },
        i)
  | none =>
      let i := oldest index.filters
      let (last, through) := match index.filters[i]? with
        | some filter => (filter.lastSequence, filter.publishedThrough)
        | none => (0, 0)
      ({ index with
        filters := index.filters.modify i (WindowFilter.clear index.windowSequences firstSequence)
        coverageStartSeq := max index.coverageStartSeq (max last through) }, i)

/-- A full filter is closed. -/
def rollFilter (i : Nat) (sequence : UInt64) : RecentFactWriteIndex :=
  match index.filters[i]? with
  | none => index
  | some filter =>
      let index :=
        if sequence > filter.firstSequence then
          { index with
            filters := index.filters.modify i fun filter =>
              { filter with lastSequence := sequence - 1 } }
        else
          { index with coverageStartSeq := max index.coverageStartSeq sequence }
      (index.activateFilter sequence).1

/-- A write which is older than expected is not covered by the filters, which are dropped. -/
def dropUncovered (commitSeq : CommitSeq) : RecentFactWriteIndex :=
  if commitSeq < index.coverageStartSeq then
    { index with
      filters := index.filters.map WindowFilter.drop
      coverageStartSeq := index.latestPublishedSeq }
  else
    index

/-- The place of the filter of a commit, which is made for it if there is none. -/
def windowFor (commitSeq : CommitSeq) : RecentFactWriteIndex × Nat :=
  match index.filters.findIdx? (WindowFilter.hasSequence commitSeq) with
  | some i => (index, i)
  | none => index.activateFilter (index.windowStart commitSeq)

/-- A write is added to a filter. -/
def addAt (i : Nat) (ref : FactRef) (commitSeq : CommitSeq) : RecentFactWriteIndex :=
  { index with
    filters := index.filters.modify i fun filter =>
      { filter with
        words := WindowFilter.add filter.words ref
        identities := filter.identities + 1
        publishedThrough := max filter.publishedThrough commitSeq }
    latestPublishedSeq := max index.latestPublishedSeq commitSeq }

/-- A filter is closed if it has enough references. -/
def rollFull (i : Nat) (commitSeq : CommitSeq) : RecentFactWriteIndex :=
  if index.maxIdentitiesPerFilter ≠ 0 ∧
      (index.filters[i]?.map WindowFilter.identities).getD 0 ≥ index.maxIdentitiesPerFilter then
    index.rollFilter i commitSeq
  else
    index

/-- A write is added to the filter of its window. -/
def publishFilter (commitSeq : CommitSeq) : RecentFactWriteIndex :=
  let found := (index.dropUncovered commitSeq).windowFor commitSeq
  (found.1.addAt found.2 ref commitSeq).rollFull found.2 commitSeq

/-- The latest commit of a reference is recorded. -/
def recordExact (commitSeq : CommitSeq) : RecentFactWriteIndex :=
  if commitSeq < index.latestPublishedSeq then
    -- an older write than expected: the latest commits are forgotten
    { index with
      exactBuckets := index.exactBuckets.map fun _ => List.replicate 4 none
      nextReplace := index.nextReplace.map fun _ => 0
      exactCoverageStartSeq := index.latestPublishedSeq }
  else
    index.publishExact ref commitSeq

def publish (commitSeq : CommitSeq) : RecentFactWriteIndex :=
  match ref.validate with
  | .error _ => index
  | .ok () =>
      if commitSeq = 0 then
        index
      else
        let index := index.recordExact ref commitSeq
        if index.filters = [] then
          { index with latestPublishedSeq := max index.latestPublishedSeq commitSeq }
        else
          index.publishFilter ref commitSeq

/-- The filters with newer commits than the snapshot do not contain the reference. -/
def filtersProve (snapshotSeq : CommitSeq) : Bool :=
  if index.filters = [] ∨ snapshotSeq < index.coverageStartSeq then
    false
  else
    index.filters.all fun filter =>
      !filter.active || decide (filter.publishedThrough ≤ snapshotSeq) ||
        !WindowFilter.mightContain filter.words ref

/-- The reference has no write which is newer than the snapshot, for all that the index knows. -/
def canProveUnchanged (snapshotSeq : CommitSeq) : Bool :=
  match ref.validate with
  | .error _ => false
  | .ok () =>
      if snapshotSeq ≥ index.exactCoverageStartSeq then
        match lookup ref (homeWays (bucketOf index.exactBuckets.length) index.exactBuckets ref) with
        | some latest => decide (latest ≤ snapshotSeq)
        | none => index.filtersProve ref snapshotSeq
      else
        index.filtersProve ref snapshotSeq

end RecentFactWriteIndex

/-! ### Filters -/

namespace WindowFilter

variable {words : List UInt64} {ref ref' : FactRef}

@[simp]
theorem bits_add :
  bits (add words ref') ref = bits words ref
  := by
  simp [bits, add]

@[simp]
theorem add_eq_nil_iff :
  add words ref' = [] ↔ words = []
  := by
  rw [← length_eq_zero_iff, ← length_eq_zero_iff, add,
    length_foldl_setBit]

/-- A filter contains what was added to it. -/
theorem mightContain_add_self :
  mightContain (add words ref) ref = true
  := by
  rw [mightContain]
  split
  · rfl
  case isFalse hwords =>
    rw [add_eq_nil_iff] at hwords
    rw [all_eq_true, bits_add]
    intro bit hbit
    apply testBit_foldl_setBit_self hbit
    obtain ⟨probe, -, rfl⟩ := mem_map.mp hbit
    apply wordOf_and_lt
    rwa [ne_eq, length_eq_zero_iff]

/-- A filter keeps what it contains. -/
theorem mightContain_add (h : mightContain words ref = true) :
  mightContain (add words ref') ref = true
  := by
  rw [mightContain] at h ⊢
  split
  · rfl
  case isFalse hwords =>
    rw [add_eq_nil_iff] at hwords
    rw [if_neg hwords, all_eq_true] at h
    rw [all_eq_true, bits_add]
    intro bit hbit
    apply testBit_foldl_setBit (h bit hbit)

/-- A filter knows about an event. -/
structure Covers (filter : WindowFilter) (event : FactEvent) : Prop where
  active : filter.active = true
  contains : mightContain filter.words event.ref = true
  through : event.commitSeq ≤ filter.publishedThrough

end WindowFilter

namespace RecentFactWriteIndex

/-- An event is not covered any more, or a filter knows about it. -/
def Covered (index : RecentFactWriteIndex) (event : FactEvent) : Prop :=
  event.commitSeq ≤ index.coverageStartSeq ∨ ∃ filter ∈ index.filters, filter.Covers event

/-- What the index must know about the events which were published. -/
structure Sound (index : RecentFactWriteIndex) (events : List FactEvent) : Prop where
  exact : SetAssociative.Sound (bucketOf index.exactBuckets.length) (fun ref latest =>
    ∀ event ∈ events, event.ref = ref →
      event.commitSeq ≤ latest ∨ event.commitSeq ≤ index.exactCoverageStartSeq) index.exactBuckets
  covered : index.filters ≠ [] → ∀ event ∈ events, index.Covered event
  latest : ∀ event ∈ events, event.commitSeq ≤ index.latestPublishedSeq

section Filters

variable {index : RecentFactWriteIndex} {event : FactEvent} {filters : List WindowFilter} {i : Nat}
  {g : WindowFilter → WindowFilter}

/-- A filter is changed. -/
theorem exists_covers_modify {Q : Prop} (h : ∃ filter ∈ filters, filter.Covers event)
    (hi : ∀ filter, filters[i]? = some filter → filter.Covers event → (g filter).Covers event ∨ Q) :
  Q ∨ ∃ filter ∈ filters.modify i g, filter.Covers event
  := by
  obtain ⟨filter, hfilter, hcovers⟩ := h
  obtain ⟨j, hj⟩ := mem_iff_getElem?.mp hfilter
  by_cases heq : i = j
  · obtain rfl := heq
    obtain hcovers | hq := hi filter hj hcovers
    · right
      use g filter
      apply And.intro _ hcovers
      apply mem_of_getElem? (i := i)
      simp [hj]
    · left
      exact hq
  · right
    use filter
    apply And.intro _ hcovers
    apply mem_of_getElem? (i := j)
    simp [heq, hj]

theorem Covered.modify (h : index.Covered event)
    (hi : ∀ filter : WindowFilter, filter.Covers event → (g filter).Covers event) :
  Covered { index with filters := index.filters.modify i g } event
  := by
  obtain hle | hcovers := h
  · left
    exact hle
  · apply exists_covers_modify hcovers
    intro filter _ hcovers
    left
    apply hi filter hcovers

omit hashing in
theorem oldest_lt (hne : filters ≠ []) :
  oldest filters < filters.length
  := by
  induction filters with
  | nil => contradiction
  | cons filter filters ih =>
    cases filters with
    | nil => simp [oldest]
    | cons next rest =>
      have hlt := ih (by simp)
      rw [oldest]
      simp only [length_cons] at hlt ⊢
      split
      · split
        · omega
        · omega
      · omega

/-- A new window keeps what is known. -/
theorem Covered.activateFilter (h : index.Covered event) (firstSequence : UInt64) :
  (index.activateFilter firstSequence).1.Covered event
  := by
  rw [RecentFactWriteIndex.activateFilter]
  split
  case h_1 i hfind =>
    obtain hle | hcovers := h
    · left
      exact hle
    · apply exists_covers_modify hcovers
      intro filter hfilter hcovers
      obtain ⟨hlt, hinactive, -⟩ := findIdx?_eq_some_iff_getElem.mp hfind
      rw [getElem?_eq_getElem hlt] at hfilter
      rw [Option.some.inj hfilter, hcovers.active] at hinactive
      cases hinactive
  · obtain hle | hcovers := h
    · left
      apply le_trans hle (le_max_left _ _)
    · apply exists_covers_modify hcovers
      intro filter hfilter hcovers
      right
      simp only [hfilter]
      apply le_trans hcovers.through (le_trans (le_max_right _ _) (le_max_right _ _))

/-- Closing a filter keeps what is known. -/
theorem Covered.rollFilter (h : index.Covered event) (sequence : UInt64) :
  (index.rollFilter i sequence).Covered event
  := by
  rw [RecentFactWriteIndex.rollFilter]
  split
  · exact h
  · apply Covered.activateFilter
    split
    · apply h.modify
      intro filter hcovers
      use hcovers.active, hcovers.contains, hcovers.through
    · obtain hle | hcovers := h
      · left
        apply le_trans hle (le_max_left _ _)
      · right
        exact hcovers

end Filters

/-! ### Publication -/

section Publish

variable {index : RecentFactWriteIndex} {events : List FactEvent} {event : FactEvent}
  {ref : FactRef} {commitSeq : CommitSeq}

/-- The part of the index which the filters do not use. -/
def exactPart (index : RecentFactWriteIndex) : Table FactRef UInt64 × UInt64 × UInt64 :=
  (index.exactBuckets, index.exactCoverageStartSeq, index.latestPublishedSeq)

omit hashing in
theorem exactPart_activateFilter (firstSequence : UInt64) :
  (index.activateFilter firstSequence).1.exactPart = index.exactPart
  := by
  rw [activateFilter]
  split
  · rfl
  · rfl

theorem Covered.dropUncovered (h : index.Covered event)
    (hlatest : event.commitSeq ≤ index.latestPublishedSeq) (commitSeq : CommitSeq) :
  (index.dropUncovered commitSeq).Covered event
  := by
  rw [RecentFactWriteIndex.dropUncovered]
  split
  · left
    exact hlatest
  · exact h

omit hashing in
theorem dropUncovered_filters_ne_nil (hne : index.filters ≠ []) :
  (index.dropUncovered commitSeq).filters ≠ []
  := by
  rw [dropUncovered]
  split
  · simpa using hne
  · exact hne

theorem Covered.windowFor (h : index.Covered event) (commitSeq : CommitSeq) :
  (index.windowFor commitSeq).1.Covered event
  := by
  rw [RecentFactWriteIndex.windowFor]
  split
  · exact h
  · apply h.activateFilter

omit hashing in
theorem exactPart_windowFor :
  (index.windowFor commitSeq).1.exactPart = index.exactPart
  := by
  rw [windowFor]
  split
  · rfl
  · apply exactPart_activateFilter

omit hashing in
/-- The filter of a commit is active. -/
theorem getElem?_windowFor (hne : index.filters ≠ []) :
  ∃ filter, (index.windowFor commitSeq).1.filters[(index.windowFor commitSeq).2]? = some filter ∧
    filter.active = true
  := by
  rw [windowFor]
  split
  case h_1 i hfind =>
    obtain ⟨hlt, hsequence, -⟩ := findIdx?_eq_some_iff_getElem.mp hfind
    use index.filters[i], getElem?_eq_getElem hlt
    simp only [hasSequence, Bool.and_eq_true] at hsequence
    exact hsequence.1.1
  · rw [activateFilter]
    split
    case h_1 i hfind =>
      obtain ⟨hlt, -, -⟩ := findIdx?_eq_some_iff_getElem.mp hfind
      simp [getElem?_eq_getElem hlt, clear]
    · have hlt := oldest_lt hne
      simp [getElem?_eq_getElem hlt, clear]

theorem Covered.addAt (h : index.Covered event) (i : Nat) (ref : FactRef) (commitSeq : CommitSeq) :
  (index.addAt i ref commitSeq).Covered event
  := by
  apply Covered.modify h
  intro filter hcovers
  constructor
  · exact hcovers.active
  · apply mightContain_add hcovers.contains
  · apply le_trans hcovers.through (le_max_left _ _)

theorem covered_addAt {i : Nat} {filter : WindowFilter} (hfilter : index.filters[i]? = some filter)
    (hactive : filter.active = true) :
  (index.addAt i event.ref event.commitSeq).Covered event
  := by
  right
  use { filter with
    words := add filter.words event.ref
    identities := filter.identities + 1
    publishedThrough := max filter.publishedThrough event.commitSeq }
  constructor
  · apply mem_of_getElem? (i := i)
    simp [addAt, hfilter]
  · constructor
    · exact hactive
    · apply mightContain_add_self
    · apply le_max_right

theorem Covered.rollFull (h : index.Covered event) (i : Nat) (commitSeq : CommitSeq) :
  (index.rollFull i commitSeq).Covered event
  := by
  rw [RecentFactWriteIndex.rollFull]
  split
  · apply h.rollFilter
  · exact h

omit hashing in
theorem exactPart_rollFull (i : Nat) :
  (index.rollFull i commitSeq).exactPart = index.exactPart
  := by
  rw [rollFull]
  split
  · rw [rollFilter]
    split
    · rfl
    · rw [exactPart_activateFilter]
      split <;> rfl
  · rfl

theorem exactPart_publishFilter :
  (index.publishFilter ref commitSeq).exactPart =
    (index.exactBuckets, index.exactCoverageStartSeq, max index.latestPublishedSeq commitSeq)
  := by
  have hdrop : (index.dropUncovered commitSeq).exactPart = index.exactPart := by
    rw [dropUncovered]
    split <;> rfl
  have hpart := (@exactPart_windowFor (index.dropUncovered commitSeq) commitSeq).trans hdrop
  obtain ⟨hbuckets, hparts⟩ := Prod.mk.inj hpart
  obtain ⟨hcoverage, hlatest⟩ := Prod.mk.inj hparts
  rw [publishFilter, exactPart_rollFull, exactPart, addAt, hbuckets, hcoverage, hlatest]

/-- The latest commit of a reference is written to its bucket. -/
theorem exact_recordExact (h : index.Sound events) :
  SetAssociative.Sound
    (bucketOf (index.recordExact event.ref event.commitSeq).exactBuckets.length) (fun ref latest =>
      ∀ other ∈ event :: events, other.ref = ref → other.commitSeq ≤ latest ∨
        other.commitSeq ≤ (index.recordExact event.ref event.commitSeq).exactCoverageStartSeq)
    (index.recordExact event.ref event.commitSeq).exactBuckets
  := by
  have hothers (ref : FactRef) (latest : UInt64) (hne : ref ≠ event.ref)
      (hsound : ∀ other ∈ events, other.ref = ref →
        other.commitSeq ≤ latest ∨ other.commitSeq ≤ index.exactCoverageStartSeq) :
      ∀ other ∈ event :: events, other.ref = ref →
        other.commitSeq ≤ latest ∨ other.commitSeq ≤ index.exactCoverageStartSeq := by
    intro other hother href
    obtain rfl | hother := mem_cons.mp hother
    · cases hne href.symm
    · apply hsound other hother href
  rw [recordExact]
  split
  · apply sound_of_forall_eq_none
    intro ways hways way hway
    obtain ⟨_, -, rfl⟩ := mem_map.mp hways
    apply eq_of_mem_replicate hway
  case isFalse hlt =>
    have hlate {latest : UInt64} (hle : event.commitSeq ≤ latest) :
        ∀ other ∈ event :: events, other.ref = event.ref →
          other.commitSeq ≤ latest ∨ other.commitSeq ≤ index.exactCoverageStartSeq := by
      intro other hother _
      left
      obtain rfl | hother := mem_cons.mp hother
      · exact hle
      · apply le_trans (h.latest other hother) (le_trans (not_lt.mp hlt) hle)
    rw [publishExact]
    split
    case isTrue hnil =>
      apply h.exact.of_find_eq_none _ hothers
      rw [hnil]
      rfl
    · simp only
      split
      case h_1 i hfind =>
        rw [length_write]
        apply h.exact.put (onlyAt_of_find (h.exact.unique event.ref) hfind) _ hothers
        apply hlate (le_max_right _ _)
      case h_2 hfind =>
        split
        · rw [length_write]
          apply h.exact.put (onlyAt_of_find_eq_none hfind _) (hlate le_rfl) hothers
        · rw [length_write]
          apply h.exact.put (onlyAt_of_find_eq_none hfind _) (hlate le_rfl) hothers

theorem recordExact_filters :
  (index.recordExact ref commitSeq).filters = index.filters ∧
    (index.recordExact ref commitSeq).coverageStartSeq = index.coverageStartSeq ∧
      (index.recordExact ref commitSeq).latestPublishedSeq = index.latestPublishedSeq
  := by
  rw [recordExact]
  split
  · exact ⟨rfl, rfl, rfl⟩
  · rw [publishExact]
    split
    · exact ⟨rfl, rfl, rfl⟩
    · simp only
      split
      · exact ⟨rfl, rfl, rfl⟩
      · split
        · exact ⟨rfl, rfl, rfl⟩
        · exact ⟨rfl, rfl, rfl⟩

/-- A published write is known. -/
theorem Sound.publish (h : index.Sound events) (href : event.ref.validate = .ok ())
    (hcommit : event.commitSeq ≠ 0) :
  (index.publish event.ref event.commitSeq).Sound (event :: events)
  := by
  obtain ⟨hfilters, hcoverage, hlatest⟩ :=
    @recordExact_filters _ index event.ref event.commitSeq
  have hexact := @exact_recordExact _ index events event h
  have hmax : ∀ other ∈ event :: events,
      other.commitSeq ≤ max index.latestPublishedSeq event.commitSeq := by
    intro other hother
    obtain rfl | hother := mem_cons.mp hother
    · apply le_max_right
    · apply le_trans (h.latest other hother) (le_max_left _ _)
  rw [RecentFactWriteIndex.publish, href]
  simp only [if_neg hcommit]
  split
  case isTrue hnil =>
    constructor
    · exact hexact
    · intro hne
      cases hne hnil
    · rwa [hlatest]
  case isFalse hne =>
    have hpart := @exactPart_publishFilter _ (index.recordExact event.ref event.commitSeq) event.ref
      event.commitSeq
    obtain ⟨hbuckets, hparts⟩ := Prod.mk.inj hpart
    obtain ⟨hstart, hlast⟩ := Prod.mk.inj hparts
    constructor
    · rw [hbuckets, hstart]
      exact hexact
    · intro _ other hother
      apply Covered.rollFull
      obtain rfl | hother := mem_cons.mp hother
      · obtain ⟨filter, hfilter, hactive⟩ :=
          @getElem?_windowFor _ other.commitSeq (dropUncovered_filters_ne_nil hne)
        apply covered_addAt hfilter hactive
      · apply Covered.addAt
        apply Covered.windowFor
        apply Covered.dropUncovered
        · rw [hfilters] at hne
          obtain hle | hcovers := h.covered hne other hother
          · left
            rwa [hcoverage]
          · right
            rwa [hfilters]
        · rw [hlatest]
          exact h.latest other hother
    · rw [hlast, hlatest]
      exact hmax

/-- When the store is opened, all writes are before what the index covers. -/
theorem sound_empty (exactCount words : Nat) (coverageStartSeq windowSequences : UInt64)
    (hevents : ∀ event ∈ events, event.commitSeq ≤ coverageStartSeq) :
  (empty exactCount words coverageStartSeq windowSequences).Sound events
  where
  exact := by
    apply sound_of_forall_eq_none
    intro ways hways way hway
    rw [eq_of_mem_replicate hways] at hway
    apply eq_of_mem_replicate hway
  covered _ event hevent := by
    left
    apply hevents event hevent
  latest := hevents

/-- A reference which the index proves unchanged has no newer write. -/
theorem Sound.commitSeq_le_of_canProveUnchanged {snapshotSeq : CommitSeq}
    (h : index.Sound events) (hproof : index.canProveUnchanged ref snapshotSeq = true)
    (hevent : event ∈ events) (href : event.ref = ref) :
  event.commitSeq ≤ snapshotSeq
  := by
  have hfilters (hprove : index.filtersProve ref snapshotSeq = true) :
      event.commitSeq ≤ snapshotSeq := by
    rw [filtersProve] at hprove
    split at hprove
    · cases hprove
    case isFalse hcoverage =>
      obtain ⟨hne, hstart⟩ := not_or.mp hcoverage
      obtain hle | ⟨filter, hfilter, hcovers⟩ := h.covered hne event hevent
      · apply le_trans hle (not_lt.mp hstart)
      · have hskip := all_eq_true.mp hprove filter hfilter
        rw [hcovers.active, ← href, hcovers.contains] at hskip
        simp only [Bool.not_true, Bool.false_or, Bool.or_false, decide_eq_true_eq] at hskip
        apply le_trans hcovers.through hskip
  rw [canProveUnchanged] at hproof
  split at hproof
  · cases hproof
  · split at hproof
    case isTrue hstart =>
      split at hproof
      case h_1 latest hlookup =>
        obtain hle | hle := h.exact.related ref latest (mem_of_lookup hlookup) event hevent href
        · apply le_trans hle (of_decide_eq_true hproof)
        · apply le_trans hle hstart
      · apply hfilters hproof
    · apply hfilters hproof

/-- A reference is proved unchanged since a snapshot only where the latest commits, or the filters,
cover the snapshot. -/
theorem coverage_le_of_canProveUnchanged {snapshotSeq : CommitSeq}
    (hproof : index.canProveUnchanged ref snapshotSeq = true) :
  ref.validate = .ok () ∧
    (index.exactCoverageStartSeq ≤ snapshotSeq ∨ index.coverageStartSeq ≤ snapshotSeq)
  := by
  rw [canProveUnchanged] at hproof
  split at hproof
  · cases hproof
  case h_2 hvalid =>
    use hvalid
    split at hproof
    case isTrue hstart => exact Or.inl hstart
    case isFalse =>
      rw [filtersProve] at hproof
      split at hproof
      · cases hproof
      case isFalse hcoverage =>
        right
        apply not_lt.mp (not_or.mp hcoverage).2

/-- The index after writes, which may come in any order. -/
def publishAll (index : RecentFactWriteIndex) (writes : List (FactRef × CommitSeq)) :
    RecentFactWriteIndex :=
  writes.foldl (fun index write => index.publish write.1 write.2) index

/-- The index knows about the writes, unless they have no reference or no commit. -/
theorem exists_sound_publishAll (exactCount words : Nat) (start windowSequences : UInt64)
    (writes : List (FactRef × CommitSeq)) :
  ∃ events, ((empty exactCount words start windowSequences).publishAll writes).Sound events ∧
    ∀ write ∈ writes, write.1.validate = .ok () → write.2 ≠ 0 →
      ∃ event ∈ events, event.ref = write.1 ∧ event.commitSeq = write.2
  := by
  induction writes using reverseRecOn with
  | nil =>
    use [], sound_empty _ _ _ _ (forall_mem_nil _)
    exact forall_mem_nil _
  | append_singleton writes write ih =>
    obtain ⟨events, hsound, hevents⟩ := ih
    rw [publishAll, foldl_append]
    by_cases hwrite : write.1.validate = .ok () ∧ write.2 ≠ 0
    · let event : FactEvent := { ref := write.1, validFrom := 0, commitSeq := write.2 }
      refine ⟨event :: events, @Sound.publish _ _ _ event hsound hwrite.1 hwrite.2, ?_⟩
      intro other hother hvalid hne
      obtain hother | hother := mem_append.mp hother
      · obtain ⟨found, hfound, heq⟩ := hevents other hother hvalid hne
        use found, mem_cons_of_mem _ hfound
      · rw [mem_singleton.mp hother]
        use event, mem_cons_self
    · have hsame (index : RecentFactWriteIndex) : index.publish write.1 write.2 = index := by
        rw [publish]
        split
        · rfl
        case h_2 hvalid => simp [not_and_not_right.mp hwrite hvalid]
      rw [foldl_cons, hsame]
      use events, hsound
      intro other hother hvalid hne
      obtain hother | hother := mem_append.mp hother
      · apply hevents other hother hvalid hne
      · rw [mem_singleton.mp hother] at hvalid hne
        cases hwrite ⟨hvalid, hne⟩

/-- Whatever the hash functions and the sizes are, and in whatever order writes are published, the
index proves a reference unchanged only if it has no newer write, and only if it covers the
snapshot. -/
theorem publishAll_canProveUnchanged (exactCount words : Nat) (start windowSequences : UInt64)
    (writes : List (FactRef × CommitSeq)) (ref : FactRef) (snapshotSeq : CommitSeq)
    (hproof : ((empty exactCount words start windowSequences).publishAll writes).canProveUnchanged
      ref snapshotSeq = true) :
  (∀ write ∈ writes, write.1 = ref → write.2 ≤ snapshotSeq) ∧
    (((empty exactCount words start windowSequences).publishAll writes).exactCoverageStartSeq ≤
        snapshotSeq ∨
      ((empty exactCount words start windowSequences).publishAll writes).coverageStartSeq ≤
        snapshotSeq)
  := by
  obtain ⟨events, hsound, hevents⟩ :=
    exists_sound_publishAll exactCount words start windowSequences writes
  obtain ⟨hvalid, hcoverage⟩ := coverage_le_of_canProveUnchanged hproof
  refine ⟨?_, hcoverage⟩
  rintro write hwrite rfl
  by_cases hzero : write.2 = 0
  · rw [hzero]
    apply UInt64.zero_le
  · obtain ⟨event, hevent, href, hcommit⟩ := hevents write hwrite hvalid hzero
    rw [← hcommit]
    apply hsound.commitSeq_le_of_canProveUnchanged hproof hevent href

end Publish

end RecentFactWriteIndex

end Hashing

/-- The hash functions of the store. -/
instance : IdentityHashing where
  base ref := FactIdentityHistory.mix (factIdentityHash ref)
  step base := FactIdentityHistory.mix (base ^^^ 0x9e3779b97f4a7c15) ||| 1

namespace RecentFactWriteIndex

/-- The writes of two vertices. -/
def vertexWrites : List (FactRef × CommitSeq) :=
  [(vertex ⟨0, 1⟩, 2), (vertex ⟨0, 2⟩, 3)]

/-- A vertex which was written before the snapshot is proved unchanged, with a write of another
vertex after it. -/
theorem vertices_canProveUnchanged :
  ((empty 2 2 1 16).publishAll vertexWrites).canProveUnchanged (vertex ⟨0, 1⟩) 2 = true ∧
    ∀ write ∈ vertexWrites, write.1 = vertex ⟨0, 1⟩ → write.2 ≤ 2
  := by
  have hproof : ((empty 2 2 1 16).publishAll vertexWrites).canProveUnchanged (vertex ⟨0, 1⟩) 2 =
      true := by
    decide +kernel
  exact ⟨hproof, (publishAll_canProveUnchanged 2 2 1 16 vertexWrites (vertex ⟨0, 1⟩) 2 hproof).1⟩

end RecentFactWriteIndex

end Cedar
