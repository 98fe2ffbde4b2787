import CedarGraph.Storage.FactColumn
import CedarGraph.Storage.RecentFactWriteIndex

/-!
# The cache of chains for validation

A bounded table of short chains: the boundaries of a reference, each with its latest commit.  The
chain of a reference is put into the cache after it was read from the store, and follows the
commits from then on.

The main result is that a chain in the cache covers all events of its reference.
-/

namespace Cedar

open List hiding lookup

open Option

open SetAssociative

/-- A boundary of a chain with its latest commit. -/
structure ValidationBoundary where
  validFrom : ValidTime
  commitSeq : CommitSeq

/-- A chain in the cache: its boundaries from late to early ones, and when it was used last. -/
structure CachedChain where
  boundaries : List ValidationBoundary
  lastTouch : UInt64

structure VersionValidationCache where
  slots : Table FactRef CachedChain
  touchClock : UInt64 := 0
  publishGeneration : UInt64 := 0

namespace VersionValidationCache

/-- The number of boundaries of the longest chains in the cache. -/
def maxBoundariesPerChain : Nat := 8

/-- The cache when the store is opened, with a given number of sets of four ways. -/
def empty (sets : Nat) : VersionValidationCache where
  slots := replicate sets (replicate 4 none)

/-- The set of a reference. -/
def setOf (sets : Nat) (ref : FactRef) : Nat :=
  (factIdentityHash ref &&& UInt64.ofNat (sets - 1)).toNat

/-- A boundary is added to a chain, unless the chain gets too long. -/
def insertBoundary (chain : List ValidationBoundary) (boundary : ValidationBoundary) :
    Option (List ValidationBoundary) :=
  let later := chain.takeWhile fun other => other.validFrom > boundary.validFrom
  match chain.dropWhile fun other => other.validFrom > boundary.validFrom with
  | [] =>
      if chain.length = maxBoundariesPerChain then none else some (later ++ [boundary])
  | other :: earlier =>
      if other.validFrom = boundary.validFrom then
        some (later ++ ⟨other.validFrom, max other.commitSeq boundary.commitSeq⟩ :: earlier)
      else if chain.length = maxBoundariesPerChain then
        none
      else
        some (later ++ boundary :: other :: earlier)

/-- The boundaries are added to a chain one after the other. -/
def insertAll : List ValidationBoundary → List ValidationBoundary → Option (List ValidationBoundary)
  | chain, [] => some chain
  | chain, boundary :: boundaries =>
      if boundary.commitSeq = 0 then
        insertAll chain boundaries
      else
        (insertBoundary chain boundary).bind fun chain => insertAll chain boundaries

/-- The way of a set which is used for a new chain: a free one, or the one which was used least
recently. -/
def selectForPrime (ways : Ways FactRef CachedChain) : Nat :=
  match ways.findIdx? Option.isNone with
  | some i => i
  | none =>
      let touch (i : Nat) : UInt64 := ((ways.getD i none).map fun p => p.2.lastTouch).getD 0
      (range ways.length).foldl (fun oldest i => if touch i < touch oldest then i else oldest) 0

variable (cache : VersionValidationCache) (ref : FactRef)

/-- A chain is written to a way of the set of its reference. -/
def store (i : Nat) (boundaries : List ValidationBoundary) : VersionValidationCache :=
  { cache with
    slots := write (setOf cache.slots.length) cache.slots ref i
      (some (ref, ⟨boundaries, cache.touchClock + 1⟩))
    touchClock := cache.touchClock + 1 }

/-- A way of the set of a reference is cleared. -/
def evict (i : Nat) : VersionValidationCache :=
  { cache with slots := write (setOf cache.slots.length) cache.slots ref i none }

/-- The ways of the set of a reference. -/
def waysOf : Ways FactRef CachedChain :=
  homeWays (setOf cache.slots.length) cache.slots ref

/-- The chain of a reference, if the cache has it. -/
def lookupChain : Option (List ValidationBoundary) × VersionValidationCache :=
  match ref.validate with
  | .error _ => (none, cache)
  | .ok () =>
      match find ref (cache.waysOf ref), lookup ref (cache.waysOf ref) with
      | some i, some chain => (some chain.boundaries, cache.store ref i chain.boundaries)
      | _, _ => (none, cache)

/-- A chain which was read from the store is put into the cache, unless a write was published since
the reading began. -/
def prime (boundaries : List ValidationBoundary) (observedPublishGeneration : UInt64) :
    VersionValidationCache :=
  match ref.validate with
  | .error _ => cache
  | .ok () =>
      if cache.slots = [] then
        cache
      else
        match insertAll [] boundaries with
        | none =>
            match find ref (cache.waysOf ref) with
            | some i => cache.evict ref i
            | none => cache
        | some chain =>
            if cache.publishGeneration ≠ observedPublishGeneration then
              cache
            else
              match find ref (cache.waysOf ref) with
              | some i => cache.store ref i chain
              | none => cache.store ref (selectForPrime (cache.waysOf ref)) chain

/-- A chain in the cache follows a commit, or leaves the cache. -/
def publish (validFrom : ValidTime) (commitSeq : CommitSeq) : VersionValidationCache :=
  match ref.validate with
  | .error _ => cache
  | .ok () =>
      if commitSeq = 0 then
        cache
      else
        let cache := { cache with publishGeneration := cache.publishGeneration + 1 }
        match find ref (cache.waysOf ref), lookup ref (cache.waysOf ref) with
        | some i, some chain =>
            match insertBoundary chain.boundaries ⟨validFrom, commitSeq⟩ with
            | some boundaries => cache.store ref i boundaries
            | none => cache.evict ref i
        | _, _ => cache

/-! ### Chains -/

/-- The boundaries cover the events of a reference. -/
def Covers (events : List FactEvent) (ref : FactRef) (boundaries : List ValidationBoundary) : Prop :=
  ∀ event ∈ events, event.ref = ref →
    ∃ boundary ∈ boundaries, boundary.validFrom = event.validFrom ∧
      event.commitSeq ≤ boundary.commitSeq

section Chains

variable {chain chain' boundaries : List ValidationBoundary} {boundary : ValidationBoundary}

/-- A boundary which is added to a chain is in it, and those before it stay. -/
theorem exists_mem_insertBoundary (h : insertBoundary chain boundary = some chain')
    {other : ValidationBoundary} (hother : other ∈ boundary :: chain) :
  ∃ found ∈ chain', found.validFrom = other.validFrom ∧ other.commitSeq ≤ found.commitSeq
  := by
  have hsplit := takeWhile_append_dropWhile
    (p := fun other => decide (other.validFrom > boundary.validFrom)) (l := chain)
  rw [insertBoundary] at h
  split at h
  case h_1 hnil =>
    split at h
    · cases h
    · obtain rfl := some.inj h
      grind
  case h_2 first earlier hcons =>
    rw [hcons] at hsplit
    split at h
    case isTrue hsame =>
      obtain rfl := some.inj h
      obtain rfl | hother := mem_cons.mp hother
      · use ⟨first.validFrom, max first.commitSeq other.commitSeq⟩
        simp [hsame]
      · rw [← hsplit] at hother
        obtain hother | hother := mem_append.mp hother
        · use other
          simp [hother]
        · obtain rfl | hother := mem_cons.mp hother
          · use ⟨other.validFrom, max other.commitSeq boundary.commitSeq⟩
            simp
          · use other
            simp [hother]
    · split at h
      · cases h
      · obtain rfl := some.inj h
        grind

theorem exists_mem_insertAll (h : insertAll chain boundaries = some chain')
    {other : ValidationBoundary}
    (hother : other ∈ chain ∨ (other ∈ boundaries ∧ other.commitSeq ≠ 0)) :
  ∃ found ∈ chain', found.validFrom = other.validFrom ∧ other.commitSeq ≤ found.commitSeq
  := by
  induction boundaries generalizing chain other with
  | nil =>
    obtain rfl := some.inj h
    obtain hother | ⟨hother, -⟩ := hother
    · use other
    · cases hother
  | cons boundary boundaries ih =>
    rw [insertAll] at h
    split at h
    case isTrue hzero =>
      apply ih h
      obtain hother | ⟨hother, hne⟩ := hother
      · left
        exact hother
      · obtain rfl | hother := mem_cons.mp hother
        · contradiction
        · right
          use hother
    · obtain ⟨next, hnext, h⟩ := bind_eq_some_iff.mp h
      have hin : other ∈ boundary :: chain ∨ (other ∈ boundaries ∧ other.commitSeq ≠ 0) := by
        simp only [mem_cons] at hother ⊢
        tauto
      obtain hin | hin := hin
      · obtain ⟨found, hfound, htime, hle⟩ := exists_mem_insertBoundary hnext hin
        obtain ⟨found', hfound', htime', hle'⟩ := ih h (Or.inl hfound)
        use found', hfound', htime'.trans htime, le_trans hle hle'
      · apply ih h (Or.inr hin)

end Chains

/-! ### The cache -/

/-- The chains of the cache cover the events. -/
def Sound (events : List FactEvent) : Prop :=
  SetAssociative.Sound (setOf cache.slots.length)
    (fun ref chain => Covers events ref chain.boundaries) cache.slots

section Cache

variable {cache : VersionValidationCache} {events : List FactEvent} {event : FactEvent}
  {ref : FactRef} {boundaries : List ValidationBoundary} {i : Nat}

theorem sound_empty (sets : Nat) :
  (empty sets).Sound events
  := by
  apply sound_of_forall_eq_none
  intro ways hways way hway
  rw [eq_of_mem_replicate hways] at hway
  apply eq_of_mem_replicate hway

/-- A chain which covers its events is written to the way of its reference. -/
theorem Sound.store {events' : List FactEvent} (h : cache.Sound events)
    (hi : OnlyAt (cache.waysOf ref) ref i) (hcovers : Covers events' ref boundaries)
    (hothers : ∀ ref' boundaries', ref' ≠ ref → Covers events ref' boundaries' →
      Covers events' ref' boundaries') :
  (cache.store ref i boundaries).Sound events'
  := by
  rw [Sound, VersionValidationCache.store, length_write]
  apply Sound.put h hi hcovers
  intro ref' chain
  apply hothers

theorem Sound.evict {events' : List FactEvent} (h : cache.Sound events)
    (hi : OnlyAt (cache.waysOf ref) ref i)
    (hothers : ∀ ref' boundaries', ref' ≠ ref → Covers events ref' boundaries' →
      Covers events' ref' boundaries') :
  (cache.evict ref i).Sound events'
  := by
  rw [Sound, VersionValidationCache.evict, length_write]
  apply Sound.replace h hi (by simp)
  intro ref' chain
  apply hothers

/-- A chain of the cache covers its events, and looking at it changes no chain. -/
theorem Sound.lookupChain (h : cache.Sound events) :
  (∀ boundaries, (cache.lookupChain ref).1 = some boundaries → Covers events ref boundaries) ∧
    (cache.lookupChain ref).2.Sound events
  := by
  rw [VersionValidationCache.lookupChain]
  split
  · simp [h]
  · split
    case h_1 i chain hfind hlookup =>
      have hcovers := h.related ref chain (mem_of_lookup hlookup)
      constructor
      · intro boundaries heq
        obtain rfl := some.inj heq
        exact hcovers
      · apply h.store (onlyAt_of_find (h.unique ref) hfind) hcovers
        intro ref' boundaries' _ hcovers
        exact hcovers
    · simp [h]

/-- A chain which covers its events may be put into the cache. -/
theorem Sound.prime (h : cache.Sound events) (hcovers : Covers events ref boundaries)
    (hcommits : ∀ event ∈ events, event.commitSeq ≠ 0) (generation : UInt64) :
  (cache.prime ref boundaries generation).Sound events
  := by
  have hothers (ref' : FactRef) (boundaries' : List ValidationBoundary) (_ : ref' ≠ ref)
      (hcovers : Covers events ref' boundaries') : Covers events ref' boundaries' := hcovers
  rw [VersionValidationCache.prime]
  split
  · exact h
  · split
    · exact h
    · split
      · split
        case h_1 i hfind =>
          apply h.evict (onlyAt_of_find (h.unique ref) hfind) hothers
        · exact h
      case h_2 chain hchain =>
        have hall : Covers events ref chain := by
          intro event hevent href
          obtain ⟨boundary, hboundary, htime, hle⟩ := hcovers event hevent href
          have hne : boundary.commitSeq ≠ 0 := by
            intro hzero
            rw [hzero] at hle
            apply hcommits event hevent (UInt64.le_zero_iff.mp hle)
          obtain ⟨found, hfound, htime', hle'⟩ :=
            exists_mem_insertAll hchain (Or.inr ⟨hboundary, hne⟩)
          use found, hfound, htime'.trans htime, le_trans hle hle'
        split
        · exact h
        · split
          case h_1 i hfind =>
            apply h.store (onlyAt_of_find (h.unique ref) hfind) hall hothers
          case h_2 hfind =>
            apply h.store (onlyAt_of_find_eq_none hfind _) hall hothers

/-- The chains follow the commits. -/
theorem Sound.publish (h : cache.Sound events) (href : event.ref.validate = .ok ())
    (hcommit : event.commitSeq ≠ 0) :
  (cache.publish event.ref event.validFrom event.commitSeq).Sound (event :: events)
  := by
  have hothers (ref' : FactRef) (boundaries' : List ValidationBoundary) (hne : ref' ≠ event.ref)
      (hcovers : Covers events ref' boundaries') : Covers (event :: events) ref' boundaries' := by
    intro other hother href'
    obtain rfl | hother := mem_cons.mp hother
    · cases hne href'.symm
    · apply hcovers other hother href'
  have hstart : Sound { cache with publishGeneration := cache.publishGeneration + 1 } events := h
  rw [VersionValidationCache.publish, href]
  simp only [if_neg hcommit]
  split
  case h_1 i chain hfind hlookup =>
    have hi := onlyAt_of_find (hstart.unique event.ref) hfind
    have hcovers := hstart.related event.ref chain (mem_of_lookup hlookup)
    split
    case h_1 boundaries hinsert =>
      apply hstart.store hi _ hothers
      intro other hother href'
      obtain rfl | hother := mem_cons.mp hother
      · obtain ⟨found, hfound, htime, hle⟩ := exists_mem_insertBoundary hinsert mem_cons_self
        use found, hfound
      · obtain ⟨boundary, hboundary, htime, hle⟩ := hcovers other hother href'
        obtain ⟨found, hfound, htime', hle'⟩ :=
          exists_mem_insertBoundary hinsert (mem_cons_of_mem _ hboundary)
        use found, hfound, htime'.trans htime, le_trans hle hle'
    · apply hstart.evict hi hothers
  case h_2 hneither =>
    have hfind : find event.ref (waysOf
        { cache with publishGeneration := cache.publishGeneration + 1 } event.ref) = none := by
      by_contra hsome
      obtain ⟨i, hi⟩ := ne_none_iff_exists'.mp hsome
      obtain ⟨chain, hlookup⟩ := ne_none_iff_exists'.mp (mt find_eq_none_of_lookup hsome)
      apply hneither i chain hi hlookup
    apply Sound.of_find_eq_none hstart hfind
    intro ref' chain
    apply hothers

end Cache

end VersionValidationCache

end Cedar
