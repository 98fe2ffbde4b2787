import CedarGraph.Lib.SortedList
import CedarGraph.Storage.FactColumn
import CedarGraph.Storage.FactIdentityHistory

/-!
# The neighborhood of an instant

A strict read observes a fact at an instant, and its neighborhood: the latest boundary before the
instant and the earliest one after it.  One scan goes forward from the instant, that is to earlier
boundaries, and one goes back.

The main result is that the scans find the extremal boundaries among those which have an event
within the limit of commits, and that the filter over references does not change what they find.
-/

namespace Cedar

open FactColumn FactEvent List

/-- What a strict read observes around an instant. -/
@[ext]
structure TemporalNeighborhood where
  observed : Option FactEvent := none
  predecessor : Option ValidTime := none
  successor : Option ValidTime := none

namespace TemporalNeighborhood

/-- The scan to earlier boundaries, with the boundary which it is at and whether an event within
the limit has been found there. -/
def forward (idPrefix : List UInt8) (validTime : ValidTime) (commitLimit : CommitSeq) :
    Option ValidTime → Bool → TemporalNeighborhood → List FactEvent → StatusOr TemporalNeighborhood
  | _, _, neighborhood, [] => .ok neighborhood
  | currentBoundary, currentBoundaryVisible, neighborhood, event :: rest =>
      if ¬ idPrefix.isPrefixOf event.encodedKey then
        .ok neighborhood
      else do
        let key ← decodeFactKey event.encodedKey
        if key.commitSeq > commitLimit then
          forward idPrefix validTime commitLimit currentBoundary currentBoundaryVisible
            neighborhood rest
        else if currentBoundary = some key.validFrom ∧ currentBoundaryVisible then
          forward idPrefix validTime commitLimit currentBoundary true neighborhood rest
        else if neighborhood.observed.isNone then
          if key.validFrom < validTime then
            .ok { neighborhood with observed := some event, predecessor := some key.validFrom }
          else
            forward idPrefix validTime commitLimit (some key.validFrom) true
              { neighborhood with observed := some event } rest
        else
          .ok { neighborhood with predecessor := some key.validFrom }

/-- The scan to later boundaries, with the boundary which it is at and whether an event within the
limit has been found there. -/
def backward (idPrefix : List UInt8) (commitLimit : CommitSeq) :
    Option ValidTime → Bool → List FactEvent → StatusOr (Option ValidTime)
  | successorBoundary, successorBoundaryVisible, [] =>
      .ok (if successorBoundaryVisible then successorBoundary else none)
  | successorBoundary, successorBoundaryVisible, event :: rest =>
      if ¬ idPrefix.isPrefixOf event.encodedKey then
        .ok (if successorBoundaryVisible then successorBoundary else none)
      else do
        let key ← decodeFactKey event.encodedKey
        let withinLimit := decide (key.commitSeq ≤ commitLimit)
        if successorBoundary ≠ some key.validFrom then
          if successorBoundaryVisible then
            .ok successorBoundary
          else
            backward idPrefix commitLimit (some key.validFrom) withinLimit rest
        else
          backward idPrefix commitLimit successorBoundary
            (successorBoundaryVisible || withinLimit) rest

end TemporalNeighborhood

/-- The neighborhood of an instant in the chain of a reference, of the events within a limit of
commits.  No filter is a filter which is not there. -/
def readTemporalNeighborhoodWithIterator (identityHistory : Option FactIdentityHistory)
    (column : FactColumn) (ref : FactRef) (validTime : ValidTime) (commitLimit : CommitSeq) :
    StatusOr TemporalNeighborhood := do
  ref.validate
  if identityHistory.any (fun history => !history.mightContain ref) then
    .ok {}
  else
    let seek := encodeFactKey ref validTime (-1)
    if seek.isEmpty then
      Status.invalidArgument "temporal neighborhood" "invalid fact key"
    else
      let idPrefix := seek.take factIdentityPrefixBytes
      let neighborhood ← TemporalNeighborhood.forward idPrefix validTime commitLimit none false {}
        (column.seek seek)
      let successor ← TemporalNeighborhood.backward idPrefix commitLimit none false
        (column.seekForPrev seek)
      return { neighborhood with successor := successor }

/-! ### What the scans find -/

namespace TemporalNeighborhood

section Scans

variable {ref : FactRef} {validTime : ValidTime} {commitLimit : CommitSeq} {events : List FactEvent}

/-- The key of a valid event begins with its reference. -/
theorem isPrefixOf_encodedKey_iff {event : FactEvent} (hvalid : event.validate = .ok ()) :
  ref.keyBytes.isPrefixOf event.encodedKey = true ↔ event.ref = ref
  := by
  rw [encodedKey,
    encodeFactKey_eq (validate_ref hvalid) (commitSeq_ne_zero hvalid),
    isPrefixOf_iff_prefix]
  constructor
  · rintro ⟨rest, heq⟩
    apply FactRef.keyBytes_inj.mp (append_inj heq (by simp)).1.symm
  · rintro rfl
    apply prefix_append

/-- The scans do not pass the events of the reference. -/
theorem forward_takeWhile (idPrefix : List UInt8) (boundary : Option ValidTime) (found : Bool)
    (neighborhood : TemporalNeighborhood) :
  forward idPrefix validTime commitLimit boundary found neighborhood
      (events.takeWhile fun event => idPrefix.isPrefixOf event.encodedKey) =
    forward idPrefix validTime commitLimit boundary found neighborhood events
  := by
  induction events generalizing boundary found neighborhood with
  | nil => rfl
  | cons event events ih =>
    cases hkey : idPrefix.isPrefixOf event.encodedKey with
    | false => simp [forward, hkey]
    | true => simp [forward, hkey, ih]

theorem backward_takeWhile (idPrefix : List UInt8) (boundary : Option ValidTime) (found : Bool) :
  backward idPrefix commitLimit boundary found
      (events.takeWhile fun event => idPrefix.isPrefixOf event.encodedKey) =
    backward idPrefix commitLimit boundary found events
  := by
  induction events generalizing boundary found with
  | nil => rfl
  | cons event events ih =>
    cases hkey : idPrefix.isPrefixOf event.encodedKey with
    | false => simp [backward, hkey]
    | true => simp [backward, hkey, ih]

/-- Valid events of the reference of a scan. -/
def OfRef (ref : FactRef) (events : List FactEvent) : Prop :=
  ∀ event ∈ events, event.validate = .ok () ∧ event.ref = ref

/-- After an event is observed, the scan looks for another boundary. -/
theorem forward_of_observed (hevents : OfRef ref events) (boundary : ValidTime)
    (observed : FactEvent) :
  forward ref.keyBytes validTime commitLimit (some boundary) true ⟨some observed, none, none⟩
      events =
    .ok ⟨some observed, (events.find? fun event => event.commitSeq ≤ commitLimit ∧
      event.validFrom ≠ boundary).map validFrom, none⟩
  := by
  induction events with
  | nil => rfl
  | cons event events ih =>
    obtain ⟨⟨hvalid, href⟩, hevents⟩ := forall_mem_cons.mp hevents
    have hkey := (isPrefixOf_encodedKey_iff hvalid).mpr href
    have hdecode := decodeFactKey_encodedKey hvalid
    have ih := ih hevents
    by_cases hlimit : event.commitSeq ≤ commitLimit
    · by_cases hsame : event.validFrom = boundary
      · simp [forward, hkey, hdecode, hsame, ih]
      · have hother : boundary ≠ event.validFrom := Ne.symm hsame
        simp [forward, hkey, hdecode, hlimit, hsame, hother]
    · simp [forward, hkey, hdecode, hlimit, ih]

/-- The scan to earlier boundaries finds the first event within the limit, and the first one before
the instant. -/
theorem forward_eq_ok
    (hevents : OfRef ref events) (hle : ∀ event ∈ events, event.validFrom ≤ validTime) :
  forward ref.keyBytes validTime commitLimit none false {} events =
    .ok ⟨events.find? fun event => event.commitSeq ≤ commitLimit,
      (events.find? fun event => event.commitSeq ≤ commitLimit ∧
        event.validFrom < validTime).map validFrom, none⟩
  := by
  induction events with
  | nil => rfl
  | cons event events ih =>
    obtain ⟨⟨hvalid, href⟩, hevents⟩ := forall_mem_cons.mp hevents
    obtain ⟨hle', hle⟩ := forall_mem_cons.mp hle
    have hkey := (isPrefixOf_encodedKey_iff hvalid).mpr href
    have hdecode := decodeFactKey_encodedKey hvalid
    have ih := ih hevents hle
    by_cases hlimit : event.commitSeq ≤ commitLimit
    · by_cases hbefore : event.validFrom < validTime
      · simp [forward, hkey, hdecode, hlimit, hbefore]
      · -- the event is at the instant, and the other boundaries are before it
        obtain rfl : event.validFrom = validTime := le_antisymm hle' (not_lt.mp hbefore)
        have hother : events.find? (fun f => f.commitSeq ≤ commitLimit ∧
            f.validFrom ≠ event.validFrom) = events.find? (fun f => f.commitSeq ≤ commitLimit ∧
              f.validFrom < event.validFrom) := by
          apply find?_congr
          intro f hf
          apply decide_eq_decide.mpr
          simp [hle f hf]
        have hrest := @forward_of_observed ref event.validFrom commitLimit events hevents
          event.validFrom event
        rw [hother] at hrest
        simp [forward, hkey, hdecode, hlimit, hrest]
    · simp [forward, hkey, hdecode, hlimit, ih]

theorem backward_of_found (hevents : OfRef ref events) (boundary : ValidTime) :
  backward ref.keyBytes commitLimit (some boundary) true events = .ok (some boundary)
  := by
  induction events with
  | nil => rfl
  | cons event events ih =>
    obtain ⟨⟨hvalid, href⟩, hevents⟩ := forall_mem_cons.mp hevents
    have hdecode := decodeFactKey_encodedKey hvalid
    by_cases hsame : boundary = event.validFrom
    · simp [backward, hdecode, ih hevents]
    · simp [backward, hdecode, hsame]

/-- The scan to later boundaries finds the first event within the limit. -/
theorem backward_eq_ok (hevents : OfRef ref events) (boundary : Option ValidTime) :
  backward ref.keyBytes commitLimit boundary false events =
    .ok ((events.find? fun event => event.commitSeq ≤ commitLimit).map validFrom)
  := by
  induction events generalizing boundary with
  | nil => rfl
  | cons event events ih =>
    obtain ⟨⟨hvalid, href⟩, hevents⟩ := forall_mem_cons.mp hevents
    have hkey := (isPrefixOf_encodedKey_iff hvalid).mpr href
    have hdecode := decodeFactKey_encodedKey hvalid
    by_cases hlimit : event.commitSeq ≤ commitLimit
    · by_cases hsame : boundary = some event.validFrom
      · simp [backward, hkey, hdecode, hsame, hlimit, backward_of_found hevents]
      · simp [backward, hkey, hdecode, hsame, hlimit, backward_of_found hevents]
    · by_cases hsame : boundary = some event.validFrom
      · simp [backward, hkey, hdecode, hlimit, ih hevents]
      · simp [backward, hkey, hdecode, hlimit, ih hevents]

end Scans

end TemporalNeighborhood

/-! ### The events of a scan -/

namespace FactColumn

section Seek

variable {column : FactColumn} {ref : FactRef} {validTime : ValidTime}

/-- A scan for an instant starts at the key with the greatest commit. -/
def seekKey (ref : FactRef) (validTime : ValidTime) : List UInt8 :=
  encodeFactKey ref validTime (-1)

theorem take_seekKey (href : ref.validate = .ok ()) :
  (seekKey ref validTime).take factIdentityPrefixBytes = ref.keyBytes
  := by
  rw [seekKey, encodeFactKey_eq href (by decide), take_append_of_le_length (by simp)]
  apply take_of_length_le (by simp)

/-- The events before the start of a scan have a smaller reference or a later boundary. -/
theorem encodedKey_lt_seekKey_iff {event : FactEvent} (href : ref.validate = .ok ())
    (hvalid : event.validate = .ok ()) :
  event.encodedKey < seekKey ref validTime ↔
    event.ref.storeKey < ref.storeKey ∨ event.ref = ref ∧ validTime < event.validFrom
  := by
  have hmax : ¬ (-1 : CommitSeq) < event.commitSeq := not_lt.mpr (Word.le_neg_one _)
  rw [encodedKey, seekKey, encodeFactKey_lt_iff (validate_ref hvalid)
    (commitSeq_ne_zero hvalid) href (by decide)]
  simp [hmax]

/-- No event is at the start of a scan, if no commit is the greatest one. -/
theorem encodedKey_le_seekKey_iff {event : FactEvent} (href : ref.validate = .ok ())
    (hvalid : event.validate = .ok ()) (hcommit : event.commitSeq < -1) :
  event.encodedKey ≤ seekKey ref validTime ↔ event.encodedKey < seekKey ref validTime
  := by
  constructor
  · intro hle
    apply lt_of_le_of_ne hle
    intro heq
    have hparts := (encodeFactKey_inj (validate_ref hvalid)
      (commitSeq_ne_zero hvalid) href (by decide)).mp heq
    apply hcommit.ne hparts.2.2
  · apply le_of_lt

/-- The events of a reference which start not after an instant. -/
def upTo (column : FactColumn) (ref : FactRef) (validTime : ValidTime) : List FactEvent :=
  column.events.filter fun event => event.ref = ref ∧ event.validFrom ≤ validTime

/-- The events of a reference which start after an instant. -/
def after (column : FactColumn) (ref : FactRef) (validTime : ValidTime) : List FactEvent :=
  column.events.filter fun event => event.ref = ref ∧ validTime < event.validFrom

/-- Valid events whose keys begin with a reference, if these come first. -/
theorem takeWhile_isPrefixOf_eq_filter {events : List FactEvent}
    (hvalid : ∀ event ∈ events, event.validate = .ok ())
    (hfirst : events.Pairwise fun e f => f.ref = ref → e.ref = ref) :
  events.takeWhile (fun event => ref.keyBytes.isPrefixOf event.encodedKey) =
    events.filter fun event => event.ref = ref
  := by
  have hkey : ∀ event ∈ events,
      ref.keyBytes.isPrefixOf event.encodedKey = decide (event.ref = ref) := by
    intro event hevent
    rw [Bool.eq_iff_iff, decide_eq_true_eq]
    apply TemporalNeighborhood.isPrefixOf_encodedKey_iff (hvalid event hevent)
  rw [takeWhile_eq_filter, filter_congr hkey]
  apply hfirst.imp_of_mem
  intro e f he hf himp
  rw [hkey e he, hkey f hf, decide_eq_true_eq, decide_eq_true_eq]
  apply himp

/-- A scan from a key which is after all smaller references finds the events of its reference which
are not before the key. -/
theorem takeWhile_seek_eq_filter {key : List UInt8}
    (hkey : ∀ event ∈ column.events, ¬ event.encodedKey < key →
      ref.storeKey ≤ event.ref.storeKey) :
  (column.seek key).takeWhile (fun event => ref.keyBytes.isPrefixOf event.encodedKey) =
    column.events.filter fun event => event.ref = ref ∧ ¬ event.encodedKey < key
  := by
  have hseek : column.seek key = column.events.filter fun event =>
      !decide (event.encodedKey < key) := by
    apply dropWhile_eq_filter
    apply column.sorted.imp
    intro e f hlt hf
    simp only [decide_eq_true_eq] at hf ⊢
    apply lt_trans hlt hf
  rw [hseek, takeWhile_isPrefixOf_eq_filter, filter_filter]
  · simp only [Bool.decide_and, decide_not]
  · intro event hevent
    apply column.valid event (mem_filter.mp hevent).1
  · apply (sorted_ref.filter _).imp_of_mem
    rintro e f he - hle rfl
    obtain ⟨he, hstart⟩ := mem_filter.mp he
    apply FactRef.storeKey_injective (le_antisymm hle (hkey e he (by simpa using hstart)))

/-- The events of a scan to earlier boundaries. -/
theorem takeWhile_seek (href : ref.validate = .ok ()) :
  (column.seek (seekKey ref validTime)).takeWhile
      (fun event => ref.keyBytes.isPrefixOf event.encodedKey) =
    column.upTo ref validTime
  := by
  have hiff (event : FactEvent) (hevent : event ∈ column.events) :=
    @encodedKey_lt_seekKey_iff ref validTime event href (column.valid event hevent)
  rw [takeWhile_seek_eq_filter]
  · apply filter_congr
    intro event hevent
    rw [decide_eq_decide, hiff event hevent]
    apply and_congr_right
    rintro rfl
    simp
  · intro event hevent hstart
    rw [hiff event hevent, not_or, not_lt] at hstart
    exact hstart.1

/-- The events of a scan to later boundaries. -/
theorem takeWhile_seekForPrev (href : ref.validate = .ok ())
    (hcommit : ∀ event ∈ column.events, event.commitSeq < -1) :
  (column.seekForPrev (seekKey ref validTime)).takeWhile
      (fun event => ref.keyBytes.isPrefixOf event.encodedKey) =
    (column.after ref validTime).reverse
  := by
  have hseek : column.seekForPrev (seekKey ref validTime) = (column.events.filter fun event =>
      event.ref.storeKey < ref.storeKey ∨ event.ref = ref ∧ validTime < event.validFrom).reverse := by
    rw [seekForPrev, takeWhile_eq_filter]
    · congr 1
      apply filter_congr
      intro event hevent
      have hvalid := column.valid event hevent
      rw [decide_eq_decide, encodedKey_le_seekKey_iff href hvalid (hcommit event hevent),
        encodedKey_lt_seekKey_iff href hvalid]
    · apply column.sorted.imp
      intro e f hlt hf
      simp only [decide_eq_true_eq] at hf ⊢
      apply le_trans (le_of_lt hlt) hf
  rw [hseek, takeWhile_isPrefixOf_eq_filter, filter_reverse, filter_filter]
  · congr 1
    apply filter_congr
    intro event _
    rw [← Bool.decide_and, decide_eq_decide]
    constructor
    · rintro ⟨rfl, hstart⟩
      simpa using hstart
    · rintro ⟨rfl, hlt⟩
      simpa using hlt
  · intro event hevent
    apply column.valid event (mem_filter.mp (mem_reverse.mp hevent)).1
  · rw [pairwise_reverse]
    apply (sorted_ref.filter _).imp_of_mem
    rintro e f - hf hle rfl
    obtain hlt | ⟨heq, -⟩ := of_decide_eq_true (mem_filter.mp hf).2
    · cases not_lt_of_ge hle hlt
    · exact heq

end Seek

end FactColumn

/-! ### The neighborhood -/

namespace TemporalNeighborhood

/-- An event of a reference within a limit of commits. -/
structure IsVisible (events : List FactEvent) (ref : FactRef) (commitLimit : CommitSeq)
    (event : FactEvent) : Prop where
  mem : event ∈ events
  ref_eq : event.ref = ref
  commitSeq_le : event.commitSeq ≤ commitLimit

/-- The boundaries of a reference which have an event within a limit of commits. -/
def boundaries (events : List FactEvent) (ref : FactRef) (commitLimit : CommitSeq) :
    Set ValidTime :=
  {validFrom | ∃ event, IsVisible events ref commitLimit event ∧ event.validFrom = validFrom}

/-- The neighborhood of an instant: the event with the greatest commit at the latest boundary not
after the instant, the latest boundary before the instant and the earliest one after it, among the
events within the limit. -/
structure IsNeighborhood (events : List FactEvent) (ref : FactRef) (validTime : ValidTime)
    (commitLimit : CommitSeq) (neighborhood : TemporalNeighborhood) : Prop where
  /-- The observed event is visible. -/
  observed_visible : ∀ event, neighborhood.observed = some event →
    IsVisible events ref commitLimit event
  /-- The observed event is at the latest boundary which is not after the instant. -/
  observed_boundary : ∀ event, neighborhood.observed = some event →
    IsGreatest (boundaries events ref commitLimit ∩ Set.Iic validTime) event.validFrom
  /-- The observed event has the greatest commit at its boundary. -/
  observed_commit : ∀ event, neighborhood.observed = some event →
    ∀ other, IsVisible events ref commitLimit other → other.validFrom = event.validFrom →
      other.commitSeq ≤ event.commitSeq
  observed_none : neighborhood.observed = none →
    boundaries events ref commitLimit ∩ Set.Iic validTime = ∅
  predecessor_some : ∀ validFrom, neighborhood.predecessor = some validFrom →
    IsGreatest (boundaries events ref commitLimit ∩ Set.Iio validTime) validFrom
  predecessor_none : neighborhood.predecessor = none →
    boundaries events ref commitLimit ∩ Set.Iio validTime = ∅
  successor_some : ∀ validFrom, neighborhood.successor = some validFrom →
    IsLeast (boundaries events ref commitLimit ∩ Set.Ioi validTime) validFrom
  successor_none : neighborhood.successor = none →
    boundaries events ref commitLimit ∩ Set.Ioi validTime = ∅

section Neighborhood

variable {column : FactColumn} {ref : FactRef} {validTime : ValidTime} {commitLimit : CommitSeq}

/-- What the scans find. -/
def found (column : FactColumn) (ref : FactRef) (validTime : ValidTime) (commitLimit : CommitSeq) :
    TemporalNeighborhood where
  observed := (column.upTo ref validTime).find? fun event => event.commitSeq ≤ commitLimit
  predecessor := ((column.upTo ref validTime).find? fun event => event.commitSeq ≤ commitLimit ∧
    event.validFrom < validTime).map FactEvent.validFrom
  successor := ((column.after ref validTime).reverse.find? fun event =>
    event.commitSeq ≤ commitLimit).map FactEvent.validFrom

variable {event : FactEvent}

theorem mem_upTo_iff :
  event ∈ column.upTo ref validTime ↔
    event ∈ column.events ∧ event.ref = ref ∧ event.validFrom ≤ validTime
  := by
  simp [upTo]

theorem mem_after_iff :
  event ∈ column.after ref validTime ↔
    event ∈ column.events ∧ event.ref = ref ∧ validTime < event.validFrom
  := by
  simp [FactColumn.after]

theorem validFrom_le_of_chainKey_lt {e f : FactEvent} (hlt : f.chainKey < e.chainKey) :
  f.validFrom ≤ e.validFrom
  := by
  obtain hlt | ⟨heq, -⟩ := Prod.Lex.toLex_lt_toLex.mp hlt
  · apply le_of_lt hlt
  · apply le_of_eq heq

/-- The first event of a scan to earlier boundaries is at the latest boundary, and has the greatest
commit there. -/
theorem isGreatest_of_find? {p : FactEvent → Bool}
    (hfind : (column.upTo ref validTime).find? p = some event) :
  (∀ other ∈ column.upTo ref validTime, p other = true → other.validFrom ≤ event.validFrom) ∧
    ∀ other ∈ column.upTo ref validTime, p other = true → other.validFrom = event.validFrom →
      other.commitSeq ≤ event.commitSeq
  := by
  have hsorted := @sorted_chainKey column ref
    (fun event => event.ref = ref ∧ event.validFrom ≤ validTime) (by simp +contextual)
  constructor
  · intro other hmem hp
    obtain rfl | hlt := rel_of_find?_eq_some hsorted hfind hmem hp
    · apply le_rfl
    · apply validFrom_le_of_chainKey_lt hlt
  · intro other hmem hp hsame
    obtain rfl | hlt := rel_of_find?_eq_some hsorted hfind hmem hp
    · apply le_rfl
    · obtain hlt | ⟨-, hlt⟩ := Prod.Lex.toLex_lt_toLex.mp hlt
      · cases hlt.ne hsame
      · apply le_of_lt hlt

/-- The scans find the neighborhood. -/
theorem isNeighborhood_found :
  IsNeighborhood column.events ref validTime commitLimit (found column ref validTime commitLimit)
  where
  observed_visible event hfind := by
    have hmem := mem_upTo_iff.mp (mem_of_find?_eq_some hfind)
    use hmem.1, hmem.2.1
    simpa using find?_some hfind
  observed_boundary event hfind := by
    have hmem := mem_upTo_iff.mp (mem_of_find?_eq_some hfind)
    have hlimit : event.commitSeq ≤ commitLimit := by simpa using find?_some hfind
    use ⟨⟨event, ⟨hmem.1, hmem.2.1, hlimit⟩, rfl⟩, hmem.2.2⟩
    rintro _ ⟨⟨other, hother, rfl⟩, hle⟩
    apply (isGreatest_of_find? hfind).1 other
    · apply mem_upTo_iff.mpr
      use hother.mem, hother.ref_eq, hle
    · simpa using hother.commitSeq_le
  observed_commit event hfind other hother hsame := by
    have hmem := mem_upTo_iff.mp (mem_of_find?_eq_some hfind)
    apply (isGreatest_of_find? hfind).2 other _ _ hsame
    · apply mem_upTo_iff.mpr
      use hother.mem, hother.ref_eq
      rw [hsame]
      exact hmem.2.2
    · simpa using hother.commitSeq_le
  observed_none hfind := by
    apply Set.eq_empty_of_forall_notMem
    rintro _ ⟨⟨event, hevent, rfl⟩, hle⟩
    apply find?_eq_none.mp hfind event
    · apply mem_upTo_iff.mpr
      use hevent.mem, hevent.ref_eq, hle
    · simpa using hevent.commitSeq_le
  predecessor_some validFrom hsome := by
    obtain ⟨event, hfind, rfl⟩ := Option.map_eq_some_iff.mp hsome
    have hmem := mem_upTo_iff.mp (mem_of_find?_eq_some hfind)
    have hlimit : event.commitSeq ≤ commitLimit ∧ event.validFrom < validTime := by
      simpa using find?_some hfind
    use ⟨⟨event, ⟨hmem.1, hmem.2.1, hlimit.1⟩, rfl⟩, hlimit.2⟩
    rintro _ ⟨⟨other, hother, rfl⟩, hlt⟩
    apply (isGreatest_of_find? hfind).1 other
    · apply mem_upTo_iff.mpr
      use hother.mem, hother.ref_eq, le_of_lt hlt
    · simpa using And.intro hother.commitSeq_le hlt
  predecessor_none hfind := by
    apply Set.eq_empty_of_forall_notMem
    rintro _ ⟨⟨event, hevent, rfl⟩, hlt⟩
    apply find?_eq_none.mp (Option.map_eq_none_iff.mp hfind) event
    · apply mem_upTo_iff.mpr
      use hevent.mem, hevent.ref_eq, le_of_lt hlt
    · simpa using And.intro hevent.commitSeq_le hlt
  successor_some validFrom hsome := by
    obtain ⟨event, hfind, rfl⟩ := Option.map_eq_some_iff.mp hsome
    have hmem := mem_after_iff.mp (mem_reverse.mp (mem_of_find?_eq_some hfind))
    have hlimit : event.commitSeq ≤ commitLimit := by simpa using find?_some hfind
    have hsorted := pairwise_reverse.mpr (@sorted_chainKey column ref
      (fun event => event.ref = ref ∧ validTime < event.validFrom) (by simp +contextual))
    use ⟨⟨event, ⟨hmem.1, hmem.2.1, hlimit⟩, rfl⟩, hmem.2.2⟩
    rintro _ ⟨⟨other, hother, rfl⟩, hlt⟩
    have hafter : other ∈ (column.after ref validTime).reverse := by
      apply mem_reverse.mpr (mem_after_iff.mpr _)
      use hother.mem, hother.ref_eq, hlt
    obtain rfl | hlt := rel_of_find?_eq_some hsorted hfind hafter
      (by simpa using hother.commitSeq_le)
    · apply le_rfl
    · apply validFrom_le_of_chainKey_lt hlt
  successor_none hfind := by
    apply Set.eq_empty_of_forall_notMem
    rintro _ ⟨⟨event, hevent, rfl⟩, hlt⟩
    apply find?_eq_none.mp (Option.map_eq_none_iff.mp hfind) event
    · apply mem_reverse.mpr (mem_after_iff.mpr _)
      use hevent.mem, hevent.ref_eq, hlt
    · simpa using hevent.commitSeq_le

/-- Without events of the reference, the neighborhood is empty. -/
theorem found_eq_empty (hnone : ∀ event ∈ column.events, event.ref ≠ ref) :
  found column ref validTime commitLimit = {}
  := by
  have hupTo : column.upTo ref validTime = [] := by
    apply filter_eq_nil_iff.mpr
    intro event hevent
    simp [hnone event hevent]
  have hafter : column.after ref validTime = [] := by
    apply filter_eq_nil_iff.mpr
    intro event hevent
    simp [hnone event hevent]
  simp [found, hupTo, hafter]

theorem ofRef_upTo :
  OfRef ref (column.upTo ref validTime)
  := by
  intro event hevent
  have hmem := mem_upTo_iff.mp hevent
  use column.valid event hmem.1, hmem.2.1

theorem ofRef_after :
  OfRef ref (column.after ref validTime).reverse
  := by
  intro event hevent
  have hmem := mem_after_iff.mp (mem_reverse.mp hevent)
  use column.valid event hmem.1, hmem.2.1

end Neighborhood

end TemporalNeighborhood

section Read

variable {column : FactColumn}

open TemporalNeighborhood

/-- A read without a filter finds what the scans find. -/
theorem readTemporalNeighborhood_eq
    (hcommit : ∀ event ∈ column.events, event.commitSeq.toNat < 2 ^ 64 - 1)
    (ref : FactRef) (validTime : ValidTime) (commitLimit : CommitSeq) :
  readTemporalNeighborhoodWithIterator none column ref validTime commitLimit =
    (do ref.validate; return found column ref validTime commitLimit)
  := by
  cases href : ref.validate with
  | error status =>
    rw [readTemporalNeighborhoodWithIterator, href]
    rfl
  | ok =>
    have hseek : (seekKey ref validTime).isEmpty = false := by
      rw [seekKey, encodeFactKey_eq href (by decide)]
      rfl
    have hforward : forward ref.keyBytes validTime commitLimit none false {}
        (column.seek (seekKey ref validTime)) =
          .ok { found column ref validTime commitLimit with successor := none } := by
      rw [← forward_takeWhile, takeWhile_seek href]
      apply forward_eq_ok ofRef_upTo
      intro event hevent
      apply (mem_upTo_iff.mp hevent).2.2
    have hbackward : backward ref.keyBytes commitLimit none false
        (column.seekForPrev (seekKey ref validTime)) =
          .ok (found column ref validTime commitLimit).successor := by
      rw [← backward_takeWhile, takeWhile_seekForPrev href
        fun event hevent => UInt64.lt_iff_toNat_lt.mpr (hcommit event hevent)]
      apply backward_eq_ok ofRef_after
    have hkeyBytes := @take_seekKey ref validTime href
    simp only [seekKey] at hkeyBytes hseek hforward hbackward
    simp only [readTemporalNeighborhoodWithIterator, href, StatusOr.ok_bind, Option.any_none, hseek,
      hkeyBytes, hforward, hbackward, Bool.false_eq_true, if_false]

/-- A filter which contains the references of all events changes nothing. -/
theorem readTemporalNeighborhood_some_eq
    (hcommit : ∀ event ∈ column.events, event.commitSeq.toNat < 2 ^ 64 - 1)
    {history : FactIdentityHistory}
    (hhistory : ∀ event ∈ column.events, history.mightContain event.ref = true)
    (ref : FactRef) (validTime : ValidTime) (commitLimit : CommitSeq) :
  readTemporalNeighborhoodWithIterator (some history) column ref validTime commitLimit =
    readTemporalNeighborhoodWithIterator none column ref validTime commitLimit
  := by
  cases hcontains : history.mightContain ref with
  | true => simp [readTemporalNeighborhoodWithIterator, hcontains]
  | false =>
    -- the reference was never published, so it has no events
    have hnone : ∀ event ∈ column.events, event.ref ≠ ref := by
      rintro event hevent rfl
      rw [hhistory event hevent] at hcontains
      cases hcontains
    rw [readTemporalNeighborhood_eq hcommit, found_eq_empty hnone]
    simp [readTemporalNeighborhoodWithIterator, hcontains]

/-- A read returns the neighborhood of the instant, with any filter to which the references of all
events were published. -/
theorem readTemporalNeighborhood_isNeighborhood
    (hcommit : ∀ event ∈ column.events, event.commitSeq.toNat < 2 ^ 64 - 1)
    (ref : FactRef) (validTime : ValidTime) (commitLimit : CommitSeq) :
  ∃ neighborhood, IsNeighborhood column.events ref validTime commitLimit neighborhood ∧
    readTemporalNeighborhoodWithIterator none column ref validTime commitLimit =
      (do ref.validate; return neighborhood) ∧
    ∀ (history : FactIdentityHistory) (refs : List FactRef),
      (∀ event ∈ column.events, event.ref ∈ refs) →
        readTemporalNeighborhoodWithIterator (some (history.publishAll refs)) column ref validTime
            commitLimit =
          readTemporalNeighborhoodWithIterator none column ref validTime commitLimit
  := by
  use found column ref validTime commitLimit, isNeighborhood_found,
    readTemporalNeighborhood_eq hcommit ref validTime commitLimit
  intro history refs hrefs
  apply readTemporalNeighborhood_some_eq hcommit
  intro event hevent
  apply FactIdentityHistory.mightContain_publishAll (hrefs event hevent)

theorem correctedVertex_isNeighborhood :
  ∃ neighborhood,
    IsNeighborhood correctedVertex.events (EntityFact.vertex ⟨0, 1⟩) 7 4 neighborhood ∧
      readTemporalNeighborhoodWithIterator none correctedVertex (EntityFact.vertex ⟨0, 1⟩) 7 4 =
        .ok neighborhood
  := by
  obtain ⟨neighborhood, hneighborhood, hread, -⟩ :=
    @readTemporalNeighborhood_isNeighborhood correctedVertex (by decide)
      (EntityFact.vertex ⟨0, 1⟩) 7 4
  use neighborhood, hneighborhood, hread

end Read

end Cedar
