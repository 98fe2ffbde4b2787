import CedarGraph.Kernel.StateAt
import CedarGraph.Storage.CommitFacts

/-!
# Reading one's own writes

A transaction reads the facts of its snapshot together with the mutations which it has staged.  The
staged mutations rank above the committed facts with the same boundary.

For the state at an instant, the staged events go one by one, and one takes the place of the
candidate if it takes effect later.  The selected event is a latest one.
-/

namespace Cedar

open List Option StoreCommitBatch FactReadSpec

/-- The read of one state. -/
def exactEntityRange (entityId : UInt64) : EntityRange :=
  ⟨some entityId, if entityId = -1 then none else some (entityId + 1)⟩

/-- The read of the events of one reference. -/
def FactReadSpec.exact (ref : FactRef) : FactReadSpec where
  partScope := ⟨.exact, [ref.partId]⟩
  family := ref.family
  propertyId := ref.propertyId
  entityRange := exactEntityRange ref.entityId

/-- The mutations and edges which a transaction has staged. -/
structure StagedWrites where
  mutations : List PendingFactMutation
  edgeIdentities : List EdgeIdentity
  /-- Every mutation has passed its check. -/
  valid : ∀ mutation ∈ mutations, mutation.validate = .ok ()
  /-- A transaction mutates a fact from a valid time on once. -/
  distinct : (mutations.map fun mutation => (mutation.ref, mutation.validFrom)).Nodup
  /-- Every edge has passed its check. -/
  validEdge : ∀ identity ∈ edgeIdentities, identity.validate = .ok ()
  /-- An edge has one identity. -/
  distinctEdge : (edgeIdentities.map EdgeIdentity.edgeRef).Nodup

namespace StagedWrites

/-- Nothing is staged. -/
def empty : StagedWrites where
  mutations := []
  edgeIdentities := []
  valid := List.forall_mem_nil _
  distinct := List.nodup_nil
  validEdge := List.forall_mem_nil _
  distinctEdge := List.nodup_nil

end StagedWrites

/-- The facts of a column are committed. -/
def FactColumn.committedFacts (column : FactColumn) : CommittedFacts where
  events := column.events
  valid := column.valid
  distinct := by
    apply List.pairwise_map.mpr
    apply column.sorted.imp
    intro e f hlt heq
    obtain ⟨href, hkey⟩ := Prod.mk.inj heq
    obtain ⟨htime, hcommit⟩ := Prod.mk.inj hkey
    rw [FactEvent.encodedKey, FactEvent.encodedKey, href, htime, hcommit] at hlt
    apply lt_irrefl _ hlt

/-- The canonical reader of a snapshot. -/
def Snapshot.reader (snapshot : Snapshot) : CanonicalFactReader :=
  ⟨snapshot.facts.committedFacts, snapshot.commitSeq⟩

/-- A reader of the facts of a snapshot and of staged mutations. -/
structure TransactionOverlayReader where
  base : Snapshot
  writes : StagedWrites
  includeStaged : Bool

namespace TransactionOverlayReader

variable (reader : TransactionOverlayReader)

/-- The commit which the staged mutations are read at: the one after the snapshot. -/
def overlaySeq : CommitSeq :=
  if reader.base.commitSeq = -1 then reader.base.commitSeq
  else max 1 (reader.base.commitSeq + 1)

/-- The last commit which a snapshot with this reader sees. -/
def commitSeq : CommitSeq :=
  if reader.includeStaged then reader.overlaySeq else reader.base.commitSeq

/-- The event of a staged mutation. -/
def mutationEvent (mutation : PendingFactMutation) : FactEvent where
  ref := mutation.ref
  validFrom := mutation.validFrom
  commitSeq := reader.overlaySeq
  operation := mutation.operation
  schemaEpoch := mutation.schemaEpoch
  value := mutation.value

/-- The event of a staged edge. -/
def identityEvent (identity : EdgeIdentity) : FactEvent where
  ref := StoreCommitBatch.identityRef identity
  validFrom := 0
  commitSeq := reader.overlaySeq
  edgeIdentity := some identity

/-- The staged events which a read is about. -/
def visitStaged (spec : FactReadSpec) : List FactEvent :=
  if ¬ reader.includeStaged then []
  else
    (reader.writes.mutations.map reader.mutationEvent).filter spec.matchesReadSpec ++
      if spec.family = .edgeIdentity then
        (reader.writes.edgeIdentities.map reader.identityEvent).filter spec.matchesReadSpec
      else []

/-- A staged event takes the place of the candidate, if it takes effect later, or at the same time
and not in an older commit. -/
def selectStaged (time : ValidTime) (winner staged : Option FactEvent) (event : FactEvent) :
    Option FactEvent :=
  if event.validFrom > time then staged
  else
    match staged.or winner with
    | none => some event
    | some candidate =>
        if event.validFrom > candidate.validFrom ∨
            event.validFrom = candidate.validFrom ∧ event.commitSeq ≥ candidate.commitSeq then
          some event
        else
          staged

/-- The state of a fact at an instant, as the transaction sees it. -/
def readStateAt (spec : FactReadSpec) (time : ValidTime) (snapshotSeq : CommitSeq) :
    StatusOr (Option FactEvent) := do
  let durableSeq :=
    if snapshotSeq > reader.base.commitSeq then reader.base.commitSeq else snapshotSeq
  let winner ← reader.base.readStateAt spec time durableSeq
  if ¬ reader.includeStaged then
    return winner
  else
    return ((reader.visitStaged spec).foldl (selectStaged time winner) none).or winner

/-- The events which a read is about, as the transaction sees them. -/
def readEvents (spec : FactReadSpec) : StatusOr (List FactEvent) := do
  spec.validate
  if spec.maxRows = some 0 then
    return []
  else if ¬ reader.includeStaged then
    reader.base.reader.readEvents spec
  else
    let committed ← reader.base.reader.readEvents spec
    let events := (Sorter.insertion FactEvent.eventKey).sort (committed ++ reader.visitStaged spec)
    return match spec.maxRows with
      | some maxRows => events.take maxRows.toNat
      | none => events

/-- The rows of the states which contain an instant, as the transaction sees them. -/
def readStateRows (sorter : Sorter FactEvent.chainKey) (spec : CanonicalStateReadSpec) :
    StatusOr (List CanonicalStateRow) :=
  if ¬ reader.includeStaged then
    reader.base.reader.readStateRows sorter spec
  else if spec.maxRows = some 0 then
    .ok []
  else do
    let events ← reader.readEvents { spec.facts with maxRows := none }
    StateRowStream.run sorter spec {} events

end TransactionOverlayReader

/-! ### The read of one reference -/

/-- The range of one entity has no other entity. -/
theorem exactEntityRange_contains_iff {entity other : UInt64} :
  (exactEntityRange entity).min.all (· ≤ other) = true ∧
      (exactEntityRange entity).maxExclusive.all (other < ·) = true ↔ other = entity
  := by
  rcases eq_or_ne entity (-1) with rfl | hne
  · rw [exactEntityRange, if_pos rfl]
    simp only [all_some, decide_eq_true_eq, all_none, and_true]
    apply (Word.le_neg_one other).ge_iff_eq
  · have hnext := Word.toNat_add_one hne
    rw [exactEntityRange, if_neg hne]
    simp only [all_some, decide_eq_true_eq, UInt64.le_iff_toNat_le, UInt64.lt_iff_toNat_lt,
      ← UInt64.toNat_inj]
    omega

namespace FactReadSpec

variable {ref : FactRef}

theorem validate_exact :
  (exact ref).validate = .ok ()
  := by
  have hrange : (exactEntityRange ref.entityId).validate = .ok () := by
    rcases eq_or_ne ref.entityId (-1) with hmax | hne
    · simp [EntityRange.validate, exactEntityRange, hmax]
    · have hlt : ref.entityId < ref.entityId + 1 := by
        rw [UInt64.lt_iff_toNat_lt, Word.toNat_add_one hne]
        apply Nat.lt_succ_self
      simp [EntityRange.validate, exactEntityRange, hne, hlt]
  simp [validate, exact, hrange, PartScope.validate, reversed]

theorem exactRef_exact :
  (exact ref).exactRef = .ok ref
  := by
  apply if_pos
  rcases eq_or_ne ref.entityId (-1) with hmax | hne
  · right
    use hmax, if_pos hmax
  · left
    apply if_neg hne

/-- The read of one reference is about its events. -/
theorem matchesReadSpec_exact_iff {event : FactEvent} :
  (exact ref).matchesReadSpec event = true ↔ event.ref = ref
  := by
  have hentity := @exactEntityRange_contains_iff ref.entityId event.ref.entityId
  have hfields : event.ref = ref ↔ event.ref.partId = ref.partId ∧
      event.ref.family = ref.family ∧ event.ref.propertyId = ref.propertyId ∧
      event.ref.entityId = ref.entityId := by
    rcases event.ref with ⟨_, _, _, _⟩
    rcases ref with ⟨_, _, _, _⟩
    simp
  rw [hfields, ← hentity]
  simp only [matchesReadSpec, PartScope.contains, Bool.and_eq_true, decide_eq_true_eq]
  simp [exact, and_assoc]

end FactReadSpec

/-! ### The staged events -/

namespace TransactionOverlayReader

section Staged

variable {reader : TransactionOverlayReader} {spec : FactReadSpec} {ref : FactRef}

theorem overlaySeq_ne_zero :
  reader.overlaySeq ≠ 0
  := by
  rw [overlaySeq]
  split
  case isTrue hmax =>
    rw [hmax]
    decide
  case isFalse =>
    apply ne_of_gt
    apply lt_of_lt_of_le (b := 1) (by decide) (le_max_left _ _)

theorem base_le_overlaySeq :
  reader.base.commitSeq ≤ reader.overlaySeq
  := by
  rw [overlaySeq]
  split
  case isTrue => apply le_rfl
  case isFalse hne =>
    apply le_trans _ (le_max_right _ _)
    rw [UInt64.le_iff_toNat_le, Word.toNat_add_one hne]
    apply Nat.le_succ

theorem base_le_commitSeq :
  reader.base.commitSeq ≤ reader.commitSeq
  := by
  rw [commitSeq]
  split
  case isTrue => apply base_le_overlaySeq
  case isFalse => apply le_rfl

/-- The staged events of a read are valid events of the overlay. -/
theorem of_mem_visitStaged {event : FactEvent} (hmem : event ∈ reader.visitStaged spec) :
  event.validate = .ok () ∧ event.commitSeq = reader.commitSeq ∧
    spec.matchesReadSpec event = true
  := by
  rw [visitStaged] at hmem
  split at hmem
  case isTrue => cases hmem
  case isFalse hincluded =>
    rw [commitSeq, if_pos (not_not.mp hincluded)]
    rcases mem_append.mp hmem with hmem | hmem
    · obtain ⟨hmem, hmatches⟩ := mem_filter.mp hmem
      obtain ⟨mutation, hmutation, rfl⟩ := mem_map.mp hmem
      use validate_of_mutation (reader.writes.valid mutation hmutation)
        overlaySeq_ne_zero, rfl, hmatches
    · split at hmem
      case isTrue =>
        obtain ⟨hmem, hmatches⟩ := mem_filter.mp hmem
        obtain ⟨identity, hidentity, rfl⟩ := mem_map.mp hmem
        use validate_of_identity (reader.writes.validEdge identity hidentity)
          overlaySeq_ne_zero, rfl, hmatches
      case isFalse => cases hmem

/-- A transaction mutates a fact from a valid time on once. -/
theorem pairwise_visitStaged :
  (reader.visitStaged spec).Pairwise fun e f => e.ref = f.ref → e.validFrom ≠ f.validFrom
  := by
  have hmutations : ((reader.writes.mutations.map reader.mutationEvent).filter
      spec.matchesReadSpec).Pairwise fun e f => e.ref = f.ref → e.validFrom ≠ f.validFrom := by
    apply Pairwise.filter
    apply pairwise_map.mpr
    apply (pairwise_map.mp reader.writes.distinct).imp
    intro a b hne href htime
    apply hne (Prod.ext href htime)
  have hidentities : ((reader.writes.edgeIdentities.map reader.identityEvent).filter
      spec.matchesReadSpec).Pairwise fun e f => e.ref = f.ref → e.validFrom ≠ f.validFrom := by
    apply Pairwise.filter
    apply pairwise_map.mpr
    apply (pairwise_map.mp reader.writes.distinctEdge).imp
    intro a b hne href _
    apply hne
    simp only [identityEvent, identityRef, FactRef.mk.injEq, true_and] at href
    rw [EdgeIdentity.edgeRef, EdgeIdentity.edgeRef, href.1, href.2]
  rw [visitStaged]
  split
  case isTrue => apply Pairwise.nil
  case isFalse =>
    apply pairwise_append.mpr
    use hmutations
    constructor
    · split
      case isTrue => apply hidentities
      case isFalse => apply Pairwise.nil
    · intro e he f hf href
      split at hf
      case isTrue =>
        -- a mutation is never of an identity
        obtain ⟨mutation, hmutation, rfl⟩ := mem_map.mp (mem_filter.mp he).1
        obtain ⟨identity, hidentity, rfl⟩ := mem_map.mp (mem_filter.mp hf).1
        cases (family_ne_of_validate (reader.writes.valid mutation hmutation)).2
          (congrArg FactRef.family href)
      case isFalse => cases hf

end Staged

end TransactionOverlayReader

/-! ### The selection of a staged event -/

namespace TransactionOverlayReader

/-- The staged event which is selected among some is a latest one of those which have taken effect
at the instant, and it is not before what the snapshot reads.  If none is selected, then what the
snapshot reads is later than all of them. -/
structure Selected (time : ValidTime) (winner : Option FactEvent) (events : List FactEvent)
    (staged : Option FactEvent) : Prop where
  mem : ∀ e, staged = some e → e ∈ events ∧ e.validFrom ≤ time
  latest : ∀ e, staged = some e → ∀ f ∈ events, f.validFrom ≤ time → f.validFrom ≤ e.validFrom
  winner_le : ∀ e, staged = some e → ∀ c, winner = some c → c.validFrom ≤ e.validFrom
  lt_winner : staged = none → ∀ f ∈ events, f.validFrom ≤ time →
    ∃ c, winner = some c ∧ f.validFrom < c.validFrom

section Select

variable {time : ValidTime} {winner staged : Option FactEvent} {events : List FactEvent}
  {event : FactEvent} {overlaySeq : CommitSeq}

/-- An event is the last of a list up to an instant, or it is not and takes effect later. -/
theorem forall_mem_append_singleton_of_le {P : FactEvent → Prop}
    (h : ∀ f ∈ events, f.validFrom ≤ time → P f) (hlast : event.validFrom ≤ time → P event) :
  ∀ f ∈ events ++ [event], f.validFrom ≤ time → P f
  := by
  intro f hf hle
  rcases mem_append.mp hf with hf | hf
  · apply h f hf hle
  · obtain rfl := mem_singleton.mp hf
    apply hlast hle

/-- A selection goes on without the event. -/
theorem Selected.keep (h : Selected time winner events staged)
    (hsome : ∀ e, staged = some e → event.validFrom ≤ time → event.validFrom ≤ e.validFrom)
    (hnone : staged = none → event.validFrom ≤ time →
      ∃ c, winner = some c ∧ event.validFrom < c.validFrom) :
  Selected time winner (events ++ [event]) staged
  where
  mem e he := ⟨mem_append_left _ (h.mem e he).1, (h.mem e he).2⟩
  latest e he := forall_mem_append_singleton_of_le (h.latest e he) (hsome e he)
  winner_le := h.winner_le
  lt_winner he := forall_mem_append_singleton_of_le (h.lt_winner he) (hnone he)

/-- A selection goes on with the event. -/
theorem Selected.take (hle : event.validFrom ≤ time)
    (hlatest : ∀ f ∈ events, f.validFrom ≤ time → f.validFrom ≤ event.validFrom)
    (hwinner : ∀ c, winner = some c → c.validFrom ≤ event.validFrom) :
  Selected time winner (events ++ [event]) (some event)
  where
  mem e he := by
    obtain rfl := some.inj he
    apply And.intro _ hle
    apply mem_append_right _ mem_cons_self
  latest e he := by
    obtain rfl := some.inj he
    apply forall_mem_append_singleton_of_le hlatest
    intro _
    apply le_rfl
  winner_le e he := by
    obtain rfl := some.inj he
    apply hwinner
  lt_winner he := by cases he

/-- A step of the selection. -/
theorem Selected.selectStaged (h : Selected time winner events staged)
    (hevents : ∀ e ∈ events, e.commitSeq = overlaySeq) (hevent : event.commitSeq = overlaySeq)
    (hwinner : ∀ c, winner = some c → c.commitSeq ≤ overlaySeq) :
  Selected time winner (events ++ [event]) (selectStaged time winner staged event)
  := by
  rw [TransactionOverlayReader.selectStaged]
  rcases lt_or_ge time event.validFrom with hafter | hle
  · rw [if_pos hafter]
    apply h.keep
    · intro e _ hle
      cases not_lt.mpr hle hafter
    · intro _ hle
      cases not_lt.mpr hle hafter
  rw [if_neg (not_lt.mpr hle)]
  -- the event is compared with the selected one, or else with what the snapshot reads
  rcases staged with _ | selected
  · rcases winner with _ | c
    · apply Selected.take hle
      · intro f hf hft
        obtain ⟨c, hc, -⟩ := h.lt_winner rfl f hf hft
        cases hc
      · intro c hc
        cases hc
    · have hseen : c.commitSeq ≤ event.commitSeq := hevent ▸ hwinner c rfl
      rcases lt_or_ge event.validFrom c.validFrom with hbefore | hafter
      · simp only [none_or]
        rw [if_neg (by simp [hbefore.ne, not_lt.mpr hbefore.le])]
        apply h.keep
        · intro e he
          cases he
        · intro _ _
          use c
      · simp only [none_or]
        rw [if_pos]
        · apply Selected.take hle
          · intro f hf hft
            obtain ⟨c', hc', hlt⟩ := h.lt_winner rfl f hf hft
            obtain rfl := some.inj hc'
            apply le_trans hlt.le hafter
          · intro c' hc'
            obtain rfl := some.inj hc'
            apply hafter
        · rcases hafter.lt_or_eq with hlt | heq
          · left
            apply hlt
          · right
            use heq.symm
  · obtain ⟨hmem, hselected⟩ := h.mem selected rfl
    have hsame : selected.commitSeq = event.commitSeq := (hevents selected hmem).trans hevent.symm
    simp only [some_or]
    rcases lt_or_ge event.validFrom selected.validFrom with hbefore | hafter
    · rw [if_neg (by simp [hbefore.ne, not_lt.mpr hbefore.le])]
      apply h.keep
      · intro e he _
        obtain rfl := some.inj he
        apply hbefore.le
      · intro he
        cases he
    · rw [if_pos]
      · apply Selected.take hle
        · intro f hf hft
          apply le_trans (h.latest selected rfl f hf hft) hafter
        · intro c hc
          apply le_trans (h.winner_le selected rfl c hc) hafter
      · rcases hafter.lt_or_eq with hlt | heq
        · left
          apply hlt
        · right
          use heq.symm, hsame.le

/-- The run of the selection over the staged events. -/
theorem Selected.foldl (rest : List FactEvent) (h : Selected time winner events staged)
    (hevents : ∀ e ∈ events ++ rest, e.commitSeq = overlaySeq)
    (hwinner : ∀ c, winner = some c → c.commitSeq ≤ overlaySeq) :
  Selected time winner (events ++ rest)
    (rest.foldl (TransactionOverlayReader.selectStaged time winner) staged)
  := by
  induction rest generalizing events staged with
  | nil =>
    rw [append_nil]
    apply h
  | cons event rest ih =>
    rw [append_cons] at hevents ⊢
    apply ih _ hevents
    apply @Selected.selectStaged _ _ _ _ _ overlaySeq h _ _ hwinner
    · intro e he
      apply hevents e
      simp [he]
    · apply hevents event
      simp

end Select

end TransactionOverlayReader

end Cedar
