import CedarGraph.Temporal.StateReader

/-!
# The canonical reader

A snapshot reads the committed facts which it sees from the store, whose keys order them by
partition, family, property and entity, and for one reference from late to early valid times and
commits.
-/

namespace Cedar

open Grouping List StateRowStream FactEvent

/-- The number of a family in a key. -/
def FactFamily.number : FactFamily → Nat
  | .vertexState => 1
  | .vertexProperty => 2
  | .edgeIdentity => 3
  | .edgeState => 4
  | .edgeProperty => 5

/-- The position of a reference in the store. -/
def FactRef.storeKey (ref : FactRef) : PartId ×ₗ Nat ×ₗ PropertyId ×ₗ UInt64 :=
  toLex (ref.partId, toLex (ref.family.number, toLex (ref.propertyId, ref.entityId)))

/-- The position of an event in the store. -/
def FactEvent.storeKey (event : FactEvent) :
    (PartId ×ₗ Nat ×ₗ PropertyId ×ₗ UInt64) ×ₗ UInt64 ×ₗ UInt64 :=
  toLex (event.ref.storeKey, toLex (~~~event.validFrom, ~~~event.commitSeq))

/-- The position of an event in a list by reference, and from early to late valid times and
commits. -/
def FactEvent.eventKey (event : FactEvent) :
    (PartId ×ₗ Nat ×ₗ PropertyId ×ₗ UInt64) ×ₗ UInt64 ×ₗ UInt64 :=
  toLex (event.ref.storeKey, event.chainKey)

/-- References have different positions. -/
theorem FactRef.storeKey_injective :
  Function.Injective FactRef.storeKey
  := by
  rintro ⟨part, family, property, entity⟩ ⟨part', family', property', entity'⟩ heq
  obtain ⟨hpart, heq⟩ := Prod.mk.inj heq
  obtain ⟨hfamily, heq⟩ := Prod.mk.inj heq
  have hfamily' : family = family' := by
    cases family <;> cases family' <;> first | rfl | cases hfamily
  simp_all

/-- A reader of the facts which a snapshot sees. -/
structure CanonicalFactReader where
  facts : CommittedFacts
  /-- The last commit which the snapshot sees. -/
  commitSeq : CommitSeq

namespace CanonicalFactReader

variable (reader : CanonicalFactReader)

/-- The facts which the snapshot sees, in the order of the store. -/
def scan : List FactEvent :=
  (Sorter.insertion FactEvent.storeKey).sort (visible reader.commitSeq reader.facts.events)

/-- The events which a read is about. -/
def readEvents (spec : FactReadSpec) : StatusOr (List FactEvent) := do
  spec.validate
  let events := reader.scan.filter spec.matchesReadSpec
  return match spec.maxRows with
    | some maxRows => events.take maxRows.toNat
    | none => events

/-- What a columnar read is about: the range of entities is ignored for all partitions, and so is
an end of it which is zero. -/
def columnarSpec (spec : FactReadSpec) : FactReadSpec :=
  if spec.partScope.kind = .all then
    { spec with entityRange := {} }
  else
    { spec with
      entityRange := ⟨spec.entityRange.min, spec.entityRange.maxExclusive.filter (· ≠ 0)⟩ }

/-- The rows of the states which contain an instant. -/
def readStateRows (sorter : Sorter FactEvent.chainKey) (spec : CanonicalStateReadSpec) :
    StatusOr (List CanonicalStateRow) := do
  spec.facts.validate
  if spec.snapshotSeq > reader.commitSeq ∧ spec.snapshotSeq ≠ 0 then
    Status.invalidArgument "canonical reader" "requested sequence exceeds snapshot"
  else if spec.maxRows = some 0 then
    .ok []
  else do
    let events ← reader.readEvents { spec.facts with maxRows := none }
    StateRowStream.run sorter spec {} events

/-- A read is about the events of some references, at least those which the snapshot sees. -/
structure ReadsSnapshot (spec : FactReadSpec) (snapshotSeq : CommitSeq) (P : FactRef → Prop) :
    Prop where
  ref_of_matches : ∀ {event}, spec.matchesReadSpec event = true → P event.ref
  matches_of_le : ∀ {event}, P event.ref → event.commitSeq ≤ snapshotSeq →
    spec.matchesReadSpec event = true

/-- The events which a read is about. -/
def matching (spec : FactReadSpec) : List FactEvent :=
  reader.scan.filter spec.matchesReadSpec

/-- The references of the events which a read is about. -/
def refs (spec : FactReadSpec) : List FactRef :=
  Grouping.keys FactEvent.ref (reader.matching spec)

section Read

variable {spec : FactReadSpec} {snapshotSeq : CommitSeq} {P : FactRef → Prop}

theorem mem_matching_iff {event : FactEvent} :
  event ∈ reader.matching spec ↔
    event ∈ reader.facts.events ∧ event.commitSeq ≤ reader.commitSeq ∧
      spec.matchesReadSpec event = true
  := by
  rw [matching, mem_filter, scan, Sorter.mem_sort, mem_visible, and_assoc]

/-- In the order of the store, the references are sorted. -/
theorem ref_storeKey_le {e f : FactEvent} (hle : e.storeKey ≤ f.storeKey) :
  e.ref.storeKey ≤ f.ref.storeKey
  := by
  obtain hlt | ⟨heq, -⟩ := Prod.Lex.toLex_le_toLex.mp hle
  · apply le_of_lt hlt
  · apply le_of_eq heq

variable {ref : FactRef}

theorem of_mem_refs (hread : ReadsSnapshot spec snapshotSeq P) (href : ref ∈ reader.refs spec) :
  P ref
  := by
  obtain ⟨event, hevent, rfl⟩ := mem_keys.mp href
  apply hread.ref_of_matches (reader.mem_matching_iff.mp hevent).2.2

end Read

variable {P : FactRef → Prop} {snapshotSeq : CommitSeq}

/-- A read of the state of all facts of some references has the rows of their chains. -/
theorem readStateRows_eq_ok (sorter : Sorter chainKey) {spec : CanonicalStateReadSpec}
    (hvalid : spec.facts.validate = .ok ()) (hseq : spec.snapshotSeq ≤ reader.commitSeq)
    (hmax : spec.maxRows = none) (hread : ReadsSnapshot spec.facts spec.snapshotSeq P) :
  reader.readStateRows sorter spec = .ok ((reader.refs spec.facts).flatMap fun ref =>
    stateRows ref ((reader.facts.chain ref).boundariesAt spec.snapshotSeq) spec.validTime
      spec.snapshotSeq)
  := by
  have hrows : collect ref (groupRows sorter spec) [] []
      (reader.matching spec.facts) =
        .ok ((reader.refs spec.facts).flatMap fun ref => stateRows ref
          ((reader.facts.chain ref).boundariesAt spec.snapshotSeq) spec.validTime
          spec.snapshotSeq) := by
    have hsorted : (reader.matching spec.facts).Pairwise fun e f => e.storeKey ≤ f.storeKey :=
      ((Sorter.insertion storeKey).sorted _).filter _
    apply collect_eq_ok FactRef.storeKey_injective (hsorted.imp ref_storeKey_le)
    intro event hevent
    have href := reader.of_mem_refs hread (mem_keys.mpr ⟨event, hevent, rfl⟩)
    apply groupRows_eq_ok
    · apply ne_nil_of_mem (a := event)
      simpa using hevent
    · simp
    · apply FactChain.resolve_eq_boundariesAt_of_visible
      · intro other hother
        obtain ⟨hmem, hsame⟩ := mem_filter.mp hother
        apply reader.facts.mem_chain_iff.mpr
        use (reader.mem_matching_iff.mp hmem).1, of_decide_eq_true hsame
      · have hscan := (Sorter.insertion storeKey).perm
          (visible reader.commitSeq reader.facts.events)
        apply (((hscan.filter spec.facts.matchesReadSpec).filter _).filter _).trans
        apply Perm.of_eq
        simp only [visible, CommittedFacts.chain, filter_filter]
        apply filter_congr
        intro other _
        rw [Bool.eq_iff_iff]
        simp only [Bool.and_eq_true, decide_eq_true_eq]
        constructor
        · rintro ⟨hle, hsame, -, -⟩
          use hle, hsame
        · rintro ⟨hle, hsame⟩
          use hle, hsame, hread.matches_of_le (hsame ▸ href) hle, le_trans hle hseq
  have hseq' : ¬ (spec.snapshotSeq > reader.commitSeq ∧ spec.snapshotSeq ≠ 0) :=
    fun h => absurd h.1 (not_lt.mpr hseq)
  have hevents : reader.readEvents { spec.facts with maxRows := none } =
      .ok (reader.matching spec.facts) := by
    have hvalid' : FactReadSpec.validate { spec.facts with maxRows := none } = .ok () := hvalid
    rw [readEvents, hvalid']
    rfl
  rw [readStateRows, hvalid, if_neg hseq', if_neg (by simp [hmax]), hevents, ← hrows]
  apply run_eq_collect sorter hmax [] []

/-- The rows of a read of the state are those of the references which it is about. -/
theorem mem_flatMap_stateRows_iff {spec : FactReadSpec} (hread : ReadsSnapshot spec snapshotSeq P)
    (hseq : snapshotSeq ≤ reader.commitSeq) (validTime : ValidTime) (row : CanonicalStateRow) :
  (row ∈ (reader.refs spec).flatMap fun ref => stateRows ref
      ((reader.facts.chain ref).boundariesAt snapshotSeq) validTime snapshotSeq) ↔
    ∃ ref, P ref ∧ row ∈ stateRows ref ((reader.facts.chain ref).boundariesAt snapshotSeq)
      validTime snapshotSeq
  := by
  rw [mem_flatMap]
  constructor
  · rintro ⟨ref, href, hrow⟩
    use ref, reader.of_mem_refs hread href
  · rintro ⟨ref, hP, hrow⟩
    use ref
    constructor
    · have hvisible : visible snapshotSeq (reader.facts.chain ref).events ≠ [] := by
        intro hnil
        rw [FactChain.boundariesAt, hnil] at hrow
        cases not_mem_nil hrow
      obtain ⟨event, hevent⟩ := exists_mem_of_ne_nil _ hvisible
      obtain ⟨hchain, hle⟩ := mem_visible.mp hevent
      obtain ⟨hmem, rfl⟩ := reader.facts.mem_chain_iff.mp hchain
      apply Grouping.mem_keys.mpr
      use event
      constructor
      · apply reader.mem_matching_iff.mpr
        use hmem, le_trans hle hseq, hread.matches_of_le hP hle
      · rfl
    · apply hrow

end CanonicalFactReader

end Cedar
