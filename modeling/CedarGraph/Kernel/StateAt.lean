import CedarGraph.Storage.TemporalNeighborhood

/-!
# The state of a fact at an instant

The store reads a fact at an instant by a scan from the instant to earlier boundaries, which stops
at the first event that the snapshot sees.  The canonical reader of a snapshot asks for the state at
an older commit by reading at its own commit, and by dropping what it finds if it is newer.

The main result is when this is the state which the older commit sees: unless a newer commit
corrects or supersedes a fact which the older one sees as present.
-/

namespace Cedar

open List TemporalNeighborhood

namespace FactColumn

/-- The scan of a read, to the first event which the snapshot sees. -/
def readScan (idPrefix : List UInt8) (commitSeq : CommitSeq) :
    List FactEvent → StatusOr (Option FactEvent)
  | [] => .ok none
  | event :: rest =>
      if ¬ idPrefix.isPrefixOf event.encodedKey then
        .ok none
      else do
        let key ← decodeFactKey event.encodedKey
        if key.commitSeq > commitSeq then
          readScan idPrefix commitSeq rest
        else if event.operation = .delete then
          .ok none
        else
          .ok (some event)

/-- The read of a fact at an instant. -/
def read (column : FactColumn) (commitSeq : CommitSeq) (ref : FactRef) (validTime : ValidTime) :
    StatusOr (Option FactEvent) := do
  ref.validate
  let seek := encodeFactKey ref validTime (-1)
  if seek = [] then
    .error ⟨.invalidArgument, "fact read", "invalid fact key"⟩
  else
    readScan (seek.take factIdentityPrefixBytes) commitSeq (column.seek seek)

end FactColumn

/-- The reference which a read of one state is about. -/
def FactReadSpec.exactRef (spec : FactReadSpec) : StatusOr FactRef :=
  match spec.partScope, spec.entityRange with
  | ⟨.exact, [part]⟩, ⟨some min, maxExclusive⟩ =>
      if maxExclusive = some (min + 1) ∨ min = -1 ∧ maxExclusive = none then
        .ok ⟨part, spec.family, spec.propertyId, min⟩
      else
        .error ⟨.invalidArgument, "canonical reader", "state-at requires one exact entity"⟩
  | _, _ => .error ⟨.invalidArgument, "canonical reader", "state-at requires one exact entity"⟩

/-- A snapshot of the store of facts. -/
structure Snapshot where
  facts : FactColumn
  /-- The last commit which the snapshot sees. -/
  commitSeq : CommitSeq

namespace Snapshot

/-- The state of a fact at an instant, as an older commit sees it. -/
def readStateAt (snapshot : Snapshot) (spec : FactReadSpec) (validTime : ValidTime)
    (snapshotSeq : CommitSeq) : StatusOr (Option FactEvent) := do
  spec.validate
  if snapshotSeq > snapshot.commitSeq ∧ snapshotSeq ≠ 0 then
    .error ⟨.invalidArgument, "canonical reader", "requested sequence exceeds snapshot"⟩
  else
    let ref ← spec.exactRef
    let event ← snapshot.facts.read snapshot.commitSeq ref validTime
    -- the read at the commit of the snapshot is not repeated at the older commit
    return event.filter fun event => ¬ (snapshotSeq ≠ 0 ∧ event.commitSeq > snapshotSeq)

end Snapshot

/-! ### The event which governs an instant -/

variable {events : List FactEvent} {t : ValidTime} {event : FactEvent}

/-- The newest of the events at the latest boundary governs the instant. -/
theorem exists_governingEvent_of_mem {snapshotSeq : CommitSeq} (hmem : event ∈ events)
    (hseen : event.commitSeq ≤ snapshotSeq) (hle : event.validFrom ≤ t) :
  ∃ e, GoverningEvent events snapshotSeq t e
  := by
  have hnonempty : (events.filter fun e =>
      e.commitSeq ≤ snapshotSeq ∧ e.validFrom ≤ t).toFinset.Nonempty := by
    use event
    simp [hmem, hseen, hle]
  obtain ⟨e, he, hmax⟩ := Finset.exists_max_image _ FactEvent.chainKey hnonempty
  simp only [mem_toFinset, mem_filter, decide_eq_true_eq] at he hmax
  use e
  refine ⟨he.1, he.2.1, he.2.2, ?_, ?_⟩
  · intro f hf hseen hft
    rcases Prod.Lex.toLex_le_toLex.mp (hmax f ⟨hf, hseen, hft⟩) with hlt | ⟨heq, -⟩
    · apply le_of_lt hlt
    · apply le_of_eq heq
  · intro f hf hseen hsame
    rcases Prod.Lex.toLex_le_toLex.mp (hmax f ⟨hf, hseen, hsame ▸ he.2.2⟩) with hlt | ⟨-, hle⟩
    · cases hlt.ne hsame
    · apply hle

/-- An earlier bound on what governs an instant holds for all visible events up to it. -/
theorem GoverningEvent.forall_iff {snapshotSeq : CommitSeq} (P : ValidTime → Prop)
    (hP : ∀ r s, r ≤ s → P s → P r) :
  (∀ e, GoverningEvent events snapshotSeq t e → P e.validFrom) ↔
    ∀ e ∈ events, e.commitSeq ≤ snapshotSeq → e.validFrom ≤ t → P e.validFrom
  := by
  constructor
  · intro h e he hseen hle
    obtain ⟨event, hevent⟩ := exists_governingEvent_of_mem he hseen hle
    apply hP _ _ (hevent.latest e he hseen hle) (h event hevent)
  · intro h e he
    apply h e he.mem he.visible he.le

/-- What governs an instant at a commit governs it at the older commits which see it. -/
theorem GoverningEvent.of_older {older commitSeq : CommitSeq}
    (h : GoverningEvent events commitSeq t event) (hle : older ≤ commitSeq)
    (hseen : event.commitSeq ≤ older) :
  GoverningEvent events older t event
  where
  mem := h.mem
  visible := hseen
  le := h.le
  latest e he hcommit := h.latest e he (le_trans hcommit hle)
  newest e he hcommit := h.newest e he (le_trans hcommit hle)

namespace FactColumn

section Read

variable {column : FactColumn} {ref : FactRef} {validTime : ValidTime} {commitSeq : CommitSeq}

/-- The scan of a read does not pass the events of the reference. -/
theorem readScan_takeWhile (idPrefix : List UInt8) (events : List FactEvent) :
  readScan idPrefix commitSeq (events.takeWhile fun event =>
      idPrefix.isPrefixOf event.encodedKey) =
    readScan idPrefix commitSeq events
  := by
  induction events with
  | nil => rfl
  | cons event events ih =>
    cases hkey : idPrefix.isPrefixOf event.encodedKey with
    | false => simp [readScan, hkey]
    | true => simp [readScan, hkey, ih]

/-- The scan over the events of a reference finds the first one which the snapshot sees. -/
theorem readScan_eq_ok {events : List FactEvent} (hevents : OfRef ref events) :
  readScan ref.keyBytes commitSeq events =
    .ok ((events.find? fun event => event.commitSeq ≤ commitSeq).filter
      fun event => event.operation = .put)
  := by
  induction events with
  | nil => rfl
  | cons event events ih =>
    obtain ⟨⟨hvalid, href⟩, hevents⟩ := forall_mem_cons.mp hevents
    have hkey := (isPrefixOf_encodedKey_iff hvalid).mpr href
    have hdecode := FactEvent.decodeFactKey_encodedKey hvalid
    rcases le_or_gt event.commitSeq commitSeq with hseen | hnew
    · have hold := not_lt.mpr hseen
      rcases hoperation : event.operation with _ | _
      · simp [readScan, hkey, hdecode, hseen, hoperation, Option.filter]
      · simp [readScan, hdecode, hseen, hoperation, Option.filter]
    · simp [readScan, hkey, hdecode, hnew, ih hevents]

/-- A read finds the first event up to the instant which the snapshot sees. -/
theorem read_eq_ok (href : ref.validate = .ok ()) :
  column.read commitSeq ref validTime =
    .ok (((column.upTo ref validTime).find? fun event => event.commitSeq ≤ commitSeq).filter
      fun event => event.operation = .put)
  := by
  have hseek := @take_seekKey ref validTime href
  have hnonempty : seekKey ref validTime ≠ [] := by
    intro hnil
    rw [hnil] at hseek
    have hlength := congrArg length hseek
    simp [factIdentityPrefixBytes] at hlength
  rw [seekKey] at hseek hnonempty
  rw [read, href, if_neg hnonempty, hseek, ← readScan_takeWhile, ← seekKey, takeWhile_seek href]
  apply readScan_eq_ok
  intro event hevent
  obtain ⟨hmem, hsame, -⟩ := mem_upTo_iff.mp hevent
  use column.valid event hmem

/-- The first event up to the instant which a snapshot sees governs the instant. -/
theorem find?_upTo_eq_some_iff {event : FactEvent} :
  (column.upTo ref validTime).find? (fun event => event.commitSeq ≤ commitSeq) = some event ↔
    GoverningEvent (column.chain ref).events commitSeq validTime event
  := by
  have hgoverns : ∀ event, (column.upTo ref validTime).find?
      (fun event => event.commitSeq ≤ commitSeq) = some event →
        GoverningEvent (column.chain ref).events commitSeq validTime event := by
    intro event hfind
    obtain ⟨hlatest, hnewest⟩ := isGreatest_of_find? hfind
    obtain ⟨hmem, hsame, hle⟩ :=
      mem_upTo_iff.mp (mem_of_find?_eq_some hfind)
    have hseen := find?_some hfind
    refine ⟨mem_chain_iff.mpr ⟨hmem, hsame⟩, of_decide_eq_true hseen, hle, ?_, ?_⟩
    · intro e he hcommit het
      obtain ⟨he, hsame⟩ := mem_chain_iff.mp he
      apply hlatest e (mem_upTo_iff.mpr ⟨he, hsame, het⟩)
      apply decide_eq_true hcommit
    · intro e he hcommit heq
      obtain ⟨he, hsame⟩ := mem_chain_iff.mp he
      apply hnewest e (mem_upTo_iff.mpr ⟨he, hsame, heq ▸ hle⟩) _ heq
      apply decide_eq_true hcommit
  constructor
  · apply hgoverns event
  · intro hevent
    rcases hfind : (column.upTo ref validTime).find? (fun event => event.commitSeq ≤ commitSeq)
      with _ | found
    · obtain ⟨hmem, hsame⟩ := mem_chain_iff.mp hevent.mem
      have hnone := find?_eq_none.mp hfind event
        (mem_upTo_iff.mpr ⟨hmem, hsame, hevent.le⟩)
      cases hnone (decide_eq_true hevent.visible)
    · rw [(hgoverns found hfind).unique (column.chain ref).distinct hevent] at hfind
      apply hfind

end Read

end FactColumn

/-! ### The state at an older commit -/

namespace Snapshot

section ReadStateAt

variable {snapshot : Snapshot} {spec : FactReadSpec} {ref : FactRef} {validTime : ValidTime}
  {snapshotSeq : CommitSeq}

/-- The state which a read returns is the one at the instant of the chain of the reference, as a
commit corrects it. -/
def ReadsState (snapshot : Snapshot) (spec : FactReadSpec) (ref : FactRef)
    (validTime : ValidTime) (snapshotSeq : CommitSeq) : Prop :=
  ∃ found, snapshot.readStateAt spec validTime snapshotSeq = .ok found ∧
    ∀ event, found = some event ↔
      GoverningEvent (snapshot.facts.chain ref).events snapshotSeq validTime event ∧
        event.operation = .put

/-- A read finds the event which governs the instant at the commit of the snapshot, if it is an
assertion which the older commit sees. -/
theorem exists_readStateAt_eq_ok (hspec : spec.validate = .ok ()) (hexact : spec.exactRef = .ok ref)
    (href : ref.validate = .ok ()) (hle : snapshotSeq ≤ snapshot.commitSeq) :
  ∃ found, snapshot.readStateAt spec validTime snapshotSeq = .ok found ∧
    ∀ event, found = some event ↔
      (GoverningEvent (snapshot.facts.chain ref).events snapshot.commitSeq validTime event ∧
        event.operation = .put) ∧ (snapshotSeq ≠ 0 → event.commitSeq ≤ snapshotSeq)
  := by
  have hread := @FactColumn.read_eq_ok snapshot.facts ref validTime snapshot.commitSeq href
  generalize hfound : Option.filter _ _ = found at hread
  use found.filter fun event => ¬ (snapshotSeq ≠ 0 ∧ event.commitSeq > snapshotSeq)
  constructor
  · rw [readStateAt, hspec, StatusOr.ok_bind, if_neg (fun h => not_lt.mpr hle h.1), hexact,
      StatusOr.ok_bind, hread]
    rfl
  · intro event
    rw [Option.filter_eq_some_iff, ← hfound, Option.filter_eq_some_iff,
      FactColumn.find?_upTo_eq_some_iff, decide_eq_true_eq, decide_eq_true_eq, not_and, not_lt]

/-- A read returns the state which an older commit sees, if and only if no newer commit corrects or
supersedes a fact which the older one sees as present; the commit 0 sees nothing, but the read does
not take it as a commit. -/
theorem readsState_iff (hspec : spec.validate = .ok ()) (hexact : spec.exactRef = .ok ref)
    (href : ref.validate = .ok ()) (hle : snapshotSeq ≤ snapshot.commitSeq) :
  snapshot.ReadsState spec ref validTime snapshotSeq ↔
    (snapshotSeq ≠ 0 → ∀ newer older,
      GoverningEvent (snapshot.facts.chain ref).events snapshot.commitSeq validTime newer →
      snapshotSeq < newer.commitSeq →
      GoverningEvent (snapshot.facts.chain ref).events snapshotSeq validTime older →
        older.operation ≠ .put) ∧
    (snapshotSeq = 0 → ∀ event,
      GoverningEvent (snapshot.facts.chain ref).events snapshot.commitSeq validTime event →
        event.operation ≠ .put)
  := by
  have hdistinct := (snapshot.facts.chain ref).distinct
  have hzero : ∀ event,
      ¬ GoverningEvent (snapshot.facts.chain ref).events 0 validTime event := by
    intro event hevent
    apply FactEvent.commitSeq_ne_zero ((snapshot.facts.chain ref).valid event hevent.mem)
    apply UInt64.le_zero_iff.mp hevent.visible
  obtain ⟨found, hread, hfound⟩ :=
    @exists_readStateAt_eq_ok snapshot spec ref validTime snapshotSeq hspec hexact href hle
  constructor
  · rintro ⟨state, hstate, hcorrect⟩
    obtain rfl : found = state := by
      rw [hread] at hstate
      apply Except.ok.inj hstate
    constructor
    · intro hne newer older hnewer hlt holder hput
      obtain ⟨⟨hgoverns, -⟩, -⟩ := (hfound older).mp ((hcorrect older).mpr ⟨holder, hput⟩)
      rw [hnewer.unique hdistinct hgoverns] at hlt
      apply not_lt.mpr holder.visible hlt
    · rintro rfl event hevent hput
      have hsome := (hfound event).mpr ⟨⟨hevent, hput⟩, fun hne => absurd rfl hne⟩
      apply hzero event ((hcorrect event).mp hsome).1
  · rintro ⟨hnewer, hnone⟩
    use found, hread
    intro event
    rw [hfound]
    rcases eq_or_ne snapshotSeq 0 with rfl | hne
    · constructor
      · rintro ⟨⟨hevent, hput⟩, -⟩
        cases hnone rfl event hevent hput
      · rintro ⟨hevent, -⟩
        cases hzero event hevent
    · constructor
      · rintro ⟨⟨hevent, hput⟩, hseen⟩
        apply And.intro (hevent.of_older hle (hseen hne)) hput
      · rintro ⟨hevent, hput⟩
        obtain ⟨newest, hnewest⟩ :=
          exists_governingEvent_of_mem hevent.mem (le_trans hevent.visible hle) hevent.le
        rcases lt_or_ge snapshotSeq newest.commitSeq with hlt | hseen
        · cases hnewer hne newest event hnewest hlt hevent hput
        · obtain rfl := (hnewest.of_older hle hseen).unique hdistinct hevent
          apply And.intro ⟨hnewest, hput⟩
          intro _
          apply hseen

end ReadStateAt

end Snapshot

/-- A read of the state of one vertex. -/
def vertexSpec : FactReadSpec where
  entityRange := ⟨some 1, some 2⟩

/-- A vertex which was created at 3 is there at 8, as the first commit sees it, but a snapshot at
the fifth commit reads that it is not. -/
theorem Snapshot.correctedVertex_not_readsState :
  ¬ Snapshot.ReadsState ⟨correctedVertex, 5⟩ vertexSpec (EntityFact.vertex ⟨0, 1⟩) 8 1
  := by
  rintro ⟨found, hread, hfound⟩
  obtain rfl := Except.ok.inj hread
  have hput := (hfound ⟨EntityFact.vertex ⟨0, 1⟩, 3, 1, .put, 0, none, none⟩).mpr ?_
  · cases hput
  · refine ⟨⟨?_, ?_, ?_, ?_, ?_⟩, rfl⟩ <;> decide +kernel

/-- As the second commit sees it, the vertex is deleted, and so a snapshot reads it. -/
theorem Snapshot.correctedVertex_readsState :
  Snapshot.ReadsState ⟨correctedVertex, 5⟩ vertexSpec (EntityFact.vertex ⟨0, 1⟩) 8 2
  := by
  apply (Snapshot.readsState_iff (by decide) (by decide) (by decide) (by decide)).mpr
  constructor
  · intro _ newer older _ _ holder hput
    have hdelete : GoverningEvent (correctedVertex.chain (EntityFact.vertex ⟨0, 1⟩)).events 2 8
        ⟨EntityFact.vertex ⟨0, 1⟩, 7, 2, .delete, 0, none, none⟩ := by
      refine ⟨?_, ?_, ?_, ?_, ?_⟩ <;> decide +kernel
    rw [holder.unique (correctedVertex.chain _).distinct hdelete] at hput
    cases hput
  · intro hzero
    cases hzero

end Cedar
