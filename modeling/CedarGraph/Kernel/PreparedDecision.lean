import CedarGraph.Kernel.PreparedCommit
import CedarGraph.Storage.CommitFacts

/-!
# Deciding prepared commits

A prepared batch which is not decided stays as it is.  A decision to abort it always takes, and so
does a decision to commit it, as a decision: the other one is refused from then on.  But the commit
itself runs the checks of an ordinary commit only after the decision was written, and nothing makes
sure that it passes them.
-/

namespace Cedar

open DurableState Except List StatusOr StoreCommitBatch UInt64 Subset PreparedStep

/-- A batch as it is prepared: it is valid and depends on nothing. -/
structure StoreCommitBatch.Plain (batch : StoreCommitBatch) : Prop where
  valid : batch.validate = .ok ()
  snapshot : batch.snapshotWriteDependencies = []
  strict : batch.strictReadDependencies = []
  notFresh : batch.freshTransactionId = false

theorem toStorePreparedBatch_plain {batch : PreparedCommitBatch} {stored : StoreCommitBatch}
    (h : toStorePreparedBatch batch = .ok stored) :
  stored.Plain ∧ stored.txnId = batch.txnId
  := by
  obtain ⟨-, h⟩ := guard_eq_ok_iff.mp h
  obtain ⟨events, -, h⟩ := bind_eq_ok_iff.mp h
  obtain ⟨_, hvalid, h⟩ := bind_eq_ok_iff.mp h
  obtain rfl := ok.inj h
  use ⟨hvalid, rfl, rfl, rfl⟩

/-- Without dependencies there is nothing to check. -/
theorem validateSnapshotWriteDependencies_nil
    (sorter : Sorter fun dependency : SnapshotWriteDependency => dependency.ref.storeKey)
    (store : CommitStore) :
  validateSnapshotWriteDependencies sorter store [] = (.ok (), store)
  := by
  have hsort : sorter.sort [] = [] := perm_nil.mp (sorter.perm [])
  rw [validateSnapshotWriteDependencies, pendingDependencies]
  dsimp only
  rw [hsort]
  rfl

/-! ### Commits of one batch -/

namespace DurableState

variable {options : PreparedOptions} {state written : DurableState} {batch : StoreCommitBatch}

variable {commitSeq : CommitSeq} {facts : List ValidFactEvent}

theorem next_ne_zero (h : commitSeq ≠ -1) :
  commitSeq + 1 ≠ 0
  := by
  intro hzero
  have hnext := Word.toNat_add_one h
  rw [hzero] at hnext
  cases hnext

/-- What the commit of one batch does. -/
structure CommittedAs (state : DurableState) (batch : StoreCommitBatch) (written : DurableState) :
    Prop where
  invariant : written.Invariant
  visible : written.store.visibleSeq = state.store.visibleSeq + 1
  facts : ∀ event, event ∈ written.store.facts.events ↔
    event ∈ state.store.facts.events ∨ event ∈ batch.commitFacts (state.store.visibleSeq + 1)
  outcomes : written.transactionOutcomes =
    ⟨batch.txnId, state.store.visibleSeq + 1⟩ :: state.transactionOutcomes
  retention : written.sequenceRetentionWatermark = state.sequenceRetentionWatermark

/-- A group of one batch which depends on nothing is checked. -/
theorem checked_single (hroom : state.store.visibleSeq ≠ -1) (hplain : batch.Plain)
    (hfacts : encodeFacts (batch.commitFacts (state.store.visibleSeq + 1)) = .ok facts) :
  DecidedEpoch.Checked state.store.facts.events
    ⟨state.store.visibleSeq, [⟨batch, state.store.visibleSeq + 1, facts⟩]⟩
  := by
  have hnext := Word.toNat_add_one hroom
  constructor
  · apply pairwise_singleton
  · apply pairwise_singleton
  · intro decided hdecided
    obtain rfl := mem_singleton.mp hdecided
    constructor
    · exact hplain.valid
    · apply map_val_of_encodeFacts hfacts
    · simp [hplain.snapshot]
    · simp [hplain.strict]
  · intro decided hdecided
    obtain rfl := mem_singleton.mp hdecided
    rw [lt_iff_toNat_lt]
    dsimp only
    omega
  · intro decided hdecided
    obtain rfl := mem_singleton.mp hdecided
    dsimp only [length_singleton]
    omega
  · intro _
    have hlt := (state.store.visibleSeq + 1).toNat_lt
    dsimp only [length_singleton]
    omega

/-- A commit which is written is the next one. -/
theorem writeCommit_spec (h : state.Invariant) (hplain : batch.Plain)
    (hwrite : state.writeCommit options batch = .ok (commitSeq, written)) :
  commitSeq = state.store.visibleSeq + 1 ∧ CommittedAs state batch written
  := by
  obtain ⟨hroom, hwrite⟩ := guard_eq_ok_iff.mp hwrite
  obtain ⟨facts, hfacts, hwrite⟩ := bind_eq_ok_iff.mp hwrite
  obtain ⟨record, hrecord, hwrite⟩ := bind_eq_ok_iff.mp hwrite
  obtain ⟨-, hwrite⟩ := guard_eq_ok_iff.mp hwrite
  obtain ⟨store, hstore, hwrite⟩ := bind_eq_ok_iff.mp hwrite
  obtain ⟨rfl, rfl⟩ := Prod.mk.inj (Except.ok.inj hwrite)
  have hchecked := checked_single hroom hplain hfacts
  have hrecords : sequenceRecords [⟨batch, state.store.visibleSeq + 1, facts⟩] =
      .ok [(state.store.visibleSeq + 1, record)] := by
    rw [sequenceRecords, hrecord]
    rfl
  obtain ⟨-, hwrote, -⟩ := writeDecidedGroup_sound h.sound (fun _ => hchecked) hstore
  use rfl
  constructor
  · apply h.write h.sound.cache rfl hchecked hrecords hstore
  · apply UInt64.toNat_inj.mp
    rw [Word.toNat_add_one hroom]
    exact hwrote.visible
  · have hnext := Word.toNat_add_one hroom
    have hcommit := next_ne_zero hroom
    intro event
    constructor
    · intro hevent
      obtain hold | ⟨decided, hdecided, hnew⟩ := hwrote.only event hevent
      · left
        exact hold
      · obtain rfl := mem_singleton.mp hdecided
        right
        exact hnew
    · rintro (hold | hnew)
      · apply hwrote.keeps event hold
      · obtain ⟨other, hother, hkey⟩ :=
          hwrote.present _ (mem_singleton_self _) event hnew
        have hvalid := ofCommit_commitFacts hplain.valid hcommit
        obtain hold | ⟨decided, hdecided, hfact⟩ := hwrote.only other hother
        · -- an old fact has an earlier commit
          have hsame := (FactEvent.encodedKey_inj (state.store.facts.valid other hold)
            (hvalid event hnew).1).mp hkey
          have hle := le_iff_toNat_le.mp (h.sound.visible other hold)
          rw [hsame.2.2, (hvalid event hnew).2] at hle
          omega
        · obtain rfl := mem_singleton.mp hdecided
          have hnodup : ((batch.commitFacts (state.store.visibleSeq + 1)).map
              FactEvent.encodedKey).Nodup :=
            pairwise_map.mpr (pairwise_commitFacts hplain.valid hcommit)
          obtain rfl := inj_on_of_nodup_map hnodup hfact hnew hkey
          exact hother
  · rfl
  · rfl

/-- When a commit can be written. -/
theorem writeCommit_isOk_iff (hplain : batch.Plain) :
  (∃ result, state.writeCommit options batch = .ok result) ↔
    state.store.visibleSeq ≠ -1 ∧ batch.recordBytes ≤ maxMetaPayloadBytes ∧
      options.writeFits batch = true
  := by
  rw [writeCommit]
  by_cases hroom : state.store.visibleSeq = -1
  · simp [hroom]
  · have hcommit := next_ne_zero hroom
    obtain ⟨facts, hfacts⟩ := exists_encodeFacts fun event hevent =>
      (ofCommit_commitFacts hplain.valid hcommit event hevent).1
    have hrecord := sequenceRecord_isOk_iff hplain.valid hcommit hfacts
    rw [if_neg hroom]
    dsimp only
    rw [hfacts, ok_bind, ← hrecord]
    constructor
    · rintro ⟨result, hresult⟩
      obtain ⟨record, hrecord, hresult⟩ := bind_eq_ok_iff.mp hresult
      use hroom, ⟨record, hrecord⟩
      split at hresult
      · cases hresult
      case isFalse hfits => simpa using hfits
    · rintro ⟨-, ⟨record, hrecord⟩, hfits⟩
      rw [hrecord, ok_bind, if_neg (by simp [hfits]), CommitStore.writeDecidedGroup,
        if_neg (not_not.mpr rfl)]
      exact ⟨_, rfl⟩

end DurableState

/-! ### Commits of prepared batches -/

namespace PreparedDatabase

variable {options : PreparedOptions} {db : PreparedDatabase} {batch : StoreCommitBatch}
  {txnId other : TxnId}

/-- A prepared batch passes the checks of its commit. -/
structure CanCommit (options : PreparedOptions) (db : PreparedDatabase) (batch : StoreCommitBatch) :
    Prop where
  fits : options.fits batch = true
  uncommitted : db.state.outcome batch.txnId = none
  identities : validateEdgeIdentitiesForCommit db.state.store.facts batch = .ok ()
  room : db.state.store.visibleSeq ≠ -1
  record : batch.recordBytes ≤ maxMetaPayloadBytes
  writeFits : options.writeFits batch = true

/-- A prepared batch commits if it passes the checks, and otherwise nothing changes. -/
theorem commitDirect_cases (h : db.state.Invariant) (hplain : batch.Plain)
    (hlookup : db.lookup batch.txnId = some batch) :
  (CanCommit options db batch ∧ ∃ written, CommittedAs db.state batch written ∧
      db.commitDirect options batch = (.ok (db.state.store.visibleSeq + 1),
        ({ db with state := written } : PreparedDatabase).erase batch.txnId)) ∨
    (¬ CanCommit options db batch ∧ (db.commitDirect options batch).2 = db)
  := by
  rw [commitDirect, hplain.valid]
  dsimp only
  split
  case isTrue hfits =>
    right
    use fun hcan => by simp [hcan.fits] at hfits
  case isFalse hfits =>
    rw [hlookup]
    dsimp only
    rw [if_neg (not_not.mpr rfl), hplain.notFresh]
    split
    case h_1 outcome houtcome =>
      right
      use fun hcan => by simp [hcan.uncommitted] at houtcome
    case h_2 houtcome =>
      rw [hplain.snapshot, validateSnapshotWriteDependencies_nil, hplain.strict]
      rw [ok_bind, validateStrictReadDependencies, ok_bind]
      split
      case h_1 status hstatus =>
        right
        refine ⟨?_, rfl⟩
        intro hcan
        obtain ⟨result, hresult⟩ := (writeCommit_isOk_iff hplain).mpr
          ⟨hcan.room, hcan.record, hcan.writeFits⟩
        rw [hcan.identities, hresult] at hstatus
        cases hstatus
      case h_2 commitSeq written hwritten =>
        left
        obtain ⟨_, hidentities, hwritten⟩ := bind_eq_ok_iff.mp hwritten
        obtain ⟨rfl, hcommitted⟩ := writeCommit_spec h hplain hwritten
        obtain ⟨hroom, hrecord, hwriteFits⟩ :=
          (writeCommit_isOk_iff hplain).mp ⟨_, hwritten⟩
        use ⟨by simpa using hfits, houtcome, hidentities, hroom, hrecord, hwriteFits⟩
        use written, hcommitted

/-! ### Decisions -/

theorem lookup_erase_self :
  (db.erase txnId).lookup txnId = none
  := by
  rw [lookup]
  simp [erase]

theorem lookup_erase_of_ne (h : other ≠ txnId) :
  (db.erase txnId).lookup other = db.lookup other
  := by
  rw [lookup, erase, find?_filter]
  congr
  funext batch
  by_cases hother : batch.txnId = other
  · simp [hother, h]
  · simp [hother]

theorem of_lookup (h : db.lookup txnId = some batch) :
  batch ∈ db.prepared ∧ batch.txnId = txnId
  := by
  use mem_of_find?_eq_some h
  simpa using find?_some h

/-- A decision is written, and everything else is as before. -/
structure Decides (db : PreparedDatabase) (decision : PreparedDecision)
    (decided : PreparedDatabase) : Prop where
  state : decided.state = db.state
  prepared : decided.prepared = db.prepared
  resolved : decided.resolvePreparedDecision decision.txnId = some decision
  others : ∀ txnId ≠ decision.txnId,
    decided.resolvePreparedDecision txnId = db.resolvePreparedDecision txnId
  /-- There was no other decision before. -/
  same : ∀ terminal ∈ db.resolvePreparedDecision decision.txnId, terminal = decision

/-- The certificate can be written. -/
def Acceptable (certificate : List UInt8) : Prop :=
  certificate ≠ [] ∧ certificate.length ≤ maxCertificateBytes

variable {decided prepared : PreparedDatabase} {decision : PreparedDecision}
  {given : PreparedCommitBatch}

/-- The answer to a decision: it is refused, or it stands and is carried out. -/
def answer {α : Type} (db : PreparedDatabase) (decision : PreparedDecision)
    (carryOut : PreparedDatabase → StatusOr α × PreparedDatabase) : StatusOr α × PreparedDatabase :=
  if decision.txnId = 0 ∨ decision.certificate = [] then
    (Status.invalidArgument "prepared commit" "invalid terminal decision", db)
  else
    match db.resolvePreparedDecision decision.txnId with
    | some terminal =>
        if terminal ≠ decision then
          (Status.conflict "prepared commit" "terminal certificate differs", db)
        else
          carryOut db
    | none =>
        match db.persistPreparedDecision decision with
        | .error status => (.error status, db)
        | .ok decided => carryOut decided

theorem finalize_eq_answer (options : PreparedOptions) (db : PreparedDatabase) (txnId : TxnId)
    (certificate : List UInt8) :
  db.finalizePreparedCommit options txnId certificate =
    db.answer ⟨txnId, .commit, certificate⟩ (carryOut options · txnId)
  := rfl

theorem abort_eq_answer (db : PreparedDatabase) (txnId : TxnId) (certificate : List UInt8) :
  db.abortPreparedCommit txnId certificate =
    db.answer ⟨txnId, .abort, certificate⟩ fun decided => (.ok (), decided.storeAbort txnId)
  := rfl

/-- A decision is refused or stands.  One about a pending batch stands if its certificate can be
written. -/
theorem answer_cases {α : Type} (db : PreparedDatabase) (decision : PreparedDecision)
    (carryOut : PreparedDatabase → StatusOr α × PreparedDatabase) :
  (∃ status, db.answer decision carryOut = (.error status, db) ∧
      (db.resolvePreparedDecision decision.txnId = none →
        ¬ (decision.txnId ≠ 0 ∧ Acceptable decision.certificate ∧
          (db.lookup decision.txnId).isSome = true))) ∨
    ∃ decided, db.answer decision carryOut = carryOut decided ∧ Decides db decision decided ∧
      (db.resolvePreparedDecision decision.txnId = none → Acceptable decision.certificate)
  := by
  rw [answer]
  split
  case isTrue hbad =>
    left
    refine ⟨_, rfl, ?_⟩
    rintro - ⟨htxn, hacceptable, -⟩
    obtain hbad | hbad := hbad
    · exact htxn hbad
    · exact hacceptable.1 hbad
  · cases hresolve : db.resolvePreparedDecision decision.txnId with
    | some terminal =>
      dsimp only
      split
      · left
        exact ⟨_, rfl, nofun⟩
      case isFalse hsame =>
        obtain rfl := not_not.mp hsame
        right
        refine ⟨db, rfl, ⟨rfl, rfl, hresolve, fun _ _ => rfl, ?_⟩, nofun⟩
        simp [hresolve]
    | none =>
      dsimp only
      split
      case h_1 status hpersist =>
        left
        refine ⟨_, rfl, ?_⟩
        rintro - ⟨htxn, ⟨hne, hle⟩, hsome⟩
        rw [persistPreparedDecision, if_neg (by simp [htxn, hne, hle]), hresolve] at hpersist
        simp [Option.isNone_iff_eq_none, Option.isSome_iff_ne_none.mp hsome] at hpersist
      case h_2 decided hpersist =>
        right
        obtain ⟨hgood, hpersist⟩ := guard_eq_ok_iff.mp hpersist
        rw [hresolve] at hpersist
        obtain ⟨-, hpersist⟩ := guard_eq_ok_iff.mp hpersist
        obtain rfl := ok.inj hpersist
        push Not at hgood
        refine ⟨_, rfl, ⟨rfl, rfl, by simp [resolvePreparedDecision], ?_, by simp [hresolve]⟩,
          fun _ => hgood.2⟩
        intro txnId hne
        simp [resolvePreparedDecision, hne.symm]

/-! ### Runs -/

/-- What holds for every database which is reached from an empty one. -/
structure Invariant (db : PreparedDatabase) : Prop where
  state : db.state.Invariant
  plain : ∀ batch ∈ db.prepared, batch.Plain

theorem Decides.lookup_eq (h : Decides db decision decided) (txnId : TxnId) :
  decided.lookup txnId = db.lookup txnId
  := by
  rw [lookup, lookup, h.prepared]

theorem Decides.invariant (h : Decides db decision decided) (hdb : db.Invariant) :
  decided.Invariant
  := by
  constructor
  · rw [h.state]
    exact hdb.state
  · rw [h.prepared]
    exact hdb.plain

/-- The outcomes stay, and nothing is pruned. -/
structure Grows (state state' : DurableState) : Prop where
  outcomes : state.transactionOutcomes ⊆ state'.transactionOutcomes
  retention : state'.sequenceRetentionWatermark = state.sequenceRetentionWatermark

theorem Grows.refl (state : DurableState) :
  Grows state state
  := ⟨Subset.refl _, rfl⟩

/-- Other transactions stay prepared or decided as they are. -/
def Leaves (txnId : TxnId) (db db' : PreparedDatabase) : Prop :=
  ∀ other ≠ txnId, db'.lookup other = db.lookup other ∧
    db'.resolvePreparedDecision other = db.resolvePreparedDecision other

theorem Invariant.erase (h : db.Invariant) (txnId : TxnId) :
  (db.erase txnId).Invariant
  := by
  use h.state
  intro batch hbatch
  apply h.plain batch (mem_filter.mp hbatch).1

/-- What a decision to commit does. -/
theorem Invariant.finalize (h : db.Invariant) (options : PreparedOptions) (txnId : TxnId)
    (certificate : List UInt8) :
  (db.finalizePreparedCommit options txnId certificate).2.Invariant ∧
    Grows db.state (db.finalizePreparedCommit options txnId certificate).2.state ∧
    Leaves txnId db (db.finalizePreparedCommit options txnId certificate).2
  := by
  rw [finalize_eq_answer]
  obtain ⟨status, heq, -⟩ | ⟨decided, heq, hdecides, -⟩ := answer_cases db _ _
  · rw [heq]
    use h, Grows.refl _
    intro _ _
    use rfl
  · rw [heq]
    have hdecided := hdecides.invariant h
    have hleaves : Leaves txnId db decided :=
      fun other hne => ⟨hdecides.lookup_eq other, hdecides.others other hne⟩
    rw [carryOut, ← hdecides.state]
    split
    case h_1 batch hlookup =>
      obtain ⟨hmem, rfl⟩ := of_lookup hlookup
      obtain ⟨-, written, hcommitted, heq⟩ | ⟨-, heq⟩ :=
        @commitDirect_cases options decided batch hdecided.state (hdecided.plain batch hmem) hlookup
      · rw [heq]
        have hwritten : ({ decided with state := written } : PreparedDatabase).Invariant :=
          ⟨hcommitted.invariant, hdecided.plain⟩
        use hwritten.erase _
        constructor
        · constructor
          · rw [PreparedDatabase.erase, hcommitted.outcomes]
            apply subset_cons_self
          · exact hcommitted.retention
        · intro other hne
          rw [lookup_erase_of_ne hne]
          apply hleaves other hne
      · rw [heq]
        exact ⟨hdecided, Grows.refl _, hleaves⟩
    · exact ⟨hdecided, Grows.refl _, hleaves⟩

/-- What a decision to abort does. -/
theorem Invariant.abort (h : db.Invariant) (txnId : TxnId) (certificate : List UInt8) :
  (db.abortPreparedCommit txnId certificate).2.Invariant ∧
    Grows db.state (db.abortPreparedCommit txnId certificate).2.state ∧
    Leaves txnId db (db.abortPreparedCommit txnId certificate).2
  := by
  rw [abort_eq_answer]
  obtain ⟨status, heq, -⟩ | ⟨decided, heq, hdecides, -⟩ := answer_cases db _ _
  · rw [heq]
    use h, Grows.refl _
    intro _ _
    use rfl
  · rw [heq]
    have hdecided := hdecides.invariant h
    have haborted : ({ decided with state := decided.state.step (.abort txnId) } :
        PreparedDatabase).Invariant := ⟨hdecided.state.step (.abort txnId), hdecided.plain⟩
    use haborted.erase txnId
    constructor
    · rw [← hdecides.state]
      exact ⟨refl _, rfl⟩
    · intro other hne
      rw [storeAbort, lookup_erase_of_ne hne]
      use hdecides.lookup_eq other, hdecides.others other hne

/-- A batch is prepared, and everything else is as before. -/
theorem persist_spec (h : db.persistPreparedCommit options given = .ok prepared) :
  ∃ stored, toStorePreparedBatch given = .ok stored ∧ prepared.state = db.state ∧
    prepared.decisions = db.decisions ∧ db.resolvePreparedDecision given.txnId = none ∧
    given.txnId ≠ 0 ∧ prepared.lookup given.txnId = some stored ∧
    (prepared.prepared = db.prepared ∨
      prepared.prepared = stored :: db.prepared ∧ db.lookup given.txnId = none)
  := by
  obtain ⟨hzero, h⟩ := guard_eq_ok_iff.mp h
  obtain ⟨hterminal, h⟩ := guard_eq_ok_iff.mp h
  obtain ⟨stored, hstored, h⟩ := bind_eq_ok_iff.mp h
  have htxn := (toStorePreparedBatch_plain hstored).2
  have hnone : db.resolvePreparedDecision given.txnId = none := by
    simpa using hterminal
  use stored, hstored
  obtain ⟨-, h⟩ := guard_eq_ok_iff.mp h
  rw [htxn] at h
  split at h
  case h_1 existing hlookup =>
    split at h
    case isTrue hsame =>
      obtain rfl := ok.inj h
      rw [hsame] at hlookup
      refine ⟨rfl, rfl, hnone, hzero, hlookup, Or.inl rfl⟩
    · cases h
  case h_2 hlookup =>
    obtain ⟨-, h⟩ := guard_eq_ok_iff.mp h
    obtain rfl := ok.inj h
    refine ⟨rfl, rfl, hnone, hzero, ?_, Or.inr ⟨rfl, hlookup⟩⟩
    simp [lookup, htxn]

theorem Invariant.persist (hdb : db.Invariant)
    (h : db.persistPreparedCommit options given = .ok prepared) :
  prepared.Invariant
  := by
  obtain ⟨stored, hstored, hstate, -, -, -, -, hprepared⟩ := persist_spec h
  constructor
  · rw [hstate]
    exact hdb.state
  · obtain heq | ⟨heq, -⟩ := hprepared
    · rw [heq]
      exact hdb.plain
    · rw [heq, forall_mem_cons]
      use (toStorePreparedBatch_plain hstored).1, hdb.plain

/-- A step keeps the invariant. -/
theorem Invariant.step (h : db.Invariant) (options : PreparedOptions) (step : PreparedStep) :
  (db.step options step).Invariant
  := by
  cases step with
  | durable step => exact ⟨h.state.step step, h.plain⟩
  | persist batch =>
    rw [PreparedDatabase.step]
    split
    · exact h
    case h_2 hpersist => apply h.persist hpersist
  | finalize txnId certificate => exact (h.finalize options txnId certificate).1
  | abort txnId certificate => exact (h.abort txnId certificate).1

theorem Invariant.run (h : db.Invariant) (options : PreparedOptions) (steps : List PreparedStep) :
  (db.run options steps).Invariant
  := by
  induction steps generalizing db with
  | nil => exact h
  | cons step steps ih =>
    apply ih
    apply h.step

/-- An operation on the store which does not prune keeps the outcomes. -/
theorem grows_durable (state : DurableState) (step : DurableStep)
    (h : prunes (.durable step) = false) :
  Grows state (state.step step)
  := by
  cases step with
  | commit options limit queue =>
    rw [DurableState.step, DurableState.commit]
    split
    · apply Grows.refl
    · split
      · constructor
        · apply subset_append_right
        · rfl
      · apply Grows.refl
  | abort txnId => exact ⟨refl _, rfl⟩
  | beginVacuum oldestReadable | reopen options sizes =>
    rw [DurableState.step]
    split <;> exact ⟨refl _, rfl⟩
  | vacuumBatch maxKeys =>
    rw [DurableState.step]
    split
    · apply Grows.refl
    · split <;> exact ⟨refl _, rfl⟩
  | pruneWatermark => cases h
  | pruneBatch keysPerBatch => cases h

/-! ### What stays -/

/-- A batch is prepared and not decided. -/
structure Pending (db : PreparedDatabase) (batch : StoreCommitBatch) : Prop where
  prepared : db.lookup batch.txnId = some batch
  undecided : db.resolvePreparedDecision batch.txnId = none

/-- A step which does not decide a transaction keeps its decision, and it keeps what is prepared of
the transaction, unless that is the first there is. -/
theorem step_of_not_decides (hdb : db.Invariant) {step : PreparedStep}
    (hstep : step.decides txnId = false) :
  (db.step options step).resolvePreparedDecision txnId = db.resolvePreparedDecision txnId ∧
    ((db.step options step).lookup txnId = db.lookup txnId ∨
      db.lookup txnId = none ∧ db.resolvePreparedDecision txnId = none)
  := by
  cases step with
  | durable step => exact ⟨rfl, .inl rfl⟩
  | persist given =>
    rw [PreparedDatabase.step]
    split
    · exact ⟨rfl, .inl rfl⟩
    case h_2 prepared hpersist =>
      obtain ⟨stored, hstored, -, hdecisions, hnone, -, -, hprepared⟩ := persist_spec hpersist
      rw [resolvePreparedDecision, hdecisions]
      refine ⟨rfl, ?_⟩
      obtain heq | ⟨heq, hlookup⟩ := hprepared
      · left
        rw [lookup, lookup, heq]
      · by_cases hsame : given.txnId = txnId
        · right
          exact hsame ▸ ⟨hlookup, hnone⟩
        · left
          rw [lookup, heq, find?_cons_of_neg]
          · rfl
          · simpa [(toStorePreparedBatch_plain hstored).2] using hsame
  | finalize decided certificate =>
    obtain ⟨hlookup, hresolve⟩ := (hdb.finalize options decided certificate).2.2 txnId
      (ne_comm.mp (of_decide_eq_false hstep))
    exact ⟨hresolve, .inl hlookup⟩
  | abort decided certificate =>
    obtain ⟨hlookup, hresolve⟩ := (hdb.abort decided certificate).2.2 txnId
      (ne_comm.mp (of_decide_eq_false hstep))
    exact ⟨hresolve, .inl hlookup⟩

/-- A batch stays pending until it is decided. -/
theorem Pending.step (h : db.Pending batch) (hdb : db.Invariant) {step : PreparedStep}
    (hstep : step.decides batch.txnId = false) :
  (db.step options step).Pending batch
  := by
  obtain ⟨hresolve, hlookup | ⟨hnone, -⟩⟩ := @step_of_not_decides options _ _ hdb _ hstep
  · exact ⟨hlookup.trans h.prepared, hresolve.trans h.undecided⟩
  · cases h.prepared.symm.trans hnone

theorem Pending.run (h : db.Pending batch) (hdb : db.Invariant) {steps : List PreparedStep}
    (hsteps : ∀ step ∈ steps, step.decides batch.txnId = false) :
  (db.run options steps).Pending batch
  := by
  induction steps generalizing db with
  | nil => exact h
  | cons step steps ih =>
    obtain ⟨hstep, hsteps⟩ := forall_mem_cons.mp hsteps
    apply ih (h.step hdb hstep) (hdb.step options step) hsteps

/-- A transaction is decided and no longer prepared. -/
structure Terminal (db : PreparedDatabase) (decision : PreparedDecision) : Prop where
  resolved : db.resolvePreparedDecision decision.txnId = some decision
  gone : db.lookup decision.txnId = none

section Terminal

variable {decision : PreparedDecision} {certificate : List UInt8}

/-- Another decision is refused. -/
theorem Terminal.answer_refused {α : Type} {outcome : PreparedDecisionOutcome}
    {carryOut : PreparedDatabase → StatusOr α × PreparedDatabase} (h : db.Terminal decision)
    (hne : ⟨decision.txnId, outcome, certificate⟩ ≠ decision) :
  ∃ status, db.answer ⟨decision.txnId, outcome, certificate⟩ carryOut = (.error status, db)
  := by
  obtain ⟨status, heq, -⟩ | ⟨decided, -, hdecides, -⟩ := answer_cases db _ carryOut
  · exact ⟨status, heq⟩
  · cases hne (hdecides.same decision h.resolved).symm

/-- A decision stays. -/
theorem Terminal.step (h : db.Terminal decision) (hdb : db.Invariant) (step : PreparedStep) :
  (db.step options step).Terminal decision
  := by
  by_cases hstep : step.decides decision.txnId = false
  · obtain ⟨hresolve, hlookup | ⟨-, hnone⟩⟩ := @step_of_not_decides options _ _ hdb _ hstep
    · exact ⟨hresolve.trans h.resolved, hlookup.trans h.gone⟩
    · cases h.resolved.symm.trans hnone
  · have hstays {outcome certificate decided}
        (hdecides : Decides db ⟨decision.txnId, outcome, certificate⟩ decided) :
        decided.Terminal decision := by
      have hresolved := hdecides.resolved
      rw [← hdecides.same decision h.resolved] at hresolved
      exact ⟨hresolved, (hdecides.lookup_eq _).trans h.gone⟩
    cases step with
    | durable step | persist given => cases hstep rfl
    | finalize txnId certificate =>
      obtain rfl : txnId = decision.txnId := by simpa [decides] using hstep
      rw [PreparedDatabase.step, finalize_eq_answer]
      obtain ⟨status, heq, -⟩ | ⟨decided, heq, hdecides, -⟩ := answer_cases db _ _
      · rw [heq]
        exact h
      · -- nothing is prepared which could be committed
        rw [heq, carryOut, (hstays hdecides).gone]
        exact hstays hdecides
    | abort txnId certificate =>
      obtain rfl : txnId = decision.txnId := by simpa [decides] using hstep
      rw [PreparedDatabase.step, abort_eq_answer]
      obtain ⟨status, heq, -⟩ | ⟨decided, heq, hdecides, -⟩ := answer_cases db _ _
      · rw [heq]
        exact h
      · rw [heq]
        exact ⟨(hstays hdecides).resolved, lookup_erase_self⟩

theorem Terminal.run (h : db.Terminal decision) (hdb : db.Invariant) (steps : List PreparedStep) :
  (db.run options steps).Terminal decision
  := by
  induction steps generalizing db with
  | nil => exact h
  | cons step steps ih => apply ih (h.step hdb step) (hdb.step options step)

end Terminal

/-- Without pruning a run keeps the outcomes. -/
theorem Invariant.grows (hdb : db.Invariant) {steps : List PreparedStep}
    (hsteps : ∀ step ∈ steps, step.prunes = false) :
  Grows db.state (db.run options steps).state
  := by
  induction steps generalizing db with
  | nil => apply Grows.refl
  | cons step steps ih =>
    obtain ⟨hstep, hsteps⟩ := forall_mem_cons.mp hsteps
    have hrest := ih (hdb.step options step) hsteps
    have hfirst : Grows db.state (db.step options step).state := by
      cases step with
      | durable step => exact grows_durable db.state step hstep
      | persist given =>
        rw [PreparedDatabase.step]
        split
        · apply Grows.refl
        case h_2 prepared hpersist =>
          obtain ⟨-, -, hstate, -⟩ := persist_spec hpersist
          rw [hstate]
          apply Grows.refl
      | finalize txnId certificate => exact (hdb.finalize options txnId certificate).2.1
      | abort txnId certificate => exact (hdb.abort txnId certificate).2.1
    exact ⟨Subset.trans hfirst.outcomes hrest.outcomes, hrest.retention.trans hfirst.retention⟩

/-! ### Repetitions -/

variable {outcome : TransactionOutcomeRecord}

/-- The record of a retained outcome is there. -/
theorem sequence_of_outcome (h : db.state.Invariant)
    (houtcome : outcome ∈ db.state.transactionOutcomes)
    (hretained : max 1 db.state.sequenceRetentionWatermark ≤ outcome.commitSeq) :
  ∃ record keys, db.state.sequence outcome.commitSeq = some record ∧
    decodeSequenceRecordView record outcome.commitSeq =
      .ok ⟨outcome.commitSeq, outcome.txnId, keys⟩
  := by
  obtain ⟨entry, hentry, hcommit, htxn⟩ := h.retained outcome houtcome hretained
  obtain ⟨keys, hdecode, -⟩ := h.records entry hentry
  rw [hcommit, htxn] at hdecode
  use entry.2, keys
  refine ⟨?_, hdecode⟩
  -- the records have different commits
  obtain ⟨low, -, -, hkeys, -⟩ := h.contiguous
  have hnodup : (db.state.sequences.map fun entry => entry.1.toNat).Nodup := by
    rw [hkeys]
    exact nodup_range'
  have hsome : (db.state.sequences.find? fun entry => entry.1 = outcome.commitSeq).isSome := by
    apply find?_isSome.mpr
    use entry, hentry
    simpa using hcommit
  obtain ⟨found, hfound⟩ := Option.isSome_iff_exists.mp hsome
  have hsame : found.1 = outcome.commitSeq := by simpa using find?_some hfound
  obtain rfl := inj_on_of_nodup_map hnodup (mem_of_find?_eq_some hfound) hentry
    (by rw [hsame, hcommit])
  rw [DurableState.sequence, hfound]
  rfl

/-- A decision which was carried out is answered with the last commit of the transaction. -/
theorem finalize_again_iff (hdb : db.Invariant) {certificate : List UInt8} {commitSeq : CommitSeq}
    (htxn : txnId ≠ 0) (hcertificate : certificate ≠ [])
    (hterminal : db.Terminal ⟨txnId, .commit, certificate⟩)
    (houtcome : ⟨txnId, commitSeq⟩ ∈ db.state.transactionOutcomes)
    (hretained : max 1 db.state.sequenceRetentionWatermark ≤ commitSeq) :
  db.finalizePreparedCommit options txnId certificate =
      (.ok (toCommitResult txnId (.ok commitSeq)), db) ↔
    ∀ outcome ∈ db.state.transactionOutcomes, outcome.txnId = txnId →
      outcome.commitSeq ≤ commitSeq
  := by
  have hanswer : db.finalizePreparedCommit options txnId certificate =
      db.carryOut options txnId := by
    rw [finalizePreparedCommit, if_neg (by simp [htxn, hcertificate])]
    rw [hterminal.resolved]
    dsimp only
    rw [if_neg (not_not.mpr rfl)]
  have hsome : (db.state.outcome txnId).isSome := by
    apply find?_isSome.mpr
    use ⟨txnId, commitSeq⟩, houtcome
    simp
  obtain ⟨last, hlast⟩ := Option.isSome_iff_exists.mp hsome
  have hmem := mem_of_find?_eq_some hlast
  have hsame : last.txnId = txnId := by simpa using find?_some hlast
  have hmatches : OutcomeMatches db.state (last.txnId, last.commitSeq) := by
    change db.state.outcome last.txnId = some last
    rw [hsame]
    exact hlast
  have hall := (hdb.state.outcomeMatches_iff hmem).mp hmatches
  rw [hsame] at hall
  have hle := hall _ houtcome rfl
  have hresolved : db.resolveTransaction txnId = .ok (some last.commitSeq) := by
    obtain ⟨record, keys, hrecord, hdecode⟩ := sequence_of_outcome hdb.state hmem (le_trans hretained hle)
    rw [resolveTransaction, if_neg htxn, hlast]
    dsimp only
    rw [if_neg (not_lt.mpr (hdb.state.outcome_le last hmem)),
      if_neg (not_lt.mpr (le_trans (le_max_right _ _) (le_trans hretained hle))), hrecord]
    dsimp only
    rw [hdecode, ok_bind, if_neg]
    · rfl
    · simp [hsame]
  rw [hanswer, carryOut, hterminal.gone]
  rw [hresolved, ok_bind]
  constructor
  · intro heq
    have hcommit : last.commitSeq = commitSeq :=
      congrArg CommitResult.commitSeq (ok.inj (Prod.mk.inj heq).1)
    rw [← hcommit]
    exact hall
  · intro hnone
    rw [le_antisymm (hnone last hmem hsame) hle]

/-! ### Deciding either way -/

/-- The database some steps after a decision to commit. -/
def afterFinalize (options : PreparedOptions) (db : PreparedDatabase) (txnId : TxnId)
    (certificate : List UInt8) (after : List PreparedStep) : PreparedDatabase :=
  (db.finalizePreparedCommit options txnId certificate).2.run options after

/-- The database some steps after a decision to abort. -/
def afterAbort (options : PreparedOptions) (db : PreparedDatabase) (txnId : TxnId)
    (certificate : List UInt8) (after : List PreparedStep) : PreparedDatabase :=
  (db.abortPreparedCommit txnId certificate).2.run options after

/-- A decision to commit a batch makes its facts visible at one new commit.  After some steps the
same decision is answered with this commit, and other ones are refused. -/
structure FinalizesOnce (options : PreparedOptions) (db : PreparedDatabase)
    (batch : StoreCommitBatch) (certificate : List UInt8) (after : List PreparedStep) : Prop where
  committed : (db.finalizePreparedCommit options batch.txnId certificate).1 =
    .ok (toCommitResult batch.txnId (.ok (db.state.store.visibleSeq + 1)))
  visible : (db.finalizePreparedCommit options batch.txnId certificate).2.state.store.visibleSeq =
    db.state.store.visibleSeq + 1
  facts : ∀ event, event ∈
      (db.finalizePreparedCommit options batch.txnId certificate).2.state.store.facts.events ↔
    event ∈ db.state.store.facts.events ∨
      event ∈ batch.commitFacts (db.state.store.visibleSeq + 1)
  repeated : (db.afterFinalize options batch.txnId certificate after).finalizePreparedCommit options
      batch.txnId certificate =
    (.ok (toCommitResult batch.txnId (.ok (db.state.store.visibleSeq + 1))),
      db.afterFinalize options batch.txnId certificate after)
  finalizeRefused : ∀ other ≠ certificate, ∃ status,
    (db.afterFinalize options batch.txnId certificate after).finalizePreparedCommit options
        batch.txnId other =
      (.error status, db.afterFinalize options batch.txnId certificate after)
  abortRefused : ∀ other, ∃ status,
    (db.afterFinalize options batch.txnId certificate after).abortPreparedCommit batch.txnId other =
      (.error status, db.afterFinalize options batch.txnId certificate after)

/-- A decision to abort a batch changes no facts.  After some steps the batch is gone, and every
decision to commit it is refused and changes nothing. -/
structure AbortsForGood (options : PreparedOptions) (db : PreparedDatabase)
    (batch : StoreCommitBatch) (certificate : List UInt8) (after : List PreparedStep) : Prop where
  aborted : (db.abortPreparedCommit batch.txnId certificate).1 = .ok ()
  facts : (db.abortPreparedCommit batch.txnId certificate).2.state.store = db.state.store
  gone : (db.afterAbort options batch.txnId certificate after).lookup batch.txnId = none
  finalizeRefused : ∀ other, ∃ status,
    (db.afterAbort options batch.txnId certificate after).finalizePreparedCommit options
        batch.txnId other =
      (.error status, db.afterAbort options batch.txnId certificate after)

section Pending

variable {certificate : List UInt8} {after : List PreparedStep}

/-- A decision about a pending batch stands if its certificate can be written. -/
theorem Pending.answer_cases {α : Type} {outcome : PreparedDecisionOutcome} (h : db.Pending batch)
    (htxn : batch.txnId ≠ 0) (carryOut : PreparedDatabase → StatusOr α × PreparedDatabase) :
  (∃ status, db.answer ⟨batch.txnId, outcome, certificate⟩ carryOut = (.error status, db) ∧
      ¬ Acceptable certificate) ∨
    ∃ decided, Decides db ⟨batch.txnId, outcome, certificate⟩ decided ∧ Acceptable certificate ∧
      db.answer ⟨batch.txnId, outcome, certificate⟩ carryOut = carryOut decided
  := by
  obtain ⟨status, heq, hbad⟩ | ⟨decided, heq, hdecides, hacceptable⟩ :=
    PreparedDatabase.answer_cases db ⟨batch.txnId, outcome, certificate⟩ carryOut
  · left
    use status, heq
    intro hacceptable
    apply hbad h.undecided ⟨htxn, hacceptable, _⟩
    rw [h.prepared]
    rfl
  · right
    use decided, hdecides, hacceptable h.undecided

/-- A pending batch can be aborted for good. -/
theorem Pending.abortsForGood_iff (h : db.Pending batch) (hdb : db.Invariant)
    (htxn : batch.txnId ≠ 0) :
  AbortsForGood options db batch certificate after ↔ Acceptable certificate
  := by
  obtain ⟨status, heq, hbad⟩ | ⟨decided, hdecides, hacceptable, heq⟩ :=
    @Pending.answer_cases db batch certificate _ .abort h htxn fun decided =>
      (.ok (), decided.storeAbort batch.txnId)
  all_goals rw [← abort_eq_answer] at heq
  · constructor
    · intro haborts
      have haborted := haborts.aborted
      rw [heq] at haborted
      cases haborted
    · intro hacceptable
      cases hbad hacceptable
  · refine ⟨fun _ => hacceptable, fun _ => ?_⟩
    have hterminal : (db.abortPreparedCommit batch.txnId certificate).2.Terminal
        ⟨batch.txnId, .abort, certificate⟩ := by
      rw [heq]
      exact ⟨hdecides.resolved, lookup_erase_self⟩
    have hlater := @Terminal.run options _ _ hterminal (hdb.abort batch.txnId certificate).1 after
    constructor
    · rw [heq]
    · rw [heq]
      change decided.state.store = db.state.store
      rw [hdecides.state]
    · exact hlater.gone
    · intro other
      rw [finalize_eq_answer]
      apply hlater.answer_refused
      intro hsame
      cases congrArg PreparedDecision.outcome hsame

theorem CanCommit.of_state_eq {db' : PreparedDatabase} (h : CanCommit options db batch)
    (heq : db'.state = db.state) :
  CanCommit options db' batch
  := by
  obtain ⟨hfits, huncommitted, hidentities, hroom, hrecord, hwriteFits⟩ := h
  rw [← heq] at huncommitted hidentities hroom
  exact ⟨hfits, huncommitted, hidentities, hroom, hrecord, hwriteFits⟩

/-- What a decision to commit a pending batch comes to. -/
theorem Pending.finalize_eq (h : db.Pending batch) (hdb : db.Invariant) (htxn : batch.txnId ≠ 0) :
  (Acceptable certificate ∧ CanCommit options db batch ∧
      (db.finalizePreparedCommit options batch.txnId certificate).1 =
        .ok (toCommitResult batch.txnId (.ok (db.state.store.visibleSeq + 1))) ∧
      CommittedAs db.state batch
        (db.finalizePreparedCommit options batch.txnId certificate).2.state ∧
      (db.finalizePreparedCommit options batch.txnId certificate).2.Terminal
        ⟨batch.txnId, .commit, certificate⟩) ∨
    (¬ (Acceptable certificate ∧ CanCommit options db batch) ∧
      (db.finalizePreparedCommit options batch.txnId certificate).2.state = db.state)
  := by
  obtain ⟨status, heq, hbad⟩ | ⟨decided, hdecides, hacceptable, heq⟩ :=
    @Pending.answer_cases db batch certificate _ .commit h htxn (carryOut options · batch.txnId)
  all_goals rw [← finalize_eq_answer] at heq
  · right
    rw [heq]
    use fun hall => hbad hall.1
  · have hlookup := (hdecides.lookup_eq batch.txnId).trans h.prepared
    have hdecided := hdecides.invariant hdb
    have hplain := hdb.plain batch (of_lookup h.prepared).1
    rw [heq, carryOut, hlookup]
    dsimp only
    obtain ⟨hcan, written, hcommitted, hresult⟩ | ⟨hcannot, hresult⟩ :=
      @commitDirect_cases options decided batch hdecided.state hplain hlookup
    · left
      rw [hdecides.state] at hcommitted hresult
      rw [hresult]
      refine ⟨hacceptable, hcan.of_state_eq hdecides.state.symm, rfl, hcommitted, ?_⟩
      exact ⟨hdecides.resolved, lookup_erase_self⟩
    · right
      rw [hresult]
      use fun hall => hcannot (hall.2.of_state_eq hdecides.state), hdecides.state

/-- A pending batch can be committed exactly if its certificate can be written, its commit passes the
checks, and no later commit takes its number. -/
theorem Pending.finalizesOnce_iff (h : db.Pending batch) (hdb : db.Invariant)
    (htxn : batch.txnId ≠ 0) (hafter : ∀ step ∈ after, step.prunes = false) :
  FinalizesOnce options db batch certificate after ↔
    Acceptable certificate ∧ CanCommit options db batch ∧
      ∀ outcome ∈
          (db.afterFinalize options batch.txnId certificate after).state.transactionOutcomes,
        outcome.txnId = batch.txnId → outcome.commitSeq ≤ db.state.store.visibleSeq + 1
  := by
  obtain ⟨hacceptable, hcan, hcommitted, hwritten, hterminal⟩ | ⟨hbad, hsame⟩ :=
    @Pending.finalize_eq options db batch certificate h hdb htxn
  · have hfinalized := (hdb.finalize options batch.txnId certificate).1
    have hlater := @Terminal.run options _ _ hterminal hfinalized after
    have hgrows := @Invariant.grows options _ hfinalized after hafter
    have houtcome : ⟨batch.txnId, db.state.store.visibleSeq + 1⟩ ∈
        (db.afterFinalize options batch.txnId certificate after).state.transactionOutcomes := by
      apply hgrows.outcomes
      rw [hwritten.outcomes]
      apply mem_cons_self
    have hretained : max 1 (db.afterFinalize options batch.txnId certificate
        after).state.sequenceRetentionWatermark ≤ db.state.store.visibleSeq + 1 := by
      have hnext := Word.toNat_add_one hcan.room
      have hle := le_iff_toNat_le.mp
        (le_trans hdb.state.retention_le hdb.state.oldest_le)
      rw [afterFinalize, hgrows.retention, hwritten.retention]
      apply max_le
      · rw [le_iff_toNat_le, toNat_one]
        omega
      · rw [le_iff_toNat_le]
        omega
    have hagain := @finalize_again_iff options _ batch.txnId (hfinalized.run options after)
      certificate _ htxn hacceptable.1 hlater houtcome hretained
    constructor
    · intro honce
      use hacceptable, hcan, hagain.mp honce.repeated
    · rintro ⟨-, -, hunused⟩
      constructor
      · exact hcommitted
      · exact hwritten.visible
      · exact hwritten.facts
      · exact hagain.mpr hunused
      · intro other hne
        rw [finalize_eq_answer]
        apply hlater.answer_refused
        intro heq
        apply hne (congrArg PreparedDecision.certificate heq)
      · intro other
        rw [abort_eq_answer]
        apply hlater.answer_refused
        intro heq
        cases congrArg PreparedDecision.outcome heq
  · constructor
    · intro honce
      -- the visible commit did not move
      have hvisible := honce.visible
      rw [hsame] at hvisible
      simp at hvisible
    · rintro ⟨hacceptable, hcan, -⟩
      cases hbad ⟨hacceptable, hcan⟩

end Pending

/-- A new database. -/
def empty (sizes : ValidationSizes) : PreparedDatabase where
  state := .empty sizes

theorem invariant_empty (sizes : ValidationSizes) :
  (empty sizes).Invariant
  := by
  use DurableState.invariant_empty sizes
  intro batch hbatch
  cases hbatch

/-- However a database is used and opened again, its sequence records have the numbers up to the
visible commit without a gap, from the retention watermark or an earlier one on.  They can be read,
and the facts of those which are readable are stored. -/
theorem records_contiguous_run (options : PreparedOptions) (sizes : ValidationSizes)
    (steps : List PreparedStep) :
  let state := ((empty sizes).run options steps).state
  (∃ low, 1 ≤ low ∧ low ≤ max 1 state.sequenceRetentionWatermark.toNat ∧
      state.sequences.map (fun entry => entry.1.toNat) =
        range' low (state.store.visibleSeq.toNat + 1 - low)) ∧
    ∀ entry ∈ state.sequences, RecordOk state.store.facts state.oldestReadableSeq entry
  := by
  intro state
  have h : state.Invariant := ((invariant_empty sizes).run options steps).state
  obtain ⟨low, hpos, hlow, hnumbers, hlast⟩ := h.contiguous
  refine ⟨⟨low, hpos, hlow, ?_⟩, h.records⟩
  rw [hnumbers, ← hlast, Nat.add_sub_cancel_left]

/-- From the retention watermark on, the outcome which is stored for a transaction is the one of a
sequence record, and the outcome of every record is stored exactly if no number was used again. -/
theorem outcomes_recorded_run (options : PreparedOptions) (sizes : ValidationSizes)
    (steps : List PreparedStep) :
  let state := ((empty sizes).run options steps).state
  (∀ txnId, ∀ outcome ∈ state.outcome txnId,
      max 1 state.sequenceRetentionWatermark ≤ outcome.commitSeq →
        ∃ entry ∈ state.sequences, entry.1 = outcome.commitSeq ∧ entry.2.txnId = txnId) ∧
    ((∀ entry ∈ state.sequences, max 1 state.sequenceRetentionWatermark ≤ entry.1 →
        state.outcome entry.2.txnId = some ⟨entry.2.txnId, entry.1⟩) ↔
      NoReuse state)
  := by
  intro state
  have h : state.Invariant := ((invariant_empty sizes).run options steps).state
  constructor
  · intro txnId outcome houtcome hretained
    obtain ⟨entry, hentry, hcommit, hsame⟩ := h.retained outcome (mem_of_find?_eq_some houtcome)
      hretained
    use entry, hentry, hcommit
    rw [Option.mem_def, DurableState.outcome] at houtcome
    have htxn := find?_some houtcome
    apply hsame.trans (of_decide_eq_true htxn)
  · apply h.outcomeMatches_retained_iff

/-- A batch which was prepared can be decided either way, after any steps which do not decide it,
exactly if the certificate can be written, the commit passes the checks of an ordinary one, and no
later commit takes its number. -/
theorem persistPreparedCommit_decided_iff (options : PreparedOptions) (sizes : ValidationSizes)
    (before between after : List PreparedStep) (given : PreparedCommitBatch)
    (certificate : List UInt8) {prepared : PreparedDatabase}
    (hprepared : ((empty sizes).run options before).persistPreparedCommit options given =
      .ok prepared)
    (hbetween : ∀ step ∈ between, step.decides given.txnId = false)
    (hafter : ∀ step ∈ after, step.prunes = false) :
  ∃ batch, toStorePreparedBatch given = .ok batch ∧
    (FinalizesOnce options (prepared.run options between) batch certificate after ∧
        AbortsForGood options (prepared.run options between) batch certificate after ↔
      Acceptable certificate ∧ CanCommit options (prepared.run options between) batch ∧
        ∀ outcome ∈ ((prepared.run options between).afterFinalize options batch.txnId certificate
            after).state.transactionOutcomes,
          outcome.txnId = batch.txnId →
            outcome.commitSeq ≤ (prepared.run options between).state.store.visibleSeq + 1)
  := by
  have hdb := ((invariant_empty sizes).run options before).persist hprepared
  obtain ⟨batch, hbatch, -, hdecisions, hundecided, hzero, hlookup, -⟩ := persist_spec hprepared
  have htxn := (toStorePreparedBatch_plain hbatch).2
  rw [← htxn] at hundecided hzero hlookup hbetween
  have hpending : prepared.Pending batch := by
    use hlookup
    rw [resolvePreparedDecision, hdecisions]
    exact hundecided
  have hpending' := @Pending.run options _ batch hpending hdb between hbetween
  have hdb' := hdb.run options between
  use batch, hbatch
  rw [hpending'.finalizesOnce_iff hdb' hzero hafter, hpending'.abortsForGood_iff hdb' hzero]
  constructor
  · rintro ⟨honce, -⟩
    exact honce
  · intro hall
    exact ⟨hall, hall.1⟩

/-- Everything fits. -/
def roomyOptions : PreparedOptions where
  sorter := Sorter.insertion _
  fits _ := true
  writeFits _ := true
  recordFits _ := true

def smallSizes : ValidationSizes := ⟨2, 2, 16, 2, 64, false⟩

/-- A batch which asserts an edge and does not say what it joins. -/
def unknownEdge : PreparedCommitBatch where
  txnId := 7
  systemHlc := 1
  events := [{ ref := EntityFact.edge ⟨0, 1⟩, validFrom := 5, commitSeq := 1, operation := .put }]

/-- The edge is prepared, but the decision to commit it only aborts it, and it can no longer be
decided to abort. -/
theorem unknownEdge_not_finalizesOnce :
  ∃ prepared batch, (empty smallSizes).persistPreparedCommit roomyOptions unknownEdge =
      .ok prepared ∧ toStorePreparedBatch unknownEdge = .ok batch ∧
    (prepared.finalizePreparedCommit roomyOptions 7 [1]).1 =
      .ok ⟨.aborted, 0, 7, Status.invalidArgument "commit" "first edge assertion requires identity"⟩ ∧
    ((prepared.finalizePreparedCommit roomyOptions 7 [1]).2.abortPreparedCommit 7 [1]).1 =
      Status.conflict "prepared commit" "terminal certificate differs" ∧
    ¬ FinalizesOnce roomyOptions prepared batch [1] []
  := by
  refine ⟨_, _, rfl, rfl, by decide +kernel, by decide +kernel, ?_⟩
  intro honce
  have hcommitted := honce.committed
  revert hcommitted
  decide +kernel

/-- A batch which creates a vertex. -/
def newVertex : PreparedCommitBatch where
  txnId := 7
  systemHlc := 1
  events := [{ ref := EntityFact.vertex ⟨0, 1⟩, validFrom := 5, commitSeq := 1, operation := .put }]

theorem newVertex_decided :
  ∃ prepared batch, (empty smallSizes).persistPreparedCommit roomyOptions newVertex =
      .ok prepared ∧ toStorePreparedBatch newVertex = .ok batch ∧
    FinalizesOnce roomyOptions prepared batch [1] [] ∧ AbortsForGood roomyOptions prepared batch [1] []
  := by
  refine ⟨_, _, rfl, rfl, ?_⟩
  obtain ⟨batch, hbatch, hiff⟩ := persistPreparedCommit_decided_iff roomyOptions smallSizes [] [] []
    newVertex [1] rfl (by simp) (by simp)
  obtain rfl := ok.inj hbatch
  apply hiff.mpr
  refine ⟨⟨by simp, by decide⟩, ⟨rfl, rfl, by decide +kernel, by decide +kernel, by decide, rfl⟩, ?_⟩
  decide +kernel

end PreparedDatabase

end Cedar
