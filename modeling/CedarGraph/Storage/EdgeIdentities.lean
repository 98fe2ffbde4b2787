import CedarGraph.Storage.CommitFacts
import CedarGraph.Storage.CommitIsolation

/-!
# Identities of edges

The first commit which asserts an edge states its identity: the endpoints and the type.  Other commits
may state it again, but not a different one.  The identity is also kept in a record of its own, which
every commit that states it overwrites.

A batch is validated against the facts which are there before its group, so within a group the
conflict index has to keep different identities of an edge apart.
-/

namespace Cedar

open DecidedEpoch FactColumn FactEvent List StatusOr StoreCommitBatch EdgeIdentity

/-- The reference of the facts which state the identity of an edge. -/
def EdgeRef.identityFact (edge : EdgeRef) : FactRef :=
  ⟨edge.homePartId, .edgeIdentity, 0, edge.edgeId⟩

theorem EdgeRef.identityFact_inj {e f : EdgeRef} :
  e.identityFact = f.identityFact ↔ e = f
  := by
  constructor
  · intro h
    obtain ⟨part, edge⟩ := e
    obtain ⟨rfl, -, -, rfl⟩ := h
    rfl
  · rintro rfl
    rfl

/-- A reference of the family has no property. -/
theorem FactRef.eq_identityFact {ref : FactRef} (hvalid : ref.validate = .ok ())
    (hfamily : ref.family = .edgeIdentity) :
  ref = EdgeRef.identityFact ⟨ref.partId, ref.entityId⟩
  := by
  obtain ⟨part, family, property, entity⟩ := ref
  subst hfamily
  rw [validate] at hvalid
  split at hvalid
  · cases hvalid
  obtain ⟨hproperty, hvalid⟩ := guard_eq_ok_iff.mp hvalid
  have hzero : property = 0 := by
    simpa [isStateFamily] using hproperty
  rw [hzero]
  rfl

/-- A valid fact of the family states the identity of its edge, from the beginning on. -/
theorem FactEvent.exists_identity {event : FactEvent} (hvalid : event.validate = .ok ())
    (hfamily : event.ref.family = .edgeIdentity) :
  event.validFrom = 0 ∧ event.operation = .put ∧
    ∃ identity, event.edgeIdentity = some identity ∧ event.ref = identity.edgeRef.identityFact
  := by
  have href := (validate_ref hvalid)
  rw [validate] at hvalid
  split at hvalid
  · cases hvalid
  obtain ⟨_, -, hidentity⟩ := bind_eq_ok_iff.mp hvalid
  obtain ⟨hplain, hidentity⟩ := guard_eq_ok_iff.mp hidentity
  push Not at hplain
  refine ⟨hplain.1, hplain.2.1, ?_⟩
  split at hidentity
  · cases hidentity
  case h_2 identity hsome =>
    obtain ⟨hedge, hidentity⟩ := guard_eq_ok_iff.mp hidentity
    rw [not_not] at hedge
    refine ⟨identity, hsome, ?_⟩
    rw [hedge]
    exact FactRef.eq_identityFact href hfamily

/-! ### The newest identity -/

section Latest

variable {facts : FactColumn} {edge : EdgeRef} {event : FactEvent} {identity : EdgeIdentity}

/-- What an iterator finds first: the first fact whose key is not less. -/
theorem FactColumn.of_seek_eq_cons {key : List UInt8} {rest : List FactEvent}
    (h : facts.seek key = event :: rest) :
  event ∈ facts.events ∧ ¬ event.encodedKey < key ∧
    ∀ other ∈ facts.events, ¬ other.encodedKey < key →
      other = event ∨ event.encodedKey < other.encodedKey
  := by
  rw [seek] at h
  have hsublist := dropWhile_sublist (fun event : FactEvent => event.encodedKey < key)
    (l := facts.events)
  have hsorted := facts.sorted.sublist hsublist
  have hhead := head?_dropWhile_not (fun event : FactEvent => event.encodedKey < key)
    facts.events
  have hsplit := takeWhile_append_dropWhile
    (p := fun event : FactEvent => event.encodedKey < key) (l := facts.events)
  rw [h] at hsublist hsorted hhead hsplit
  refine ⟨hsublist.subset mem_cons_self, by simpa using hhead, ?_⟩
  intro other hother hge
  rw [← hsplit, mem_append] at hother
  rcases hother with hother | hother
  · have hlt := mem_takeWhile_imp hother
    exact (hge (of_decide_eq_true hlt)).elim
  · rcases mem_cons.mp hother with rfl | hother
    · exact Or.inl rfl
    · exact Or.inr ((pairwise_cons.mp hsorted).1 other hother)

/-- The newest fact of an edge is read. -/
theorem exists_latest_of_mem (hmem : event ∈ facts.events) (href : event.ref = edge.identityFact) :
  ∃ latest ∈ facts.events, latest.ref = edge.identityFact ∧
    readLatestEdgeIdentity facts edge = latest.edgeIdentity
  := by
  have hvalid := facts.valid event hmem
  have hrefValid := validate_ref hvalid
  rw [href] at hrefValid
  have hseek : ¬ event.encodedKey < encodeFactKey edge.identityFact 0 (-1) := by
    obtain ⟨htime, -, -⟩ := exists_identity hvalid (by rw [href]; rfl)
    rw [encodedKey, href, htime, encodeFactKey_lt_iff hrefValid
      (commitSeq_ne_zero hvalid) hrefValid (by decide)]
    simp only [lt_self_iff_false, false_or, true_and]
    exact not_lt.mpr (Word.le_neg_one _)
  cases hfound : facts.seek (encodeFactKey edge.identityFact 0 (-1)) with
  | nil =>
    have hall := dropWhile_eq_nil_iff.mp hfound event hmem
    cases hseek (of_decide_eq_true hall)
  | cons latest rest =>
    obtain ⟨hlatest, hge, hfirst⟩ := of_seek_eq_cons hfound
    have hlatestValid := facts.valid latest hlatest
    have hlatestRef : latest.ref = edge.identityFact := by
      rcases hfirst event hmem hseek with rfl | hlt
      · exact href
      · rw [encodedKey_lt_iff hlatestValid hvalid, href] at hlt
        rw [encodedKey, encodeFactKey_lt_iff (validate_ref hlatestValid)
          (commitSeq_ne_zero hlatestValid) hrefValid (by decide)] at hge
        tauto
    refine ⟨latest, hlatest, hlatestRef, ?_⟩
    obtain ⟨-, hput, -⟩ :=
      exists_identity hlatestValid (by rw [hlatestRef]; rfl)
    rw [readLatestEdgeIdentity, ← EdgeRef.identityFact, hfound]
    dsimp only
    rw [if_pos ((TemporalNeighborhood.isPrefixOf_encodedKey_iff hlatestValid).mpr hlatestRef),
      if_neg (by rw [hput]; decide)]

/-- Whatever is read is stated by a fact. -/
theorem exists_mem_of_readLatest (h : readLatestEdgeIdentity facts edge = some identity) :
  ∃ event ∈ facts.events, event.ref = edge.identityFact ∧ event.edgeIdentity = some identity
  := by
  rw [readLatestEdgeIdentity] at h
  split at h
  · cases h
  case h_2 event rest hfound =>
    have hmem := (of_seek_eq_cons hfound).1
    split at h
    case isTrue hprefix =>
      rw [TemporalNeighborhood.isPrefixOf_encodedKey_iff (facts.valid event hmem)] at hprefix
      split at h
      · cases h
      · exact ⟨event, hmem, hprefix, h⟩
    · cases h

end Latest

/-! ### Settled identities -/

/-- The records of the identities, after those of some batches have been put. -/
def putIdentityRecords (records : EdgeRef → Option EdgeIdentity) (identities : List EdgeIdentity) :
    EdgeRef → Option EdgeIdentity :=
  identities.foldl (fun records identity => Function.update records identity.edgeRef (some identity))
    records

/-- Every edge has one identity at most, which is stated before the edge is asserted and which its
record has. -/
structure IdentitiesSettled (events : List FactEvent) (records : EdgeRef → Option EdgeIdentity) :
    Prop where
  immutable : ∀ event ∈ events, ∀ other ∈ events, event.ref.family = .edgeIdentity →
    other.ref = event.ref → other.edgeIdentity = event.edgeIdentity
  stated : ∀ event ∈ events, event.ref.family = .edgeState → event.operation = .put →
    ∃ other ∈ events, other.ref = EdgeRef.identityFact ⟨event.ref.partId, event.ref.entityId⟩ ∧
      other.commitSeq ≤ event.commitSeq
  recorded : ∀ event ∈ events, event.ref.family = .edgeIdentity →
    records ⟨event.ref.partId, event.ref.entityId⟩ = event.edgeIdentity

section Records

variable {records : EdgeRef → Option EdgeIdentity} {identities : List EdgeIdentity} {edge : EdgeRef}
  {identity : EdgeIdentity}

/-- Another edge keeps its record. -/
theorem putIdentityRecords_of_forall_ne
    (hother : ∀ identity ∈ identities, identity.edgeRef ≠ edge) :
  putIdentityRecords records identities edge = records edge
  := by
  induction identities generalizing records with
  | nil => rfl
  | cons identity identities ih =>
    rw [forall_mem_cons] at hother
    exact (ih hother.2).trans (Function.update_of_ne hother.1.symm _ _)

/-- An edge whose identity is put has it in its record. -/
theorem putIdentityRecords_of_mem (hdistinct : (identities.map edgeRef).Nodup)
    (hmem : identity ∈ identities) :
  putIdentityRecords records identities identity.edgeRef = some identity
  := by
  induction identities generalizing records with
  | nil => cases hmem
  | cons first identities ih =>
    rw [map_cons, nodup_cons] at hdistinct
    rcases mem_cons.mp hmem with rfl | hmem
    · have hother : ∀ other ∈ identities, other.edgeRef ≠ identity.edgeRef := by
        intro other hother hsame
        exact hdistinct.1 (hsame ▸ mem_map_of_mem hother)
      exact (putIdentityRecords_of_forall_ne hother).trans (Function.update_self _ _ _)
    · exact ih hdistinct.2 hmem

end Records

/-! ### Groups -/

/-- The identities which a group states. -/
def DecidedEpoch.identities (epoch : DecidedEpoch) : List EdgeIdentity :=
  epoch.decided.flatMap fun decided => decided.batch.edgeIdentities

/-- What a decision finds out about the identities in a group. -/
structure DecidedEpoch.EdgesChecked (facts : FactColumn) (epoch : DecidedEpoch) : Prop where
  validated : ∀ decided ∈ epoch.decided,
    validateEdgeIdentitiesForCommit facts decided.batch = .ok ()
  distinct : (epoch.identities.map EdgeIdentity.edgeRef).Nodup

section Groups

variable {store store' : CommitStore} {epoch : DecidedEpoch} {facts : FactColumn}
  {batch : StoreCommitBatch} {options : GroupOptions}

/-- What the check of the identities in a batch says. -/
theorem of_validateEdgeIdentitiesForCommit
    (h : validateEdgeIdentitiesForCommit facts batch = .ok ()) :
  (∀ mutation ∈ batch.mutations, mutation.ref.family = .edgeState → mutation.operation = .put →
    readLatestEdgeIdentity facts ⟨mutation.ref.partId, mutation.ref.entityId⟩ = none →
      ∃ identity ∈ batch.edgeIdentities,
        identity.edgeRef = ⟨mutation.ref.partId, mutation.ref.entityId⟩) ∧
    ∀ identity ∈ batch.edgeIdentities, ∀ known,
      readLatestEdgeIdentity facts identity.edgeRef = some known → known = identity
  := by
  obtain ⟨hfirst, h⟩ := guard_eq_ok_iff.mp h
  obtain ⟨hsame, h⟩ := guard_eq_ok_iff.mp h
  constructor
  · intro mutation hmem hfamily hput hnone
    by_contra hmissing
    apply hfirst
    rw [any_eq_true]
    refine ⟨mutation, hmem, ?_⟩
    simp only [edgeRef, EdgeRef.mk.injEq, not_exists, not_and] at hmissing
    simp only [hfamily, hput, hnone, Option.isNone_none, any_eq_true,
      decide_eq_true_eq, not_exists, not_and, true_and]
    exact hmissing
  · intro identity hmem known hknown
    by_contra hother
    apply hsame
    rw [any_eq_true]
    refine ⟨identity, hmem, ?_⟩
    rw [hknown]
    simpa using hother

variable {event : FactEvent} {decided : DecidedBatch}

/-- What is in the facts after a group: old facts, mutations and identities. -/
theorem mem_commitFacts_iff {commitSeq : CommitSeq} :
  event ∈ batch.commitFacts commitSeq ↔
    (∃ mutation ∈ batch.mutations,
      event = ⟨mutation.ref, mutation.validFrom, commitSeq, mutation.operation,
        mutation.schemaEpoch, mutation.value, none⟩) ∨
      ∃ identity ∈ batch.edgeIdentities,
        event = ⟨identity.edgeRef.identityFact, 0, commitSeq, .put, 0, none, some identity⟩
  := by
  rw [commitFacts, mem_append, mem_map, mem_map]
  simp only [eq_comm]
  rfl

variable {events : List FactEvent} {records : EdgeRef → Option EdgeIdentity}
  {transactionIds : List TxnId}

/-- An identity fact which a group writes states an identity of the group. -/
theorem DecidedEpoch.Checked.exists_identity (hchecked : epoch.Checked events)
    (hdecided : decided ∈ epoch.decided)
    (hfact : event ∈ decided.batch.commitFacts decided.commitSeq)
    (hfamily : event.ref.family = .edgeIdentity) :
  ∃ identity ∈ decided.batch.edgeIdentities, event.edgeIdentity = some identity ∧
    event.ref = identity.edgeRef.identityFact
  := by
  rcases mem_commitFacts_iff.mp hfact with ⟨mutation, hmem, rfl⟩ | ⟨identity, hmem, rfl⟩
  · have hvalid := (hchecked.checked decided hdecided).valid
    cases (exists_mutation_of_validate hvalid).1 mutation hmem hfamily
  · exact ⟨identity, hmem, rfl, rfl⟩

/-- A group which states an identity states the one which the facts have already. -/
theorem DecidedEpoch.EdgesChecked.eq_of_mem (hedges : epoch.EdgesChecked facts)
    (hsettled : IdentitiesSettled facts.events records) {identity : EdgeIdentity}
    (hidentity : identity ∈ epoch.identities) (hevent : event ∈ facts.events)
    (href : event.ref = identity.edgeRef.identityFact) :
  event.edgeIdentity = some identity
  := by
  obtain ⟨decided, hdecided, hmem⟩ := mem_flatMap.mp hidentity
  obtain ⟨latest, hlatest, hlatestRef, hread⟩ := exists_latest_of_mem hevent href
  obtain ⟨-, -, known, hknown, -⟩ :=
    exists_identity (facts.valid latest hlatest) (by rw [hlatestRef]; rfl)
  rw [hknown] at hread
  have hsame := (of_validateEdgeIdentitiesForCommit (hedges.validated decided hdecided)).2 identity
    hmem known hread
  rw [hsettled.immutable latest hlatest event hevent (by rw [hlatestRef]; rfl)
    (href.trans hlatestRef.symm), hknown, hsame]

/-- A fact which a group writes is there, up to what else it says. -/
theorem Wrote.exists_fact (hwrote : Wrote store epoch store') (hchecked : epoch.Checked events)
    (hdecided : decided ∈ epoch.decided)
    (hfact : event ∈ decided.batch.commitFacts decided.commitSeq) :
  ∃ other ∈ store'.facts.events, other.ref = event.ref ∧ other.commitSeq = event.commitSeq
  := by
  have hvalid : event.validate = .ok () := by
    rw [← (hchecked.checked decided hdecided).facts] at hfact
    obtain ⟨fact, -, rfl⟩ := mem_map.mp hfact
    exact fact.property
  obtain ⟨other, hother, hkey⟩ := hwrote.present decided hdecided event hfact
  obtain ⟨href, -, hcommit⟩ :=
    (encodedKey_inj (store'.facts.valid other hother) hvalid).mp hkey
  exact ⟨other, hother, href, hcommit⟩

/-- A group which is written leaves the identities settled. -/
theorem IdentitiesSettled.write (hsettled : IdentitiesSettled store.facts.events records)
    (hsound : store.Sound) (hchecked : epoch.Checked store.facts.events)
    (hedges : epoch.EdgesChecked store.facts) (hwrote : Wrote store epoch store')
    (habove : ∀ decided ∈ epoch.decided, store.visibleSeq < decided.commitSeq) :
  IdentitiesSettled store'.facts.events (putIdentityRecords records epoch.identities)
  := by
  -- the records say what the facts say now, whether the group states the identity or not
  have hrecorded : ∀ event ∈ store'.facts.events, event.ref.family = .edgeIdentity →
      putIdentityRecords records epoch.identities ⟨event.ref.partId, event.ref.entityId⟩ =
        event.edgeIdentity := by
    intro event hevent hfamily
    have href := FactRef.eq_identityFact (validate_ref (store'.facts.valid event hevent)) hfamily
    rcases hwrote.only event hevent with hold | ⟨decided, hdecided, hfact⟩
    · by_cases hstated : ∃ identity ∈ epoch.identities,
          identity.edgeRef = ⟨event.ref.partId, event.ref.entityId⟩
      · obtain ⟨identity, hidentity, hedge⟩ := hstated
        rw [← hedge] at href
        rw [hedges.eq_of_mem hsettled hidentity hold href, ← hedge]
        exact putIdentityRecords_of_mem hedges.distinct hidentity
      · push Not at hstated
        rw [putIdentityRecords_of_forall_ne hstated]
        exact hsettled.recorded event hold hfamily
    · obtain ⟨identity, hidentity, hsome, hidentityRef⟩ :=
        hchecked.exists_identity hdecided hfact hfamily
      rw [hsome, EdgeRef.identityFact_inj.mp (href.symm.trans hidentityRef)]
      apply putIdentityRecords_of_mem hedges.distinct
      exact mem_flatMap.mpr ⟨decided, hdecided, hidentity⟩
  refine ⟨?_, ?_, hrecorded⟩
  · intro event hevent other hother hfamily href
    rw [← hrecorded event hevent hfamily, ← hrecorded other hother (by rw [href]; exact hfamily),
      href]
  · intro event hevent hfamily hput
    rcases hwrote.only event hevent with hbefore | ⟨decided, hdecided, hfact⟩
    · obtain ⟨other, hother, href, hle⟩ := hsettled.stated event hbefore hfamily hput
      exact ⟨other, hwrote.keeps other hother, href, hle⟩
    · rcases mem_commitFacts_iff.mp hfact with ⟨mutation, hmem, rfl⟩ | ⟨identity, hmem, rfl⟩
      · dsimp only at hfamily hput ⊢
        cases hread : readLatestEdgeIdentity store.facts ⟨mutation.ref.partId, mutation.ref.entityId⟩ with
        | none =>
          obtain ⟨identity, hidentity, hedge⟩ := (of_validateEdgeIdentitiesForCommit
            (hedges.validated decided hdecided)).1 mutation hmem hfamily hput hread
          obtain ⟨other, hother, href, hcommit⟩ := hwrote.exists_fact hchecked hdecided
            (mem_commitFacts_iff.mpr (Or.inr ⟨identity, hidentity, rfl⟩))
          rw [← hedge]
          exact ⟨other, hother, href, hcommit.le⟩
        | some known =>
          obtain ⟨other, hother, href, -⟩ := exists_mem_of_readLatest hread
          refine ⟨other, hwrote.keeps other hother, href, ?_⟩
          exact (lt_of_le_of_lt (hsound.visible other hother) (habove decided hdecided)).le
      · cases hfamily

/-- The batches of a group state identities of different edges. -/
theorem CommitConflictIndex.pairwise_select_edges {index : CommitConflictIndex} (limit : Nat)
    (queue : List StoreCommitBatch) :
  (index.select limit queue).Pairwise fun earlier later => ∀ identity ∈ earlier.edgeIdentities,
    ∀ other ∈ later.edgeIdentities, identity.edgeRef ≠ other.edgeRef
  := by
  apply (pairwise_select _ limit queue).1
  intro index later earlier hinsert identity hidentity other hother hsame
  simp only [canInsert, Bool.and_eq_true, Bool.not_eq_true', containsAny_eq_false_iff,
    buildCommitFootprint, forall_mem_map] at hinsert
  apply hinsert.2 other hother
  rw [edgeRef, edgeRef, EdgeRef.mk.injEq] at hsame
  apply mem_append_left
  exact mem_map.mpr ⟨identity, hidentity, by rw [hsame.1, hsame.2]⟩

/-- A group which is decided has passed the check of its identities. -/
theorem CommitStore.decideAndEncodeGroup_edges {limit : Nat} {queue : List StoreCommitBatch}
    (hstore : store.Sound)
    (h : store.decideAndEncodeGroup options (CommitConflictIndex.select {} limit queue) =
      .ok (store', epoch)) :
  epoch.EdgesChecked store.facts
  := by
  obtain ⟨result, hresult, h⟩ := bind_eq_ok_iff.mp h
  obtain ⟨rfl, rfl⟩ := Prod.mk.inj (Except.ok.inj h)
  obtain ⟨-, hpassed, hedges⟩ := decideBatches_sound hstore hresult
  refine ⟨hedges, ?_⟩
  rw [identities, Nodup, pairwise_map, pairwise_flatMap]
  constructor
  · intro decided hdecided
    have hvalid := Valid.of_validate (hpassed.checked decided hdecided).valid
    apply (pairwise_map.mp hvalid.edges).imp
    intro identity other hne hsame
    rw [EdgeRef.mk.injEq] at hsame
    exact hne (Prod.ext hsame.1 hsame.2)
  · have hselect := @CommitConflictIndex.pairwise_select_edges {} limit queue
    exact pairwise_map.mp (hselect.sublist hpassed.sublist)

end Groups

/-! ### Runs -/

/-- The records of the identities after a run. -/
def CommitState.identityRecords (records : EdgeRef → Option EdgeIdentity) (state : CommitState) :
    EdgeRef → Option EdgeIdentity :=
  putIdentityRecords records (state.written.flatMap DecidedEpoch.identities)

/-- What holds along every run. -/
structure CommitState.EdgeInvariant (records : EdgeRef → Option EdgeIdentity)
    (state : CommitState) : Prop extends state.Invariant where
  edges : ∀ epoch ∈ state.epochs, epoch.baseVisibleSeq = state.store.visibleSeq →
    epoch.EdgesChecked state.store.facts
  settled : IdentitiesSettled state.store.facts.events (state.identityRecords records)

section Runs

variable {records : EdgeRef → Option EdgeIdentity} {state : CommitState}

/-- The records after another group. -/
theorem putIdentityRecords_append (first second : List EdgeIdentity) :
  putIdentityRecords records (first ++ second) =
    putIdentityRecords (putIdentityRecords records first) second
  := foldl_append

/-- A step keeps the identities settled. -/
theorem CommitState.EdgeInvariant.step (h : state.EdgeInvariant records) (options : GroupOptions)
    (step : CommitStep) :
  (state.step options step).EdgeInvariant records
  := by
  suffices hboth : (∀ epoch ∈ (state.step options step).epochs,
      epoch.baseVisibleSeq = (state.step options step).store.visibleSeq →
        epoch.EdgesChecked (state.step options step).store.facts) ∧
      IdentitiesSettled (state.step options step).store.facts.events
        ((state.step options step).identityRecords records) from
    ⟨h.toInvariant.step options step, hboth.1, hboth.2⟩
  cases step with
  | decide limit queue =>
    rw [CommitState.step]
    split
    · exact ⟨h.edges, h.settled⟩
    case h_2 result hresult =>
      have hedges := CommitStore.decideAndEncodeGroup_edges h.sound hresult
      obtain ⟨_, decided⟩ := result
      obtain ⟨⟨cache, rfl, -⟩, -, -⟩ := decideAndEncodeGroup_sound h.sound hresult
      refine ⟨?_, h.settled⟩
      intro epoch hepoch hbase
      rcases mem_append.mp hepoch with hepoch | hepoch
      · exact h.edges epoch hepoch hbase
      · rw [mem_singleton.mp hepoch]
        exact hedges
  | write i =>
    rw [CommitState.step]
    split
    · exact ⟨h.edges, h.settled⟩
    case h_2 epoch hepoch =>
      have hmem := mem_of_getElem? hepoch
      have herase : ∀ other ∈ state.epochs.eraseIdx i, other ∈ state.epochs :=
        fun other hother => mem_of_mem_eraseIdx hother
      split
      · exact ⟨fun other hother => h.edges other (herase other hother), h.settled⟩
      case h_2 store' hwrite =>
        rw [identityRecords, flatMap_append, flatMap_singleton,
          putIdentityRecords_append]
        by_cases hempty : epoch.decided = []
        · rw [CommitStore.writeDecidedGroup, hempty] at hwrite
          obtain rfl := Except.ok.inj hwrite
          have hnone : epoch.identities = [] := by
            rw [identities, hempty, flatMap_nil]
          rw [hnone]
          exact ⟨fun other hother => h.edges other (herase other hother), h.settled⟩
        · obtain ⟨-, hwrote, hbase⟩ :=
            writeDecidedGroup_sound h.sound (h.pending epoch hmem) hwrite
          have hbase := hbase hempty
          have hchecked := h.pending epoch hmem hbase
          constructor
          · -- something has become visible, so no other group can be written
            intro other hother hsame
            have hle := UInt64.le_iff_toNat_le.mp (h.base_le other (herase other hother))
            have hvisible := hwrote.visible
            have hpositive := length_pos_of_ne_nil hempty
            have hsame := congrArg UInt64.toNat hsame
            dsimp only at hsame
            omega
          · apply h.settled.write h.sound hchecked (h.edges epoch hmem hbase) hwrote
            intro decided hdecided
            rw [← hbase]
            exact hchecked.above decided hdecided

/-- The identities stay settled along a run. -/
theorem CommitState.EdgeInvariant.run (h : state.EdgeInvariant records) (options : GroupOptions)
    (steps : List CommitStep) :
  (state.run options steps).EdgeInvariant records
  := by
  induction steps generalizing state with
  | nil => exact h
  | cons step steps ih => exact ih (h.step options step)

/-- Along every run of groups every edge keeps its identity. -/
theorem CommitState.identitiesSettled_run (options : GroupOptions) (sizes : ValidationSizes)
    (facts : FactColumn) (visibleSeq : CommitSeq) (outcomes : List TxnId)
    (records : EdgeRef → Option EdgeIdentity)
    (hfacts : ∀ event ∈ facts.events, event.commitSeq ≤ visibleSeq)
    (hsettled : IdentitiesSettled facts.events records) (steps : List CommitStep) :
  IdentitiesSettled
    (run options { store := .opened sizes facts visibleSeq outcomes } steps).store.facts.events
    ((run options { store := .opened sizes facts visibleSeq outcomes } steps).identityRecords records)
  := by
  apply EdgeInvariant.settled
  apply EdgeInvariant.run
  refine ⟨invariant_opened hfacts sizes outcomes, ?_, hsettled⟩
  intro epoch hepoch
  cases hepoch

/-- An edge with an identity and another one which a later batch states. -/
def renamedEdge : StoreCommitBatch :=
  { CommitState.edgeCreation with
    txnId := 9
    edgeIdentities := [{ CommitState.newEdge with targetVertexId := 3 }] }

/-- Starting without facts the edge keeps the identity of the first batch. -/
theorem CommitState.renamedEdge_identitiesSettled :
  ((run insertionOptions { store := .opened smallSizes FactColumn.empty 0 [] }
      [.decide 2 [edgeCreation], .write 0, .decide 2 [renamedEdge], .write 0]).identityRecords
      (fun _ => none) newEdge.edgeRef) = some newEdge ∧
    IdentitiesSettled
      (run insertionOptions { store := .opened smallSizes FactColumn.empty 0 [] }
        [.decide 2 [edgeCreation], .write 0, .decide 2 [renamedEdge], .write 0]).store.facts.events
      ((run insertionOptions { store := .opened smallSizes FactColumn.empty 0 [] }
        [.decide 2 [edgeCreation], .write 0, .decide 2 [renamedEdge], .write 0]).identityRecords
        fun _ => none)
  := by
  constructor
  · decide +kernel
  · apply identitiesSettled_run
    · simp [empty]
    · constructor <;> simp [empty]

end Runs

end Cedar
