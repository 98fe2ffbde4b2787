import CedarGraph.Storage.CommitGroup

/-!
# Runs of commits

What holds along every run of decisions and writes: the index, the filter and the cache are sound
for the facts, and a decided group which can still be written was validated against the facts which
are there.
-/

namespace Cedar

open CommitStore Except FactColumn List StatusOr StoreCommitBatch UInt64 TemporalNeighborhood
open FactEvent
open FactIdentityHistory

/-! ### Groups -/

/-- Two batches of a group, of which the second one does not touch what the first one writes. -/
structure IndependentOf (earlier later : StoreCommitBatch) : Prop where
  writes : ∀ mutation ∈ later.mutations, ∀ other ∈ earlier.mutations, mutation.ref ≠ other.ref
  strictReads : ∀ dependency ∈ later.strictReadDependencies, ∀ other ∈ earlier.mutations,
    dependency.ref ≠ other.ref

namespace CommitConflictIndex

variable {index : CommitConflictIndex} {batch earlier : StoreCommitBatch}

theorem containsAny_eq_false_iff {α : Type} [DecidableEq α] {values known : List α} :
  containsAny values known = false ↔ ∀ value ∈ values, value ∉ known
  := by
  simp [containsAny]

/-- What an index accepts after a batch does not touch what the batch writes. -/
theorem independentOf_of_canInsert
    (h : (index.insert (buildCommitFootprint earlier)).canInsert (buildCommitFootprint batch) =
      true) :
  IndependentOf earlier batch
  := by
  simp only [canInsert, Bool.and_eq_true, Bool.not_eq_true', containsAny_eq_false_iff,
    buildCommitFootprint, forall_mem_map] at h
  have hmem : ∀ other ∈ earlier.mutations,
      other.ref ∈ (index.insert (buildCommitFootprint earlier)).writes :=
    fun other hother => mem_append_left _ (mem_map_of_mem hother)
  constructor
  · intro mutation hmutation other hother heq
    apply h.1.1.1.2 mutation hmutation (heq ▸ hmem other hother)
  · intro dependency hdependency other hother heq
    apply h.1.2 dependency hdependency (heq ▸ hmem other hother)

/-- What holds for batches of which the second one is accepted after the first one holds for the
batches of a group. -/
theorem pairwise_select {related : StoreCommitBatch → StoreCommitBatch → Prop}
    (h : ∀ {index : CommitConflictIndex} {batch earlier},
      (index.insert (buildCommitFootprint earlier)).canInsert (buildCommitFootprint batch) = true →
        related earlier batch)
    (limit : Nat) (queue : List StoreCommitBatch) :
  (index.select limit queue).Pairwise related ∧
    ∀ batch ∈ index.select limit queue, index.canInsert (buildCommitFootprint batch) = true
  := by
  induction queue generalizing index limit with
  | nil => cases limit <;> simp [select]
  | cons batch queue ih =>
    cases limit with
    | zero => simp [select]
    | succ limit =>
      rw [select]
      split
      case isTrue hinsert =>
        obtain ⟨hpairwise, hall⟩ := @ih (index.insert (buildCommitFootprint batch)) limit
        constructor
        · apply pairwise_cons.mpr ⟨_, hpairwise⟩
          intro later hlater
          apply h (hall later hlater)
        · intro later hlater
          obtain rfl | hlater := mem_cons.mp hlater
          · exact hinsert
          · have hlater := hall later hlater
            simp only [canInsert, insert, Bool.and_eq_true, Bool.not_eq_true',
              containsAny_eq_false_iff] at hlater ⊢
            grind
      · simp

end CommitConflictIndex

/-! ### Batches -/

namespace StoreCommitBatch

variable {batch : StoreCommitBatch}

/-- The mutations are valid, and their keys differ. -/
theorem of_mutationKeys {facts keys : List (List UInt8)} {mutations : List PendingFactMutation}
    (h : mutationKeys facts mutations = .ok keys) :
  (∀ mutation ∈ mutations, mutation.validate = .ok ()) ∧
    keys = (mutations.map fun mutation =>
      encodeFactKey mutation.ref mutation.validFrom 1).reverse ++ facts ∧
    (facts.Nodup → keys.Nodup)
  := by
  induction mutations generalizing facts with
  | nil =>
    obtain rfl := ok.inj h
    simp
  | cons mutation mutations ih =>
    obtain ⟨_, hvalid, h⟩ := bind_eq_ok_iff.mp h
    obtain ⟨hnew, h⟩ := guard_eq_ok_iff.mp h
    obtain ⟨hall, hkeys, hnodup⟩ := ih h
    rw [forall_mem_cons]
    use ⟨hvalid, hall⟩, by simp [hkeys]
    intro hfacts
    apply hnodup (nodup_cons.mpr ⟨fun hmem => hnew (Or.inr hmem), hfacts⟩)

/-- The identities are valid, and of different edges. -/
theorem of_edgeIds {seen edges : List (PartId × EdgeId)} {identities : List EdgeIdentity}
    (h : edgeIds seen identities = .ok edges) :
  (∀ identity ∈ identities, identity.validate = .ok ()) ∧
    edges = (identities.map fun identity =>
      (identity.homePartId, identity.edgeId)).reverse ++ seen ∧
    (seen.Nodup → edges.Nodup)
  := by
  induction identities generalizing seen with
  | nil =>
    obtain rfl := ok.inj h
    simp
  | cons identity identities ih =>
    obtain ⟨_, hvalid, h⟩ := bind_eq_ok_iff.mp h
    obtain ⟨hnew, h⟩ := guard_eq_ok_iff.mp h
    obtain ⟨hall, hedges, hnodup⟩ := ih h
    rw [forall_mem_cons]
    use ⟨hvalid, hall⟩, by simp [hedges]
    intro hseen
    apply hnodup (nodup_cons.mpr ⟨hnew, hseen⟩)

theorem mem_of_checkDependencies {facts seen : List (List UInt8)}
    {dependencies : List SnapshotWriteDependency}
    (h : checkDependencies facts seen dependencies = .ok ()) :
  ∀ dependency ∈ dependencies, dependency.validate = .ok () ∧
    encodeFactKey dependency.ref dependency.validFrom 1 ∈ facts
  := by
  induction dependencies generalizing seen with
  | nil => simp
  | cons dependency dependencies ih =>
    obtain ⟨_, hvalid, h⟩ := bind_eq_ok_iff.mp h
    obtain ⟨hmem, h⟩ := guard_eq_ok_iff.mp h
    rw [forall_mem_cons]
    use ⟨hvalid, not_not.mp (not_or.mp hmem).1⟩, ih h

theorem of_checkStrictReads {seen : List (FactRef × ValidTime)}
    {dependencies : List StrictReadDependency}
    (h : checkStrictReads seen dependencies = .ok ()) :
  ∀ dependency ∈ dependencies, dependency.validate = .ok ()
  := by
  induction dependencies generalizing seen with
  | nil => simp
  | cons dependency dependencies ih =>
    obtain ⟨_, hvalid, h⟩ := bind_eq_ok_iff.mp h
    obtain ⟨-, h⟩ := guard_eq_ok_iff.mp h
    exact forall_mem_cons.mpr ⟨hvalid, ih h⟩

/-- What the checks on a batch say. -/
structure Valid (batch : StoreCommitBatch) : Prop where
  txnId : batch.txnId ≠ 0
  systemHlc : batch.systemHlc ≠ 0
  nonempty : batch.mutations ≠ []
  mutations : ∀ mutation ∈ batch.mutations, mutation.validate = .ok ()
  keys : (batch.mutations.map fun mutation =>
    encodeFactKey mutation.ref mutation.validFrom 1).Nodup
  dependencies : ∀ dependency ∈ batch.snapshotWriteDependencies, dependency.validate = .ok () ∧
    ∃ mutation ∈ batch.mutations, encodeFactKey mutation.ref mutation.validFrom 1 =
      encodeFactKey dependency.ref dependency.validFrom 1
  strictReads : ∀ dependency ∈ batch.strictReadDependencies, dependency.validate = .ok ()
  identities : ∀ identity ∈ batch.edgeIdentities, identity.validate = .ok ()
  edges : (batch.edgeIdentities.map fun identity => (identity.homePartId, identity.edgeId)).Nodup
  asserted : ∀ identity ∈ batch.edgeIdentities,
    batch.assertsEdge (identity.homePartId, identity.edgeId) = true

theorem Valid.of_validate (h : batch.validate = .ok ()) :
  Valid batch
  := by
  obtain ⟨hpresent, h⟩ := guard_eq_ok_iff.mp h
  obtain ⟨_, hkeys, h⟩ := bind_eq_ok_iff.mp h
  obtain ⟨_, hdependencies, h⟩ := bind_eq_ok_iff.mp h
  obtain ⟨_, hstrict, h⟩ := bind_eq_ok_iff.mp h
  obtain ⟨_, hedges, h⟩ := bind_eq_ok_iff.mp h
  obtain ⟨hasserted, -⟩ := guard_eq_ok_iff.mp h
  obtain ⟨hmutations, rfl, hdiffer⟩ := of_mutationKeys hkeys
  obtain ⟨hidentities, rfl, hdiffer'⟩ := of_edgeIds hedges
  have hdependencies := mem_of_checkDependencies hdependencies
  push Not at hpresent
  simp only [append_nil, mem_reverse, mem_map] at hdependencies
  simp only [append_nil, nodup_reverse, nodup_nil, forall_const] at hdiffer hdiffer'
  simp only [append_nil, any_reverse, any_map, any_eq_true, not_exists, not_and] at hasserted
  exact ⟨hpresent.1, hpresent.2.1, hpresent.2.2, hmutations, hdiffer, hdependencies,
    of_checkStrictReads hstrict, hidentities, hdiffer', by simpa using hasserted⟩

/-- A mutation is before its successor. -/
theorem lt_successor_of_validate {dependency : SnapshotWriteDependency}
    (h : dependency.validate = .ok ()) :
  dependency.ref.validate = .ok () ∧
    ∀ successor ∈ dependency.successor, dependency.validFrom < successor
  := by
  obtain ⟨_, href, h⟩ := bind_eq_ok_iff.mp h
  use href
  intro successor hsuccessor
  obtain ⟨-, h⟩ := guard_eq_ok_iff.mp h
  obtain ⟨hany, h⟩ := guard_eq_ok_iff.mp h
  rw [Option.mem_def.mp hsuccessor] at hany
  simpa using hany

theorem family_ne_of_validate {mutation : PendingFactMutation} (h : mutation.validate = .ok ()) :
  mutation.ref.validate = .ok () ∧ mutation.ref.family ≠ .edgeIdentity
  := by
  obtain ⟨_, hmutation, hfamily⟩ := bind_eq_ok_iff.mp h
  obtain ⟨_, href, -⟩ := bind_eq_ok_iff.mp hmutation
  use href
  intro heq
  rw [if_pos heq] at hfamily
  cases hfamily

/-- The snapshot dependencies of a valid batch are those of its mutations. -/
theorem exists_mutation_of_validate (h : batch.validate = .ok ()) :
  (∀ mutation ∈ batch.mutations, mutation.ref.family ≠ .edgeIdentity) ∧
    ∀ dependency ∈ batch.snapshotWriteDependencies,
      (∀ successor ∈ dependency.successor, dependency.validFrom < successor) ∧
        ∃ mutation ∈ batch.mutations,
          mutation.ref = dependency.ref ∧ mutation.validFrom = dependency.validFrom
  := by
  have hvalid := Valid.of_validate h
  constructor
  · intro mutation hmutation
    apply (family_ne_of_validate (hvalid.mutations mutation hmutation)).2
  · intro dependency hdependency
    obtain ⟨hdependency, mutation, hmutation, hkey⟩ := hvalid.dependencies dependency hdependency
    obtain ⟨href, hsuccessor⟩ := lt_successor_of_validate hdependency
    use hsuccessor, mutation, hmutation
    have hsame := (encodeFactKey_inj (family_ne_of_validate (hvalid.mutations mutation hmutation)).1
      (by decide) href (by decide)).mp hkey
    use hsame.1, hsame.2.1

variable {commitSeq : CommitSeq} {event : FactEvent}

/-- The facts of a batch have its commit. -/
theorem commitSeq_of_mem_commitFacts (h : event ∈ batch.commitFacts commitSeq) :
  event.commitSeq = commitSeq
  := by
  obtain h | h := mem_append.mp h
  · obtain ⟨_, -, rfl⟩ := mem_map.mp h
    rfl
  · obtain ⟨_, -, rfl⟩ := mem_map.mp h
    rfl

/-- The facts of a batch are those of its mutations and identities of edges. -/
theorem ref_of_mem_commitFacts (h : event ∈ batch.commitFacts commitSeq) :
  (∃ mutation ∈ batch.mutations, event.ref = mutation.ref) ∨
    (event.validFrom = 0 ∧ ∃ identity ∈ batch.edgeIdentities, event.ref = identityRef identity)
  := by
  obtain h | h := mem_append.mp h
  · left
    obtain ⟨mutation, hmutation, rfl⟩ := mem_map.mp h
    use mutation, hmutation
  · right
    obtain ⟨identity, hidentity, rfl⟩ := mem_map.mp h
    use rfl, identity, hidentity

end StoreCommitBatch

theorem map_val_of_encodeFacts {events : List FactEvent} {encoded : List ValidFactEvent}
    (h : encodeFacts events = .ok encoded) :
  encoded.map Subtype.val = events
  := by
  induction events generalizing encoded with
  | nil =>
    obtain rfl := ok.inj h
    rfl
  | cons event events ih =>
    rw [encodeFacts] at h
    split at h
    · cases h
    · obtain ⟨rest, hrest, h⟩ := bind_eq_ok_iff.mp h
      obtain rfl := ok.inj h
      rw [map_cons, ih hrest]

/-! ### Decisions -/

/-- A strict read observed the same at its snapshot as within a limit of commits. -/
def StrictReadUnchanged (events : List FactEvent) (commitLimit : CommitSeq)
    (dependency : StrictReadDependency) : Prop :=
  dependency.snapshotSeq ≤ commitLimit ∧ ∃ atSnapshot current,
    TemporalNeighborhood.IsNeighborhood events dependency.ref dependency.validTime
      dependency.snapshotSeq atSnapshot ∧
    TemporalNeighborhood.IsNeighborhood events dependency.ref dependency.validTime
      commitLimit current ∧
    sameStrictReadIdentity atSnapshot current = true

/-- What a decision finds out about a batch, from the facts up to the commit which was visible. -/
structure DecidedBatch.Checked (events : List FactEvent) (base : CommitSeq)
    (decided : DecidedBatch) : Prop where
  valid : decided.batch.validate = .ok ()
  facts : decided.facts.map Subtype.val = decided.batch.commitFacts decided.commitSeq
  snapshot : ∀ dependency ∈ decided.batch.snapshotWriteDependencies,
    dependency.snapshotSeq ≤ base ∧
      SnapshotUnchanged (events.filter fun event => event.commitSeq ≤ base) dependency
  strictReads : ∀ dependency ∈ decided.batch.strictReadDependencies,
    StrictReadUnchanged events base dependency

/-- What a decision finds out about a group. -/
structure DecidedEpoch.Checked (events : List FactEvent) (epoch : DecidedEpoch) : Prop where
  independent : epoch.decided.Pairwise fun d e => IndependentOf d.batch e.batch
  ordered : epoch.decided.Pairwise fun d e => d.commitSeq < e.commitSeq
  checked : ∀ decided ∈ epoch.decided, decided.Checked events epoch.baseVisibleSeq
  above : ∀ decided ∈ epoch.decided, epoch.baseVisibleSeq < decided.commitSeq
  below : ∀ decided ∈ epoch.decided,
    decided.commitSeq.toNat ≤ epoch.baseVisibleSeq.toNat + epoch.decided.length
  small : epoch.decided ≠ [] → epoch.baseVisibleSeq.toNat + epoch.decided.length < 2 ^ 64

section Decide

variable {store store' : CommitStore} {options : GroupOptions}

/-- What a strict read finds is the neighborhood of its instant. -/
theorem currentStrictReadIdentity_isNeighborhood (hstore : store.Sound)
    (hsmall : store.visibleSeq.toNat < 2 ^ 64 - 1) {ref : FactRef} {validTime : ValidTime}
    {commitLimit : CommitSeq} {neighborhood : TemporalNeighborhood}
    (h : currentStrictReadIdentity store ref validTime commitLimit = .ok neighborhood) :
  IsNeighborhood store.facts.events ref validTime commitLimit neighborhood
  := by
  have hcommit : ∀ event ∈ store.facts.events, event.commitSeq.toNat < 2 ^ 64 - 1 := by
    intro event hevent
    have hle := le_iff_toNat_le.mp (hstore.visible event hevent)
    omega
  have hnone : readTemporalNeighborhoodWithIterator none store.facts ref validTime commitLimit =
      .ok neighborhood := by
    rw [← h, currentStrictReadIdentity]
    cases hhistory : store.identityHistory with
    | none => rfl
    | some history =>
      symm
      apply readTemporalNeighborhood_some_eq hcommit
      apply hstore.history history hhistory
  rw [readTemporalNeighborhood_eq hcommit] at hnone
  obtain ⟨_, -, hfound⟩ := bind_eq_ok_iff.mp hnone
  obtain rfl := ok.inj hfound
  apply isNeighborhood_found

theorem validateStrictReadDependencies_sound (hstore : store.Sound)
    (hsmall : store.visibleSeq.toNat < 2 ^ 64 - 1) {dependencies : List StrictReadDependency}
    (h : validateStrictReadDependencies store dependencies = .ok ()) :
  ∀ dependency ∈ dependencies, StrictReadUnchanged store.facts.events store.visibleSeq dependency
  := by
  induction dependencies with
  | nil => simp
  | cons dependency dependencies ih =>
    obtain ⟨hseq, h⟩ := guard_eq_ok_iff.mp h
    obtain ⟨atSnapshot, hat, h⟩ := bind_eq_ok_iff.mp h
    obtain ⟨-, h⟩ := guard_eq_ok_iff.mp h
    obtain ⟨current, hcurrent, h⟩ := bind_eq_ok_iff.mp h
    obtain ⟨hsame, h⟩ := guard_eq_ok_iff.mp h
    rw [forall_mem_cons]
    use ⟨not_lt.mp hseq, atSnapshot, current,
      currentStrictReadIdentity_isNeighborhood hstore hsmall hat,
      currentStrictReadIdentity_isNeighborhood hstore hsmall hcurrent,
      by simpa using hsame⟩, ih h

/-- The validation of a batch only changes the cache. -/
theorem validateBatch_sound (hstore : store.Sound) (transactionIds : List TxnId)
    (batch : StoreCommitBatch) :
  (∃ cache, (store.validateBatch options transactionIds batch).2 =
      { store with versionValidationCache := cache } ∧ CacheSound cache store.facts.events) ∧
    ((store.validateBatch options transactionIds batch).1 = .ok () →
      store.visibleSeq.toNat < 2 ^ 64 - 1 →
        batch.validate = .ok () ∧
        (∀ dependency ∈ batch.snapshotWriteDependencies,
          dependency.snapshotSeq ≤ store.visibleSeq ∧
            SnapshotUnchanged store.facts.events dependency) ∧
        (∀ dependency ∈ batch.strictReadDependencies,
          StrictReadUnchanged store.facts.events store.visibleSeq dependency) ∧
        validateEdgeIdentitiesForCommit store.facts batch = .ok ())
  := by
  have hchecked := validateSnapshotWriteDependencies_sound hstore options.sorter
    batch.snapshotWriteDependencies
  rw [validateBatch]
  split
  · constructor
    · use store.versionValidationCache, rfl, hstore.cache
    · intro hok
      cases hok
  case h_2 hadmit =>
    dsimp only
    split
    · use hchecked.1
      intro hok
      cases hok
    case h_2 hsnapshot =>
      use hchecked.1
      intro hok hsmall
      obtain ⟨cache, hstore', hcache⟩ := hchecked.1
      obtain ⟨_, hstrict, hedges⟩ := bind_eq_ok_iff.mp hok
      obtain ⟨_, hvalid, -⟩ := bind_eq_ok_iff.mp hadmit
      have hsound : Sound { store with versionValidationCache := cache } :=
        { hstore with cache := hcache }
      rw [hstore'] at hstrict hedges
      use hvalid, hchecked.2 hsnapshot, validateStrictReadDependencies_sound hsound hsmall hstrict

/-- What holds for the batches of a group which pass, from a number of commits on. -/
structure Passed (store : CommitStore) (committedCount : Nat) (requests : List StoreCommitBatch)
    (decided : List DecidedBatch) : Prop where
  sublist : (decided.map DecidedBatch.batch).Sublist requests
  ordered : decided.Pairwise fun d e => d.commitSeq < e.commitSeq
  checked : ∀ d ∈ decided, d.Checked store.facts.events store.visibleSeq
  above : ∀ d ∈ decided, store.visibleSeq.toNat + committedCount < d.commitSeq.toNat
  below : ∀ d ∈ decided,
    d.commitSeq.toNat ≤ store.visibleSeq.toNat + committedCount + decided.length
  small : decided ≠ [] → store.visibleSeq.toNat + committedCount + decided.length < 2 ^ 64

/-- The batches which pass are checked and get the next commits. -/
theorem decideBatches_sound {transactionIds : List TxnId} {committedCount : Nat}
    {requests : List StoreCommitBatch} {decided : List DecidedBatch} (hstore : store.Sound)
    (h : decideBatches options store transactionIds committedCount requests =
      .ok (store', decided)) :
  (∃ cache, store' = { store with versionValidationCache := cache } ∧
      CacheSound cache store.facts.events) ∧
    Passed store committedCount requests decided ∧
    ∀ d ∈ decided, validateEdgeIdentitiesForCommit store.facts d.batch = .ok ()
  := by
  induction requests generalizing store transactionIds committedCount decided with
  | nil =>
    obtain ⟨rfl, rfl⟩ := Prod.mk.inj (ok.inj h)
    use ⟨store.versionValidationCache, rfl, hstore.cache⟩
    constructor
    · constructor <;> simp
    · simp
  | cons batch requests ih =>
    obtain ⟨⟨cache, hafter, hcache⟩, hpassed⟩ :=
      @validateBatch_sound store options hstore transactionIds batch
    have hsound : Sound { store with versionValidationCache := cache } :=
      { hstore with cache := hcache }
    rw [decideBatches] at h
    rw [hafter] at h
    split at h
    · obtain ⟨⟨cache', hlast, hcache'⟩, hrest, hedges⟩ := ih hsound h
      use ⟨cache', hlast, hcache'⟩, { hrest with sublist := hrest.sublist.cons _ }
    case h_2 hok =>
      obtain ⟨hseq, h⟩ := guard_eq_ok_iff.mp h
      obtain ⟨facts, hfacts, h⟩ := bind_eq_ok_iff.mp h
      obtain ⟨rest, hrest, h⟩ := bind_eq_ok_iff.mp h
      obtain ⟨rfl, rfl⟩ := Prod.mk.inj (ok.inj h)
      obtain ⟨⟨cache', hlast, hcache'⟩, hrest, hedges⟩ := ih hsound hrest
      obtain ⟨hvalid, hsnapshot, hstrict, hedge⟩ := hpassed hok (by omega)
      have hcommit : (ofNat (store.visibleSeq.toNat + committedCount + 1)).toNat =
          store.visibleSeq.toNat + committedCount + 1 := by
        apply toNat_ofNat_of_lt'
        simp only [size]
        omega
      refine ⟨⟨cache', hlast, hcache'⟩, ?_, forall_mem_cons.mpr ⟨hedge, hedges⟩⟩
      constructor
      · apply hrest.sublist.cons_cons
      · apply pairwise_cons.mpr ⟨_, hrest.ordered⟩
        intro d hd
        have hlt := hrest.above d hd
        rw [lt_iff_toNat_lt, hcommit]
        omega
      · rw [forall_mem_cons]
        constructor
        · use hvalid, map_val_of_encodeFacts hfacts
          · intro dependency hdependency
            obtain ⟨hle, hunchanged⟩ := hsnapshot dependency hdependency
            use hle
            intro event hevent
            apply hunchanged event (mem_filter.mp hevent).1
        · exact hrest.checked
      · rw [forall_mem_cons, hcommit]
        constructor
        · omega
        · intro d hd
          have hlt := hrest.above d hd
          dsimp only at hlt
          omega
      · rw [forall_mem_cons, hcommit, length_cons]
        constructor
        · omega
        · intro d hd
          have hle := hrest.below d hd
          dsimp only at hle
          omega
      · intro _
        rw [length_cons]
        cases hdecided : rest.2 with
        | nil =>
          rw [length_nil]
          omega
        | cons d ds =>
          have hlt := hrest.small (by simp [hdecided])
          rw [hdecided] at hlt
          dsimp only at hlt
          omega

/-- A group which is decided is checked, and only the cache changes. -/
theorem decideAndEncodeGroup_sound {limit : Nat} {queue : List StoreCommitBatch}
    {epoch : DecidedEpoch} (hstore : store.Sound)
    (h : store.decideAndEncodeGroup options (CommitConflictIndex.select {} limit queue) =
      .ok (store', epoch)) :
  (∃ cache, store' = { store with versionValidationCache := cache } ∧
      CacheSound cache store.facts.events) ∧
    epoch.baseVisibleSeq = store.visibleSeq ∧ epoch.Checked store.facts.events
  := by
  obtain ⟨result, hresult, h⟩ := bind_eq_ok_iff.mp h
  obtain ⟨rfl, rfl⟩ := Prod.mk.inj (ok.inj h)
  obtain ⟨hcache, hpassed, -⟩ := decideBatches_sound hstore hresult
  use hcache, rfl
  constructor
  · apply pairwise_map.mp
    apply (CommitConflictIndex.pairwise_select CommitConflictIndex.independentOf_of_canInsert
      limit queue).1.sublist hpassed.sublist
  · exact hpassed.ordered
  · exact hpassed.checked
  · intro d hd
    apply lt_iff_toNat_lt.mpr (hpassed.above d hd)
  · exact hpassed.below
  · exact hpassed.small

end Decide

/-! ### Writes -/

section Write

variable {store : CommitStore} {event : FactEvent}

variable {events events' : List FactEvent} {epoch : DecidedEpoch}

theorem RecentFactWriteIndex.Sound.mono {index : RecentFactWriteIndex} (h : index.Sound events)
    (hsub : events' ⊆ events) :
  index.Sound events'
  where
  exact := by
    apply h.exact.mono
    intro ref latest hall event hevent
    apply hall event (hsub hevent)
  covered hfilters event hevent := h.covered hfilters event (hsub hevent)
  latest event hevent := h.latest event (hsub hevent)

theorem VersionValidationCache.Sound.mono {cache : VersionValidationCache} (h : cache.Sound events)
    (hsub : events' ⊆ events) :
  cache.Sound events'
  := by
  apply SetAssociative.Sound.mono h
  intro ref chain hcovers event hevent
  apply hcovers event (hsub hevent)

/-- What is known about the events of a store, apart from their commits. -/
structure CommitStore.Knows (store : CommitStore) (events : List FactEvent) : Prop where
  history : ∀ history ∈ store.identityHistory, ∀ event ∈ events,
    FactIdentityHistory.mightContain history event.ref = true
  recent : ∀ index ∈ store.recentFactWriteIndex, RecentFactWriteIndex.Sound index events
  cache : CacheSound store.versionValidationCache events

/-- After a fact was published, it is known. -/
theorem CommitStore.Knows.publishFact (h : store.Knows events) (hvalid : event.validate = .ok ()) :
  (store.publishFact event).Knows (event :: events)
  where
  history history hhistory other hother := by
    obtain ⟨known, hknown, rfl⟩ := Option.mem_map.mp hhistory
    obtain rfl | hother := mem_cons.mp hother
    · apply mightContain_publish_self
    · apply mightContain_publish (h.history known hknown other hother)
  recent index hindex := by
    obtain ⟨known, hknown, rfl⟩ := Option.mem_map.mp hindex
    apply (h.recent known hknown).publish (validate_ref hvalid)
      (commitSeq_ne_zero hvalid)
  cache cache hcache := by
    obtain ⟨known, hknown, rfl⟩ := Option.mem_map.mp hcache
    apply (h.cache known hknown).publish (validate_ref hvalid)
      (commitSeq_ne_zero hvalid)

/-- After facts were published, they are known. -/
theorem CommitStore.Knows.publishAll {known : List FactEvent} (h : store.Knows known)
    (events : List ValidFactEvent) :
  ∃ known', known ⊆ known' ∧ (∀ event ∈ events, event.val ∈ known') ∧
    (events.foldl (fun store event => store.publishFact event.val) store).Knows known' ∧
    (events.foldl (fun store event => store.publishFact event.val) store).facts = store.facts ∧
    (events.foldl (fun store event => store.publishFact event.val) store).visibleSeq =
      store.visibleSeq
  := by
  induction events generalizing store known with
  | nil =>
    use known, Subset.refl _
    simp [h]
  | cons event events ih =>
    obtain ⟨known', hsub, hmem, hknows, hfacts, hvisible⟩ := ih (h.publishFact event.property)
    use known', Subset.trans (subset_cons_self _ _) hsub
    constructor
    · rw [forall_mem_cons]
      use hsub mem_cons_self
    · use hknows, hfacts, hvisible

/-- A store which was just opened is sound. -/
theorem CommitStore.sound_opened {facts : FactColumn} {visibleSeq : CommitSeq}
    (hfacts : ∀ event ∈ facts.events, event.commitSeq ≤ visibleSeq) (sizes : ValidationSizes)
    (outcomes : List TxnId) :
  (opened sizes facts visibleSeq outcomes).Sound
  where
  visible := hfacts
  history history hhistory event hevent := by
    obtain rfl := Option.some.inj hhistory
    split
    · rfl
    · apply mightContain_publishAll
      apply mem_map_of_mem hevent
  recent index hindex := by
    obtain rfl := Option.some.inj hindex
    apply RecentFactWriteIndex.sound_empty
    exact hfacts
  cache cache hcache := by
    obtain rfl := Option.some.inj hcache
    apply VersionValidationCache.sound_empty

/-- The facts of a checked group have its commits. -/
theorem DecidedEpoch.Checked.mem_facts (h : epoch.Checked events) {event : ValidFactEvent}
    (hevent : event ∈ epoch.facts) :
  ∃ decided ∈ epoch.decided, event.val ∈ decided.batch.commitFacts decided.commitSeq
  := by
  obtain ⟨decided, hdecided, hevent⟩ := mem_flatMap.mp hevent
  use decided, hdecided
  rw [← (h.checked decided hdecided).facts]
  apply mem_map_of_mem hevent

/-- What a write of a checked group does to the facts. -/
structure Wrote (store : CommitStore) (epoch : DecidedEpoch) (store' : CommitStore) : Prop where
  visible : store'.visibleSeq.toNat = store.visibleSeq.toNat + epoch.decided.length
  keeps : ∀ event ∈ store.facts.events, event ∈ store'.facts.events
  present : ∀ decided ∈ epoch.decided, ∀ event ∈ decided.batch.commitFacts decided.commitSeq,
    ∃ other ∈ store'.facts.events, other.encodedKey = event.encodedKey
  only : ∀ event ∈ store'.facts.events, event ∈ store.facts.events ∨
    ∃ decided ∈ epoch.decided, event ∈ decided.batch.commitFacts decided.commitSeq

theorem FactEvent.encodedKey_inj {e f : FactEvent} (he : e.validate = .ok ())
    (hf : f.validate = .ok ()) :
  e.encodedKey = f.encodedKey ↔
    e.ref = f.ref ∧ e.validFrom = f.validFrom ∧ e.commitSeq = f.commitSeq
  := encodeFactKey_inj (validate_ref he) (commitSeq_ne_zero he) (validate_ref hf)
    (commitSeq_ne_zero hf)

/-- A checked group which is written keeps the store sound. -/
theorem writeDecidedGroup_sound {store' : CommitStore} (hstore : store.Sound)
    (hchecked : epoch.baseVisibleSeq = store.visibleSeq → epoch.Checked store.facts.events)
    (h : store.writeDecidedGroup epoch = .ok store') :
  store'.Sound ∧ Wrote store epoch store' ∧
    (epoch.decided ≠ [] → epoch.baseVisibleSeq = store.visibleSeq)
  := by
  rw [writeDecidedGroup] at h
  split at h
  case isTrue hempty =>
    obtain rfl := ok.inj h
    rw [List.isEmpty_iff] at hempty
    use hstore
    constructor
    · constructor <;> simp [hempty]
    · simp [hempty]
  case isFalse hnonempty =>
    rw [List.isEmpty_iff] at hnonempty
    obtain ⟨hbase, h⟩ := guard_eq_ok_iff.mp h
    have hbase := (not_not.mp hbase).symm
    have hchecked := hchecked hbase
    have hsmall := hchecked.small hnonempty
    have hvisible : (ofNat (epoch.baseVisibleSeq.toNat + epoch.decided.length)).toNat =
        store.visibleSeq.toNat + epoch.decided.length := by
      rw [toNat_ofNat_of_lt' hsmall, hbase]
    have hknows : Knows { store with
        facts := store.facts.putAll epoch.facts
        outcomes := epoch.decided.map (fun decided => decided.batch.txnId) ++ store.outcomes
        visibleSeq := ofNat (epoch.baseVisibleSeq.toNat + epoch.decided.length) }
        store.facts.events := ⟨hstore.history, hstore.recent, hstore.cache⟩
    obtain ⟨known, hsub, hmem, hknows, hfacts, hseq⟩ := hknows.publishAll epoch.facts
    rw [ok.inj h] at hknows hfacts hseq
    have hwrote : Wrote store epoch store' := by
      constructor
      · rw [hseq, hvisible]
      · intro event hevent
        rw [hfacts]
        apply mem_putAll_of_mem hevent
        intro other hother hkey
        -- the facts of the group are newer
        obtain ⟨decided, hdecided, hfact⟩ := hchecked.mem_facts hother
        have hcommit := ((encodedKey_inj (store.facts.valid event hevent)
          other.property).mp hkey).2.2
        have hle := hstore.visible event hevent
        rw [hcommit, commitSeq_of_mem_commitFacts hfact, ← hbase] at hle
        apply not_lt.mpr hle (hchecked.above decided hdecided)
      · intro decided hdecided event hevent
        rw [hfacts]
        apply exists_encodedKey_putAll
        right
        rw [← (hchecked.checked decided hdecided).facts] at hevent
        obtain ⟨fact, hfact, rfl⟩ := mem_map.mp hevent
        use fact, mem_flatMap.mpr ⟨decided, hdecided, hfact⟩
      · intro event hevent
        rw [hfacts] at hevent
        obtain hold | ⟨fact, hfact, rfl⟩ := mem_or_mem_of_mem_putAll hevent
        · left
          exact hold
        · right
          apply hchecked.mem_facts hfact
    refine ⟨⟨?_, ?_, ?_, ?_⟩, hwrote, fun _ => hbase⟩
    · intro event hevent
      rw [le_iff_toNat_le, hwrote.visible]
      obtain hold | ⟨decided, hdecided, hfact⟩ := hwrote.only event hevent
      · have hle := le_iff_toNat_le.mp (hstore.visible event hold)
        omega
      · rw [commitSeq_of_mem_commitFacts hfact, ← hbase]
        apply hchecked.below decided hdecided
    all_goals
      have hknown : (store.facts.putAll epoch.facts).events ⊆ known := by
        intro event hevent
        obtain hold | ⟨fact, hfact, rfl⟩ := mem_or_mem_of_mem_putAll hevent
        · apply hsub hold
        · apply hmem fact hfact
      rw [hfacts]
    · intro history hhistory event hevent
      apply hknows.history history hhistory event (hknown hevent)
    · intro index hindex
      apply (hknows.recent index hindex).mono hknown
    · intro cache hcache
      apply (hknows.cache cache hcache).mono hknown

end Write

/-! ### The invariant -/

/-- A group which was written, with the facts which are there now. -/
structure DecidedEpoch.Written (store : CommitStore) (epoch : DecidedEpoch) : Prop
    extends epoch.Checked store.facts.events where
  visible : epoch.baseVisibleSeq.toNat + epoch.decided.length ≤ store.visibleSeq.toNat
  present : ∀ decided ∈ epoch.decided, ∀ event ∈ decided.batch.commitFacts decided.commitSeq,
    ∃ other ∈ store.facts.events, other.encodedKey = event.encodedKey
  only : ∀ event ∈ store.facts.events, epoch.baseVisibleSeq < event.commitSeq →
    event.commitSeq.toNat ≤ epoch.baseVisibleSeq.toNat + epoch.decided.length →
      ∃ decided ∈ epoch.decided, event ∈ decided.batch.commitFacts decided.commitSeq

/-- What holds along every run. -/
structure CommitState.Invariant (state : CommitState) : Prop where
  sound : state.store.Sound
  base_le : ∀ epoch ∈ state.epochs, epoch.baseVisibleSeq ≤ state.store.visibleSeq
  /-- A group which can still be written was checked against the facts which are there. -/
  pending : ∀ epoch ∈ state.epochs, epoch.baseVisibleSeq = state.store.visibleSeq →
    epoch.Checked state.store.facts.events
  written : ∀ epoch ∈ state.written, epoch.Written state.store
  ordered : state.written.Pairwise fun e f => f.decided ≠ [] →
    e.baseVisibleSeq.toNat + e.decided.length ≤ f.baseVisibleSeq.toNat

section Invariant

variable {events events' : List FactEvent} {base limit : CommitSeq}

/-- The facts up to a commit are the same. -/
def SameUpTo (limit : CommitSeq) (events events' : List FactEvent) : Prop :=
  ∀ event, event.commitSeq ≤ limit → (event ∈ events' ↔ event ∈ events)

variable {ref : FactRef} {epoch : DecidedEpoch} {store store' : CommitStore}

theorem SameUpTo.isVisible_iff (h : SameUpTo base events events') (hle : limit ≤ base)
    {event : FactEvent} :
  IsVisible events' ref limit event ↔
    IsVisible events ref limit event
  := by
  constructor
  · rintro ⟨hmem, href, hcommit⟩
    use (h event (le_trans hcommit hle)).mp hmem
  · rintro ⟨hmem, href, hcommit⟩
    use (h event (le_trans hcommit hle)).mpr hmem

/-- A neighborhood depends only on what is visible. -/
theorem TemporalNeighborhood.IsNeighborhood.congr {limit' : CommitSeq} {validTime : ValidTime}
    {neighborhood : TemporalNeighborhood}
    (h : IsNeighborhood events ref validTime limit neighborhood)
    (hvisible : ∀ event, IsVisible events' ref limit' event ↔ IsVisible events ref limit event) :
  IsNeighborhood events' ref validTime limit' neighborhood
  := by
  have hboundaries : boundaries events' ref limit' = boundaries events ref limit := by
    simp only [boundaries, hvisible]
  obtain ⟨h1, h2, h3, h4, h5, h6, h7, h8⟩ := h
  rw [← hboundaries] at h2 h4 h5 h6 h7 h8
  simp only [← hvisible] at h1 h3
  use h1, h2, h3, h4, h5, h6, h7, h8

/-- Newer facts do not change what a decision has found out. -/
theorem SameUpTo.checked (h : SameUpTo base events events') {decided : DecidedBatch}
    (hchecked : decided.Checked events base) :
  decided.Checked events' base
  where
  valid := hchecked.valid
  facts := hchecked.facts
  snapshot dependency hdependency := by
    obtain ⟨hle, hunchanged⟩ := hchecked.snapshot dependency hdependency
    use hle
    intro event hevent
    obtain ⟨hmem, hcommit⟩ := mem_filter.mp hevent
    apply hunchanged event
    apply mem_filter.mpr
    use (h event (of_decide_eq_true hcommit)).mp hmem
  strictReads dependency hdependency := by
    obtain ⟨hle, atSnapshot, current, hat, hcurrent, hsame⟩ :=
      hchecked.strictReads dependency hdependency
    use hle, atSnapshot, current, hat.congr fun _ => h.isVisible_iff hle,
      hcurrent.congr fun _ => h.isVisible_iff le_rfl

theorem SameUpTo.epochChecked (h : SameUpTo epoch.baseVisibleSeq events events')
    (hchecked : epoch.Checked events) :
  epoch.Checked events'
  := { hchecked with
    checked := fun decided hdecided => h.checked (hchecked.checked decided hdecided) }

/-- After a write, the facts up to the commit which was visible are the same. -/
theorem Wrote.sameUpTo (h : Wrote store epoch store')
    (habove : ∀ decided ∈ epoch.decided, store.visibleSeq < decided.commitSeq)
    (hle : limit ≤ store.visibleSeq) :
  SameUpTo limit store.facts.events store'.facts.events
  := by
  intro event hcommit
  constructor
  · intro hevent
    obtain hold | ⟨decided, hdecided, hfact⟩ := h.only event hevent
    · exact hold
    · have hlt := habove decided hdecided
      rw [← commitSeq_of_mem_commitFacts hfact] at hlt
      cases not_lt.mpr (le_trans hcommit hle) hlt
  · apply h.keeps

/-- A group which was written stays so when another one is written. -/
theorem DecidedEpoch.Written.write {other : DecidedEpoch} (h : epoch.Written store)
    (hwrote : Wrote store other store')
    (habove : ∀ decided ∈ other.decided, store.visibleSeq < decided.commitSeq) :
  epoch.Written store'
  where
  toChecked := by
    have hbase : epoch.baseVisibleSeq ≤ store.visibleSeq := by
      have hle := h.visible
      rw [le_iff_toNat_le]
      omega
    apply (hwrote.sameUpTo habove hbase).epochChecked h.toChecked
  visible := by
    have hle := h.visible
    have hvisible := hwrote.visible
    omega
  present decided hdecided event hevent := by
    obtain ⟨fact, hfact, hkey⟩ := h.present decided hdecided event hevent
    use fact, hwrote.keeps fact hfact
  only event hevent habove' hbelow := by
    have hcommit : event.commitSeq ≤ store.visibleSeq := by
      rw [le_iff_toNat_le]
      apply le_trans hbelow h.visible
    have hold := (hwrote.sameUpTo habove le_rfl event hcommit).mp hevent
    apply h.only event hold habove' hbelow

/-- A step keeps the invariant. -/
theorem CommitState.Invariant.step {state : CommitState} (h : state.Invariant)
    (options : GroupOptions) (step : CommitStep) :
  (state.step options step).Invariant
  := by
  cases step with
  | decide limit queue =>
    rw [CommitState.step]
    split
    · exact h
    case h_2 result hresult =>
      obtain ⟨_, decided⟩ := result
      obtain ⟨⟨cache, rfl, hcache⟩, hbase, hchecked⟩ :=
        decideAndEncodeGroup_sound h.sound hresult
      exact { h with
        sound := { h.sound with cache := hcache }
        base_le := forall_mem_append.mpr ⟨h.base_le, forall_mem_singleton.mpr hbase.le⟩
        pending := forall_mem_append.mpr ⟨h.pending, forall_mem_singleton.mpr fun _ => hchecked⟩
        written := fun epoch hepoch => { h.written epoch hepoch with } }
  | write i =>
    rw [CommitState.step]
    split
    · exact h
    case h_2 epoch hepoch =>
      have hmem := mem_of_getElem? hepoch
      have herase : ∀ other ∈ state.epochs.eraseIdx i, other ∈ state.epochs :=
        fun other hother => mem_of_mem_eraseIdx hother
      split
      · exact { h with
          base_le := fun other hother => h.base_le other (herase other hother)
          pending := fun other hother => h.pending other (herase other hother) }
      case h_2 store' hwrite =>
        obtain ⟨hsound, hwrote, hbase⟩ :=
          writeDecidedGroup_sound h.sound (h.pending epoch hmem) hwrite
        have habove : ∀ decided ∈ epoch.decided, state.store.visibleSeq < decided.commitSeq := by
          intro decided hdecided
          have hbase := hbase (ne_nil_of_mem hdecided)
          rw [← hbase]
          apply (h.pending epoch hmem hbase).above decided hdecided
        have hvisible := hwrote.visible
        have hle := UInt64.le_iff_toNat_le.mp (h.base_le epoch hmem)
        refine ⟨hsound, ?_, ?_, ?_, ?_⟩
        · intro other hother
          have hother := UInt64.le_iff_toNat_le.mp (h.base_le other (herase other hother))
          rw [UInt64.le_iff_toNat_le]
          dsimp only
          omega
        · intro other hother hsame
          have hlast := UInt64.le_iff_toNat_le.mp (h.base_le other (herase other hother))
          have hsame := congrArg UInt64.toNat hsame
          -- something became visible, unless the group is empty
          have hsame' : other.baseVisibleSeq = state.store.visibleSeq := by
            apply UInt64.toNat_inj.mp
            dsimp only at hsame
            omega
          apply SameUpTo.epochChecked _ (h.pending other (herase other hother) hsame')
          apply hwrote.sameUpTo habove hsame'.le
        · intro other hother
          obtain hother | hother := mem_append.mp hother
          · apply (h.written other hother).write hwrote habove
          · obtain rfl := mem_singleton.mp hother
            constructor
            · by_cases hempty : other.decided = []
              · constructor <;> simp [hempty]
              · have hbase := hbase hempty
                apply (hwrote.sameUpTo habove hbase.le).epochChecked (h.pending other hmem hbase)
            · dsimp only
              omega
            · exact hwrote.present
            · intro event hevent hlt hcommit
              obtain hold | hfact := hwrote.only event hevent
              · -- an old fact is not above what was visible
                have hold := UInt64.le_iff_toNat_le.mp (h.sound.visible event hold)
                rw [UInt64.lt_iff_toNat_lt] at hlt
                by_cases hempty : other.decided = []
                · rw [hempty, length_nil] at hcommit
                  omega
                · rw [hbase hempty] at hlt
                  omega
              · exact hfact
        · apply pairwise_append.mpr
          use h.ordered, pairwise_singleton _ _
          intro earlier hearlier other hother
          obtain rfl := mem_singleton.mp hother
          intro hnonempty
          rw [hbase hnonempty]
          apply (h.written earlier hearlier).visible

/-- The invariant holds along a run. -/
theorem CommitState.Invariant.run {state : CommitState} (h : state.Invariant)
    (options : GroupOptions) (steps : List CommitStep) :
  (state.run options steps).Invariant
  := by
  induction steps generalizing state with
  | nil => exact h
  | cons step steps ih =>
    apply ih
    apply h.step

/-- The invariant holds when a store was just opened. -/
theorem CommitState.invariant_opened {facts : FactColumn} {visibleSeq : CommitSeq}
    (hfacts : ∀ event ∈ facts.events, event.commitSeq ≤ visibleSeq) (sizes : ValidationSizes)
    (outcomes : List TxnId) :
  CommitState.Invariant { store := opened sizes facts visibleSeq outcomes }
  := by
  use sound_opened hfacts sizes outcomes
  all_goals simp

end Invariant

end Cedar
