import CedarGraph.Fact.FactCodec
import CedarGraph.Projection.DeltaCoverage
import CedarGraph.Storage.CommitFacts

/-!
# Published and repaired commits

A commit reaches the index of a query delta in two ways.  Its publisher hands over the mutations and
the identities of edges of the batch, and a repair reads the facts which were written for it.

The facts which were written are those of the mutations, and one for the identity of each edge.  So
both ways lead to the same identities, but a repair also indexes the facts of the identities.
-/

namespace Cedar

open Except List QueryDeltaView StatusOr StoreCommitBatch FactEvent

/-! ### Facts as bytes -/

/-- The values in the column of the facts by their keys. -/
abbrev FactBytes : Type := List UInt8 → Option (List UInt8)

/-- The column after the facts of a commit were written. -/
def appendFacts : List FactEvent → FactBytes → StatusOr FactBytes
  | [], column => .ok column
  | event :: events, column => do
      let value ← encodeFactValue event
      appendFacts events (Function.update column event.encodedKey (some value))

/-- What a key says, unless the snapshot does not see its commit. -/
def visibleKey (snapshot : CommitSeq) (encoded : List UInt8) :
    StatusOr (List UInt8 × DecodedFactKey) := do
  let key ← decodeFactKey encoded
  if key.commitSeq > snapshot then
    Status.invalidArgument "scan facts" "outside snapshot range"
  else
    return (encoded, key)

def readFact (column : FactBytes) (key : List UInt8 × DecodedFactKey) : StatusOr FactEvent :=
  match column key.1 with
  | none => Status.corruption "scan facts" "sequence references missing fact"
  | some value => decodeFactValue key.2.ref key.2.validFrom key.2.commitSeq value

/-- The facts of some keys. -/
def readExactFacts (column : FactBytes) (snapshot : CommitSeq) (encodedKeys : List (List UInt8)) :
    StatusOr (List FactEvent) := do
  let keys ← encodedKeys.mapM (visibleKey snapshot)
  keys.mapM (readFact column)

variable {events : List FactEvent} {before column : FactBytes}

/-- Each fact is in the column, and the other keys are as before. -/
theorem appendFacts_spec (hdiffer : events.Pairwise fun e f => e.encodedKey ≠ f.encodedKey)
    (h : appendFacts events before = .ok column) :
  (∀ event ∈ events, ∃ value, encodeFactValue event = .ok value ∧
      column event.encodedKey = some value) ∧
    ∀ key, (∀ event ∈ events, event.encodedKey ≠ key) → column key = before key
  := by
  induction events generalizing before with
  | nil =>
    obtain rfl := ok.inj h
    simp
  | cons event events ih =>
    obtain ⟨value, hvalue, h⟩ := bind_eq_ok_iff.mp h
    obtain ⟨hfirst, hdiffer⟩ := pairwise_cons.mp hdiffer
    obtain ⟨hread, hother⟩ := ih hdiffer h
    refine ⟨forall_mem_cons.mpr ⟨⟨value, hvalue, ?_⟩, hread⟩, ?_⟩
    · rw [hother _ fun other hmem heq => hfirst other hmem heq.symm, Function.update_self]
    · intro key hkey
      obtain ⟨hne, hkeys⟩ := forall_mem_cons.mp hkey
      rw [hother key hkeys, Function.update_of_ne (Ne.symm hne)]

/-- The facts of a commit are read as they were written. -/
theorem readExactFacts_appendFacts {commitSeq snapshot : CommitSeq}
    (hevents : OfCommit commitSeq events)
    (hdiffer : events.Pairwise fun e f => e.encodedKey ≠ f.encodedKey)
    (hsnapshot : commitSeq ≤ snapshot) (h : appendFacts events before = .ok column) :
  readExactFacts column snapshot (events.map encodedKey) = .ok events
  := by
  have hkeys : (events.map encodedKey).mapM (visibleKey snapshot) = .ok (events.map
      fun event => (event.encodedKey, ⟨event.ref, event.validFrom, event.commitSeq⟩)) := by
    rw [mapM_eq_ok_iff, forall₂_map_left_iff, forall₂_map_right_iff,
      forall₂_same]
    intro event hevent
    obtain ⟨hvalid, hcommit⟩ := hevents event hevent
    rw [visibleKey, decodeFactKey_encodedKey hvalid, ok_bind,
      if_neg (by rw [hcommit]; exact not_lt.mpr hsnapshot)]
    rfl
  rw [readExactFacts, hkeys, ok_bind, mapM_eq_ok_iff,
    forall₂_map_left_iff, forall₂_same]
  intro event hevent
  obtain ⟨value, hvalue, hcolumn⟩ := (appendFacts_spec hdiffer h).1 event hevent
  rw [readFact, hcolumn]
  exact decodeFactValue_eq_ok_iff.mpr ⟨⟨rfl, rfl, rfl⟩, hvalue⟩

/-! ### Two ways into the index -/

namespace StoreCommitBatch

variable (batch : StoreCommitBatch)

/-- What a publisher hands over. -/
def published (commitSeq : CommitSeq) : QueryDeltaCommit where
  commitSeq := commitSeq
  mutations := batch.mutations
  edgeIdentities := batch.edgeIdentities

/-- What a repair makes from the facts which were written. -/
def repaired (commitSeq : CommitSeq) : QueryDeltaCommit where
  commitSeq := commitSeq
  facts := batch.commitFacts commitSeq
  edgeIdentities := (batch.commitFacts commitSeq).filterMap FactEvent.edgeIdentity

/-- The sequence record of a batch. -/
def recordAt (commitSeq : CommitSeq) : SequenceRecord :=
  ⟨commitSeq, batch.txnId, batch.systemHlc, (batch.commitFacts commitSeq).map FactEvent.encodedKey⟩

variable {batch : StoreCommitBatch} {commitSeq : CommitSeq}

/-- The facts which were written have the identities of the batch. -/
theorem edgeIdentities_repaired :
  (batch.repaired commitSeq).edgeIdentities = batch.edgeIdentities
  := by
  rw [repaired, commitFacts, filterMap_append, filterMap_map, filterMap_map]
  have hmutations : batch.mutations.filterMap (edgeIdentity ∘ fun mutation =>
      (⟨mutation.ref, mutation.validFrom, commitSeq, mutation.operation, mutation.schemaEpoch,
        mutation.value, none⟩ : FactEvent)) = [] := by
    simp
  rw [hmutations]
  exact filterMap_some

/-- The fact of the identity of an edge. -/
def identityFact (commitSeq : CommitSeq) (identity : EdgeIdentity) : FactEvent :=
  ⟨identityRef identity, 0, commitSeq, .put, 0, none, some identity⟩

/-- A repair indexes a fact more for each identity. -/
theorem facts_repaired :
  (batch.repaired commitSeq).normalize.facts =
    (batch.published commitSeq).normalize.facts ++ batch.edgeIdentities.map (identityFact commitSeq)
  := by
  simp [QueryDeltaCommit.normalize, repaired, published, commitFacts, identityFact]

end StoreCommitBatch

/-! ### What a view has -/

/-- The facts of a commit in a view. -/
def QueryDeltaView.factsAt (view : QueryDeltaView) (sequence : CommitSeq) : List FactEvent :=
  view.facts.filter fun event => event.commitSeq = sequence

namespace QueryDelta

/-- The identities of edges in a view. -/
def edgeIdentities (delta : QueryDelta) (snapshot : CommitSeq) : List EdgeIdentity :=
  (delta.covered snapshot delta.commits).flatMap QueryDeltaCommit.edgeIdentities

/-- The identities of edges in a view, with their commits. -/
def edgeIdentityRecords (delta : QueryDelta) (snapshot : CommitSeq) :
    List (CommitSeq × EdgeIdentity) :=
  (delta.covered snapshot delta.commits).flatMap fun commit =>
    commit.edgeIdentities.map fun identity => (commit.commitSeq, identity)

/-- The store has the record of a commit, and the facts which were written for it. -/
structure Stores (source : RepairSource) (batch : StoreCommitBatch) (commitSeq : CommitSeq) :
    Prop where
  record : ∀ entry ∈ source.records, entry.1 = commitSeq → entry.2 = batch.recordAt commitSeq
  facts : ∃ before column, appendFacts (batch.commitFacts commitSeq) before = .ok column ∧
    source.readExactFacts = readExactFacts column source.commitSeq

section Ways

variable {estimatedBytes : QueryDeltaCommit → Nat} {delta live repaired : QueryDelta}
  {batch : StoreCommitBatch} {commit : QueryDeltaCommit} {sequence : CommitSeq}
  {source : RepairSource} {limits : QueryDeltaRepairLimits}

/-- A published descriptor which is accepted is the next one, and it is indexed. -/
theorem observePublished_ok (h : delta.observePublished estimatedBytes commit = (live, .ok ())) :
  commit.commitSeq ≠ 0 ∧ commit.commitSeq = delta.indexedThrough + 1 ∧
    delta.options.baseSeq < commit.commitSeq ∧
    live.options.baseSeq = delta.options.baseSeq ∧
    live.commits = delta.commits ++ [commit.normalize]
  := by
  rw [observePublished] at h
  split at h
  · cases (Prod.mk.inj h).2
  case h_2 hvalid =>
    have hzero : commit.commitSeq ≠ 0 := (guard_eq_ok_iff.mp hvalid).1
    split at h
    · cases (Prod.mk.inj h).2
    case isFalse hbase =>
      dsimp only at h
      split at h
      · cases (Prod.mk.inj h).2
      case isFalse hnext =>
        split at h
        · cases (Prod.mk.inj h).2
        · have hcases := indexLocked_cases estimatedBytes
            (delta.advanceVisible commit.commitSeq) commit
          split at h
          case h_1 indexed hindexed =>
            rw [hindexed] at hcases
            rcases hcases with ⟨_, herror, -⟩ | ⟨-, hindexes⟩
            · cases herror
            · obtain ⟨rfl, -⟩ := Prod.mk.inj h
              exact ⟨hzero, not_not.mp hnext, not_le.mp hbase, hindexes.baseSeq_eq,
                hindexes.commits_eq⟩
          · cases (Prod.mk.inj h).2

/-- The range of one sequence has the record of its key. -/
theorem readSequenceRange_self {records : List SequenceRecord}
    (h : source.readSequenceRange sequence sequence = .ok records) :
  ∃ record, (sequence, record) ∈ source.records ∧ records = [record]
  := by
  obtain ⟨-, h⟩ := guard_eq_ok_iff.mp h
  obtain ⟨-, h⟩ := guard_eq_ok_iff.mp h
  obtain ⟨found, hfound, h⟩ := bind_eq_ok_iff.mp h
  obtain ⟨hlength, h⟩ := guard_eq_ok_iff.mp h
  obtain rfl := ok.inj h
  have hsublist := dropWhile_sublist (l := source.records)
    fun entry => decide (entry.1 < sequence)
  generalize source.records.dropWhile (fun entry => decide (entry.1 < sequence)) = entries
    at hfound hsublist
  rcases entries with - | ⟨⟨key, record⟩, rest⟩
  · obtain rfl := ok.inj hfound
    simp at hlength
  · rw [RepairSource.readRecords] at hfound
    obtain ⟨hkey, hfound⟩ := guard_eq_ok_iff.mp hfound
    obtain ⟨-, hfound⟩ := guard_eq_ok_iff.mp hfound
    rw [if_pos rfl] at hfound
    refine ⟨record, ?_, (ok.inj hfound).symm⟩
    rw [← not_not.mp hkey]
    exact hsublist.subset mem_cons_self

/-- A repair of the next commit indexes the facts which were written for it. -/
theorem repairThrough_ok (hvalid : batch.validate = .ok ()) (hzero : sequence ≠ 0)
    (hnext : sequence = delta.indexedThrough + 1) (hstores : Stores source batch sequence)
    (h : delta.repairThrough estimatedBytes source sequence limits = (repaired, .ok ())) :
  repaired.options.baseSeq = delta.options.baseSeq ∧
    repaired.commits = delta.commits ++ [(batch.repaired sequence).normalize]
  := by
  have hlater : ¬ sequence ≤ delta.indexedThrough := by
    have hlast : delta.indexedThrough ≠ -1 := by
      intro hlast
      rw [hnext, hlast] at hzero
      exact hzero rfl
    rw [hnext, UInt64.le_iff_toNat_le, Word.toNat_add_one hlast]
    omega
  rw [repairThrough, if_neg hlater] at h
  split at h
  · cases (Prod.mk.inj h).2
  case isFalse hsnapshot =>
    split at h
    · cases (Prod.mk.inj h).2
    · rw [← hnext] at h
      split at h
      · cases (Prod.mk.inj h).2
      case h_2 records hrecords =>
        obtain ⟨record, hmem, rfl⟩ := readSequenceRange_self hrecords
        obtain rfl : record = batch.recordAt sequence := hstores.record _ hmem rfl
        -- what is read are the facts which were written
        have hread : source.readExactFacts (batch.recordAt sequence).factKeys =
            .ok (batch.commitFacts sequence) := by
          obtain ⟨before, column, hwritten, hexact⟩ := hstores.facts
          rw [hexact]
          exact readExactFacts_appendFacts
            (ofCommit_commitFacts hvalid hzero)
            (pairwise_commitFacts hvalid hzero) (not_lt.mp hsnapshot) hwritten
        split at h
        · cases (Prod.mk.inj h).2
        case h_2 descriptors hdescriptors =>
          rw [repairDescriptors, hread] at hdescriptors
          obtain ⟨-, hdescriptors⟩ := guard_eq_ok_iff.mp hdescriptors
          obtain rfl := ok.inj hdescriptors
          have hcases := indexLocked_cases estimatedBytes delta (batch.repaired sequence)
          split at h
          · cases (Prod.mk.inj h).2
          case h_2 indexed hindexed =>
            rw [indexAll] at hindexed
            split at hindexed
            case h_1 delta' hlocked =>
              obtain rfl : delta' = indexed := (Prod.mk.inj hindexed).1
              obtain ⟨rfl, -⟩ := Prod.mk.inj h
              change delta.indexLocked estimatedBytes (batch.repaired sequence) = _ at hlocked
              rw [hlocked] at hcases
              rcases hcases with ⟨_, herror, -⟩ | ⟨-, hindexes⟩
              · cases herror
              · split <;> exact ⟨hindexes.baseSeq_eq, hindexes.commits_eq⟩
            · cases (Prod.mk.inj hindexed).2

/-- The descriptors of a view through a commit which was indexed. -/
theorem covered_of_commits {indexed : QueryDelta} (hbase : delta.options.baseSeq < sequence)
    (hbaseSeq : indexed.options.baseSeq = delta.options.baseSeq)
    (hcommits : indexed.commits = delta.commits ++ [commit])
    (hcommit : commit.commitSeq = sequence) :
  indexed.covered sequence indexed.commits = delta.covered sequence delta.commits ++ [commit]
  := by
  rw [covered, covered, hbaseSeq, hcommits]
  simp [hcommit, hbase]

variable {sorter : Sorter FactEvent.eventKey} {view : QueryDeltaView}

/-- The view of a delta which is covered has the facts of its descriptors. -/
theorem facts_of_acquireThrough (h : delta.acquireThrough sorter sequence = .ok view) :
  view.facts =
    sorter.sort ((delta.covered sequence delta.commits).flatMap QueryDeltaCommit.facts)
  := by
  obtain ⟨_, -, h⟩ := bind_eq_ok_iff.mp h
  rw [← ok.inj h]

/-- The number of the facts of a commit in a view. -/
theorem length_factsAt {events : List FactEvent} (hfacts : view.facts = sorter.sort events) :
  (view.factsAt sequence).length =
    (events.filter fun event => event.commitSeq = sequence).length
  := by
  rw [factsAt, hfacts]
  exact ((sorter.perm events).filter _).length_eq

/-- A commit which is published and one which is repaired lead to the same identities of edges.
They lead to the same facts exactly if the commit has no identities. -/
theorem published_repaired_agree_iff (estimatedBytes : QueryDeltaCommit → Nat)
    (sorter : Sorter FactEvent.eventKey) (delta live repaired : QueryDelta)
    (batch : StoreCommitBatch) (sequence : CommitSeq) (source : RepairSource)
    (limits : QueryDeltaRepairLimits) (view view' : QueryDeltaView)
    (hvalid : batch.validate = .ok ()) (hstores : Stores source batch sequence)
    (hlive : delta.observePublished estimatedBytes (batch.published sequence) = (live, .ok ()))
    (hrepair : delta.repairThrough estimatedBytes source sequence limits = (repaired, .ok ()))
    (hview : live.acquireThrough sorter sequence = .ok view)
    (hview' : repaired.acquireThrough sorter sequence = .ok view') :
  (live.edgeIdentities sequence = repaired.edgeIdentities sequence ∧
      live.edgeIdentityRecords sequence = repaired.edgeIdentityRecords sequence) ∧
    (view.factsAt sequence = view'.factsAt sequence ↔ batch.edgeIdentities = [])
  := by
  obtain ⟨hzero, hnext, hbase, hliveBase, hliveCommits⟩ := observePublished_ok hlive
  change sequence ≠ 0 at hzero
  change delta.options.baseSeq < sequence at hbase
  obtain ⟨hrepairBase, hrepairCommits⟩ := repairThrough_ok hvalid hzero hnext hstores hrepair
  have hcovered := covered_of_commits hbase hliveBase hliveCommits rfl
  have hcovered' := covered_of_commits hbase hrepairBase hrepairCommits rfl
  have hsame : (batch.repaired sequence).normalize.edgeIdentities =
      (batch.published sequence).normalize.edgeIdentities :=
    edgeIdentities_repaired
  have hfacts := facts_of_acquireThrough hview
  have hfacts' := facts_of_acquireThrough hview'
  rw [hcovered, flatMap_append, flatMap_singleton] at hfacts
  rw [hcovered', flatMap_append, flatMap_singleton,
    facts_repaired] at hfacts'
  refine ⟨⟨?_, ?_⟩, ?_⟩
  · rw [edgeIdentities, edgeIdentities, hcovered, hcovered', flatMap_append,
      flatMap_append, flatMap_singleton, flatMap_singleton, hsame]
  · rw [edgeIdentityRecords, edgeIdentityRecords, hcovered, hcovered', flatMap_append,
      flatMap_append, flatMap_singleton, flatMap_singleton, hsame]
    rfl
  · constructor
    · intro heq
      -- the facts of the identities are facts of the commit
      have hall : ((batch.edgeIdentities.map (identityFact sequence)).filter
          fun event => event.commitSeq = sequence) =
            batch.edgeIdentities.map (identityFact sequence) :=
        filter_eq_self.mpr (by simp [identityFact])
      have hlength := congrArg length heq
      rw [length_factsAt hfacts, length_factsAt hfacts', filter_append, filter_append,
        filter_append, length_append, length_append, length_append, hall,
        length_map] at hlength
      exact eq_nil_of_length_eq_zero (by omega)
    · intro hnil
      rw [hnil, map_nil, append_nil] at hfacts'
      rw [factsAt, factsAt, hfacts, hfacts']

end Ways

/-! ### An edge -/

/-- A store with the first commit only. -/
def firstCommit (batch : StoreCommitBatch) : RepairSource where
  commitSeq := 1
  sequenceRetention := 0
  records := [(1, batch.recordAt 1)]
  readExactFacts := readExactFacts
    ((appendFacts (batch.commitFacts 1) fun _ => none).toOption.getD fun _ => none) 1

theorem exists_of_isOk {α : Type} {x : StatusOr α} (h : x.isOk = true) :
  ∃ a, x = .ok a
  := by
  cases x with
  | error e => cases h
  | ok a => exact ⟨a, rfl⟩

theorem firstCommit_stores {batch : StoreCommitBatch}
    (h : (appendFacts (batch.commitFacts 1) fun _ => none).isOk = true) :
  Stores (firstCommit batch) batch 1
  := by
  obtain ⟨column, hcolumn⟩ := exists_of_isOk h
  constructor
  · intro entry hentry _
    rw [mem_singleton.mp hentry]
  · refine ⟨_, column, hcolumn, ?_⟩
    rw [firstCommit, hcolumn]
    rfl

/-- The first commit, with an edge or with a vertex only. -/
def edgeBatch (identities : List EdgeIdentity) : StoreCommitBatch where
  txnId := 7
  systemHlc := 5
  mutations := [⟨⟨0, .vertexState, 0, 1⟩, 3, .put, 0, none⟩,
    ⟨⟨0, .edgeState, 0, 9⟩, 3, .put, 0, none⟩]
  edgeIdentities := identities

/-- The delta after the commit was published. -/
def publishedDelta (batch : StoreCommitBatch) : QueryDelta × Status :=
  (new {}).observePublished (fun _ => 0) (batch.published 1)

/-- The delta after the commit was repaired. -/
def repairedDelta (batch : StoreCommitBatch) : QueryDelta × Status :=
  (new {}).repairThrough (fun _ => 0) (firstCommit batch) 1 {}

/-- The view of a delta through the first commit. -/
def firstView (delta : QueryDelta) : StatusOr QueryDeltaView :=
  delta.acquireThrough (Sorter.insertion FactEvent.eventKey) 1

theorem vertices_agree :
  ∃ view view', firstView (publishedDelta (edgeBatch [])).1 = .ok view ∧
    firstView (repairedDelta (edgeBatch [])).1 = .ok view' ∧ view.factsAt 1 = view'.factsAt 1
  := by
  have hstores : Stores (firstCommit (edgeBatch [])) (edgeBatch []) 1 :=
    firstCommit_stores (by decide +kernel)
  obtain ⟨view, hview⟩ := @exists_of_isOk _ (firstView (publishedDelta (edgeBatch [])).1)
    (by decide +kernel)
  obtain ⟨view', hview'⟩ := @exists_of_isOk _ (firstView (repairedDelta (edgeBatch [])).1)
    (by decide +kernel)
  refine ⟨view, view', hview, hview', ?_⟩
  have hlive : (publishedDelta (edgeBatch [])).2 = .ok () := by decide +kernel
  have hrepair : (repairedDelta (edgeBatch [])).2 = .ok () := by decide +kernel
  rcases hpublished : publishedDelta (edgeBatch []) with ⟨live, status⟩
  rcases hrepaired : repairedDelta (edgeBatch []) with ⟨repaired, status'⟩
  rw [hpublished] at hlive hview
  rw [hrepaired] at hrepair hview'
  obtain rfl : status = .ok () := hlive
  obtain rfl : status' = .ok () := hrepair
  rw [publishedDelta] at hpublished
  rw [repairedDelta] at hrepaired
  exact (published_repaired_agree_iff _ _ _ _ _ _ _ _ _ _ _ (by decide +kernel) hstores
    hpublished hrepaired hview hview').2.mpr rfl

/-- The fact of the identity of an edge is in the view after a repair only. -/
theorem edge_differs :
  (edgeBatch [⟨9, 1, 2, 3, 0, 0, 0⟩]).validate = .ok () ∧
    Stores (firstCommit (edgeBatch [⟨9, 1, 2, 3, 0, 0, 0⟩])) (edgeBatch [⟨9, 1, 2, 3, 0, 0, 0⟩]) 1 ∧
    (firstView (publishedDelta (edgeBatch [⟨9, 1, 2, 3, 0, 0, 0⟩])).1).map
      (fun view => (view.factsAt 1).length) = .ok 2 ∧
    (firstView (repairedDelta (edgeBatch [⟨9, 1, 2, 3, 0, 0, 0⟩])).1).map
      (fun view => (view.factsAt 1).length) = .ok 3
  := ⟨by decide +kernel, firstCommit_stores (by decide +kernel), by decide +kernel,
    by decide +kernel⟩

end QueryDelta

end Cedar
