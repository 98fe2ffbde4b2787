import CedarGraph.Lib.Lists
import CedarGraph.Storage.DurableState

/-!
# What is needed to open a store again

The main result says when the validation of a store passes which was reached by any steps from an
empty store.  The records from the retention watermark on follow each other up to the visible commit,
and the facts of the commits from the oldest readable one on are there: what a vacuum deletes is
older.
-/

namespace Cedar

open Except FactEvent List StatusOr UInt64 CommitStore

/-! ### The scan -/

section Scan

variable {state : DurableState} {facts : FactColumn} {factsFrom : CommitSeq}

/-- The record of a commit can be read, and its facts are there from a commit on. -/
def RecordOk (facts : FactColumn) (factsFrom : CommitSeq) (entry : CommitSeq × SequenceRecordV2) :
    Prop :=
  ∃ keys, decodeSequenceRecordView entry.2 entry.1 = .ok ⟨entry.1, entry.2.txnId, keys⟩ ∧
    SequenceRecordView.validate ⟨entry.1, entry.2.txnId, keys⟩ = .ok () ∧
    (factsFrom ≤ entry.1 → ∀ key ∈ keys, ∃ event ∈ facts.events, event.encodedKey = key)

theorem validateSequenceFacts_eq_ok {commitSeq : CommitSeq} {requireFacts : Bool}
    {keys : List (List UInt8)} (hkeys : ∀ key ∈ keys, ∃ decoded,
      decodeFactKey key = .ok decoded ∧ decoded.commitSeq = commitSeq)
    (hfacts : requireFacts = true → ∀ key ∈ keys, ∃ event ∈ facts.events,
      event.encodedKey = key) :
  validateSequenceFacts facts commitSeq requireFacts keys = .ok ()
  := by
  induction keys with
  | nil => rfl
  | cons key keys ih =>
    obtain ⟨⟨decoded, hdecoded, hcommit⟩, hkeys⟩ := forall_mem_cons.mp hkeys
    rw [validateSequenceFacts, hdecoded]
    dsimp only
    rw [if_neg (not_not.mpr hcommit)]
    have hpresent : (requireFacts &&
        !facts.events.any fun event => event.encodedKey = key) = false := by
      cases hrequire : requireFacts with
      | false => rfl
      | true =>
        obtain ⟨event, hevent, hkey⟩ := hfacts hrequire key mem_cons_self
        rw [Bool.true_and, Bool.not_eq_false', any_eq_true]
        use event, hevent
        simpa using hkey
    rw [if_neg (by simp [hpresent])]
    apply ih hkeys
    intro hrequire other hother
    apply hfacts hrequire other (mem_cons_of_mem _ hother)

/-- A record which is in order passes. -/
theorem RecordOk.validate {entry : CommitSeq × SequenceRecordV2}
    (h : RecordOk facts factsFrom entry) :
  ∃ keys, decodeSequenceRecordView entry.2 entry.1 = .ok ⟨entry.1, entry.2.txnId, keys⟩ ∧
    validateSequenceRecordContent facts entry.1 ⟨entry.1, entry.2.txnId, keys⟩
      (decide (entry.1 ≥ factsFrom)) = .ok ()
  := by
  obtain ⟨keys, hdecode, hvalid, hfacts⟩ := h
  use keys, hdecode
  rw [validateSequenceRecordContent, if_neg (not_not.mpr rfl), hvalid]
  rw [SequenceRecordView.validate] at hvalid
  obtain ⟨-, hvalid⟩ := guard_eq_ok_iff.mp hvalid
  apply validateSequenceFacts_eq_ok (checkFactKeys_eq_ok_iff.mp hvalid).1
  intro hrequire
  apply hfacts (of_decide_eq_true hrequire)

/-- The outcome which is there is the one of a record. -/
def OutcomeMatches (state : DurableState) (expected : TxnId × CommitSeq) : Prop :=
  state.outcome expected.1 = some ⟨expected.1, expected.2⟩

theorem validateSequenceOutcomeBatch_eq_ok_iff {outcomes : List (TxnId × CommitSeq)} :
  validateSequenceOutcomeBatch state outcomes = .ok () ↔
    ∀ expected ∈ outcomes, OutcomeMatches state expected
  := by
  induction outcomes with
  | nil => simp [validateSequenceOutcomeBatch]
  | cons expected rest ih =>
    rw [validateSequenceOutcomeBatch, forall_mem_cons, OutcomeMatches]
    split
    case h_1 hnone =>
      rw [hnone]
      simp [Status.corruption]
    case h_2 outcome hsome =>
      obtain ⟨txnId, commitSeq⟩ := outcome
      rw [hsome]
      split
      case isTrue hne =>
        constructor
        · intro h
          cases h
        · rintro ⟨heq, -⟩
          obtain ⟨htxn, hcommit⟩ := TransactionOutcomeRecord.mk.inj (Option.some.inj heq)
          obtain hne | hne := hne
          · cases hne htxn
          · cases hne hcommit
      case isFalse heq =>
        push Not at heq
        dsimp only at heq
        rw [ih, heq.1, heq.2]
        simp

/-- The scan of records which follow each other up to the visible commit passes if all outcomes
match. -/
theorem scanSequences_eq_ok_iff (options : RecoveryOptions)
    {entries : List (CommitSeq × SequenceRecordV2)} {low : Nat}
    (hkeys : entries.map (fun entry => entry.1.toNat) = range' low entries.length)
    (hvisible : low + entries.length = state.store.visibleSeq.toNat + 1)
    (hok : ∀ entry ∈ entries, RecordOk state.store.facts factsFrom entry)
    (outcomes : List (TxnId × CommitSeq)) :
  (do
      let scan ← scanSequences options state factsFrom (UInt64.ofNat low) outcomes entries
      finishScan state scan) = .ok () ↔
    ∀ expected ∈ outcomes ++ entries.map (fun entry => (entry.2.txnId, entry.1)),
      OutcomeMatches state expected
  := by
  induction entries generalizing low outcomes with
  | nil =>
    have hexpected : ofNat low = state.store.visibleSeq + 1 := by
      rw [length_nil, Nat.add_zero] at hvisible
      rw [hvisible, UInt64.ofNat_add, UInt64.ofNat_toNat]
      rfl
    rw [scanSequences, ok_bind, finishScan, map_nil, append_nil]
    dsimp only
    rw [if_neg (not_not.mpr hexpected), if_neg (not_not.mpr rfl)]
    rw [← validateSequenceOutcomeBatch_eq_ok_iff]
    cases validateSequenceOutcomeBatch state outcomes with
    | error status | ok => simp [bind, Except.bind]
  | cons entry rest ih =>
    rw [map_cons, length_cons, range'_succ] at hkeys
    obtain ⟨hkey, hkeys⟩ := cons.inj hkeys
    rw [length_cons] at hvisible
    obtain ⟨hentry, hok⟩ := forall_mem_cons.mp hok
    have hexpected : ofNat low = entry.1 := by
      rw [← hkey, UInt64.ofNat_toNat]
    have hnext : entry.1 + 1 = ofNat (low + 1) := by
      rw [ofNat_add, hexpected]
      rfl
    have hle : entry.1 ≤ state.store.visibleSeq := by
      rw [le_iff_toNat_le]
      omega
    obtain ⟨keys, hdecode, hcontent⟩ := hentry.validate
    rw [scanSequences, hexpected, if_neg (not_not.mpr hle), if_neg (not_not.mpr rfl), hdecode,
      ok_bind, hcontent, ok_bind, hnext]
    dsimp only
    have hassoc : ∀ outcomes : List (TxnId × CommitSeq),
        outcomes ++ (entry :: rest).map (fun entry => (entry.2.txnId, entry.1)) =
          (outcomes ++ [(entry.2.txnId, entry.1)]) ++
            rest.map (fun entry => (entry.2.txnId, entry.1)) := by simp
    rw [hassoc]
    split
    · rw [forall_mem_append, ← validateSequenceOutcomeBatch_eq_ok_iff]
      have ih := ih hkeys (by omega) hok []
      rw [nil_append] at ih
      cases hbatch : validateSequenceOutcomeBatch state
          (outcomes ++ [(entry.2.txnId, entry.1)]) with
      | error status => simp [bind, Except.bind]
      | ok =>
        rw [ok_bind, ih]
        simp
    · apply ih hkeys (by omega) hok

/-- The records from a commit on follow each other. -/
theorem map_dropWhile_range' {α : Type} {f : α → Nat} {l : List α} {low first : Nat}
    (hkeys : l.map f = range' low l.length) (hlow : low ≤ first)
    (hfirst : first ≤ low + l.length) :
  (l.dropWhile fun a => f a < first).map f =
      range' first (l.dropWhile fun a => f a < first).length ∧
    first + (l.dropWhile fun a => f a < first).length = low + l.length
  := by
  induction l generalizing low with
  | nil =>
    rw [length_nil] at hfirst
    simp
    omega
  | cons a l ih =>
    rw [map_cons, length_cons, range'_succ] at hkeys
    obtain ⟨hkey, hkeys⟩ := cons.inj hkeys
    rw [length_cons] at hfirst
    by_cases hlt : f a < first
    · rw [dropWhile_cons_of_pos (by simpa using hlt)]
      have ih := ih hkeys (by omega) (by omega)
      rw [length_cons]
      use ih.1
      omega
    · rw [dropWhile_cons_of_neg (by simpa using hlt)]
      have heq : low = first := by omega
      rw [map_cons, length_cons, range'_succ, hkey, hkeys, heq]
      simp

end Scan

/-! ### What a vacuum deletes -/

section Vacuum

theorem VacuumStore.iteratorFrom_sublist (facts : FactColumn) (cursor : List UInt8) :
  (iteratorFrom facts cursor).Sublist facts.events
  := by
  rw [iteratorFrom]
  split
  · have hseek : (facts.seek cursor).Sublist facts.events := dropWhile_sublist _
    split
    case h_1 event rest hsplit =>
      rw [hsplit] at hseek
      split
      · apply (sublist_cons_self _ _).trans hseek
      · exact hseek
    · apply nil_sublist
  · apply Sublist.refl

/-- A batch of a vacuum deletes only facts which are older than the target. -/
theorem VacuumStore.deleteObsoleteFactVersions_keeps {maxKeys : Nat} {store : VacuumStore}
    {vacuum : VacuumState} {result : VacuumStore × Bool}
    (h : store.deleteObsoleteFactVersions maxKeys vacuum = .ok result) :
  (∀ event ∈ result.1.facts.events, event ∈ store.facts.events) ∧
    (∀ event ∈ store.facts.events, vacuum.target ≤ event.commitSeq →
      event ∈ result.1.facts.events) ∧
    ∀ next ∈ result.1.vacuumState, next.target = vacuum.target
  := by
  obtain ⟨plan, hplan, h⟩ := bind_eq_ok_iff.mp h
  have hsublist := iteratorFrom_sublist store.facts vacuum.cursor
  let todo : FactColumn := ⟨iteratorFrom store.facts vacuum.cursor,
    fun event hevent => store.facts.valid event (hsublist.subset hevent),
    store.facts.sorted.sublist hsublist⟩
  have hstart := progress_start { store with facts := todo } vacuum.target
  obtain ⟨batch, rest, planner, hsplit, hall, -⟩ :=
    (hstart.tracks maxKeys).considerAll_eq hstart.split
  have hkeys := congrArg Prod.fst (ok.inj (hplan.symm.trans hall))
  have hkeeps : ∀ event ∈ store.facts.events, vacuum.target ≤ event.commitSeq →
      event ∈ (store.facts.filter fun event => !plan.1.contains event.encodedKey).events := by
    intro event hevent hle
    rw [FactColumn.events_filter, mem_filter]
    use hevent
    rw [Bool.not_eq_true', ← Bool.not_eq_true, contains_iff_mem]
    intro hkey
    rw [hkeys] at hkey
    obtain ⟨other, hother, hsame⟩ := mem_map.mp hkey
    obtain ⟨hother, hobsolete⟩ := mem_filter.mp hother
    obtain ⟨newer, -, -, -, hlt, hle'⟩ := obsolete_iff.mp hobsolete
    have hmem : other ∈ todo.events := by
      rw [hsplit]
      apply mem_append_left _ hother
    obtain rfl := eq_of_encodedKey_eq (hsublist.subset hmem) hevent hsame
    apply lt_irrefl _ (lt_of_lt_of_le hlt (le_trans hle' hle))
  have hsubset : ∀ event ∈ (store.facts.filter fun event =>
      !plan.1.contains event.encodedKey).events, event ∈ store.facts.events := by
    intro event hevent
    apply (mem_filter.mp hevent).1
  split at h
  · obtain rfl := ok.inj h
    use hsubset, hkeeps
    simp
  · obtain ⟨_, -, h⟩ := bind_eq_ok_iff.mp h
    obtain rfl := ok.inj h
    use hsubset, hkeeps
    simp

end Vacuum

/-! ### The invariant -/

/-- What holds for every store which is reached from an empty one. -/
structure DurableState.Invariant (state : DurableState) : Prop where
  sound : state.store.Sound
  retention_le : state.sequenceRetentionWatermark ≤ state.oldestReadableSeq
  oldest_le : state.oldestReadableSeq ≤ state.store.visibleSeq
  vacuum : ∀ vacuum ∈ state.vacuumState, vacuum.target ≤ state.oldestReadableSeq
  /-- The records follow each other up to the visible commit, from the retention watermark or an
  earlier commit on. -/
  contiguous : ∃ low, 1 ≤ low ∧ low ≤ max 1 state.sequenceRetentionWatermark.toNat ∧
    state.sequences.map (fun entry => entry.1.toNat) = List.range' low state.sequences.length ∧
    low + state.sequences.length = state.store.visibleSeq.toNat + 1
  records : ∀ entry ∈ state.sequences,
    RecordOk state.store.facts state.oldestReadableSeq entry
  recorded : ∀ entry ∈ state.sequences, ⟨entry.2.txnId, entry.1⟩ ∈ state.transactionOutcomes
  retained : ∀ outcome ∈ state.transactionOutcomes,
    max 1 state.sequenceRetentionWatermark ≤ outcome.commitSeq →
      ∃ entry ∈ state.sequences, entry.1 = outcome.commitSeq ∧ entry.2.txnId = outcome.txnId
  ordered : state.transactionOutcomes.Pairwise fun o p => p.commitSeq < o.commitSeq
  outcome_le : ∀ outcome ∈ state.transactionOutcomes,
    outcome.commitSeq ≤ state.store.visibleSeq
  last : state.store.visibleSeq =
    (state.transactionOutcomes.head?.map TransactionOutcomeRecord.commitSeq).getD 0

section Steps

variable {state : DurableState} {facts facts' : FactColumn} {factsFrom factsFrom' : CommitSeq}

variable {event : FactEvent} {decided : List DecidedBatch}

theorem commitSeq_of_mem_factKeys {view : SequenceRecordView} (h : view.validate = .ok ())
    (hvalid : event.validate = .ok ()) (hkey : event.encodedKey ∈ view.factKeys) :
  event.commitSeq = view.commitSeq
  := by
  rw [SequenceRecordView.validate] at h
  obtain ⟨-, h⟩ := guard_eq_ok_iff.mp h
  obtain ⟨decoded, hdecoded, hcommit⟩ := (checkFactKeys_eq_ok_iff.mp h).1 _ hkey
  rw [decodeFactKey_encodedKey hvalid] at hdecoded
  obtain rfl := ok.inj hdecoded
  apply hcommit

/-- A record stays in order while facts of its commit stay. -/
theorem RecordOk.mono {entry : CommitSeq × SequenceRecordV2} (h : RecordOk facts factsFrom entry)
    (hle : factsFrom ≤ factsFrom')
    (hfacts : ∀ event ∈ facts.events, factsFrom' ≤ event.commitSeq → event ∈ facts'.events) :
  RecordOk facts' factsFrom' entry
  := by
  obtain ⟨keys, hdecode, hvalid, hpresent⟩ := h
  use keys, hdecode, hvalid
  intro hfrom key hkey
  obtain ⟨event, hevent, rfl⟩ := hpresent (le_trans hle hfrom) key hkey
  use event
  constructor
  · apply hfacts event hevent
    have hcommit := commitSeq_of_mem_factKeys hvalid (facts.valid event hevent) hkey
    rw [hcommit]
    exact hfrom
  · rfl

variable {records : List (CommitSeq × SequenceRecordV2)} {events : List FactEvent}
  {epoch : DecidedEpoch}

/-- The records of a group, one for each of its batches. -/
theorem sequenceRecords_spec (h : sequenceRecords decided = .ok records) :
  Forall₂ (fun d entry => entry.1 = d.commitSeq ∧ d.sequenceRecord = .ok entry.2) decided
    records
  := by
  induction decided generalizing records with
  | nil =>
    obtain rfl := ok.inj h
    apply Forall₂.nil
  | cons d rest ih =>
    obtain ⟨record, hrecord, h⟩ := bind_eq_ok_iff.mp h
    obtain ⟨tail, htail, h⟩ := bind_eq_ok_iff.mp h
    obtain rfl := ok.inj h
    apply Forall₂.cons ⟨rfl, hrecord⟩ (ih htail)

theorem map_fst_sequenceRecords
    (h : Forall₂ (fun d entry => entry.1 = d.commitSeq ∧ d.sequenceRecord = .ok entry.2) decided
      records) :
  records.map Prod.fst = decided.map DecidedBatch.commitSeq
  := by
  induction h with
  | nil => rfl
  | cons hentry _ ih => rw [map_cons, map_cons, hentry.1, ih]

/-- The record of a decided batch can be read. -/
theorem DecidedBatch.Checked.decode_sequenceRecord {base : CommitSeq} {decided : DecidedBatch}
    (h : decided.Checked events base) {record : SequenceRecordV2}
    (hrecord : decided.sequenceRecord = .ok record) :
  record.txnId = decided.batch.txnId ∧
    decodeSequenceRecordView record decided.commitSeq =
      .ok ⟨decided.commitSeq, decided.batch.txnId,
        (decided.batch.commitFacts decided.commitSeq).map encodedKey⟩ ∧
    SequenceRecordView.validate ⟨decided.commitSeq, decided.batch.txnId,
        (decided.batch.commitFacts decided.commitSeq).map encodedKey⟩ = .ok ()
  := by
  have hkeys : (decided.facts.map fun event => event.val.encodedKey) =
      (decided.batch.commitFacts decided.commitSeq).map encodedKey := by
    rw [← h.facts, map_map]
    rfl
  have hevents : OfCommit decided.commitSeq (decided.batch.commitFacts decided.commitSeq) := by
    intro event hevent
    constructor
    · rw [← h.facts] at hevent
      obtain ⟨fact, -, rfl⟩ := mem_map.mp hevent
      exact fact.property
    · apply StoreCommitBatch.commitSeq_of_mem_commitFacts hevent
  rw [DecidedBatch.sequenceRecord, hkeys] at hrecord
  obtain ⟨_, hvalid, hrecord⟩ := bind_eq_ok_iff.mp hrecord
  rw [describeFactKeys_eq hevents, ok_bind] at hrecord
  split at hrecord
  · cases hrecord
  · obtain rfl := Except.ok.inj hrecord
    rw [SequenceRecord.validate] at hvalid
    split at hvalid
    · cases hvalid
    case isFalse hmeta =>
      push Not at hmeta
      obtain ⟨hcommit, htxn, hnil, -⟩ := hmeta
      refine ⟨rfl, ?_, ?_⟩
      · have hfacts : (decided.batch.commitFacts decided.commitSeq).map
            (fun event => (event.ref, event.validFrom)) ≠ [] := by
          simpa using hnil
        rw [decodeSequenceRecordView, if_neg hcommit, if_neg hfacts, rebuildFactKeys_eq hevents]
        rfl
      · rw [SequenceRecordView.validate, if_neg]
        · exact hvalid
        · dsimp only
          push Not
          use hcommit, htxn

/-- The commits of a group follow each other. -/
theorem DecidedEpoch.Checked.map_commitSeq (h : epoch.Checked events) :
  epoch.decided.map (fun d => d.commitSeq.toNat) =
    range' (epoch.baseVisibleSeq.toNat + 1) epoch.decided.length
  := by
  have hrange := @eq_range'_of_pairwise_lt (epoch.decided.map fun d => d.commitSeq.toNat)
    (epoch.baseVisibleSeq.toNat + 1)
  rw [length_map] at hrange
  apply hrange
  · apply pairwise_map.mpr
    apply h.ordered.imp
    intro d e hlt
    apply lt_iff_toNat_lt.mp hlt
  · intro n hn
    obtain ⟨d, hd, rfl⟩ := mem_map.mp hn
    have habove := lt_iff_toNat_lt.mp (h.above d hd)
    have hbelow := h.below d hd
    omega

/-- The last batch of a group has the commit which becomes visible. -/
theorem DecidedEpoch.Checked.last_commitSeq (h : epoch.Checked events) :
  epoch.decided = [] ∨ ∃ d, epoch.decided.getLast? = some d ∧
    d.commitSeq.toNat = epoch.baseVisibleSeq.toNat + epoch.decided.length
  := by
  have hcommits := h.map_commitSeq
  obtain hnil | ⟨init, d, hsplit⟩ := eq_nil_or_concat epoch.decided
  · left
    exact hnil
  · right
    rw [concat_eq_append] at hsplit
    rw [hsplit] at hcommits ⊢
    rw [map_append, length_append, length_singleton, range'_1_concat] at hcommits
    have hlast := (append_inj' hcommits rfl).2
    use d
    simp only [getLast?_append, getLast?_singleton, Option.some_or, length_append,
      length_singleton, true_and]
    have hlast : d.commitSeq.toNat = epoch.baseVisibleSeq.toNat + 1 + init.length :=
      (cons.inj hlast).1
    omega

/-- A checked group which is written with its records and outcomes keeps the invariant. -/
theorem DurableState.Invariant.write (h : state.Invariant) {store : CommitStore}
    {cache : Option VersionValidationCache} (hcache : CacheSound cache state.store.facts.events)
    (hbase : epoch.baseVisibleSeq = state.store.visibleSeq)
    (hchecked : epoch.Checked state.store.facts.events)
    (hrecords : sequenceRecords epoch.decided = .ok records)
    (hwrite : writeDecidedGroup { state.store with versionValidationCache := cache }
      epoch = .ok store) :
  Invariant { state with
    store := store
    sequences := state.sequences ++ records
    transactionOutcomes := (epoch.decided.map fun d => ⟨d.batch.txnId, d.commitSeq⟩).reverse ++
      state.transactionOutcomes }
  := by
  have hrecords := sequenceRecords_spec hrecords
  have hsound : CommitStore.Sound { state.store with versionValidationCache := cache } :=
    { h.sound with cache := hcache }
  obtain ⟨hsound, hwrote, -⟩ := writeDecidedGroup_sound hsound (fun _ => hchecked) hwrite
  have hseq : store.visibleSeq.toNat = state.store.visibleSeq.toNat + epoch.decided.length :=
    hwrote.visible
  have hle : state.store.visibleSeq ≤ store.visibleSeq := by
    rw [UInt64.le_iff_toNat_le]
    omega
  have hlength := hrecords.length_eq
  have hnew : records.map (fun entry => entry.1.toNat) =
      range' (state.store.visibleSeq.toNat + 1) records.length := by
    rw [← hlength, ← hbase, ← hchecked.map_commitSeq]
    have hfst := congrArg (map UInt64.toNat) (map_fst_sequenceRecords hrecords)
    simpa [Function.comp_def] using hfst
  have habove : ∀ d ∈ epoch.decided, state.store.visibleSeq < d.commitSeq := by
    intro d hd
    rw [← hbase]
    apply hchecked.above d hd
  have hentry : ∀ entry ∈ records, RecordOk store.facts state.oldestReadableSeq entry ∧
      ∃ d ∈ epoch.decided, entry.1 = d.commitSeq ∧ entry.2.txnId = d.batch.txnId := by
    intro entry hentry
    obtain ⟨d, hd, hcommit, hrecord⟩ := hrecords.exists_left hentry
    obtain ⟨htxn, hdecode, hvalid⟩ := (hchecked.checked d hd).decode_sequenceRecord hrecord
    constructor
    · use (d.batch.commitFacts d.commitSeq).map encodedKey
      rw [hcommit, htxn]
      use hdecode, hvalid
      intro _ key hkey
      obtain ⟨event, hevent, rfl⟩ := mem_map.mp hkey
      apply hwrote.present d hd event hevent
    · use d, hd
  obtain ⟨low, hone, hlow, hkeys, hcount⟩ := h.contiguous
  refine { h with
    sound := hsound, oldest_le := le_trans h.oldest_le hle, contiguous := ?_, records := ?_
    recorded := ?_, retained := ?_, ordered := ?_, outcome_le := ?_, last := ?_ }
  · use low, hone, hlow
    dsimp only
    constructor
    · rw [map_append, hkeys, hnew, length_append, ← range'_append_1, hcount]
    · rw [length_append]
      omega
  · intro entry hmem
    obtain hmem | hmem := mem_append.mp hmem
    · apply (h.records entry hmem).mono le_rfl
      intro event hevent _
      apply hwrote.keeps event hevent
    · apply (hentry entry hmem).1
  · intro entry hmem
    obtain hmem | hmem := mem_append.mp hmem
    · apply mem_append_right
      apply h.recorded entry hmem
    · obtain ⟨-, d, hd, hcommit, htxn⟩ := hentry entry hmem
      apply mem_append_left
      apply mem_reverse.mpr
      apply mem_map.mpr
      use d, hd
      rw [hcommit, htxn]
  · intro outcome houtcome hretained
    obtain houtcome | houtcome := mem_append.mp houtcome
    · obtain ⟨d, hd, rfl⟩ := mem_map.mp (mem_reverse.mp houtcome)
      obtain ⟨entry, hmem, hcommit, hrecord⟩ := hrecords.exists_right hd
      use entry, mem_append_right _ hmem, hcommit
      apply ((hchecked.checked d hd).decode_sequenceRecord hrecord).1
    · obtain ⟨entry, hmem, hsame⟩ := h.retained outcome houtcome hretained
      use entry, mem_append_left _ hmem
  · apply pairwise_append.mpr
    refine ⟨?_, h.ordered, ?_⟩
    · apply pairwise_reverse.mpr
      apply pairwise_map.mpr
      exact hchecked.ordered
    · intro outcome houtcome other hother
      obtain ⟨d, hd, rfl⟩ := mem_map.mp (mem_reverse.mp houtcome)
      apply lt_of_le_of_lt (h.outcome_le other hother) (habove d hd)
  · intro outcome houtcome
    obtain houtcome | houtcome := mem_append.mp houtcome
    · obtain ⟨d, hd, rfl⟩ := mem_map.mp (mem_reverse.mp houtcome)
      have hbelow := hchecked.below d hd
      rw [hbase] at hbelow
      rw [UInt64.le_iff_toNat_le]
      dsimp only
      omega
    · apply le_trans (h.outcome_le outcome houtcome) hle
  · obtain hnil | ⟨d, hlast, hd⟩ := hchecked.last_commitSeq
    · have hsame : store.visibleSeq = state.store.visibleSeq := by
        apply UInt64.toNat_inj.mp
        rw [hseq, hnil, length_nil, Nat.add_zero]
      rw [hsame, hnil]
      exact h.last
    · have hsame : store.visibleSeq = d.commitSeq := by
        apply UInt64.toNat_inj.mp
        rw [hseq, hd, hbase]
      rw [head?_append, head?_reverse, getLast?_map, hlast]
      exact hsame

/-- A commit keeps the invariant. -/
theorem DurableState.Invariant.commit (h : state.Invariant) (options : GroupOptions) (limit : Nat)
    (queue : List StoreCommitBatch) :
  (state.commit options (CommitConflictIndex.select {} limit queue)).Invariant
  := by
  rw [DurableState.commit]
  split
  · exact h
  case h_2 result hresult =>
    obtain ⟨⟨cache, hstore, hcache⟩, hbase, hchecked⟩ := decideAndEncodeGroup_sound h.sound hresult
    rw [hstore]
    split
    case h_1 records store hrecords hwrite => apply h.write hcache hbase hchecked hrecords hwrite
    · exact h

/-- A batch of a vacuum keeps the invariant. -/
theorem DurableState.Invariant.vacuumBatch (h : state.Invariant) {maxKeys : Nat}
    {vacuum : VacuumState} (hvacuum : state.vacuumState = some vacuum)
    {result : VacuumStore × Bool}
    (hresult : VacuumStore.deleteObsoleteFactVersions maxKeys
      ⟨state.store.facts, state.vacuumState, state.oldestReadableSeq, state.store.visibleSeq⟩
      vacuum = .ok result) :
  DurableState.Invariant { state with
    store := { state.store with facts := result.1.facts }
    vacuumState := result.1.vacuumState }
  := by
  obtain ⟨hsubset, hkeeps, htarget⟩ := VacuumStore.deleteObsoleteFactVersions_keeps hresult
  have hle := h.vacuum vacuum hvacuum
  refine { h with sound := ?_, vacuum := ?_, records := ?_ }
  · constructor
    · intro event hevent
      apply h.sound.visible event (hsubset event hevent)
    · intro history hhistory event hevent
      apply h.sound.history history hhistory event (hsubset event hevent)
    · intro index hindex
      apply (h.sound.recent index hindex).mono hsubset
    · intro cache hcache
      apply (h.sound.cache cache hcache).mono hsubset
  · intro next hnext
    rw [htarget next hnext]
    exact hle
  · intro entry hentry
    apply (h.records entry hentry).mono le_rfl
    intro event hevent hfrom
    apply hkeeps event hevent (le_trans hle hfrom)

/-- A batch of pruned records keeps the invariant. -/
theorem DurableState.Invariant.pruneBatch (h : state.Invariant)
    (hretention : state.oldestReadableSeq ≤ state.sequenceRetentionWatermark) (keysPerBatch : Nat) :
  DurableState.Invariant { state with
    sequences := state.sequences.drop (min keysPerBatch
      (state.sequences.takeWhile fun entry => entry.1 < state.oldestReadableSeq).length) }
  := by
  obtain ⟨low, hone, hlow, hkeys, hcount⟩ := h.contiguous
  generalize hn : min keysPerBatch
    (state.sequences.takeWhile fun entry => entry.1 < state.oldestReadableSeq).length = n
  have hle : n ≤ (state.sequences.takeWhile fun entry =>
      entry.1 < state.oldestReadableSeq).length := by omega
  -- what is deleted is older than the oldest readable commit
  have hdeleted : ∀ entry ∈ state.sequences.take n, entry.1 < state.oldestReadableSeq := by
    intro entry hentry
    rw [← @takeWhile_append_dropWhile _ (fun entry => entry.1 < state.oldestReadableSeq)
      state.sequences, take_append_of_le_length hle] at hentry
    simpa using mem_takeWhile_imp (mem_of_mem_take hentry)
  have hlength : n ≤ state.sequences.length := by
    apply le_trans hle (takeWhile_sublist _).length_le
  have hdrop : ∀ entry ∈ state.sequences, state.oldestReadableSeq ≤ entry.1 →
      entry ∈ state.sequences.drop n := by
    intro entry hentry hfrom
    rw [← take_append_drop n state.sequences] at hentry
    obtain hentry | hentry := mem_append.mp hentry
    · cases not_lt.mpr hfrom (hdeleted entry hentry)
    · exact hentry
  refine { h with contiguous := ?_, records := ?_, recorded := ?_, retained := ?_ }
  · use low + n
    refine ⟨by omega, ?_, ?_, ?_⟩
    · obtain rfl | hpos := Nat.eq_zero_or_pos n
      · exact hlow
      · have htaken : (state.sequences.take n).map (fun entry => entry.1.toNat) =
            range' low n := by
          have hsplit := @range'_append_1 low n (state.sequences.length - n)
          rw [Nat.add_sub_cancel' hlength] at hsplit
          rw [map_take, hkeys, ← hsplit]
          apply take_left' length_range'
        have hlast : low + (n - 1) ∈ range' low n := by
          rw [mem_range'_1]
          omega
        rw [← htaken] at hlast
        obtain ⟨entry, hentry, heq⟩ := mem_map.mp hlast
        have hlt := lt_iff_toNat_lt.mp (hdeleted entry hentry)
        have hle := le_iff_toNat_le.mp hretention
        dsimp only
        omega
    · dsimp only
      rw [map_drop, hkeys]
      simp
    · dsimp only
      rw [length_drop]
      omega
  · intro entry hentry
    apply h.records entry (mem_of_mem_drop hentry)
  · intro entry hentry
    apply h.recorded entry (mem_of_mem_drop hentry)
  · intro outcome houtcome hfrom
    obtain ⟨entry, hentry, hcommit, htxn⟩ := h.retained outcome houtcome hfrom
    use entry
    constructor
    · apply hdrop entry hentry
      rw [hcommit]
      apply le_trans hretention (le_trans (le_max_right _ _) hfrom)
    · use hcommit

/-- A step keeps the invariant. -/
theorem DurableState.Invariant.step (h : state.Invariant) (step : DurableStep) :
  (state.step step).Invariant
  := by
  cases step with
  | commit options limit queue => apply h.commit
  | abort txnId => exact { h with }
  | beginVacuum oldestReadable =>
    rw [DurableState.step]
    split
    · exact h
    case isFalse hrange =>
      push Not at hrange
      refine { h with
        retention_le := le_trans h.retention_le hrange.1.le, oldest_le := hrange.2
        vacuum := by simp, records := ?_ }
      intro entry hentry
      apply (h.records entry hentry).mono hrange.1.le
      intro event hevent _
      exact hevent
  | vacuumBatch maxKeys =>
    rw [DurableState.step]
    split
    · exact h
    case h_2 vacuum hvacuum =>
      split
      · exact h
      case h_2 result hresult => apply h.vacuumBatch hvacuum hresult
  | pruneWatermark =>
    rw [DurableState.step]
    split
    · exact h
    case isFalse hrange =>
      push Not at hrange
      obtain ⟨low, hone, hlow, hcontiguous⟩ := h.contiguous
      have hle := lt_iff_toNat_lt.mp hrange.2
      refine { h with
        retention_le := le_rfl, contiguous := ⟨low, hone, ?_, hcontiguous⟩, retained := ?_ }
      · dsimp only
        omega
      · intro outcome houtcome hfrom
        apply h.retained outcome houtcome (le_trans _ hfrom)
        apply max_le_max le_rfl hrange.2.le
  | pruneBatch keysPerBatch =>
    rw [DurableState.step]
    split
    · exact h
    case isFalse hrange =>
      push Not at hrange
      apply h.pruneBatch hrange.2
  | reopen options sizes =>
    rw [DurableState.step]
    split
    · exact h
    · exact { h with sound := sound_opened h.sound.visible sizes _ }

/-- The invariant holds along a run. -/
theorem DurableState.Invariant.run (h : state.Invariant) (steps : List DurableStep) :
  (state.run steps).Invariant
  := by
  induction steps generalizing state with
  | nil => exact h
  | cons step steps ih =>
    apply ih
    apply h.step

end Steps

/-! ### Opening a store again -/

/-- No transaction was committed after one with the same number whose record is retained. -/
def NoReuse (state : DurableState) : Prop :=
  ∀ outcome ∈ state.transactionOutcomes, ∀ other ∈ state.transactionOutcomes,
    other.txnId = outcome.txnId → max 1 state.sequenceRetentionWatermark ≤ outcome.commitSeq →
      other.commitSeq ≤ outcome.commitSeq

section Reopen

variable {state : DurableState}

/-- The outcome of a commit is there if the transaction was not committed again. -/
theorem DurableState.Invariant.outcomeMatches_iff (h : state.Invariant)
    {outcome : TransactionOutcomeRecord} (houtcome : outcome ∈ state.transactionOutcomes) :
  OutcomeMatches state (outcome.txnId, outcome.commitSeq) ↔
    ∀ other ∈ state.transactionOutcomes, other.txnId = outcome.txnId →
      other.commitSeq ≤ outcome.commitSeq
  := by
  have hfind := find?_eq_some_iff_rel (a := outcome)
    (p := fun other => decide (other.txnId = outcome.txnId)) h.ordered
    (fun o q hoq hqo => lt_asymm hoq hqo)
  have hsame : ∀ other ∈ state.transactionOutcomes, other.commitSeq = outcome.commitSeq →
      other = outcome := by
    intro other hother
    have hpairwise := @Pairwise.forall_of_forall _ (fun o p : TransactionOutcomeRecord =>
      o.commitSeq = p.commitSeq → o = p) _ ⟨fun o p hop heq => (hop heq.symm).symm⟩
      (fun _ _ _ => rfl) (h.ordered.imp fun {o p} hlt heq => (hlt.ne' heq).elim)
    apply hpairwise hother houtcome
  rw [OutcomeMatches, DurableState.outcome, hfind]
  constructor
  · rintro ⟨-, -, hall⟩ other hother htxn
    obtain rfl | hlt := hall other hother (by simpa using htxn)
    · apply le_rfl
    · apply hlt.le
  · intro hall
    refine ⟨houtcome, by simp, ?_⟩
    intro other hother htxn
    obtain hlt | heq := lt_or_eq_of_le (hall other hother (by simpa using htxn))
    · right
      exact hlt
    · left
      apply hsame other hother heq

/-- The outcomes of the retained records are there exactly if no number was used again. -/
theorem DurableState.Invariant.outcomeMatches_retained_iff (h : state.Invariant) :
  (∀ entry ∈ state.sequences, max 1 state.sequenceRetentionWatermark ≤ entry.1 →
      OutcomeMatches state (entry.2.txnId, entry.1)) ↔
    NoReuse state
  := by
  constructor
  · intro hall outcome houtcome other hother htxn hfrom
    obtain ⟨entry, hentry, hcommit, hsame⟩ := h.retained outcome houtcome hfrom
    have hmatches := hall entry hentry (hcommit ▸ hfrom)
    rw [hcommit, hsame, h.outcomeMatches_iff houtcome] at hmatches
    apply hmatches other hother htxn
  · intro hreuse entry hentry hfrom
    have houtcome := h.recorded entry hentry
    apply (h.outcomeMatches_iff houtcome).mpr
    intro other hother htxn
    apply hreuse _ houtcome other hother htxn hfrom

theorem le_requireFactsFrom (options : RecoveryOptions) (state : DurableState) :
  state.oldestReadableSeq ≤ requireFactsFrom options state
  := by
  rw [requireFactsFrom]
  split
  · apply le_rfl
  · apply le_max_left

/-- A store with the invariant passes its validation exactly if no number was used again. -/
theorem DurableState.Invariant.validateCommittedSequences_eq_ok_iff (h : state.Invariant)
    (options : RecoveryOptions) :
  validateCommittedSequences options state = .ok () ↔ NoReuse state
  := by
  obtain ⟨low, hone, hlow, hkeys, hcount⟩ := h.contiguous
  have hretention := le_iff_toNat_le.mp h.retention_le
  have holdest := le_iff_toNat_le.mp h.oldest_le
  generalize hfirst : max 1 state.sequenceRetentionWatermark = first
  have hnat : first.toNat = max 1 state.sequenceRetentionWatermark.toNat := by
    rw [← hfirst]
    obtain hle | hle := le_total 1 state.sequenceRetentionWatermark
    · have hle' : 1 ≤ state.sequenceRetentionWatermark.toNat := le_iff_toNat_le.mp hle
      rw [max_eq_right hle, max_eq_right hle']
    · have hle' : state.sequenceRetentionWatermark.toNat ≤ 1 := le_iff_toNat_le.mp hle
      rw [max_eq_left hle, max_eq_left hle']
      rfl
  have hdrop : (state.sequences.dropWhile fun entry => entry.1 < first) =
      state.sequences.dropWhile fun entry => decide (entry.1.toNat < first.toNat) := by
    congr 1
  obtain ⟨hkeys', hcount'⟩ := map_dropWhile_range' hkeys (by omega : low ≤ first.toNat) (by omega)
  generalize hretained : (state.sequences.dropWhile fun entry =>
    decide (entry.1.toNat < first.toNat)) = entries at hkeys' hcount'
  have hsublist : ∀ entry ∈ entries, entry ∈ state.sequences := by
    rw [← hretained]
    apply (dropWhile_sublist _).subset
  have hmem : ∀ entry, entry ∈ entries ↔ entry ∈ state.sequences ∧ first ≤ entry.1 := by
    intro entry
    constructor
    · intro hentry
      have hnumber : entry.1.toNat ∈ range' first.toNat entries.length := by
        rw [← hkeys']
        apply mem_map_of_mem hentry
      exact ⟨hsublist entry hentry, (mem_range'_1.mp hnumber).1⟩
    · rintro ⟨hentry, hfrom⟩
      rw [← hretained]
      rw [← @takeWhile_append_dropWhile _
        (fun entry => decide (entry.1.toNat < first.toNat)) state.sequences] at hentry
      obtain hentry | hentry := mem_append.mp hentry
      · have hlt := mem_takeWhile_imp hentry
        cases not_lt.mpr hfrom (lt_iff_toNat_lt.mpr (of_decide_eq_true hlt))
      · exact hentry
  have hmatch : (∀ expected ∈ [] ++ entries.map (fun entry => (entry.2.txnId, entry.1)),
      OutcomeMatches state expected) ↔ NoReuse state := by
    rw [nil_append, forall_mem_map, ← h.outcomeMatches_retained_iff, hfirst]
    simp only [hmem, and_imp]
  rw [validateCommittedSequences, hfirst]
  split
  case isTrue hzero =>
    -- nothing was committed
    simp only [true_iff]
    intro outcome houtcome other hother htxn hfrom
    have hle := h.outcome_le outcome houtcome
    rw [hzero] at hle
    cases not_lt.mpr (le_trans (le_trans (le_max_left _ _) hfrom) hle) (by decide)
  case isFalse hpositive =>
    dsimp only
    rw [← hmatch, hdrop, hretained]
    have hscan := scanSequences_eq_ok_iff options hkeys' (by omega)
      (fun entry hentry => (h.records entry (hsublist entry hentry)).mono
        (le_requireFactsFrom options state) fun event hevent _ => hevent) []
    rw [UInt64.ofNat_toNat] at hscan
    exact hscan

end Reopen

/-- A new store. -/
def DurableState.empty (sizes : ValidationSizes) : DurableState where
  store := .opened sizes .empty 0 []

theorem DurableState.invariant_empty (sizes : ValidationSizes) :
  (DurableState.empty sizes).Invariant
  := by
  constructor
  · apply sound_opened
    simp [FactColumn.empty]
  · apply le_rfl
  · apply le_rfl
  · simp [empty]
  · use 1
    simp [empty, opened]
  · simp [empty]
  · simp [empty]
  · simp [empty]
  · simp [empty]
  · simp [empty]
  · rfl

/-- After any steps from a new store, the validation passes and the visible commit is the last one,
exactly if no transaction was committed after one with the same number whose record is retained. -/
theorem DurableState.validateCommittedSequences_run_iff (options : RecoveryOptions)
    (sizes : ValidationSizes) (steps : List DurableStep) :
  validateCommittedSequences options ((DurableState.empty sizes).run steps) = .ok () ∧
      ((DurableState.empty sizes).run steps).store.visibleSeq =
        (((DurableState.empty sizes).run steps).transactionOutcomes.head?.map
          TransactionOutcomeRecord.commitSeq).getD 0 ↔
    NoReuse ((DurableState.empty sizes).run steps)
  := by
  have h := (DurableState.invariant_empty sizes).run steps
  rw [h.validateCommittedSequences_eq_ok_iff]
  constructor
  · intro hreuse
    exact hreuse.1
  · intro hreuse
    use hreuse, h.last

/-- Reading sequence records thoroughly. -/
def deepRecovery : RecoveryOptions := ⟨1024, 1, true⟩

/-- A transaction with the number 1, which creates a vertex. -/
def numbered (fresh : Bool) (vertexId : UInt64) : StoreCommitBatch where
  txnId := 1
  systemHlc := 1
  mutations := [{ ref := EntityFact.vertex ⟨0, vertexId⟩, validFrom := 3 }]
  freshTransactionId := fresh

/-- A transaction whose number was chosen by its coordinator, and one to which the same number was
leased, commit one after the other. -/
def reuseNumber : List DurableStep :=
  [.commit ⟨Sorter.insertion _, fun _ => true⟩ 1 [numbered false 1],
    .commit ⟨Sorter.insertion _, fun _ => true⟩ 1 [numbered true 2]]

/-- The store can not be opened again. -/
theorem reuseNumber_validateCommittedSequences :
  ((DurableState.empty ⟨2, 2, 16, 2, 64, false⟩).run reuseNumber).store.visibleSeq = 2 ∧
    validateCommittedSequences deepRecovery
        ((DurableState.empty ⟨2, 2, 16, 2, 64, false⟩).run reuseNumber) =
      Status.corruption "fact store" "outcome and sequence disagree"
  := by
  constructor <;> decide +kernel

end Cedar
