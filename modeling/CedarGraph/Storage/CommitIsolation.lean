import CedarGraph.Storage.CommitRuns

/-!
# What commits guarantee

Along every run, a batch which commits with a snapshot dependency has no fact between its snapshot
and its commit in the interval which it changes.  What a strict read observed stays the same up to
the commit of its batch, unless an earlier batch of the same group states the identity of the edge
which was read: the conflict index does not know the references of such facts.
-/

namespace Cedar

open FactColumn List StoreCommitBatch TemporalNeighborhood

section Written

variable {store : CommitStore} {epoch : DecidedEpoch} {decided earlier : DecidedBatch}
  {event : FactEvent}

/-- A fact between the commit which was visible for a group and the commit of one of its batches is
a fact of an earlier batch. -/
theorem DecidedEpoch.Written.exists_earlier (h : epoch.Written store)
    (hdecided : decided ∈ epoch.decided) (hevent : event ∈ store.facts.events)
    (hbase : epoch.baseVisibleSeq < event.commitSeq) (hlt : event.commitSeq < decided.commitSeq) :
  ∃ earlier ∈ epoch.decided, event ∈ earlier.batch.commitFacts earlier.commitSeq ∧
    earlier.commitSeq < decided.commitSeq ∧ IndependentOf earlier.batch decided.batch
  := by
  have hbelow := h.below decided hdecided
  have hlt' := UInt64.lt_iff_toNat_lt.mp hlt
  obtain ⟨earlier, hearlier, hfact⟩ := h.only event hevent hbase (by omega)
  rw [commitSeq_of_mem_commitFacts hfact] at hlt
  use earlier, hearlier, hfact, hlt
  have hpairwise := h.independent.and h.ordered
  have hboth := @Pairwise.forall_of_forall _
    (fun d e : DecidedBatch => (d.commitSeq < e.commitSeq → IndependentOf d.batch e.batch) ∧
      (e.commitSeq < d.commitSeq → IndependentOf e.batch d.batch)) epoch.decided
    ⟨fun d e hde => ⟨hde.2, hde.1⟩⟩
    (fun d _ => ⟨fun hd => (lt_irrefl _ hd).elim, fun hd => (lt_irrefl _ hd).elim⟩)
    (hpairwise.imp fun {d e} hde => ⟨fun _ => hde.1, fun hed => (lt_asymm hde.2 hed).elim⟩)
  apply (hboth hearlier hdecided).1 hlt

/-- The facts of a batch of a written group are there. -/
theorem DecidedEpoch.Written.exists_fact (h : epoch.Written store)
    (hdecided : decided ∈ epoch.decided)
    (hfact : event ∈ decided.batch.commitFacts decided.commitSeq) :
  ∃ other ∈ store.facts.events, other.ref = event.ref ∧ other.validFrom = event.validFrom ∧
    other.commitSeq = decided.commitSeq
  := by
  obtain ⟨other, hother, hkey⟩ := h.present decided hdecided event hfact
  have hvalid : event.validate = .ok () := by
    rw [← (h.checked decided hdecided).facts] at hfact
    obtain ⟨fact, -, rfl⟩ := mem_map.mp hfact
    exact fact.property
  obtain ⟨href, htime, hcommit⟩ :=
    (FactEvent.encodedKey_inj (store.facts.valid other hother) hvalid).mp hkey
  rw [commitSeq_of_mem_commitFacts hfact] at hcommit
  use other, hother

/-- No fact in the interval which a batch changes is between its snapshot and its commit. -/
theorem DecidedEpoch.Written.not_between (h : epoch.Written store)
    (hdecided : decided ∈ epoch.decided) {dependency : SnapshotWriteDependency}
    (hdependency : dependency ∈ decided.batch.snapshotWriteDependencies)
    (hevent : event ∈ store.facts.events) (href : event.ref = dependency.ref)
    (hstart : dependency.validFrom ≤ event.validFrom)
    (hstop : ∀ successor ∈ dependency.successor, event.validFrom < successor) :
  event.commitSeq ≤ dependency.snapshotSeq ∨ decided.commitSeq ≤ event.commitSeq
  := by
  have hchecked := h.checked decided hdecided
  by_cases hbase : event.commitSeq ≤ epoch.baseVisibleSeq
  · left
    apply (hchecked.snapshot dependency hdependency).2 event _ href hstart hstop
    apply mem_filter.mpr
    simp [hevent, hbase]
  · right
    apply not_lt.mp
    intro hlt
    obtain ⟨earlier, -, hfact, -, hindependent⟩ :=
      h.exists_earlier hdecided hevent (not_le.mp hbase) hlt
    obtain ⟨hfamily, hmutations⟩ := exists_mutation_of_validate hchecked.valid
    obtain ⟨-, mutation, hmutation, hsame, -⟩ := hmutations dependency hdependency
    obtain ⟨other, hother, heq⟩ | ⟨-, identity, -, heq⟩ :=
      ref_of_mem_commitFacts hfact
    · -- an earlier batch of the group does not write the reference
      apply hindependent.writes mutation hmutation other hother
      rw [hsame, ← href, heq]
    · -- and the identity of an edge is no mutation
      apply hfamily mutation hmutation
      rw [hsame, ← href, heq]
      rfl

end Written

/-- Batches with dependencies at the same place of the same snapshot. -/
def SameSnapshotWrite (d e : DecidedBatch) : Prop :=
  ∃ dependency ∈ d.batch.snapshotWriteDependencies, ∃ other ∈ e.batch.snapshotWriteDependencies,
    dependency.ref = other.ref ∧ dependency.validFrom = other.validFrom ∧
      dependency.snapshotSeq = other.snapshotSeq

namespace CommitState

variable {state : CommitState}

/-- What was committed, with its group. -/
theorem mem_committed_iff {decided : DecidedBatch} :
  decided ∈ state.committed ↔ ∃ epoch ∈ state.written, decided ∈ epoch.decided
  := mem_flatMap

/-- Commits increase. -/
theorem Invariant.pairwise_committed (h : state.Invariant) :
  state.committed.Pairwise fun d e => d.commitSeq < e.commitSeq
  := by
  apply pairwise_flatMap.mpr
  constructor
  · intro epoch hepoch
    apply (h.written epoch hepoch).ordered
  · apply h.ordered.imp_of_mem
    intro epoch other hepoch hother hle d hd e he
    have hle := hle (ne_nil_of_mem he)
    have hbelow := (h.written epoch hepoch).below d hd
    have habove := UInt64.lt_iff_toNat_lt.mp ((h.written other hother).above e he)
    rw [UInt64.lt_iff_toNat_lt]
    omega

/-- Of two batches with dependencies at the same place of the same snapshot, at most one commits. -/
theorem Invariant.pairwise_not_sameSnapshotWrite (h : state.Invariant) :
  state.committed.Pairwise fun d e => ¬ SameSnapshotWrite d e
  := by
  apply h.pairwise_committed.imp_of_mem
  rintro d e hd he hlt ⟨dependency, hdependency, other, hother, href, htime, hseq⟩
  obtain ⟨epoch, hepoch, hd⟩ := mem_committed_iff.mp hd
  obtain ⟨epoch', hepoch', he⟩ := mem_committed_iff.mp he
  have hwritten := h.written epoch hepoch
  have hwritten' := h.written epoch' hepoch'
  have hchecked := hwritten.checked d hd
  obtain ⟨-, hmutations⟩ := exists_mutation_of_validate hchecked.valid
  obtain ⟨-, mutation, hmutation, hmref, hmtime⟩ := hmutations dependency hdependency
  obtain ⟨hsuccessor, -⟩ := (exists_mutation_of_validate
    (hwritten'.checked e he).valid).2 other hother
  -- the fact which the first batch wrote is between the snapshot and the commit of the second
  obtain ⟨fact, hfact, hfref, hftime, hfcommit⟩ := hwritten.exists_fact hd
    (mem_append_left _ (mem_map_of_mem hmutation))
  have hsnapshot := lt_of_le_of_lt (hchecked.snapshot dependency hdependency).1
    (hwritten.above d hd)
  have htime' : fact.validFrom = other.validFrom := by rw [hftime, ← htime, ← hmtime]
  obtain hold | hnew := hwritten'.not_between he hother hfact
    (by rw [hfref, ← href, ← hmref]) (by rw [htime']) (by rwa [htime'])
  · rw [hfcommit, ← hseq] at hold
    apply not_lt.mpr hold hsnapshot
  · rw [hfcommit] at hnew
    apply not_lt.mpr hnew hlt

/-- Along every run from a store which was just opened, no fact in the interval which a committed
batch changes is between its snapshot and its commit, and of two batches which change the same place
of the same snapshot at most one commits. -/
theorem first_committer_wins (options : GroupOptions) (sizes : ValidationSizes)
    (facts : FactColumn) (visibleSeq : CommitSeq) (outcomes : List TxnId)
    (hfacts : ∀ event ∈ facts.events, event.commitSeq ≤ visibleSeq) (steps : List CommitStep) :
  (∀ decided ∈ (run options { store := .opened sizes facts visibleSeq outcomes } steps).committed,
    ∀ dependency ∈ decided.batch.snapshotWriteDependencies,
      ∀ event ∈ (run options { store := .opened sizes facts visibleSeq outcomes }
        steps).store.facts.events,
        event.ref = dependency.ref → dependency.validFrom ≤ event.validFrom →
          (∀ successor ∈ dependency.successor, event.validFrom < successor) →
            ¬ (dependency.snapshotSeq < event.commitSeq ∧
              event.commitSeq < decided.commitSeq)) ∧
    (run options { store := .opened sizes facts visibleSeq outcomes } steps).committed.Pairwise
      fun d e => ¬ SameSnapshotWrite d e
  := by
  have h := (invariant_opened hfacts sizes outcomes).run options steps
  constructor
  · rintro decided hdecided dependency hdependency event hevent href hstart hstop ⟨hold, hnew⟩
    obtain ⟨epoch, hepoch, hdecided⟩ := mem_committed_iff.mp hdecided
    obtain hle | hle := (h.written epoch hepoch).not_between hdecided hdependency hevent href hstart
      hstop
    · apply not_lt.mpr hle hold
    · apply not_lt.mpr hle hnew
  · apply h.pairwise_not_sameSnapshotWrite

/-- A small index, filter and cache. -/
def smallSizes : ValidationSizes := ⟨2, 2, 16, 2, 64, false⟩

/-- Dependencies are sorted by insertion, and every batch has few enough bytes. -/
def insertionOptions : GroupOptions where
  sorter := Sorter.insertion _
  fits _ := true

/-- A transaction which creates a vertex at 3, as it saw nothing at the beginning. -/
def creation (txnId : TxnId) : StoreCommitBatch where
  txnId := txnId
  systemHlc := 1
  mutations := [{ ref := EntityFact.vertex ⟨0, 1⟩, validFrom := 3 }]
  snapshotWriteDependencies := [{ ref := EntityFact.vertex ⟨0, 1⟩, validFrom := 3, snapshotSeq := 0 }]

/-- Two transactions create the vertex, one after the other. -/
def bothCreate : List CommitStep :=
  [.decide 2 [creation 1, creation 2], .write 0, .decide 2 [creation 2], .write 0]

theorem bothCreate_first_committer_wins :
  ((run insertionOptions { store := .opened smallSizes FactColumn.empty 0 [] } bothCreate).committed.map
      fun decided => (decided.batch.txnId, decided.commitSeq)) = [(1, 1)] ∧
    (run insertionOptions { store := .opened smallSizes FactColumn.empty 0 [] } bothCreate).committed.Pairwise
      fun d e => ¬ SameSnapshotWrite d e
  := by
  constructor
  · decide +kernel
  · apply (first_committer_wins insertionOptions smallSizes empty 0 [] (by simp [empty])
      bothCreate).2

end CommitState

/-! ### Strict reads -/

namespace TemporalNeighborhood

variable {facts : FactColumn} {ref : FactRef} {validTime : ValidTime}
  {lower middle upper limit : CommitSeq} {n n' : TemporalNeighborhood} {e f : FactEvent}

/-- Facts of a column with the same key are the same. -/
theorem eq_of_mem_of_mem (he : e ∈ facts.events) (hf : f ∈ facts.events) (href : e.ref = f.ref)
    (htime : e.validFrom = f.validFrom) (hcommit : e.commitSeq = f.commitSeq) :
  e = f
  := by
  have hkey : e.encodedKey = f.encodedKey := by
    rw [FactEvent.encodedKey, FactEvent.encodedKey, href, htime, hcommit]
  have hpairwise := @Pairwise.forall_of_forall _
    (fun d e : FactEvent => d.encodedKey = e.encodedKey → d = e) facts.events
    ⟨fun d e hde heq => (hde heq.symm).symm⟩ (fun d _ _ => rfl)
    (facts.sorted.imp fun {d e} hlt heq => (hlt.ne heq).elim)
  apply hpairwise he hf hkey

/-- There is one extremum, or none of an empty set. -/
theorem eq_of_extremum {s : Set ValidTime} {P : ValidTime → Prop} (hmem : ∀ x, P x → x ∈ s)
    (hunique : ∀ x y, P x → P y → x = y) {o o' : Option ValidTime}
    (hsome : ∀ x, o = some x → P x) (hnone : o = none → s = ∅)
    (hsome' : ∀ x, o' = some x → P x) (hnone' : o' = none → s = ∅) :
  o = o'
  := by
  have hne {x : ValidTime} (hx : P x) : s ≠ ∅ := Set.nonempty_iff_ne_empty.mp ⟨x, hmem x hx⟩
  cases o with
  | none =>
    cases o' with
    | none => rfl
    | some y => cases hne (hsome' y rfl) (hnone rfl)
  | some x =>
    cases o' with
    | none => cases hne (hsome x rfl) (hnone' rfl)
    | some y => rw [hunique x y (hsome x rfl) (hsome' y rfl)]

/-- The instants for which a neighborhood says what holds. -/
def InGap (n : TemporalNeighborhood) (instant : ValidTime) : Prop :=
  (∀ event ∈ n.observed, event.validFrom ≤ instant) ∧ ∀ successor ∈ n.successor, instant < successor

/-- In the gap around an instant, the same event is observed. -/
theorem IsNeighborhood.observed_eq_of_inGap (h : IsNeighborhood facts.events ref validTime limit n)
    {instant : ValidTime} (hgap : n.InGap instant)
    (h' : IsNeighborhood facts.events ref instant limit n') :
  n'.observed = n.observed
  := by
  -- a boundary up to the instant is one up to the instant of the neighborhood
  have hiic : boundaries facts.events ref limit ∩ Set.Iic instant ⊆
      boundaries facts.events ref limit ∩ Set.Iic validTime := by
    rintro boundary ⟨hboundary, hle⟩
    use hboundary
    rw [Set.mem_Iic] at hle ⊢
    apply not_lt.mp
    intro hlt
    cases hsuccessor : n.successor with
    | none =>
      have hmem : boundary ∈ boundaries facts.events ref limit ∩ Set.Ioi validTime :=
        ⟨hboundary, hlt⟩
      rw [h.successor_none hsuccessor] at hmem
      cases hmem
    | some successor =>
      have hle' := (h.successor_some successor hsuccessor).2 ⟨hboundary, hlt⟩
      apply not_lt.mpr (le_trans hle' hle) (hgap.2 successor hsuccessor)
  cases hn : n.observed with
  | none =>
    cases hn' : n'.observed with
    | none => rfl
    | some f =>
      have hmem := hiic (h'.observed_boundary f hn').1
      rw [h.observed_none hn] at hmem
      cases hmem
  | some e =>
    have he := h.observed_visible e hn
    have hmem : e.validFrom ∈ boundaries facts.events ref limit ∩ Set.Iic instant :=
      ⟨(h.observed_boundary e hn).1.1, hgap.1 e hn⟩
    cases hn' : n'.observed with
    | none =>
      rw [h'.observed_none hn'] at hmem
      cases hmem
    | some f =>
      have hf := h'.observed_visible f hn'
      have htime : e.validFrom = f.validFrom := by
        apply le_antisymm
        · apply (h'.observed_boundary f hn').2 hmem
        · apply (h.observed_boundary e hn).2 (hiic (h'.observed_boundary f hn').1)
      have hcommit := le_antisymm (h'.observed_commit f hn' e he htime)
        (h.observed_commit e hn f hf htime.symm)
      rw [eq_of_mem_of_mem he.mem hf.mem (he.ref_eq.trans hf.ref_eq.symm) htime hcommit]

/-- An instant has one neighborhood. -/
theorem IsNeighborhood.eq (h : IsNeighborhood facts.events ref validTime limit n)
    (h' : IsNeighborhood facts.events ref validTime limit n') :
  n = n'
  := by
  have hgap : n.InGap validTime := by
    constructor
    · intro event hevent
      apply (h.observed_boundary event hevent).1.2
    · intro successor hsuccessor
      apply (h.successor_some successor hsuccessor).1.2
  have hobserved := (h.observed_eq_of_inGap hgap h').symm
  have hpredecessor : n.predecessor = n'.predecessor := by
    apply eq_of_extremum (fun x hx => hx.1) (fun x y hx hy => hx.unique hy) h.predecessor_some
      h.predecessor_none h'.predecessor_some h'.predecessor_none
  have hsuccessor : n.successor = n'.successor := by
    apply eq_of_extremum (fun x hx => hx.1) (fun x y hx hy => hx.unique hy) h.successor_some
      h.successor_none h'.successor_some h'.successor_none
  apply TemporalNeighborhood.ext hobserved hpredecessor hsuccessor

theorem IsVisible.mono (h : IsVisible facts.events ref lower e) (hle : lower ≤ upper) :
  IsVisible facts.events ref upper e
  := ⟨h.mem, h.ref_eq, le_trans h.commitSeq_le hle⟩

theorem boundaries_mono (hle : lower ≤ upper) :
  boundaries facts.events ref lower ⊆ boundaries facts.events ref upper
  := by
  rintro _ ⟨event, hevent, rfl⟩
  use event, hevent.mono hle

/-- A neighborhood at two limits is one at the limits between them. -/
theorem IsNeighborhood.between (h : IsNeighborhood facts.events ref validTime lower n)
    (h' : IsNeighborhood facts.events ref validTime upper n) (hlower : lower ≤ middle)
    (hupper : middle ≤ upper) :
  IsNeighborhood facts.events ref validTime middle n
  := by
  have hsub (s : Set ValidTime) : boundaries facts.events ref lower ∩ s ⊆
      boundaries facts.events ref middle ∩ s :=
    Set.inter_subset_inter_left _ (boundaries_mono hlower)
  have hsub' (s : Set ValidTime) : boundaries facts.events ref middle ∩ s ⊆
      boundaries facts.events ref upper ∩ s :=
    Set.inter_subset_inter_left _ (boundaries_mono hupper)
  have hempty {s : Set ValidTime} (hs : boundaries facts.events ref upper ∩ s = ∅) :
      boundaries facts.events ref middle ∩ s = ∅ := by
    apply Set.subset_empty_iff.mp
    rw [← hs]
    apply hsub'
  constructor
  · intro event hevent
    apply (h.observed_visible event hevent).mono hlower
  · intro event hevent
    use hsub _ (h.observed_boundary event hevent).1
    apply upperBounds_mono_set (hsub' _) (h'.observed_boundary event hevent).2
  · intro event hevent other hother
    apply h'.observed_commit event hevent other (hother.mono hupper)
  · intro hnone
    apply hempty (h'.observed_none hnone)
  · intro boundary hboundary
    use hsub _ (h.predecessor_some boundary hboundary).1
    apply upperBounds_mono_set (hsub' _) (h'.predecessor_some boundary hboundary).2
  · intro hnone
    apply hempty (h'.predecessor_none hnone)
  · intro boundary hboundary
    use hsub _ (h.successor_some boundary hboundary).1
    apply lowerBounds_mono_set (hsub' _) (h'.successor_some boundary hboundary).2
  · intro hnone
    apply hempty (h'.successor_none hnone)

/-- Neighborhoods which agree as strict reads do are equal. -/
theorem eq_of_sameStrictReadIdentity (h : IsNeighborhood facts.events ref validTime lower n)
    (h' : IsNeighborhood facts.events ref validTime upper n')
    (hsame : sameStrictReadIdentity n n' = true) :
  n = n'
  := by
  simp only [sameStrictReadIdentity, Bool.and_eq_true, beq_iff_eq] at hsame
  obtain ⟨⟨hobserved, hpredecessor⟩, hsuccessor⟩ := hsame
  have hobserved : n.observed = n'.observed := by
    cases hn : n.observed with
    | none =>
      cases hn' : n'.observed with
      | none => rfl
      | some f => simp [hn, hn', sameOptionalFactEvent] at hobserved
    | some e =>
      cases hn' : n'.observed with
      | none => simp [hn, hn', sameOptionalFactEvent] at hobserved
      | some f =>
        simp only [hn, hn', sameOptionalFactEvent, sameFactEvent, Bool.and_eq_true,
          beq_iff_eq] at hobserved
        obtain ⟨⟨⟨⟨⟨href, htime⟩, hcommit⟩, -⟩, -⟩, -⟩ := hobserved
        rw [eq_of_mem_of_mem (h.observed_visible e hn).mem (h'.observed_visible f hn').mem href
          htime hcommit]
  apply TemporalNeighborhood.ext hobserved hpredecessor hsuccessor

end TemporalNeighborhood

/-- What a strict read observed at its snapshot is what it would observe at a later commit: the
neighborhood is the same, and so is the event which holds at every instant of its gap. -/
structure StrictReadKept (facts : FactColumn) (dependency : StrictReadDependency)
    (commitSeq : CommitSeq) : Prop where
  neighborhood : ∀ n,
    TemporalNeighborhood.IsNeighborhood facts.events dependency.ref dependency.validTime
        dependency.snapshotSeq n →
      TemporalNeighborhood.IsNeighborhood facts.events dependency.ref dependency.validTime
        commitSeq n
  state : ∀ n,
    TemporalNeighborhood.IsNeighborhood facts.events dependency.ref dependency.validTime
        dependency.snapshotSeq n →
      ∀ instant, n.InGap instant → ∀ atSnapshot atCommit,
        TemporalNeighborhood.IsNeighborhood facts.events dependency.ref instant
            dependency.snapshotSeq atSnapshot →
          TemporalNeighborhood.IsNeighborhood facts.events dependency.ref instant commitSeq
              atCommit →
            atCommit.observed = atSnapshot.observed

theorem StrictReadKept.of_isNeighborhood {facts : FactColumn} {dependency : StrictReadDependency}
    {commitSeq : CommitSeq} {n : TemporalNeighborhood}
    (h : IsNeighborhood facts.events dependency.ref dependency.validTime
      dependency.snapshotSeq n)
    (h' : IsNeighborhood facts.events dependency.ref dependency.validTime
      commitSeq n) :
  StrictReadKept facts dependency commitSeq
  where
  neighborhood n' hn' := by
    rw [hn'.eq h]
    exact h'
  state n' hn' instant hgap atSnapshot atCommit hat hcommit := by
    obtain rfl := hn'.eq h
    rw [h'.observed_eq_of_inGap hgap hcommit, h.observed_eq_of_inGap hgap hat]

/-- The batch states the identity of the edge to which a reference belongs. -/
def StoreCommitBatch.statesIdentity (batch : StoreCommitBatch) (ref : FactRef) : Prop :=
  ref ∈ batch.edgeIdentities.map StoreCommitBatch.identityRef

instance (batch : StoreCommitBatch) (ref : FactRef) : Decidable (batch.statesIdentity ref) :=
  inferInstanceAs (Decidable (ref ∈ batch.edgeIdentities.map StoreCommitBatch.identityRef))

section StrictReads

variable {store : CommitStore} {epoch : DecidedEpoch} {decided : DecidedBatch}
  {front back : List DecidedBatch} {dependency : StrictReadDependency}

/-- The batches which commit before a batch of a group are those in front of it. -/
theorem DecidedEpoch.Checked.mem_front_iff {events : List FactEvent} (h : epoch.Checked events)
    (hsplit : epoch.decided = front ++ decided :: back) {earlier : DecidedBatch} :
  earlier ∈ front ↔ earlier ∈ epoch.decided ∧ earlier.commitSeq < decided.commitSeq
  := by
  have hordered := h.ordered
  rw [hsplit, pairwise_append, pairwise_cons] at hordered
  obtain ⟨-, ⟨hback, -⟩, hfront⟩ := hordered
  rw [hsplit]
  constructor
  · intro hearlier
    use mem_append_left _ hearlier, hfront earlier hearlier decided mem_cons_self
  · rintro ⟨hearlier, hlt⟩
    obtain hearlier | hearlier := mem_append.mp hearlier
    · exact hearlier
    · obtain rfl | hearlier := mem_cons.mp hearlier
      · cases lt_irrefl _ hlt
      · cases lt_asymm hlt (hback earlier hearlier)

/-- Before the commit of a batch, its group only adds the identity of an edge to the chain of a
strict read. -/
theorem DecidedEpoch.Written.isVisible_iff (h : epoch.Written store)
    (hsplit : epoch.decided = front ++ decided :: back)
    (hdependency : dependency ∈ decided.batch.strictReadDependencies)
    (hidentity : ∀ earlier ∈ front, ¬ earlier.batch.statesIdentity dependency.ref)
    {limit : CommitSeq} (hbase : epoch.baseVisibleSeq ≤ limit) (hlimit : limit < decided.commitSeq)
    (event : FactEvent) :
  IsVisible store.facts.events dependency.ref limit event ↔
    IsVisible store.facts.events dependency.ref epoch.baseVisibleSeq event
  := by
  have hdecided : decided ∈ epoch.decided := by simp [hsplit]
  constructor
  · rintro ⟨hevent, href, hcommit⟩
    use hevent, href
    apply not_lt.mp
    intro hlt
    obtain ⟨earlier, hearlier, hfact, hbefore, hindependent⟩ :=
      h.exists_earlier hdecided hevent hlt (lt_of_le_of_lt hcommit hlimit)
    obtain ⟨mutation, hmutation, heq⟩ | ⟨-, identity, hmem, heq⟩ :=
      ref_of_mem_commitFacts hfact
    · apply hindependent.strictReads dependency hdependency mutation hmutation
      rw [← href, heq]
    · apply hidentity earlier ((h.mem_front_iff hsplit).mpr ⟨hearlier, hbefore⟩)
      apply mem_map.mpr
      use identity, hmem
      rw [← href, heq]
  · intro hevent
    apply hevent.mono hbase

/-- A batch in front which states the identity of the edge changes what the read observes. -/
theorem DecidedEpoch.Written.not_strictReadKept (h : epoch.Written store)
    (hsplit : epoch.decided = front ++ decided :: back)
    (hdependency : dependency ∈ decided.batch.strictReadDependencies) {earlier : DecidedBatch}
    (hearlier : earlier ∈ front) (hidentity : earlier.batch.statesIdentity dependency.ref) :
  dependency.snapshotSeq ≤ earlier.commitSeq ∧ earlier.commitSeq < decided.commitSeq ∧
    ¬ StrictReadKept store.facts dependency earlier.commitSeq
  := by
  have hdecided : decided ∈ epoch.decided := by simp [hsplit]
  obtain ⟨hmem, hlt⟩ := (h.mem_front_iff hsplit).mp hearlier
  obtain ⟨hle, -⟩ := (h.checked decided hdecided).strictReads dependency hdependency
  have hsnapshot := lt_of_le_of_lt hle (h.above earlier hmem)
  use hsnapshot.le, hlt
  intro hkept
  obtain ⟨identity, hidentity, href⟩ := mem_map.mp hidentity
  obtain ⟨fact, hfact, hfref, hftime, hfcommit⟩ := h.exists_fact hmem
    (mem_append_right _ (mem_map_of_mem hidentity))
  have hfact : IsVisible store.facts.events dependency.ref earlier.commitSeq
      fact := ⟨hfact, hfref.trans href, hfcommit.le⟩
  have hn := @isNeighborhood_found store.facts dependency.ref
    dependency.validTime dependency.snapshotSeq
  have hn' := hkept.neighborhood _ hn
  generalize found store.facts dependency.ref dependency.validTime
    dependency.snapshotSeq = n at hn hn'
  cases hobserved : n.observed with
  | none =>
    have hmem : fact.validFrom ∈ boundaries store.facts.events dependency.ref
        earlier.commitSeq ∩ Set.Iic dependency.validTime := by
      use ⟨fact, hfact, rfl⟩
      rw [hftime]
      apply UInt64.le_iff_toNat_le.mpr
      apply Nat.zero_le
    rw [hn'.observed_none hobserved] at hmem
    cases hmem
  | some event =>
    have hevent := hn.observed_visible event hobserved
    have hzero : event.validFrom = 0 := by
      have hvalid := store.facts.valid event hevent.mem
      have hfamily : event.ref.family = .edgeIdentity := by
        rw [hevent.ref_eq, ← href]
        rfl
      rw [FactEvent.validate, if_pos hfamily] at hvalid
      obtain ⟨-, hvalid⟩ := StatusOr.guard_eq_ok_iff.mp hvalid
      obtain ⟨_, -, hvalid⟩ := StatusOr.bind_eq_ok_iff.mp hvalid
      obtain ⟨hzero, -⟩ := StatusOr.guard_eq_ok_iff.mp hvalid
      apply not_not.mp (not_or.mp hzero).1
    have hcommit := hn'.observed_commit event hobserved fact hfact (by rw [hftime, hzero])
    rw [hfcommit] at hcommit
    apply not_lt.mpr (le_trans hcommit hevent.commitSeq_le) hsnapshot

end StrictReads

/-- Along every run from a store which was just opened, what a strict read of a committed batch
observed is kept up to the commit of the batch, exactly if no batch in front of it in its group
states the identity of the edge which was read. -/
theorem CommitState.strictReadKept_iff (options : GroupOptions) (sizes : ValidationSizes)
    (facts : FactColumn) (visibleSeq : CommitSeq) (outcomes : List TxnId)
    (hfacts : ∀ event ∈ facts.events, event.commitSeq ≤ visibleSeq) (steps : List CommitStep)
    (epoch : DecidedEpoch)
    (hepoch : epoch ∈ (run options { store := .opened sizes facts visibleSeq outcomes }
      steps).written)
    (front back : List DecidedBatch) (decided : DecidedBatch)
    (hsplit : epoch.decided = front ++ decided :: back) (dependency : StrictReadDependency)
    (hdependency : dependency ∈ decided.batch.strictReadDependencies) :
  (∀ commitSeq, dependency.snapshotSeq ≤ commitSeq → commitSeq < decided.commitSeq →
      StrictReadKept (run options { store := .opened sizes facts visibleSeq outcomes }
        steps).store.facts dependency commitSeq) ↔
    ∀ earlier ∈ front, ¬ earlier.batch.statesIdentity dependency.ref
  := by
  have h := ((invariant_opened hfacts sizes outcomes).run options steps).written epoch hepoch
  constructor
  · intro hkept earlier hearlier hidentity
    obtain ⟨hle, hlt, hnot⟩ := h.not_strictReadKept hsplit hdependency hearlier hidentity
    apply hnot (hkept earlier.commitSeq hle hlt)
  · intro hidentity commitSeq hsnapshot hcommit
    have hdecided : decided ∈ epoch.decided := by simp [hsplit]
    obtain ⟨hle, n, current, hn, hcurrent, hsame⟩ :=
      (h.checked decided hdecided).strictReads dependency hdependency
    obtain rfl := eq_of_sameStrictReadIdentity hn hcurrent hsame
    apply StrictReadKept.of_isNeighborhood hn
    obtain hbase | hbase := le_total commitSeq epoch.baseVisibleSeq
    · apply hn.between hcurrent hsnapshot hbase
    · apply hcurrent.congr (h.isVisible_iff hsplit hdependency hidentity hbase hcommit)

namespace CommitState

/-- An edge. -/
def newEdge : EdgeIdentity := ⟨5, 1, 2, 1, 0, 0, 0⟩

/-- A transaction which creates the edge. -/
def edgeCreation : StoreCommitBatch where
  txnId := 1
  systemHlc := 1
  mutations := [{ ref := EntityFact.edge ⟨0, 5⟩, validFrom := 3 }]
  edgeIdentities := [newEdge]

/-- A transaction which creates a vertex, as it saw that the edge has no identity. -/
def identityReader : StoreCommitBatch where
  txnId := 2
  systemHlc := 1
  mutations := [{ ref := EntityFact.vertex ⟨0, 1⟩, validFrom := 3 }]
  strictReadDependencies :=
    [{ ref := StoreCommitBatch.identityRef newEdge, validTime := 7, snapshotSeq := 0 }]

/-- A transaction which creates a vertex, as it saw that the edge does not exist. -/
def edgeReader : StoreCommitBatch where
  txnId := 2
  systemHlc := 1
  mutations := [{ ref := EntityFact.vertex ⟨0, 1⟩, validFrom := 3 }]
  strictReadDependencies :=
    [{ ref := EntityFact.edge ⟨0, 6⟩, validTime := 7, snapshotSeq := 0 }]

/-- The edge is created in the same group as a transaction which reads. -/
def createAndRead (reader : StoreCommitBatch) : List CommitStep :=
  [.decide 2 [edgeCreation, reader], .write 0]

/-- One group of two batches was written. -/
theorem exists_of_map_written {state : CommitState} {first second : StoreCommitBatch}
    (h : state.written.map (fun epoch => epoch.decided.map DecidedBatch.batch) =
      [[first, second]]) :
  ∃ epoch ∈ state.written, ∃ d e, epoch.decided = [d] ++ e :: [] ∧ d.batch = first ∧
    e.batch = second
  := by
  obtain ⟨epoch, hepoch, hdecided⟩ := map_eq_singleton_iff.mp h
  obtain ⟨d, rest, hdecided, hd, hrest⟩ := map_eq_cons_iff.mp hdecided
  obtain ⟨e, rfl, he⟩ := map_eq_singleton_iff.mp hrest
  use epoch, by simp [hepoch], d, e, hdecided, hd, he

theorem createAndRead_not_strictReadKept :
  ∃ decided ∈ (run insertionOptions { store := .opened smallSizes FactColumn.empty 0 [] }
      (createAndRead identityReader)).committed,
    ∃ dependency ∈ decided.batch.strictReadDependencies, ∃ commitSeq,
      dependency.snapshotSeq ≤ commitSeq ∧ commitSeq < decided.commitSeq ∧
        ¬ StrictReadKept (run insertionOptions { store := .opened smallSizes FactColumn.empty 0 [] }
          (createAndRead identityReader)).store.facts dependency commitSeq
  := by
  have h := (@invariant_opened empty 0 (by simp [empty]) smallSizes []).run insertionOptions
    (createAndRead identityReader)
  obtain ⟨epoch, hepoch, d, e, hsplit, hd, he⟩ := @exists_of_map_written
    (run insertionOptions { store := .opened smallSizes empty 0 [] }
      (createAndRead identityReader)) edgeCreation identityReader (by decide +kernel)
  have hdependency : ⟨identityRef newEdge, 7, 0, none, none, none⟩ ∈
      e.batch.strictReadDependencies := by simp [he, identityReader]
  have hnot := (h.written epoch hepoch).not_strictReadKept hsplit hdependency
    (mem_singleton.mpr rfl) (by simp [hd, edgeCreation, statesIdentity])
  refine ⟨e, mem_committed_iff.mpr ⟨epoch, hepoch, by simp [hsplit]⟩, _, hdependency, d.commitSeq,
    hnot⟩

theorem createAndRead_strictReadKept :
  ∃ decided ∈ (run insertionOptions { store := .opened smallSizes FactColumn.empty 0 [] }
      (createAndRead edgeReader)).committed,
    ∃ dependency ∈ decided.batch.strictReadDependencies, ∀ commitSeq,
      dependency.snapshotSeq ≤ commitSeq → commitSeq < decided.commitSeq →
        StrictReadKept (run insertionOptions { store := .opened smallSizes FactColumn.empty 0 [] }
          (createAndRead edgeReader)).store.facts dependency commitSeq
  := by
  obtain ⟨epoch, hepoch, d, e, hsplit, hd, he⟩ := @exists_of_map_written
    (run insertionOptions { store := .opened smallSizes empty 0 [] }
      (createAndRead edgeReader)) edgeCreation edgeReader (by decide +kernel)
  have hdependency : ⟨EntityFact.edge ⟨0, 6⟩, 7, 0, none, none, none⟩ ∈
      e.batch.strictReadDependencies := by simp [he, edgeReader]
  refine ⟨e, mem_committed_iff.mpr ⟨epoch, hepoch, by simp [hsplit]⟩, _, hdependency, ?_⟩
  apply (strictReadKept_iff insertionOptions smallSizes empty 0 [] (by simp [empty])
    (createAndRead edgeReader) epoch hepoch [d] [] e hsplit _ hdependency).mpr
  rintro earlier hearlier
  rw [mem_singleton.mp hearlier, hd]
  decide

end CommitState

end Cedar
