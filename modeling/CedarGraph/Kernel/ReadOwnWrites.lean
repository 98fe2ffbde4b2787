import CedarGraph.Kernel.TransactionOverlay

/-!
# A transaction reads its own writes

The committed and the staged events of a reference form a chain, in which a staged event ranks
above the committed ones at its boundary.  The events and the rows of states which a transaction
reads are those of the chain.

The main result is when the state which it reads at an instant is the one of the chain, too: unless
a committed deletion takes effect after a staged assertion.  The read of the snapshot turns the
deletion into nothing, so that it does not hide the staged assertion.
-/

namespace Cedar

open EntityFact FactReadSpec List StatusOr FactEvent

/-! ### The chain of committed and staged events -/

namespace TransactionOverlayReader

section Chain

variable (reader : TransactionOverlayReader) (ref : FactRef)

/-- The staged events of a reference. -/
def stagedEvents : List FactEvent :=
  reader.visitStaged (FactReadSpec.exact ref)

/-- The committed events of a reference which the snapshot sees. -/
def committedEvents : List FactEvent :=
  visible reader.base.commitSeq (reader.base.facts.chain ref).events

/-- The chain of the committed and the staged events of a reference.  A staged event ranks above
the committed ones at its boundary, so that these do not count. -/
def chain : FactChain where
  ref := ref
  events := reader.stagedEvents ref ++ (reader.committedEvents ref).filter fun event =>
    event.validFrom ∉ (reader.stagedEvents ref).map FactEvent.validFrom
  valid event hevent := by
    rcases List.mem_append.mp hevent with hstaged | hcommitted
    · apply (of_mem_visitStaged hstaged).1
    · apply (reader.base.facts.chain ref).valid
      apply (mem_visible.mp (List.mem_filter.mp hcommitted).1).1
  sameRef event hevent := by
    rcases List.mem_append.mp hevent with hstaged | hcommitted
    · apply FactReadSpec.matchesReadSpec_exact_iff.mp (of_mem_visitStaged hstaged).2.2
    · apply (reader.base.facts.chain ref).sameRef
      apply (mem_visible.mp (List.mem_filter.mp hcommitted).1).1
  distinct := by
    rw [List.map_append]
    apply List.nodup_append'.mpr
    refine ⟨?_, ?_, ?_⟩
    · apply List.pairwise_map.mpr
      apply pairwise_visitStaged.imp_of_mem
      intro e f he hf hne heq
      have hsame : ∀ g ∈ reader.visitStaged (FactReadSpec.exact ref), g.ref = ref := by
        intro g hg
        apply FactReadSpec.matchesReadSpec_exact_iff.mp (of_mem_visitStaged hg).2.2
      apply hne ((hsame e he).trans (hsame f hf).symm) (congrArg (fun key => (ofLex key).1) heq)
    · apply List.Nodup.sublist _ ((reader.base.facts.chain ref).nodup_visible reader.base.commitSeq)
      apply List.filter_sublist.map
    · intro key hstaged hcommitted
      obtain ⟨e, he, rfl⟩ := List.mem_map.mp hstaged
      obtain ⟨f, hf, heq⟩ := List.mem_map.mp hcommitted
      have hnew := of_decide_eq_true (List.mem_filter.mp hf).2
      apply hnew
      apply List.mem_map.mpr
      use e, he
      apply congrArg (fun key => (ofLex key).1) heq.symm

variable {reader ref} {t : ValidTime}

variable {event : FactEvent}

theorem mem_chain_iff :
  event ∈ (reader.chain ref).events ↔ event ∈ reader.stagedEvents ref ∨
    event ∈ reader.committedEvents ref ∧
      ∀ staged ∈ reader.stagedEvents ref, staged.validFrom ≠ event.validFrom
  := by
  simp [chain]

theorem commitSeq_stagedEvents (hmem : event ∈ reader.stagedEvents ref) :
  event.commitSeq = reader.commitSeq
  := (of_mem_visitStaged hmem).2.1

theorem mem_committedEvents_iff :
  event ∈ reader.committedEvents ref ↔ event ∈ (reader.base.facts.chain ref).events ∧
    event.commitSeq ≤ reader.base.commitSeq
  := mem_visible

/-- What governs an instant in the chain is what governs it among the staged events, or what
governs it among the committed ones, whichever takes effect later. -/
theorem governingEvent_chain_iff :
  GoverningEvent (reader.chain ref).events reader.commitSeq t event ↔
    (GoverningEvent (reader.stagedEvents ref) reader.commitSeq t event ∧
      ∀ committed, GoverningEvent (reader.base.facts.chain ref).events reader.base.commitSeq t
        committed → committed.validFrom ≤ event.validFrom) ∨
    (GoverningEvent (reader.base.facts.chain ref).events reader.base.commitSeq t event ∧
      ∀ staged, GoverningEvent (reader.stagedEvents ref) reader.commitSeq t staged →
        staged.validFrom < event.validFrom)
  := by
  have hstaged : ∀ e ∈ reader.stagedEvents ref, e.commitSeq = reader.commitSeq :=
    fun e => commitSeq_stagedEvents
  have hbase := @base_le_commitSeq reader
  rw [GoverningEvent.forall_iff (· ≤ event.validFrom) fun _ _ => le_trans,
    GoverningEvent.forall_iff (· < event.validFrom) fun _ _ => lt_of_le_of_lt]
  constructor
  · rintro ⟨hmem, hvisible, hle, hlatest, hnewest⟩
    simp only [mem_chain_iff, mem_committedEvents_iff] at hmem hlatest hnewest
    rcases hmem with hmem | ⟨⟨hmem, hseen⟩, hcount⟩
    · refine Or.inl ⟨⟨hmem, hvisible, hle, ?_, ?_⟩, ?_⟩
      all_goals grind
    · -- a committed event which does not count is at the boundary of a staged one
      refine Or.inr ⟨⟨hmem, hseen, hle, ?_, ?_⟩, ?_⟩
      all_goals grind
  · rintro (⟨h, hother⟩ | ⟨h, hother⟩)
    · refine ⟨mem_chain_iff.mpr (Or.inl h.mem), h.visible, h.le, ?_, ?_⟩
      · grind [mem_chain_iff, mem_committedEvents_iff, h.latest]
      · grind [h.mem]
    · have hcount : ∀ staged ∈ reader.stagedEvents ref, staged.validFrom ≠ event.validFrom := by
        grind [h.le]
      have hmem := mem_committedEvents_iff.mpr ⟨h.mem, h.visible⟩
      refine ⟨mem_chain_iff.mpr (Or.inr ⟨hmem, hcount⟩), le_trans h.visible hbase, h.le, ?_, ?_⟩
      · grind [mem_chain_iff, mem_committedEvents_iff, h.latest]
      · grind [mem_chain_iff, mem_committedEvents_iff, h.newest]

end Chain

end TransactionOverlayReader

/-! ### The state which a transaction reads -/

namespace TransactionOverlayReader

section ReadStateAt

variable {reader : TransactionOverlayReader} {ref : FactRef} {t : ValidTime}

/-- A transaction stages a fact once at a boundary. -/
theorem distinct_stagedEvents :
  ((reader.stagedEvents ref).map chainKey).Nodup
  := by
  have hdistinct := (reader.chain ref).distinct
  rw [chain, map_append] at hdistinct
  apply hdistinct.of_append_left

/-- A reader finds an assertion if it governs the instant among the staged events, and no assertion
among the committed ones is later, or if it governs the instant among the committed ones, and the
staged ones are earlier. -/
theorem exists_readStateAt_eq_ok (href : ref.validate = .ok ()) :
  ∃ found, reader.readStateAt (exact ref) t reader.commitSeq = .ok found ∧
    ∀ event, event.operation = .put → (found = some event ↔
      (GoverningEvent (reader.stagedEvents ref) reader.commitSeq t event ∧
        ∀ committed, GoverningEvent (reader.base.facts.chain ref).events reader.base.commitSeq t
          committed → committed.operation = .put → committed.validFrom ≤ event.validFrom) ∨
      (GoverningEvent (reader.base.facts.chain ref).events reader.base.commitSeq t event ∧
        ∀ staged, GoverningEvent (reader.stagedEvents ref) reader.commitSeq t staged →
          staged.validFrom < event.validFrom))
  := by
  obtain ⟨winner, hread, hwinner⟩ := @Snapshot.exists_readStateAt_eq_ok reader.base _ ref t
    reader.base.commitSeq validate_exact exactRef_exact href le_rfl
  have hgoverns : ∀ event, winner = some event ↔
      GoverningEvent (reader.base.facts.chain ref).events reader.base.commitSeq t event ∧
        event.operation = .put := by
    intro event
    rw [hwinner]
    constructor
    · rintro ⟨h, -⟩
      apply h
    · intro h
      apply And.intro h
      intro _
      apply h.1.visible
  have hselected : Selected t winner (reader.stagedEvents ref)
      ((reader.stagedEvents ref).foldl (selectStaged t winner) none) := by
    have hnil : Selected t winner [] none := ⟨nofun, nofun, nofun, fun _ _ => nofun⟩
    apply hnil.foldl
    · intro e he
      apply commitSeq_stagedEvents he
    · intro c hc
      apply le_trans ((hgoverns c).mp hc).1.visible base_le_commitSeq
  use ((reader.stagedEvents ref).foldl (selectStaged t winner) none).or winner
  constructor
  · have hdurable : (if reader.commitSeq > reader.base.commitSeq then reader.base.commitSeq
        else reader.commitSeq) = reader.base.commitSeq := by
      split
      case isTrue => rfl
      case isFalse hle => apply le_antisymm (not_lt.mp hle) base_le_commitSeq
    rw [readStateAt]
    simp only [hdurable, hread]
    split
    case isTrue hexcluded =>
      rw [stagedEvents, visitStaged, if_pos hexcluded]
      rfl
    case isFalse => rfl
  intro event hput
  rcases hstaged : (reader.stagedEvents ref).foldl (selectStaged t winner) none with _ | selected
  · rw [hstaged] at hselected
    rw [Option.none_or, hgoverns]
    constructor
    · rintro ⟨hevent, -⟩
      right
      use hevent
      intro staged hgov
      obtain ⟨c, hc, hlt⟩ := hselected.lt_winner rfl staged hgov.mem hgov.le
      rw [(hgoverns event).mpr ⟨hevent, hput⟩] at hc
      obtain rfl := Option.some.inj hc
      apply hlt
    · rintro (⟨hevent, hcommitted⟩ | ⟨hevent, -⟩)
      · obtain ⟨c, hc, hlt⟩ := hselected.lt_winner rfl event hevent.mem hevent.le
        obtain ⟨hgov, hputs⟩ := (hgoverns c).mp hc
        cases not_lt.mpr (hcommitted c hgov hputs) hlt
      · apply And.intro hevent hput
  · rw [hstaged] at hselected
    obtain ⟨hmem, hle⟩ := hselected.mem selected rfl
    have hgov : GoverningEvent (reader.stagedEvents ref) reader.commitSeq t selected := by
      refine ⟨hmem, (commitSeq_stagedEvents hmem).le, hle, ?_, ?_⟩
      · intro e he _ het
        apply hselected.latest selected rfl e he het
      · intro e he _ _
        rw [commitSeq_stagedEvents he, commitSeq_stagedEvents hmem]
    rw [Option.some_or, Option.some.injEq]
    constructor
    · rintro rfl
      left
      use hgov
      intro committed hcommitted hputs
      apply hselected.winner_le selected rfl committed
      apply (hgoverns committed).mpr ⟨hcommitted, hputs⟩
    · rintro (⟨hevent, -⟩ | ⟨hevent, hstaged⟩)
      · apply hgov.unique distinct_stagedEvents hevent
      · have hle := hselected.winner_le selected rfl event ((hgoverns event).mpr ⟨hevent, hput⟩)
        cases not_lt.mpr hle (hstaged selected hgov)

end ReadStateAt

end TransactionOverlayReader

/-! ### The events which a transaction reads -/

/-- The rows of a stream of events of one reference. -/
theorem StateRowStream.run_eq_stateRows (sorter : Sorter FactEvent.chainKey)
    {spec : CanonicalStateReadSpec} {ref : FactRef} {events : List FactEvent}
    {boundaries : List CorrectedBoundary} (hmax : spec.maxRows = none)
    (hsame : ∀ event ∈ events, event.ref = ref)
    (hresolve : resolveCorrectedBoundaries sorter events spec.snapshotSeq = .ok boundaries) :
  run sorter spec {} events = .ok (stateRows ref boundaries spec.validTime spec.snapshotSeq)
  := by
  rw [show ({} : StateRowStream) = ⟨([] : List FactEvent).head?.map FactEvent.ref, [], [], false⟩
    from rfl, run_eq_collect sorter hmax]
  rcases eq_nil_or_concat events with rfl | ⟨_, _, hevents⟩
  · have hnil : resolveCorrectedBoundaries sorter [] spec.snapshotSeq = .ok [] := by
      rfl
    rw [← Except.ok.inj hresolve]
    rfl
  · have hnonempty : events ≠ [] := by
      rw [hevents]
      simp
    have hfilter : ∀ event ∈ events, events.filter (fun e => e.ref = event.ref) = events := by
      intro event hevent
      apply filter_eq_self.mpr
      intro e he
      apply decide_eq_true ((hsame e he).trans (hsame event hevent).symm)
    rw [@Grouping.collect_eq_ok _ _ _ _ _ FactEvent.ref events (groupRows sorter spec)
      (fun ref => stateRows ref boundaries spec.validTime spec.snapshotSeq) _ _ FactRef.storeKey
      FactRef.storeKey_injective, Grouping.keys_eq_singleton hnonempty hsame,
      flatMap_singleton]
    · apply pairwise_of_forall_mem_list
      intro e he f hf
      rw [hsame e he, hsame f hf]
    · intro event hevent
      rw [hfilter event hevent, hsame event hevent]
      apply groupRows_eq_ok sorter hnonempty hsame hresolve

namespace TransactionOverlayReader

section ReadEvents

variable {reader : TransactionOverlayReader} {ref : FactRef} {t : ValidTime}

/-- The snapshot reads the committed events of a reference. -/
theorem exists_readEvents_base :
  ∃ events, reader.base.reader.readEvents (exact ref) = .ok events ∧
    events.Perm (reader.committedEvents ref)
  := by
  use reader.base.reader.scan.filter (exact ref).matchesReadSpec
  constructor
  · rw [CanonicalFactReader.readEvents, validate_exact]
    rfl
  · apply (((Sorter.insertion storeKey).perm _).filter _).trans
    have hsame : (exact ref).matchesReadSpec = fun event => decide (event.ref = ref) := by
      funext event
      rw [Bool.eq_iff_iff, matchesReadSpec_exact_iff, decide_eq_true_eq]
    rw [hsame, committedEvents, visible, filter_comm]
    rfl

/-- A reader reads the committed and the staged events of a reference. -/
theorem exists_readEvents_eq_ok :
  ∃ events, reader.readEvents (exact ref) = .ok events ∧
    events.Perm (reader.committedEvents ref ++ reader.stagedEvents ref)
  := by
  obtain ⟨committed, hread, hperm⟩ := @exists_readEvents_base reader ref
  rw [readEvents, validate_exact, if_neg (by simp [exact])]
  split
  case isTrue hexcluded =>
    use committed, hread
    rw [stagedEvents, visitStaged, if_pos hexcluded, append_nil]
    apply hperm
  case isFalse =>
    rw [hread]
    refine ⟨_, rfl, ?_⟩
    apply ((Sorter.insertion eventKey).perm _).trans
    apply hperm.append_right

/-- The staged events are newer than the committed ones, if there is a commit after these. -/
theorem lt_commitSeq_of_mem (hbase : reader.base.commitSeq ≠ -1) {staged committed : FactEvent}
    (hstaged : staged ∈ reader.stagedEvents ref)
    (hcommitted : committed ∈ reader.committedEvents ref) :
  committed.commitSeq < staged.commitSeq
  := by
  have hincluded : reader.includeStaged = true := by
    by_contra hexcluded
    rw [stagedEvents, visitStaged, if_pos hexcluded] at hstaged
    cases hstaged
  apply lt_of_le_of_lt (mem_committedEvents_iff.mp hcommitted).2
  rw [commitSeq_stagedEvents hstaged, commitSeq, if_pos hincluded, overlaySeq, if_neg hbase]
  apply lt_of_lt_of_le _ (le_max_right _ _)
  rw [UInt64.lt_iff_toNat_lt, Word.toNat_add_one hbase]
  apply Nat.lt_succ_self

/-- The committed and the staged events of a reference, if there is a commit after the snapshot. -/
def unionChain (reader : TransactionOverlayReader) (ref : FactRef)
    (hbase : reader.base.commitSeq ≠ -1) : FactChain where
  ref := ref
  events := reader.committedEvents ref ++ reader.stagedEvents ref
  valid event hevent := by
    rcases List.mem_append.mp hevent with hcommitted | hstaged
    · apply (reader.base.facts.chain ref).valid event (mem_visible.mp hcommitted).1
    · apply (of_mem_visitStaged hstaged).1
  sameRef event hevent := by
    rcases List.mem_append.mp hevent with hcommitted | hstaged
    · apply (reader.base.facts.chain ref).sameRef event (mem_visible.mp hcommitted).1
    · apply FactReadSpec.matchesReadSpec_exact_iff.mp (of_mem_visitStaged hstaged).2.2
  distinct := by
    rw [List.map_append]
    apply List.nodup_append'.mpr
    refine ⟨(reader.base.facts.chain ref).nodup_visible _, distinct_stagedEvents, ?_⟩
    intro key hcommitted hstaged
    obtain ⟨e, he, rfl⟩ := List.mem_map.mp hcommitted
    obtain ⟨f, hf, heq⟩ := List.mem_map.mp hstaged
    apply (lt_commitSeq_of_mem hbase hf he).ne
    apply congrArg (fun key => (ofLex key).2) heq.symm

/-- The events of a reference resolve to the boundaries of the chain. -/
theorem resolve_eq_boundariesAt_chain (hbase : reader.base.commitSeq ≠ -1)
    (sorter : Sorter chainKey) {events : List FactEvent}
    (hperm : events.Perm (reader.committedEvents ref ++ reader.stagedEvents ref)) :
  resolveCorrectedBoundaries sorter events reader.commitSeq =
    .ok ((reader.chain ref).boundariesAt reader.commitSeq)
  := by
  rw [(reader.unionChain ref hbase).resolve_eq_boundariesAt reader.commitSeq sorter hperm]
  apply congrArg Except.ok
  symm
  apply correctedBoundaries_eq_of_newest
  · intro event hevent
    obtain ⟨hmem, hseen⟩ := mem_visible.mp hevent
    apply mem_visible.mpr ⟨mem_append.mpr _, hseen⟩
    rcases mem_chain_iff.mp hmem with hstaged | ⟨hcommitted, -⟩
    · right
      apply hstaged
    · left
      apply hcommitted
  · apply (reader.unionChain ref hbase).nodup_visible
  · intro event hevent hnewest
    obtain ⟨hmem, hseen⟩ := mem_visible.mp hevent
    apply mem_visible.mpr ⟨mem_chain_iff.mpr _, hseen⟩
    rcases mem_append.mp hmem with hcommitted | hstaged
    · right
      use hcommitted
      intro staged hstaged hsame
      have hlt := lt_commitSeq_of_mem hbase hstaged hcommitted
      apply not_lt.mpr (hnewest staged _ hsame) hlt
      apply mem_visible.mpr ⟨mem_append_right _ hstaged, (commitSeq_stagedEvents hstaged).le⟩
    · left
      apply hstaged

/-- The rows of a reference are those of the chain. -/
theorem readStateRows_eq_ok (hbase : reader.base.commitSeq ≠ -1)
    (sorter : Sorter chainKey) :
  reader.readStateRows sorter ⟨exact ref, t, reader.commitSeq, none⟩ =
    .ok (stateRows ref ((reader.chain ref).boundariesAt reader.commitSeq) t reader.commitSeq)
  := by
  obtain ⟨events, hread, hperm⟩ := @exists_readEvents_eq_ok reader ref
  have hsame : ∀ event ∈ events, event.ref = ref := by
    intro event hevent
    apply (reader.unionChain ref hbase).sameRef event (hperm.mem_iff.mp hevent)
  have hresolve := reader.resolve_eq_boundariesAt_chain hbase sorter hperm
  rw [readStateRows]
  split
  case isTrue hexcluded =>
    have hcommit : reader.commitSeq = reader.base.commitSeq := by
      rw [commitSeq, if_neg hexcluded]
    rw [readEvents, validate_exact, ok_bind,
      if_neg (by simp [exact]), if_pos hexcluded] at hread
    rw [CanonicalFactReader.readStateRows, validate_exact, ok_bind,
      if_neg (fun h => absurd h.1 (by rw [hcommit]; apply lt_irrefl))]
    rw [show ({ exact ref with maxRows := none } : FactReadSpec) = exact ref from rfl, hread]
    apply StateRowStream.run_eq_stateRows sorter rfl hsame hresolve
  case isFalse =>
    rw [show ({ exact ref with maxRows := none } : FactReadSpec) = exact ref from rfl, hread]
    apply StateRowStream.run_eq_stateRows sorter rfl hsame hresolve

end ReadEvents

end TransactionOverlayReader

/-! ### Agreement -/

namespace TransactionOverlayReader

/-- The reads of a reference agree: the state which the reader reads at an instant is the one of the
chain of committed and staged events, and if there is a commit after the snapshot, then the events
which it reads resolve to this chain, and the rows which it reads are those of the chain. -/
structure ReadsOwnWrites (reader : TransactionOverlayReader) (ref : FactRef) (t : ValidTime) :
    Prop where
  stateAt : ∃ found, reader.readStateAt (FactReadSpec.exact ref) t reader.commitSeq = .ok found ∧
    ∀ value, (∃ event, found = some event ∧ event.operation = .put ∧ Agree event.value value) ↔
      ∃ state ∈ (reader.chain ref).stateAt reader.commitSeq,
        state.interval.Contains t ∧ Agree state.value value
  events : reader.base.commitSeq ≠ -1 → ∀ sorter : Sorter FactEvent.chainKey,
    ∃ events, reader.readEvents (FactReadSpec.exact ref) = .ok events ∧
      resolveCorrectedBoundaries sorter events reader.commitSeq =
        .ok ((reader.chain ref).boundariesAt reader.commitSeq)
  stateRows : reader.base.commitSeq ≠ -1 → ∀ sorter : Sorter FactEvent.chainKey,
    reader.readStateRows sorter ⟨FactReadSpec.exact ref, t, reader.commitSeq, none⟩ =
      .ok (stateRows ref ((reader.chain ref).boundariesAt reader.commitSeq) t reader.commitSeq)

section Agreement

variable {reader : TransactionOverlayReader} {ref : FactRef} {t : ValidTime}

/-- The state of the chain at an instant is asserted by what governs the instant. -/
theorem exists_mem_stateAt_chain_iff {value : Option Value} :
  (∃ state ∈ (reader.chain ref).stateAt reader.commitSeq,
      state.interval.Contains t ∧ Agree state.value value) ↔
    ∃ event, GoverningEvent (reader.chain ref).events reader.commitSeq t event ∧
      event.operation = .put ∧ Agree event.value value
  := exists_mem_presentState_iff _ (reader.chain ref).distinct _ _ _

/-- A transaction reads its own writes at an instant, if and only if no committed deletion takes
effect after the staged assertion which governs the instant among the staged events. -/
theorem readsOwnWrites_iff (href : ref.validate = .ok ()) :
  reader.ReadsOwnWrites ref t ↔
    ∀ staged committed, GoverningEvent (reader.stagedEvents ref) reader.commitSeq t staged →
      GoverningEvent (reader.base.facts.chain ref).events reader.base.commitSeq t committed →
      staged.operation = .put → committed.operation = .delete →
        committed.validFrom ≤ staged.validFrom
  := by
  obtain ⟨found, hread, hfound⟩ := @exists_readStateAt_eq_ok reader ref t href
  constructor
  · rintro ⟨⟨state, hstate, hagree⟩, -, -⟩ staged committed hstaged hcommitted hput hdelete
    obtain rfl : found = state := by
      rw [hread] at hstate
      apply Except.ok.inj hstate
    -- the deletion is not read, so the staged assertion is
    have hsome : found = some staged := by
      apply (hfound staged hput).mpr
      left
      use hstaged
      intro other hother hputs
      rw [hother.unique (reader.base.facts.chain ref).distinct hcommitted, hdelete] at hputs
      cases hputs
    obtain ⟨event, hevent, hputs, -⟩ := exists_mem_stateAt_chain_iff.mp
      ((hagree staged.value).mp ⟨staged, hsome, hput, Agree.refl _⟩)
    rcases governingEvent_chain_iff.mp hevent with ⟨hevent, hle⟩ | ⟨hevent, -⟩
    · rw [← hevent.unique distinct_stagedEvents hstaged]
      apply hle committed hcommitted
    · rw [hevent.unique (reader.base.facts.chain ref).distinct hcommitted, hdelete] at hputs
      cases hputs
  · intro hle
    have hgoverns : ∀ event, event.operation = .put → (found = some event ↔
        GoverningEvent (reader.chain ref).events reader.commitSeq t event) := by
      intro event hput
      rw [hfound event hput, governingEvent_chain_iff]
      apply or_congr_left
      constructor
      · rintro ⟨hevent, hputs⟩
        use hevent
        intro committed hcommitted
        rcases hoperation : committed.operation with _ | _
        · apply hputs committed hcommitted hoperation
        · apply hle event committed hevent hcommitted hput hoperation
      · rintro ⟨hevent, hcommitted⟩
        use hevent
        intro committed hgov _
        apply hcommitted committed hgov
    constructor
    · use found, hread
      intro value
      rw [exists_mem_stateAt_chain_iff]
      apply exists_congr
      intro event
      constructor
      · rintro ⟨hsome, hput, hagree⟩
        use (hgoverns event hput).mp hsome, hput, hagree
      · rintro ⟨hevent, hput, hagree⟩
        use (hgoverns event hput).mpr hevent, hput, hagree
    · intro hbase sorter
      obtain ⟨events, hevents, hperm⟩ := @exists_readEvents_eq_ok reader ref
      use events, hevents
      apply resolve_eq_boundariesAt_chain hbase sorter hperm
    · intro hbase sorter
      apply readStateRows_eq_ok hbase sorter

end Agreement

/-- A transaction which mutates a vertex, that was created at 3 and deleted at 7. -/
def onDeletedVertex (validFrom : ValidTime) (operation : FactOperation) :
    TransactionOverlayReader where
  base := ⟨correctedVertex, 4⟩
  writes := {
    mutations := [⟨EntityFact.vertex ⟨0, 1⟩, validFrom, operation, 0, none⟩]
    edgeIdentities := []
    valid := List.forall_mem_singleton.mpr rfl
    distinct := List.nodup_singleton _
    validEdge := StagedWrites.empty.validEdge
    distinctEdge := List.nodup_nil }
  includeStaged := true

/-- A vertex which was deleted at 7, and which a transaction creates at 5, is there at 8, as the
transaction reads it, but not in the chain. -/
theorem onDeletedVertex_not_readsOwnWrites :
  ¬ (onDeletedVertex 5 .put).ReadsOwnWrites (EntityFact.vertex ⟨0, 1⟩) 8
  := by
  rintro ⟨⟨found, hread, hagree⟩, -, -⟩
  obtain rfl := Except.ok.inj hread
  obtain ⟨state, hstate, hcontains, -⟩ := (hagree none).mp ⟨_, rfl, rfl, Agree.refl _⟩
  have hnone : ∀ state ∈ ((onDeletedVertex 5 .put).chain (vertex ⟨0, 1⟩)).stateAt
      (onDeletedVertex 5 .put).commitSeq, ¬ state.interval.Contains 8 := by
    decide +kernel
  apply hnone state hstate hcontains

/-- A transaction which creates the vertex at 7 reads it. -/
theorem onDeletedVertex_readsOwnWrites :
  (onDeletedVertex 7 .put).ReadsOwnWrites (EntityFact.vertex ⟨0, 1⟩) 8
  := by
  apply (readsOwnWrites_iff (by decide)).mpr
  intro staged committed hstaged hcommitted _ _
  have hmem : staged ∈ [⟨vertex ⟨0, 1⟩, 7, 5, .put, 0, none, none⟩] := hstaged.mem
  rw [mem_singleton.mp hmem]
  have hle : ∀ event ∈ correctedVertex.events, event.validFrom ≤ 7 := by
    decide
  apply hle committed (FactColumn.mem_chain_iff.mp hcommitted.mem).1

end TransactionOverlayReader

end Cedar
