import CedarGraph.Lib.SortedList
import CedarGraph.Storage.FactColumn

/-!
# Vacuum

A vacuum deletes the facts which no snapshot from its target on reads: those for which a newer
correction of the same boundary is not newer than the target.  It deletes in batches, each of which
is written together with a cursor from which the vacuum continues, also after a crash.

The main results are that a batch ends where a boundary ends, so that a resumed vacuum deletes what
an uninterrupted one deletes, and that no state at a snapshot from the target on changes at any time
of it.
-/

namespace Cedar

open FactColumn FactEvent List Option StatusOr

/-- The length of the part of a key which depends on reference and valid time. -/
def factValidTimePrefixBytes : Nat := 24

/-- What to do with a key. -/
structure VacuumKeyDecision where
  stopBeforeKey : Bool := false
  deleteKey : Bool := false
  deriving DecidableEq

/-- The plan of one batch. -/
structure VacuumCleanupPlanner where
  target : CommitSeq
  maxKeys : Nat
  processed : Nat := 0
  activeBoundary : List UInt8 := []
  lastKey : List UInt8 := []
  retainedBaseline : Bool := false

namespace VacuumCleanupPlanner

/-- A planner looks at the next key: at a boundary, the first fact which is not newer than the
target stays, and the following ones are deleted. -/
def consider (planner : VacuumCleanupPlanner) (encodedFactKey : List UInt8) :
    StatusOr (VacuumKeyDecision × VacuumCleanupPlanner) := do
  let decoded ← decodeFactKey encodedFactKey
  let boundary := encodedFactKey.take factValidTimePrefixBytes
  if planner.processed ≥ planner.maxKeys ∧ boundary ≠ planner.activeBoundary then
    return ({ stopBeforeKey := true }, planner)
  else
    let retained := planner.retainedBaseline && boundary == planner.activeBoundary
    let old := decide (decoded.commitSeq ≤ planner.target)
    return ({ deleteKey := old && retained },
      { planner with
        activeBoundary := boundary
        retainedBaseline := retained || old
        lastKey := encodedFactKey
        processed := planner.processed + 1 })

/-- A planner looks at the keys of an iterator up to where it stops.  This gives the keys to
delete and whether the iterator was passed to its end. -/
def considerAll (planner : VacuumCleanupPlanner) :
    List FactEvent → StatusOr (List (List UInt8) × VacuumCleanupPlanner × Bool)
  | [] => .ok ([], planner, true)
  | event :: rest => do
      let considered ← planner.consider event.encodedKey
      if considered.1.stopBeforeKey then
        return ([], considered.2, false)
      else
        let result ← considered.2.considerAll rest
        return (if considered.1.deleteKey then event.encodedKey :: result.1 else result.1, result.2)

end VacuumCleanupPlanner

inductive VacuumPhase where
  | prepared
  | running
  deriving DecidableEq

/-- The durable state of a vacuum. -/
structure VacuumState where
  target : CommitSeq
  phase : VacuumPhase := .prepared
  cursor : List UInt8 := []
  deriving DecidableEq

/-- The checks on the durable state, which is encoded only if it passes them. -/
def VacuumState.validate (state : VacuumState) : Status :=
  if state.target = 0 ∨ (state.cursor ≠ [] ∧ state.cursor.length ≠ encodedFactKeyBytes) then
    Status.invalidArgument "vacuum state" "zero vacuum target"
  else
    .ok ()

/-- The part of a store which a vacuum writes. -/
structure VacuumStore where
  facts : FactColumn
  vacuumState : Option VacuumState := none
  oldestReadable : CommitSeq := 0
  visibleSeq : CommitSeq

namespace VacuumStore

/-- The iterator from which a batch starts. -/
def iteratorFrom (facts : FactColumn) (cursor : List UInt8) : List FactEvent :=
  if cursor ≠ [] then
    match facts.seek cursor with
    | event :: rest => if event.encodedKey = cursor then rest else event :: rest
    | [] => []
  else
    facts.events

/-- One batch, which is written at once with the cursor of the next one. -/
def deleteObsoleteFactVersions (maxKeys : Nat) (store : VacuumStore) (state : VacuumState) :
    StatusOr (VacuumStore × Bool) := do
  let planner : VacuumCleanupPlanner := { target := state.target, maxKeys := maxKeys }
  let result ← planner.considerAll (iteratorFrom store.facts state.cursor)
  let facts := store.facts.filter fun event => !result.1.contains event.encodedKey
  if result.2.2 then
    return ({ store with facts := facts, vacuumState := none }, true)
  else
    let next : VacuumState := ⟨state.target, .running, result.2.1.lastKey⟩
    next.validate
    return ({ store with facts := facts, vacuumState := some next }, false)

/-- A process which continues a vacuum and lives for some batches at most. -/
def resumeVacuum (maxKeys : Nat) :
    (batches : Nat) → VacuumStore → VacuumState → StatusOr VacuumStore
  | 0, store, _ => .ok store
  | batches + 1, store, state => do
      let result ← store.deleteObsoleteFactVersions maxKeys state
      if result.2 then
        return result.1
      else
        match result.1.vacuumState with
        | none => Status.notFound "vacuum" "read vacuum cursor"
        | some next => resumeVacuum maxKeys batches result.1 next

/-- A process which opens the store, and continues its vacuum if there is one. -/
def openAndResume (maxKeys batches : Nat) (store : VacuumStore) : StatusOr VacuumStore :=
  match store.vacuumState with
  | none => .ok store
  | some state =>
      if state.target ≠ store.oldestReadable then
        Status.corruption "vacuum" "state target disagrees with watermark"
      else
        resumeVacuum maxKeys batches store state

/-- Processes which continue a vacuum one after the other, each of which crashes after some
batches. -/
def openAll (maxKeys : Nat) (store : VacuumStore) (crashes : List Nat) : StatusOr VacuumStore :=
  crashes.foldlM (fun store batches => openAndResume maxKeys batches store) store

/-- A vacuum whose process crashes after some batches, if it has not finished.  The target and the
watermark are written at once before the first batch. -/
def vacuum (maxKeys batches : Nat) (store : VacuumStore) (oldestReadable : CommitSeq) :
    StatusOr VacuumStore :=
  if oldestReadable < store.oldestReadable ∨ store.visibleSeq < oldestReadable then
    Status.invalidArgument "vacuum" "target is outside readable range"
  else if oldestReadable = store.oldestReadable then
    .ok store
  else do
    let state : VacuumState := ⟨oldestReadable, .prepared, []⟩
    state.validate
    resumeVacuum maxKeys batches
      { store with vacuumState := some state, oldestReadable := oldestReadable } state

end VacuumStore

/-! ### Boundaries -/

/-- The part of the key of an event which depends on reference and valid time. -/
def FactEvent.boundaryKey (event : FactEvent) : List UInt8 :=
  event.encodedKey.take factValidTimePrefixBytes

variable {e : FactEvent} {events : List FactEvent}

theorem FactEvent.boundaryKey_eq (he : e.validate = .ok ()) :
  e.boundaryKey = e.ref.keyBytes ++ timeBytes e.validFrom
  := by
  rw [boundaryKey, encodedKey, encodeFactKey_eq (validate_ref he) (commitSeq_ne_zero he),
    ← append_assoc]
  apply take_left'
  simp [factIdentityPrefixBytes, factValidTimePrefixBytes]

/-- Events have the same boundary if they agree in reference and valid time. -/
theorem FactEvent.boundaryKey_inj {f : FactEvent} (he : e.validate = .ok ())
    (hf : f.validate = .ok ()) :
  e.boundaryKey = f.boundaryKey ↔ e.ref = f.ref ∧ e.validFrom = f.validFrom
  := by
  rw [boundaryKey_eq he, boundaryKey_eq hf]
  constructor
  · intro heq
    obtain ⟨href, htime⟩ := append_inj heq (by simp)
    use FactRef.keyBytes_inj.mp href, timeBytes_inj.mp htime
  · rintro ⟨href, htime⟩
    rw [href, htime]

theorem FactEvent.length_encodedKey (he : e.validate = .ok ()) :
  e.encodedKey.length = encodedFactKeyBytes
  := by
  rw [encodedKey, encodeFactKey_eq (validate_ref he) (commitSeq_ne_zero he)]
  simp [factIdentityPrefixBytes, encodedFactKeyBytes]

theorem FactEvent.boundaryKey_ne_nil (he : e.validate = .ok ()) :
  e.boundaryKey ≠ []
  := by
  intro hnil
  have hlength := length_encodedKey he
  rw [boundaryKey, take_eq_nil_iff] at hnil
  obtain hzero | hnil := hnil
  · cases hzero
  · rw [hnil] at hlength
    cases hlength

/-- A fact is obsolete if a newer correction of its boundary is not newer than the target. -/
def obsolete (target : CommitSeq) (events : List FactEvent) (event : FactEvent) : Bool :=
  events.any fun other => other.ref = event.ref ∧ other.validFrom = event.validFrom ∧
    event.commitSeq < other.commitSeq ∧ other.commitSeq ≤ target

theorem obsolete_iff {target : CommitSeq} {event : FactEvent} :
  obsolete target events event = true ↔ ∃ other ∈ events, other.ref = event.ref ∧
    other.validFrom = event.validFrom ∧ event.commitSeq < other.commitSeq ∧
      other.commitSeq ≤ target
  := by
  simp [obsolete]

namespace FactColumn

section Split

variable {column : FactColumn} {pre rest : List FactEvent} {event : FactEvent}
  (hsplit : column.events = pre ++ event :: rest)
include hsplit

theorem valid_of_split :
  event.validate = .ok ()
  := by
  apply column.valid
  simp [hsplit]

variable {other : FactEvent}

theorem valid_of_mem_pre (hother : other ∈ pre) :
  other.validate = .ok ()
  := by
  apply column.valid
  simp [hsplit, hother]

theorem encodedKey_lt_of_mem_pre (hother : other ∈ pre) :
  other.encodedKey < event.encodedKey
  := by
  have hsorted := column.sorted
  rw [hsplit, pairwise_append] at hsorted
  apply hsorted.2.2 other hother event mem_cons_self

theorem encodedKey_lt_of_mem_rest (hother : other ∈ rest) :
  event.encodedKey < other.encodedKey
  := by
  have hsorted := column.sorted
  rw [hsplit, pairwise_append, pairwise_cons] at hsorted
  apply hsorted.2.1.1 other hother

/-- The events of a boundary follow each other. -/
theorem boundaryKey_getLast {last : FactEvent} (hother : other ∈ pre)
    (hsame : other.boundaryKey = event.boundaryKey) (hlast : pre.getLast? = some last) :
  last.boundaryKey = event.boundaryKey
  := by
  obtain ⟨init, rfl⟩ := getLast?_eq_some_iff.mp hlast
  have hmem : last ∈ init ++ [last] := by simp
  have hvalid := valid_of_split hsplit
  have hvalid' := valid_of_mem_pre hsplit hother
  have hvalid'' := valid_of_mem_pre hsplit hmem
  obtain ⟨href, htime⟩ := (boundaryKey_inj hvalid' hvalid).mp hsame
  have hlt := (encodedKey_lt_iff hvalid'' hvalid).mp
    (encodedKey_lt_of_mem_pre hsplit hmem)
  obtain hother | hother := mem_append.mp hother
  · have hlt' : other.encodedKey < last.encodedKey := by
      have hsplit' : column.events = init ++ last :: event :: rest := by simp [hsplit]
      apply encodedKey_lt_of_mem_pre hsplit' hother
    rw [encodedKey_lt_iff hvalid' hvalid'', href, htime] at hlt'
    rw [boundaryKey_inj hvalid'' hvalid]
    obtain hlt | ⟨hsame, hlt⟩ := hlt
    · obtain hlt' | ⟨hsame, -⟩ := hlt'
      · cases lt_asymm hlt hlt'
      · rw [hsame] at hlt
        cases lt_irrefl _ hlt
    · use hsame
      obtain hlt' | ⟨-, hlt'⟩ := hlt'
      · rw [hsame] at hlt'
        cases lt_irrefl _ hlt'
      · apply le_antisymm
        · obtain hlt' | ⟨heq, -⟩ := hlt'
          · apply le_of_lt hlt'
          · apply le_of_eq heq.symm
        · obtain hlt | ⟨heq, -⟩ := hlt
          · apply le_of_lt hlt
          · apply le_of_eq heq.symm
  · rw [mem_singleton.mp hother] at hsame
    exact hsame

/-- A fact is obsolete if a fact which comes before it is of the same boundary and not newer than
the target. -/
theorem obsolete_iff_of_split {target : CommitSeq} :
  obsolete target column.events event = true ↔
    ∃ other ∈ pre, other.boundaryKey = event.boundaryKey ∧ other.commitSeq ≤ target
  := by
  have hvalid := valid_of_split hsplit
  rw [obsolete_iff]
  constructor
  · rintro ⟨other, hother, href, htime, hlt, hle⟩
    have hkey : other.encodedKey < event.encodedKey := by
      rw [encodedKey_lt_iff (column.valid other hother) hvalid]
      right
      use href
      right
      use htime
    rw [hsplit] at hother
    obtain hother | hother := mem_append.mp hother
    · use other, hother
      rw [boundaryKey_inj (valid_of_mem_pre hsplit hother) hvalid]
      use ⟨href, htime⟩
    · obtain rfl | hother := mem_cons.mp hother
      · cases lt_irrefl _ hkey
      · cases lt_asymm hkey (encodedKey_lt_of_mem_rest hsplit hother)
  · rintro ⟨other, hother, hsame, hle⟩
    have hvalid' := valid_of_mem_pre hsplit hother
    obtain ⟨href, htime⟩ := (boundaryKey_inj hvalid' hvalid).mp hsame
    use other
    rw [hsplit]
    use mem_append_left _ hother, href, htime
    have hkey := encodedKey_lt_of_mem_pre hsplit hother
    rw [encodedKey_lt_iff hvalid' hvalid, href, htime] at hkey
    simp only [lt_irrefl, false_or, true_and] at hkey
    use hkey

end Split

end FactColumn

/-! ### One batch -/

namespace VacuumCleanupPlanner

/-- What a planner knows when it has passed some facts and others remain. -/
structure Tracks (planner : VacuumCleanupPlanner) (target : CommitSeq)
    (passed todo : List FactEvent) : Prop where
  target_eq : planner.target = target
  /-- If the next boundary is not the active one, then it is not the last one which was passed. -/
  fresh : ∀ event ∈ todo.head?, event.boundaryKey ≠ planner.activeBoundary →
    ∀ last ∈ passed.getLast?, last.boundaryKey ≠ event.boundaryKey
  /-- At the active boundary, a fact which is not newer than the target was retained. -/
  retained : ∀ event ∈ todo.head?, event.boundaryKey = planner.activeBoundary →
    (planner.retainedBaseline = true ↔ ∃ other ∈ passed, other.boundaryKey = event.boundaryKey ∧
      other.commitSeq ≤ target)

section Batch

variable {column : FactColumn} {planner : VacuumCleanupPlanner} {target : CommitSeq}
  {passed rest todo : List FactEvent} {event : FactEvent}

/-- A planner knows whether it has retained a fact of the boundary of the next one. -/
theorem Tracks.retained_iff
    (h : planner.Tracks target passed (event :: rest))
    (hsplit : column.events = passed ++ event :: rest) :
  (planner.retainedBaseline && event.boundaryKey == planner.activeBoundary) = true ↔
    obsolete target column.events event = true
  := by
  rw [obsolete_iff_of_split hsplit]
  by_cases hactive : event.boundaryKey = planner.activeBoundary
  · simp [h.retained event rfl hactive, hactive]
  · simp only [beq_iff_eq, hactive, Bool.and_eq_true, and_false, false_iff]
    rintro ⟨other, hother, hsame, -⟩
    obtain ⟨last, hlast⟩ := getLast?_isSome.mpr (ne_nil_of_mem hother) |>
      isSome_iff_exists.mp
    apply h.fresh event rfl hactive last hlast
    apply boundaryKey_getLast hsplit hother hsame hlast

/-- A planner deletes the obsolete facts. -/
theorem Tracks.consider_eq
    (h : planner.Tracks target passed (event :: rest))
    (hsplit : column.events = passed ++ event :: rest)
    (hgo : ¬ (planner.processed ≥ planner.maxKeys ∧
      event.boundaryKey ≠ planner.activeBoundary)) :
  planner.consider event.encodedKey =
    .ok ({ deleteKey := obsolete target column.events event },
      { planner with
        activeBoundary := event.boundaryKey
        retainedBaseline :=
          obsolete target column.events event || decide (event.commitSeq ≤ target)
        lastKey := event.encodedKey
        processed := planner.processed + 1 })
  := by
  have hvalid := valid_of_split hsplit
  have hretained := Bool.eq_iff_iff.mpr (h.retained_iff hsplit)
  have hdelete : (decide (event.commitSeq ≤ target) && obsolete target column.events event) =
      obsolete target column.events event := by
    rw [Bool.and_eq_right_iff_imp, decide_eq_true_eq]
    intro hobsolete
    obtain ⟨other, -, -, -, hlt, hle⟩ := obsolete_iff.mp hobsolete
    apply le_trans (le_of_lt hlt) hle
  rw [consider, decodeFactKey_encodedKey hvalid]
  apply Eq.trans (if_neg hgo)
  simp only [pure_eq_ok, boundaryKey] at hretained ⊢
  rw [hretained, h.target_eq, hdelete]

/-- A planner which has considered a fact knows it. -/
theorem Tracks.step
    (h : planner.Tracks target passed (event :: rest))
    (hsplit : column.events = passed ++ event :: rest) :
  Tracks { planner with
      activeBoundary := event.boundaryKey
      retainedBaseline :=
        obsolete target column.events event || decide (event.commitSeq ≤ target)
      lastKey := event.encodedKey
      processed := planner.processed + 1 } target (passed ++ [event]) rest
  where
  target_eq := h.target_eq
  fresh next _ hactive last hlast := by
    rw [getLast?_append_cons] at hlast
    obtain rfl := Option.some.inj hlast
    apply Ne.symm hactive
  retained next _ hactive := by
    rw [Bool.or_eq_true, obsolete_iff_of_split hsplit, decide_eq_true_eq]
    simp only at hactive
    simp [hactive, or_comm]

/-- A batch is a beginning of the remaining facts which ends where a boundary ends.  Its obsolete
facts are deleted. -/
theorem Tracks.considerAll_eq
    (h : planner.Tracks target passed todo) (hsplit : column.events = passed ++ todo) :
  ∃ batch rest planner', todo = batch ++ rest ∧
    planner.considerAll todo =
      .ok ((batch.filter (obsolete target column.events)).map encodedKey, planner',
        rest.isEmpty) ∧
    planner'.lastKey = (batch.getLast?.map encodedKey).getD planner.lastKey ∧
    (∀ event ∈ rest.head?, ∀ last ∈ (passed ++ batch).getLast?,
      last.boundaryKey ≠ event.boundaryKey) ∧
    (planner.processed < planner.maxKeys → todo ≠ [] → batch ≠ [])
  := by
  induction todo generalizing planner passed with
  | nil =>
    simp [considerAll]
  | cons event todo ih =>
    by_cases hstop : planner.processed ≥ planner.maxKeys ∧
        event.boundaryKey ≠ planner.activeBoundary
    · have hconsider : planner.consider event.encodedKey =
          .ok ({ stopBeforeKey := true }, planner) := by
        rw [consider, decodeFactKey_encodedKey (valid_of_split hsplit)]
        apply if_pos hstop
      use [], event :: todo, planner
      simp only [considerAll, hconsider, nil_append, append_nil,
        ok_bind, if_true, pure_eq_ok, filter_nil, map_nil,
        isEmpty_cons, getLast?_nil, map_none, getD_none, true_and]
      constructor
      · intro next hnext
        obtain rfl := some.inj hnext
        apply h.fresh event rfl hstop.2
      · intro hlt
        cases not_lt_of_ge hstop.1 hlt
    · have hsplit' : column.events = (passed ++ [event]) ++ todo := by simp [hsplit]
      obtain ⟨batch, rest, planner', rfl, hall, hkey, hend, -⟩ := ih (h.step hsplit) hsplit'
      use event :: batch, rest, planner', rfl
      rw [append_assoc] at hend
      constructor
      · rw [considerAll, h.consider_eq hsplit hstop, ok_bind]
        rw [hall]
        cases hobsolete : obsolete target column.events event with
        | true | false => simp [hobsolete]
      · constructor
        · rw [hkey]
          cases batch with
          | nil => rfl
          | cons next batch =>
            rw [getLast?_cons_cons]
            cases hlast : (next :: batch).getLast? with
            | none => simp at hlast
            | some last => rfl
        · use hend
          simp

end Batch

end VacuumCleanupPlanner

/-! ### A whole vacuum -/

namespace VacuumStore

/-- A vacuum which has dealt with some of the facts of a column, up to the end of a boundary. -/
structure Progress (column : FactColumn) (target : CommitSeq) (passed todo : List FactEvent)
    (store : VacuumStore) (state : VacuumState) : Prop where
  split : column.events = passed ++ todo
  facts : store.facts.events =
    passed.filter (fun event => !obsolete target column.events event) ++ todo
  stored : store.vacuumState = some state
  oldestReadable : store.oldestReadable = target
  target_eq : state.target = target
  cursor : state.cursor = (passed.getLast?.map FactEvent.encodedKey).getD []
  fresh : ∀ event ∈ todo.head?, ∀ last ∈ passed.getLast?, last.boundaryKey ≠ event.boundaryKey

/-- A vacuum which has dealt with all facts of a column. -/
structure Finished (column : FactColumn) (target : CommitSeq) (store : VacuumStore) : Prop where
  facts : store.facts.events =
    column.events.filter fun event => !obsolete target column.events event
  stored : store.vacuumState = none

section Run

variable {column : FactColumn} {target : CommitSeq} {passed todo : List FactEvent}
  {store : VacuumStore} {state : VacuumState}

/-- A batch starts with the first fact which has not been dealt with. -/
theorem Progress.iteratorFrom_eq (h : Progress column target passed todo store state) :
  iteratorFrom store.facts state.cursor = todo
  := by
  rw [iteratorFrom, h.cursor]
  cases hlast : passed.getLast? with
  | none =>
    obtain rfl := getLast?_eq_none_iff.mp hlast
    simpa using h.facts
  | some last =>
    obtain ⟨init, rfl⟩ := getLast?_eq_some_iff.mp hlast
    have hsplit : column.events = init ++ last :: todo := by simp [h.split]
    have hkey : last.encodedKey ≠ [] := by
      intro hnil
      have hlength := length_encodedKey (valid_of_split hsplit)
      rw [hnil] at hlength
      cases hlength
    have hdrop (l : List FactEvent) : ((init.filter fun event =>
        !obsolete target column.events event) ++ l).dropWhile
          (fun event => event.encodedKey < last.encodedKey) =
            l.dropWhile fun event => event.encodedKey < last.encodedKey := by
      apply dropWhile_append_of_pos
      intro event hevent
      apply decide_eq_true
      apply encodedKey_lt_of_mem_pre hsplit (mem_filter.mp hevent).1
    have htodo : todo.dropWhile (fun event => event.encodedKey < last.encodedKey) = todo := by
      cases todo with
      | nil => rfl
      | cons next todo =>
        have hlt := encodedKey_lt_of_mem_rest hsplit mem_cons_self
        simp [not_lt_of_gt hlt]
    simp only [map_some, getD_some, ne_eq, hkey, seek]
    rw [h.facts, filter_append, append_assoc, hdrop]
    cases hobsolete : obsolete target column.events last with
    | false => simp [hobsolete]
    | true =>
      simp only [filter_cons, hobsolete, Bool.not_true, Bool.false_eq_true, if_false,
        filter_nil, nil_append, htodo]
      cases todo with
      | nil => rfl
      | cons next todo =>
        have hlt := encodedKey_lt_of_mem_rest hsplit mem_cons_self
        simp [hlt.ne']

/-- The keys of the events of a column differ. -/
theorem eq_of_encodedKey_eq {e f : FactEvent} (he : e ∈ column.events) (hf : f ∈ column.events)
    (hkey : e.encodedKey = f.encodedKey) :
  e = f
  := by
  apply inj_on_of_nodup_map _ he hf hkey
  apply pairwise_map.mpr (column.sorted.imp _)
  intro e f hlt
  apply hlt.ne

/-- Facts without the obsolete ones of a batch. -/
def withoutObsolete (column : FactColumn) (target : CommitSeq) (batch : List FactEvent)
    (facts : FactColumn) : FactColumn :=
  facts.filter fun event => !((batch.filter (obsolete target column.events)).map
    FactEvent.encodedKey).contains event.encodedKey

/-- The facts which remain after a batch. -/
theorem Progress.withoutObsolete_eq {batch rest : List FactEvent}
    (h : Progress column target passed (batch ++ rest) store state) :
  (withoutObsolete column target batch store.facts).events =
    (passed ++ batch).filter (fun event => !obsolete target column.events event) ++ rest
  := by
  have hmem {event : FactEvent} (hevent : event ∈ column.events) :
      ((batch.filter (obsolete target column.events)).map encodedKey).contains
        event.encodedKey = true ↔
      event ∈ batch ∧ obsolete target column.events event = true := by
    rw [List.contains_iff_mem, List.mem_map]
    constructor
    · rintro ⟨other, hother, hkey⟩
      obtain ⟨hbatch, hobsolete⟩ := mem_filter.mp hother
      have hcolumn : other ∈ column.events := by simp [h.split, hbatch]
      rw [← eq_of_encodedKey_eq hcolumn hevent hkey]
      use hbatch
    · rintro ⟨hbatch, hobsolete⟩
      use event, mem_filter.mpr ⟨hbatch, hobsolete⟩
  have hpassed : ∀ event ∈ passed.filter (fun event => !obsolete target column.events event),
      (!((batch.filter (obsolete target column.events)).map encodedKey).contains
        event.encodedKey) = true := by
    intro event hevent
    obtain ⟨hevent, hkeep⟩ := mem_filter.mp hevent
    have hcolumn : event ∈ column.events := by simp [h.split, hevent]
    rw [Bool.not_eq_true', Bool.eq_false_iff, ne_eq, hmem hcolumn]
    rintro ⟨-, hobsolete⟩
    simp [hobsolete] at hkeep
  have hrest : ∀ event ∈ rest,
      (!((batch.filter (obsolete target column.events)).map encodedKey).contains
        event.encodedKey) = true := by
    intro event hevent
    have hcolumn : event ∈ column.events := by simp [h.split, hevent]
    rw [Bool.not_eq_true', Bool.eq_false_iff, ne_eq, hmem hcolumn]
    rintro ⟨hbatch, -⟩
    have hsorted := column.sorted
    rw [h.split, ← append_assoc, pairwise_append] at hsorted
    apply lt_irrefl _ (hsorted.2.2 event (mem_append_right _ hbatch) event hevent)
  rw [withoutObsolete, events_filter, h.facts, filter_append, filter_append,
    filter_eq_self.mpr hpassed, filter_eq_self.mpr hrest, filter_append,
    ← append_assoc]
  congr 2
  apply filter_congr
  intro event hevent
  have hcolumn : event ∈ column.events := by simp [h.split, hevent]
  congr 1
  rw [Bool.eq_iff_iff, hmem hcolumn]
  simp [hevent]

/-- A planner starts a batch at the beginning of a boundary. -/
theorem Progress.tracks (h : Progress column target passed todo store state) (maxKeys : Nat) :
  VacuumCleanupPlanner.Tracks { target := state.target, maxKeys := maxKeys } target passed todo
  where
  target_eq := h.target_eq
  fresh event hevent _ := h.fresh event hevent
  retained event hevent hactive := by
    have hcolumn : event ∈ column.events := by
      rw [h.split]
      apply mem_append_right _ (mem_of_mem_head? hevent)
    cases boundaryKey_ne_nil (column.valid event hcolumn) hactive

variable {maxKeys : Nat}

/-- A batch makes progress, or is the last one. -/
theorem Progress.deleteObsoleteFactVersions_eq (hmax : maxKeys ≠ 0) (htarget : target ≠ 0)
    (h : Progress column target passed todo store state) :
  (∃ store', store.deleteObsoleteFactVersions maxKeys state = .ok (store', true) ∧
      Finished column target store') ∨
    ∃ store' state' passed' todo', todo'.length < todo.length ∧
      store.deleteObsoleteFactVersions maxKeys state = .ok (store', false) ∧
        Progress column target passed' todo' store' state'
  := by
  obtain ⟨batch, rest, planner, rfl, hall, hkey, hend, hpos⟩ :=
    (h.tracks maxKeys).considerAll_eq h.split
  rw [← h.iteratorFrom_eq] at hall
  cases hrest : rest with
  | nil =>
    left
    rw [hrest] at hall h
    have hfacts := h.withoutObsolete_eq
    rw [append_nil] at hfacts
    use { store with facts := withoutObsolete column target batch store.facts, vacuumState := none }
    constructor
    · rw [deleteObsoleteFactVersions, hall]
      rfl
    · constructor
      · rw [hfacts, h.split, append_nil]
      · rfl
  | cons next rest' =>
    right
    have hbatch : batch ≠ [] := by
      apply hpos (Nat.pos_of_ne_zero hmax)
      simp [hrest]
    obtain ⟨last, hlast⟩ := isSome_iff_exists.mp (getLast?_isSome.mpr hbatch)
    have hcolumn : last ∈ column.events := by
      rw [h.split]
      simp [mem_of_getLast? hlast]
    have hvalid : VacuumState.validate ⟨state.target, .running, planner.lastKey⟩ = .ok () := by
      rw [hkey, hlast, VacuumState.validate, h.target_eq]
      simp [htarget, length_encodedKey (column.valid last hcolumn)]
    use { store with
        facts := withoutObsolete column target batch store.facts
        vacuumState := some ⟨state.target, .running, planner.lastKey⟩ },
      ⟨state.target, .running, planner.lastKey⟩, passed ++ batch, rest
    refine ⟨?_, ?_, ?_⟩
    · rw [length_append, ← hrest]
      apply Nat.lt_add_of_pos_left (length_pos_iff.mpr hbatch)
    · rw [deleteObsoleteFactVersions, hall]
      simp only [ok_bind, hrest, hvalid]
      rfl
    · constructor
      · rw [h.split, append_assoc]
      · apply h.withoutObsolete_eq
      · rfl
      · apply h.oldestReadable
      · apply h.target_eq
      · simp [hkey, hlast]
      · apply hend

/-- The stores which a vacuum reaches. -/
def Reached (column : FactColumn) (target : CommitSeq) (store : VacuumStore) : Prop :=
  Finished column target store ∨
    ∃ passed todo state, Progress column target passed todo store state

/-- A process brings a vacuum forward, and to its end if it lives long enough. -/
theorem Progress.resumeVacuum_eq (hmax : maxKeys ≠ 0) (htarget : target ≠ 0) (batches : Nat)
    (h : Progress column target passed todo store state) :
  ∃ store', resumeVacuum maxKeys batches store state = .ok store' ∧
    Reached column target store' ∧
      (todo.length < batches → Finished column target store')
  := by
  induction batches generalizing store state passed todo with
  | zero =>
    use store, rfl
    constructor
    · right
      use passed, todo, state
    · intro hlt
      cases hlt
  | succ batches ih =>
    obtain ⟨store', hbatch, hfinished⟩ | ⟨store', state', passed', todo', hlt, hbatch, h'⟩ :=
      h.deleteObsoleteFactVersions_eq hmax htarget
    · use store'
      rw [resumeVacuum, hbatch]
      use rfl
      constructor
      · left
        exact hfinished
      · intro _
        exact hfinished
    · obtain ⟨store'', hresume, hreached, hend⟩ := ih h'
      use store''
      rw [resumeVacuum, hbatch, ok_bind]
      simp only [h'.stored]
      use hresume, hreached
      intro hlong
      apply hend
      omega

theorem Reached.openAndResume_eq (hmax : maxKeys ≠ 0) (htarget : target ≠ 0) (batches : Nat)
    (h : Reached column target store) :
  ∃ store', openAndResume maxKeys batches store = .ok store' ∧ Reached column target store' ∧
    (column.events.length < batches → Finished column target store')
  := by
  obtain hfinished | ⟨passed, todo, state, h⟩ := h
  · use store
    rw [openAndResume, hfinished.stored]
    use rfl
    constructor
    · left
      exact hfinished
    · intro _
      exact hfinished
  · obtain ⟨store', hresume, hreached, hend⟩ := h.resumeVacuum_eq hmax htarget batches
    use store'
    have htargets : state.target = store.oldestReadable := by
      rw [h.target_eq, h.oldestReadable]
    rw [openAndResume, h.stored]
    simp only [htargets, ne_eq]
    use hresume, hreached
    intro hlong
    apply hend
    rw [h.split, length_append] at hlong
    omega

theorem Reached.openAll_eq (hmax : maxKeys ≠ 0) (htarget : target ≠ 0) (crashes : List Nat)
    (h : Reached column target store) :
  ∃ store', openAll maxKeys store crashes = .ok store' ∧ Reached column target store'
  := by
  induction crashes generalizing store with
  | nil => use store, rfl
  | cons batches crashes ih =>
    obtain ⟨store', hresume, hreached, -⟩ := h.openAndResume_eq hmax htarget batches
    obtain ⟨store'', hall, hreached'⟩ := ih hreached
    use store''
    rw [openAll, foldlM_cons, hresume]
    use hall

/-- A vacuum starts with all facts. -/
theorem progress_start (store : VacuumStore) (target : CommitSeq) :
  Progress store.facts target [] store.facts.events
    { store with vacuumState := some ⟨target, .prepared, []⟩, oldestReadable := target }
    ⟨target, .prepared, []⟩
  := by
  constructor <;> simp

/-- A vacuum keeps the facts which are not obsolete. -/
theorem Reached.mem_facts {event : FactEvent} (h : Reached column target store)
    (hevent : event ∈ column.events) (hkeep : obsolete target column.events event = false) :
  event ∈ store.facts.events
  := by
  obtain hfinished | ⟨passed, todo, state, h⟩ := h
  · rw [hfinished.facts]
    simp [hevent, hkeep]
  · rw [h.split] at hevent
    rw [h.facts]
    obtain hevent | hevent := mem_append.mp hevent
    · apply mem_append_left
      simp [hevent, hkeep]
    · apply mem_append_right _ hevent

/-- A vacuum adds no facts. -/
theorem Reached.sublist (h : Reached column target store) :
  store.facts.events.Sublist column.events
  := by
  obtain hfinished | ⟨passed, todo, state, h⟩ := h
  · rw [hfinished.facts]
    apply filter_sublist
  · rw [h.facts, h.split]
    apply filter_sublist.append_right

end Run

end VacuumStore

/-! ### What a snapshot reads -/

/-- The boundaries depend on the newest event of every valid time only. -/
theorem correctedBoundaries_eq_of_newest (sorter : Sorter chainKey)
    {events' : List FactEvent} (hsubset : ∀ event ∈ events', event ∈ events)
    (hdistinct : (events.map chainKey).Nodup)
    (hnewest : ∀ e ∈ events, (∀ f ∈ events, f.validFrom = e.validFrom → f.commitSeq ≤ e.commitSeq) →
      e ∈ events') :
  correctedBoundaries sorter events' = correctedBoundaries sorter events
  := by
  have hunique {e f : FactEvent} (he : e ∈ events) (hf : f ∈ events)
      (htime : e.validFrom = f.validFrom) (hle : e.commitSeq ≤ f.commitSeq)
      (hge : f.commitSeq ≤ e.commitSeq) : e = f := by
    apply inj_on_of_nodup_map hdistinct he hf
    rw [chainKey, chainKey, htime, le_antisymm hle hge]
  apply eq_of_pairwise_of_mem_iff _ (increasing_correctedBoundaries sorter events')
    (increasing_correctedBoundaries sorter events)
  · intro boundary
    constructor
    · intro hboundary
      obtain ⟨e, he, rfl, hnew⟩ := exists_of_mem_correctedBoundaries sorter hboundary
      obtain ⟨_, hmem, htime⟩ := exists_mem_correctedBoundaries sorter (hsubset e he)
      obtain ⟨f, hf, rfl, hnew'⟩ := exists_of_mem_correctedBoundaries sorter hmem
      have hf' := hnewest f hf hnew'
      rw [← hunique hf (hsubset e he) htime (hnew f hf' htime)
        (hnew' e (hsubset e he) htime.symm)]
      exact hmem
    · intro hboundary
      obtain ⟨e, he, rfl, hnew⟩ := exists_of_mem_correctedBoundaries sorter hboundary
      have he' := hnewest e he hnew
      obtain ⟨_, hmem, htime⟩ := exists_mem_correctedBoundaries sorter he'
      obtain ⟨f, hf, rfl, hnew'⟩ := exists_of_mem_correctedBoundaries sorter hmem
      rw [← hunique (hsubset f hf) he htime (hnew f (hsubset f hf) htime)
        (hnew' e he' htime.symm)]
      exact hmem
  · intro a b hab hba
    apply lt_asymm hab hba

namespace VacuumStore

/-- The store after a vacuum, or a part of one, looks like the store before it to snapshots from
the target on. -/
structure Invisible (store : VacuumStore) (target : CommitSeq) (reached : VacuumStore) : Prop where
  /-- No facts are added. -/
  subset : ∀ event ∈ reached.facts.events, event ∈ store.facts.events
  /-- No facts from the target on are deleted. -/
  keeps : ∀ event ∈ store.facts.events, target ≤ event.commitSeq → event ∈ reached.facts.events
  /-- No state changes. -/
  resolve_eq : ∀ (sorter : Sorter FactEvent.chainKey) (ref : FactRef) (snapshotSeq : CommitSeq),
    target ≤ snapshotSeq →
      resolveCorrectedBoundaries sorter
          (reached.facts.events.filter fun event => event.ref = ref) snapshotSeq =
        resolveCorrectedBoundaries sorter
          (store.facts.events.filter fun event => event.ref = ref) snapshotSeq

/-- The stores which a vacuum reaches look like the one before it. -/
theorem Reached.invisible {store reached : VacuumStore} {target : CommitSeq}
    (h : Reached store.facts target reached) :
  Invisible store target reached
  where
  subset event hevent := h.sublist.subset hevent
  keeps event hevent hle := by
    apply h.mem_facts hevent
    by_contra hobsolete
    obtain ⟨other, -, -, -, hlt, hle'⟩ :=
      obsolete_iff.mp (Bool.eq_true_of_not_eq_false hobsolete)
    apply lt_irrefl _ (lt_of_lt_of_le hlt (le_trans hle' hle))
  resolve_eq sorter ref snapshotSeq hle := by
    have hresolve (facts : FactColumn) : resolveCorrectedBoundaries sorter
        (facts.events.filter fun event => event.ref = ref) snapshotSeq =
          .ok (correctedBoundaries (Sorter.insertion chainKey)
            (visible snapshotSeq (facts.events.filter fun event => event.ref = ref))) :=
      (facts.chain ref).resolve_eq_boundariesAt snapshotSeq sorter (Perm.refl _)
    rw [hresolve, hresolve]
    congr 1
    apply correctedBoundaries_eq_of_newest
    · intro event hevent
      obtain ⟨hevent, hseq⟩ := mem_visible.mp hevent
      obtain ⟨hevent, href⟩ := mem_filter.mp hevent
      apply mem_visible.mpr
      use mem_filter.mpr ⟨h.sublist.subset hevent, href⟩
    · apply (store.facts.chain ref).nodup_visible
    · intro event hevent hnewest
      obtain ⟨hevent, hseq⟩ := mem_visible.mp hevent
      obtain ⟨hevent, href⟩ := mem_filter.mp hevent
      have hkeep : obsolete target store.facts.events event = false := by
        -- a newer correction of the boundary would be visible too
        by_contra hobsolete
        obtain ⟨other, hother, hsame, htime, hlt, hle'⟩ :=
          obsolete_iff.mp (Bool.eq_true_of_not_eq_false hobsolete)
        rw [← hsame] at href
        have hchain : other ∈ store.facts.events.filter fun event => event.ref = ref :=
          mem_filter.mpr ⟨hother, href⟩
        have hvisible := mem_visible.mpr ⟨hchain, le_trans hle' hle⟩
        apply not_lt_of_ge (hnewest other hvisible htime) hlt
      apply mem_visible.mpr
      use mem_filter.mpr ⟨h.mem_facts hevent hkeep, href⟩

/-- A vacuum to a target which moves the boundary. -/
theorem vacuum_eq {store : VacuumStore} {target : CommitSeq} (hlt : store.oldestReadable < target)
    (hvisible : target ≤ store.visibleSeq) (maxKeys batches : Nat) :
  store.vacuum maxKeys batches target = resumeVacuum maxKeys batches
    { store with vacuumState := some ⟨target, .prepared, []⟩, oldestReadable := target }
    ⟨target, .prepared, []⟩
  := by
  have htarget := ne_of_gt (lt_of_le_of_lt UInt64.zero_le hlt)
  rw [vacuum, if_neg (by simp [le_of_lt hlt, hvisible]), if_neg (ne_of_gt hlt)]
  simp [VacuumState.validate, htarget]

/-- A vacuum is refused, does nothing if it does not move the boundary, or it and the processes which
continue it after crashes leave stores which look like the one before it, and a process which lives
long enough brings them to the facts which an uninterrupted vacuum leaves. -/
theorem vacuum_invisible
    {maxKeys : Nat} (hmax : maxKeys ≠ 0) (store : VacuumStore) (target : CommitSeq)
    (batches : Nat) (crashes : List Nat) :
  (target < store.oldestReadable ∨ store.visibleSeq < target →
      store.vacuum maxKeys batches target =
        Status.invalidArgument "vacuum" "target is outside readable range") ∧
    (target = store.oldestReadable → target ≤ store.visibleSeq →
      store.vacuum maxKeys batches target = .ok store) ∧
    (store.oldestReadable < target → target ≤ store.visibleSeq → ∃ reached,
      (do (← store.vacuum maxKeys batches target).openAll maxKeys crashes) = .ok reached ∧
        Invisible store target reached ∧
          ∀ more uninterrupted, store.facts.events.length < more →
            store.facts.events.length < uninterrupted → ∃ last whole,
              reached.openAndResume maxKeys more = .ok last ∧
                store.vacuum maxKeys uninterrupted target = .ok whole ∧
                  last.vacuumState = none ∧ whole.vacuumState = none ∧
                    last.facts.events = whole.facts.events)
  := by
  refine ⟨fun hout => if_pos hout, ?_, ?_⟩
  · rintro rfl hvisible
    simp [vacuum, hvisible]
  · intro hlt hvisible
    have htarget := ne_of_gt (lt_of_le_of_lt UInt64.zero_le hlt)
    have hstart := progress_start store target
    obtain ⟨first, hfirst, hreached, -⟩ := hstart.resumeVacuum_eq hmax htarget batches
    obtain ⟨reached, hall, hreached⟩ := hreached.openAll_eq hmax htarget crashes
    use reached
    constructor
    · rw [vacuum_eq hlt hvisible, hfirst, ok_bind, hall]
    · use hreached.invisible
      intro more uninterrupted hmore hlong
      obtain ⟨last, hlast, -, hfinished⟩ := hreached.openAndResume_eq hmax htarget more
      obtain ⟨whole, hwhole, -, hfinished'⟩ := hstart.resumeVacuum_eq hmax htarget uninterrupted
      use last, whole, hlast
      constructor
      · rw [vacuum_eq hlt hvisible, hwhole]
      · use (hfinished hmore).stored, (hfinished' hlong).stored
        rw [(hfinished hmore).facts, (hfinished' hlong).facts]

/-- A vertex whose deletion at 7 was corrected by a later commit. -/
def restoredVertex : VacuumStore where
  facts := correctedVertex
  visibleSeq := 6

theorem restoredVertex_vacuum_invisible :
  ∃ reached, (do (← restoredVertex.vacuum 1 1 6).openAll 1 [0, 1]) = .ok reached ∧
    Invisible restoredVertex 6 reached
  := by
  obtain ⟨reached, hrun, hinvisible, -⟩ :=
    (vacuum_invisible one_ne_zero restoredVertex 6 1 [0, 1]).2.2 (by decide) (by decide)
  use reached, hrun

end VacuumStore

end Cedar
