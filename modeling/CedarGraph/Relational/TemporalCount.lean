import CedarGraph.Relational.Groups
import CedarGraph.Relational.Publication
import CedarGraph.Lib.DeltaSweep

/-!
# Temporal counts

The temporal aggregate counts, for every group, the rows which are effective at an instant.  The
sweep over the starts and ends of the rows of a group is the timeline of the changes of the number
of effective rows, and so is the sweep which predicts the number of rows of the result.

The aggregate publishes the stretch after the last start or end only if the group has an unbounded
row.  It counts these with 32 bits, so that the stretch is lost for a group whose number of
unbounded rows does not fit.
-/

namespace Cedar

open Except Int64 List Option StatusOr Prod

namespace Relational

open RelationalCell DeltaSweep Timeline

variable {std : StdHash} {sorter : LessSort TemporalEvent} {groupBy : List Nat}
  {rows : List RelationalRow} {groups : List Group} {group : Group} {key : List RelationalCell}
  {t : ValidTime}

/-! ### The order of the events -/

/-- The comparison of events is that of their times and changes, in this order. -/
theorem eventLess_eq_false_iff (a b : TemporalEvent) :
  eventLess b a = false ↔ toLex (a.time, a.delta) ≤ toLex (b.time, b.delta)
  := by
  rw [Lex.toLex_le_toLex, eventLess]
  by_cases heq : b.time = a.time
  · simp [heq]
  · simp only [ne_eq, heq, not_false_eq_true, if_true, decide_eq_false_iff_not, not_lt]
    constructor
    · intro hle
      exact Or.inl (lt_of_le_of_ne hle (Ne.symm heq))
    · rintro (hlt | ⟨hsame, -⟩)
      · apply le_of_lt hlt
      · exact absurd hsame.symm heq

theorem pairwise_sort_timeLess (sorter : LessSort TemporalEvent) (l : List TemporalEvent) :
  (sorter.sort timeLess l).Pairwise fun a b => a.time ≤ b.time
  := by
  apply sorter.pairwise_sort
  simp [timeLess]

theorem pairwise_sort_eventLess (sorter : LessSort TemporalEvent) (l : List TemporalEvent) :
  (sorter.sort eventLess l).Pairwise fun a b => a.time ≤ b.time
  := by
  apply (sorter.pairwise_sort eventLess_eq_false_iff l).imp
  intro a b hle
  obtain hlt | ⟨heq, -⟩ := Lex.toLex_le_toLex.mp hle
  · apply le_of_lt hlt
  · apply le_of_eq heq

/-! ### The number of effective rows -/

/-- The row is effective at an instant. -/
def effectiveAt (t : ValidTime) (row : RelationalRow) : Bool :=
  row.effective.any fun interval => decide (interval.Contains t)

/-- The row has no end. -/
def isUnbounded (row : RelationalRow) : Bool :=
  row.effective.any fun interval => interval.stop = none

variable {row left right : RelationalRow} {events : List TemporalEvent} {b : ValidTime × ℤ}
  {count : ℤ} {maxOutputRows m : Nat} {state state' : List RelationalRow × FragmentBudget}
  {p : Piece ValidTime ℤ} {input out : BatchStream} {fragments : FragmentBudget}

theorem intervalsValid_cons (h : intervalsValid (row :: rows) = true) :
  (∃ interval, row.effective = some interval ∧ interval.Valid) ∧ intervalsValid rows = true
  := by
  simp only [intervalsValid, all_cons, Bool.and_eq_true, Option.any_eq_true,
    decide_eq_true_eq] at h
  exact h

theorem temporalEvents_cons {interval : ValidTimeInterval} (h : row.effective = some interval) :
  temporalEvents (row :: rows) =
    (⟨interval.start, 1⟩ :: (interval.stop.map fun stop => ⟨stop, -1⟩).toList) ++
      temporalEvents rows
  := by
  rw [temporalEvents, flatMap_cons, h]
  rfl

open TemporalEvent

/-- The sum of the changes until an instant is the number of rows which are effective then. -/
theorem level_temporalEvents (h : intervalsValid rows = true) (t : ValidTime) :
  level time delta (temporalEvents rows) t =
    (rows.countP (effectiveAt t) : ℤ)
  := by
  induction rows with
  | nil => rfl
  | cons row rows ih =>
    obtain ⟨⟨⟨start, stop⟩, heffective, hvalid⟩, hrest⟩ := intervalsValid_cons h
    rw [temporalEvents_cons heffective, level_append, ih hrest, countP_cons]
    have hrow : effectiveAt t row = decide (Span.Contains ⟨start, stop⟩ t) := by
      rw [effectiveAt, heffective, any_some]
    rw [hrow, add_comm]
    cases stop with
    | none => by_cases hle : start ≤ t <;> simp [level, Span.Contains, hle]
    | some stop =>
      have hlt : start < stop := hvalid stop rfl
      by_cases hle : start ≤ t
      · by_cases hstop : stop ≤ t
        · simp [level, Span.Contains, hle, hstop]
        · simp [level, Span.Contains, hle, hstop]
      · have hstop : ¬ stop ≤ t := fun hstop => hle (le_trans (le_of_lt hlt) hstop)
        simp [level, Span.Contains, hle, hstop]

/-- The sum of all changes is the number of rows without an end. -/
theorem sum_delta_temporalEvents (h : intervalsValid rows = true) :
  ((temporalEvents rows).map delta).sum = (rows.countP isUnbounded : ℤ)
  := by
  induction rows with
  | nil => rfl
  | cons row rows ih =>
    obtain ⟨⟨⟨start, stop⟩, heffective, -⟩, hrest⟩ := intervalsValid_cons h
    rw [temporalEvents_cons heffective, map_append, sum_append, ih hrest,
      countP_cons, isUnbounded, heffective]
    cases stop <;> simp [add_comm]

/-! ### The timeline of a group -/

/-- The number of a stretch of time, if it is positive. -/
def positive (b : ValidTime × ℤ) : Option ℤ :=
  if 0 < b.2 then some b.2 else none

/-- The times at which rows start or end, each with the number of effective rows from there on. -/
def countChanges (sorter : LessSort TemporalEvent) (rows : List RelationalRow) :
    List (ValidTime × ℤ) :=
  boundaries TemporalEvent.time TemporalEvent.delta
    (sorter.sort timeLess (temporalEvents rows)) 0

/-- The row of a stretch of time. -/
def pieceRow (key : List RelationalCell) (piece : Piece ValidTime ℤ) : RelationalRow :=
  countRow key piece.value piece.interval

/-- The maximal stretches of time with a positive number of effective rows of a group. -/
def groupTimeline (sorter : LessSort TemporalEvent) (group : Group) : List RelationalRow :=
  (timeline Prod.fst positive (countChanges sorter group.rows)).map (pieceRow group.key)

theorem increasing_countChanges :
  Increasing fst (countChanges sorter rows)
  := increasing_boundaries (pairwise_sort_timeLess sorter _)

/-- Any order of the events by time has the same changes. -/
theorem boundaries_eq_countChanges (hperm : events.Perm (temporalEvents rows))
    (hsorted : events.Pairwise fun a b => a.time ≤ b.time) :
  boundaries time delta events 0 = countChanges sorter rows
  := by
  apply boundaries_eq_of_perm _ hsorted (pairwise_sort_timeLess sorter _)
  apply hperm.trans (sorter.perm timeLess _).symm

/-- The number after a change is that of the effective rows. -/
theorem eq_countP_of_governs (h : intervalsValid rows = true)
    (hb : Governs fst (countChanges sorter rows) t b) :
  b.2 = (rows.countP (effectiveAt t) : ℤ)
  := by
  rw [eq_level_of_governs (pairwise_sort_timeLess sorter _) hb, zero_add,
    level_eq_of_perm (sorter.perm timeLess _), level_temporalEvents h]

theorem eq_countP_of_mem_countChanges (h : intervalsValid rows = true)
    (hb : b ∈ countChanges sorter rows) :
  b.2 = (rows.countP (effectiveAt b.1) : ℤ)
  := eq_countP_of_governs h ⟨hb, le_refl _, fun _ _ hd => hd⟩

/-- Some change governs every instant at which a row is effective. -/
theorem exists_governs_countChanges (h : 0 < rows.countP (effectiveAt t)) :
  ∃ b, Governs fst (countChanges sorter rows) t b
  := by
  obtain ⟨row, hrow, heffective⟩ := countP_pos_iff.mp h
  obtain ⟨interval, hinterval, hcontains⟩ := any_eq_true _ _ |>.mp heffective
  have hevent : (⟨interval.start, 1⟩ : TemporalEvent) ∈ temporalEvents rows := by
    apply mem_flatMap.mpr
    use row, hrow
    rw [hinterval]
    apply mem_cons_self
  apply exists_governs (pairwise_sort_timeLess sorter _)
    ((sorter.perm timeLess _).mem_iff.mpr hevent)
  apply (of_decide_eq_true hcontains).1

variable {unbounded : Int32} {previous : ValidTime} {last : Option ℤ} {budget : FragmentBudget}
  {output : List RelationalRow} {P : RelationalRow → Prop} {pieces : List (Piece ValidTime ℤ)}

/-- The sweep of the aggregate has the rows of the stretches between the changes, if it publishes
the stretch after the last one. -/
theorem sweepRows_eq (hsorted : events.Pairwise fun a b => a.time ≤ b.time)
    (hlater : ∀ event ∈ events, previous < event.time)
    (hend : 0 < unbounded ∨ count + (events.map delta).sum ≤ 0) :
  sweepRows key unbounded events count previous =
    (sweep fst positive ((previous, count) ::
      boundaries time delta events count)).map (pieceRow key)
  := by
  fun_induction boundaries time delta events count
    generalizing previous with
  | case1 count =>
    by_cases hcount : 0 < count
    · have hpos : 0 < unbounded := by
        apply hend.resolve_right
        simpa using hcount
      simp [sweepRows, sweep, positive, hcount, hpos, pieceRow]
    · simp [sweepRows, sweep, positive, hcount]
  | case2 event events count count' =>
    rename_i ih
    have hrest := (pairwise_cons.mp hsorted).2.sublist
      (dropWhile_sublist fun other => decide (other.time = event.time))
    have hsum : count' + ((events.dropWhile fun other => other.time = event.time).map
        delta).sum = count + ((event :: events).map delta).sum := by
      rw [map_cons, sum_cons,
        ← takeWhile_append_dropWhile (p := fun other => decide (other.time = event.time))
          (l := events), map_append, sum_append]
      simp only [takeWhile_append_dropWhile]
      ring
    replace ih := @ih event.time hrest
      (fun other hother => lt_of_mem_dropWhile hsorted hother) (hsum ▸ hend)
    rw [sweepRows, sweep, ih]
    have hlt := hlater event mem_cons_self
    by_cases hcount : 0 < count <;> simp [positive, hcount, hlt, pieceRow]

theorem any_beq_eq_false (h : last ≠ some count) :
  last.any (· == count) = false
  := by
  cases last with
  | none => rfl
  | some n => simpa using h

/-- The count of stretches counts those between the changes. -/
theorem countSweep_eq (previous : ValidTime) (hcount : 0 ≤ count)
    (h : ∀ b ∈ boundaries time delta events count, 0 ≤ b.2) :
  countSweep events count last = countPieces positive last ((previous, count) ::
    boundaries time delta events count)
  := by
  fun_induction boundaries time delta events count
    generalizing previous last with
  | case1 count =>
    rw [countSweep]
    by_cases hpos : 0 < count
    · by_cases hlast : last = some count
      · simp [countPieces, positive, hpos, hlast]
      · simp [countPieces, positive, hpos, hlast, any_beq_eq_false hlast]
    · simp [countPieces, positive, hpos]
  | case2 event events count count' =>
    rename_i ih
    obtain ⟨hcount', hrest⟩ := forall_mem_cons.mp h
    replace ih := fun last => @ih last event.time hcount' hrest
    rw [countSweep, countPieces]
    by_cases hpos : 0 < count
    · by_cases hlast : last = some count
      · simp only [positive, hpos, hlast, ne_eq, if_true, if_false, hpos.ne', any_some,
          beq_self_eq_true, zero_add]
        apply ih
      · simp only [positive, hpos, ne_eq, hlast, not_false_eq_true, and_self, if_true,
          any_beq_eq_false hlast, Bool.false_eq_true, if_false]
        rw [ih]
    · obtain rfl : count = 0 := le_antisymm (not_lt.mp hpos) hcount
      apply ih

/-- The number of unbounded rows of a group, as it is counted. -/
def unboundedRows (rows : List RelationalRow) : Int32 :=
  .ofNat (rows.countP isUnbounded)

/-- The unbounded rows of a group are noticed, if there are any. -/
def NoticesUnbounded (rows : List RelationalRow) : Prop :=
  rows.countP isUnbounded = 0 ∨ 0 < unboundedRows rows

instance (rows : List RelationalRow) : Decidable (NoticesUnbounded rows) :=
  inferInstanceAs (Decidable (_ ∨ _))

/-- The rows which are published for a group are the stretches between the changes. -/
theorem groupRows_eq (hvalid : intervalsValid group.rows = true)
    (hnotices : NoticesUnbounded group.rows) :
  groupRows sorter group =
    (sweep fst positive (countChanges sorter group.rows)).map (pieceRow group.key)
  := by
  have hperm := sorter.perm eventLess (temporalEvents group.rows)
  have hsorted := pairwise_sort_eventLess sorter (temporalEvents group.rows)
  rw [← boundaries_eq_countChanges hperm hsorted, groupRows]
  cases hevents : sorter.sort eventLess (temporalEvents group.rows) with
  | nil => simp [boundaries, sweep]
  | cons event events =>
    rw [hevents] at hperm hsorted
    have hrest := (pairwise_cons.mp hsorted).2.sublist
      (dropWhile_sublist fun other => decide (other.time = event.time))
    have hsum := sum_delta_temporalEvents hvalid
    rw [← (hperm.map delta).sum_eq, map_cons, sum_cons,
      ← takeWhile_append_dropWhile (p := fun other => decide (other.time = event.time))
        (l := events), map_append, sum_append] at hsum
    dsimp only
    rw [sweepRows, if_neg fun h => lt_irrefl _ h.1, boundaries]
    apply sweepRows_eq hrest fun other hother => lt_of_mem_dropWhile hsorted hother
    apply hnotices.symm.imp id
    omega

/-- The predicted number of rows of a group is that of its maximal stretches. -/
theorem countTemporalGroupFragments_eq_ok_iff {n : Nat} :
  countTemporalGroupFragments sorter group = .ok n ↔
    intervalsValid group.rows = true ∧ n = (groupTimeline sorter group).length
  := by
  rw [countTemporalGroupFragments, check_eq_ok_iff, Bool.not_eq_true',
    Bool.not_eq_false]
  apply and_congr_right
  intro hvalid
  have hlength : (groupTimeline sorter group).length =
      countPieces positive none (countChanges sorter group.rows) := by
    rw [groupTimeline, length_map, timeline,
      (length_coalesce_sweep increasing_countChanges).1]
  have hnonneg : ∀ b ∈ countChanges sorter group.rows, 0 ≤ b.2 := by
    intro b hb
    rw [eq_countP_of_mem_countChanges hvalid hb]
    apply Int.natCast_nonneg
  have hcount : countSweep (sorter.sort timeLess (temporalEvents group.rows)) 0 none =
      (groupTimeline sorter group).length := by
    rw [hlength, countSweep_eq 0 (le_refl 0) hnonneg]
    rfl
  rw [← hcount]
  split
  case isTrue hnil =>
    have hsort : sorter.sort timeLess [] = [] := perm_nil.mp (sorter.perm timeLess [])
    rw [hnil, hsort, countSweep, if_neg fun h => lt_irrefl _ h.1, ok.injEq, eq_comm]
  case isFalse => rw [ok.injEq, eq_comm]

/-! ### Publication -/

/-- A count which a cell can have. -/
def FitsCell (piece : Piece ValidTime ℤ) : Prop :=
  0 < piece.value ∧ piece.value < 2 ^ 63

/-- Rows of one group touch exactly if their stretches can be merged. -/
theorem touches_pieceRow (hkey : listEq key key = true) {q : Piece ValidTime ℤ} (hp : FitsCell p)
    (hq : FitsCell q) :
  touches (pieceRow key p) (pieceRow key q) = true ↔ Mergeable p q
  := by
  obtain ⟨hp, hp'⟩ := hp
  obtain ⟨hq, hq'⟩ := hq
  have hinj : ofInt p.value = ofInt q.value ↔ p.value = q.value := by
    constructor
    · intro h
      have hint := congrArg toInt h
      rwa [toInt_ofInt_of_le (by omega) (by omega),
        toInt_ofInt_of_le (by omega) (by omega)] at hint
    · intro h
      rw [h]
  simp only [touches, pieceRow, countRow, listEq_append_singleton, hkey, eq,
    RelationalScalar.eq, Mergeable, Span.Meets, Bool.and_eq_true, decide_eq_true_eq,
    RelationalScalar.int64.injEq, hinj, beq_iff_eq, true_and]

/-- The rows of a group are coalesced as its stretches are. -/
theorem coalesceRowsFrom_map (hkey : listEq key key = true)
    (hfits : ∀ q ∈ p :: pieces, FitsCell q) :
  coalesceRowsFrom (pieceRow key p) (pieces.map (pieceRow key)) =
    (coalesceFrom p pieces).map (pieceRow key)
  := by
  induction pieces generalizing p with
  | nil => rfl
  | cons q pieces ih =>
    obtain ⟨hp, hq, hpieces⟩ := forall_mem_cons.mp hfits |>.imp id forall_mem_cons.mp
    rw [map_cons, coalesceRowsFrom, coalesceFrom]
    simp only [touches_pieceRow hkey hp hq]
    split
    · have hmerged : FitsCell ⟨⟨p.interval.start, q.interval.stop⟩, p.value⟩ := hp
      apply ih (forall_mem_cons.mpr ⟨hmerged, hpieces⟩)
    · rw [ih (forall_mem_cons.mpr ⟨hq, hpieces⟩), map_cons]

theorem coalesceRows_map (hkey : listEq key key = true ∨ pieces.length ≤ 1)
    (hfits : ∀ q ∈ pieces, FitsCell q) :
  coalesceRows (pieces.map (pieceRow key)) = (Timeline.coalesce pieces).map (pieceRow key)
  := by
  cases pieces with
  | nil => rfl
  | cons p pieces =>
    obtain hkey | hlength := hkey
    · apply coalesceRowsFrom_map hkey hfits
    · obtain rfl : pieces = [] := by
        simpa using hlength
      rfl

/-- Rows which touch have equal keys. -/
theorem listEq_dropLast_of_touches (h : touches left right = true) :
  listEq left.cells.dropLast right.cells.dropLast = true
  := by
  simp only [touches, Bool.and_eq_true] at h
  apply listEq_dropLast h.1

/-- The counts of the stretches of a group are at least one and at most its number of rows. -/
theorem fits_of_mem_positive (hvalid : intervalsValid rows = true) (hsize : rows.length < 2 ^ 63)
    (hb : b ∈ countChanges sorter rows) {n : ℤ} (hn : n ∈ positive b) :
  0 < n ∧ n < 2 ^ 63
  := by
  have hcount := eq_countP_of_mem_countChanges hvalid hb
  have hle := countP_le_length (p := effectiveAt b.1) (l := rows)
  unfold positive at hn
  split at hn
  case isTrue hpos =>
    rw [← some.inj hn]
    omega
  case isFalse => cases hn

theorem fits_of_mem_sweep (hvalid : intervalsValid rows = true) (hsize : rows.length < 2 ^ 63)
    (hp : p ∈ sweep fst positive (countChanges sorter rows)) :
  FitsCell p
  := by
  obtain ⟨before, b, after, hchanges, hb, -⟩ := mem_sweep_iff.mp hp
  have hmem : b ∈ countChanges sorter rows := by simp [hchanges]
  apply fits_of_mem_positive hvalid hsize hmem hb

theorem fits_of_mem_timeline (hvalid : intervalsValid rows = true) (hsize : rows.length < 2 ^ 63)
    (hp : p ∈ timeline fst positive (countChanges sorter rows)) :
  FitsCell p
  := by
  have hstart := ((laid_timeline increasing_countChanges).valid p hp).contains_start
  obtain ⟨b, hb, n, hn, hagree⟩ := (exists_mem_timeline_iff increasing_countChanges).mp
    ⟨p, hp, hstart, Agree.refl _⟩
  have heq : n = p.value := hagree.elim id beq_iff_eq.mp
  rw [FitsCell, ← heq]
  apply fits_of_mem_positive hvalid hsize hb.mem hn

/-- A group with a single row has a single stretch. -/
theorem sweep_countChanges_singleton (hvalid : intervalsValid [row] = true) :
  (sweep fst positive (countChanges sorter [row])).length ≤ 1
  := by
  obtain ⟨⟨⟨start, stop⟩, heffective, hlt⟩, -⟩ := intervalsValid_cons hvalid
  have hevents : temporalEvents [row] = (⟨start, 1⟩ :: (stop.map fun stop => ⟨stop, -1⟩).toList) ++
      temporalEvents [] := temporalEvents_cons heffective
  cases stop with
  | none =>
    rw [← boundaries_eq_countChanges (Perm.refl _) (by rw [hevents]; simp [temporalEvents]),
      hevents]
    simp [temporalEvents, boundaries, sweep, positive]
  | some stop =>
    have hlt : start < stop := hlt stop rfl
    rw [← boundaries_eq_countChanges (Perm.refl _)
      (by rw [hevents]; simp [temporalEvents, le_of_lt hlt]), hevents]
    simp [temporalEvents, boundaries, sweep, positive, hlt.ne']

theorem Group.Uniform.single_stretch (h : group.Uniform groupBy)
    (hvalid : intervalsValid group.rows = true) :
  listEq group.key group.key = true ∨
    (sweep fst positive (countChanges sorter group.rows)).length ≤ 1
  := by
  obtain ⟨hself, -⟩ | ⟨-, row, hrow⟩ := h
  · left
    apply hself
  · right
    rw [hrow] at hvalid ⊢
    apply sweep_countChanges_singleton hvalid

theorem dropLast_cells_of_mem_groupTimeline (h : row ∈ groupTimeline sorter group) :
  row.cells.dropLast = group.key
  := by
  obtain ⟨piece, -, rfl⟩ := mem_map.mp h
  apply dropLast_concat

/-- Without a positive number of unbounded rows, the sweep has no row without an end. -/
theorem mem_sweepRows (h : row ∈ sweepRows key unbounded events count previous) :
  row.cells.dropLast = key ∧ (isUnbounded row = true → 0 < unbounded) ∧ row.cachedHash = none
  := by
  fun_induction sweepRows key unbounded events count previous with
  | case1 count previous hpos =>
    rw [mem_singleton.mp h]
    exact ⟨dropLast_concat, fun _ => hpos.2, rfl⟩
  | case2 => cases h
  | case3 event events count previous rest count' ih =>
    obtain h | h := mem_append.mp h
    · split at h
      · rw [mem_singleton.mp h]
        refine ⟨dropLast_concat, fun hnone => ?_, rfl⟩
        simp [isUnbounded, countRow] at hnone
      · cases h
    · apply ih h

theorem mem_groupRows (h : row ∈ groupRows sorter group) :
  row.cells.dropLast = group.key ∧ (isUnbounded row = true → 0 < unboundedRows group.rows) ∧
    row.cachedHash = none
  := by
  unfold groupRows at h
  split at h
  · cases h
  · apply mem_sweepRows h

/-- The rows of all groups are coalesced to their maximal stretches. -/
theorem coalesceRows_groupRows
    (hpairwise : groups.Pairwise fun left right => listEq left.key right.key = false)
    (huniform : ∀ group ∈ groups, group.Uniform groupBy)
    (hsize : ∀ group ∈ groups, group.rows.length < 2 ^ 63)
    (hvalid : ∀ group ∈ groups, intervalsValid group.rows = true)
    (hnotices : ∀ group ∈ groups, NoticesUnbounded group.rows) :
  coalesceRows (groups.flatMap (groupRows sorter)) = groups.flatMap (groupTimeline sorter)
  := by
  induction groups with
  | nil => rfl
  | cons group groups ih =>
    obtain ⟨hhead, hpairwise⟩ := pairwise_cons.mp hpairwise
    obtain ⟨hgroup, huniform⟩ := forall_mem_cons.mp huniform
    obtain ⟨hlength, hsize⟩ := forall_mem_cons.mp hsize
    obtain ⟨hintervals, hvalid⟩ := forall_mem_cons.mp hvalid
    obtain ⟨hnotice, hnotices⟩ := forall_mem_cons.mp hnotices
    rw [flatMap_cons, coalesceRows_append, ih hpairwise huniform hsize hvalid hnotices,
      groupRows_eq hintervals hnotice, coalesceRows_map (hgroup.single_stretch hintervals)
        fun q hq => fits_of_mem_sweep hintervals hlength hq]
    · rfl
    · intro x hx y hy
      obtain ⟨other, hother, hy⟩ := mem_flatMap.mp hy
      apply Bool.eq_false_of_not_eq_true
      intro heq
      have hkeys := listEq_dropLast heq
      rw [(mem_groupRows hx).1, (mem_groupRows hy).1, hhead other hother] at hkeys
      cases hkeys

theorem publishAll_of_publishGroups
    (h : publishGroups sorter maxOutputRows groups state = .ok state') :
  publishAll maxOutputRows (groups.flatMap (groupRows sorter)) state = .ok state'
  := by
  induction groups generalizing state with
  | nil => apply h
  | cons group groups ih =>
    obtain ⟨next, hpublish, hrest⟩ := bind_eq_ok_iff.mp (check_eq_ok_iff.mp h).2
    rw [flatMap_cons, publishAll_append, hpublish]
    apply ih hrest

/-! ### The rows of the result -/

/-- The predicted numbers of rows are those of the maximal stretches. -/
theorem mapM_countTemporalGroupFragments_eq_ok_iff {counts : List Nat} :
  groups.mapM (countTemporalGroupFragments sorter) = .ok counts ↔
    (∀ group ∈ groups, intervalsValid group.rows = true) ∧
      counts = groups.map fun group => (groupTimeline sorter group).length
  := by
  rw [mapM_eq_ok_iff]
  simp only [countTemporalGroupFragments_eq_ok_iff]
  induction groups generalizing counts with
  | nil => simp
  | cons group groups ih =>
    cases counts with
    | nil => simp
    | cons n counts =>
      rw [forall₂_cons, ih, forall_mem_cons, map_cons, cons.injEq]
      tauto

/-- A successful aggregate has valid intervals, and either nothing to publish or the published
groups. -/
theorem temporalAggregate_eq_ok {budget : Budget}
    (h : temporalAggregate std sorter input groupBy fragments budget = .ok out) :
  ∃ groups, buildGroups std input groupBy = .ok groups ∧
    (∀ group ∈ groups, intervalsValid group.rows = true) ∧
    rowBound std sorter input groupBy =
      .ok (groups.map fun group => (groupTimeline sorter group).length).sum ∧
    (((groups.map fun group => (groupTimeline sorter group).length).sum = 0 ∧ out.rows = []) ∨
      out.rows = coalesceRows (groups.flatMap (groupRows sorter)))
  := by
  obtain ⟨-, -, h⟩ := bind_eq_ok_iff.mp h
  obtain ⟨outputRows, hbound, h⟩ := bind_eq_ok_iff.mp h
  obtain ⟨-, h⟩ := budget_eq_ok_iff.mp h
  obtain ⟨-, h⟩ := budget_eq_ok_iff.mp h
  obtain ⟨groups, hgroups, hrest⟩ := bind_eq_ok_iff.mp hbound
  obtain ⟨counts, hcounts, hsum⟩ := bind_eq_ok_iff.mp hrest
  obtain ⟨hvalid, rfl⟩ := mapM_countTemporalGroupFragments_eq_ok_iff.mp hcounts
  obtain rfl := ok.inj hsum
  use groups, hgroups, hvalid, hbound
  split at h
  case isTrue hzero =>
    rw [← ok.inj h]
    exact Or.inl ⟨hzero, rfl⟩
  case isFalse =>
    obtain ⟨-, h⟩ := budget_eq_ok_iff.mp h
    obtain ⟨groups', hgroups', h⟩ := bind_eq_ok_iff.mp h
    obtain rfl := ok.inj (hgroups.symm.trans hgroups')
    obtain ⟨-, h⟩ := budget_eq_ok_iff.mp h
    obtain ⟨⟨rows, left⟩, hpublish, h⟩ := bind_eq_ok_iff.mp h
    rw [← ok.inj h]
    exact Or.inr (publishAll_eq_ok_iff.mp ⟨left, publishAll_of_publishGroups hpublish⟩).2.2

/-- The rows of a group which are effective at an instant: a single one with their number, if there
are any. -/
theorem filter_groupTimeline (hvalid : intervalsValid group.rows = true) (t : ValidTime) :
  ((groupTimeline sorter group).filter (effectiveAt t)).map (fun row => row.cells.getLast?) =
    if 0 < group.rows.countP (effectiveAt t) then
      [some ⟨.int64, true, .int64 (.ofNat (group.rows.countP (effectiveAt t)))⟩]
    else []
  := by
  have hlaid : Laid (timeline fst positive (countChanges sorter group.rows)) :=
    laid_timeline increasing_countChanges
  have hfilter : (groupTimeline sorter group).filter (effectiveAt t) =
      ((timeline fst positive (countChanges sorter group.rows)).filter fun piece =>
        decide (piece.interval.Contains t)).map (pieceRow group.key) := by
    rw [groupTimeline, List.filter_map]
    rfl
  rw [hfilter]
  split
  case isTrue hpos =>
    obtain ⟨b, hb⟩ : ∃ b, Governs fst (countChanges sorter group.rows) t b :=
      exists_governs_countChanges hpos
    have hcount := eq_countP_of_governs hvalid hb
    have hstate : positive b = some (group.rows.countP (effectiveAt t) : ℤ) := by
      rw [positive, hcount, if_pos (by exact_mod_cast hpos)]
    obtain ⟨piece, hpiece, hcontains, hvalue⟩ :=
      (exists_mem_timeline_iff increasing_countChanges).mpr ⟨b, hb, _, hstate, Agree.refl _⟩
    have hvalue : piece.value = (group.rows.countP (effectiveAt t) : ℤ) :=
      hvalue.elim id beq_iff_eq.mp
    rw [hlaid.filter_contains_eq hpiece hcontains]
    simp [pieceRow, countRow, hvalue, ofInt_eq_ofNat]
  case isFalse hzero =>
    rw [List.map_map, List.map_eq_nil_iff, List.filter_eq_nil_iff]
    intro piece hpiece hcontains
    obtain ⟨b, hb, y, hy, -⟩ := (exists_mem_timeline_iff increasing_countChanges).mp
      ⟨piece, hpiece, of_decide_eq_true hcontains, Agree.refl _⟩
    have hcount := eq_countP_of_governs hvalid hb
    rw [positive, if_neg (by omega)] at hy
    cases hy

/-- Rows of the maximal stretches do not touch. -/
theorem not_touches_of_mem_groupTimeline (hvalid : intervalsValid group.rows = true)
    (hsize : group.rows.length < 2 ^ 63) (hleft : left ∈ groupTimeline sorter group)
    (hright : right ∈ groupTimeline sorter group) :
  touches left right = false
  := by
  apply Bool.eq_false_of_not_eq_true
  intro htouches
  have hkey : listEq group.key group.key = true := by
    have heq := listEq_dropLast_of_touches htouches
    rwa [dropLast_cells_of_mem_groupTimeline hleft,
      dropLast_cells_of_mem_groupTimeline hright] at heq
  have hlaid : Laid (timeline fst positive (countChanges sorter group.rows)) :=
    laid_timeline increasing_countChanges
  obtain ⟨p, hp, rfl⟩ := mem_map.mp hleft
  obtain ⟨q, hq, rfl⟩ := mem_map.mp hright
  apply hlaid.not_mergeable (coalesce_maximal _) hp hq
  apply (touches_pieceRow hkey (fits_of_mem_timeline hvalid hsize hp)
    (fits_of_mem_timeline hvalid hsize hq)).mp htouches

/-- The rows of a group are those with its key, or there is a single one. -/
theorem Grouped.rows_cases (h : Grouped groupBy rows groups) (hgroup : group ∈ groups) :
  (listEq group.key group.key = true ∧
      group.rows = rows.filter fun row => listEq group.key (groupCells groupBy row)) ∨
    (listEq group.key group.key = false ∧ ∃ row, group.rows = [row])
  := by
  obtain ⟨hself, -⟩ | hsingle := h.uniform group hgroup
  · left
    use hself
    rw [← h.collects group.key, h.rows_eq hgroup hself, flatMap_singleton]
  · right
    apply hsingle

theorem Grouped.length_rows_lt (h : Grouped groupBy rows groups) (hsize : rows.length < 2 ^ 63)
    (hgroup : group ∈ groups) :
  group.rows.length < 2 ^ 63
  := by
  obtain ⟨-, hrows⟩ | ⟨-, row, hrow⟩ := h.rows_cases hgroup
  · rw [hrows]
    apply lt_of_le_of_lt (length_filter_le _ _) hsize
  · rw [hrow]
    norm_num

/-- The unbounded rows of every key are noticed. -/
def NoticesEveryKey (groupBy : List Nat) (rows : List RelationalRow) : Prop :=
  ∀ row ∈ rows, NoticesUnbounded
    (rows.filter fun other => listEq (groupCells groupBy row) (groupCells groupBy other))

theorem Grouped.noticesUnbounded (h : Grouped groupBy rows groups)
    (hnotices : NoticesEveryKey groupBy rows) (hgroup : group ∈ groups) :
  NoticesUnbounded group.rows
  := by
  obtain ⟨-, hrows⟩ | ⟨-, row, hrow⟩ := h.rows_cases hgroup
  · cases hcases : group.rows with
    | nil => exact Or.inl rfl
    | cons row rest =>
      have hmem : row ∈ group.rows := hcases ▸ mem_cons_self
      rw [hrows, mem_filter] at hmem
      have hrow := hnotices row hmem.1
      simp only [← listEq_congr_left hmem.2] at hrow
      rw [← hcases, hrows]
      apply hrow
  · rw [hrow, NoticesUnbounded, unboundedRows, countP_singleton]
    cases isUnbounded row <;> decide

/-! ### The counts of every instant -/

/-- The aggregate counts, for every key, the rows which are effective at every instant: there is a
single row with their number, if there are any.  No rows of one key and one count touch, and the
number of rows is the predicted one. -/
structure CountsEveryInstant (std : StdHash) (sorter : LessSort TemporalEvent)
    (input : BatchStream) (groupBy : List Nat) (out : BatchStream) : Prop where
  counts : ∀ (key : List RelationalCell) (t : ValidTime),
    (out.rows.filter fun row => listEq key row.cells.dropLast && effectiveAt t row).map
        (fun row => row.cells.getLast?) =
      let n := input.rows.countP fun row =>
        listEq key (groupCells groupBy row) && effectiveAt t row
      if 0 < n then [some ⟨.int64, true, .int64 (.ofNat n)⟩] else []
  maximal : ∀ left ∈ out.rows, ∀ right ∈ out.rows, touches left right = false
  predicted : rowBound std sorter input groupBy = .ok out.rows.length

/-- The rows of a key are those of the group which has the key. -/
theorem filter_flatMap_groupTimeline (groups : List Group) (key : List RelationalCell) :
  ((groups.flatMap (groupTimeline sorter)).filter fun row => listEq key row.cells.dropLast) =
    (groups.filter fun group => listEq key group.key).flatMap (groupTimeline sorter)
  := by
  induction groups with
  | nil => rfl
  | cons group groups ih =>
    have hgroup : ∀ row ∈ groupTimeline sorter group,
        listEq key row.cells.dropLast = listEq key group.key := by
      intro row hrow
      rw [dropLast_cells_of_mem_groupTimeline hrow]
    rw [flatMap_cons, filter_append, ih, filter_congr hgroup, filter_cons]
    split
    case isTrue hkey => simp [hkey]
    case isFalse hkey => simp [hkey]

/-- The maximal stretches of all groups count every instant. -/
theorem countsEveryInstant_of_rows_eq (hgrouped : Grouped groupBy input.rows groups)
    (hvalid : ∀ group ∈ groups, intervalsValid group.rows = true)
    (hsize : input.rows.length < 2 ^ 63) (hbound : rowBound std sorter input groupBy =
      .ok (groups.map fun group => (groupTimeline sorter group).length).sum)
    (hrows : out.rows = groups.flatMap (groupTimeline sorter)) :
  CountsEveryInstant std sorter input groupBy out
  := by
  constructor
  · intro key t
    have hkey : (out.rows.filter fun row => listEq key row.cells.dropLast) =
        (groups.filter fun group => listEq key group.key).flatMap (groupTimeline sorter) := by
      rw [hrows, filter_flatMap_groupTimeline]
    have hcount : (input.rows.countP fun row =>
        listEq key (groupCells groupBy row) && effectiveAt t row) =
        ((groups.filter fun group => listEq key group.key).flatMap Group.rows).countP
          (effectiveAt t) := by
      rw [hgrouped.collects, countP_filter]
      simp only [Bool.and_comm]
    rw [hcount]
    simp only [Bool.and_comm (listEq key _)]
    rw [← List.filter_filter, hkey]
    by_cases hfound : ∃ group ∈ groups, listEq key group.key = true
    · obtain ⟨group, hgroup, heq⟩ := hfound
      rw [hgrouped.rows_eq hgroup heq, flatMap_singleton, flatMap_singleton,
        filter_groupTimeline (hvalid group hgroup)]
    · have hnil : (groups.filter fun group => listEq key group.key) = [] := by
        apply filter_eq_nil_iff.mpr
        intro group hgroup heq
        exact hfound ⟨group, hgroup, heq⟩
      rw [hnil]
      rfl
  · intro left hleft right hright
    rw [hrows] at hleft hright
    obtain ⟨group, hgroup, hleft⟩ := mem_flatMap.mp hleft
    obtain ⟨group', hgroup', hright⟩ := mem_flatMap.mp hright
    apply Bool.eq_false_of_not_eq_true
    intro htouches
    have hkeys := listEq_dropLast_of_touches htouches
    rw [dropLast_cells_of_mem_groupTimeline hleft,
      dropLast_cells_of_mem_groupTimeline hright] at hkeys
    obtain rfl := hgrouped.eq_of_listEq hgroup hgroup' hkeys
    rw [not_touches_of_mem_groupTimeline (hvalid group hgroup)
      (hgrouped.length_rows_lt hsize hgroup) hleft hright] at htouches
    cases htouches
  · rw [hbound, hrows, length_flatMap]

theorem isUnbounded_extend (h : touches left right = true) :
  isUnbounded (extend left right) = isUnbounded right
  := by
  obtain ⟨cells, effective, hash⟩ := left
  obtain ⟨cells', effective', hash'⟩ := right
  cases effective with
  | none => simp [touches] at h
  | some => cases effective' with
    | none => simp [touches] at h
    | some => rfl

/-- A row is effective at the last instant exactly if it has no end. -/
theorem effectiveAt_last (row : RelationalRow) :
  effectiveAt (-1) row = isUnbounded row
  := by
  rw [effectiveAt]
  congr
  funext ⟨start, stop⟩
  apply decide_eq_decide.mpr
  cases stop with
  | none => exact iff_of_true ⟨Word.le_neg_one start, fun _ h => nomatch h⟩ rfl
  | some stop =>
    apply iff_of_false
    · intro hcontains
      apply not_lt_of_ge (Word.le_neg_one stop) (hcontains.2 stop rfl)
    · exact some_ne_none stop

/-- A key whose unbounded rows are not noticed is not counted at the last instant. -/
theorem noticesEveryKey_of_counts {budget : Budget}
    (h : temporalAggregate std sorter input groupBy fragments budget = .ok out)
    (hcounts : CountsEveryInstant std sorter input groupBy out) :
  NoticesEveryKey groupBy input.rows
  := by
  intro row hrow
  obtain ⟨groups, hgroups, hvalid, hbound, hpublish⟩ := temporalAggregate_eq_ok h
  have hgrouped := grouped_of_buildGroups hgroups
  by_contra hnot
  obtain ⟨hsome, hnotice⟩ := not_or.mp hnot
  -- the group of the key
  obtain ⟨found, hfound, -⟩ := countP_pos_iff.mp (Nat.pos_of_ne_zero hsome)
  rw [← hgrouped.collects] at hfound
  obtain ⟨group, hgroup, -⟩ := mem_flatMap.mp hfound
  obtain ⟨hgroup, hkey⟩ := mem_filter.mp hgroup
  have hrows : group.rows = input.rows.filter fun other =>
      listEq (groupCells groupBy row) (groupCells groupBy other) := by
    rw [← hgrouped.collects, hgrouped.rows_eq hgroup hkey, flatMap_singleton]
  have hbounded : ∀ r ∈ out.rows, listEq (groupCells groupBy row) r.cells.dropLast = true →
      isUnbounded r = false := by
    obtain ⟨-, hnil⟩ | hcoalesced := hpublish
    · simp [hnil]
    · rw [hcoalesced]
      apply forall_mem_coalesceRows
      · intro last r _ hr htouches hkeyr
        rw [isUnbounded_extend htouches]
        apply hr
        rw [cells_extend] at hkeyr
        apply listEq_trans hkeyr (listEq_dropLast_of_touches htouches)
      · intro r hr hkeyr
        obtain ⟨other, hother, hr⟩ := mem_flatMap.mp hr
        obtain ⟨hcells, hunbounded, -⟩ := mem_groupRows hr
        rw [hcells, listEq_congr_left hkey] at hkeyr
        obtain rfl := hgrouped.eq_of_listEq hgroup hother hkeyr
        apply Bool.eq_false_of_not_eq_true
        intro hr
        apply hnotice
        rw [← hrows]
        apply hunbounded hr
  have hcount := hcounts.counts (groupCells groupBy row) (-1)
  simp only [effectiveAt_last] at hcount
  rw [filter_eq_nil_iff.mpr, if_pos] at hcount
  · cases hcount
  · rw [countP_filter] at hsome
    simp only [Bool.and_comm (isUnbounded _)] at hsome
    apply Nat.pos_of_ne_zero hsome
  · intro r hr hboth
    obtain ⟨hkeyr, hunbounded⟩ := Bool.and_eq_true_iff.mp hboth
    rw [hbounded r hr hkeyr] at hunbounded
    cases hunbounded

/-- The temporal aggregate counts every instant exactly if it notices the unbounded rows of every
key, that is, if their number is positive as a signed number of 32 bits.  A stream has less than
`2 ^ 63` rows. -/
theorem temporalAggregate_counts_iff {input out : BatchStream} {fragments : FragmentBudget}
    {budget : Budget} (hsize : input.rows.length < 2 ^ 63)
    (h : temporalAggregate std sorter input groupBy fragments budget = .ok out) :
  CountsEveryInstant std sorter input groupBy out ↔ NoticesEveryKey groupBy input.rows
  := by
  constructor
  · apply noticesEveryKey_of_counts h
  · intro hnotices
    obtain ⟨groups, hgroups, hvalid, hbound, hpublish⟩ := temporalAggregate_eq_ok h
    have hgrouped := grouped_of_buildGroups hgroups
    apply countsEveryInstant_of_rows_eq hgrouped hvalid hsize hbound
    obtain ⟨hzero, hnil⟩ | hcoalesced := hpublish
    · rw [hnil, eq_comm, ← length_eq_zero_iff, length_flatMap]
      apply hzero
    · rw [hcoalesced]
      apply coalesceRows_groupRows hgrouped.pairwise hgrouped.uniform
        (fun group hgroup => hgrouped.length_rows_lt hsize hgroup) hvalid
        (fun group hgroup => hgrouped.noticesUnbounded hnotices hgroup)

/-! ### Many unbounded rows -/

/-- A row without cells which is effective at every instant. -/
def eternalRow : RelationalRow := { cells := [], effective := some ⟨0, none⟩ }

/-- Copies of one unbounded row. -/
def eternalRows (n : Nat) : BatchStream :=
  { rows := List.replicate n eternalRow }

/-- Hash functions which are constant. -/
def constantHash : StdHash where
  bool _ := 0
  int32 _ := 0
  int64 _ := 0
  uint32 _ := 0
  uint64 _ := 0
  string _ := 0

theorem foldl_addToGroups_eternalRow (m k : Nat) :
  (replicate m eternalRow).foldl (fun groups row => addToGroups std [] row groups)
      [⟨[], replicate k eternalRow⟩] = [⟨[], replicate (k + m) eternalRow⟩]
  := by
  induction m generalizing k with
  | zero => rfl
  | succ m ih =>
    have hadd : addToGroups std [] eternalRow [⟨[], replicate k eternalRow⟩] =
        [⟨[], replicate (k + 1) eternalRow⟩] := by
      simp [addToGroups, groupCells, listEq, replicate_succ']
    rw [replicate_succ, foldl_cons, hadd, ih]
    congr 3
    omega

theorem validateGroupBy_nil (input : BatchStream) :
  validateGroupBy input [] = .ok ()
  := by
  simp [validateGroupBy]

theorem buildGroups_eternalRows (m : Nat) :
  buildGroups std (eternalRows (m + 1)) [] = .ok [⟨[], replicate (m + 1) eternalRow⟩]
  := by
  have hfold : (eternalRows (m + 1)).rows.foldl (fun groups row => addToGroups std [] row groups) []
      = [⟨[], replicate (m + 1) eternalRow⟩] := by
    have hone : [eternalRow] = replicate 1 eternalRow := rfl
    rw [eternalRows, replicate_succ, foldl_cons, addToGroups, groupCells, map_nil,
      hone, foldl_addToGroups_eternalRow, add_comm, replicate_succ]
  rw [buildGroups, validateGroupBy_nil, hfold]
  rfl

theorem temporalEvents_eternalRows (n : Nat) :
  temporalEvents (replicate n eternalRow) = replicate n ⟨0, 1⟩
  := by
  induction n with
  | zero => rfl
  | succ n ih =>
    rw [replicate_succ, temporalEvents_cons rfl, ih]
    rfl

theorem sort_replicate (less : TemporalEvent → TemporalEvent → Bool) (n : Nat)
    (event : TemporalEvent) :
  sorter.sort less (replicate n event) = replicate n event
  := perm_replicate.mp (sorter.perm less _)

theorem intervalsValid_eternalRows (n : Nat) :
  intervalsValid (replicate n eternalRow) = true
  := by
  apply all_eq_true.mpr
  intro row hrow
  rw [eq_of_mem_replicate hrow]
  rfl

theorem dropWhile_eternalEvents (m : Nat) :
  ((replicate m (⟨0, 1⟩ : TemporalEvent)).dropWhile fun other => other.time = 0) = []
  := by
  simp

theorem sum_takeWhile_eternalEvents (m : Nat) :
  (((replicate m (⟨0, 1⟩ : TemporalEvent)).takeWhile fun other => other.time = 0).map
    delta).sum = m
  := by
  simp

theorem rowBound_eternalRows (m : Nat) :
  rowBound std sorter (eternalRows (m + 1)) [] = .ok 1
  := by
  have hsweep : countSweep (replicate (m + 1) ⟨0, 1⟩) 0 none = 1 := by
    have hpos : (0 : ℤ) < 0 + 1 + m := by omega
    rw [replicate_succ, countSweep, if_neg fun h => lt_irrefl _ h.1, if_pos rfl,
      dropWhile_eternalEvents, sum_takeWhile_eternalEvents, countSweep, if_pos ⟨hpos, by simp⟩]
  have hcount : countTemporalGroupFragments sorter ⟨[], replicate (m + 1) eternalRow⟩ =
      .ok 1 := by
    rw [countTemporalGroupFragments, intervalsValid_eternalRows, temporalEvents_eternalRows,
      sort_replicate, hsweep]
    rfl
  rw [rowBound, buildGroups_eternalRows, ok_bind, mapM_cons, hcount]
  rfl

theorem groupRows_eternalRows (h : ¬ 0 < Int32.ofNat (m + 1)) :
  groupRows sorter ⟨[], replicate (m + 1) eternalRow⟩ = []
  := by
  have hcount : (replicate (m + 1) eternalRow).countP (fun row =>
      row.effective.any fun interval => interval.stop = none) = m + 1 := by
    rw [countP_replicate]
    rfl
  rw [groupRows, hcount, temporalEvents_eternalRows, sort_replicate, replicate_succ]
  dsimp only
  rw [sweepRows, if_neg fun h => lt_irrefl _ h.1, dropWhile_eternalEvents, sweepRows,
    if_neg fun hand => h hand.2]
  rfl

/-- Rows whose number is not positive as a signed number of 32 bits are lost. -/
theorem temporalAggregate_eternalRows (h : ¬ 0 < Int32.ofNat (m + 1)) :
  temporalAggregate std sorter (eternalRows (m + 1)) [] ⟨1, 0⟩ ⟨true, true, 1⟩ =
    .ok { rows := [], orderSpecified := true }
  := by
  rw [temporalAggregate, validateGroupBy_nil, rowBound_eternalRows, buildGroups_eternalRows]
  have hpublish : publishGroups sorter 1 [⟨[], replicate (m + 1) eternalRow⟩] ([], ⟨1, 0⟩) =
      .ok ([], ⟨1, 0⟩) := by
    rw [publishGroups, intervalsValid_eternalRows, groupRows_eternalRows h]
    rfl
  simp only [ok_bind, hpublish]
  rfl

/-- A group of `2 ^ 31` unbounded rows has no row in the result, although all of them are effective
at every instant. -/
theorem eternalRows_lost :
  ∃ out, temporalAggregate constantHash (LessSort.insertion _) (eternalRows (2 ^ 31)) []
      ⟨1, 0⟩ ⟨true, true, 1⟩ = .ok out ∧
    ¬ CountsEveryInstant constantHash (LessSort.insertion _) (eternalRows (2 ^ 31)) [] out
  := by
  have hsucc : 2 ^ 31 = (2 ^ 31 - 1) + 1 := by decide
  have hnot : ¬ 0 < Int32.ofNat ((2 ^ 31 - 1) + 1) := by decide
  generalize 2 ^ 31 - 1 = m at hsucc hnot
  rw [hsucc]
  have hok : temporalAggregate constantHash (LessSort.insertion _) (eternalRows (m + 1)) []
      ⟨1, 0⟩ ⟨true, true, 1⟩ = .ok { rows := [], orderSpecified := true } :=
    temporalAggregate_eternalRows hnot
  refine ⟨_, hok, fun hcounts => ?_⟩
  -- one row is predicted
  have hpredicted := hcounts.predicted
  rw [rowBound_eternalRows] at hpredicted
  cases hpredicted

/-- Three unbounded rows are counted. -/
theorem eternalRows_counted :
  ∃ out, temporalAggregate constantHash (LessSort.insertion _) (eternalRows 3) []
      ⟨1, 0⟩ ⟨true, true, 1⟩ = .ok out ∧
    CountsEveryInstant constantHash (LessSort.insertion _) (eternalRows 3) [] out
  := by
  have hok : temporalAggregate constantHash (LessSort.insertion _) (eternalRows 3) [] ⟨1, 0⟩
      ⟨true, true, 1⟩ = .ok { rows := [countRow [] 3 ⟨0, none⟩], orderSpecified := true } := by
    decide +kernel
  have hnotices : NoticesEveryKey [] (eternalRows 3).rows := by
    intro row hrow
    rw [eq_of_mem_replicate hrow]
    decide +kernel
  exact ⟨_, hok, (temporalAggregate_counts_iff (by decide) hok).mpr hnotices⟩

end Relational

end Cedar
