import CedarGraph.Relational.CoverageCount
import CedarGraph.Relational.TemporalCount

/-!
# Snapshots of the temporal join

At every instant, the rows of the interval merge join which are effective then are the join of the
rows of its inputs which are effective then.  Merging rows which touch keeps the cells of the first
row, so cells are compared up to the sign of floating-point zeros, which `==` does not see.
-/

namespace Cedar

open List Multiset Option Span StatusOr

/-! ### Cells up to the sign of zeros -/

/-- The datum, with the positive one of two zeros. -/
def RelationalScalar.canonical : RelationalScalar → RelationalScalar
  | .float bits => .float (if Value.isZero32 bits then 0 else bits)
  | .double bits => .double (if Value.isZero64 bits then 0 else bits)
  | value => value

theorem RelationalScalar.canonical_eq_of_eq {a b : RelationalScalar} (h : a.eq b = true) :
  a.canonical = b.canonical
  := by
  obtain ⟨x, y, rfl, rfl, hxy⟩ | ⟨x, y, rfl, rfl, hxy⟩ | rfl := RelationalScalar.eq_cases h
  · obtain ⟨-, -, rfl | ⟨hx, hy⟩⟩ := Value.floatEq_iff.mp hxy
    · rfl
    · simp [canonical, hx, hy]
  · obtain ⟨-, -, rfl | ⟨hx, hy⟩⟩ := Value.floatEq_iff.mp hxy
    · rfl
    · simp [canonical, hx, hy]
  · rfl

namespace RelationalCell

def canonical (cell : RelationalCell) : RelationalCell :=
  { cell with value := cell.value.canonical }

theorem canonical_eq_of_eq {a b : RelationalCell} (h : a.eq b = true) :
  a.canonical = b.canonical
  := by
  obtain ⟨type, present, value⟩ := a
  simp only [eq, Bool.and_eq_true, decide_eq_true_eq] at h
  obtain ⟨⟨rfl, rfl⟩, hvalue⟩ := h
  rw [canonical, canonical, RelationalScalar.canonical_eq_of_eq hvalue]

theorem map_canonical_eq_of_listEq {l m : List RelationalCell} (h : listEq l m = true) :
  l.map canonical = m.map canonical
  := by
  induction l generalizing m with
  | nil => cases m with
    | nil => rfl
    | cons => cases h
  | cons a l ih => cases m with
    | nil => cases h
    | cons b m =>
      simp only [listEq, Bool.and_eq_true] at h
      rw [List.map_cons, List.map_cons, canonical_eq_of_eq h.1, ih h.2]

end RelationalCell

namespace Relational

open RelationalCell

variable {std : StdHash} {rowSort : LessSort RelationalRow}
  {intervalSort : LessSort ValidTimeInterval} {input : TemporalJoinInput}
  {left right row : RelationalRow} {rows rights : List RelationalRow} {t : ValidTime}

/-! ### Snapshots -/

/-- The cells of a row, up to the sign of zeros. -/
def canonicalCells (row : RelationalRow) : List RelationalCell :=
  row.cells.map canonical

/-- The cells of the rows which are effective at an instant. -/
def snapshot (t : ValidTime) (rows : List RelationalRow) : Multiset (List RelationalCell) :=
  ((rows.filter (effectiveAt t)).map canonicalCells : List (List RelationalCell))

@[simp]
theorem snapshot_nil :
  snapshot t [] = 0
  := rfl

theorem snapshot_append {more : List RelationalRow} :
  snapshot t (rows ++ more) = snapshot t rows + snapshot t more
  := by
  simp [snapshot]

theorem snapshot_cons (row : RelationalRow) (rows : List RelationalRow) :
  snapshot t (row :: rows) = snapshot t [row] + snapshot t rows
  := @snapshot_append [row] t rows

theorem snapshot_singleton :
  snapshot t [row] = if effectiveAt t row = true then {canonicalCells row} else 0
  := by
  cases hrow : effectiveAt t row <;> simp [snapshot, hrow]

variable {more : List RelationalRow} {overlap : ValidTimeInterval} {fuel : Nat} {counts : List Nat}

theorem snapshot_flatMap (f : RelationalRow → List RelationalRow) :
  snapshot t (rows.flatMap f) = (rows.map fun row => snapshot t (f row)).sum
  := by
  induction rows with
  | nil => rfl
  | cons row rows ih => rw [List.flatMap_cons, snapshot_append, ih, List.map_cons, List.sum_cons]

/-- The row has an interval which is not empty. -/
def HasInterval (row : RelationalRow) : Prop :=
  ∃ interval, row.effective = some interval ∧ interval.Valid

/-- A row which is merged into another one keeps the cells at every instant. -/
theorem snapshot_extend (hleft : HasInterval left) (hright : HasInterval right)
    (htouches : touches left right = true) :
  snapshot t [extend left right] = snapshot t [left] + snapshot t [right]
  := by
  obtain ⟨interval, heffective, hvalid⟩ := hleft
  obtain ⟨interval', heffective', hvalid'⟩ := hright
  simp only [touches, heffective, heffective', Bool.and_eq_true, decide_eq_true_eq] at htouches
  obtain ⟨hcells, hmeets⟩ := htouches
  have hsame : canonicalCells left = canonicalCells right := map_canonical_eq_of_listEq hcells
  have hat := contains_merge_iff hvalid hvalid' hmeets (t := t)
  have hdisjoint : ¬ (interval.Contains t ∧ interval'.Contains t) := by
    rintro ⟨hl, hr⟩
    apply not_le_of_gt (hl.2 _ hmeets) hr.1
  simp only [snapshot_singleton, extend, effectiveAt, heffective, heffective', any_some,
    decide_eq_true_eq, hat]
  by_cases hl : interval.Contains t <;> by_cases hr : interval'.Contains t <;>
    simp_all [canonicalCells]

theorem HasInterval.extend (hleft : HasInterval left) (hright : HasInterval right)
    (htouches : touches left right = true) :
  HasInterval (extend left right)
  := by
  obtain ⟨interval, heffective, hvalid⟩ := hleft
  obtain ⟨interval', heffective', hvalid'⟩ := hright
  simp only [touches, heffective, heffective', Bool.and_eq_true, decide_eq_true_eq] at htouches
  refine ⟨⟨interval.start, interval'.stop⟩, by rw [Relational.extend, heffective, heffective'], ?_⟩
  intro e he
  apply lt_trans (hvalid _ htouches.2) (hvalid' e he)

/-! ### Coalescing -/

theorem snapshot_coalesceRowsFrom (hrow : HasInterval row)
    (hrows : ∀ row ∈ rows, HasInterval row) :
  snapshot t (coalesceRowsFrom row rows) = snapshot t (row :: rows)
  := by
  induction rows generalizing row with
  | nil => rfl
  | cons next rows ih =>
    obtain ⟨hnext, hrows⟩ := forall_mem_cons.mp hrows
    rw [coalesceRowsFrom]
    split
    case isTrue htouches =>
      rw [ih (hrow.extend hnext htouches) hrows, snapshot_cons _ rows,
        snapshot_extend hrow hnext htouches, snapshot_cons row (next :: rows),
        snapshot_cons next rows, add_assoc]
    case isFalse => rw [snapshot_cons row, ih hnext hrows, ← snapshot_cons row]

/-- Coalescing keeps the cells at every instant. -/
theorem coalesceRows_spec (hrows : ∀ row ∈ rows, HasInterval row) :
  snapshot t (coalesceRows rows) = snapshot t rows ∧ ∀ r ∈ coalesceRows rows, HasInterval r
  := by
  constructor
  · cases rows with
    | nil => rfl
    | cons row rows =>
      obtain ⟨hrow, hrows⟩ := forall_mem_cons.mp hrows
      apply snapshot_coalesceRowsFrom hrow hrows
  · apply forall_mem_coalesceRows _ hrows
    intro last row hlast hrow htouches
    apply hlast.extend hrow htouches

/-- Sorting and coalescing keep the cells at every instant. -/
theorem sortAndCoalesceTemporalRows_spec (key : Nat) (hrows : ∀ row ∈ rows, HasInterval row) :
  snapshot t (sortAndCoalesceTemporalRows rowSort key rows) = snapshot t rows ∧
    ∀ r ∈ sortAndCoalesceTemporalRows rowSort key rows, HasInterval r
  := by
  have hperm := rowSort.perm (temporalRowLess key) rows
  have hsame : snapshot t (rowSort.sort (temporalRowLess key) rows) = snapshot t rows :=
    coe_eq_coe.mpr ((hperm.filter _).map _)
  rw [← hsame, sortAndCoalesceTemporalRows]
  apply coalesceRows_spec
  intro row hrow
  apply hrows row (hperm.mem_iff.mp hrow)

/-! ### The rows for a left row -/

/-- Rows with equal keys are in one bucket. -/
theorem candidates_eq :
  candidates std input rights left = rights.filter (rowsMatch input left)
  := by
  rw [candidates, bucketRows, List.filter_filter]
  apply List.filter_congr
  intro right _
  apply Bool.eq_iff_iff.mpr
  rw [Bool.and_eq_true]
  constructor
  · rintro ⟨hmatch, -⟩
    apply hmatch
  · intro hmatch
    use hmatch
    have heq := (keysEqual_iff.mp hmatch).2
    rw [decide_eq_true_eq, hashCell_eq_of_eq std heq]

/-- Two rows are effective at the instants of their common interval. -/
theorem contains_commonInterval_iff :
  (∃ interval ∈ commonInterval left right, interval.Contains t) ↔
    effectiveAt t left = true ∧ effectiveAt t right = true
  := by
  simp only [effectiveAt, Option.any_eq_true, decide_eq_true_eq]
  unfold commonInterval
  split
  case h_1 l r hleft hright =>
    rw [hleft, hright]
    cases hcommon : intersect l r with
    | none =>
      have hnone := not_contains_of_intersect hcommon (t := t)
      simp only [Option.not_mem_none, false_and, exists_false, false_iff]
      rintro ⟨⟨_, ⟨⟩, hl⟩, ⟨_, ⟨⟩, hr⟩⟩
      apply hnone ⟨hl, hr⟩
    | some common =>
      have hiff := contains_of_intersect hcommon (t := t)
      simp [hiff]
  case h_2 hnone =>
    simp only [Option.not_mem_none, false_and, exists_false, false_iff]
    rintro ⟨⟨l, hl, -⟩, ⟨r, hr, -⟩⟩
    apply hnone l r hl hr

variable {interval : ValidTimeInterval} {P : ValidTimeInterval → Prop} {probe : Probe}
  {lefts : List RelationalRow}

theorem valid_of_mem_commonInterval (h : interval ∈ commonInterval left right) :
  interval.Valid
  := by
  unfold commonInterval at h
  split at h
  · apply valid_of_intersect h
  · cases h

/-- A right row with the key of a left row is effective at the instants of the overlaps. -/
theorem exists_mem_overlaps_iff :
  (∃ overlap ∈ overlaps std input rights left, overlap.Contains t) ↔
    effectiveAt t left = true ∧
      (rights.filter (effectiveAt t)).filter (rowsMatch input left) ≠ []
  := by
  rw [overlaps, candidates_eq]
  simp only [List.mem_filterMap, List.mem_filter, ne_eq, List.filter_eq_nil_iff, not_forall,
    not_not]
  constructor
  · rintro ⟨overlap, ⟨right, ⟨hright, hmatch⟩, hcommon⟩, ht⟩
    obtain ⟨hl, hr⟩ := contains_commonInterval_iff.mp ⟨overlap, hcommon, ht⟩
    exact ⟨hl, right, ⟨hright, hr⟩, hmatch⟩
  · rintro ⟨hl, right, ⟨hright, hr⟩, hmatch⟩
    obtain ⟨overlap, hcommon, ht⟩ := contains_commonInterval_iff.mpr ⟨hl, hr⟩
    exact ⟨overlap, ⟨right, ⟨hright, hmatch⟩, hcommon⟩, ht⟩

theorem valid_of_mem_overlaps (h : overlap ∈ overlaps std input rights left) :
  overlap.Valid
  := by
  obtain ⟨right, -, hcommon⟩ := mem_filterMap.mp h
  apply valid_of_mem_commonInterval hcommon

/-- An overlap ends with the left row, at the latest. -/
theorem stop_le_of_mem_overlaps (h : overlap ∈ overlaps std input rights left)
    (hleft : left.effective = some interval) :
  ∀ e ∈ interval.stop, ∃ e' ∈ overlap.stop, e' ≤ e
  := by
  intro e he
  obtain ⟨right, -, hcommon⟩ := mem_filterMap.mp h
  have hinside : ∀ t, overlap.Contains t → t < e := by
    intro t ht
    obtain ⟨hat, -⟩ := contains_commonInterval_iff.mp ⟨overlap, hcommon, ht⟩
    rw [effectiveAt, hleft, any_some, decide_eq_true_eq] at hat
    apply hat.2 e he
  have hvalid := valid_of_mem_commonInterval hcommon
  -- otherwise the end of the left row, or the start of the overlap after it, is in the overlap
  by_contra hnot
  have hlater : ∀ e' ∈ overlap.stop, e < e' := by
    intro e' he'
    apply lt_of_not_ge
    intro hle
    apply hnot ⟨e', he', hle⟩
  obtain hle | hlt := le_or_gt overlap.start e
  · apply lt_irrefl _ (hinside e ⟨hle, hlater⟩)
  · apply lt_asymm hlt (hinside overlap.start hvalid.contains_start)

theorem strictWeakOn_intervalLess (l : List ValidTimeInterval) :
  StrictWeakOn intervalLess l
  := by
  constructor
  · rintro ⟨start, stop⟩ _ ⟨start', stop'⟩ _ h
    cases stop <;> cases stop' <;> grind [intervalLess]
  · rintro ⟨start, stop⟩ _ ⟨start', stop'⟩ _ ⟨start'', stop''⟩ _ h h'
    cases stop <;> cases stop' <;> cases stop'' <;> grind [intervalLess]

/-- The intervals are normalized in the order of their starts. -/
theorem pairwise_sort_intervalLess (sorter : LessSort ValidTimeInterval)
    (l : List ValidTimeInterval) :
  (sorter.sort intervalLess l).Pairwise fun a b => a.start ≤ b.start
  := by
  apply (sorter.sorted intervalLess l (strictWeakOn_intervalLess l)).imp
  intro a b hba
  by_contra hlt
  rw [intervalLess, if_pos (ne_of_lt (lt_of_not_ge hlt)), decide_eq_false_iff_not] at hba
  apply hba (lt_of_not_ge hlt)

/-- Normalized intervals are the union of the intervals. -/
theorem isUnion_normalizeIntervals (sorter : LessSort ValidTimeInterval)
    (l : List ValidTimeInterval) :
  IsUnion (normalizeIntervals sorter l) l
  := (isUnion_normalize (pairwise_sort_intervalLess sorter l)).congr
    fun _ => (sorter.perm intervalLess l).mem_iff

theorem stop_le_of_mem_normalizeIntervals (hleft : left.effective = some interval) :
  ∀ s ∈ normalizeIntervals intervalSort (overlaps std input rights left),
    ∀ e ∈ interval.stop, ∃ e' ∈ s.stop, e' ≤ e
  := by
  intro s hs
  obtain ⟨overlap, hoverlap, hstop⟩ := (isUnion_normalizeIntervals _ _).stop s hs
  rw [hstop]
  apply stop_le_of_mem_overlaps hoverlap hleft

theorem start_le_of_mem_normalizeIntervals (hleft : left.effective = some interval) :
  ∀ s ∈ normalizeIntervals intervalSort (overlaps std input rights left),
    interval.start ≤ s.start
  := by
  intro s hs
  obtain ⟨overlap, hoverlap, hstart⟩ := (isUnion_normalizeIntervals _ _).start s hs
  have hcontains := (valid_of_mem_overlaps hoverlap).contains_start
  obtain ⟨hat, -⟩ := exists_mem_overlaps_iff.mp ⟨overlap, hoverlap, hcontains⟩
  rw [effectiveAt, hleft, any_some, decide_eq_true_eq] at hat
  rw [hstart]
  apply hat.1

/-- The clips of a row have its cells, as often as an instant is in one of the intervals. -/
theorem snapshot_map_clipTo (intervals : List ValidTimeInterval) :
  snapshot t (intervals.map (clipTo left)) =
    Multiset.replicate (intervals.countP fun interval => decide (interval.Contains t))
      (canonicalCells left)
  := by
  induction intervals with
  | nil => rfl
  | cons interval intervals ih =>
    rw [List.map_cons, snapshot_cons, ih, snapshot_singleton]
    by_cases ht : interval.Contains t
    · simp [effectiveAt, clipTo, canonicalCells, ht]
    · simp [effectiveAt, clipTo, ht]

/-- The cells of the join of a left row with the right rows, at an instant. -/
def joinedCells (input : TemporalJoinInput) (rights : List RelationalRow) (t : ValidTime)
    (left : RelationalRow) : Multiset (List RelationalCell) :=
  ((joinRow input.kind left ((rights.filter (effectiveAt t)).filter (rowsMatch input left))).map
    canonicalCells : List (List RelationalCell))

/-- The common part of two rows has the cells of both, at the instants of both. -/
theorem snapshot_common :
  snapshot t ((commonInterval left right).map (clipTo (combine left right))).toList =
    if effectiveAt t left = true ∧ effectiveAt t right = true then
      {canonicalCells (combine left right)} else 0
  := by
  simp only [← contains_commonInterval_iff]
  cases commonInterval left right with
  | none => simp
  | some interval => simp [snapshot_singleton, effectiveAt, clipTo, canonicalCells]

theorem snapshot_inner (rights : List RelationalRow) :
  snapshot t ((candidates std input rights left).filterMap fun right =>
      (commonInterval left right).map (clipTo (combine left right))) =
    if effectiveAt t left = true then
      ofList (((rights.filter (effectiveAt t)).filter (rowsMatch input left)).map
        fun right => canonicalCells (combine left right))
    else 0
  := by
  rw [candidates_eq, filterMap_eq_flatMap_toList, snapshot_flatMap]
  simp only [snapshot_common]
  cases effectiveAt t left with
  | false => simp
  | true =>
    induction rights with
    | nil => rfl
    | cons right rights ih =>
      cases hmatch : rowsMatch input left right <;> cases hright : effectiveAt t right <;>
        simp_all [← cons_coe]

/-- At every instant, the rows for a left row are those of the join of the left row with the right
rows. -/
theorem snapshot_temporalRows (hleft : HasInterval left) :
  snapshot t (temporalRows std intervalSort input rights left) =
    if effectiveAt t left = true then joinedCells input rights t left else 0
  := by
  have hunion := isUnion_normalizeIntervals intervalSort (overlaps std input rights left)
  unfold temporalRows joinedCells
  cases hkind : input.kind with
  | inner =>
    dsimp only [joinRow]
    rw [snapshot_inner, List.map_map]
    rfl
  | semi =>
    dsimp only [joinRow]
    rw [snapshot_map_clipTo, hunion.countP]
    simp only [exists_mem_overlaps_iff]
    generalize (rights.filter (effectiveAt t)).filter (rowsMatch input left) = found
    cases effectiveAt t left <;> cases found <;> simp
  | anti =>
    obtain ⟨interval, heffective, hvalid⟩ := hleft
    have hat : effectiveAt t left = decide (interval.Contains t) := by
      rw [effectiveAt, heffective, any_some]
    dsimp only [joinRow]
    rw [heffective]
    rw [snapshot_map_clipTo, countP_gapsFrom hunion.pairwise
      (hunion.valid fun _ => valid_of_mem_overlaps) (stop_le_of_mem_normalizeIntervals heffective)]
    have hnone : (∀ s ∈ normalizeIntervals intervalSort (overlaps std input rights left),
        ¬ s.Contains t) ↔ ¬ (effectiveAt t left = true ∧
          (rights.filter (effectiveAt t)).filter (rowsMatch input left) ≠ []) := by
      rw [← exists_mem_overlaps_iff, ← hunion.contains]
      simp
    have hgap : (interval.start ≤ t ∧ (∀ e ∈ interval.stop, t < e) ∧
        ∀ s ∈ normalizeIntervals intervalSort (overlaps std input rights left),
          ¬ s.Contains t) ↔ effectiveAt t left = true ∧
            (rights.filter (effectiveAt t)).filter (rowsMatch input left) = [] := by
      rw [hnone, ← and_assoc, hat, decide_eq_true_eq]
      change interval.Contains t ∧ _ ↔ _
      tauto
    simp only [hgap]
    generalize (rights.filter (effectiveAt t)).filter (rowsMatch input left) = found
    cases effectiveAt t left <;> cases found <;> simp

/-! ### The predicted number of rows -/

/-- The sweep over the overlaps of a left row counts its fragments, if the fuel lasts and the end of
the coverage is present when it is read. -/
theorem countCoverageFragments_overlaps (hleft : left.effective = some interval) (kind : JoinKind) :
  countCoverageFragments kind interval.stop (overlaps std input rights left) fuel interval.start 0 =
      some (fragmentCount kind interval.stop interval.start
        (normalizeIntervals intervalSort (overlaps std input rights left))) ∧
      ReadsEndsFrom (overlaps std input rights left)
        (normalizeIntervals intervalSort (overlaps std input rights left)) ∨
    countCoverageFragments kind interval.stop (overlaps std input rights left) fuel
      interval.start 0 = none ∧ (fuel ≤ 2 ^ 64 ∨
        ¬ ReadsEndsFrom (overlaps std input rights left)
          (normalizeIntervals intervalSort (overlaps std input rights left)))
  := by
  have hcount := @countCoverageFragments_cases _ interval.start interval.stop fuel []
    (normalizeIntervals intervalSort (overlaps std input rights left)) kind 0
    (isUnion_normalizeIntervals _ _) (fun _ => valid_of_mem_overlaps)
    (stop_le_of_mem_normalizeIntervals hleft) nofun (start_le_of_mem_normalizeIntervals hleft)
  rw [zero_add] at hcount
  exact hcount.imp_right fun h => ⟨h.1, h.2.imp_left (by omega)⟩

theorem eq_fragmentCount (hleft : left.effective = some interval) {kind : JoinKind} {n : Nat}
    (h : countCoverageFragments kind interval.stop (overlaps std input rights left) fuel
      interval.start 0 = some n) :
  n = fragmentCount kind interval.stop interval.start
    (normalizeIntervals intervalSort (overlaps std input rights left))
  := by
  obtain ⟨hdone, -⟩ | ⟨hout, -⟩ := countCoverageFragments_overlaps hleft kind
  · apply some.inj (h.symm.trans hdone)
  · cases h.symm.trans hout

/-- The predicted number of rows is the number of rows which the join publishes. -/
theorem eq_length_of_predictedRows (hleft : HasInterval left) {n : Nat}
    (h : predictedRows std input fuel left = some n) :
  n = (temporalRows std intervalSort input input.right.rows left).length
  := by
  obtain ⟨interval, heffective, -⟩ := hleft
  unfold predictedRows at h
  unfold temporalRows
  rw [heffective] at h ⊢
  cases hkind : input.kind with
  | inner =>
    rw [hkind] at h
    rw [← some.inj h]
    simp [length_filterMap_eq_countP]
  | semi | anti =>
    rw [hkind] at h
    rw [length_map]
    apply eq_fragmentCount heffective h

/-- The predicted numbers add up to the number of rows. -/
theorem sum_of_mapM_predictedRows (hvalid : ∀ left ∈ lefts, HasInterval left)
    (h : lefts.mapM (predictedRows std input fuel) = some counts) :
  counts.sum = (lefts.flatMap (temporalRows std intervalSort input input.right.rows)).length
  := by
  induction lefts generalizing counts with
  | nil =>
    rw [← some.inj h]
    rfl
  | cons left lefts ih =>
    obtain ⟨hleft, hlefts⟩ := forall_mem_cons.mp hvalid
    rw [mapM_cons] at h
    obtain ⟨n, hn, h⟩ := bind_eq_some_iff.mp h
    obtain ⟨ns, hns, h⟩ := bind_eq_some_iff.mp h
    rw [← some.inj h, List.sum_cons, List.flatMap_cons, length_append, ih hlefts hns,
      eq_length_of_predictedRows hleft hn]

theorem joinedCells_eq_of_perm (h : rights.Perm more) :
  joinedCells input rights t left = joinedCells input more t left
  := by
  have hfound : ((rights.filter (effectiveAt t)).filter (rowsMatch input left)).Perm
      ((more.filter (effectiveAt t)).filter (rowsMatch input left)) := (h.filter _).filter _
  unfold joinedCells joinRow
  cases input.kind with
  | inner => apply coe_eq_coe.mpr ((hfound.map _).map _)
  | semi | anti => simp only [← perm_nil, hfound.congr_left]

/-! ### The join at every instant -/

/-- The cells of the join of the rows which are effective at an instant. -/
def joinSnapshot (input : TemporalJoinInput) (t : ValidTime) : Multiset (List RelationalCell) :=
  (((input.left.rows.filter (effectiveAt t)).flatMap fun left =>
    joinRow input.kind left ((input.right.rows.filter (effectiveAt t)).filter
      (rowsMatch input left))).map canonicalCells : List (List RelationalCell))

theorem joinSnapshot_eq_sum :
  joinSnapshot input t = (input.left.rows.map fun left =>
    if effectiveAt t left = true then joinedCells input input.right.rows t left else 0).sum
  := by
  unfold joinSnapshot
  induction input.left.rows with
  | nil => rfl
  | cons left lefts ih =>
    cases hat : effectiveAt t left with
    | false => simp [hat, ← ih]
    | true =>
      rw [filter_cons_of_pos hat, flatMap_cons, map_append, ← coe_add, ih, List.map_cons,
        if_pos hat]
      rfl

/-- The rows which the join publishes are, at every instant, those of the join then. -/
theorem snapshot_flatMap_temporalRows (hlefts : lefts.Perm input.left.rows)
    (hrights : rights.Perm input.right.rows) (hvalid : ∀ left ∈ input.left.rows, HasInterval left) :
  snapshot t (lefts.flatMap (temporalRows std intervalSort input rights)) = joinSnapshot input t
  := by
  have hrow : ∀ left ∈ lefts, snapshot t (temporalRows std intervalSort input rights left) =
      if effectiveAt t left = true then joinedCells input input.right.rows t left else 0 := by
    intro left hleft
    rw [snapshot_temporalRows (hvalid left (hlefts.mem_iff.mp hleft)),
      joinedCells_eq_of_perm hrights]
  rw [snapshot_flatMap, map_congr_left hrow, joinSnapshot_eq_sum]
  apply (hlefts.map _).sum_eq

/-- The rows for all left rows have intervals which are not empty. -/
theorem hasInterval_of_mem_flatMap :
  ∀ row ∈ lefts.flatMap (temporalRows std intervalSort input rights), HasInterval row
  := by
  intro row hrow
  obtain ⟨left, -, hrow⟩ := mem_flatMap.mp hrow
  unfold temporalRows at hrow
  split at hrow
  · obtain ⟨right, -, hright⟩ := mem_filterMap.mp hrow
    obtain ⟨interval, hcommon, rfl⟩ := map_eq_some_iff.mp hright
    exact ⟨interval, rfl, valid_of_mem_commonInterval hcommon⟩
  · obtain ⟨interval, hinterval, rfl⟩ := mem_map.mp hrow
    exact ⟨interval, rfl, (isUnion_normalizeIntervals _ _).valid
      (fun _ => valid_of_mem_overlaps) interval hinterval⟩
  · split at hrow
    · obtain ⟨interval, hinterval, rfl⟩ := mem_map.mp hrow
      exact ⟨interval, rfl, valid_of_mem_gapsFrom hinterval⟩
    · cases hrow

variable {fuel : Nat} {fragments : FragmentBudget} {budget : Budget} {out : BatchStream}

/-- The temporal join predicts that there are no rows, or it sorts what it publishes. -/
theorem of_intervalMergeJoin
    (h : intervalMergeJoin std rowSort intervalSort fuel input fragments budget = .ok out) :
  intervalsValid input.left.rows = true ∧
    ((∃ counts, input.left.rows.mapM (predictedRows std input fuel) = some counts ∧
        outputRows std rowSort intervalSort input counts budget = 0 ∧ out.rows = []) ∨
      out.rows = sortAndCoalesceTemporalRows rowSort input.leftKey
        (coalesceRows (publishedRows std rowSort intervalSort input)))
  := by
  obtain ⟨-, -, h⟩ := bind_eq_ok_iff.mp h
  obtain ⟨hlefts, h⟩ := check_eq_ok_iff.mp h
  obtain ⟨-, h⟩ := check_eq_ok_iff.mp h
  use by simpa using hlefts
  split at h
  case h_1 => cases h
  case h_2 counts hcounts =>
    obtain ⟨-, h⟩ := budget_eq_ok_iff.mp h
    obtain ⟨-, h⟩ := budget_eq_ok_iff.mp h
    obtain ⟨-, h⟩ := budget_eq_ok_iff.mp h
    split at h
    case isTrue hzero =>
      obtain rfl := Except.ok.inj h
      exact Or.inl ⟨counts, hcounts, hzero, rfl⟩
    case isFalse =>
      obtain ⟨-, h⟩ := budget_eq_ok_iff.mp h
      obtain ⟨-, h⟩ := guard_eq_ok_iff.mp h
      obtain ⟨⟨rows, left⟩, hpublish, h⟩ := bind_eq_ok_iff.mp h
      obtain rfl := Except.ok.inj h
      obtain ⟨-, -, rfl⟩ := publishAll_eq_ok_iff.mp ⟨left, hpublish⟩
      exact Or.inr rfl

/-- The temporal join is snapshot-reducible: at every instant, the rows of the result which are
effective then are the join of the rows of the inputs which are effective then, and no row of the
result has an empty interval. -/
theorem intervalMergeJoin_snapshots
    (h : intervalMergeJoin std rowSort intervalSort fuel input fragments budget = .ok out) :
  (∀ t, snapshot t out.rows = joinSnapshot input t) ∧ ∀ row ∈ out.rows, HasInterval row
  := by
  obtain ⟨hlefts, ⟨counts, hcounts, hzero, hout⟩ | hout⟩ := of_intervalMergeJoin h
  all_goals
    have hvalid : ∀ left ∈ input.left.rows, HasInterval left :=
      by simpa [intervalsValid, HasInterval, Option.any_eq_true] using hlefts
    rw [hout]
  · refine ⟨fun t => ?_, by simp⟩
    rw [snapshot_nil, ← snapshot_flatMap_temporalRows (Perm.refl _) (Perm.refl _) hvalid]
    rw [outputRows] at hzero
    split at hzero
    case isTrue =>
      have hnil := length_eq_zero_iff.mp hzero
      rw [← (sortAndCoalesceTemporalRows_spec input.leftKey hasInterval_of_mem_flatMap).1, hnil,
        snapshot_nil]
    case isFalse =>
      rw [sum_of_mapM_predictedRows hvalid hcounts, length_eq_zero_iff] at hzero
      rw [hzero, snapshot_nil]
  · have hrows := fun t => @coalesceRows_spec
      (publishedRows std rowSort intervalSort input) t hasInterval_of_mem_flatMap
    constructor
    · intro t
      rw [(sortAndCoalesceTemporalRows_spec input.leftKey (hrows t).2).1, (hrows t).1]
      apply snapshot_flatMap_temporalRows (rowSort.perm _ _) (rowSort.perm _ _) hvalid
    · apply (sortAndCoalesceTemporalRows_spec (t := 0) input.leftKey (hrows 0).2).2

/-- A row with a number as its only cell. -/
def numberRow (n : Int64) (interval : ValidTimeInterval) : RelationalRow :=
  { cells := [⟨.int64, true, .int64 n⟩], effective := some interval }

/-- An unbounded left row of which a right row covers a part. -/
def partlyCovered : TemporalJoinInput where
  left := { rows := [numberRow 1 ⟨0, none⟩] }
  right := { rows := [numberRow 1 ⟨2, some 5⟩] }
  leftKey := 0
  rightKey := 0
  kind := .anti

/-- The antijoin keeps the row before and after. -/
theorem partlyCovered_snapshots :
  ∃ out, intervalMergeJoin constantHash (LessSort.insertion _) (LessSort.insertion _) 8
      partlyCovered ⟨2, 0⟩ ⟨true, true, 2⟩ = .ok out ∧
    out.rows = [numberRow 1 ⟨0, some 2⟩, numberRow 1 ⟨5, none⟩] ∧
    (∀ t, snapshot t out.rows = joinSnapshot partlyCovered t) ∧
    ∀ row ∈ out.rows, HasInterval row
  := by
  have hok : intervalMergeJoin constantHash (LessSort.insertion _) (LessSort.insertion _) 8
      partlyCovered ⟨2, 0⟩ ⟨true, true, 2⟩ =
      .ok { rows := [numberRow 1 ⟨0, some 2⟩, numberRow 1 ⟨5, none⟩], orderSpecified := true } := by
    decide +kernel
  exact ⟨_, hok, rfl, intervalMergeJoin_snapshots hok⟩

end Relational

end Cedar
