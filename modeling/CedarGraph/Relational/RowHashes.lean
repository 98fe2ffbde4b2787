import CedarGraph.Relational.JoinEquivalence
import CedarGraph.Relational.SnapshotJoin

/-!
# The hashes which the rows of an operator remember

An operator copies rows of its inputs, with the hashes which they remember, or it makes rows which
remember nothing.  A row which is combined or clipped has other cells or another interval than the
row whose hash it keeps.
-/

namespace Cedar

namespace Relational

open List RelationalRow StatusOr

variable {std : StdHash} {sorter : LessSort RelationalRow} {input : JoinInput} {budget : Budget}
  {stream out : BatchStream} {lefts rights rows : List RelationalRow} {left row : RelationalRow}
  {P : RelationalRow → Prop}

/-! ### Rows which are copied -/

theorem mem_of_mem_radixPasses {shifts : List UInt64} {keyed : List (UInt64 × RelationalRow)}
    {entry : UInt64 × RelationalRow}
    (h : entry ∈ shifts.foldl (fun rows shift => radixPass shift rows) keyed) :
  entry ∈ keyed
  := by
  induction shifts generalizing keyed with
  | nil => exact h
  | cons shift shifts ih =>
    obtain ⟨_, -, hmem⟩ := mem_flatMap.mp (ih h)
    exact (mem_filter.mp hmem).1

theorem snd_mem_of_mapM {f : RelationalRow → Option UInt64} {keyed : List (UInt64 × RelationalRow)}
    (h : rows.mapM (fun row => (f row).map fun value => (value, row)) = some keyed)
    {entry : UInt64 × RelationalRow} (hentry : entry ∈ keyed) :
  entry.2 ∈ rows
  := by
  induction rows generalizing keyed with
  | nil =>
    rw [← Option.some.inj h] at hentry
    cases hentry
  | cons row rows ih =>
    rw [mapM_cons] at h
    obtain ⟨first, hfirst, h⟩ := Option.bind_eq_some_iff.mp h
    obtain ⟨others, hothers, h⟩ := Option.bind_eq_some_iff.mp h
    obtain ⟨value, -, rfl⟩ := Option.map_eq_some_iff.mp hfirst
    rw [← Option.some.inj h] at hentry
    rcases mem_cons.mp hentry with rfl | hentry
    · exact mem_cons_self
    · exact mem_cons_of_mem _ (ih hothers hentry)

theorem mem_of_mem_sort {keys : List SortKey} (h : sort sorter stream keys budget = .ok out)
    (hrow : row ∈ out.rows) :
  row ∈ stream.rows
  := by
  obtain ⟨_, -, h⟩ := bind_eq_ok_iff.mp h
  obtain ⟨-, h⟩ := guard_eq_ok_iff.mp h
  obtain ⟨-, h⟩ := guard_eq_ok_iff.mp h
  obtain rfl := Except.ok.inj h
  have hsorted : ∀ row ∈ sorter.sort (rowLess keys) stream.rows, row ∈ stream.rows :=
    fun _ => (sorter.perm _ _).mem_iff.mp
  dsimp only at hrow
  split at hrow
  · rcases hradix : tryFixedWidthRadixSort stream.rows _ with _ | sorted
    all_goals rw [hradix] at hrow
    · exact hsorted row hrow
    · obtain ⟨keyed, hkeyed, hradix⟩ := Option.bind_eq_some_iff.mp hradix
      rw [Option.getD_some, ← Option.some.inj hradix] at hrow
      obtain ⟨entry, hentry, rfl⟩ := mem_map.mp hrow
      exact snd_mem_of_mapM hkeyed (mem_of_mem_radixPasses hentry)
  · exact hsorted row hrow

/-! ### Rows of joins

What holds of the left rows, and is kept when an inner join combines rows, holds of the rows of a
join.  Rows which were written and read back remember nothing. -/

section Joins

theorem cachedHash_of_readSpilledRows {runs : List (List UInt8)} {granted : Bool}
    (h : readSpilledRows runs granted = .ok rows) (hrow : row ∈ rows) :
  row.cachedHash = none
  := by
  obtain ⟨parts, hparts, h⟩ := bind_eq_ok_iff.mp h
  rw [← Except.ok.inj h] at hrow
  obtain ⟨part, hpart, hrow⟩ := mem_flatten.mp hrow
  obtain ⟨run, -, hrun⟩ := (mapM_eq_ok_iff.mp hparts).exists_left hpart
  obtain ⟨frames, -, hrun⟩ := bind_eq_ok_iff.mp hrun
  obtain ⟨-, hrun⟩ := guard_eq_ok_iff.mp hrun
  obtain ⟨frame, -, hframe⟩ := (mapM_eq_ok_iff.mp hrun).exists_left hrow
  obtain ⟨_, -, hframe⟩ := bind_eq_ok_iff.mp hframe
  obtain ⟨_, -, hframe⟩ := bind_eq_ok_iff.mp hframe
  obtain ⟨-, hframe⟩ := guard_eq_ok_iff.mp hframe
  obtain ⟨_, -, hframe⟩ := bind_eq_ok_iff.mp hframe
  obtain ⟨-, hframe⟩ := guard_eq_ok_iff.mp hframe
  rw [← Except.ok.inj hframe]

variable (hcombine : input.kind = .inner → ∀ left right, P left → P (combine left right))

include hcombine

theorem forall_mem_joinRow (hleft : P left) {found : List RelationalRow} :
  ∀ row ∈ joinRow input.kind left found, P row
  := by
  intro row hrow
  cases hkind : input.kind with
  | inner =>
    rw [hkind] at hrow
    obtain ⟨right, -, rfl⟩ := mem_map.mp hrow
    exact hcombine hkind left right hleft
  | semi | anti =>
    rw [hkind, joinRow] at hrow
    split at hrow
    all_goals simp at hrow
    rwa [hrow]

theorem forall_mem_flatMap_joinRow (hlefts : ∀ left ∈ lefts, P left)
    {found : RelationalRow → List RelationalRow} :
  ∀ row ∈ lefts.flatMap fun left => joinRow input.kind left (found left), P row
  := by
  intro row hrow
  obtain ⟨left, hleft, hrow⟩ := mem_flatMap.mp hrow
  exact forall_mem_joinRow hcombine (hlefts left hleft) row hrow

theorem forall_mem_joinGroups (hlefts : ∀ left ∈ lefts, P left) :
  ∀ row ∈ joinGroups input lefts rights, P row
  := by
  intro row hrow
  rw [joinGroups] at hrow
  split at hrow
  · split at hrow
    · split at hrow
      case h_1 hkind =>
        obtain ⟨left, hleft, hrow⟩ := mem_flatMap.mp hrow
        obtain ⟨right, -, rfl⟩ := mem_map.mp hrow
        exact hcombine hkind left right (hlefts left hleft)
      case h_2 => exact hlefts row hrow
      case h_3 => cases hrow
    · split at hrow
      · exact hlefts row hrow
      · cases hrow
  · cases hrow

theorem forall_mem_mergeRows (hlefts : ∀ left ∈ lefts, P left) :
  ∀ row ∈ mergeRows input lefts rights, P row
  := by
  fun_induction mergeRows input lefts rights with
  | case1 => exact forall_mem_nil _
  | case2 => exact hlefts
  | case3 => exact forall_mem_nil _
  | case4 left lefts right rights _ ih =>
    obtain ⟨hleft, hlefts⟩ := forall_mem_cons.mp hlefts
    refine forall_mem_append.mpr ⟨?_, ih hlefts⟩
    split
    · simpa using hleft
    · exact forall_mem_nil _
  | case5 _ _ _ _ _ ih => exact ih hlefts
  | case6 left lefts right rights _ ih =>
    obtain ⟨hleft, hlefts⟩ := forall_mem_cons.mp hlefts
    refine forall_mem_append.mpr ⟨forall_mem_joinGroups hcombine ?_, ih ?_⟩
    · refine forall_mem_cons.mpr ⟨hleft, fun row hrow => ?_⟩
      exact hlefts row ((takeWhile_sublist _).mem hrow)
    · exact fun row hrow => hlefts row ((dropWhile_sublist _).mem hrow)

theorem forall_mem_sortMergeJoinInMemory (hlefts : ∀ left ∈ input.left.rows, P left)
    (h : sortMergeJoinInMemory sorter input budget = .ok out) :
  ∀ row ∈ out.rows, P row
  := by
  obtain ⟨_, -, h⟩ := bind_eq_ok_iff.mp h
  obtain ⟨-, h⟩ := guard_eq_ok_iff.mp h
  rw [rows_of_joinOutput h]
  apply forall_mem_mergeRows hcombine
  exact fun left hleft => hlefts left ((sorter.perm _ _).mem_iff.mp hleft)

theorem forall_mem_indexNestedLoopJoin (hlefts : ∀ left ∈ input.left.rows, P left)
    (h : indexNestedLoopJoin input budget = .ok out) :
  ∀ row ∈ out.rows, P row
  := by
  obtain ⟨_, -, h⟩ := bind_eq_ok_iff.mp h
  rw [rows_of_joinOutput h]
  exact forall_mem_flatMap_joinRow hcombine hlefts

theorem forall_mem_hashJoin {spill : Option Budget} (hlefts : ∀ left ∈ input.left.rows, P left)
    (h : hashJoin std input budget spill = .ok out) :
  ∀ row ∈ out.rows, P row
  := by
  unfold hashJoin at h
  split at h
  · split at h
    · obtain ⟨-, h⟩ := guard_eq_ok_iff.mp h
      obtain ⟨_, -, h⟩ := bind_eq_ok_iff.mp h
      obtain ⟨-, h⟩ := guard_eq_ok_iff.mp h
      obtain ⟨-, h⟩ := guard_eq_ok_iff.mp h
      rw [← Except.ok.inj h]
      exact forall_mem_flatMap_joinRow hcombine hlefts
    · cases h
  · obtain ⟨_, -, h⟩ := bind_eq_ok_iff.mp h
    obtain ⟨-, h⟩ := guard_eq_ok_iff.mp h
    rw [rows_of_joinOutput h]
    exact forall_mem_flatMap_joinRow hcombine hlefts

/-- The partitions are joined from rows which were read back. -/
theorem forall_mem_sortMergePartitions (hread : ∀ row, row.cachedHash = none → P row)
    {partitions : List Nat} {rows' : List RelationalRow} (hrows : ∀ row ∈ rows, P row)
    (h : sortMergePartitions std sorter input budget partitions rows = .ok rows') :
  ∀ row ∈ rows', P row
  := by
  induction partitions generalizing rows with
  | nil => rwa [← Except.ok.inj h]
  | cons partition partitions ih =>
    obtain ⟨joined, hjoined, h⟩ := bind_eq_ok_iff.mp h
    obtain ⟨-, h⟩ := guard_eq_ok_iff.mp h
    refine ih (forall_mem_append.mpr ⟨hrows, ?_⟩) h
    rw [sortMergePartition] at hjoined
    split at hjoined
    · rw [← Except.ok.inj hjoined]
      exact forall_mem_nil _
    · obtain ⟨lefts, hlefts, hjoined⟩ := bind_eq_ok_iff.mp hjoined
      obtain ⟨rights, -, hjoined⟩ := bind_eq_ok_iff.mp hjoined
      obtain ⟨part, hpart, hjoined⟩ := bind_eq_ok_iff.mp hjoined
      rw [← Except.ok.inj hjoined]
      refine @forall_mem_sortMergeJoinInMemory _ _ _ _ P (by exact hcombine) ?_ hpart
      intro left hleft
      exact hread left (cachedHash_of_readSpilledRows hlefts
        ((sorter.perm _ _).mem_iff.mp hleft))

theorem forall_mem_sortMergeJoin (hread : ∀ row, row.cachedHash = none → P row)
    {spill : Option Budget} (hlefts : ∀ left ∈ input.left.rows, P left)
    (h : sortMergeJoin std sorter input budget spill = .ok out) :
  ∀ row ∈ out.rows, P row
  := by
  unfold sortMergeJoin at h
  split at h
  · split at h
    · obtain ⟨-, h⟩ := guard_eq_ok_iff.mp h
      obtain ⟨rows, hrows, h⟩ := bind_eq_ok_iff.mp h
      rw [← Except.ok.inj h]
      intro row hrow
      exact forall_mem_sortMergePartitions hcombine hread (forall_mem_nil _) hrows row
        ((sorter.perm _ _).mem_iff.mp hrow)
    · cases h
  · exact forall_mem_sortMergeJoinInMemory hcombine hlefts h

omit hcombine

end Joins

/-! ### Rows which are made -/

section Temporal

variable {intervalSort : LessSort ValidTimeInterval} {eventSort : LessSort TemporalEvent}
  {fuel : Nat} {fragments : FragmentBudget}

theorem cachedHash_extend (last row : RelationalRow) :
  (extend last row).cachedHash = last.cachedHash
  := by
  unfold extend
  split <;> rfl

theorem cachedHash_of_mem_coalesceRows (h : ∀ row ∈ rows, row.cachedHash = none) :
  ∀ row ∈ coalesceRows rows, row.cachedHash = none
  := by
  apply forall_mem_coalesceRows _ h
  intro last row hlast _ _
  rw [cachedHash_extend, hlast]

theorem cachedHash_of_mem_temporalRows (hlefts : ∀ left ∈ lefts, left.cachedHash = none) :
  ∀ row ∈ lefts.flatMap (temporalRows std intervalSort input rights), row.cachedHash = none
  := by
  intro row hrow
  obtain ⟨left, hleft, hrow⟩ := mem_flatMap.mp hrow
  rw [← hlefts left hleft]
  unfold temporalRows at hrow
  split at hrow
  · obtain ⟨right, -, hright⟩ := mem_filterMap.mp hrow
    obtain ⟨interval, -, rfl⟩ := Option.map_eq_some_iff.mp hright
    rfl
  · obtain ⟨interval, -, rfl⟩ := mem_map.mp hrow
    rfl
  · split at hrow
    · obtain ⟨interval, -, rfl⟩ := mem_map.mp hrow
      rfl
    · cases hrow

/-- A temporal join of left rows which remember nothing. -/
theorem cachedHash_of_intervalMergeJoin (hlefts : ∀ left ∈ input.left.rows, left.cachedHash = none)
    (h : intervalMergeJoin std sorter intervalSort fuel input fragments budget = .ok out) :
  ∀ row ∈ out.rows, row.cachedHash = none
  := by
  obtain ⟨-, ⟨_, -, -, hout⟩ | hout⟩ := of_intervalMergeJoin h
  all_goals rw [hout]
  · exact forall_mem_nil _
  · apply cachedHash_of_mem_coalesceRows
    intro row hrow
    refine cachedHash_of_mem_coalesceRows (cachedHash_of_mem_temporalRows ?_) row
      ((sorter.perm _ _).mem_iff.mp hrow)
    exact fun left hleft => hlefts left ((sorter.perm _ _).mem_iff.mp hleft)

theorem cachedHash_of_aggregateRows {addDouble : UInt64 → UInt64 → UInt64} {groupBy : List Nat}
    {aggregates : List AggregateSpec}
    (h : aggregateRows std addDouble stream groupBy aggregates budget = .ok out) :
  ∀ row ∈ out.rows, row.cachedHash = none
  := by
  intro row hrow
  obtain ⟨_, -, h⟩ := bind_eq_ok_iff.mp h
  obtain ⟨-, h⟩ := guard_eq_ok_iff.mp h
  obtain ⟨groups, -, h⟩ := bind_eq_ok_iff.mp h
  obtain ⟨-, h⟩ := guard_eq_ok_iff.mp h
  obtain ⟨-, h⟩ := guard_eq_ok_iff.mp h
  obtain ⟨rows, hrows, h⟩ := bind_eq_ok_iff.mp h
  rw [← Except.ok.inj h] at hrow
  obtain ⟨group, -, hgroup⟩ := (mapM_eq_ok_iff.mp hrows).exists_left hrow
  obtain ⟨cells, -, hgroup⟩ := bind_eq_ok_iff.mp hgroup
  rw [← Except.ok.inj hgroup]

theorem cachedHash_of_temporalAggregate {groupBy : List Nat}
    (h : temporalAggregate std eventSort stream groupBy fragments budget = .ok out) :
  ∀ row ∈ out.rows, row.cachedHash = none
  := by
  obtain ⟨groups, -, -, -, ⟨-, hnil⟩ | hrows⟩ := temporalAggregate_eq_ok h
  · rw [hnil]
    exact forall_mem_nil _
  · rw [hrows]
    apply cachedHash_of_mem_coalesceRows
    intro row hrow
    obtain ⟨group, -, hrow⟩ := mem_flatMap.mp hrow
    exact (mem_groupRows hrow).2.2

end Temporal

end Relational

end Cedar
