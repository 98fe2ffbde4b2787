import CedarGraph.Lib.Lists
import CedarGraph.Relational.CellOrder

/-!
# The joins agree

Every join produces the rows of the nested loops, in some order.  The joins which write rows to
scratch read the rows back which they have written, as long as the number of cells of a row is one
which a frame can tell.
-/

namespace Cedar

open Except List Ordering RelationalCell StatusOr RelationalRow

namespace Relational

/-- The rows which nested loops produce. -/
def nestedLoops (input : JoinInput) (lefts rights : List RelationalRow) : List RelationalRow :=
  lefts.flatMap fun left => joinRow input.kind left (rights.filter (rowsMatch input left))

/-- Every cell is well-typed, and no key is a floating-point number. -/
structure JoinInput.WellTyped (input : JoinInput) : Prop where
  left : ∀ row ∈ input.left.rows, ∀ cell ∈ row.cells, cell.WellTyped
  right : ∀ row ∈ input.right.rows, ∀ cell ∈ row.cells, cell.WellTyped
  leftKey : ∀ row ∈ input.left.rows, (cell row input.leftKey).present = true →
    (cell row input.leftKey).type ≠ .float32 ∧ (cell row input.leftKey).type ≠ .float64
  rightKey : ∀ row ∈ input.right.rows, (cell row input.rightKey).present = true →
    (cell row input.rightKey).type ≠ .float32 ∧ (cell row input.rightKey).type ≠ .float64

/-- The keys of some rows are well-typed. -/
def Keyed (key : Nat) (rows : List RelationalRow) : Prop :=
  ∀ row ∈ rows, (cell row key).IsKey

/-- No key is greater than a later one. -/
def SortedBy (key : Nat) (rows : List RelationalRow) : Prop :=
  rows.Pairwise fun a b => (cell a key).compare (cell b key) ≠ .gt

theorem isKey_cell {row : RelationalRow} {key : Nat}
    (hcells : ∀ cell ∈ row.cells, cell.WellTyped)
    (hkey : (cell row key).present = true →
      (cell row key).type ≠ .float32 ∧ (cell row key).type ≠ .float64) :
  (cell row key).IsKey
  := by
  refine ⟨?_, fun h => (hkey h).1, fun h => (hkey h).2⟩
  unfold cell
  rw [getD_eq_getElem?_getD]
  cases hget : row.cells[key]? with
  | none => rfl
  | some found => apply hcells found (mem_of_getElem? hget)

theorem JoinInput.WellTyped.keyed_left {input : JoinInput} (h : input.WellTyped) :
  Keyed input.leftKey input.left.rows
  := fun row hrow => isKey_cell (h.left row hrow) (h.leftKey row hrow)

theorem JoinInput.WellTyped.keyed_right {input : JoinInput} (h : input.WellTyped) :
  Keyed input.rightKey input.right.rows
  := fun row hrow => isKey_cell (h.right row hrow) (h.rightKey row hrow)

/-! ### Merging -/

section Merging

variable {key : Nat} {row : RelationalRow} {rows : List RelationalRow}

variable {rows' lefts' rights' : List RelationalRow} {other : RelationalRow}

theorem SortedBy.sublist (h : SortedBy key rows) (hsub : rows'.Sublist rows) :
  SortedBy key rows'
  := Pairwise.sublist hsub h

theorem Keyed.sublist (h : Keyed key rows) (hsub : rows'.Sublist rows) :
  Keyed key rows'
  := fun row hrow => h row (hsub.subset hrow)

/-- Sorting brings the rows into the order of their keys. -/
theorem sortedBy_sort (sorter : LessSort RelationalRow) (hkeyed : Keyed key rows) :
  SortedBy key (sorter.sort (keyLess key) rows)
  := by
  have hsorted := sorter.sorted (keyLess key) rows
    (ordersOn_compare.strictWeakOn hkeyed)
  apply hsorted.imp_of_mem
  intro a b ha hb hless hgt
  have ha' := hkeyed a ((sorter.perm _ _).mem_iff.mp ha)
  have hb' := hkeyed b ((sorter.perm _ _).mem_iff.mp hb)
  apply of_decide_eq_false hless
  rw [ordersOn_compare.swap _ _ ha' hb', hgt]
  rfl

theorem Keyed.sort (sorter : LessSort RelationalRow) (hkeyed : Keyed key rows) :
  Keyed key (sorter.sort (keyLess key) rows)
  := fun row hrow => hkeyed row ((sorter.perm _ _).mem_iff.mp hrow)

/-- A key before the first of some sorted rows is before all of them. -/
theorem compare_lt_of_sortedBy {found : RelationalCell} (hfound : found.IsKey)
    (hkeyed : Keyed key (row :: rows)) (hsorted : SortedBy key (row :: rows))
    (hlt : found.compare (cell row key) = .lt) (h : other ∈ row :: rows) :
  found.compare (cell other key) = .lt
  := by
  obtain rfl | hmem := mem_cons.mp h
  · exact hlt
  · apply ordersOn_compare.lt_of_lt_of_le hfound (hkeyed row mem_cons_self) (hkeyed other h) hlt
    apply (pairwise_cons.mp hsorted).1 other hmem

/-- The keys which follow the ones of a row are greater. -/
theorem compare_of_mem_afterKey (hkeyed : Keyed key (row :: rows))
    (hsorted : SortedBy key (row :: rows)) (h : other ∈ afterKey key row rows) :
  (cell row key).compare (cell other key) = .lt
  := by
  induction rows with
  | nil => cases h
  | cons next rows ih =>
    obtain ⟨hrow, hnext⟩ := forall_mem_cons.mp hkeyed
    obtain ⟨hfirst, hrest⟩ := pairwise_cons.mp hsorted
    unfold afterKey at h
    rw [dropWhile_cons] at h
    split at h
    case isTrue =>
      have hsub : (row :: rows).Sublist (row :: next :: rows) :=
        (sublist_cons_self next rows).cons_cons row
      apply ih (hkeyed.sublist hsub) (hsorted.sublist hsub) h
    case isFalse hne =>
      have hlt : (cell row key).compare (cell next key) = .lt := by
        have hle := hfirst next mem_cons_self
        cases hc : (cell row key).compare (cell next key) with
        | lt => rfl
        | eq => exact absurd (decide_eq_true hc) hne
        | gt => exact absurd hc hle
      apply compare_lt_of_sortedBy hrow hnext hrest hlt h

variable {input : JoinInput} {left right : RelationalRow} {lefts rights : List RelationalRow}

/-- Rows with different keys do not match. -/
theorem rowsMatch_eq_false (hleft : (cell left input.leftKey).IsKey)
    (hright : (cell right input.rightKey).IsKey)
    (hne : (cell left input.leftKey).compare (cell right input.rightKey) ≠ .eq) :
  rowsMatch input left right = false
  := by
  by_contra h
  obtain ⟨_, hsame⟩ := (hleft.keysEqual_iff hright).mp (eq_true_of_ne_false h)
  apply hne
  rw [hsame]
  apply ordersOn_compare.self hright

theorem nestedLoops_cons :
  nestedLoops input (left :: lefts) rights =
    joinRow input.kind left (rights.filter (rowsMatch input left)) ++
      nestedLoops input lefts rights
  := flatMap_cons

theorem nestedLoops_congr (h : ∀ left ∈ lefts, rights.filter (rowsMatch input left) =
      rights'.filter (rowsMatch input left)) :
  nestedLoops input lefts rights = nestedLoops input lefts rights'
  := by
  apply flatMap_congr
  intro left hleft
  rw [h left hleft]

theorem joinRow_nil (kind : JoinKind) :
  joinRow kind left [] = if kind = .anti then [left] else []
  := by
  cases kind <;> rfl

/-- The join of two groups of rows with one key. -/
theorem joinGroups_eq
    (hsame : ∀ l ∈ left :: lefts, ∀ r ∈ right :: rights,
      rowsMatch input l r = rowsMatch input left right) :
  joinGroups input (left :: lefts) (right :: rights) =
    nestedLoops input (left :: lefts) (right :: rights)
  := by
  have hfilter : ∀ l ∈ left :: lefts, (right :: rights).filter (rowsMatch input l) =
      if rowsMatch input left right then right :: rights else [] := by
    intro l hl
    split
    case isTrue h =>
      rw [filter_eq_self]
      intro r hr
      rw [hsame l hl r hr, h]
    case isFalse h =>
      rw [filter_eq_nil_iff]
      intro r hr
      rw [hsame l hl r hr]
      exact h
  have hrows := flatMap_congr fun l hl => congrArg (joinRow input.kind l) (hfilter l hl)
  rw [nestedLoops, hrows]
  unfold joinGroups
  cases hmatch : rowsMatch input left right <;> cases hkind : input.kind <;>
    simp [hmatch, joinRow]

/-- Nested loops over rows of which only the first ones match the first ones, and the last ones the
last ones. -/
theorem nestedLoops_append_append (hnone : ∀ l ∈ lefts, ∀ r ∈ rights', rowsMatch input l r = false)
    (hnone' : ∀ l ∈ lefts', ∀ r ∈ rights, rowsMatch input l r = false) :
  nestedLoops input (lefts ++ lefts') (rights ++ rights') =
    nestedLoops input lefts rights ++ nestedLoops input lefts' rights'
  := by
  rw [nestedLoops, flatMap_append]
  congr 1
  · apply nestedLoops_congr
    intro l hl
    have hrest : rights'.filter (rowsMatch input l) = [] :=
      filter_eq_nil_iff.mpr fun r hr => Bool.eq_false_iff.mp (hnone l hl r hr)
    rw [filter_append, hrest, append_nil]
  · apply nestedLoops_congr
    intro l hl
    have hfirst : rights.filter (rowsMatch input l) = [] :=
      filter_eq_nil_iff.mpr fun r hr => Bool.eq_false_iff.mp (hnone' l hl r hr)
    rw [filter_append, hfirst, nil_append]

/-- The rows of a group have the key of its first row. -/
theorem cell_of_mem_group (hkeyed : Keyed key (row :: rows))
    (h : other ∈ row :: sameKey key row rows) :
  cell other key = cell row key
  := by
  obtain rfl | h := mem_cons.mp h
  · rfl
  · have hother := hkeyed other (mem_cons_of_mem _ ((takeWhile_sublist _).subset h))
    have hsame := mem_takeWhile_imp h
    exact ((hkeyed row mem_cons_self).eq_of_compare hother (of_decide_eq_true hsame)).symm

theorem cons_sameKey_append_afterKey (key : Nat) (row : RelationalRow)
    (rows : List RelationalRow) :
  (row :: sameKey key row rows) ++ afterKey key row rows = row :: rows
  := congrArg (row :: ·) takeWhile_append_dropWhile

theorem afterKey_sublist (key : Nat) (row : RelationalRow) (rows : List RelationalRow) :
  (afterKey key row rows).Sublist (row :: rows)
  := (dropWhile_sublist _).trans (sublist_cons_self _ _)

/-- The groups of the first rows are joined by themselves, if their keys are the same. -/
theorem nestedLoops_groups (hlefts : Keyed input.leftKey (left :: lefts))
    (hrights : Keyed input.rightKey (right :: rights))
    (hsorted : SortedBy input.leftKey (left :: lefts))
    (hsorted' : SortedBy input.rightKey (right :: rights))
    (hsame : cell left input.leftKey = cell right input.rightKey) :
  nestedLoops input (left :: lefts) (right :: rights) =
    joinGroups input (left :: sameKey input.leftKey left lefts)
        (right :: sameKey input.rightKey right rights) ++
      nestedLoops input (afterKey input.leftKey left lefts)
        (afterKey input.rightKey right rights)
  := by
  have hleft := hlefts left mem_cons_self
  have hright := hrights right mem_cons_self
  rw [joinGroups_eq, ← nestedLoops_append_append, cons_sameKey_append_afterKey,
    cons_sameKey_append_afterKey]
  · intro l hl r hr
    have hlt := compare_of_mem_afterKey hrights hsorted' hr
    apply rowsMatch_eq_false
    · rw [cell_of_mem_group hlefts hl]
      exact hleft
    · apply hrights r ((afterKey_sublist _ _ _).subset hr)
    · rw [cell_of_mem_group hlefts hl, hsame, hlt]
      exact noConfusion
  · intro l hl r hr
    have hlt := compare_of_mem_afterKey hlefts hsorted hl
    have hl' := hlefts l ((afterKey_sublist _ _ _).subset hl)
    apply rowsMatch_eq_false hl'
    · rw [cell_of_mem_group hrights hr]
      exact hright
    · rw [cell_of_mem_group hrights hr, ← hsame,
        ordersOn_compare.swap _ _ hleft hl', hlt]
      exact noConfusion
  · intro l hl r hr
    rw [rowsMatch, rowsMatch, cell_of_mem_group hlefts hl, cell_of_mem_group hrights hr]

/-- Merging sorted rows is the same as nested loops. -/
theorem mergeRows_eq (hlefts : Keyed input.leftKey lefts) (hrights : Keyed input.rightKey rights)
    (hsorted : SortedBy input.leftKey lefts) (hsorted' : SortedBy input.rightKey rights) :
  mergeRows input lefts rights = nestedLoops input lefts rights
  := by
  fun_induction mergeRows input lefts rights with
  | case1 => rfl
  | case2 lefts _ hkind => simp [nestedLoops, joinRow, hkind, flatMap_singleton']
  | case3 lefts _ hkind => simp [nestedLoops, joinRow_nil, hkind]
  | case4 left lefts right rights hlt ih =>
    have hsub := sublist_cons_self left lefts
    have hleft := hlefts left mem_cons_self
    have hnone : (right :: rights).filter (rowsMatch input left) = [] := by
      apply filter_eq_nil_iff.mpr
      intro r hr
      apply Bool.eq_false_iff.mp
      apply rowsMatch_eq_false hleft (hrights r hr)
      rw [compare_lt_of_sortedBy hleft hrights hsorted' hlt hr]
      exact noConfusion
    rw [nestedLoops_cons, hnone, joinRow_nil,
      ih (hlefts.sublist hsub) hrights (hsorted.sublist hsub) hsorted']
  | case5 left lefts right rights hgt ih =>
    have hsub := sublist_cons_self right rights
    rw [ih hlefts (hrights.sublist hsub) hsorted (hsorted'.sublist hsub)]
    apply nestedLoops_congr
    intro l hl
    rw [filter_cons_of_neg]
    apply Bool.eq_false_iff.mp
    have horder := ordersOn_compare
    have hright := hrights right mem_cons_self
    have hlt : (cell right input.rightKey).compare (cell left input.leftKey) = .lt := by
      rw [horder.swap _ _ (hlefts left mem_cons_self) hright, hgt]
      rfl
    apply rowsMatch_eq_false (hlefts l hl) hright
    rw [horder.swap _ _ hright (hlefts l hl), compare_lt_of_sortedBy hright hlefts hsorted hlt hl]
    exact noConfusion
  | case6 left lefts right rights heq ih =>
    have hsame := (hlefts left mem_cons_self).eq_of_compare
      (hrights right mem_cons_self) heq
    rw [nestedLoops_groups hlefts hrights hsorted hsorted' hsame,
      ih (hlefts.sublist (afterKey_sublist _ _ _)) (hrights.sublist (afterKey_sublist _ _ _))
        (hsorted.sublist (afterKey_sublist _ _ _)) (hsorted'.sublist (afterKey_sublist _ _ _))]

end Merging

/-! ### Rows up to their order and their hashes -/

/-- The rows are the same in some order, whatever hashes they remember. -/
def SameRows (rows rows' : List RelationalRow) : Prop :=
  (rows.map RelationalRow.forgetHash).Perm (rows'.map RelationalRow.forgetHash)

section SameRows

variable {input : JoinInput} {kind : JoinKind} {left : RelationalRow}
  {lefts lefts' rights rights' : List RelationalRow}

theorem joinRow_perm (h : rights.Perm rights') :
  (joinRow kind left rights).Perm (joinRow kind left rights')
  := by
  have hnil : rights = [] ↔ rights' = [] := by
    rw [← length_eq_zero_iff, ← length_eq_zero_iff, h.length_eq]
  cases kind with
  | inner => apply h.map
  | semi | anti => simp only [joinRow, hnil, Perm.refl]

theorem nestedLoops_perm (hlefts : lefts.Perm lefts') (hrights : rights.Perm rights') :
  (nestedLoops input lefts rights).Perm (nestedLoops input lefts' rights')
  := hlefts.flatMap fun _ _ => joinRow_perm (hrights.filter _)

/-- What a join produces for a row does not depend on the remembered hashes of the others. -/
theorem joinRow_map_forgetHash (kind : JoinKind) (left : RelationalRow)
    (found : List RelationalRow) :
  joinRow kind left (found.map forgetHash) = joinRow kind left found
  := by
  cases kind with
  | inner =>
    simp only [joinRow, map_map]
    rfl
  | semi | anti => simp [joinRow]

theorem map_forgetHash_joinRow_left (kind : JoinKind) (left : RelationalRow)
    (found : List RelationalRow) :
  (joinRow kind left.forgetHash found).map forgetHash =
    (joinRow kind left found).map forgetHash
  := by
  cases kind with
  | inner =>
    simp only [joinRow, map_map]
    rfl
  | semi | anti =>
    simp only [joinRow]
    split <;> rfl

theorem filter_map_forgetHash (left : RelationalRow) (rights : List RelationalRow) :
  (rights.map forgetHash).filter (rowsMatch input left) =
    (rights.filter (rowsMatch input left)).map forgetHash
  := filter_map

/-- Nested loops do not depend on remembered hashes, up to such hashes. -/
theorem map_forgetHash_nestedLoops (input : JoinInput) (lefts rights : List RelationalRow) :
  (nestedLoops input (lefts.map forgetHash)
      (rights.map forgetHash)).map forgetHash =
    (nestedLoops input lefts rights).map forgetHash
  := by
  unfold nestedLoops
  rw [map_flatMap, map_flatMap, flatMap_map]
  apply flatMap_congr
  intro left _
  rw [filter_map_forgetHash, joinRow_map_forgetHash, map_forgetHash_joinRow_left]
  rfl

end SameRows

/-! ### The joins in memory -/

section InMemory

variable {std : StdHash} {sorter : LessSort RelationalRow} {input : JoinInput} {budget : Budget}
  {out : BatchStream}

theorem rows_of_joinOutput {rows : List RelationalRow} {orderSpecified : Bool}
    {error : StatusError} (h : joinOutput rows orderSpecified budget (.error error) = .ok out) :
  out.rows = rows
  := by
  obtain ⟨_, h⟩ := guard_eq_ok_iff.mp h
  obtain ⟨_, h⟩ := guard_eq_ok_iff.mp h
  rw [← ok.inj h]

/-- A chain of the table has the rows of its bucket, the last one first. -/
theorem buildTable_eq (std : StdHash) (buckets key : Nat) (rows : List RelationalRow)
    (table : UInt64 → List RelationalRow) (bucket : UInt64) :
  buildTable std buckets key rows table bucket =
    (rows.filter fun row => (cell row key).present &&
      bucketOf std buckets (cell row key) = bucket).reverse ++ table bucket
  := by
  induction rows generalizing table with
  | nil => rfl
  | cons row rows ih =>
    rw [buildTable]
    cases hpresent : (cell row key).present with
    | false =>
      rw [filter_cons_of_neg (by simp [hpresent])]
      apply ih
    | true =>
      rw [if_neg (by simp), ih]
      by_cases hbucket : bucketOf std buckets (cell row key) = bucket
      · rw [filter_cons_of_pos (by simp [hpresent, hbucket]), if_pos hbucket.symm,
          reverse_cons, append_assoc]
        rfl
      · rw [filter_cons_of_neg (by simp [hbucket]), if_neg (Ne.symm hbucket)]

/-- Filtering by what is matched leaves out whatever all matches have. -/
theorem filter_filter_of_imp {p q : RelationalRow → Bool} {rows : List RelationalRow}
    (h : ∀ row ∈ rows, q row = true → p row = true) :
  (rows.filter p).filter q = rows.filter q
  := by
  rw [filter_filter]
  apply filter_congr
  intro row hrow
  cases hq : q row with
  | false => rfl
  | true => rw [h row hrow hq, Bool.and_self]

/-- Rows which match have keys which are present and have one hash. -/
theorem hashCell_of_rowsMatch {left right : RelationalRow}
    (h : rowsMatch input left right = true) :
  (cell left input.leftKey).present = true ∧ (cell right input.rightKey).present = true ∧
    hashCell std (cell left input.leftKey) = hashCell std (cell right input.rightKey)
  := by
  have heq := (keysEqual_iff.mp h).2
  simp only [rowsMatch, keysEqual, Bool.and_eq_true] at h
  exact ⟨h.1.1.1, h.1.1.2, hashCell_eq_of_eq std heq⟩

/-- The rows of the chain which match are all rows which match, the last one first. -/
theorem chain_eq (left : RelationalRow) (buckets : Nat) :
  (if (cell left input.leftKey).present then
      buildTable std buckets input.rightKey input.right.rows (fun _ => [])
        (bucketOf std buckets (cell left input.leftKey))
    else []).filter (rowsMatch input left) =
      (input.right.rows.filter (rowsMatch input left)).reverse
  := by
  split
  case isTrue =>
    rw [buildTable_eq, append_nil, filter_reverse, filter_filter_of_imp]
    intro right _ h
    obtain ⟨-, hpresent, hhash⟩ := @hashCell_of_rowsMatch std _ _ _ h
    simp [hpresent, bucketOf, hhash]
  case isFalse hmissing =>
    have hnone : input.right.rows.filter (rowsMatch input left) = [] :=
      filter_eq_nil_iff.mpr fun right _ h => hmissing (@hashCell_of_rowsMatch std _ _ _ h).1
    rw [hnone]
    rfl

theorem rows_of_hashJoinInMemory (h : hashJoinInMemory std input budget = .ok out) :
  out.rows = input.left.rows.flatMap fun left =>
    joinRow input.kind left (input.right.rows.filter (rowsMatch input left)).reverse
  := by
  obtain ⟨_, _, h⟩ := bind_eq_ok_iff.mp h
  obtain ⟨_, h⟩ := guard_eq_ok_iff.mp h
  rw [rows_of_joinOutput h]
  simp only [chain_eq]

theorem rows_of_sortMergeJoinInMemory (hlefts : Keyed input.leftKey input.left.rows)
    (hrights : Keyed input.rightKey input.right.rows)
    (h : sortMergeJoinInMemory sorter input budget = .ok out) :
  out.rows.Perm (nestedLoops input input.left.rows input.right.rows)
  := by
  obtain ⟨_, _, h⟩ := bind_eq_ok_iff.mp h
  obtain ⟨_, h⟩ := guard_eq_ok_iff.mp h
  rw [rows_of_joinOutput h, mergeRows_eq (hlefts.sort sorter) (hrights.sort sorter)
    (sortedBy_sort sorter hlefts) (sortedBy_sort sorter hrights)]
  apply nestedLoops_perm (sorter.perm _ _) (sorter.perm _ _)

end InMemory

/-! ### The spilled joins -/

section Spilled

variable {std : StdHash} {sorter : LessSort RelationalRow} {input : JoinInput} {budget : Budget}
  {out : BatchStream}

/-- The rows of a partition. -/
def partitionRows (std : StdHash) (key partition : Nat) (rows : List RelationalRow) :
    List RelationalRow :=
  rows.filter fun row => partitionOf std (cell row key) = partition

theorem partitionOf_lt (std : StdHash) (key : RelationalCell) :
  partitionOf std key < partitionCount
  := by
  unfold partitionOf
  split
  · apply Nat.mod_lt _ (by decide)
  · decide

/-- The right rows which are written to the partition of a left row. -/
def probedRows (std : StdHash) (input : JoinInput) : List RelationalRow :=
  input.right.rows.filter fun right => input.left.rows.any fun left =>
    partitionOf std (cell right input.rightKey) = partitionOf std (cell left input.leftKey)

variable {partition : Nat} {rows : List RelationalRow} {left : RelationalRow}

/-- The rows of a partition are read as they were written. -/
theorem readSpilledRows_partitionRuns {stream : BatchStream} {key : Nat} {granted : Bool}
    (hrows : ∀ row ∈ partitionRows std key partition stream.rows, row.Writable)
    (h : readSpilledRows (partitionRuns std stream key partition) granted = .ok rows) :
  rows = (partitionRows std key partition stream.rows).map forgetHash
  := readSpilledRows_map_framedRow hrows h

theorem mem_probedRows (hleft : left ∈ input.left.rows) {right : RelationalRow}
    (h : right ∈ partitionRows std input.rightKey (partitionOf std (cell left input.leftKey))
      input.right.rows) :
  right ∈ probedRows std input
  := by
  obtain ⟨hright, heq⟩ := mem_filter.mp h
  apply mem_filter.mpr ⟨hright, any_eq_true.mpr ⟨left, hleft, heq⟩⟩

theorem Keyed.partitionRows {key : Nat} (h : Keyed key rows) (std : StdHash) (partition : Nat) :
  Keyed key ((partitionRows std key partition rows).map forgetHash)
  := by
  intro row hrow
  obtain ⟨row', hrow', rfl⟩ := mem_map.mp hrow
  apply h row' (mem_of_mem_filter hrow')

/-- The rows of its partition which match a row are all rows which match it. -/
theorem filter_partitionRows (rights : List RelationalRow) :
  (partitionRows std input.rightKey (partitionOf std (cell left input.leftKey))
      rights).filter (rowsMatch input left) = rights.filter (rowsMatch input left)
  := by
  apply filter_filter_of_imp
  intro right _ h
  obtain ⟨hpresent, hpresent', hhash⟩ := @hashCell_of_rowsMatch std _ _ _ h
  simp [partitionOf, hpresent, hpresent', hhash]

theorem rows_of_externalHashJoin (hrights : ∀ row ∈ probedRows std input, row.Writable)
    (h : externalHashJoin std input budget = .ok out) :
  out.rows = nestedLoops input input.left.rows input.right.rows
  := by
  obtain ⟨_, h⟩ := guard_eq_ok_iff.mp h
  obtain ⟨partitions, hpartitions, h⟩ := bind_eq_ok_iff.mp h
  obtain ⟨_, h⟩ := guard_eq_ok_iff.mp h
  obtain ⟨_, h⟩ := guard_eq_ok_iff.mp h
  rw [← ok.inj h]
  apply flatMap_congr
  intro left hleft
  have hread := mapM_eq_ok_iff.mp hpartitions
  have hlt := partitionOf_lt std (cell left input.leftKey)
  have hlength := hread.length_eq
  rw [length_range] at hlength
  have hpartition := hread.get (by rwa [length_range]) (by rwa [← hlength])
  simp only [get_eq_getElem, getElem_range] at hpartition
  have hrows := readSpilledRows_partitionRuns
    (fun row hrow => hrights row (mem_probedRows hleft hrow)) hpartition
  rw [getD_eq_getElem _ _ (by rwa [← hlength]), hrows, partitionMatches, filter_filter_of_imp,
    filter_map_forgetHash, filter_partitionRows, joinRow_map_forgetHash]
  intro right _ h
  obtain ⟨hpresent, hpresent', hhash⟩ := @hashCell_of_rowsMatch std _ _ _ h
  simp [bucketHash, hpresent, hpresent', hhash]

/-- The join of the written rows of a partition. -/
theorem rows_of_sortMergePartition (hinput : input.WellTyped)
    (hfit : ∀ row ∈ input.left.rows ++ probedRows std input, row.Writable)
    (h : sortMergePartition std sorter input budget partition = .ok rows) :
  SameRows rows (nestedLoops input (partitionRows std input.leftKey partition input.left.rows)
    (partitionRows std input.rightKey partition input.right.rows))
  := by
  unfold sortMergePartition at h
  dsimp only at h
  split at h
  case isTrue hnone =>
    have hempty : partitionRows std input.leftKey partition input.left.rows = [] :=
      map_eq_nil_iff.mp hnone
    rw [← ok.inj h, hempty]
    apply Perm.refl
  case isFalse hsome =>
    obtain ⟨left, hleft, h⟩ := bind_eq_ok_iff.mp h
    obtain ⟨right, hright, h⟩ := bind_eq_ok_iff.mp h
    obtain ⟨joined, hjoined, h⟩ := bind_eq_ok_iff.mp h
    obtain ⟨hlefts, hrights⟩ := forall_mem_append.mp hfit
    obtain ⟨first, hfirst⟩ := exists_mem_of_ne_nil _ fun hnil => hsome (map_eq_nil_iff.mpr hnil)
    obtain ⟨hfirst, hpartition⟩ := mem_filter.mp hfirst
    have hleft' := readSpilledRows_partitionRuns
      (fun row hrow => hlefts row (mem_of_mem_filter hrow)) hleft
    have hright' := readSpilledRows_partitionRuns (fun row hrow => hrights row
      (mem_probedRows hfirst (of_decide_eq_true hpartition ▸ hrow))) hright
    have hkeyed := hinput.keyed_left.partitionRows std partition
    have hkeyed' := hinput.keyed_right.partitionRows std partition
    rw [← hleft'] at hkeyed
    rw [← hright'] at hkeyed'
    have hperm := rows_of_sortMergeJoinInMemory (hkeyed.sort sorter) (hkeyed'.sort sorter) hjoined
    rw [← ok.inj h, SameRows, ← map_forgetHash_nestedLoops, ← hleft', ← hright']
    apply Perm.map
    apply hperm.trans
    apply nestedLoops_perm (sorter.perm _ _) (sorter.perm _ _)

/-- The rows of the partitions are collected in order. -/
theorem rows_of_sortMergePartitions {partitions : List Nat} {rows' : List RelationalRow}
    (h : sortMergePartitions std sorter input budget partitions rows = .ok rows') :
  ∃ parts, Forall₂ (fun partition joined =>
      sortMergePartition std sorter input budget partition = .ok joined) partitions parts ∧
    rows' = rows ++ parts.flatten
  := by
  induction partitions generalizing rows with
  | nil => exact ⟨[], .nil, by simpa using (ok.inj h).symm⟩
  | cons partition partitions ih =>
    obtain ⟨joined, hjoined, h⟩ := bind_eq_ok_iff.mp h
    obtain ⟨_, h⟩ := guard_eq_ok_iff.mp h
    obtain ⟨parts, hparts, rfl⟩ := ih h
    exact ⟨joined :: parts, .cons hjoined hparts, by simp⟩

/-- Nested loops by partitions. -/
theorem flatMap_partitions_perm :
  ((range partitionCount).flatMap fun partition =>
    nestedLoops input (partitionRows std input.leftKey partition input.left.rows)
      (partitionRows std input.rightKey partition input.right.rows)).Perm
    (nestedLoops input input.left.rows input.right.rows)
  := by
  have hparts : ∀ partition, nestedLoops input
      (partitionRows std input.leftKey partition input.left.rows)
      (partitionRows std input.rightKey partition input.right.rows) =
    nestedLoops input (partitionRows std input.leftKey partition input.left.rows)
      input.right.rows := by
    intro partition
    apply nestedLoops_congr
    intro left hleft
    rw [← of_decide_eq_true (mem_filter.mp hleft).2, filter_partitionRows]
  simp only [hparts]
  have hall := flatMap_filter_perm
    (fun row => partitionOf std (cell row input.leftKey)) (nodup_range (n := partitionCount))
    input.left.rows
  rw [filter_eq_self.mpr fun row _ => decide_eq_true (mem_range.mpr (partitionOf_lt std _))] at hall
  have hrows := hall.flatMap_right fun left =>
    joinRow input.kind left (input.right.rows.filter (rowsMatch input left))
  rw [flatMap_assoc] at hrows
  exact hrows

theorem rows_of_externalSortMergeJoin (hinput : input.WellTyped)
    (hfit : ∀ row ∈ input.left.rows ++ probedRows std input, row.Writable)
    (h : externalSortMergeJoin std sorter input budget = .ok out) :
  SameRows out.rows (nestedLoops input input.left.rows input.right.rows)
  := by
  obtain ⟨_, h⟩ := guard_eq_ok_iff.mp h
  obtain ⟨rows, hrows, h⟩ := bind_eq_ok_iff.mp h
  obtain ⟨parts, hparts, rfl⟩ := rows_of_sortMergePartitions hrows
  rw [← ok.inj h]
  apply ((sorter.perm _ _).map _).trans
  have hpartitions := @flatMap_partitions_perm std input
  apply Perm.trans _ (hpartitions.map _)
  rw [nil_append]
  clear hrows h
  generalize range partitionCount = partitions at hparts ⊢
  induction hparts with
  | nil => apply Perm.refl
  | cons hpart _ ih =>
    rw [flatten_cons, flatMap_cons, map_append, map_append]
    apply Perm.append (rows_of_sortMergePartition hinput hfit hpart) ih

end Spilled

end Relational

end Cedar
