import CedarGraph.Relational.TemporalJoin

/-!
# Publication of temporal rows

Rows are published one after another, and each one extends the last one if the two touch.  So the
published rows are the coalesced ones, in the order of their publication.
-/

namespace Cedar

namespace Relational

open List StatusOr

variable {row last : RelationalRow} {rows before more out : List RelationalRow} {max : Nat}
  {fragments : FragmentBudget} {P : RelationalRow → Prop}

/-- The rows, each merged into the one before it if the two touch. -/
def coalesceRows : List RelationalRow → List RelationalRow
  | [] => []
  | row :: rows => coalesceRowsFrom row rows

theorem length_coalesceRowsFrom :
  1 ≤ (coalesceRowsFrom row rows).length ∧ (coalesceRowsFrom row rows).length ≤ rows.length + 1
  := by
  induction rows generalizing row with
  | nil => simp [coalesceRowsFrom]
  | cons next rows ih =>
    rw [coalesceRowsFrom, length_cons]
    split
    · have hih := @ih (extend row next)
      omega
    · have hih := @ih next
      rw [length_cons]
      omega

/-- What holds of all rows and is kept by extending a row holds of the coalesced rows. -/
theorem forall_mem_coalesceRowsFrom
    (hextend : ∀ last row, P last → P row → touches last row = true → P (extend last row))
    (hrow : P row) (hrows : ∀ r ∈ rows, P r) :
  ∀ r ∈ coalesceRowsFrom row rows, P r
  := by
  induction rows generalizing row with
  | nil => simpa [coalesceRowsFrom] using hrow
  | cons next rows ih =>
    obtain ⟨hnext, hrows⟩ := forall_mem_cons.mp hrows
    rw [coalesceRowsFrom]
    split
    case isTrue htouches => apply ih (hextend row next hrow hnext htouches) hrows
    case isFalse => apply forall_mem_cons.mpr ⟨hrow, ih hnext hrows⟩

theorem forall_mem_coalesceRows
    (hextend : ∀ last row, P last → P row → touches last row = true → P (extend last row))
    (hrows : ∀ r ∈ rows, P r) :
  ∀ r ∈ coalesceRows rows, P r
  := by
  cases rows with
  | nil => apply hrows
  | cons row rows =>
    obtain ⟨hrow, hrows⟩ := forall_mem_cons.mp hrows
    apply forall_mem_coalesceRowsFrom hextend hrow hrows

theorem cells_extend (left right : RelationalRow) :
  (extend left right).cells = left.cells
  := by
  unfold extend
  split <;> rfl

/-- Rows with different cells are coalesced apart. -/
theorem coalesceRowsFrom_append
    (h : ∀ x ∈ row :: rows, ∀ y ∈ more, RelationalCell.listEq x.cells y.cells = false) :
  coalesceRowsFrom row (rows ++ more) = coalesceRowsFrom row rows ++ coalesceRows more
  := by
  induction rows generalizing row with
  | nil =>
    cases more with
    | nil => rfl
    | cons y more =>
      have hnot : touches row y = false := by
        rw [touches, h row mem_cons_self y mem_cons_self, Bool.false_and]
      simp [coalesceRowsFrom, coalesceRows, hnot]
  | cons next rows ih =>
    obtain ⟨hrow, hnext⟩ := forall_mem_cons.mp h
    rw [cons_append, coalesceRowsFrom, coalesceRowsFrom]
    split
    · apply ih
      apply forall_mem_cons.mpr ⟨_, (forall_mem_cons.mp hnext).2⟩
      rw [cells_extend]
      apply hrow
    · rw [ih hnext, cons_append]

theorem coalesceRows_append
    (h : ∀ x ∈ rows, ∀ y ∈ more, RelationalCell.listEq x.cells y.cells = false) :
  coalesceRows (rows ++ more) = coalesceRows rows ++ coalesceRows more
  := by
  cases rows with
  | nil => rfl
  | cons row rows => apply coalesceRowsFrom_append h

theorem publishAll_append (state : List RelationalRow × FragmentBudget) :
  publishAll max (rows ++ more) state = publishAll max rows state >>= publishAll max more
  := by
  induction rows generalizing state with
  | nil => rfl
  | cons row rows ih => simp only [cons_append, publishAll, bind_assoc, ih]

/-- Rows are published after others exactly if the coalesced ones are within the limits. -/
theorem publishAll_append_eq_ok_iff (hbefore : before.length < max) :
  (∃ left, publishAll max rows (before ++ [last], fragments) = .ok (out, left)) ↔
    before.length + (coalesceRowsFrom last rows).length ≤ max ∧
      (coalesceRowsFrom last rows).length ≤ fragments.limit - fragments.used + 1 ∧
      out = before ++ coalesceRowsFrom last rows
  := by
  induction rows generalizing before last fragments with
  | nil => simp [publishAll, coalesceRowsFrom, Nat.succ_le_of_lt hbefore, eq_comm]
  | cons row rows ih =>
    rw [publishAll, publish, getLast?_concat, coalesceRowsFrom]
    dsimp only
    split
    · rw [dropLast_concat]
      apply ih hbefore
    · have hlength := @length_coalesceRowsFrom row rows
      simp only [bind_eq_ok_iff, budget_eq_ok_iff, Except.ok.injEq, and_assoc, exists_and_left,
        exists_eq_left', length_append, length_cons, length_nil]
      constructor
      · rintro ⟨hroom, hfragment, hrest⟩
        rw [ih (by simpa using hroom)] at hrest
        simp only [length_append, length_cons, length_nil, append_assoc] at hrest
        exact ⟨by omega, by omega, hrest.2.2⟩
      · rintro ⟨hroom, hfragments, hout⟩
        use by omega, by omega
        rw [ih (by simp; omega)]
        simp only [length_append, length_cons, length_nil, append_assoc]
        exact ⟨by omega, by omega, hout⟩

/-- Rows are published exactly if the coalesced ones are within the limits. -/
theorem publishAll_eq_ok_iff :
  (∃ left, publishAll max rows ([], fragments) = .ok (out, left)) ↔
    (coalesceRows rows).length ≤ max ∧
      (coalesceRows rows).length ≤ fragments.limit - fragments.used ∧ out = coalesceRows rows
  := by
  cases rows with
  | nil => simp [publishAll, coalesceRows, eq_comm]
  | cons row rows =>
    have hlength := @length_coalesceRowsFrom row rows
    rw [publishAll, publish, coalesceRows]
    simp only [getLast?_nil, bind_eq_ok_iff, budget_eq_ok_iff, Except.ok.injEq, and_assoc,
      exists_and_left, exists_eq_left', length_nil]
    constructor
    · rintro ⟨hroom, hfragment, hrest⟩
      rw [publishAll_append_eq_ok_iff (lt_of_not_ge hroom)] at hrest
      simp only [length_nil, nil_append] at hrest
      exact ⟨by omega, by omega, hrest.2.2⟩
    · rintro ⟨hroom, hfragments, hout⟩
      use by omega, by omega
      rw [publishAll_append_eq_ok_iff (by simp; omega)]
      simp only [length_nil, nil_append]
      exact ⟨by omega, by omega, hout⟩

end Relational

end Cedar
