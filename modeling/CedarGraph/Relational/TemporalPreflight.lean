import CedarGraph.Relational.SnapshotJoin

/-!
# The preflight of the temporal join

Before it publishes rows, the temporal join counts the fragments of every left row.  The sweep which
counts them has one optional end for the coverage, which is absent both before an end is known and
when there is none.  When an overlap without an end extends the coverage and other overlaps follow
it, then the absent end is read.
-/

namespace Cedar

namespace Relational

/-- For a row which is effective during an interval, the sweep reads only ends which are present,
and it ends with the number of the fragments: the normalized overlaps, or the gaps. -/
def CountsExactly (std : StdHash) (sorter : LessSort ValidTimeInterval)
    (input : TemporalJoinInput) (row : RelationalRow) (interval : ValidTimeInterval) : Prop :=
  ∃ bound, ∀ fuel ≥ bound, countCoverageFragments input.kind interval.stop
    (overlaps std input input.right.rows (clipTo row interval)) fuel interval.start 0 =
      some (fragmentCount input.kind interval.stop interval.start
        (normalizeIntervals sorter (overlaps std input input.right.rows (clipTo row interval))))

/-- The preflight of a left row is safe and exact, exactly if the end of the coverage is present
whenever it is read from the start of a normalized overlap without an end: the last overlap at this
start has no end, or the first overlap without an end to which the coverage is extended is the last
one. -/
theorem countsExactly_iff (std : StdHash) (sorter : LessSort ValidTimeInterval)
    (input : TemporalJoinInput) (row : RelationalRow) (interval : ValidTimeInterval) :
  CountsExactly std sorter input row interval ↔
    ReadsEndsFrom (overlaps std input input.right.rows (clipTo row interval))
      (normalizeIntervals sorter (overlaps std input input.right.rows (clipTo row interval)))
  := by
  have hcases := fun fuel => @countCoverageFragments_overlaps std sorter input (clipTo row interval)
    input.right.rows fuel interval rfl input.kind
  constructor
  · rintro ⟨bound, hbound⟩
    obtain ⟨-, hreads⟩ | ⟨hout, -⟩ := hcases bound
    · exact hreads
    · cases (hbound bound le_rfl).symm.trans hout
  · intro hreads
    use 2 ^ 64 + 1
    intro fuel hfuel
    obtain ⟨hdone, -⟩ | ⟨-, hsmall | hnot⟩ := hcases fuel
    · exact hdone
    · omega
    · cases hnot hreads

/-- A left row without an end, and two right rows with its key, of which the second one ends. -/
def endlessInput : TemporalJoinInput where
  left := { rows := [numberRow 7 ⟨0, none⟩] }
  right := { rows := [numberRow 7 ⟨0, none⟩, numberRow 7 ⟨0, some 5⟩] }
  leftKey := 0
  rightKey := 0
  kind := .semi

/-- The preflight of these rows reads an absent end. -/
theorem endlessInput_not_counted :
  ¬ CountsExactly constantHash (.insertion _) endlessInput (numberRow 7 ⟨0, none⟩) ⟨0, none⟩
  := by
  rintro ⟨bound, hbound⟩
  have hoverlaps : overlaps constantHash endlessInput endlessInput.right.rows
      (clipTo (numberRow 7 ⟨0, none⟩) ⟨0, none⟩) = [⟨0, none⟩, ⟨0, some 5⟩] := by
    decide +kernel
  have hcount := hbound (bound + 2) (by omega)
  rw [hoverlaps] at hcount
  cases hcount

end Relational

end Cedar
