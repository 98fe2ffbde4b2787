import CedarGraph.Lib.SortedList
import CedarGraph.Temporal.CorrectedChain

/-!
# Missing state

`materializeMissingState` computes the maximal intervals, within an enclosing one, in which a chain
of property facts has no value.  It sweeps the boundaries with a cursor, apart from the sweep which
`materializePresentState` makes.  The main result is that the two are complementary.
-/

namespace Cedar

open List Timeline CorrectedBoundary

/-- The value after a boundary. -/
def CorrectedBoundary.apply (boundary : CorrectedBoundary) : Option Value :=
  if boundary.operation = .put then boundary.value else none

/-- The interval from the cursor on, if it is not empty and there is no value. -/
def gap (value : Option Value) (cursor : ValidTime) (stop : Option ValidTime) :
    List StateInterval :=
  if value = none ∧ ∀ e ∈ stop, cursor < e then [⟨⟨cursor, stop⟩, none⟩] else []

/-- The gaps from the cursor on, where the value is the one at the cursor. -/
def missingFrom (stop : Option ValidTime) :
    Option Value → ValidTime → List CorrectedBoundary → List StateInterval
  | value, cursor, [] => gap value cursor stop
  | value, cursor, boundary :: boundaries =>
      if ∃ e ∈ stop, ¬ boundary.validFrom < e then
        gap value cursor stop
      else
        gap value cursor (some boundary.validFrom) ++
          missingFrom stop boundary.apply boundary.validFrom boundaries

/-- The boundaries up to the start of the enclosing interval are applied, the ones after it are
swept. -/
def materializeMissingState (boundaries : List CorrectedBoundary)
    (enclosing : ValidTimeInterval) : List StateInterval :=
  if enclosing.validate = .ok () then
    let value := (boundaries.takeWhile fun boundary => boundary.validFrom ≤ enclosing.start).foldl
      (fun _ boundary => boundary.apply) none
    let rest := boundaries.dropWhile fun boundary => boundary.validFrom ≤ enclosing.start
    coalesce (missingFrom enclosing.stop value enclosing.start rest)
  else
    []

/-! ### The value at an instant -/

variable {boundaries : List CorrectedBoundary} {value : Option Value} {cursor t : ValidTime}
  {stop : Option ValidTime}

/-- The value at an instant, where it is given up to the first boundary. -/
def valueAt (t : ValidTime) : Option Value → List CorrectedBoundary → Option Value
  | value, [] => value
  | value, boundary :: boundaries =>
      if boundary.validFrom ≤ t then valueAt t boundary.apply boundaries else value

/-- The boundaries up to an earlier instant may be applied first. -/
theorem valueAt_dropWhile {s : ValidTime} (hst : s ≤ t) (value : Option Value)
    (boundaries : List CorrectedBoundary) :
  valueAt t ((boundaries.takeWhile fun boundary => boundary.validFrom ≤ s).foldl
      (fun _ boundary => boundary.apply) value)
    (boundaries.dropWhile fun boundary => boundary.validFrom ≤ s) = valueAt t value boundaries
  := by
  induction boundaries generalizing value with
  | nil => rfl
  | cons boundary boundaries ih =>
    by_cases hle : boundary.validFrom ≤ s
    · have hle' := le_trans hle hst
      simpa [hle, valueAt, hle'] using ih boundary.apply
    · simp [hle]

/-- From the first boundary on, an interval of present state contains an instant exactly if there is
a value. -/
theorem exists_mem_presentState_cons_iff {boundary : CorrectedBoundary}
    (h : Increasing validFrom (boundary :: boundaries))
    (hput : ∀ b ∈ boundary :: boundaries, b.operation = .put → b.value.isSome) :
  (∃ state ∈ presentState (boundary :: boundaries), state.interval.Contains t) ↔
    boundary.validFrom ≤ t ∧ (valueAt t boundary.apply boundaries).isSome
  := by
  induction boundaries generalizing boundary with
  | nil =>
    have happly := hput boundary mem_cons_self
    by_cases hoperation : boundary.operation = .put
    · simp [presentState, valueAt, Span.Contains, apply, hoperation,
        happly hoperation]
    · simp [presentState, valueAt, apply, hoperation]
  | cons next boundaries ih =>
    obtain ⟨hlt, hnext⟩ := pairwise_cons.mp h
    have hbefore := hlt next mem_cons_self
    obtain ⟨happly, hput⟩ := forall_mem_cons.mp hput
    rw [presentState, valueAt]
    by_cases hoperation : boundary.operation = .put
    · simp only [hoperation, if_true, exists_mem_cons_iff, ih hnext hput]
      simp only [Span.Contains, head?_cons, Option.map_some, Option.mem_some_iff, forall_eq']
      grind [apply]
    · simp only [hoperation, if_false, ih hnext hput]
      grind [apply]

/-- An interval of present state contains an instant exactly if there is a value. -/
theorem exists_mem_materializePresentState_iff
    (h : Increasing validFrom boundaries)
    (hput : ∀ boundary ∈ boundaries, boundary.operation = .put → boundary.value.isSome) :
  (∃ state ∈ materializePresentState boundaries, state.interval.Contains t) ↔
    (valueAt t none boundaries).isSome
  := by
  have hlaid : Laid (presentState boundaries) := presentState_eq_sweep boundaries ▸ laid_sweep h
  rw [materializePresentState, coalesce, exists_contains_coalesce_iff hlaid]
  cases boundaries with
  | nil => simp [presentState, valueAt]
  | cons boundary boundaries =>
    rw [exists_mem_presentState_cons_iff h hput, valueAt]
    grind

/-! ### The gaps -/

theorem mem_gap_iff {state : StateInterval} :
  state ∈ gap value cursor stop ↔
    (value = none ∧ ∀ e ∈ stop, cursor < e) ∧ state = ⟨⟨cursor, stop⟩, none⟩
  := by
  rw [gap, mem_ite_nil_right, mem_singleton]

theorem exists_mem_gap_iff :
  (∃ state ∈ gap value cursor stop, state.interval.Contains t) ↔
    value = none ∧ cursor ≤ t ∧ ∀ e ∈ stop, t < e
  := by
  simp only [mem_gap_iff, and_assoc, exists_and_left, exists_eq_left, Span.Contains]
  apply and_congr_right
  intro _
  rw [and_iff_right_iff_imp]
  rintro ⟨hle, hlt⟩ e he
  apply lt_of_le_of_lt hle (hlt e he)

/-- The gaps have no value. -/
theorem value_of_mem_missingFrom {state : StateInterval}
    (h : state ∈ missingFrom stop value cursor boundaries) :
  state.value = none
  := by
  induction boundaries generalizing value cursor with
  | nil => rw [(mem_gap_iff.mp h).2]
  | cons boundary boundaries ih =>
    rw [missingFrom] at h
    split at h
    · rw [(mem_gap_iff.mp h).2]
    · obtain h | h := mem_append.mp h
      · rw [(mem_gap_iff.mp h).2]
      · apply ih h

/-- The instants of the gaps are those without a value, from the cursor up to the end of the
enclosing interval. -/
theorem exists_mem_missingFrom_iff (h : Increasing validFrom boundaries)
    (hcursor : ∀ boundary ∈ boundaries, cursor < boundary.validFrom) :
  (∃ state ∈ missingFrom stop value cursor boundaries, state.interval.Contains t) ↔
    cursor ≤ t ∧ (∀ e ∈ stop, t < e) ∧ valueAt t value boundaries = none
  := by
  induction boundaries generalizing value cursor with
  | nil =>
    rw [missingFrom, exists_mem_gap_iff, valueAt]
    tauto
  | cons boundary boundaries ih =>
    obtain ⟨hlt, hincreasing⟩ := pairwise_cons.mp h
    have hnext := hcursor boundary mem_cons_self
    rw [missingFrom, valueAt]
    split
    case isTrue hend =>
      obtain ⟨e, he, hle⟩ := hend
      rw [exists_mem_gap_iff]
      grind
    case isFalse hinside =>
      simp only [mem_append, or_and_right, exists_or, exists_mem_gap_iff, ih hincreasing hlt,
        Option.mem_some_iff, forall_eq']
      grind

/-- The gaps are laid out in order. -/
theorem laid_missingFrom (h : Increasing validFrom boundaries)
    (hcursor : ∀ boundary ∈ boundaries, cursor < boundary.validFrom) :
  Laid (missingFrom stop value cursor boundaries)
  := by
  have hgap : ∀ value cursor, Laid (gap value cursor stop) := by
    intro value cursor
    rw [gap]
    split
    case isTrue hgap => exact laid_cons.mpr ⟨hgap.2, forall_mem_nil _, laid_nil⟩
    case isFalse => exact laid_nil
  induction boundaries generalizing value cursor with
  | nil => apply hgap
  | cons boundary boundaries ih =>
    obtain ⟨hlt, hincreasing⟩ := pairwise_cons.mp h
    have hlaid := @ih boundary.apply boundary.validFrom hincreasing hlt
    rw [missingFrom, gap]
    split
    · apply hgap
    · rw [gap]
      split
      case isTrue hgap =>
        refine laid_cons.mpr ⟨hgap.2, ?_, hlaid⟩
        intro state hstate
        have hstart := (hlaid.valid state hstate).contains_start
        use boundary.validFrom, rfl
        apply ((exists_mem_missingFrom_iff hincreasing hlt).mp ⟨state, hstate, hstart⟩).1
      case isFalse => apply hlaid

/-! ### The complement -/

/-- Missing and present state are complementary: the intervals of missing state are in order and do
not touch, and of the enclosing interval they contain the instants which no interval of present
state contains. -/
theorem materializeMissingState_complement {enclosing : ValidTimeInterval}
    (h : Increasing CorrectedBoundary.validFrom boundaries)
    (hput : ∀ boundary ∈ boundaries, boundary.operation = .put → boundary.value.isSome)
    (hvalid : enclosing.validate = .ok ()) :
  ((materializeMissingState boundaries enclosing).Pairwise fun a b =>
      ∃ e ∈ a.interval.stop, e < b.interval.start) ∧
    (∀ state ∈ materializeMissingState boundaries enclosing, state.interval.Valid ∧
      state.value = none ∧ ∀ t, state.interval.Contains t → enclosing.Contains t) ∧
    ∀ t, enclosing.Contains t →
      ((∃ state ∈ materializeMissingState boundaries enclosing, state.interval.Contains t) ↔
        ¬ ∃ state ∈ materializePresentState boundaries, state.interval.Contains t)
  := by
  have hmissing : materializeMissingState boundaries enclosing = Timeline.coalesce _ :=
    if_pos hvalid
  have hrest := h.sublist (dropWhile_sublist fun boundary =>
    decide (boundary.validFrom ≤ enclosing.start))
  have hcursor : ∀ boundary ∈ boundaries.dropWhile fun boundary =>
      boundary.validFrom ≤ enclosing.start, enclosing.start < boundary.validFrom := by
    rw [dropWhile_eq_filter]
    · simp
    · apply h.imp
      intro a b hab hb
      apply decide_eq_true (le_of_lt (lt_of_lt_of_le hab (of_decide_eq_true hb)))
  have hgaps := fun value => @laid_missingFrom _ value _ enclosing.stop hrest hcursor
  have hlaid := hmissing ▸ laid_coalesce (hgaps _)
  have hcontains : ∀ t, (∃ state ∈ materializeMissingState boundaries enclosing,
      state.interval.Contains t) ↔ enclosing.Contains t ∧ valueAt t none boundaries = none := by
    intro t
    rw [hmissing, exists_contains_coalesce_iff (hgaps _), exists_mem_missingFrom_iff hrest hcursor,
      Span.Contains, and_assoc]
    apply and_congr_right
    intro hle
    rw [valueAt_dropWhile hle]
  have hvalue : ∀ state ∈ materializeMissingState boundaries enclosing, state.value = none := by
    intro state hstate
    have hstart := (hlaid.valid state hstate).contains_start
    obtain ⟨p, hp, -, hagree⟩ := (exists_mem_coalesce_iff (hgaps _)).mp
      ⟨state, hmissing ▸ hstate, hstart, Agree.refl state.value⟩
    rw [value_of_mem_missingFrom hp] at hagree
    rcases hvalue : state.value with - | value
    · rfl
    · rw [hvalue] at hagree
      rcases hagree with ⟨⟨⟩⟩ | ⟨⟨⟩⟩
  refine ⟨?_, ?_, ?_⟩
  · apply hlaid.ordered.imp_of_mem
    rintro a b ha hb ⟨e, he, hle⟩
    use e, he
    apply lt_of_le_of_ne hle
    rintro rfl
    apply hlaid.not_mergeable (hmissing ▸ coalesce_maximal _) ha hb
    rw [Mergeable, hvalue a ha, hvalue b hb]
    exact ⟨rfl, he⟩
  · intro state hstate
    use hlaid.valid state hstate, hvalue state hstate
    intro t ht
    apply ((hcontains t).mp ⟨state, hstate, ht⟩).1
  · intro t ht
    rw [hcontains, exists_mem_materializePresentState_iff h hput, and_iff_right ht,
      Option.not_isSome_iff_eq_none]

/-- A property which is set at 10 and at 20 and deleted at 30. -/
def deletedProperty : List CorrectedBoundary :=
  [⟨10, 1, .put, 1, some (.int64 7), none⟩, ⟨20, 1, .put, 1, some (.int64 7), none⟩,
    ⟨30, 1, .delete, 1, none, none⟩]

theorem deletedProperty_missing :
  ValidTimeInterval.validate ⟨5, some 40⟩ = .ok () ∧
    ∀ t, Span.Contains ⟨5, some 40⟩ t →
      ((∃ state ∈ materializeMissingState deletedProperty ⟨5, some 40⟩,
          state.interval.Contains t) ↔
        ¬ ∃ state ∈ materializePresentState deletedProperty, state.interval.Contains t)
  := by
  use rfl
  apply (materializeMissingState_complement (by unfold Increasing; decide) (by decide) rfl).2.2

end Cedar
