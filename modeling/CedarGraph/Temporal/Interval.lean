import CedarGraph.Fact.Event
import CedarGraph.Lib.Timeline

/-!
# Valid-time intervals

A valid-time interval `[from, to)` is a span of valid times; its bounds are called `start`
and `stop` here.  `intersect` computes the common instants of two intervals, and `coalesce`
merges touching state intervals of equal value.
-/

namespace Cedar

open Option

/-- The half-open intervals of valid time. -/
abbrev ValidTimeInterval : Type := Span ValidTime

namespace ValidTimeInterval

/-- A bounded interval ends after it starts. -/
def validate (interval : ValidTimeInterval) : Status :=
  match interval.stop with
  | some stop =>
      if interval.start ≥ stop then
        Status.invalidArgument "valid time interval must satisfy from < to" ""
      else
        .ok ()
  | none => .ok ()

/-- The check accepts exactly the intervals that are not empty. -/
theorem validate_eq_ok_iff (interval : ValidTimeInterval) :
  interval.validate = .ok () ↔ interval.Valid
  := by
  obtain ⟨start, stop⟩ := interval
  cases stop with
  | none => simp [validate, Span.Valid]
  | some stop =>
    simp only [validate, Span.Valid]
    split
    case isTrue h => simp [Status.invalidArgument, h]
    case isFalse h => simpa using h

end ValidTimeInterval

/-- A state that is present with a value, or without one, throughout an interval. -/
abbrev StateInterval : Type := Piece ValidTime (Option Value)

/-- The later of two starts. -/
def laterStart (left right : ValidTime) : ValidTime :=
  if left < right then right else left

/-- The earlier of two ends, of which an absent one is later than all others. -/
def earlierEnd : Option ValidTime → Option ValidTime → Option ValidTime
  | none, right => right
  | left, none => left
  | some left, some right => if left < right then some left else some right

/-- The interval of the instants common to two intervals, unless there are none. -/
def intersect (left right : ValidTimeInterval) : Option ValidTimeInterval :=
  match earlierEnd left.stop right.stop with
  | some stop =>
      if laterStart left.start right.start < stop then
        some ⟨laterStart left.start right.start, some stop⟩
      else
        none
  | none => some ⟨laterStart left.start right.start, none⟩

/-- The intervals, each merged into the last one of the result if the two have equal values and
the last one ends where it starts. -/
def coalesce (intervals : List StateInterval) : List StateInterval :=
  Timeline.coalesce intervals

/-! ### Intersections -/

section Intersect

variable {left right common : ValidTimeInterval} {t : ValidTime}

theorem forall_mem_earlierEnd_iff {left right : Option ValidTime} :
  (∀ e ∈ earlierEnd left right, t < e) ↔ (∀ e ∈ left, t < e) ∧ ∀ e ∈ right, t < e
  := by
  cases left with
  | none => simp [earlierEnd]
  | some left =>
    cases right with
    | none => simp [earlierEnd]
    | some right =>
      simp only [earlierEnd, mem_some_iff, forall_eq']
      grind

theorem laterStart_le_iff {left right : ValidTime} :
  laterStart left right ≤ t ↔ left ≤ t ∧ right ≤ t
  := by
  grind [laterStart]

theorem earlierEnd_eq_or (left right : Option ValidTime) :
  earlierEnd left right = left ∨ earlierEnd left right = right
  := by
  cases left with
  | none => apply Or.inr rfl
  | some left =>
    cases right with
    | none => apply Or.inl rfl
    | some right => grind [earlierEnd]

theorem earlierEnd_eq_none {left right : Option ValidTime} (h : earlierEnd left right = none) :
  left = none
  := by
  cases left with
  | none => rfl
  | some left =>
    cases right with
    | none => cases h
    | some right => grind [earlierEnd]

/-- An intersection goes from the later start to the earlier end. -/
theorem intersect_eq (h : intersect left right = some common) :
  common = ⟨laterStart left.start right.start, earlierEnd left.stop right.stop⟩
  := by
  unfold intersect at h
  split at h
  case h_1 stop hstop =>
    split at h
    · rw [← some.inj h, hstop]
    · cases h
  case h_2 hstop => rw [← some.inj h, hstop]

/-- Two intervals have the instants of their intersection in common. -/
theorem contains_of_intersect (h : intersect left right = some common) :
  common.Contains t ↔ left.Contains t ∧ right.Contains t
  := by
  rw [intersect_eq h]
  simp only [Span.Contains, laterStart_le_iff, forall_mem_earlierEnd_iff]
  tauto

/-- Intervals without an intersection have no instant in common. -/
theorem not_contains_of_intersect (h : intersect left right = none) :
  ¬ (left.Contains t ∧ right.Contains t)
  := by
  rintro ⟨⟨hleft, hleft'⟩, hright, hright'⟩
  unfold intersect at h
  split at h
  case h_1 stop hstop =>
    split at h
    · cases h
    case isFalse hempty =>
      have hstart := laterStart_le_iff.mpr ⟨hleft, hright⟩
      have hlt := forall_mem_earlierEnd_iff.mpr ⟨hleft', hright'⟩
      rw [hstop] at hlt
      apply hempty (lt_of_le_of_lt hstart (hlt stop rfl))
  case h_2 => cases h

/-- An intersection is not empty. -/
theorem valid_of_intersect (h : intersect left right = some common) :
  common.Valid
  := by
  unfold intersect at h
  split at h
  · split at h
    case isTrue hlt =>
      obtain rfl := some.inj h
      intro e he
      rw [← some.inj he]
      apply hlt
    case isFalse => cases h
  · obtain rfl := some.inj h
    intro e he
    cases he

end Intersect

end Cedar
