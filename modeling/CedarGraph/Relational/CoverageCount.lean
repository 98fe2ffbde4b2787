import CedarGraph.Relational.TemporalJoin

/-!
# Counting the fragments of a left row

The sweep over the overlaps of a left row counts the spans of their union for a semijoin, and the
gaps between them for an antijoin.  It moves a cursor from one end of such a span to the next one,
and extends what it has found of a span until no overlap reaches beyond it.
-/

namespace Cedar

namespace Relational

open List Span

variable {spans : List ValidTimeInterval} {cursor reached : ValidTime} {stop : Option ValidTime}
  {overlap : ValidTimeInterval} {fuel : Nat} {probe : Probe}

theorem endsAfter_iff :
  endsAfter stop cursor = true ↔ ∀ e ∈ stop, cursor < e
  := by
  simp [endsAfter, Option.all_eq_true]

theorem contains_cursor_iff :
  (¬ cursor < overlap.start ∧ endsAfter overlap.stop cursor = true) ↔ overlap.Contains cursor
  := by
  rw [endsAfter_iff, not_lt]
  rfl

/-! ### Probing -/

/-- What the probe at a cursor knows of the overlaps it has seen. -/
structure ProbeSpec (cursor : ValidTime) (spans : List ValidTimeInterval) (probe : Probe) :
    Prop where
  found : probe.found = true ↔ ∃ s ∈ spans, s.Contains cursor
  absent : probe.found = false → probe.coverageEnd = none
  /-- The coverage ends with some overlap which contains the cursor. -/
  coverage : probe.found = true → ∃ s ∈ spans, s.Contains cursor ∧ s.stop = probe.coverageEnd
  /-- The next start is the first one of an overlap after the cursor. -/
  next : ∀ a, probe.nextStart = some a → cursor < a ∧ ∃ s ∈ spans, s.start = a
  next_le : ∀ s ∈ spans, cursor < s.start → ∃ a, probe.nextStart = some a ∧ a ≤ s.start

theorem probeSpec (cursor : ValidTime) (spans : List ValidTimeInterval) :
  ProbeSpec cursor spans (spans.foldl (probeStep cursor) {})
  := by
  induction spans using reverseRecOn with
  | nil => exact ⟨by simp, by simp, nofun, nofun, nofun⟩
  | append_singleton spans overlap ih =>
    rw [foldl_concat]
    generalize spans.foldl (probeStep cursor) {} = probe at ih ⊢
    obtain ⟨found, absent, coverage, next, next_le⟩ := ih
    by_cases hcontains : overlap.Contains cursor
    · have hstart := not_lt.mpr hcontains.1
      rw [probeStep, if_pos (contains_cursor_iff.mpr hcontains)]
      refine ⟨by simp [hcontains], by simp, ?_, ?_, ?_⟩
      · clear found next next_le
        cases hend : probe.coverageEnd <;> cases hstop : overlap.stop <;> grind [updateEnd]
      · grind
      · clear found absent coverage
        grind
    · rw [probeStep, if_neg fun h => hcontains (contains_cursor_iff.mp h)]
      split
      case isTrue hnext =>
        have hall := (Option.all_eq_true _ _).mp hnext.2
        refine ⟨by simp [found, hcontains], absent, by grind, by simp [hnext], ?_⟩
        clear found absent coverage
        grind
      case isFalse hnext =>
        rw [not_and, Option.all_eq_true] at hnext
        refine ⟨by simp [found, hcontains], absent, by grind, by grind, ?_⟩
        clear found absent coverage
        grind

/-! ### Extending the coverage -/

theorem extendStep_eq (overlap : ValidTimeInterval) :
  extendStep (some reached) overlap =
    some (if overlap.Contains reached then overlap.stop else some reached)
  := by
  rw [extendStep, Option.bind_eq_bind, Option.bind_some, ← ite_not, apply_ite some]
  apply if_congr _ rfl rfl
  rw [← contains_cursor_iff, not_or, Bool.not_eq_false]

/-- Where the coverage ends after overlaps, of which each one extends it that contains its end. -/
def reach (overlaps : List ValidTimeInterval) (reached : ValidTime) : ValidTime :=
  overlaps.foldl (fun reached overlap =>
    if overlap.Contains reached then overlap.stop.getD reached else reached) reached

/-- The coverage is extended to an overlap without an end, after which others come. -/
def MeetsEndless (overlaps : List ValidTimeInterval) (reached : ValidTime)
    (after : List ValidTimeInterval) : Prop :=
  ∃ before overlap, overlaps = before ++ overlap :: after ∧ overlap.stop = none ∧
    overlap.start ≤ reach before reached

/-- When passes over the overlaps extend the coverage to one without an end, then first to the last
one. -/
def ReadsPresentEnds (overlaps : List ValidTimeInterval) (reached : ValidTime) : Prop :=
  ∀ n after, MeetsEndless overlaps ((reach overlaps)^[n] reached) after →
    (∀ m < n, ∀ after', ¬ MeetsEndless overlaps ((reach overlaps)^[m] reached) after') →
      after = []

theorem meetsEndless_cons_iff {after : List ValidTimeInterval} :
  MeetsEndless (overlap :: spans) reached after ↔
    overlap.stop = none ∧ overlap.start ≤ reached ∧ after = spans ∨
      MeetsEndless spans (reach [overlap] reached) after
  := by
  constructor
  · rintro ⟨before, endless, heq, hstop, hle⟩
    cases before with
    | nil =>
      obtain ⟨rfl, rfl⟩ := cons_eq_cons.mp heq
      exact Or.inl ⟨hstop, hle, rfl⟩
    | cons first before =>
      obtain ⟨rfl, rfl⟩ := cons_eq_cons.mp heq
      exact Or.inr ⟨before, endless, rfl, hstop, hle⟩
  · rintro (⟨hstop, hle, rfl⟩ | ⟨before, endless, rfl, hstop, hle⟩)
    · exact ⟨[], overlap, rfl, hstop, hle⟩
    · exact ⟨overlap :: before, endless, rfl, hstop, hle⟩

/-- A pass over the overlaps extends the coverage, loses its end with the last overlap, or fails. -/
theorem foldlM_extendStep_cases (spans : List ValidTimeInterval) (reached : ValidTime) :
  (∀ after, ¬ MeetsEndless spans reached after) ∧
      spans.foldlM extendStep (some reached) = some (some (reach spans reached)) ∨
    MeetsEndless spans reached [] ∧ (∀ after, MeetsEndless spans reached after → after = []) ∧
      spans.foldlM extendStep (some reached) = some none ∨
    (∃ after, MeetsEndless spans reached after ∧ after ≠ []) ∧
      spans.foldlM extendStep (some reached) = none
  := by
  induction spans generalizing reached with
  | nil => exact Or.inl ⟨by simp [MeetsEndless], rfl⟩
  | cons overlap spans ih =>
    simp only [meetsEndless_cons_iff]
    rw [foldlM_cons, extendStep_eq, Option.bind_eq_bind, Option.bind_some]
    by_cases hendless : overlap.stop = none ∧ overlap.start ≤ reached
    · have hcontains : overlap.Contains reached := ⟨hendless.2, by simp [hendless.1]⟩
      right
      rw [if_pos hcontains, hendless.1]
      cases spans with
      | nil => exact Or.inl ⟨by simp [hendless], by simp [MeetsEndless], rfl⟩
      | cons next spans => exact Or.inr ⟨⟨next :: spans, by simp [hendless]⟩, rfl⟩
    · have hstep : (if overlap.Contains reached then overlap.stop else some reached) =
          some (reach [overlap] reached) := by
        rw [reach, foldl_cons, foldl_nil, apply_ite some]
        apply ite_congr rfl _ fun _ => rfl
        intro hcontains
        cases hstop : overlap.stop with
        | none => cases hendless ⟨hstop, hcontains.1⟩
        | some e => rfl
      rw [hstep]
      have hreach : reach (overlap :: spans) reached = reach spans (reach [overlap] reached) := rfl
      rw [hreach]
      simpa only [← and_assoc, hendless, false_and, false_or] using ih (reach [overlap] reached)

theorem le_reach (spans : List ValidTimeInterval) (reached : ValidTime) :
  reached ≤ reach spans reached
  := by
  induction spans generalizing reached with
  | nil => apply le_rfl
  | cons overlap spans ih =>
    apply le_trans _ (ih _)
    dsimp only
    split
    case isFalse => apply le_rfl
    case isTrue hcontains =>
      cases hstop : overlap.stop with
      | none => apply le_rfl
      | some e => apply (hcontains.2 e hstop).le

/-- No overlap contains the end of the coverage, if a pass does not extend it. -/
theorem not_contains_of_reach_eq (hmeets : ∀ after, ¬ MeetsEndless spans reached after)
    (hfixed : reach spans reached = reached) :
  ∀ s ∈ spans, ¬ s.Contains reached
  := by
  induction spans with
  | nil => apply forall_mem_nil
  | cons overlap spans ih =>
    have hfirst : reach [overlap] reached = reached := by
      apply le_antisymm _ (le_reach _ _)
      apply le_of_le_of_eq (le_reach spans _) hfixed
    have hrest : reach spans (reach [overlap] reached) = reached := hfixed
    simp only [meetsEndless_cons_iff, hfirst, not_or] at hmeets
    rw [hfirst] at hrest
    apply forall_mem_cons.mpr ⟨_, ih (fun after => (hmeets after).2) hrest⟩
    intro hcontains
    rw [reach, foldl_cons, foldl_nil, if_pos hcontains] at hfirst
    cases hstop : overlap.stop with
    | none => apply (hmeets spans).1 ⟨hstop, hcontains.1, rfl⟩
    | some e =>
      rw [hstop] at hfirst
      apply (hcontains.2 e hstop).ne' hfirst

/-- The passes after the first one are those from where it ends. -/
theorem readsPresentEnds_reach_iff (h : ∀ after, ¬ MeetsEndless spans reached after) :
  ReadsPresentEnds spans (reach spans reached) ↔ ReadsPresentEnds spans reached
  := by
  constructor
  · intro hreads n after hmeets hbefore
    cases n with
    | zero => cases h after hmeets
    | succ n =>
      apply hreads n after hmeets
      intro m hm
      apply hbefore (m + 1) (by omega)
  · intro hreads n after hmeets hbefore
    apply hreads (n + 1) after hmeets
    intro m hm
    cases m with
    | zero => exact h
    | succ m => apply hbefore m (by omega)

/-- The spans which contain an instant from the cursor on do not reach beyond an end, and some span
contains every such instant up to that end. -/
structure CoverageEnd (spans : List ValidTimeInterval) (cursor : ValidTime)
    (stop : Option ValidTime) : Prop where
  within : ∀ t, cursor ≤ t → (∀ e ∈ stop, t ≤ e) → ∀ s ∈ spans, s.Contains t →
    ∀ e ∈ stop, ∃ e' ∈ s.stop, e' ≤ e
  covered : ∀ t, cursor ≤ t → (∀ e ∈ stop, t < e) → ∃ s ∈ spans, s.Contains t

/-- The coverage has an end after an instant, or it has none. -/
def ExtendedBeyond (stop : Option ValidTime) (reached : ValidTime) (extended : Option ValidTime) :
    Prop :=
  extended = none ∧ stop = none ∨ ∃ last, extended = some last ∧ reached < last ∧ ∀ e ∈ stop, last ≤ e

/-- The end of an overlap which contains what was reached is further on. -/
theorem CoverageEnd.extendedBeyond (h : CoverageEnd spans cursor stop) (hoverlap : overlap ∈ spans)
    (hcursor : cursor ≤ reached) (hreached : ∀ e ∈ stop, reached ≤ e)
    (hcontains : overlap.Contains reached) :
  ExtendedBeyond stop reached overlap.stop
  := by
  have hwithin := h.within reached hcursor hreached overlap hoverlap hcontains
  have hstop := hcontains.2
  cases hend : overlap.stop with
  | none =>
    refine Or.inl ⟨rfl, ?_⟩
    rw [hend] at hwithin
    simpa [Option.eq_none_iff_forall_not_mem] using hwithin
  | some e =>
    refine Or.inr ⟨e, rfl, hstop e hend, ?_⟩
    simpa [hend] using hwithin

/-- Overlaps do not extend the coverage beyond its end. -/
theorem CoverageEnd.reach_le (h : CoverageEnd spans cursor stop) {seen : List ValidTimeInterval}
    (hcursor : cursor ≤ reached) (hreached : ∀ e ∈ stop, reached ≤ e)
    (hseen : ∀ s ∈ seen, s ∈ spans) :
  ∀ e ∈ stop, reach seen reached ≤ e
  := by
  induction seen generalizing reached with
  | nil => exact hreached
  | cons overlap seen ih =>
    obtain ⟨hoverlap, hseen⟩ := forall_mem_cons.mp hseen
    apply ih (le_trans hcursor (le_reach [overlap] reached)) _ hseen
    rw [reach, foldl_cons, foldl_nil]
    split
    case isFalse => exact hreached
    case isTrue hcontains =>
      obtain ⟨hnone, -⟩ | ⟨last, hsome, -, hwithin⟩ :=
        h.extendedBeyond hoverlap hcursor hreached hcontains
      · rw [hnone]
        exact hreached
      · rw [hsome]
        exact hwithin

/-- The coverage is extended to an overlap without an end only if it has none. -/
theorem CoverageEnd.stop_eq_none (h : CoverageEnd spans cursor stop) (hcursor : cursor ≤ reached)
    (hreached : ∀ e ∈ stop, reached ≤ e) {after : List ValidTimeInterval}
    (hmeets : MeetsEndless spans reached after) :
  stop = none
  := by
  obtain ⟨before, overlap, rfl, hendless, hle⟩ := hmeets
  have hwithin := h.within _ (le_trans hcursor (le_reach before reached))
    (h.reach_le hcursor hreached fun s hs => by simp [hs]) overlap (by simp)
    ⟨hle, by simp [hendless]⟩
  simpa [hendless, Option.eq_none_iff_forall_not_mem] using hwithin

/-- The coverage is extended to its end if the fuel lasts and the end is present when it is read. -/
theorem CoverageEnd.extendCoverage_cases (h : CoverageEnd spans cursor stop)
    {extended : Option ValidTime} (hcursor : cursor ≤ reached)
    (hbeyond : ExtendedBeyond stop reached extended) :
  extendCoverage spans fuel extended = some stop ∧
      (stop = none → ∀ e ∈ extended, ReadsPresentEnds spans e) ∨
    extendCoverage spans fuel extended = none ∧ (fuel + 1 + reached.toNat ≤ 2 ^ 64 ∨
      ¬ (stop = none → ∀ e ∈ extended, ReadsPresentEnds spans e))
  := by
  induction fuel generalizing reached extended with
  | zero =>
    have hsize := reached.toNat_lt
    exact Or.inr ⟨rfl, Or.inl (by omega)⟩
  | succ fuel ih =>
    obtain ⟨rfl, rfl⟩ | ⟨last, rfl, hlt, hlast⟩ := hbeyond
    · exact Or.inl ⟨rfl, nofun⟩
    have hcursor' := le_trans hcursor hlt.le
    have hlt' := UInt64.lt_iff_toNat_lt.mp hlt
    have hsize := last.toNat_lt
    simp only [Option.mem_some_iff, forall_eq']
    rw [extendCoverage]
    obtain ⟨hmeets, hpass⟩ | ⟨hmeets, hall, hpass⟩ | ⟨⟨after, hmeets, hne⟩, hpass⟩ :=
      foldlM_extendStep_cases spans last
    · rw [hpass, ← readsPresentEnds_reach_iff hmeets, Option.bind_eq_bind, Option.bind_some]
      split
      case isTrue hfixed =>
        have hfixed := Option.some.inj hfixed
        -- no overlap contains what was reached, so it is the end
        have hend : ¬ ∀ e ∈ stop, last < e := by
          intro hlt
          obtain ⟨s, hs, hcontains⟩ := h.covered _ hcursor' hlt
          apply not_contains_of_reach_eq hmeets hfixed s hs hcontains
        left
        cases stop with
        | none => exact absurd nofun hend
        | some e =>
          have heq : last = e := by
            apply le_antisymm (hlast e rfl)
            simpa using hend
          exact ⟨by rw [heq]; rfl, nofun⟩
      case isFalse hne =>
        have hbeyond : ExtendedBeyond stop last (some (reach spans last)) :=
          Or.inr ⟨_, rfl, lt_of_le_of_ne (le_reach _ _) fun heq => hne (congrArg some heq.symm),
            h.reach_le hcursor' hlast fun _ hs => hs⟩
        have ih := ih hcursor' hbeyond
        simp only [Option.mem_some_iff, forall_eq'] at ih
        exact ih.imp_right fun hout => ⟨hout.1, hout.2.imp_left fun hfuel => by omega⟩
    · -- the last overlap has no end
      obtain rfl := h.stop_eq_none hcursor' hlast hmeets
      rw [hpass, Option.bind_eq_bind, Option.bind_some, if_neg (Option.some_ne_none _).symm]
      cases fuel with
      | zero => exact Or.inr ⟨rfl, Or.inl (by omega)⟩
      | succ fuel =>
        refine Or.inl ⟨rfl, fun _ n after hmeets' hbefore => ?_⟩
        cases n with
        | zero => exact hall after hmeets'
        | succ n => cases hbefore 0 (Nat.succ_pos n) [] hmeets
    · -- the end is read after an overlap without one
      refine Or.inr ⟨by rw [hpass]; rfl, Or.inr fun hreads => hne ?_⟩
      apply hreads (h.stop_eq_none hcursor' hlast hmeets) 0 after hmeets nofun

/-! ### The sweep -/

variable {past rest : List ValidTimeInterval} {r : ValidTimeInterval}

/-- The coverage from the start of a span of the union ends with that span. -/
theorem coverageEnd_of_isUnion (h : IsUnion (past ++ r :: rest) spans) :
  CoverageEnd spans r.start r.stop
  := by
  obtain ⟨-, happart, hbefore⟩ := pairwise_append.mp h.apart
  have hafter := (pairwise_cons.mp happart).1
  -- no other span of the union contains an instant up to the end
  have honly (t : ValidTime) (hle : r.start ≤ t) (hend : ∀ e ∈ r.stop, t ≤ e)
      (hcontains : ∃ s ∈ spans, s.Contains t) : r.Contains t := by
    obtain ⟨q, hq, hqt⟩ := (h.contains t).mpr hcontains
    obtain hq | hq := mem_append.mp hq
    · obtain ⟨e, he, hlt⟩ := hbefore q hq r mem_cons_self
      exact absurd (hqt.2 e he) (not_lt.mpr (le_trans (le_of_lt hlt) hle))
    · obtain rfl | hq := mem_cons.mp hq
      · exact hqt
      · obtain ⟨e, he, hlt⟩ := hafter q hq
        exact absurd hqt.1 (not_le.mpr (lt_of_le_of_lt (hend e he) hlt))
  constructor
  · intro t hle hend s hs hcontains e he
    have ht := (honly t hle hend ⟨s, hs, hcontains⟩).2 e he
    by_contra hnot
    have hcontains' : s.Contains e := by
      use le_trans hcontains.1 (le_of_lt ht)
      intro e' he'
      apply lt_of_not_ge
      intro hle'
      apply hnot ⟨e', he', hle'⟩
    have hr := honly e (le_trans hle (le_of_lt ht)) (by simp_all) ⟨s, hs, hcontains'⟩
    apply lt_irrefl e (hr.2 e he)
  · intro t hle hend
    apply (h.contains t).mp ⟨r, by simp, hle, hend⟩

theorem ended_mono (h : ∀ s ∈ past, ∃ e ∈ s.stop, e ≤ cursor) (hle : cursor ≤ reached) :
  ∀ s ∈ past, ∃ e ∈ s.stop, e ≤ reached
  := fun s hs => (h s hs).imp fun _ he => ⟨he.1, le_trans he.2 hle⟩

/-- Before the next span of the union, the probe finds its start. -/
theorem probe_of_lt (h : IsUnion (past ++ rest) spans) (hvalid : ∀ s ∈ spans, s.Valid)
    (hpast : ∀ s ∈ past, ∃ e ∈ s.stop, e ≤ cursor) (hrest : ∀ s ∈ rest, cursor < s.start) :
  (spans.foldl (probeStep cursor) {}).found = false ∧
    (spans.foldl (probeStep cursor) {}).nextStart = rest.head?.map Span.start
  := by
  have hspec := probeSpec cursor spans
  have hlater (t : ValidTime) (hle : cursor ≤ t) (hcontains : ∃ s ∈ spans, s.Contains t) :
      ∃ s ∈ rest, s.Contains t := by
    obtain ⟨q, hq, hqt⟩ := (h.contains t).mpr hcontains
    obtain hq | hq := mem_append.mp hq
    · obtain ⟨e, he, hle'⟩ := hpast q hq
      exact absurd (hqt.2 e he) (not_lt.mpr (le_trans hle' hle))
    · exact ⟨q, hq, hqt⟩
  constructor
  · rw [← Bool.not_eq_true, hspec.found]
    intro hcontains
    obtain ⟨s, hs, hcontains⟩ := hlater cursor le_rfl hcontains
    apply not_le_of_gt (hrest s hs) hcontains.1
  · have hmem (a : ValidTime) (ha : (spans.foldl (probeStep cursor) {}).nextStart = some a) :
        ∃ s ∈ rest, s.start ≤ a := by
      obtain ⟨hlt, s, hs, rfl⟩ := hspec.next a ha
      obtain ⟨q, hq, hcontains⟩ := hlater _ (le_of_lt hlt) ⟨s, hs, (hvalid s hs).contains_start⟩
      exact ⟨q, hq, hcontains.1⟩
    cases rest with
    | nil =>
      apply Option.eq_none_iff_forall_not_mem.mpr
      intro a ha
      obtain ⟨_, hs, -⟩ := hmem a ha
      cases hs
    | cons r rest =>
      obtain ⟨q, hq, hstart⟩ := h.start r (by simp)
      obtain ⟨a, ha, hle⟩ := hspec.next_le q hq (hstart ▸ hrest r mem_cons_self)
      obtain ⟨s, hs, hle'⟩ := hmem a ha
      rw [ha]
      congr 1
      apply le_antisymm (hstart ▸ hle)
      apply le_trans _ hle'
      obtain rfl | hs := mem_cons.mp hs
      · exact le_rfl
      · obtain ⟨e, he, hlt⟩ := (pairwise_cons.mp (pairwise_append.mp h.apart).2.1).1 s hs
        apply le_of_lt (lt_trans (h.valid hvalid r (by simp) e he) hlt)

/-- The end of the coverage at an instant, by the overlaps which contain it: the latest one after the
last overlap without an end. -/
def endAt (overlaps : List ValidTimeInterval) (t : ValidTime) : Option ValidTime :=
  (overlaps.filter fun overlap => overlap.Contains t).foldl
    (fun stop overlap => updateEnd stop overlap.stop) none

theorem coverageEnd_eq_endAt (spans : List ValidTimeInterval) (cursor : ValidTime) :
  (spans.foldl (probeStep cursor) {}).coverageEnd = endAt spans cursor
  := by
  induction spans using reverseRecOn with
  | nil => rfl
  | append_singleton spans overlap ih =>
    rw [foldl_concat, endAt, filter_append, foldl_append, ← endAt, ← ih, probeStep]
    by_cases hcontains : overlap.Contains cursor
    · rw [if_pos (contains_cursor_iff.mpr hcontains)]
      simp [hcontains]
    · rw [if_neg fun h => hcontains (contains_cursor_iff.mp h)]
      split <;> simp [hcontains]

/-- The end of the coverage is present whenever it is read from the start of a span without an
end. -/
def ReadsEndsFrom (overlaps union : List ValidTimeInterval) : Prop :=
  ∀ r ∈ union, r.stop = none → ∀ e ∈ endAt overlaps r.start, ReadsPresentEnds overlaps e

/-- The number of fragments of a left row from a cursor on, by the union of its overlaps. -/
def fragmentCount (kind : JoinKind) (stop : Option ValidTime) (cursor : ValidTime)
    (union : List ValidTimeInterval) : Nat :=
  match kind with
  | .inner => 0
  | .semi => union.length
  | .anti => (gapsFrom stop cursor union).length

variable {kind : JoinKind} {n : Nat}

/-- The gap before a span is counted by an antijoin. -/
theorem fragmentCount_of_lt (hlt : cursor < r.start) (hvalid : r.Valid) :
  (if kind = .anti ∧ cursor < r.start then n + 1 else n) +
      fragmentCount kind stop r.start (r :: rest) =
    n + fragmentCount kind stop cursor (r :: rest)
  := by
  cases kind with
  | inner | semi => rfl
  | anti =>
    simp only [fragmentCount, gapsFrom, hlt]
    cases hstop : r.stop with
    | none => simp
    | some e =>
      have hlt' := hvalid e hstop
      simp [hlt', lt_trans hlt hlt']
      omega

/-- A span is counted by a semijoin. -/
theorem fragmentCount_cons {e : ValidTime} (hstop : r.stop = some e)
    (hlt : r.start < e) :
  (if kind = .semi then n + 1 else n) + fragmentCount kind stop e rest =
    n + fragmentCount kind stop r.start (r :: rest)
  := by
  cases kind <;> simp [fragmentCount, gapsFrom, hstop, hlt]
  omega

/-- The sweep counts the spans of the union, or the gaps between them, if the fuel lasts and the end
of the coverage is present when it is read. -/
theorem countCoverageFragments_cases (h : IsUnion (past ++ rest) spans)
    (hvalid : ∀ s ∈ spans, s.Valid) (hwithin : ∀ s ∈ rest, ∀ e ∈ stop, ∃ e' ∈ s.stop, e' ≤ e)
    (hpast : ∀ s ∈ past, ∃ e ∈ s.stop, e ≤ cursor) (hrest : ∀ s ∈ rest, cursor ≤ s.start) :
  countCoverageFragments kind stop spans fuel cursor n =
      some (n + fragmentCount kind stop cursor rest) ∧ ReadsEndsFrom spans rest ∨
    countCoverageFragments kind stop spans fuel cursor n = none ∧
      (fuel + cursor.toNat ≤ 2 ^ 64 ∨ ¬ ReadsEndsFrom spans rest)
  := by
  have hsize := cursor.toNat_lt
  induction fuel generalizing cursor n past rest with
  | zero => exact Or.inr ⟨rfl, Or.inl (by omega)⟩
  | succ fuel ih =>
    rw [countCoverageFragments]
    dsimp only
    cases rest with
    | nil =>
      obtain ⟨hfound, hnext⟩ := probe_of_lt h hvalid hpast nofun
      rw [hfound, hnext]
      refine Or.inl ⟨?_, nofun⟩
      cases kind <;> simp [fragmentCount, gapsFrom, endsAfter_iff]
      split <;> simp
    | cons r rest =>
      obtain ⟨hr, hlater⟩ := forall_mem_cons.mp hrest
      have hrvalid := h.valid hvalid r (by simp)
      have hafter : ∀ s ∈ rest, ∃ e ∈ r.stop, e < s.start :=
        (pairwise_cons.mp (pairwise_append.mp h.apart).2.1).1
      have hstart : ∀ s ∈ rest, r.start ≤ s.start := by
        intro s hs
        obtain ⟨e, he, hlt⟩ := hafter s hs
        apply le_of_lt (lt_trans (hrvalid e he) hlt)
      obtain hlt | rfl := lt_or_eq_of_le hr
      · -- the cursor moves to the start of the next span
        have hlt' := UInt64.lt_iff_toNat_lt.mp hlt
        obtain ⟨hfound, hnext⟩ := probe_of_lt h hvalid hpast
          (forall_mem_cons.mpr ⟨hlt, fun s hs => lt_of_lt_of_le hlt (hstart s hs)⟩)
        rw [hfound, hnext, ← fragmentCount_of_lt hlt hrvalid]
        obtain hdone | ⟨hout, hwhy⟩ := ih h hwithin
          (ended_mono hpast (le_of_lt hlt)) (forall_mem_cons.mpr ⟨le_rfl, hstart⟩) r.start.toNat_lt
        · exact Or.inl hdone
        · exact Or.inr ⟨hout, hwhy.imp_left (by omega)⟩
      · -- the cursor moves to the end of the span
        have hspec := probeSpec r.start spans
        have hend := coverageEnd_of_isUnion h
        have hfound := hspec.found.mpr (hend.covered _ le_rfl hrvalid)
        obtain ⟨s, hs, hcontains, hstop⟩ := hspec.coverage hfound
        have hbeyond := hend.extendedBeyond hs le_rfl (fun e he => le_of_lt (hrvalid e he)) hcontains
        rw [hfound, ← hstop, Bool.not_true, if_neg Bool.false_ne_true]
        rw [coverageEnd_eq_endAt] at hstop
        obtain ⟨hdone, hreads⟩ | ⟨hout, hwhy⟩ :=
          @CoverageEnd.extendCoverage_cases _ _ _ _ fuel hend _ le_rfl hbeyond
        · rw [hdone]
          cases hend : r.stop with
          | none =>
            obtain rfl : rest = [] := by
              apply eq_nil_iff_forall_not_mem.mpr
              intro q hq
              obtain ⟨e, he, -⟩ := hafter q hq
              rw [hend] at he
              cases he
            refine Or.inl ⟨?_, forall_mem_singleton.mpr fun hnone => hstop ▸ hreads hnone⟩
            cases kind <;> simp [fragmentCount, gapsFrom, hend]
          | some e =>
            have hlt := hrvalid e hend
            have hlt' := UInt64.lt_iff_toNat_lt.mp hlt
            have hended : ∀ q ∈ past ++ [r], ∃ e' ∈ q.stop, e' ≤ e :=
              forall_mem_append.mpr ⟨ended_mono hpast (le_of_lt hlt), by simp [hend]⟩
            have hnext : ∀ q ∈ rest, e < q.start := by simpa [hend] using hafter
            have hskip : ReadsEndsFrom spans (r :: rest) ↔ ReadsEndsFrom spans rest := by
              simp [ReadsEndsFrom, hend]
            rw [← fragmentCount_cons hend hlt, hskip]
            dsimp only
            split
            case isTrue =>
              obtain hdone | ⟨hout, hwhy⟩ := ih (by simpa using h) (forall_mem_cons.mp hwithin).2
                hended (fun q hq => le_of_lt (hnext q hq)) e.toNat_lt
              · exact Or.inl hdone
              · exact Or.inr ⟨hout, hwhy.imp_left (by omega)⟩
            case isFalse hends =>
              -- the left row ends, so there are no more overlaps
              have hover : ∃ e', stop = some e' ∧ e' ≤ e := by simpa [endsAfter_iff] using hends
              obtain ⟨e', he', hle⟩ := hover
              obtain rfl : rest = [] := by
                apply eq_nil_iff_forall_not_mem.mpr
                intro q hq
                obtain ⟨e'', he'', hle'⟩ := hwithin q (mem_cons_of_mem _ hq) e' he'
                have hq' := h.valid hvalid q (by simp [hq]) e'' he''
                apply lt_irrefl e (lt_of_lt_of_le (lt_trans (hnext q hq) hq') (le_trans hle' hle))
              refine Or.inl ⟨?_, nofun⟩
              cases kind <;> simp [fragmentCount, gapsFrom, he', hle]
        · rw [hout]
          refine Or.inr ⟨rfl, hwhy.imp (by omega) fun hnot hreads => hnot fun hnone => ?_⟩
          rw [hstop]
          apply hreads r mem_cons_self hnone

end Relational

end Cedar
