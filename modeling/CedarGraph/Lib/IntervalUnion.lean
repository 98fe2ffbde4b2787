import Mathlib
import CedarGraph.Lib.Timeline

/-!
# Unions of spans

Spans in the order of their starts are merged into spans which do not touch, and which contain the
same instants.  The gaps between such spans contain the other instants of a surrounding span.
-/

universe u

namespace Span

open List

variable {T : Type u} [LinearOrder T]

/-- The union of the spans after `previous`, the last span of the result so far. -/
def normalizeFrom : Span T → List (Span T) → List (Span T)
  | previous, [] => [previous]
  | previous, next :: rest =>
      match previous.stop with
      | none => normalizeFrom previous rest
      | some stop =>
          if next.start ≤ stop then
            match next.stop with
            | some stop' =>
                if stop' ≤ stop then normalizeFrom previous rest
                else normalizeFrom ⟨previous.start, some stop'⟩ rest
            | none => normalizeFrom ⟨previous.start, none⟩ rest
          else
            previous :: normalizeFrom next rest

/-- Spans of which each one is merged into the last span of the result so far, unless it starts
after that ends. -/
def normalize : List (Span T) → List (Span T)
  | [] => []
  | s :: rest => normalizeFrom s rest

/-- The parts of the instants from `cursor` up to `stop` which lie between spans. -/
def gapsFrom (stop : Option T) : T → List (Span T) → List (Span T)
  | cursor, [] => if ∀ e ∈ stop, cursor < e then [⟨cursor, stop⟩] else []
  | cursor, s :: rest =>
      (if cursor < s.start then [⟨cursor, some s.start⟩] else []) ++
        match s.stop with
        | none => []
        | some e => gapsFrom stop (if cursor < e then e else cursor) rest

variable {s p q : Span T} {l : List (Span T)} {t cursor : T} {stop : Option T}

/-! ### The union -/

/-- A span whose end is the later one of two spans which overlap or touch contains the instants of
both. -/
theorem contains_extend_iff
    (hle : p.start ≤ q.start) (htouch : ∀ e ∈ p.stop, q.start ≤ e)
    (hreach : ∀ e ∈ q.stop, ∃ e' ∈ p.stop, e' ≤ e) :
  Contains ⟨p.start, q.stop⟩ t ↔ p.Contains t ∨ q.Contains t
  := by
  constructor
  · rintro ⟨hstart, hstop⟩
    by_cases hbefore : ∀ e ∈ p.stop, t < e
    · exact Or.inl ⟨hstart, hbefore⟩
    · obtain ⟨e, he⟩ := not_forall.mp hbefore
      obtain ⟨he, hlt⟩ := Classical.not_imp.mp he
      exact Or.inr ⟨le_trans (htouch e he) (le_of_not_gt hlt), hstop⟩
  · rintro (⟨hstart, hstop⟩ | ⟨hstart, hstop⟩)
    · use hstart
      intro e he
      obtain ⟨e', he', hle'⟩ := hreach e he
      apply lt_of_lt_of_le (hstop e' he') hle'
    · exact ⟨le_trans hle hstart, hstop⟩

/-- A span contains the instants of a later one which it reaches beyond. -/
theorem contains_absorb_iff (hle : p.start ≤ q.start)
    (hreach : ∀ e ∈ p.stop, ∃ e' ∈ q.stop, e' ≤ e) :
  p.Contains t ↔ p.Contains t ∨ q.Contains t
  := by
  constructor
  · apply Or.inl
  · rintro (hp | ⟨hstart, hstop⟩)
    · apply hp
    · use le_trans hle hstart
      intro e he
      obtain ⟨e', he', hle'⟩ := hreach e he
      apply lt_of_lt_of_le (hstop e' he') hle'

/-- The next span is merged into the last one, or starts after its end. -/
theorem normalizeFrom_cons_cases (hle : p.start ≤ q.start) (l : List (Span T)) :
  (∃ stop, (stop = p.stop ∨ stop = q.stop) ∧
      normalizeFrom p (q :: l) = normalizeFrom ⟨p.start, stop⟩ l ∧
      ∀ t, Contains ⟨p.start, stop⟩ t ↔ p.Contains t ∨ q.Contains t) ∨
    ∃ e ∈ p.stop, e < q.start ∧ normalizeFrom p (q :: l) = p :: normalizeFrom q l
  := by
  rw [normalizeFrom]
  obtain ⟨start, pstop⟩ := p
  obtain ⟨start', qstop⟩ := q
  cases pstop with
  | none => exact Or.inl ⟨none, Or.inl rfl, rfl, fun t => contains_absorb_iff hle nofun⟩
  | some stop =>
    dsimp only
    split
    case isTrue htouch =>
      left
      have htouches : ∀ e ∈ some stop, start' ≤ e := by simpa using htouch
      cases qstop with
      | none => exact ⟨none, Or.inr rfl, rfl, fun t => contains_extend_iff hle htouches nofun⟩
      | some stop' =>
        dsimp only
        split
        case isTrue hstop =>
          refine ⟨some stop, Or.inl rfl, rfl, fun t => contains_absorb_iff hle ?_⟩
          simpa using hstop
        case isFalse hstop =>
          refine ⟨some stop', Or.inr rfl, rfl, fun t => contains_extend_iff hle htouches ?_⟩
          simpa using le_of_not_ge hstop
    case isFalse hafter =>
      exact Or.inr ⟨stop, rfl, lt_of_not_ge hafter, rfl⟩

/-- Spans in order contain an instant at most once. -/
theorem countP_contains_eq (h : l.Pairwise Before) :
  l.countP (fun s => decide (s.Contains t)) = if ∃ s ∈ l, s.Contains t then 1 else 0
  := by
  induction l with
  | nil => simp
  | cons s l ih =>
    obtain ⟨hs, hl⟩ := pairwise_cons.mp h
    rw [countP_cons, ih hl]
    by_cases hst : s.Contains t
    · have hnone : ¬ ∃ q ∈ l, q.Contains t := by
        rintro ⟨q, hq, hqt⟩
        apply lt_irrefl _ ((hs q hq).lt_of_contains hst hqt)
      simp [hnone]
    · simp [hst]

/-- Some spans are the union of others: they do not touch, and contain the same instants. -/
structure IsUnion (m l : List (Span T)) : Prop where
  apart : m.Pairwise fun p q => ∃ e ∈ p.stop, e < q.start
  start : ∀ s ∈ m, ∃ q ∈ l, s.start = q.start
  stop : ∀ s ∈ m, ∃ q ∈ l, s.stop = q.stop
  valid : (∀ s ∈ l, s.Valid) → ∀ s ∈ m, s.Valid
  contains : ∀ t, (∃ s ∈ m, s.Contains t) ↔ ∃ s ∈ l, s.Contains t

variable {m : List (Span T)}

/-- The union of spans of which two were merged. -/
theorem IsUnion.of_merged (hle : p.start ≤ q.start) (hstop : stop = p.stop ∨ stop = q.stop)
    (hmerge : ∀ t, Contains ⟨p.start, stop⟩ t ↔ p.Contains t ∨ q.Contains t)
    (h : IsUnion m (⟨p.start, stop⟩ :: l)) :
  IsUnion m (p :: q :: l)
  where
  apart := h.apart
  start s hs := by
    have hstart := h.start s hs
    grind
  stop s hs := by
    have hend := h.stop s hs
    grind
  valid hvalid := by
    obtain ⟨hp, hrest⟩ := forall_mem_cons.mp hvalid
    obtain ⟨hq, hl⟩ := forall_mem_cons.mp hrest
    apply h.valid (forall_mem_cons.mpr ⟨_, hl⟩)
    obtain rfl | rfl := hstop
    · apply hp
    · exact fun e he => lt_of_le_of_lt hle (hq e he)
  contains t := by simp only [h.contains, exists_mem_cons_iff, hmerge, or_assoc]

/-- The union of spans after another one. -/
theorem IsUnion.cons {e : T} (he : e ∈ p.stop) (hlater : ∀ q ∈ l, e < q.start) (h : IsUnion m l) :
  IsUnion (p :: m) (p :: l)
  where
  apart := by
    apply pairwise_cons.mpr ⟨_, h.apart⟩
    intro s hs
    obtain ⟨q, hq, hstart⟩ := h.start s hs
    exact ⟨e, he, hstart ▸ hlater q hq⟩
  start := by
    rintro s (_ | ⟨_, hs⟩)
    · exact ⟨p, mem_cons_self, rfl⟩
    · apply exists_mem_cons_of_exists (h.start s hs)
  stop := by
    rintro s (_ | ⟨_, hs⟩)
    · exact ⟨p, mem_cons_self, rfl⟩
    · apply exists_mem_cons_of_exists (h.stop s hs)
  valid hvalid := by
    obtain ⟨hp, hl⟩ := forall_mem_cons.mp hvalid
    apply forall_mem_cons.mpr ⟨hp, h.valid hl⟩
  contains t := by simp only [exists_mem_cons_iff, h.contains]

theorem isUnion_normalizeFrom (hsorted : (p :: l).Pairwise fun p q => p.start ≤ q.start) :
  IsUnion (normalizeFrom p l) (p :: l)
  := by
  induction l generalizing p with
  | nil => exact ⟨pairwise_singleton _ _, by simp [normalizeFrom], by simp [normalizeFrom],
      fun h => h, fun _ => Iff.rfl⟩
  | cons q l ih =>
    obtain ⟨hhead, htail⟩ := pairwise_cons.mp hsorted
    have hq := hhead q mem_cons_self
    obtain ⟨stop, hstop, heq, hmerge⟩ | ⟨e, he, hlt, heq⟩ := normalizeFrom_cons_cases hq l
    · rw [heq]
      apply IsUnion.of_merged hq hstop hmerge
      apply ih
      apply pairwise_cons.mpr
      use (forall_mem_cons.mp hhead).2, (pairwise_cons.mp htail).2
    · rw [heq]
      apply (ih htail).cons he
      intro r hr
      obtain rfl | hr := mem_cons.mp hr
      · apply hlt
      · apply lt_of_lt_of_le hlt ((pairwise_cons.mp htail).1 r hr)

/-- Spans in the order of their starts are normalized to their union. -/
theorem isUnion_normalize (hsorted : l.Pairwise fun p q => p.start ≤ q.start) :
  IsUnion (normalize l) l
  := by
  cases l with
  | nil => exact ⟨.nil, nofun, nofun, fun h => h, fun _ => Iff.rfl⟩
  | cons p l => apply isUnion_normalizeFrom hsorted

theorem IsUnion.congr {l' : List (Span T)} (h : IsUnion m l) (hl : ∀ s, s ∈ l ↔ s ∈ l') :
  IsUnion m l'
  := by
  obtain ⟨apart, start, stop, valid, contains⟩ := h
  simp only [hl] at start stop valid contains
  exact ⟨apart, start, stop, valid, contains⟩

theorem IsUnion.pairwise (h : IsUnion m l) :
  m.Pairwise Before
  := h.apart.imp fun ⟨e, he, hlt⟩ => ⟨e, he, le_of_lt hlt⟩

/-- The union contains the instants of the spans once. -/
theorem IsUnion.countP (h : IsUnion m l) :
  m.countP (fun s => decide (s.Contains t)) = if ∃ s ∈ l, s.Contains t then 1 else 0
  := by
  rw [countP_contains_eq h.pairwise]
  simp only [h.contains]

/-! ### The gaps -/

theorem valid_of_mem_gapsFrom (hs : s ∈ gapsFrom stop cursor l) :
  s.Valid
  := by
  induction l generalizing cursor with
  | nil =>
    rw [gapsFrom] at hs
    split at hs
    case isTrue h =>
      rw [mem_singleton.mp hs]
      apply h
    case isFalse => cases hs
  | cons p l ih =>
    obtain hs | hs := mem_append.mp hs
    · split at hs
      case isTrue h =>
        rw [mem_singleton.mp hs]
        intro e he
        rw [← Option.some.inj he]
        apply h
      case isFalse => cases hs
    · split at hs
      · cases hs
      · apply ih hs

theorem countP_gap {stop : T} :
  (if cursor < stop then [(⟨cursor, some stop⟩ : Span T)] else []).countP
      (fun s => decide (s.Contains t)) =
    if cursor ≤ t ∧ t < stop then 1 else 0
  := by
  split
  case isTrue => simp [Contains]
  case isFalse h =>
    rw [countP_nil, if_neg]
    rintro ⟨hle, hlt⟩
    apply h (lt_of_le_of_lt hle hlt)

/-- The gaps contain, once, the instants from the cursor up to the end which no span contains. -/
theorem countP_gapsFrom (hordered : l.Pairwise Before) (hvalid : ∀ s ∈ l, s.Valid)
    (hwithin : ∀ s ∈ l, ∀ e ∈ stop, ∃ e' ∈ s.stop, e' ≤ e) :
  (gapsFrom stop cursor l).countP (fun s => decide (s.Contains t)) =
    if cursor ≤ t ∧ (∀ e ∈ stop, t < e) ∧ ∀ s ∈ l, ¬ s.Contains t then 1 else 0
  := by
  induction l generalizing cursor with
  | nil =>
    rw [gapsFrom]
    split
    case isTrue h => simp [Contains]
    case isFalse h =>
      rw [countP_nil, if_neg]
      rintro ⟨hle, hlt, -⟩
      apply h
      intro e he
      apply lt_of_le_of_lt hle (hlt e he)
  | cons s l ih =>
    obtain ⟨hs, hl⟩ := pairwise_cons.mp hordered
    obtain ⟨hsvalid, hvalid⟩ := forall_mem_cons.mp hvalid
    obtain ⟨hswithin, hwithin⟩ := forall_mem_cons.mp hwithin
    have ih := fun cursor => @ih cursor hl hvalid hwithin
    rw [gapsFrom, countP_append, countP_gap]
    obtain hlt | hge := lt_or_ge t s.start
    · -- before the span there is only the gap up to its start
      have hrest : (match s.stop with
          | none => []
          | some e => gapsFrom stop (if cursor < e then e else cursor) l).countP
            (fun s : Span T => decide (s.Contains t)) = 0 := by
        cases hstop : s.stop with
        | none => rfl
        | some e =>
          have hlater : t < e := lt_trans hlt (hsvalid e hstop)
          rw [ih, if_neg]
          rintro ⟨hle, -⟩
          split at hle
          · apply not_le_of_gt hlater hle
          case isFalse hcursor =>
            apply not_le_of_gt (lt_of_lt_of_le hlater (le_of_not_gt hcursor)) hle
      have hstop : ∀ e ∈ stop, t < e := by
        intro e he
        obtain ⟨e', he', hle⟩ := hswithin e he
        apply lt_trans hlt (lt_of_lt_of_le (hsvalid e' he') hle)
      have hnone : ∀ r ∈ s :: l, ¬ r.Contains t := by
        intro r hr hcontains
        apply not_le_of_gt hlt
        obtain rfl | hr := mem_cons.mp hr
        · apply hcontains.1
        · apply le_of_lt (lt_of_lt_of_le ((hs r hr).start_lt hsvalid) hcontains.1)
      rw [hrest]
      apply if_congr _ rfl rfl
      constructor
      · rintro ⟨hle, -⟩
        exact ⟨hle, hstop, hnone⟩
      · rintro ⟨hle, -⟩
        exact ⟨hle, hlt⟩
    · rw [if_neg fun h => not_le_of_gt h.2 hge, zero_add]
      cases hstop : s.stop with
      | none =>
        have hcontains : s.Contains t := ⟨hge, by simp [hstop]⟩
        rw [countP_nil, if_neg]
        rintro ⟨-, -, hnone⟩
        apply hnone s mem_cons_self hcontains
      | some e =>
        have hcontains : s.Contains t ↔ t < e := by
          simp [Contains, hge, hstop]
        have hcursor : (if cursor < e then e else cursor) ≤ t ↔ cursor ≤ t ∧ e ≤ t := by
          split
          case isTrue h => exact ⟨fun hle => ⟨le_trans (le_of_lt h) hle, hle⟩, And.right⟩
          case isFalse h => exact ⟨fun hle => ⟨hle, le_trans (le_of_not_gt h) hle⟩, And.left⟩
        rw [ih]
        apply if_congr _ rfl rfl
        rw [forall_mem_cons, hcontains, not_lt]
        tauto

end Span
