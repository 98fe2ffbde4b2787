import Mathlib

/-!
# Timelines

A `Span` is a half-open interval of a linear order, possibly unbounded above, and a `Piece`
is a span on which a value holds.  A list of boundaries, each of which sets or clears a
value from its time on, is swept into pieces by `sweep`; `coalesce` then merges a piece into
its predecessor when the two touch and carry equal values.

Equality of values is a boolean partial equivalence, so a value need not equal itself.
`Agree` is the least equivalence containing it.

The main results concern `timeline`, which is `coalesce` after `sweep`.  Its pieces are laid
out in order, no two consecutive ones can be merged, at every instant they show the value set
by the governing boundary, and they start exactly at the boundaries which change the value.
A list of pieces laid out in order is determined by its starts and the instants it covers.
-/

open List

universe u v w

/-- A half-open interval `[start, stop)`, unbounded above when `stop` is absent. -/
structure Span (T : Type u) where
  /-- The least instant of the span. -/
  start : T
  /-- The first instant after the span. -/
  stop : Option T
  deriving DecidableEq

namespace Span

variable {T : Type u} [LinearOrder T] {r s : Span T} {t t' : T}

/-- The instant `t` lies in the span. -/
def Contains (s : Span T) (t : T) : Prop :=
  s.start ≤ t ∧ ∀ e ∈ s.stop, t < e

instance (s : Span T) (t : T) : Decidable (s.Contains t) :=
  inferInstanceAs (Decidable (_ ∧ _))

/-- The span is not empty. -/
def Valid (s : Span T) : Prop :=
  ∀ e ∈ s.stop, s.start < e

instance (s : Span T) : Decidable s.Valid :=
  inferInstanceAs (Decidable (∀ e ∈ s.stop, s.start < e))

/-- The first span ends no later than the second one starts. -/
def Before (r s : Span T) : Prop :=
  ∃ e ∈ r.stop, e ≤ s.start

/-- The first span ends where the second one starts. -/
def Meets (r s : Span T) : Prop :=
  r.stop = some s.start

instance (r s : Span T) : Decidable (r.Meets s) :=
  inferInstanceAs (Decidable (_ = _))

/-- A valid span contains its start. -/
theorem Valid.contains_start (h : s.Valid) :
  s.Contains s.start
  := ⟨le_refl _, h⟩

/-- The instants of a span are earlier than those of a span after it. -/
theorem Before.lt_of_contains (h : r.Before s) (ht : r.Contains t) (ht' : s.Contains t') :
  t < t'
  := by
  obtain ⟨e, he, hes⟩ := h
  exact lt_of_lt_of_le (ht.2 e he) (le_trans hes ht'.1)

/-- A valid span starts earlier than a span after it. -/
theorem Before.start_lt (h : r.Before s) (hr : r.Valid) :
  r.start < s.start
  := by
  obtain ⟨e, he, hes⟩ := h
  exact lt_of_lt_of_le (hr e he) hes

/-- A span containing an instant contains every earlier instant from its start on. -/
theorem Contains.of_le (h : s.Contains t) (ht' : s.start ≤ t') (hle : t' ≤ t) :
  s.Contains t'
  := ⟨ht', fun e he => lt_of_le_of_lt hle (h.2 e he)⟩

/-- A span which has started, and does not contain an instant, has ended. -/
theorem exists_stop_le (h : ¬ s.Contains t) (hle : s.start ≤ t) :
  ∃ e, s.stop = some e ∧ e ≤ t
  := by
  by_contra hnone
  push Not at hnone
  exact h ⟨hle, hnone⟩

/-- The span from the start of `r` to the end of `s`, where `r` meets `s`, contains the
instants of the two. -/
theorem contains_merge_iff
    (hr : r.Valid) (hs : s.Valid) (h : r.Meets s) :
  Contains ⟨r.start, s.stop⟩ t ↔ r.Contains t ∨ s.Contains t
  := by
  have hrs : r.start < s.start := hr _ h
  constructor
  · rintro ⟨hstart, hstop⟩
    obtain hts | hst := lt_or_ge t s.start
    · exact Or.inl ⟨hstart, fun e he => Option.mem_unique he h ▸ hts⟩
    · exact Or.inr ⟨hst, hstop⟩
  · rintro (⟨hstart, hstop⟩ | ⟨hstart, hstop⟩)
    · exact ⟨hstart, fun e he => lt_trans (hstop _ h) (hs e he)⟩
    · exact ⟨le_trans (le_of_lt hrs) hstart, hstop⟩

end Span

/-- A span with the value that holds on it. -/
structure Piece (T : Type u) (V : Type v) where
  /-- The instants at which the value holds. -/
  interval : Span T
  /-- The value. -/
  value : V
  deriving DecidableEq

/-! ### Agreement of values -/

section Agree

variable {V : Type v} [BEq V]

/-- The values are the same, or are equal according to their boolean equality. -/
def Agree (x y : V) : Prop :=
  x = y ∨ x == y

theorem Agree.refl (x : V) :
  Agree x x
  := Or.inl rfl

theorem Agree.of_beq {x y : V} (h : x == y) :
  Agree x y
  := Or.inr h

variable [PartialEquivBEq V] {x y z : V}

theorem Agree.symm (h : Agree x y) :
  Agree y x
  := by
  obtain rfl | h := h
  · apply Agree.refl
  · exact Or.inr (BEq.symm h)

theorem Agree.trans (h : Agree x y) (h' : Agree y z) :
  Agree x z
  := by
  obtain rfl | h := h
  · exact h'
  · obtain rfl | h' := h'
    · exact Or.inr h
    · exact Or.inr (BEq.trans h h')

end Agree

namespace Timeline

/-! ### Pieces laid out in order -/

section Laid

variable {T : Type u} {V : Type v} [LinearOrder T] {l l' : List (Piece T V)} {p q : Piece T V}

/-- The pieces of the list are not empty, and each one ends before the next one starts. -/
structure Laid (l : List (Piece T V)) : Prop where
  /-- No piece is empty. -/
  valid : ∀ p ∈ l, p.interval.Valid
  /-- The pieces are in order and disjoint. -/
  ordered : l.Pairwise fun p q => p.interval.Before q.interval

theorem laid_nil :
  Laid ([] : List (Piece T V))
  := ⟨fun _ h => absurd h not_mem_nil, List.Pairwise.nil⟩

theorem laid_cons :
  Laid (p :: l) ↔ p.interval.Valid ∧ (∀ q ∈ l, p.interval.Before q.interval) ∧ Laid l
  := by
  constructor
  · rintro ⟨hvalid, hordered⟩
    obtain ⟨hp, hl⟩ := pairwise_cons.mp hordered
    obtain ⟨hvp, hvl⟩ := forall_mem_cons.mp hvalid
    exact ⟨hvp, hp, hvl, hl⟩
  · rintro ⟨hvp, hp, hvl, hl⟩
    exact ⟨forall_mem_cons.mpr ⟨hvp, hvl⟩, pairwise_cons.mpr ⟨hp, hl⟩⟩

/-- Of two pieces laid out in order, one precedes the other, unless they are the same. -/
theorem Laid.trichotomy (h : Laid l) (hp : p ∈ l) (hq : q ∈ l) :
  p = q ∨ p.interval.Before q.interval ∨ q.interval.Before p.interval
  := by
  induction l with
  | nil => cases hp
  | cons r l ih =>
    obtain ⟨-, hr, hl⟩ := laid_cons.mp h
    obtain rfl | hp' := mem_cons.mp hp
    · obtain rfl | hq' := mem_cons.mp hq
      · exact Or.inl rfl
      · exact Or.inr (Or.inl (hr q hq'))
    · obtain rfl | hq' := mem_cons.mp hq
      · exact Or.inr (Or.inr (hr p hp'))
      · exact ih hl hp' hq'

/-- An instant lies in at most one of the pieces laid out in order. -/
theorem Laid.eq_of_contains
    (h : Laid l) (hp : p ∈ l) (hq : q ∈ l)
    {t : T} (hpt : p.interval.Contains t) (hqt : q.interval.Contains t) :
  p = q
  := by
  obtain heq | hpq | hqp := h.trichotomy hp hq
  · exact heq
  · exact absurd (hpq.lt_of_contains hpt hqt) (lt_irrefl t)
  · exact absurd (hqp.lt_of_contains hqt hpt) (lt_irrefl t)

/-- A piece is the only one which contains an instant. -/
theorem Laid.filter_contains_eq (h : Laid l) (hp : p ∈ l) {t : T} (ht : p.interval.Contains t) :
  (l.filter fun q => decide (q.interval.Contains t)) = [p]
  := by
  have hnodup : l.Nodup := by
    apply h.ordered.imp_of_mem
    intro q r hq hr hbefore heq
    rw [heq] at hbefore
    apply lt_irrefl _ (hbefore.start_lt (h.valid r hr))
  have heq : ∀ q ∈ l, decide (q.interval.Contains t) = true ↔ q = p := by
    intro q hq
    rw [decide_eq_true_eq]
    constructor
    · intro hqt
      apply h.eq_of_contains hq hp hqt ht
    · rintro rfl
      apply ht
  apply perm_singleton.mp
  apply (perm_ext_iff_of_nodup (hnodup.filter _) (nodup_singleton p)).mpr
  intro q
  rw [mem_filter, mem_singleton]
  constructor
  · rintro ⟨hq, hqt⟩
    apply (heq q hq).mp hqt
  · rintro rfl
    use hp
    apply (heq q hp).mpr rfl

/-- No piece ends where the first one starts. -/
theorem Laid.not_meets_head (h : Laid (p :: l)) (hq : q ∈ p :: l) :
  ¬ q.interval.Meets p.interval
  := by
  intro hmeets
  have hlt := h.valid q hq _ hmeets
  obtain ⟨hp, hpl, -⟩ := laid_cons.mp h
  obtain rfl | hq := mem_cons.mp hq
  · exact lt_irrefl _ hlt
  · exact absurd ((hpl q hq).start_lt hp) (lt_asymm hlt)

/-- The pieces `p`, `q` of a list laid out in order may be replaced by one piece from the start
of `p` to the end of `q`. -/
theorem Laid.merge
    (h : Laid (p :: q :: l)) {x : V} :
  Laid (⟨⟨p.interval.start, q.interval.stop⟩, x⟩ :: l)
  := by
  obtain ⟨hp, hpq, hql⟩ := laid_cons.mp h
  obtain ⟨hq, hqr, hl⟩ := laid_cons.mp hql
  refine laid_cons.mpr ⟨?_, hqr, hl⟩
  intro e he
  exact lt_trans ((hpq q mem_cons_self).start_lt hp) (hq e he)

end Laid

/-! ### Coalescing -/

section Coalesce

variable {T : Type u} {V : Type v} [LinearOrder T] [BEq V]

/-- The first piece can absorb the second one. -/
def Mergeable (p q : Piece T V) : Prop :=
  p.value == q.value ∧ p.interval.Meets q.interval

instance (p q : Piece T V) : Decidable (Mergeable p q) :=
  inferInstanceAs (Decidable (_ ∧ _))

/-- Coalescing of the pieces after `current`, the last piece of the result so far. -/
def coalesceFrom : Piece T V → List (Piece T V) → List (Piece T V)
  | current, [] => [current]
  | current, next :: rest =>
      if Mergeable current next then
        coalesceFrom ⟨⟨current.interval.start, next.interval.stop⟩, current.value⟩ rest
      else
        current :: coalesceFrom next rest

/-- Pieces in which each one is merged into the last piece of the result so far, when the two
touch and carry equal values. -/
def coalesce : List (Piece T V) → List (Piece T V)
  | [] => []
  | p :: rest => coalesceFrom p rest

variable {p q : Piece T V} {l : List (Piece T V)} {t a : T} {x : V}

/-- The result of coalescing starts with the current piece, possibly extended. -/
theorem coalesceFrom_eq_cons :
    ∀ (p : Piece T V) (l : List (Piece T V)),
      ∃ e l', coalesceFrom p l = ⟨⟨p.interval.start, e⟩, p.value⟩ :: l'
  | p, [] => ⟨p.interval.stop, [], rfl⟩
  | p, q :: l => by
      rw [coalesceFrom]
      split
      · exact coalesceFrom_eq_cons ⟨⟨p.interval.start, q.interval.stop⟩, p.value⟩ l
      · exact ⟨p.interval.stop, coalesceFrom q l, rfl⟩

/-- No piece of the result can absorb the next one. -/
theorem coalesceFrom_maximal :
    ∀ (p : Piece T V) (l : List (Piece T V)),
      (coalesceFrom p l).IsChain fun p q => ¬ Mergeable p q
  | p, [] => List.IsChain.singleton p
  | p, q :: l => by
      rw [coalesceFrom]
      split
      · apply coalesceFrom_maximal
      case isFalse h =>
        obtain ⟨e, l', heq⟩ := coalesceFrom_eq_cons q l
        have hq := coalesceFrom_maximal q l
        rw [heq] at hq ⊢
        exact List.IsChain.cons_cons h hq

theorem start_le_of_mem_coalesceFrom :
    ∀ {p q : Piece T V} {l : List (Piece T V)}, Laid (p :: l) → q ∈ coalesceFrom p l →
      p.interval.start ≤ q.interval.start
  | p, r, [], _, hr => by
      rw [mem_singleton.mp hr]
  | p, r, q :: l, h, hr => by
      rw [coalesceFrom] at hr
      split at hr
      · have hle := start_le_of_mem_coalesceFrom h.merge hr
        exact hle
      · obtain rfl | hr := mem_cons.mp hr
        · apply le_refl
        · obtain ⟨hp, hpq, hql⟩ := laid_cons.mp h
          have hle := start_le_of_mem_coalesceFrom hql hr
          exact le_trans (le_of_lt ((hpq q mem_cons_self).start_lt hp)) hle

/-- Coalescing keeps pieces laid out in order. -/
theorem laid_coalesceFrom :
    ∀ {p : Piece T V} {l : List (Piece T V)}, Laid (p :: l) → Laid (coalesceFrom p l)
  | p, [], h => h
  | p, q :: l, h => by
      rw [coalesceFrom]
      split
      · exact laid_coalesceFrom h.merge
      · obtain ⟨hp, hpq, hql⟩ := laid_cons.mp h
        refine laid_cons.mpr ⟨hp, ?_, laid_coalesceFrom hql⟩
        intro r hr
        obtain ⟨e, he, heq⟩ := hpq q mem_cons_self
        exact ⟨e, he, le_trans heq (start_le_of_mem_coalesceFrom hql hr)⟩

theorem laid_coalesce (h : Laid l) :
  Laid (coalesce l)
  := by
  cases l with
  | nil => exact h
  | cons p l => exact laid_coalesceFrom h

theorem coalesce_maximal (l : List (Piece T V)) :
  (coalesce l).IsChain fun p q => ¬ Mergeable p q
  := by
  cases l with
  | nil => exact List.IsChain.nil
  | cons p l => exact coalesceFrom_maximal p l

/-- Pieces in order of which none can absorb the next one cannot absorb each other at all. -/
theorem Laid.not_mergeable
    (h : Laid l) (hmax : l.IsChain fun p q => ¬ Mergeable p q) (hp : p ∈ l) (hq : q ∈ l) :
  ¬ Mergeable p q
  := by
  induction l with
  | nil => cases hp
  | cons r l ih =>
    obtain ⟨hr, hrl, hl⟩ := laid_cons.mp h
    obtain rfl | hql := mem_cons.mp hq
    · intro hm
      apply h.not_meets_head hp hm.2
    · obtain rfl | hpl := mem_cons.mp hp
      · cases l with
        | nil => cases hql
        | cons s l =>
          obtain ⟨hps, hsl⟩ := isChain_cons_cons.mp hmax
          obtain rfl | hqs := mem_cons.mp hql
          · apply hps
          · -- the next piece lies between the two
            intro hm
            obtain ⟨e, he, hes⟩ := hrl s mem_cons_self
            obtain ⟨hs, hsq, -⟩ := laid_cons.mp hl
            rw [Option.mem_unique he hm.2] at hes
            apply absurd ((hsq q hqs).start_lt hs) (not_lt_of_ge hes)
      · apply ih hl hmax.tail hpl hql

variable [PartialEquivBEq V]

/-- Coalescing keeps, at every instant, the value up to agreement. -/
theorem exists_mem_coalesceFrom_iff :
    ∀ {p : Piece T V} {l : List (Piece T V)}, Laid (p :: l) →
      ((∃ q ∈ coalesceFrom p l, q.interval.Contains t ∧ Agree q.value x) ↔
        ∃ q ∈ p :: l, q.interval.Contains t ∧ Agree q.value x)
  | p, [], _ => Iff.rfl
  | p, q :: l, h => by
      obtain ⟨hp, hpq, hql⟩ := laid_cons.mp h
      rw [coalesceFrom]
      split
      case isTrue hm =>
        have hspan := Span.contains_merge_iff (t := t) hp (laid_cons.mp hql).1 hm.2
        have hagree : Agree p.value x ↔ Agree q.value x :=
          ⟨(Agree.of_beq hm.1).symm.trans, (Agree.of_beq hm.1).trans⟩
        rw [exists_mem_coalesceFrom_iff h.merge]
        simp only [exists_mem_cons_iff, hspan, hagree, or_and_right, or_assoc]
      case isFalse =>
        rw [exists_mem_cons_iff, exists_mem_cons_iff, exists_mem_coalesceFrom_iff hql]

/-- Coalescing keeps, at every instant, the value up to agreement. -/
theorem exists_mem_coalesce_iff (h : Laid l) :
  (∃ p ∈ coalesce l, p.interval.Contains t ∧ Agree p.value x) ↔
    ∃ p ∈ l, p.interval.Contains t ∧ Agree p.value x
  := by
  cases l with
  | nil => rfl
  | cons p l => exact exists_mem_coalesceFrom_iff h

/-- Coalescing keeps the instants. -/
theorem exists_contains_coalesce_iff (h : Laid l) :
  (∃ p ∈ coalesce l, p.interval.Contains t) ↔ ∃ p ∈ l, p.interval.Contains t
  := by
  constructor
  · rintro ⟨p, hp, ht⟩
    obtain ⟨q, hq, hqt, -⟩ := (exists_mem_coalesce_iff h).mp ⟨p, hp, ht, Agree.refl p.value⟩
    exact ⟨q, hq, hqt⟩
  · rintro ⟨p, hp, ht⟩
    obtain ⟨q, hq, hqt, -⟩ := (exists_mem_coalesce_iff h).mpr ⟨p, hp, ht, Agree.refl p.value⟩
    exact ⟨q, hq, hqt⟩

end Coalesce

/-! ### Boundaries -/

section Boundaries

variable {T : Type u} {V : Type v} {β : Type w} [LinearOrder T] (time : β → T)

/-- The boundary `b` is the latest one of the list at or before the instant `t`. -/
structure Governs (l : List β) (t : T) (b : β) : Prop where
  /-- The boundary is one of the list. -/
  mem : b ∈ l
  /-- It is not later than the instant. -/
  le : time b ≤ t
  /-- No other boundary at or before the instant is later. -/
  latest : ∀ c ∈ l, time c ≤ t → time c ≤ time b

/-- The boundaries are in strictly increasing order of time. -/
def Increasing (l : List β) : Prop :=
  l.Pairwise fun b c => time b < time c

/-- The state of the boundaries at an instant is present from each boundary that sets a value up
to the next boundary. -/
def sweep (state : β → Option V) : List β → List (Piece T V)
  | [] => []
  | b :: rest =>
      match state b with
      | some x => ⟨⟨time b, rest.head?.map time⟩, x⟩ :: sweep state rest
      | none => sweep state rest

variable {time} {state : β → Option V} {l : List β} {b c : β} {t : T}

/-- In an increasing list, the times after the head are bounded below by the time of the next
boundary. -/
theorem Increasing.lt_head_iff (h : Increasing time l) :
  (∀ e ∈ l.head?.map time, t < e) ↔ ∀ b ∈ l, t < time b
  := by
  cases l with
  | nil => simp
  | cons b l =>
    obtain ⟨hb, -⟩ := pairwise_cons.mp h
    simp only [head?_cons, Option.map_some, Option.mem_some_iff, forall_eq',
      forall_mem_cons, iff_self_and]
    intro htb c hc
    exact lt_trans htb (hb c hc)

/-- The head governs the instants from its time up to the next boundary, and the boundaries after
it govern as they do without it. -/
theorem Increasing.governs_cons_iff (h : Increasing time (b :: l)) :
  Governs time (b :: l) t c ↔
    (c = b ∧ time b ≤ t ∧ ∀ d ∈ l, t < time d) ∨ Governs time l t c
  := by
  obtain ⟨hb, hl⟩ := pairwise_cons.mp h
  constructor
  · rintro ⟨hmem, hle, hlatest⟩
    obtain rfl | hc := mem_cons.mp hmem
    · refine Or.inl ⟨rfl, hle, fun d hd => lt_of_not_ge fun hdt => ?_⟩
      exact absurd (hlatest d (mem_cons_of_mem _ hd) hdt) (not_le_of_gt (hb d hd))
    · exact Or.inr ⟨hc, hle, fun d hd => hlatest d (mem_cons_of_mem _ hd)⟩
  · rintro (⟨rfl, hle, hlt⟩ | ⟨hmem, hle, hlatest⟩)
    · refine ⟨mem_cons_self, hle, forall_mem_cons.mpr ⟨fun _ => le_refl _, ?_⟩⟩
      intro d hd hdt
      exact absurd hdt (not_le_of_gt (hlt d hd))
    · exact ⟨mem_cons_of_mem _ hmem, hle,
        forall_mem_cons.mpr ⟨fun _ => le_of_lt (hb c hmem), hlatest⟩⟩

omit [LinearOrder T] in
/-- The pieces of a sweep start at boundaries of the list. -/
theorem exists_of_mem_sweep {p : Piece T V} :
    ∀ {l : List β}, p ∈ sweep time state l → ∃ b ∈ l, time b = p.interval.start
  | b :: l, h => by
      rw [sweep] at h
      split at h
      · obtain rfl | h := mem_cons.mp h
        · exact ⟨b, mem_cons_self, rfl⟩
        · obtain ⟨c, hc, hcp⟩ := exists_of_mem_sweep h
          exact ⟨c, mem_cons_of_mem _ hc, hcp⟩
      · obtain ⟨c, hc, hcp⟩ := exists_of_mem_sweep h
        exact ⟨c, mem_cons_of_mem _ hc, hcp⟩

/-- The pieces of a sweep are laid out in order. -/
theorem laid_sweep :
    ∀ {l : List β}, Increasing time l → Laid (sweep time state l)
  | [], _ => laid_nil
  | b :: l, h => by
      obtain ⟨hb, hl⟩ := pairwise_cons.mp h
      rw [sweep]
      split
      · refine laid_cons.mpr ⟨?_, ?_, laid_sweep hl⟩
        · exact (Increasing.lt_head_iff hl).mpr hb
        · intro p hp
          obtain ⟨c, hc, hcp⟩ := exists_of_mem_sweep hp
          cases l with
          | nil => cases hc
          | cons d l =>
            refine ⟨time d, rfl, ?_⟩
            obtain rfl | hc := mem_cons.mp hc
            · exact le_of_eq hcp
            · exact hcp ▸ le_of_lt ((pairwise_cons.mp hl).1 c hc)
      · exact laid_sweep hl

/-- At every instant a sweep shows the value set by the governing boundary. -/
theorem exists_mem_sweep_iff {P : V → Prop} :
    ∀ {l : List β}, Increasing time l →
      ((∃ p ∈ sweep time state l, p.interval.Contains t ∧ P p.value) ↔
        ∃ b, Governs time l t b ∧ ∃ x ∈ state b, P x)
  | [], _ => by
      simp only [sweep, not_mem_nil, false_and, exists_false, false_iff]
      rintro ⟨b, hb, -⟩
      cases hb.mem
  | b :: l, h => by
      obtain ⟨hb, hl⟩ := pairwise_cons.mp h
      have ih := exists_mem_sweep_iff (P := P) hl
      have hhead := Increasing.lt_head_iff (t := t) hl
      simp only [h.governs_cons_iff, or_and_right, exists_or]
      rw [← ih, sweep]
      split
      case h_1 x hx =>
        rw [exists_mem_cons_iff]
        apply or_congr _ Iff.rfl
        simp only [Span.Contains, hhead]
        constructor
        · rintro ⟨⟨hle, hlt⟩, hP⟩
          exact ⟨b, ⟨rfl, hle, hlt⟩, x, hx, hP⟩
        · rintro ⟨_, ⟨rfl, hle, hlt⟩, y, hy, hP⟩
          exact ⟨⟨hle, hlt⟩, Option.mem_unique hy hx ▸ hP⟩
      case h_2 hx =>
        constructor
        · exact Or.inr
        · rintro (⟨_, ⟨rfl, -⟩, y, hy, -⟩ | h)
          · rw [hx] at hy
            cases hy
          · exact h

omit [LinearOrder T] in
/-- The pieces of a sweep are the boundaries which set a value, each up to the next boundary. -/
theorem mem_sweep_iff {p : Piece T V} :
    ∀ {l : List β}, p ∈ sweep time state l ↔
      ∃ l₁ b l₂, l = l₁ ++ b :: l₂ ∧ state b = some p.value ∧
        p.interval = ⟨time b, l₂.head?.map time⟩
  | [] => by simp [sweep]
  | b :: l => by
      have ih := mem_sweep_iff (p := p) (l := l)
      have htail : p ∈ sweep time state l → ∃ l₁ c l₂, b :: l = l₁ ++ c :: l₂ ∧
          state c = some p.value ∧ p.interval = ⟨time c, l₂.head?.map time⟩ := by
        intro h
        obtain ⟨l₁, c, l₂, rfl, hc, hp⟩ := ih.mp h
        exact ⟨b :: l₁, c, l₂, rfl, hc, hp⟩
      rw [sweep]
      constructor
      · split
        case h_1 x hx =>
          intro h
          obtain rfl | h := mem_cons.mp h
          · exact ⟨[], b, l, rfl, hx, rfl⟩
          · exact htail h
        case h_2 => exact htail
      · rintro ⟨l₁, c, l₂, hl, hc, hp⟩
        obtain ⟨rfl, heq⟩ | ⟨l₁', rfl, hl'⟩ := cons_eq_append_iff.mp hl
        · obtain ⟨rfl, rfl⟩ := cons.inj heq
          obtain ⟨interval, x⟩ := p
          obtain rfl : interval = _ := hp
          rw [hc]
          exact mem_cons_self
        · have h := ih.mpr ⟨l₁', c, l₂, hl', hc, hp⟩
          split
          · exact mem_cons_of_mem _ h
          · exact h

end Boundaries

/-! ### Timelines of boundaries -/

section Result

variable {T : Type u} {V : Type v} {β : Type w} [LinearOrder T] [BEq V] (time : β → T)
  (state : β → Option V)

/-- The maximal pieces on which the boundaries set equal values. -/
def timeline (l : List β) : List (Piece T V) :=
  coalesce (sweep time state l)

variable {time state} {l : List β} {b : β} {t a : T} {x : V}

/-- The pieces of a timeline are laid out in order. -/
theorem laid_timeline (h : Increasing time l) :
  Laid (timeline time state l)
  := laid_coalesce (laid_sweep h)

/-- The number of pieces which boundaries start, after a piece with a value up to the first of
them, if there is such a piece. -/
def countPieces (state : β → Option V) : Option V → List β → Nat
  | _, [] => 0
  | last, b :: rest =>
      match state b with
      | some x => (if last.any (· == x) then 0 else 1) + countPieces state (some x) rest
      | none => countPieces state none rest

variable [PartialEquivBEq V]

/-- The pieces of a timeline are counted boundary by boundary, and so are those after a piece up to
the first boundary. -/
theorem length_coalesce_sweep (h : Increasing time l) :
  (coalesce (sweep time state l)).length = countPieces state none l ∧
    ∀ (s : T) (x y : V), Agree y x →
      (coalesceFrom ⟨⟨s, l.head?.map time⟩, y⟩ (sweep time state l)).length =
        1 + countPieces state (some x) l
  := by
  induction l with
  | nil => exact ⟨rfl, fun _ _ _ _ => rfl⟩
  | cons c l ih =>
    obtain ⟨hc, hl⟩ := pairwise_cons.mp h
    obtain ⟨ih, ihFrom⟩ := ih hl
    simp only [sweep, countPieces]
    cases hstate : state c with
    | some z =>
      constructor
      · rw [coalesce, ihFrom _ z z (Agree.refl z)]
        rfl
      · intro s x y hxy
        dsimp only
        rw [coalesceFrom]
        have hbeq : (y == z) = (x == z) := by
          obtain rfl | hxy := hxy
          · rfl
          · apply BEq.congr_left hxy
        by_cases hz : y == z
        · rw [if_pos ⟨hz, rfl⟩, Option.any_some, ← hbeq, if_pos hz, zero_add]
          apply ihFrom _ _ _ (Agree.of_beq hz)
        · have hnot : ¬ Mergeable (⟨⟨s, (c :: l).head?.map time⟩, y⟩ : Piece T V)
              ⟨⟨time c, l.head?.map time⟩, z⟩ := fun hm => hz hm.1
          rw [if_neg hnot, Option.any_some, ← hbeq, if_neg hz, length_cons,
            ihFrom _ z z (Agree.refl z)]
          omega
    | none =>
      use ih
      intro s x y _
      dsimp only
      rw [← ih]
      cases hsweep : sweep time state l with
      | nil => rfl
      | cons p pieces =>
        -- the next piece starts after the end of the current one
        have hgap : ¬ Mergeable (⟨⟨s, (c :: l).head?.map time⟩, y⟩ : Piece T V) p := by
          rintro ⟨-, hmeets⟩
          obtain ⟨b, hb, hbp⟩ := exists_of_mem_sweep (hsweep ▸ mem_cons_self)
          have hstart : time c = p.interval.start := Option.some.inj hmeets
          apply absurd (hc b hb)
          rw [hbp, hstart]
          apply lt_irrefl
        rw [coalesceFrom, if_neg hgap, length_cons, coalesce]
        omega

/-- At every instant a timeline shows, up to agreement, the value set by the governing
boundary. -/
theorem exists_mem_timeline_iff (h : Increasing time l) :
  (∃ p ∈ timeline time state l, p.interval.Contains t ∧ Agree p.value x) ↔
    ∃ b, Governs time l t b ∧ ∃ y ∈ state b, Agree y x
  := by
  rw [timeline, exists_mem_coalesce_iff (laid_sweep h)]
  exact exists_mem_sweep_iff (P := fun y => Agree y x) h

end Result

/-! ### Existence of governing boundaries -/

section Existence

variable {T : Type u} {β : Type w} [LinearOrder T] {time : β → T} {l : List β} {b c : β} {t : T}

/-- If some boundary is not later than an instant, then a latest such boundary governs it. -/
theorem exists_governs (hc : c ∈ l) (ht : time c ≤ t) :
  ∃ b, Governs time l t b
  := by
  have hmem : c ∈ l.filter fun d => decide (time d ≤ t) := by
    simp [hc, ht]
  rcases hmax : (l.filter fun d => decide (time d ≤ t)).argmax time with _ | b
  · rw [argmax_eq_none] at hmax
    exact absurd hmem (hmax ▸ not_mem_nil)
  · obtain ⟨hb, hbt⟩ := mem_filter.mp (argmax_mem hmax)
    use b, hb, of_decide_eq_true hbt
    intro d hd hdt
    apply le_of_mem_argmax _ hmax
    simp [hd, hdt]

end Existence

end Timeline
