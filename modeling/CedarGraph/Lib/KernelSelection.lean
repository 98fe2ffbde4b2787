import Mathlib

/-!
# Kernels and their selection

Of entries some of which exclude one another, a kernel consists of entries which do not, such that
every other entry is beaten by one of them.  If beating is well-founded, there is one kernel at most.

The selection takes candidates one by one.  A candidate which beats the winners that exclude it takes
their place.  Then the removed winners, and the candidates which were rejected so far, are taken
again.  The selection ends, as the winners get better and better, and the winners are a kernel.
-/

open List

universe u

/-! ### Kernels -/

/-- The members of a kernel do not beat one another, and they beat every other entry. -/
structure IsKernel {α : Type u} (S : α → Prop) (beats : α → α → Prop) (K : α → Prop) : Prop where
  mem : ∀ a, K a → S a
  apart : ∀ a b, K a → K b → ¬ beats a b
  beaten : ∀ a, S a → ¬ K a → ∃ b, K b ∧ beats b a

namespace IsKernel

variable {α : Type u} {S S' : α → Prop} {beats : α → α → Prop} {K K' : α → Prop}

/-- There is one kernel at most, if entries which beat others have lower ranks. -/
theorem unique (h : IsKernel S beats K) (h' : IsKernel S beats K') {rank : α → Nat}
    (hrank : ∀ a b, S a → S b → beats a b → rank a < rank b) (a : α) :
  K a ↔ K' a
  := by
  induction hn : rank a using Nat.strong_induction_on generalizing a with
  | _ n ih =>
    by_cases ha : S a
    · -- which of the two has the entry depends on those which beat it
      have hbeats : ∀ b, S b → beats b a → (K b ↔ K' b) :=
        fun b hb hba => ih (rank b) (hn ▸ hrank b a hb ha hba) b rfl
      constructor
      · intro hk
        by_contra hk'
        obtain ⟨b, hb, hba⟩ := h'.beaten a ha hk'
        apply h.apart b a ((hbeats b (h'.mem b hb) hba).mpr hb) hk hba
      · intro hk'
        by_contra hk
        obtain ⟨b, hb, hba⟩ := h.beaten a ha hk
        apply h'.apart b a ((hbeats b (h.mem b hb) hba).mp hb) hk' hba
    · constructor
      · intro hk
        cases ha (h.mem a hk)
      · intro hk
        cases ha (h'.mem a hk)

end IsKernel

namespace KernelSelection

variable {L : Type u}

/-! ### The selection -/

section Select

variable [DecidableEq L] (overlaps better : L → L → Bool) (position : L → Nat)

/-- A candidate is rejected.  The rejected ones are in the order of their positions. -/
def reject (candidate : L) (rejected : List L) : List L :=
  if candidate ∈ rejected then rejected
  else rejected.orderedInsert (fun a b => position a ≤ position b) candidate

/-- The winners among the pending candidates, the rejected ones and the winners so far. -/
def select : (fuel : Nat) → (pending rejected winners : List L) → Option (List L)
  | 0, _, _, _ => none
  | _ + 1, [], _, winners => some winners
  | fuel + 1, candidate :: pending, rejected, winners =>
      if candidate ∈ winners then
        select fuel pending rejected winners
      else
        let overlapping := winners.filter fun winner => overlaps winner candidate
        if overlapping.all fun winner => better candidate winner then
          select fuel (pending ++ overlapping ++ rejected) []
            (winners.filter (fun winner => ¬ overlaps winner candidate) ++ [candidate])
        else
          select fuel pending (reject position candidate rejected) winners

end Select

variable {overlaps better : L → L → Bool} {position : L → Nat}
  {all pending rejected winners : List L} {candidate : L}

theorem mem_reject_iff [DecidableEq L] {l : L} :
  l ∈ reject position candidate rejected ↔ l = candidate ∨ l ∈ rejected
  := by
  rw [reject]
  split
  case isTrue hmem =>
    constructor
    · apply Or.inr
    · rintro (rfl | h)
      · apply hmem
      · apply h
  case isFalse => apply mem_orderedInsert

/-- The state of a selection: every entry is pending, rejected or a winner.  Winners do not exclude
one another, and a rejected entry does not beat a winner which excludes it. -/
structure Selecting (overlaps better : L → L → Bool) (all pending rejected winners : List L) :
    Prop where
  mem_iff : ∀ l, l ∈ all ↔ l ∈ pending ∨ l ∈ rejected ∨ l ∈ winners
  nodup : winners.Nodup
  apart : ∀ a ∈ winners, ∀ b ∈ winners, a ≠ b → overlaps a b = false
  blocked : ∀ l ∈ rejected, ∃ winner ∈ winners, overlaps winner l = true ∧ better l winner = false

/-- A winner is not taken again. -/
theorem Selecting.skip (h : Selecting overlaps better all (candidate :: pending) rejected winners)
    (hwinner : candidate ∈ winners) :
  Selecting overlaps better all pending rejected winners
  where
  mem_iff l := by
    rw [h.mem_iff, mem_cons, or_assoc]
    constructor
    · rintro (rfl | h)
      · apply Or.inr (Or.inr hwinner)
      · apply h
    · apply Or.inr
  nodup := h.nodup
  apart := h.apart
  blocked := h.blocked

/-- A candidate which does not beat a winner that excludes it is rejected. -/
theorem Selecting.reject [DecidableEq L]
    (h : Selecting overlaps better all (candidate :: pending) rejected winners) {winner : L}
    (hwinner : winner ∈ winners) (hoverlaps : overlaps winner candidate = true)
    (hbetter : better candidate winner = false) :
  Selecting overlaps better all pending (reject position candidate rejected) winners
  where
  mem_iff l := by
    rw [h.mem_iff, mem_cons, mem_reject_iff]
    tauto
  nodup := h.nodup
  apart := h.apart
  blocked := by
    intro l hl
    rcases mem_reject_iff.mp hl with rfl | hl
    · use winner
    · apply h.blocked l hl

/-- A candidate which beats the winners that exclude it takes their place. -/
theorem Selecting.replace
    (h : Selecting overlaps better all (candidate :: pending) rejected winners)
    (hsymm : ∀ a b, overlaps a b = overlaps b a) (hnew : candidate ∉ winners) :
  Selecting overlaps better all
    (pending ++ winners.filter (fun winner => overlaps winner candidate) ++ rejected) []
    (winners.filter (fun winner => ¬ overlaps winner candidate) ++ [candidate])
  where
  mem_iff l := by
    simp only [h.mem_iff, mem_cons, mem_append, mem_filter, not_mem_nil,
      decide_eq_true_eq, false_or, or_false]
    by_cases hl : overlaps l candidate = true
    · simp only [hl, and_true, not_true, and_false, false_or]
      tauto
    · simp only [hl]
      tauto
  nodup := by
    rw [nodup_append]
    use h.nodup.filter _, nodup_singleton _
    rintro a ha b hb rfl
    rw [mem_singleton.mp hb] at ha
    apply hnew (mem_filter.mp ha).1
  apart := by
    have hfree : ∀ a ∈ winners.filter (fun winner => ¬ overlaps winner candidate),
        a ∈ winners ∧ overlaps a candidate = false := by
      intro a ha
      obtain ⟨hmem, hnot⟩ := mem_filter.mp ha
      exact ⟨hmem, Bool.not_eq_true _ ▸ of_decide_eq_true hnot⟩
    intro a ha b hb hne
    rcases mem_append.mp ha with ha | ha
    · rcases mem_append.mp hb with hb | hb
      · apply h.apart a (hfree a ha).1 b (hfree b hb).1 hne
      · rw [mem_singleton.mp hb]
        apply (hfree a ha).2
    · rw [mem_singleton.mp ha] at hne ⊢
      rcases mem_append.mp hb with hb | hb
      · rw [hsymm]
        apply (hfree b hb).2
      · cases hne (mem_singleton.mp hb).symm
  blocked := by simp

/-! ### The end of the selection -/

/-- The weight of winners.  A better winner weighs more than all those which are worse. -/
def weight (rank : L → Nat) (base : Nat) (winners : List L) : Nat :=
  (winners.map fun winner => base ^ rank winner).sum

section Weight

variable {rank : L → Nat} {base r : Nat}

/-- The weight of winners of bounded rank is bounded. -/
theorem weight_le (hbase : 0 < base) (h : ∀ winner ∈ winners, rank winner ≤ r) :
  weight rank base winners ≤ winners.length * base ^ r
  := by
  have hle := sum_le_card_nsmul (winners.map fun winner => base ^ rank winner) (base ^ r) (by
    intro n hn
    obtain ⟨winner, hwinner, rfl⟩ := mem_map.mp hn
    apply Nat.pow_le_pow_right hbase (h winner hwinner))
  rwa [length_map] at hle

/-- The weight of winners is that of those which have a property and that of the others. -/
theorem weight_filter (p : L → Bool) :
  weight rank base winners =
    weight rank base (winners.filter p) + weight rank base (winners.filter fun l => ¬ p l)
  := by
  rw [weight, weight, weight, ← sum_append, ← map_append]
  apply List.Perm.sum_eq
  apply List.Perm.map
  simpa using (filter_append_perm p winners).symm

/-- A candidate weighs more than the winners in whose place it comes. -/
theorem weight_lt_of_replace (hlength : winners.length < base)
    (h : ∀ winner ∈ winners, overlaps winner candidate = true → rank winner < rank candidate) :
  weight rank base winners < weight rank base
    (winners.filter (fun winner => ¬ overlaps winner candidate) ++ [candidate])
  := by
  have hremoved : weight rank base (winners.filter fun winner => overlaps winner candidate) <
      base ^ rank candidate := by
    have hlower : ∀ winner ∈ winners.filter (fun winner => overlaps winner candidate),
        rank winner < rank candidate := by
      intro winner hwinner
      apply h winner (mem_filter.mp hwinner).1 (mem_filter.mp hwinner).2
    have hshorter := length_filter_le (fun winner => overlaps winner candidate) winners
    rcases hrank : rank candidate with - | n
    · -- there is no rank below the least one
      have hnil : winners.filter (fun winner => overlaps winner candidate) = [] := by
        apply eq_nil_iff_forall_not_mem.mpr
        intro winner hwinner
        have hlt := hlower winner hwinner
        omega
      rw [hnil]
      apply Nat.pow_pos (by omega)
    · have hle := @weight_le _ _ rank base n (by omega) fun winner hwinner => by
        have hlt := hlower winner hwinner
        omega
      calc weight rank base (winners.filter fun winner => overlaps winner candidate)
          ≤ (winners.filter fun winner => overlaps winner candidate).length * base ^ n := hle
        _ < base * base ^ n := Nat.mul_lt_mul_of_pos_right (by omega) (Nat.pow_pos (by omega))
        _ = base ^ (n + 1) := by rw [Nat.pow_succ, Nat.mul_comm]
  rw [weight_filter fun winner => overlaps winner candidate, Nat.add_comm]
  conv_rhs => rw [weight, map_append, sum_append]
  apply Nat.add_lt_add_left hremoved

end Weight

/-- The number of entries which are worse. -/
def rankIn [DecidableEq L] (better : L → L → Bool) (all : List L) (l : L) : Nat :=
  (all.toFinset.filter fun other => better l other).card

/-- A better entry has a higher rank. -/
theorem rankIn_lt [DecidableEq L] {a b : L} (hirrefl : better b b = false)
    (htrans : ∀ c, better b c = true → better a c = true) (hb : b ∈ all) (h : better a b = true) :
  rankIn better all b < rankIn better all a
  := by
  apply Finset.card_lt_card
  rw [Finset.ssubset_iff_of_subset]
  · use b
    simp [hb, h, hirrefl]
  · intro c hc
    rw [Finset.mem_filter] at hc ⊢
    use hc.1, htrans c hc.2

theorem rankIn_le [DecidableEq L] (l : L) :
  rankIn better all l ≤ all.toFinset.card
  := Finset.card_filter_le _ _

/-- There are not more winners than entries. -/
theorem Selecting.length_le (h : Selecting overlaps better all pending rejected winners) :
  winners.length ≤ all.length
  := by
  apply (h.nodup.subperm _).length_le
  intro l hl
  apply (h.mem_iff l).mpr (Or.inr (Or.inr hl))

/-- The selection ends with every entry a winner or rejected, if better entries have higher ranks. -/
theorem Selecting.exists_select [DecidableEq L] {rank : L → Nat} {r : Nat}
    (hsymm : ∀ a b, overlaps a b = overlaps b a)
    (hrank : ∀ a ∈ all, ∀ b ∈ all, better a b = true → rank b < rank a)
    (hle : ∀ a ∈ all, rank a ≤ r)
    (h : Selecting overlaps better all pending rejected winners) :
  ∃ bound, ∀ fuel ≥ bound, ∃ result rejected',
    select overlaps better position fuel pending rejected winners = some result ∧
      Selecting overlaps better all [] rejected' result
  := by
  -- the winners get heavier, up to a bound, or fewer candidates are pending
  have hbounded : ∀ {pending rejected winners : List L},
      Selecting overlaps better all pending rejected winners →
      weight rank (all.length + 1) winners ≤ all.length * (all.length + 1) ^ r := by
    intro pending rejected winners h
    have hweight := @weight_le _ winners rank (all.length + 1) r (Nat.succ_pos _) fun winner hw =>
      hle winner ((h.mem_iff winner).mpr (Or.inr (Or.inr hw)))
    apply le_trans hweight (Nat.mul_le_mul_right _ h.length_le)
  induction hn : all.length * (all.length + 1) ^ r - weight rank (all.length + 1) winners
    using Nat.strong_induction_on generalizing pending rejected winners with
  | _ n ih =>
    induction pending generalizing rejected with
    | nil =>
      use 1
      intro fuel hfuel
      obtain ⟨fuel, rfl⟩ := Nat.exists_eq_add_of_le' hfuel
      use winners, rejected, rfl
    | cons candidate pending ih' =>
      by_cases hwinner : candidate ∈ winners
      · obtain ⟨bound, hbound⟩ := ih' (h.skip hwinner)
        use bound + 1
        intro fuel hfuel
        obtain ⟨fuel, rfl⟩ := Nat.exists_eq_add_of_le' (Nat.one_le_of_lt hfuel)
        rw [select, if_pos hwinner]
        apply hbound fuel (by omega)
      · by_cases hbeats : (winners.filter fun winner => overlaps winner candidate).all
            fun winner => better candidate winner
        · have hnext := h.replace hsymm hwinner
          have hmem : candidate ∈ all := (h.mem_iff candidate).mpr (Or.inl mem_cons_self)
          have hlt := @weight_lt_of_replace _ overlaps winners candidate rank (all.length + 1)
            (Nat.lt_succ_of_le h.length_le) (by
              intro winner hw hoverlaps
              apply hrank candidate hmem winner ((h.mem_iff winner).mpr (Or.inr (Or.inr hw)))
              apply all_eq_true.mp hbeats winner
              apply mem_filter.mpr ⟨hw, hoverlaps⟩)
          have hmax := hbounded hnext
          obtain ⟨bound, hbound⟩ := ih _ (by omega) hnext rfl
          use bound + 1
          intro fuel hfuel
          obtain ⟨fuel, rfl⟩ := Nat.exists_eq_add_of_le' (Nat.one_le_of_lt hfuel)
          rw [select, if_neg hwinner]
          rw [if_pos hbeats]
          apply hbound fuel (by omega)
        · obtain ⟨winner, hw, hoverlaps, hbetter⟩ : ∃ winner ∈ winners,
              overlaps winner candidate = true ∧ better candidate winner = false := by
            simpa using hbeats
          obtain ⟨bound, hbound⟩ := ih' (@Selecting.reject _ _ _ position _ _ _ _ _ _ h winner hw
            hoverlaps hbetter)
          use bound + 1
          intro fuel hfuel
          obtain ⟨fuel, rfl⟩ := Nat.exists_eq_add_of_le' (Nat.one_le_of_lt hfuel)
          rw [select, if_neg hwinner]
          rw [if_neg hbeats]
          apply hbound fuel (by omega)

end KernelSelection
