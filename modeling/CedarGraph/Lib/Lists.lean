import Mathlib

/-!
# Lists

Entries of lists which are related pointwise have related entries in the other list.  Entries
which are tagged with a key are found by that key only.  If one entry only has a property, then
counting the entries with that property and others is a question about this entry.  In a sorted
list, a wider filter has the same first entries as a narrower one if enough entries of the narrower
one come before those which only the wider one takes.
-/

universe u v

namespace List

variable {α : Type u} {β : Type v} {R : α → β → Prop}

/-- Every entry of the second list is related to one of the first. -/
theorem Forall₂.exists_left {l : List α} {m : List β} (h : Forall₂ R l m) {b : β} (hb : b ∈ m) :
  ∃ a ∈ l, R a b
  := by
  induction h with
  | nil => cases hb
  | cons hac htail ih =>
    obtain rfl | hb := mem_cons.mp hb
    · exact ⟨_, mem_cons_self, hac⟩
    · obtain ⟨a, ha, hab⟩ := ih hb
      use a, mem_cons_of_mem _ ha

/-- Every entry of the first list is related to one of the second. -/
theorem Forall₂.exists_right {l : List α} {m : List β} (h : Forall₂ R l m) {a : α} (ha : a ∈ l) :
  ∃ b ∈ m, R a b
  := h.flip.exists_left ha

/-- Two filters, of which the second takes more, have the same first entries exactly if enough
entries of the first one precede each entry which only the second one takes. -/
theorem take_filter_eq_iff
    {ρ : Type v} [LinearOrder ρ] {rank : α → ρ} {p q : α → Bool} {l : List α}
    (hsorted : l.Pairwise fun a b => rank a < rank b) (hpq : ∀ a, p a = true → q a = true)
    (n : ℕ) :
  (l.filter q).take n = (l.filter p).take n ↔
    ∀ a ∈ l, q a = true → p a = false → n ≤ l.countP fun b => p b && decide (rank b < rank a)
  := by
  induction l generalizing n with
  | nil => simp
  | cons c l ih =>
    obtain ⟨hhead, htail⟩ := pairwise_cons.mp hsorted
    by_cases hp : p c = true
    · have hq := hpq c hp
      rw [filter_cons_of_pos hp, filter_cons_of_pos hq]
      cases n with
      | zero => simp
      | succ n =>
        rw [take_succ_cons, take_succ_cons, cons_inj_right, ih htail, forall_mem_cons]
        constructor
        · intro h
          use by simp [hp]
          intro a ha hqa hpa
          rw [countP_cons_of_pos (by simp [hp, hhead a ha])]
          apply Nat.succ_le_succ (h a ha hqa hpa)
        · rintro ⟨-, h⟩ a ha hqa hpa
          have hle := h a ha hqa hpa
          rw [countP_cons_of_pos (by simp [hp, hhead a ha])] at hle
          apply Nat.le_of_succ_le_succ hle
    · have hcount : ∀ a, (c :: l).countP (fun b => p b && decide (rank b < rank a)) =
          l.countP fun b => p b && decide (rank b < rank a) := by
        intro a
        rw [countP_cons_of_neg (by simp [hp])]
      rw [filter_cons_of_neg hp, forall_mem_cons]
      simp only [hcount]
      by_cases hq : q c = true
      · -- nothing comes before `c`, so that only the empty list of first entries agrees
        have hnone : l.countP (fun b => p b && decide (rank b < rank c)) = 0 := by
          apply countP_eq_zero.mpr
          intro a ha
          simp [le_of_lt (hhead a ha)]
        rw [filter_cons_of_pos hq, hnone]
        cases n with
        | zero => simp
        | succ n =>
          constructor
          · intro h
            have hmem : c ∈ (l.filter p).take (n + 1) := by
              rw [← h]
              apply mem_cons_self
            exact absurd (mem_filter.mp (mem_of_mem_take hmem)).2 hp
          · rintro ⟨h, -⟩
            cases h hq (by simpa using hp)
      · rw [filter_cons_of_neg hq, ih htail]
        constructor
        · intro h
          use fun hq' => absurd hq' hq
        · intro h
          apply h.2

/-- The entries with one of two exclusive properties. -/
theorem filter_append_filter_perm {α : Type*} {p q r : α → Bool} (l : List α)
    (hpq : ∀ a, p a = true → q a = false) (hr : ∀ a, r a = (p a || q a)) :
  (l.filter p ++ l.filter q).Perm (l.filter r)
  := by
  induction l with
  | nil => apply Perm.refl
  | cons a l ih =>
    by_cases hp : p a = true
    · rw [filter_cons_of_pos hp, filter_cons_of_neg (by simp [hpq a hp]),
        filter_cons_of_pos (by simp [hr, hp])]
      apply ih.cons a
    · by_cases hq : q a = true
      · rw [filter_cons_of_neg hp, filter_cons_of_pos hq, filter_cons_of_pos (by simp [hr, hq])]
        apply perm_middle.trans (ih.cons a)
      · rw [filter_cons_of_neg hp, filter_cons_of_neg hq, filter_cons_of_neg (by simp [hr, hp, hq])]
        exact ih

/-- The entries of a list, one key after the other. -/
theorem flatMap_filter_perm {α β : Type*} [DecidableEq β] (f : α → β) {ks : List β}
    (hks : ks.Nodup) (l : List α) :
  (ks.flatMap fun k => l.filter fun a => f a = k).Perm (l.filter fun a => f a ∈ ks)
  := by
  induction ks with
  | nil => simp
  | cons k ks ih =>
    obtain ⟨hk, hks⟩ := nodup_cons.mp hks
    apply ((ih hks).append_left _).trans
    apply filter_append_filter_perm
    · intro a ha
      simp only [decide_eq_true_eq] at ha
      simp [ha, hk]
    · intro a
      simp [mem_cons]

/-- Parts of equal lengths are equal if they are so together. -/
theorem flatMap_eq_flatMap_iff {l : List α} {f g : α → List β}
    (h : ∀ a ∈ l, (f a).length = (g a).length) :
  l.flatMap f = l.flatMap g ↔ ∀ a ∈ l, f a = g a
  := by
  induction l with
  | nil => simp
  | cons a l ih =>
    obtain ⟨ha, hl⟩ := forall_mem_cons.mp h
    rw [flatMap_cons, flatMap_cons, append_eq_append_iff_of_size_eq_left ha, ih hl, forall_mem_cons]

end List
