import Mathlib
import CedarGraph.Lib.Timeline

/-!
# Sweeping over changes of a number

Events change a number at their times.  A sweep over the events in the order of their times sums
up the changes of one time after another, and so has the number from each time on.  Which order
events of one time have makes no difference.
-/

universe u v

namespace DeltaSweep

open List Timeline Prod

variable {ε : Type u} {T : Type v} [LinearOrder T] (time : ε → T) (delta : ε → ℤ)

/-- The number at an instant: the sum of the changes until then. -/
def level (l : List ε) (t : T) : ℤ :=
  ((l.filter fun e => time e ≤ t).map delta).sum

/-- The times of the events, each with the number from there on. -/
def boundaries : List ε → ℤ → List (T × ℤ)
  | [], _ => []
  | e :: l, c =>
      let c' := c + delta e + ((l.takeWhile fun f => time f = time e).map delta).sum
      (time e, c') :: boundaries (l.dropWhile fun f => time f = time e) c'
  termination_by l => l.length
  decreasing_by
    have hle := (List.dropWhile_sublist (fun f => decide (time f = time e)) (l := l)).length_le
    simp only [List.length_cons]
    omega

variable {time delta} {e : ε} {l l' : List ε} {t : T} {c n : ℤ}

theorem level_append :
  level time delta (l ++ l') t = level time delta l t + level time delta l' t
  := by
  simp [level]

theorem level_cons_of_le (h : time e ≤ t) :
  level time delta (e :: l) t = delta e + level time delta l t
  := by
  simp [level, h]

theorem level_of_forall_le (h : ∀ f ∈ l, time f ≤ t) :
  level time delta l t = (l.map delta).sum
  := by
  have hall : l.filter (fun f => decide (time f ≤ t)) = l := by
    simpa using h
  rw [level, hall]

theorem level_of_forall_lt (h : ∀ f ∈ l, t < time f) :
  level time delta l t = 0
  := by
  have hnone : l.filter (fun f => decide (time f ≤ t)) = [] := by
    simpa using h
  rw [level, hnone]
  rfl

theorem level_eq_of_perm (h : l.Perm l') :
  level time delta l t = level time delta l' t
  := ((h.filter _).map delta).sum_eq

/-- In the order of time, the events of the first time come before later ones. -/
theorem lt_of_mem_dropWhile
    (h : (e :: l).Pairwise fun f g => time f ≤ time g) {f : ε}
    (hf : f ∈ l.dropWhile fun f => time f = time e) :
  time e < time f
  := by
  obtain ⟨hhead, htail⟩ := pairwise_cons.mp h
  cases hdrop : l.dropWhile fun f => time f = time e with
  | nil =>
    rw [hdrop] at hf
    cases hf
  | cons g rest =>
    have hsub : (g :: rest).Sublist l := hdrop ▸ dropWhile_sublist _
    have hne : time g ≠ time e := by
      have hnot := head_dropWhile_not (fun f => decide (time f = time e))
        (hdrop ▸ cons_ne_nil g rest)
      simpa [hdrop] using hnot
    have hlt : time e < time g :=
      lt_of_le_of_ne (hhead g (hsub.subset mem_cons_self)) hne.symm
    rw [hdrop] at hf
    obtain rfl | hf := mem_cons.mp hf
    · apply hlt
    · apply lt_of_lt_of_le hlt ((pairwise_cons.mp (htail.sublist hsub)).1 f hf)

theorem time_eq_of_mem_takeWhile {f : ε} (hf : f ∈ l.takeWhile fun f => time f = time e) :
  time f = time e
  := by
  simpa using mem_takeWhile_imp hf

/-- From the first time on, the number is that of the first events and of those which follow. -/
theorem level_cons_eq (ht : time e ≤ t) :
  level time delta (e :: l) t =
    delta e + ((l.takeWhile fun f => time f = time e).map delta).sum +
      level time delta (l.dropWhile fun f => time f = time e) t
  := by
  have hsame : ∀ f ∈ l.takeWhile (fun f => decide (time f = time e)), time f ≤ t := by
    intro f hf
    rw [time_eq_of_mem_takeWhile hf]
    apply ht
  rw [level_cons_of_le ht, add_assoc, ← level_of_forall_le hsame, ← level_append,
    takeWhile_append_dropWhile]

/-- The boundaries are the times of events, with the number from there on. -/
theorem mem_boundaries_iff (h : l.Pairwise fun f g => time f ≤ time g) :
  (t, n) ∈ boundaries time delta l c ↔
    (∃ e ∈ l, time e = t) ∧ n = c + level time delta l t
  := by
  fun_induction boundaries time delta l c with
  | case1 c => simp
  | case2 e l c c' ih =>
    obtain ⟨hhead, htail⟩ := pairwise_cons.mp h
    have hrest := htail.sublist (dropWhile_sublist fun f => decide (time f = time e))
    rw [mem_cons, ih hrest, mk.injEq]
    constructor
    · rintro (⟨rfl, rfl⟩ | ⟨⟨f, hf, rfl⟩, rfl⟩)
      · use ⟨e, mem_cons_self, rfl⟩
        rw [level_cons_eq le_rfl,
          level_of_forall_lt fun f hf => lt_of_mem_dropWhile h hf]
        ring
      · use ⟨f, mem_cons_of_mem e ((dropWhile_sublist _).subset hf), rfl⟩
        rw [level_cons_eq (le_of_lt (lt_of_mem_dropWhile h hf))]
        ring
    · rintro ⟨⟨f, hf, rfl⟩, rfl⟩
      by_cases heq : time f = time e
      · left
        use heq
        rw [heq, level_cons_eq le_rfl,
          level_of_forall_lt fun f hf => lt_of_mem_dropWhile h hf]
        ring
      · right
        have hmem : f ∈ l.dropWhile fun f => time f = time e := by
          have hl : f ∈ l := (mem_cons.mp hf).resolve_left fun hfe => heq (by rw [hfe])
          rw [← takeWhile_append_dropWhile (p := fun f => decide (time f = time e)) (l := l),
            mem_append] at hl
          apply hl.resolve_left
          intro htake
          apply heq (time_eq_of_mem_takeWhile htake)
        use ⟨f, hmem, rfl⟩
        rw [level_cons_eq (le_of_lt (lt_of_mem_dropWhile h hmem))]
        ring

/-- The boundaries are in strictly increasing order of time. -/
theorem increasing_boundaries (h : l.Pairwise fun f g => time f ≤ time g) :
  Increasing fst (boundaries time delta l c)
  := by
  fun_induction boundaries time delta l c with
  | case1 c => apply Pairwise.nil
  | case2 e l c c' ih =>
    have hrest := (pairwise_cons.mp h).2.sublist
      (dropWhile_sublist fun f => decide (time f = time e))
    constructor
    · rintro ⟨t, n⟩ hb
      obtain ⟨⟨f, hf, rfl⟩, -⟩ := (mem_boundaries_iff hrest).mp hb
      apply lt_of_mem_dropWhile h hf
    · apply ih hrest

/-- The boundaries do not depend on the order of events of one time. -/
theorem boundaries_eq_of_perm
    (hperm : l.Perm l') (h : l.Pairwise fun f g => time f ≤ time g)
    (h' : l'.Pairwise fun f g => time f ≤ time g) :
  boundaries time delta l c = boundaries time delta l' c
  := by
  have hinc : Increasing fst (boundaries time delta l c) := increasing_boundaries h
  have hinc' : Increasing fst (boundaries time delta l' c) := increasing_boundaries h'
  have hmem : ∀ b, b ∈ boundaries time delta l c ↔ b ∈ boundaries time delta l' c := by
    rintro ⟨t, n⟩
    rw [mem_boundaries_iff h, mem_boundaries_iff h', level_eq_of_perm hperm]
    simp only [hperm.mem_iff]
  have hne : ∀ {m : List (T × ℤ)}, Increasing fst m → m.Nodup := by
    intro m hm
    apply hm.imp
    intro a b hab heq
    rw [heq] at hab
    apply lt_irrefl _ hab
  apply ((perm_ext_iff_of_nodup (hne hinc) (hne hinc')).mpr hmem).eq_of_pairwise _ hinc hinc'
  intro a b _ _ hab hba
  exact absurd hab (lt_asymm hba)

/-- The number of the boundary which governs an instant is the number at the instant. -/
theorem eq_level_of_governs
    (h : l.Pairwise fun f g => time f ≤ time g) {b : T × ℤ}
    (hb : Governs fst (boundaries time delta l c) t b) :
  b.2 = c + level time delta l t
  := by
  obtain ⟨s, n⟩ := b
  obtain ⟨-, rfl⟩ := (mem_boundaries_iff h).mp hb.mem
  have hfilter : (l.filter fun f => time f ≤ s) = l.filter fun f => time f ≤ t := by
    apply filter_congr
    intro f hf
    rw [decide_eq_decide]
    constructor
    · intro hle
      apply le_trans hle hb.le
    · intro hle
      apply hb.latest _ ((mem_boundaries_iff h).mpr ⟨⟨f, hf, rfl⟩, rfl⟩) hle
  rw [level, level, hfilter]

/-- A boundary governs every instant which does not come before all events. -/
theorem exists_governs
    (h : l.Pairwise fun f g => time f ≤ time g) {f : ε} (hf : f ∈ l) (hle : time f ≤ t) :
  ∃ b, Governs fst (boundaries time delta l c) t b
  := by
  have hmem : (time f, c + level time delta l (time f)) ∈ boundaries time delta l c :=
    (mem_boundaries_iff h).mpr ⟨⟨f, hf, rfl⟩, rfl⟩
  apply Timeline.exists_governs hmem hle

end DeltaSweep
