import Mathlib

/-!
# Grouping a stream

A stream whose elements are sorted by key is cut into the groups of elements with one key: the
elements of the current key are kept until another key follows, then the group is processed.  So
every key of the stream is processed once, in order, with all of its elements.
-/

universe u v w

namespace Grouping

open List

variable {ε : Type*} {α : Type u} {β : Type v} {κ : Type w} [DecidableEq κ]

/-- The outputs of the groups of a stream, of which the elements `group` have been read since the
last key, and `output` has been produced before. -/
def collect (key : α → κ) (emit : List α → Except ε (List β)) :
    List α → List β → List α → Except ε (List β)
  | [], output, [] => .ok output
  | [], output, a :: l => collect key emit [a] output l
  | b :: group, output, [] => do
      let rows ← emit (b :: group)
      return output ++ rows
  | b :: group, output, a :: l =>
      if key b = key a then
        collect key emit (b :: group ++ [a]) output l
      else do
        let rows ← emit (b :: group)
        collect key emit [a] (output ++ rows) l

/-- The keys of a list, each once. -/
def keys (key : α → κ) (l : List α) : List κ :=
  (l.map key).dedup

variable {key : α → κ} {l group : List α}

theorem mem_keys {k : κ} :
  k ∈ keys key l ↔ ∃ a ∈ l, key a = k
  := by
  simp [keys]

/-- A group has one key. -/
theorem keys_eq_singleton {k : κ} (hgroup : group ≠ []) (hkey : ∀ a ∈ group, key a = k) :
  keys key group = [k]
  := by
  have hmap : group.map key = replicate group.length k := by
    apply eq_replicate_iff.mpr
    simpa using hkey
  rw [keys, hmap, replicate_dedup]
  simpa using hgroup

/-- The keys of a group come before the others. -/
theorem keys_append {k : κ} (hgroup : group ≠ []) (hkey : ∀ a ∈ group, key a = k)
    (hother : ∀ a ∈ l, key a ≠ k) :
  keys key (group ++ l) = k :: keys key l
  := by
  have hdisjoint : (group.map key).Disjoint (l.map key).dedup := by
    intro k' hk hk'
    obtain ⟨a, ha, rfl⟩ := mem_map.mp hk
    obtain ⟨b, hb, heq⟩ := mem_map.mp (mem_dedup.mp hk')
    apply hother b hb
    rw [heq, hkey a ha]
  rw [keys, map_append, dedup_append, hdisjoint.union_eq, ← keys,
    keys_eq_singleton hgroup hkey]
  rfl

/-- The elements of the key of a group which is complete are the group. -/
theorem filter_append_eq_group {k : κ} (hkey : ∀ a ∈ group, key a = k)
    (hother : ∀ a ∈ l, key a ≠ k) :
  (group ++ l).filter (fun a => key a = k) = group
  := by
  have hall : group.filter (fun a => key a = k) = group := by
    simpa using hkey
  have hnone : l.filter (fun a => key a = k) = [] := by
    simpa using hother
  rw [filter_append, hall, hnone, append_nil]

variable {emit : List α → Except ε (List β)} {rows : κ → List β} {ρ : Type*} [LinearOrder ρ]
  {rank : κ → ρ}

/-- A stream in the middle of a group processes this group and those which follow. -/
theorem collect_eq_ok_of_group
    (hrank : Function.Injective rank) {k : κ} (hgroup : group ≠ [])
    (hkey : ∀ a ∈ group, key a = k) (output : List β)
    (hsorted : (group ++ l).Pairwise fun a b => rank (key a) ≤ rank (key b))
    (hemit : ∀ a ∈ group ++ l,
      emit ((group ++ l).filter fun b => key b = key a) = .ok (rows (key a))) :
  collect key emit group output l = .ok (output ++ (keys key (group ++ l)).flatMap rows)
  := by
  induction l generalizing group k output with
  | nil =>
    obtain ⟨b, group, rfl⟩ := exists_cons_of_ne_nil hgroup
    have hrows := hemit b (mem_append_left _ mem_cons_self)
    rw [hkey b mem_cons_self, filter_append_eq_group hkey (by simp)] at hrows
    rw [keys_append hgroup hkey (by simp), collect, hrows]
    simp only [keys, map_nil, dedup_nil, flatMap_singleton]
    rfl
  | cons a l ih =>
    obtain ⟨b, group, rfl⟩ := exists_cons_of_ne_nil hgroup
    have hb := hkey b mem_cons_self
    by_cases heq : key b = key a
    · have happend : b :: group ++ a :: l = b :: group ++ [a] ++ l := by
        simp
      rw [collect, if_pos heq, happend]
      rw [happend] at hsorted hemit
      apply ih (by simp) (k := k) _ output hsorted hemit
      intro c hc
      obtain hc | hc := mem_append.mp hc
      · apply hkey c hc
      · rw [mem_singleton.mp hc, ← heq, hb]
    · -- the keys which follow are greater than the key of the group
      obtain ⟨-, htail, hbefore⟩ := pairwise_append.mp hsorted
      have hlt : rank k < rank (key a) := by
        apply lt_of_le_of_ne
        · rw [← hb]
          apply hbefore b mem_cons_self a mem_cons_self
        · intro hranks
          apply heq
          rw [hb, hrank hranks]
      have hother : ∀ c ∈ a :: l, key c ≠ k := by
        intro c hc hck
        have hle : rank (key a) ≤ rank (key c) := by
          obtain rfl | hc := mem_cons.mp hc
          · apply le_refl
          · apply (pairwise_cons.mp htail).1 c hc
        rw [hck] at hle
        apply absurd hlt (not_lt.mpr hle)
      have hrows := hemit b (mem_append_left _ mem_cons_self)
      rw [hb, filter_append_eq_group hkey hother] at hrows
      have htails : ∀ c ∈ [a] ++ l,
          emit (([a] ++ l).filter fun d => key d = key c) = .ok (rows (key c)) := by
        intro c hc
        have hrows' := hemit c (mem_append_right _ hc)
        have hnone : (b :: group).filter (fun d => key d = key c) = [] := by
          apply filter_eq_nil_iff.mpr
          intro d hd hd'
          apply hother c hc
          rw [← of_decide_eq_true hd', hkey d hd]
        rwa [filter_append, hnone] at hrows'
      have hnext := ih (cons_ne_nil a []) (k := key a) (by simp) (output ++ rows k) htail htails
      rw [collect, if_neg heq, hrows, keys_append hgroup hkey hother, flatMap_cons,
        ← append_assoc]
      apply hnext

/-- A stream which is sorted by key processes the elements of every key. -/
theorem collect_eq_ok
    (hrank : Function.Injective rank)
    (hsorted : l.Pairwise fun a b => rank (key a) ≤ rank (key b))
    (hemit : ∀ a ∈ l, emit (l.filter fun b => key b = key a) = .ok (rows (key a))) :
  collect key emit [] [] l = .ok ((keys key l).flatMap rows)
  := by
  cases l with
  | nil => rfl
  | cons a l =>
    apply collect_eq_ok_of_group hrank (k := key a) (cons_ne_nil a []) (by simp) [] hsorted hemit

/-- The elements of the least key come first in a sorted list. -/
theorem filter_append_filter_eq
    {k : κ} (hleast : ∀ a ∈ l, rank k ≤ rank (key a)) (hrank : Function.Injective rank)
    (hsorted : l.Pairwise fun a b => rank (key a) ≤ rank (key b)) :
  l.filter (fun a => key a = k) ++ l.filter (fun a => key a ≠ k) = l
  := by
  induction l with
  | nil => rfl
  | cons a l ih =>
    obtain ⟨hhead, htail⟩ := pairwise_cons.mp hsorted
    have ih := ih (fun b hb => hleast b (mem_cons_of_mem a hb)) htail
    by_cases heq : key a = k
    · simpa [heq] using ih
    · -- the keys which follow are at least that of `a`, hence not the least one
      have hnone : l.filter (fun b => key b = k) = [] := by
        apply filter_eq_nil_iff.mpr
        intro b hb hb'
        apply heq
        apply hrank (le_antisymm _ (hleast a mem_cons_self))
        rw [← of_decide_eq_true hb']
        apply hhead b hb
      rw [hnone, nil_append] at ih
      simp only [filter_cons, heq, decide_false, Bool.false_eq_true, if_false, ne_eq,
        not_false_eq_true, decide_true, if_true, hnone, nil_append]
      rw [ih]

/-- A sorted list is the concatenation of its groups, in the order of their keys. -/
theorem flatMap_filter_eq
    {ks : List κ} (hrank : Function.Injective rank)
    (hkeys : ks.Pairwise fun k k' => rank k < rank k') (hmem : ∀ a ∈ l, key a ∈ ks)
    (hsorted : l.Pairwise fun a b => rank (key a) ≤ rank (key b)) :
  (ks.flatMap fun k => l.filter fun a => key a = k) = l
  := by
  induction ks generalizing l with
  | nil =>
    rw [eq_nil_iff_forall_not_mem.mpr fun a ha => not_mem_nil (hmem a ha)]
    rfl
  | cons k ks ih =>
    obtain ⟨hhead, htail⟩ := pairwise_cons.mp hkeys
    have hleast : ∀ a ∈ l, rank k ≤ rank (key a) := by
      intro a ha
      obtain heq | hlater := mem_cons.mp (hmem a ha)
      · rw [heq]
      · apply le_of_lt (hhead _ hlater)
    have hrest := @ih (l.filter fun a => key a ≠ k) htail
      (by
        intro a ha
        obtain ⟨ha, hne⟩ := mem_filter.mp ha
        apply (mem_cons.mp (hmem a ha)).resolve_left (of_decide_eq_true hne))
      (hsorted.filter _)
    have hsame : (ks.flatMap fun k' => (l.filter fun a => key a ≠ k).filter fun a => key a = k') =
        ks.flatMap fun k' => l.filter fun a => key a = k' := by
      apply flatMap_congr
      intro k' hk'
      rw [filter_filter]
      apply filter_congr
      intro a _
      have hne : k' ≠ k := fun heq => absurd (hhead k' hk') (by simp [heq])
      rw [Bool.eq_iff_iff]
      simp only [Bool.and_eq_true, decide_eq_true_eq]
      constructor
      · rintro ⟨heq, -⟩
        apply heq
      · rintro rfl
        use rfl, hne
    rw [flatMap_cons, ← hsame, hrest, filter_append_filter_eq hleast hrank hsorted]

end Grouping
