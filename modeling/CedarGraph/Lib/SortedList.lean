import Mathlib

/-!
# Scans of sorted lists

If a property holds of the entries up to some place of a list, then the entries which a scan passes
or stops at while the property holds are those which have the property.  The first entry with a
property in a list sorted by a relation is the one which is related to all others.
-/

universe u

namespace List

variable {α : Type u} {l : List α} {p : α → Bool} {r : α → α → Prop}

/-- A scan takes the entries with a property, if these come first. -/
theorem takeWhile_eq_filter (h : l.Pairwise fun a b => p b = true → p a = true) :
  l.takeWhile p = l.filter p
  := by
  induction h with
  | nil => rfl
  | @cons a l ha hl ih =>
    by_cases hp : p a = true
    · rw [takeWhile_cons_of_pos hp, filter_cons_of_pos hp, ih]
    · have hnone : l.filter p = [] := filter_eq_nil_iff.mpr fun b hb => mt (ha b hb) hp
      rw [takeWhile_cons_of_neg hp, filter_cons_of_neg hp, hnone]

/-- A scan drops the entries with a property, if these come first. -/
theorem dropWhile_eq_filter (h : l.Pairwise fun a b => p b = true → p a = true) :
  l.dropWhile p = l.filter fun a => !p a
  := by
  induction h with
  | nil => rfl
  | @cons a l ha hl ih =>
    by_cases hp : p a = true
    · rw [dropWhile_cons_of_pos hp, filter_cons_of_neg (by simp [hp]), ih]
    · have hall : l.filter (fun a => !p a) = l := by
        apply filter_eq_self.mpr
        intro b hb
        simpa using mt (ha b hb) hp
      rw [dropWhile_cons_of_neg hp, filter_cons_of_pos (by simp [hp]), hall]

/-- The first entry with a property comes before all other ones. -/
theorem rel_of_find?_eq_some {a b : α} (h : l.Pairwise r) (hfind : l.find? p = some a)
    (hb : b ∈ l) (hpb : p b = true) :
  b = a ∨ r a b
  := by
  induction h with
  | nil => cases hb
  | @cons c l hc hl ih =>
    by_cases hp : p c = true
    · rw [find?_cons_of_pos hp] at hfind
      obtain rfl := Option.some.inj hfind
      obtain rfl | hb := mem_cons.mp hb
      · left
        rfl
      · right
        apply hc b hb
    · rw [find?_cons_of_neg hp] at hfind
      obtain rfl | hb := mem_cons.mp hb
      · contradiction
      · apply ih hfind hb

/-- The first entry with a property is the one which comes before all other ones. -/
theorem find?_eq_some_iff_rel
    (h : l.Pairwise r) (hasymm : ∀ a b, r a b → ¬ r b a) {a : α} :
  l.find? p = some a ↔ a ∈ l ∧ p a = true ∧ ∀ b ∈ l, p b = true → b = a ∨ r a b
  := by
  constructor
  · intro hfind
    use mem_of_find?_eq_some hfind, find?_some hfind
    intro b hb hpb
    apply rel_of_find?_eq_some h hfind hb hpb
  · rintro ⟨ha, hpa, hall⟩
    have hsome : (l.find? p).isSome = true := find?_isSome.mpr ⟨a, ha, hpa⟩
    obtain ⟨b, hfind⟩ := Option.isSome_iff_exists.mp hsome
    rw [hfind]
    obtain rfl | hba := rel_of_find?_eq_some h hfind ha hpa
    · rfl
    · obtain rfl | hab := hall b (mem_of_find?_eq_some hfind) (find?_some hfind)
      · rfl
      · cases hasymm a b hab hba

/-- Lists which are sorted by an asymmetric relation are equal if they have the same entries. -/
theorem eq_of_pairwise_of_mem_iff {l' : List α} (hasymm : ∀ a b, r a b → ¬ r b a)
    (h : l.Pairwise r) (h' : l'.Pairwise r) (hmem : ∀ a, a ∈ l ↔ a ∈ l') :
  l = l'
  := by
  have hnodup : ∀ {m : List α}, m.Pairwise r → m.Nodup := by
    intro m hm
    apply hm.imp
    rintro a _ haa rfl
    apply hasymm a a haa haa
  have hperm : l.Perm l' := (perm_ext_iff_of_nodup (hnodup h) (hnodup h')).mpr hmem
  apply hperm.eq_of_pairwise _ h h'
  intro a b _ _ hab hba
  cases hasymm a b hab hba

/-- An increasing list of as many numbers as there are from a number on is the range of them. -/
theorem eq_range'_of_pairwise_lt {l : List Nat} {low : Nat} (hsorted : l.Pairwise (· < ·))
    (hbounds : ∀ n ∈ l, low ≤ n ∧ n < low + l.length) :
  l = range' low l.length
  := by
  induction l generalizing low with
  | nil => rfl
  | cons n l ih =>
    obtain ⟨hfirst, hsorted⟩ := pairwise_cons.mp hsorted
    obtain ⟨hn, hbounds⟩ := forall_mem_cons.mp hbounds
    rw [length_cons] at hn hbounds
    have hrest : l = range' (low + 1) l.length := by
      apply ih hsorted
      intro m hm
      have hlt := hfirst m hm
      have hbound := hbounds m hm
      omega
    have heq : n = low := by
      cases l with
      | nil =>
        rw [length_nil] at hn
        omega
      | cons m l =>
        have hm := (cons.inj hrest).1
        have hlt := hfirst m mem_cons_self
        omega
    rw [length_cons, range'_succ, heq, ← hrest]

end List
