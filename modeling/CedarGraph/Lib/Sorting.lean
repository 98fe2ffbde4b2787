import Mathlib

/-!
# Sorting with an open order of ties

A `Sorter` for a key is a routine that permutes a list into non-decreasing order of the
key, and leaves the order of entries with equal keys open.  On a list whose keys are
pairwise distinct all sorters agree.

A `LessSort` does the same for comparisons.

`lastOfRuns` keeps the last entry of every run of equal keys.  On a list sorted by a pair
of a key and a rank it keeps, for every key, an entry of greatest rank.
-/

universe u v w

/-- A comparison which orders the entries of a list up to ties. -/
structure StrictWeakOn {α : Type u} (less : α → α → Bool) (l : List α) : Prop where
  asymm : ∀ a ∈ l, ∀ b ∈ l, less a b = true → less b a = false
  trans : ∀ a ∈ l, ∀ b ∈ l, ∀ c ∈ l, less b a = false → less c b = false → less c a = false

/-- A routine that permutes a list, into the order of a comparison if that orders the list up to
ties.  The order of ties is open, and so is the permutation for any other comparison. -/
structure LessSort (α : Type u) where
  /-- The sorted list. -/
  sort : (α → α → Bool) → List α → List α
  /-- Sorting permutes. -/
  perm : ∀ less l, (sort less l).Perm l
  /-- No entry is less than an earlier one. -/
  sorted : ∀ less l, StrictWeakOn less l → (sort less l).Pairwise fun a b => less b a = false

open List

/-- A list is put into the order of a comparison which orders it up to ties. -/
theorem StrictWeakOn.pairwise_insertionSort {α : Type u} {less : α → α → Bool} {l : List α}
    (h : StrictWeakOn less l) :
  (l.insertionSort fun a b => less b a = false).Pairwise fun a b => less b a = false
  := by
  -- the comparison is an order of the entries
  let r (a b : {a // a ∈ l}) : Prop := less b.1 a.1 = false
  have : Std.Total r := ⟨fun a b => by
    rw [or_iff_not_imp_left]
    intro hnot
    apply h.asymm b b.2 a a.2 (by simpa [r] using hnot)⟩
  have : IsTrans _ r := ⟨fun a b c => h.trans a a.2 b b.2 c c.2⟩
  have hmap := map_insertionSort (r := r) (s := fun a b => less b a = false) Subtype.val l.attach
    (by simp [r])
  rw [attach_map_subtype_val] at hmap
  rw [← hmap]
  apply (List.pairwise_insertionSort r l.attach).map
  intro a b hab
  apply hab

/-- Sorting by a comparison of keys puts the keys in order. -/
theorem LessSort.pairwise_sort {α : Type u} {κ : Type v} [LinearOrder κ] (s : LessSort α)
    {less : α → α → Bool} {key : α → κ} (h : ∀ a b, less b a = false ↔ key a ≤ key b)
    (l : List α) :
  (s.sort less l).Pairwise fun a b => key a ≤ key b
  := by
  have hless : StrictWeakOn less l := by
    constructor
    · intro a _ b _ hab
      rw [h]
      apply le_of_not_ge
      intro hle
      rw [(h b a).mpr hle] at hab
      cases hab
    · intro a _ b _ c _
      simp only [h]
      apply le_trans
  apply (s.sorted less l hless).imp
  intro a b
  apply (h a b).mp

/-- Insertion sort, which keeps ties in order. -/
def LessSort.insertion (α : Type u) : LessSort α where
  sort less l := l.insertionSort fun a b => less b a = false
  perm _ l := List.perm_insertionSort _ l
  sorted _ _ h := h.pairwise_insertionSort

/-- A routine that permutes a list into non-decreasing order of `key`.  The order of entries
with equal keys is open. -/
structure Sorter {α : Type u} {κ : Type v} [LinearOrder κ] (key : α → κ) where
  /-- The sorted list. -/
  sort : List α → List α
  /-- Sorting permutes. -/
  perm : ∀ l, (sort l).Perm l
  /-- The result is non-decreasing. -/
  sorted : ∀ l, (sort l).Pairwise fun a b => key a ≤ key b

namespace Sorter

variable {α : Type u} {κ : Type v} [LinearOrder κ] {key : α → κ}

/-- Insertion sort, which keeps entries with equal keys in order. -/
def insertion (key : α → κ) : Sorter key where
  sort l := l.insertionSort fun a b => key a ≤ key b
  perm l := List.perm_insertionSort _ l
  sorted l := by
    have : Std.Total fun a b : α => key a ≤ key b := ⟨fun a b => le_total (key a) (key b)⟩
    have : IsTrans α fun a b : α => key a ≤ key b := ⟨fun _ _ _ => le_trans⟩
    apply List.pairwise_insertionSort

/-- The routine which leaves a sorted list alone and sorts any other. -/
def unlessSorted (s : Sorter key) : Sorter key where
  sort l := if l.Pairwise fun a b => key a ≤ key b then l else s.sort l
  perm l := by
    split
    · apply List.Perm.refl
    · apply s.perm
  sorted l := by
    split
    case isTrue h => exact h
    case isFalse => apply s.sorted

@[simp]
theorem mem_sort (s : Sorter key) {l : List α} {a : α} :
  a ∈ s.sort l ↔ a ∈ l
  := by
  apply (s.perm l).mem_iff

/-- Sorters agree on permutations of a list whose keys are pairwise distinct. -/
theorem sort_eq_of_perm
    (s s' : Sorter key) {l l' : List α} (hperm : l.Perm l') (hdistinct : (l.map key).Nodup) :
  s.sort l = s'.sort l'
  := by
  have hp : (s.sort l).Perm (s'.sort l') := ((s.perm l).trans hperm).trans (s'.perm l').symm
  apply hp.eq_of_pairwise _ (s.sorted l) (s'.sorted l')
  intro a b ha hb hab hba
  have hb' : b ∈ s.sort l := hp.mem_iff.mpr hb
  apply inj_on_of_nodup_map hdistinct (s.mem_sort.mp ha) (s.mem_sort.mp hb')
  apply le_antisymm hab hba

end Sorter

/-! ### Runs of equal keys -/

section Runs

variable {α : Type u} {κ : Type v}

/-- The last entry of every run of entries with equal keys. -/
def lastOfRuns [DecidableEq κ] (key : α → κ) : List α → List α
  | [] => []
  | [a] => [a]
  | a :: b :: rest =>
      if key b = key a then lastOfRuns key (b :: rest) else a :: lastOfRuns key (b :: rest)

/-- The entries kept are entries of the list. -/
theorem mem_of_mem_lastOfRuns [DecidableEq κ] (key : α → κ) :
    ∀ {l : List α} {a : α}, a ∈ lastOfRuns key l → a ∈ l
  | [a], _, h => h
  | a :: b :: rest, c, h => by
      rw [lastOfRuns] at h
      split at h
      · apply mem_cons_of_mem _ (mem_of_mem_lastOfRuns key h)
      · obtain rfl | h := mem_cons.mp h
        · apply mem_cons_self
        · apply mem_cons_of_mem _ (mem_of_mem_lastOfRuns key h)

/-- Every key of the list is the key of an entry that is kept. -/
theorem exists_mem_lastOfRuns [DecidableEq κ] (key : α → κ) :
    ∀ {l : List α} {a : α}, a ∈ l → ∃ b ∈ lastOfRuns key l, key b = key a
  | [a], _, h => ⟨a, mem_singleton_self a, by rw [mem_singleton.mp h]⟩
  | a :: b :: rest, c, h => by
      rw [lastOfRuns]
      split
      case isTrue hkey =>
        obtain rfl | h := mem_cons.mp h
        · obtain ⟨d, hd, hdb⟩ := exists_mem_lastOfRuns key (mem_cons_self (a := b) (l := rest))
          exact ⟨d, hd, hdb.trans hkey⟩
        · apply exists_mem_lastOfRuns key h
      case isFalse =>
        obtain rfl | h := mem_cons.mp h
        · exact ⟨c, mem_cons_self, rfl⟩
        · obtain ⟨d, hd, hdc⟩ := exists_mem_lastOfRuns key h
          exact ⟨d, mem_cons_of_mem _ hd, hdc⟩

variable {ρ : Type w} [LinearOrder κ] [LinearOrder ρ] (key : α → κ) (rank : α → ρ)

/-- On a list sorted by key, the entries kept have strictly increasing keys. -/
theorem pairwise_lastOfRuns :
    ∀ {l : List α}, (l.Pairwise fun a b => key a ≤ key b) →
      (lastOfRuns key l).Pairwise fun a b => key a < key b
  | [], _ => Pairwise.nil
  | [a], _ => pairwise_singleton _ a
  | a :: b :: rest, h => by
      obtain ⟨hab, htail⟩ := pairwise_cons.mp h
      rw [lastOfRuns]
      split
      case isTrue => apply pairwise_lastOfRuns htail
      case isFalse hne =>
        apply Pairwise.cons _ (pairwise_lastOfRuns htail)
        intro c hc
        -- `b` is least among the entries after `a`, and its key is not that of `a`
        have hbc : key b ≤ key c := by
          obtain rfl | hc := mem_cons.mp (mem_of_mem_lastOfRuns key hc)
          · apply le_refl
          · apply (pairwise_cons.mp htail).1 c hc
        have hlt : key a < key b := lt_of_le_of_ne (hab b mem_cons_self) (Ne.symm hne)
        apply lt_of_lt_of_le hlt hbc

/-- On a list sorted by key and rank, an entry that is kept has the greatest rank of its key. -/
theorem rank_le_of_mem_lastOfRuns :
    ∀ {l : List α}, (l.Pairwise fun a b => toLex (key a, rank a) ≤ toLex (key b, rank b)) →
      ∀ {a b : α}, b ∈ lastOfRuns key l → a ∈ l → key a = key b → rank a ≤ rank b
  | [c], _, a, b, hb, ha, _ => by
      rw [mem_singleton.mp ha, mem_singleton.mp hb]
  | c :: d :: rest, h, a, b, hb, ha, hkey => by
      obtain ⟨hc, htail⟩ := pairwise_cons.mp h
      -- ranks do not decrease along entries of one key
      have hrank : ∀ e ∈ d :: rest, key c = key e → rank c ≤ rank e := by
        intro e he heq
        obtain hlt | ⟨-, hle⟩ := Prod.Lex.toLex_le_toLex.mp (hc e he)
        · exact absurd heq (ne_of_lt hlt)
        · exact hle
      rw [lastOfRuns] at hb
      split at hb
      case isTrue hdc =>
        obtain rfl | ha := mem_cons.mp ha
        · apply hrank b (mem_of_mem_lastOfRuns key hb) hkey
        · apply rank_le_of_mem_lastOfRuns htail hb ha hkey
      case isFalse hdc =>
        obtain rfl | hb' := mem_cons.mp hb
        · obtain rfl | ha := mem_cons.mp ha
          · apply le_refl
          · have hkeys : (b :: d :: rest).Pairwise fun x y => key x ≤ key y := by
              apply h.imp
              intro x y hxy
              obtain hlt | ⟨heq, -⟩ := Prod.Lex.toLex_le_toLex.mp hxy
              · apply le_of_lt hlt
              · apply le_of_eq heq
            obtain ⟨hbd, hdrest⟩ := pairwise_cons.mp hkeys
            have hda : key d ≤ key a := by
              obtain rfl | ha := mem_cons.mp ha
              · apply le_refl
              · apply (pairwise_cons.mp hdrest).1 a ha
            have hdb : key d = key b :=
              le_antisymm (hkey ▸ hda) (hbd d mem_cons_self)
            exact absurd hdb hdc
        · obtain rfl | ha := mem_cons.mp ha
          · apply hrank b (mem_of_mem_lastOfRuns key hb') hkey
          · apply rank_le_of_mem_lastOfRuns htail hb' ha hkey

end Runs
