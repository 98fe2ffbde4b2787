import Mathlib

/-!
# Set-associative tables

A table of bounded size keeps values by key.  Each key has a home, a small set of ways, in one of
which its value is if the table has it.  A value which is put into a way replaces whatever was there.

A table is sound for a relation of keys and values if the values which a lookup can find are
related to their keys, and no set has two ways for one key.  When the relation changes for one key
only, replacing or clearing the way of that key keeps a table sound.
-/

universe u v

namespace SetAssociative

open List Option

/-- The ways of a set. -/
abbrev Ways (K : Type u) (V : Type v) : Type (max u v) :=
  List (Option (K × V))

/-- The sets of a table. -/
abbrev Table (K : Type u) (V : Type v) : Type (max u v) :=
  List (Ways K V)

section Ways

variable {K : Type u} {V : Type v} {ways : Ways K V} {k k' : K} {v w : V} {i : Nat}

/-- A way is the one of a key. -/
def isOf [DecidableEq K] (k : K) (way : Option (K × V)) : Bool :=
  way.any fun p => p.1 = k

/-- The place of the way of a key. -/
def find [DecidableEq K] (k : K) (ways : Ways K V) : Option Nat :=
  ways.findIdx? (isOf k)

/-- The value of a key. -/
def lookup [DecidableEq K] (k : K) (ways : Ways K V) : Option V :=
  (ways.find? (isOf k)).bind fun way => way.map Prod.snd

/-- No two ways are of one key. -/
def Unique (ways : Ways K V) : Prop :=
  ∀ (i j : Nat) (k : K) (v w : V),
    ways[i]? = some (some (k, v)) → ways[j]? = some (some (k, w)) → i = j

/-- The ways of a key are at a place. -/
def OnlyAt (ways : Ways K V) (k : K) (i : Nat) : Prop :=
  ∀ (j : Nat) (v : V), ways[j]? = some (some (k, v)) → j = i

theorem isOf_iff [DecidableEq K] {way : Option (K × V)} :
  isOf k way = true ↔ ∃ v, way = some (k, v)
  := by
  cases way with
  | none => simp [isOf]
  | some p =>
    obtain ⟨key, value⟩ := p
    simp only [isOf, any_some, decide_eq_true_eq]
    constructor
    · rintro rfl
      use value
    · rintro ⟨_, rfl, -⟩
      rfl

theorem mem_of_lookup [DecidableEq K] (h : lookup k ways = some v) :
  some (k, v) ∈ ways
  := by
  obtain ⟨way, hfind, hvalue⟩ := bind_eq_some_iff.mp h
  obtain ⟨value, rfl⟩ := isOf_iff.mp (find?_some hfind)
  obtain rfl := some.inj hvalue
  apply mem_of_find?_eq_some hfind

theorem find_eq_none_of_lookup [DecidableEq K] (h : lookup k ways = none) :
  find k ways = none
  := by
  apply findIdx?_eq_none_iff.mpr
  intro way hway
  by_contra hof
  obtain ⟨found, hfound⟩ := isSome_iff_exists.mp
    (find?_isSome.mpr ⟨way, hway, Bool.eq_true_of_not_eq_false hof⟩)
  obtain ⟨v, rfl⟩ := isOf_iff.mp (find?_some hfound)
  rw [lookup, hfound] at h
  cases h

theorem onlyAt_of_find [DecidableEq K] (h : Unique ways) (hfind : find k ways = some i) :
  OnlyAt ways k i
  := by
  intro j v hj
  obtain ⟨hlt, hof, -⟩ := findIdx?_eq_some_iff_getElem.mp hfind
  obtain ⟨w, hw⟩ := isOf_iff.mp hof
  apply h j i k v w hj
  rw [getElem?_eq_getElem hlt, hw]

theorem onlyAt_of_find_eq_none [DecidableEq K] (hfind : find k ways = none) (i : Nat) :
  OnlyAt ways k i
  := by
  intro j v hj
  have hnone := findIdx?_eq_none_iff.mp hfind _ (mem_of_getElem? hj)
  rw [isOf_iff.mpr ⟨v, rfl⟩] at hnone
  cases hnone

theorem Unique.set {way : Option (K × V)} (h : Unique ways) (hi : OnlyAt ways k i)
    (hway : ∀ key value, way = some (key, value) → key = k) :
  Unique (ways.set i way)
  := by
  grind [OnlyAt, Unique]

/-- The ways of a key are replaced. -/
theorem eq_of_mem_set {way : Option (K × V)} (hi : OnlyAt ways k i)
    (h : some (k, w) ∈ ways.set i way) :
  way = some (k, w)
  := by
  obtain ⟨j, hj⟩ := mem_iff_getElem?.mp h
  grind [OnlyAt]

end Ways

section Table

variable {K : Type u} {V : Type v} {home : K → Nat} {P P' : K → V → Prop} {table : Table K V}
  {k : K} {v : V} {i : Nat}

/-- The home of a key. -/
def homeWays (home : K → Nat) (table : Table K V) (k : K) : Ways K V :=
  table.getD (home k) []

/-- A way of the home of a key is written. -/
def write (home : K → Nat) (table : Table K V) (k : K) (i : Nat) (way : Option (K × V)) :
    Table K V :=
  table.set (home k) ((homeWays home table k).set i way)

@[simp]
theorem length_write (way : Option (K × V)) :
  (write home table k i way).length = table.length
  := length_set

/-- The values which a lookup can find are related to their keys. -/
structure Sound (home : K → Nat) (P : K → V → Prop) (table : Table K V) : Prop where
  unique : ∀ k, Unique (homeWays home table k)
  related : ∀ k v, some (k, v) ∈ homeWays home table k → P k v

/-- A table without values is sound. -/
theorem sound_of_forall_eq_none (h : ∀ ways ∈ table, ∀ way ∈ ways, way = none) :
  Sound home P table
  := by
  have hnone (k : K) (p : K × V) : some p ∉ homeWays home table k := by
    intro hp
    rw [homeWays, getD_eq_getElem?_getD] at hp
    cases hways : table[home k]? with
    | none => simp [hways] at hp
    | some ways =>
      rw [hways] at hp
      cases h ways (mem_of_getElem? hways) _ hp
  constructor
  · intro k i j key v w hi
    cases hnone k _ (mem_of_getElem? hi)
  · intro k v hv
    cases hnone k _ hv

theorem Sound.mono (h : Sound home P table) (himp : ∀ k v, P k v → P' k v) :
  Sound home P' table
  where
  unique := h.unique
  related k v hv := himp k v (h.related k v hv)

theorem homeWays_write (way : Option (K × V)) (k' : K) :
  homeWays home (write home table k i way) k' =
    if home k' = home k then (homeWays home table k).set i way else homeWays home table k'
  := by
  simp only [homeWays, write]
  by_cases heq : home k = home k'
  · simp only [heq]
    by_cases hlt : home k' < table.length
    · simp [hlt]
    · simp [hlt]
  · simp [heq, Ne.symm heq]

/-- The way of a key, or another one if it has none, is replaced. -/
theorem Sound.replace {way : Option (K × V)} (h : Sound home P table)
    (hi : OnlyAt (homeWays home table k) k i) (hway : ∀ key v, way = some (key, v) → key = k ∧ P' k v)
    (hother : ∀ k' w, k' ≠ k → P k' w → P' k' w) :
  Sound home P' (write home table k i way)
  where
  unique k' := by
    rw [homeWays_write]
    split
    · apply (h.unique k).set hi fun key v hv => (hway key v hv).1
    · apply h.unique
  related k' w hw := by
    rw [homeWays_write] at hw
    by_cases hkey : k' = k
    · obtain rfl := hkey
      rw [if_pos rfl] at hw
      apply (hway _ _ (eq_of_mem_set hi hw)).2
    · apply hother k' w hkey
      apply h.related
      split at hw
      case isTrue heq =>
        obtain hmem | hmem := mem_or_eq_of_mem_set hw
        · rwa [homeWays, ← heq] at hmem
        · cases hkey (hway _ _ hmem.symm).1
      · exact hw

/-- A new value is put into the way of its key, or into another one if it has none. -/
theorem Sound.put (h : Sound home P table) (hi : OnlyAt (homeWays home table k) k i)
    (hnew : P' k v) (hother : ∀ k' w, k' ≠ k → P k' w → P' k' w) :
  Sound home P' (write home table k i (some (k, v)))
  := by
  apply h.replace hi _ hother
  rintro _ _ ⟨⟩
  use rfl

/-- If the relation changes for a key which the table does not have, the table stays sound. -/
theorem Sound.of_find_eq_none [DecidableEq K] (h : Sound home P table)
    (hfind : find k (homeWays home table k) = none)
    (hother : ∀ k' w, k' ≠ k → P k' w → P' k' w) :
  Sound home P' table
  where
  unique := h.unique
  related k' w hw := by
    by_cases hkey : k' = k
    · obtain rfl := hkey
      have hnone := findIdx?_eq_none_iff.mp hfind _ hw
      rw [isOf_iff.mpr ⟨w, rfl⟩] at hnone
      cases hnone
    · apply hother k' w hkey (h.related k' w hw)

end Table

end SetAssociative
