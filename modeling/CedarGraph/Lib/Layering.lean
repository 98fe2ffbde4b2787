import Mathlib

/-!
# Layers of a graph which changes with time

A graph on the vertices `V` has at every instant of `T` its own steps.  A search from the sources
goes by layers, and it carries with a vertex the instants at which it was reached.  A vertex belongs
to one layer: the first one in which some instant reaches it.  Later layers leave it out, also at
instants at which it was not reached before.

The main result is when the first layers together show every walk at every instant: exactly if the
least number of steps to a vertex does not depend on the instant.
-/

universe u v

namespace Layering

open Nat

variable {V : Type u} {T : Type v} (source : V → Prop) (inside : T → Prop) (step : T → V → V → Prop)

/-- At the instant `t` there is a walk of so many steps from a source. -/
inductive Walk (t : T) : Nat → V → Prop
  | source {v : V} : source v → Walk t 0 v
  | step {n : Nat} {u v : V} : Walk t n u → step t u v → Walk t (n + 1) v

/-- The walk has the least number of steps. -/
def Least (t : T) (n : Nat) (v : V) : Prop :=
  Walk source step t n v ∧ ∀ m < n, ¬ Walk source step t m v

/-- The layers up to the given one: the vertices in them, and in the last one the instants which
reach a vertex. -/
def layers : Nat → (V → Prop) × (V → T → Prop)
  | 0 => (source, fun v t => source v ∧ inside t)
  | n + 1 =>
      let reached v t := ¬ (layers n).1 v ∧ ∃ u, (layers n).2 u t ∧ step t u v
      (fun v => (layers n).1 v ∨ ∃ t, reached v t, reached)

/-- The vertices in the first layers. -/
def Visited (n : Nat) (v : V) : Prop :=
  (layers source inside step n).1 v

/-- The vertices of a layer, at the instants which reach them. -/
def Layer (n : Nat) (v : V) (t : T) : Prop :=
  (layers source inside step n).2 v t

/-- At every instant the first layers show the vertices, other than the sources, to which there is
a walk. -/
def Complete (k : Nat) : Prop :=
  ∀ v t, ¬ source v → inside t →
    ((∃ n ≤ k, Layer source inside step n v t) ↔ ∃ n ≤ k, Walk source step t n v)

/-- The least number of steps to a vertex is the same at all instants at which there are few
enough. -/
def HopConstant (k : Nat) : Prop :=
  ∀ v s t, ¬ source v → inside s → inside t → ∀ m ≤ k, ∀ n ≤ k,
    Least source step s m v → Least source step t n v → m = n

variable {source inside step} {k m n : Nat} {u v : V} {s t : T}

/-! ### Walks -/

/-- A shortest walk is not longer than any walk. -/
theorem Walk.exists_least (h : Walk source step t n v) :
  ∃ m ≤ n, Least source step t m v
  := by
  classical
  have hwalk : ∃ m, Walk source step t m v := ⟨n, h⟩
  use Nat.find hwalk, Nat.find_le h
  apply And.intro (Nat.find_spec hwalk)
  intro m hm
  apply Nat.find_min hwalk hm

/-- A source has the walk without steps. -/
theorem Least.of_source (h : source v) :
  Least source step t 0 v
  := by
  use .source h
  intro m hm
  cases hm

theorem Least.eq (h : Least source step t m v) (h' : Least source step t n v) :
  m = n
  := by
  rcases lt_trichotomy m n with hlt | heq | hgt
  · cases h'.2 m hlt h.1
  · apply heq
  · cases h.2 n hgt h'.1

/-- The last step of a shortest walk follows a shortest walk. -/
theorem Least.exists_step (h : Least source step t (n + 1) v) :
  ∃ u, Least source step t n u ∧ step t u v
  := by
  obtain ⟨hwalk, hleast⟩ := h
  cases hwalk with
  | @step _ u _ hwalk hstep =>
    use u
    refine ⟨⟨hwalk, ?_⟩, hstep⟩
    intro m hm hshort
    apply hleast (m + 1) (succ_lt_succ hm) (hshort.step hstep)

/-! ### Layers -/

theorem layer_succ_iff :
  Layer source inside step (n + 1) v t ↔
    ¬ Visited source inside step n v ∧ ∃ u, Layer source inside step n u t ∧ step t u v
  := Iff.rfl

theorem visited_succ_iff :
  Visited source inside step (n + 1) v ↔
    Visited source inside step n v ∨ ∃ t, Layer source inside step (n + 1) v t
  := Iff.rfl

/-- A vertex is visited if it is a source or belongs to one of the layers. -/
theorem visited_iff :
  Visited source inside step n v ↔
    source v ∨ ∃ m ≤ n, ∃ t, Layer source inside step m v t
  := by
  induction n with
  | zero =>
    constructor
    · apply Or.inl
    · rintro (h | ⟨m, hm, t, ht⟩)
      · apply h
      · obtain rfl := le_zero.mp hm
        apply ht.1
  | succ n ih =>
    rw [visited_succ_iff, ih]
    constructor
    · rintro ((h | ⟨m, hm, h⟩) | h)
      · apply Or.inl h
      · apply Or.inr ⟨m, le_succ_of_le hm, h⟩
      · apply Or.inr ⟨n + 1, le_refl _, h⟩
    · rintro (h | ⟨m, hm, h⟩)
      · apply Or.inl (Or.inl h)
      · rcases le_succ_iff.mp hm with hm | rfl
        · apply Or.inl (Or.inr ⟨m, hm, h⟩)
        · apply Or.inr h

/-- A layer shows instants of walks. -/
theorem Layer.walk (h : Layer source inside step n v t) :
  Walk source step t n v ∧ inside t
  := by
  induction n generalizing v with
  | zero => use .source h.1, h.2
  | succ n ih =>
    obtain ⟨-, u, hu, hstep⟩ := h
    use (ih hu).1.step hstep, (ih hu).2

/-- A vertex belongs to one layer. -/
theorem Layer.eq (h : Layer source inside step m v s) (h' : Layer source inside step n v t) :
  m = n
  := by
  wlog hlt : m < n generalizing m n s t
  · rcases lt_or_ge n m with hgt | hge
    · apply (this h' h hgt).symm
    · apply le_antisymm hge (not_lt.mp hlt)
  obtain ⟨n, rfl⟩ := exists_eq_succ_of_ne_zero (ne_zero_of_lt hlt)
  cases h'.1 (visited_iff.mpr (Or.inr ⟨m, le_of_lt_succ hlt, s, h⟩))

/-- A step from a layer leads to a visited vertex. -/
theorem Layer.visited_of_step (h : Layer source inside step n u t) (hstep : step t u v) :
  Visited source inside step (n + 1) v
  := by
  by_cases hv : Visited source inside step n v
  · apply Or.inl hv
  · apply Or.inr ⟨t, hv, u, h, hstep⟩

/-- No layer after an empty one has a vertex. -/
theorem not_layer_of_le (h : ∀ v t, ¬ Layer source inside step m v t) (hle : m ≤ n) :
  ∀ v t, ¬ Layer source inside step n v t
  := by
  induction hle with
  | refl => apply h
  | step _ ih =>
    rintro v t ⟨-, u, hu, -⟩
    apply ih u t hu

/-! ### Completeness -/

/-- Where the number of steps does not depend on the instant, the layers are the shortest walks. -/
theorem HopConstant.layer_iff (h : HopConstant source inside step k) (hn : n ≤ k) :
  Layer source inside step n v t ↔ Least source step t n v ∧ inside t
  := by
  -- strong induction, since a vertex outside a layer may have been visited in any earlier one
  induction n using Nat.strong_induction_on generalizing v t with
  | _ n ih =>
    cases n with
    | zero =>
      constructor
      · rintro ⟨hsource, ht⟩
        use .of_source hsource, ht
      · rintro ⟨⟨hwalk, -⟩, ht⟩
        cases hwalk with
        | source hsource => use hsource, ht
    | succ n =>
      have hbelow : n ≤ k := Nat.le_of_succ_le hn
      rw [layer_succ_iff, visited_iff]
      constructor
      · rintro ⟨hnew, u, hu, hstep⟩
        obtain ⟨hleast, ht⟩ := (ih n (Nat.lt_succ_self n) hbelow).mp hu
        refine ⟨⟨hleast.1.step hstep, ?_⟩, ht⟩
        intro m hm hwalk
        obtain ⟨m', hle, hshort⟩ := hwalk.exists_least
        have hlt : m' < n + 1 := lt_of_le_of_lt hle hm
        apply hnew (Or.inr ⟨m', Nat.le_of_lt_succ hlt, t, ?_⟩)
        apply (ih m' hlt (by omega)).mpr ⟨hshort, ht⟩
      · rintro ⟨hleast, ht⟩
        obtain ⟨u, hu, hstep⟩ := hleast.exists_step
        refine ⟨?_, u, (ih n (Nat.lt_succ_self n) hbelow).mpr ⟨hu, ht⟩, hstep⟩
        have hsource : ¬ source v := by
          intro hsource
          cases hleast.eq (.of_source hsource)
        rintro (hs | ⟨m, hm, s, hs⟩)
        · apply hsource hs
        · obtain ⟨hshort, hs⟩ := (ih m (Nat.lt_succ_of_le hm) (by omega)).mp hs
          have heq := h v s t hsource hs ht m (by omega) (n + 1) hn hshort hleast
          omega

/-- In complete layers a vertex with a walk belongs to a layer which is not later than the walk is
long, and it shows the instant of the walk. -/
theorem Complete.exists_layer (h : Complete source inside step k) (hn : n ≤ k) (ht : inside t)
    (hwalk : Walk source step t n v) :
  ∃ m ≤ n, Layer source inside step m v t
  := by
  induction hwalk with
  | source hsource => use 0, le_refl _, hsource, ht
  | @step n u v hwalk hstep ih =>
    obtain ⟨m, hm, hu⟩ := ih (le_of_succ_le hn)
    by_cases hsource : source v
    · use 0, zero_le _, hsource, ht
    -- the vertex is visited one layer after `u` or before, and this is the layer which shows `t`
    obtain ⟨m', -, hlayer⟩ := (h v t hsource ht).mpr ⟨n + 1, hn, hwalk.step hstep⟩
    rcases visited_iff.mp (hu.visited_of_step hstep) with hs | ⟨d, hd, s, hs⟩
    · cases hsource hs
    · obtain rfl := hs.eq hlayer
      use d, by omega

/-- The layers are complete exactly if the number of steps to a vertex does not depend on the
instant. -/
theorem complete_iff_hopConstant :
  Complete source inside step k ↔ HopConstant source inside step k
  := by
  constructor
  · intro h v s t hsource hs ht m hm n hn hleast hleast'
    have hlayer : ∀ {r d}, inside r → d ≤ k → Least source step r d v →
        Layer source inside step d v r := by
      intro r d hr hd hshort
      obtain ⟨d', hle, hlayer⟩ := h.exists_layer hd hr hshort.1
      rcases lt_or_eq_of_le hle with hlt | rfl
      · cases hshort.2 d' hlt hlayer.walk.1
      · apply hlayer
    apply (hlayer hs hm hleast).eq (hlayer ht hn hleast')
  · intro h v t hsource ht
    constructor
    · rintro ⟨n, hn, hlayer⟩
      use n, hn, hlayer.walk.1
    · rintro ⟨n, hn, hwalk⟩
      obtain ⟨m, hm, hleast⟩ := hwalk.exists_least
      use m, le_trans hm hn
      apply (h.layer_iff (le_trans hm hn)).mpr ⟨hleast, ht⟩

end Layering
