import Mathlib

/-!
# Searches with labels

A search keeps labels, each of which stands for a key.  It takes the pending labels one by one,
stops at a label with which it is done, and otherwise expands the label into others.  Of these the
ones with a new key are kept.  Which pending label is taken is open: the first one, or one which is
best in some order.

The results say what the search has found when it ends, in terms of a sequence of properties of keys
which it tracks: the first key has the first property, and a label whose key has one of them is
expanded into a label whose key has the next one.  If no label is pending, a processed label has the
last property.  If the search stops, its label is at least as good as one with some property of the
sequence.  If there are finitely many keys, the search ends.
-/

universe u v w

namespace LabelSearch

open List Option

variable {L : Type u} {K : Type v} {E : Type w} [DecidableEq K]

/-- The pending label which is taken, and the ones which are left. -/
def pick (before : L → L → Bool) : List L → Option (L × List L)
  | [] => none
  | label :: labels =>
      match pick before labels with
      | none => some (label, labels)
      | some (other, rest) =>
          if before label other then some (label, labels) else some (other, label :: rest)

/-- The candidates with keys which are new, one of each key. -/
def enter (key : L → K) (labels : List L) : List L → List L
  | [] => []
  | candidate :: candidates =>
      if key candidate ∈ labels.map key then
        enter key labels candidates
      else
        candidate :: enter key (labels ++ [candidate]) candidates

/-- The labels which a search has expanded, and the one it stopped at. -/
structure Outcome (L : Type u) where
  processed : List L
  found : Option L

section Search

variable (key : L → K) (before : L → L → Bool) (stop : L → Bool) (expand : L → Except E (List L))

/-- The search from labels of which some are pending, as far as the fuel lasts: the labels it has
made in the end, and its outcome. -/
def trace : (fuel : Nat) → (labels pending processed : List L) →
    List L × Option (Except E (Outcome L))
  | 0, labels, _, _ => (labels, none)
  | fuel + 1, labels, pending, processed =>
      match pick before pending with
      | none => (labels, some (.ok ⟨processed, none⟩))
      | some (current, rest) =>
          if stop current then
            (labels, some (.ok ⟨processed, some current⟩))
          else
            match expand current with
            | .error error => (labels, some (.error error))
            | .ok candidates =>
                let new := enter key labels candidates
                trace fuel (labels ++ new) (rest ++ new) (processed ++ [current])

/-- The outcome of a search, if the fuel lasts. -/
def run (fuel : Nat) (labels pending processed : List L) : Option (Except E (Outcome L)) :=
  (trace key before stop expand fuel labels pending processed).2

/-- The labels which a search has made after so many rounds. -/
def created (rounds : Nat) (labels pending : List L) : List L :=
  (trace key before stop expand rounds labels pending []).1

/-- The search from one label. -/
def search (fuel : Nat) (init : L) : Option (Except E (Outcome L)) :=
  run key before stop expand fuel [init] [init] []

end Search

/-! ### Taking and entering labels -/

section Parts

variable {key : L → K} {before : L → L → Bool} {labels candidates rest : List L} {label : L}

theorem pick_eq_none_iff :
  pick before labels = none ↔ labels = []
  := by
  cases labels with
  | nil => simp [pick]
  | cons label labels =>
    rw [pick]
    split
    · simp
    · split
      · simp
      · simp

/-- The taken label and the rest are the labels. -/
theorem pick_perm (h : pick before labels = some (label, rest)) :
  labels.Perm (label :: rest)
  := by
  induction labels generalizing label rest with
  | nil => cases h
  | cons first labels ih =>
    rw [pick] at h
    split at h
    · obtain ⟨rfl, rfl⟩ := Prod.mk.inj (some.inj h)
      apply Perm.refl
    case h_2 other others hpick =>
      split at h
      · obtain ⟨rfl, rfl⟩ := Prod.mk.inj (some.inj h)
        apply Perm.refl
      · obtain ⟨rfl, rfl⟩ := Prod.mk.inj (some.inj h)
        apply ((ih hpick).cons first).trans (Perm.swap ..)

/-- The taken label is a best one. -/
theorem pick_le {P : Type*} [Preorder P] {cost : L → P}
    (hbefore : ∀ a b, before a b = true → cost a ≤ cost b)
    (hafter : ∀ a b, before a b = false → cost b ≤ cost a)
    (h : pick before labels = some (label, rest)) :
  ∀ other ∈ labels, cost label ≤ cost other
  := by
  induction labels generalizing label rest with
  | nil => cases h
  | cons first labels ih =>
    rw [pick] at h
    split at h
    case h_1 hnone =>
      obtain ⟨rfl, rfl⟩ := Prod.mk.inj (some.inj h)
      rw [pick_eq_none_iff.mp hnone]
      intro other hother
      rw [mem_singleton.mp hother]
    case h_2 best others hpick =>
      split at h
      case isTrue hfirst =>
        obtain ⟨rfl, rfl⟩ := Prod.mk.inj (some.inj h)
        intro other hother
        rcases mem_cons.mp hother with rfl | hother
        · apply le_refl
        · apply le_trans (hbefore _ _ hfirst) (ih hpick other hother)
      case isFalse hlast =>
        obtain ⟨rfl, rfl⟩ := Prod.mk.inj (some.inj h)
        intro other hother
        rcases mem_cons.mp hother with rfl | hother
        · apply hafter _ _ (Bool.eq_false_iff.mpr hlast)
        · apply ih hpick other hother

/-- An entered label is a candidate with a new key. -/
theorem mem_enter (h : label ∈ enter key labels candidates) :
  label ∈ candidates ∧ key label ∉ labels.map key
  := by
  induction candidates generalizing labels with
  | nil => cases h
  | cons candidate candidates ih =>
    rw [enter] at h
    split at h
    · use mem_cons_of_mem _ (ih h).1, (ih h).2
    case isFalse hnew =>
      rcases mem_cons.mp h with rfl | h
      · use mem_cons_self, hnew
      · use mem_cons_of_mem _ (ih h).1
        intro hold
        apply (ih h).2
        rw [map_append]
        apply mem_append_left _ hold

/-- The key of a candidate is the key of a label. -/
theorem exists_key_of_mem (h : label ∈ candidates) :
  ∃ other ∈ labels ++ enter key labels candidates, key other = key label
  := by
  induction candidates generalizing labels with
  | nil => cases h
  | cons candidate candidates ih =>
    rw [enter]
    split
    case isTrue hold =>
      rcases mem_cons.mp h with rfl | h
      · obtain ⟨other, hother, heq⟩ := mem_map.mp hold
        use other, mem_append_left _ hother
      · apply ih h
    case isFalse =>
      rw [append_cons]
      rcases mem_cons.mp h with rfl | h
      · use label
        simp
      · apply ih h

/-- The entered labels keep the keys apart. -/
theorem nodup_enter (h : (labels.map key).Nodup) :
  ((labels ++ enter key labels candidates).map key).Nodup
  := by
  induction candidates generalizing labels with
  | nil => simpa [enter] using h
  | cons candidate candidates ih =>
    rw [enter]
    split
    · apply ih h
    case isFalse hnew =>
      rw [append_cons]
      apply ih
      rw [map_append, nodup_append]
      use h, nodup_singleton _
      rintro k hk k' hk' rfl
      rw [map_singleton, mem_singleton] at hk'
      apply hnew (hk' ▸ hk)

end Parts

/-! ### What a search explores -/

section Explore

variable {key : L → K} {before : L → L → Bool} {stop : L → Bool} {expand : L → Except E (List L)}
  {init : L} {Good : L → Prop}

variable (key stop expand init Good) in
/-- The labels have a property which expansions keep, unless they come back to the first key. -/
structure Explores : Prop where
  good_init : Good init
  good : ∀ {p next m}, Good p → stop p = false → expand p = .ok next → m ∈ next →
    key m ≠ key init → Good m

variable (key stop expand init Good) in
/-- The properties of keys follow one another in expansions. -/
structure Tracks (n : Nat) (track : Nat → K → Prop) : Prop where
  init : track 0 (key init)
  next : ∀ {i p next}, i < n → Good p → stop p = false → expand p = .ok next →
    track i (key p) → ∃ m ∈ next, track (i + 1) (key m)

variable (key stop expand init Good) in
/-- The invariant of a search: the processed and the pending labels are all labels, their keys
differ, and processed labels are expanded to labels. -/
structure Invariant (labels pending processed : List L) : Prop where
  perm : labels.Perm (processed ++ pending)
  nodup : (labels.map key).Nodup
  init_mem : init ∈ labels
  good : ∀ l ∈ labels, Good l
  closed : ∀ p ∈ processed, stop p = false ∧
    ∃ next, expand p = .ok next ∧ ∀ m ∈ next, ∃ l ∈ labels, key l = key m

variable {labels pending processed : List L}

omit [DecidableEq K] in
/-- The invariant holds in the beginning. -/
theorem Explores.invariant (h : Explores key stop expand init Good) :
  Invariant key stop expand init Good [init] [init] []
  where
  perm := Perm.refl _
  nodup := nodup_singleton _
  init_mem := mem_singleton_self _
  good _ hl := mem_singleton.mp hl ▸ h.good_init
  closed := forall_mem_nil _

/-- An expansion keeps the invariant. -/
theorem Invariant.next (hinv : Invariant key stop expand init Good labels pending processed)
    (h : Explores key stop expand init Good) {current : L} {rest candidates : List L}
    (hpick : pick before pending = some (current, rest)) (hstop : stop current = false)
    (hexpand : expand current = .ok candidates) :
  Invariant key stop expand init Good (labels ++ enter key labels candidates)
    (rest ++ enter key labels candidates) (processed ++ [current])
  := by
  have hperm : labels.Perm (processed ++ [current] ++ rest) := by
    rw [append_assoc]
    apply hinv.perm.trans ((pick_perm hpick).append_left processed)
  have hcurrent : Good current := by
    apply hinv.good
    rw [hperm.mem_iff]
    simp
  constructor
  · rw [← append_assoc]
    apply hperm.append_right
  · apply nodup_enter hinv.nodup
  · apply mem_append_left _ hinv.init_mem
  · intro l hl
    rcases mem_append.mp hl with hl | hl
    · apply hinv.good l hl
    · obtain ⟨hmem, hnew⟩ := mem_enter hl
      apply h.good hcurrent hstop hexpand hmem
      intro heq
      apply hnew (heq ▸ mem_map_of_mem hinv.init_mem)
  · intro p hp
    rcases mem_append.mp hp with hp | hp
    · obtain ⟨hopen, next, hnext, hlabels⟩ := hinv.closed p hp
      use hopen, next, hnext
      intro m hm
      obtain ⟨l, hl, heq⟩ := hlabels m hm
      use l, mem_append_left _ hl
    · rw [mem_singleton.mp hp]
      use hstop, candidates, hexpand
      intro m hm
      apply exists_key_of_mem hm

omit [DecidableEq K] in
/-- The last property of a sequence was reached, or some pending label has one of them. -/
theorem Invariant.tracked (hinv : Invariant key stop expand init Good labels pending processed)
    {n : Nat} {track : Nat → K → Prop} (h : Tracks key stop expand init Good n track) :
  (∃ p ∈ processed, track n (key p)) ∨ ∃ i ≤ n, ∃ q ∈ pending, track i (key q)
  := by
  have hlabel : ∀ i, ∀ l ∈ labels, track i (key l) →
      (∃ p ∈ processed, track i (key p)) ∨ ∃ j ≤ i, ∃ q ∈ pending, track j (key q) := by
    intro i l hl hi
    rcases mem_append.mp (hinv.perm.mem_iff.mp hl) with hl | hl
    · apply Or.inl ⟨l, hl, hi⟩
    · apply Or.inr ⟨i, le_refl i, l, hl, hi⟩
  suffices hall : ∀ i ≤ n, (∃ p ∈ processed, track i (key p)) ∨
      ∃ j ≤ i, ∃ q ∈ pending, track j (key q) from hall n (le_refl n)
  intro i
  induction i with
  | zero =>
    intro _
    apply hlabel 0 init hinv.init_mem h.init
  | succ i ih =>
    intro hi
    rcases ih (Nat.le_of_succ_le hi) with ⟨p, hp, htrack⟩ | ⟨j, hj, hq⟩
    · obtain ⟨hopen, next, hnext, hlabels⟩ := hinv.closed p hp
      have hgood := hinv.good p (hinv.perm.mem_iff.mpr (mem_append_left _ hp))
      obtain ⟨m, hm, htrack'⟩ := h.next hi hgood hopen hnext htrack
      obtain ⟨l, hl, heq⟩ := hlabels m hm
      rw [← heq] at htrack'
      apply hlabel (i + 1) l hl htrack'
    · apply Or.inr ⟨j, Nat.le_succ_of_le hj, hq⟩

/-- What holds of the labels when a search ends: it stops at the pending label which is taken, or
none is pending. -/
theorem Invariant.run (hinv : Invariant key stop expand init Good labels pending processed)
    (h : Explores key stop expand init Good) {fuel : Nat} {outcome : Outcome L}
    (hrun : LabelSearch.run key before stop expand fuel labels pending processed =
      some (.ok outcome)) :
  ∃ labels pending,
    Invariant key stop expand init Good labels pending outcome.processed ∧
    (outcome.found = none ∧ pending = [] ∨
      ∃ l rest, outcome.found = some l ∧ pick before pending = some (l, rest) ∧ stop l = true)
  := by
  induction fuel generalizing labels pending processed with
  | zero => cases hrun
  | succ fuel ih =>
    rw [LabelSearch.run, trace] at hrun
    split at hrun
    case h_1 hnone =>
      obtain rfl := Except.ok.inj (some.inj hrun)
      use labels, pending, hinv
      apply Or.inl ⟨rfl, pick_eq_none_iff.mp hnone⟩
    case h_2 current rest hpick =>
      split at hrun
      case isTrue hstop =>
        obtain rfl := Except.ok.inj (some.inj hrun)
        use labels, pending, hinv
        apply Or.inr ⟨current, rest, rfl, hpick, hstop⟩
      case isFalse hstop =>
        split at hrun
        · cases hrun
        case h_2 candidates hexpand =>
          apply ih (hinv.next h hpick (Bool.eq_false_iff.mpr hstop) hexpand) hrun

variable {fuel : Nat}

/-- A search ends if the labels whose keys differ are fewer than its rounds. -/
theorem Invariant.exists_run {n : Nat}
    (hinv : Invariant key stop expand init Good labels pending processed)
    (h : Explores key stop expand init Good)
    (hcard : ∀ some : List L, (some.map key).Nodup → some.length < n)
    (hfuel : n ≤ fuel + processed.length) :
  ∃ outcome, LabelSearch.run key before stop expand fuel labels pending processed = some outcome
  := by
  induction fuel generalizing labels pending processed with
  | zero =>
    -- the labels which were processed are too many
    have hnodup : (processed.map key).Nodup := by
      have hall := (hinv.perm.map key).nodup_iff.mp hinv.nodup
      rw [map_append] at hall
      apply hall.of_append_left
    have hlt := hcard processed hnodup
    omega
  | succ fuel ih =>
    rw [LabelSearch.run, trace]
    split
    · exact ⟨_, rfl⟩
    case h_2 current rest hpick =>
      split
      · exact ⟨_, rfl⟩
      case isFalse hstop =>
        split
        · exact ⟨_, rfl⟩
        case h_2 candidates hexpand =>
          apply ih (hinv.next h hpick (Bool.eq_false_iff.mpr hstop) hexpand)
          rw [length_append, length_singleton]
          omega

omit [DecidableEq K] in
/-- Labels whose keys differ are in different states, if the state gives the key. -/
theorem nodup_states {S : Type*} {state : L → S}
    (hstate : ∀ a b, state a = state b → key a = key b) (h : (labels.map key).Nodup) :
  (labels.map state).Nodup
  := pairwise_map.mpr ((pairwise_map.mp h).imp fun hne heq => hne (hstate _ _ heq))

/-- A search ends with enough fuel, if its keys come from finitely many states. -/
theorem Explores.exists_search {S : Type*} [Finite S] (h : Explores key stop expand init Good)
    (before : L → L → Bool) (state : L → S) (hstate : ∀ a b, state a = state b → key a = key b)
    {fuel : Nat} (hfuel : Nat.card S < fuel) :
  ∃ outcome, search key before stop expand fuel init = some outcome
  := by
  apply h.invariant.exists_run h _ (Nat.le_add_right_of_le hfuel)
  intro labels hnodup
  have : Fintype S := Fintype.ofFinite S
  have hle := (nodup_states hstate hnodup).length_le_card
  rw [length_map, ← Nat.card_eq_fintype_card] at hle
  omega

/-- Whatever is made of its outcome, a search ends with enough fuel. -/
theorem exists_map_search {S R : Type*} [Finite S] {state : L → S}
    (hstate : ∀ a b, state a = state b → key a = key b) (hfuel : Nat.card S < fuel)
    (f : Except E (Outcome L) → R) :
  ∃ result, (search key before stop expand fuel init).map f = some result
  := by
  have h : Explores key stop expand init fun _ => True := ⟨trivial, fun _ _ _ _ _ => trivial⟩
  obtain ⟨outcome, hsearch⟩ := h.exists_search before state hstate hfuel
  rw [hsearch]
  exact ⟨_, rfl⟩

/-- The labels of a search have different keys. -/
theorem nodup_trace (h : (labels.map key).Nodup) :
  ((trace key before stop expand fuel labels pending processed).1.map key).Nodup
  := by
  induction fuel generalizing labels pending processed with
  | zero => apply h
  | succ fuel ih =>
    rw [trace]
    split
    · apply h
    · split
      · apply h
      · split
        · apply h
        · apply ih (nodup_enter h)

/-- The labels of a search are in different states, if the state gives the key. -/
theorem nodup_created {S : Type*} {state : L → S}
    (hstate : ∀ a b, state a = state b → key a = key b) (rounds : Nat) :
  ((created key before stop expand rounds [init] [init]).map state).Nodup
  := nodup_states hstate (nodup_trace (nodup_singleton _))

/-- An error of a search is one of an expansion. -/
theorem exists_expand_of_run {error : E}
    (hrun : run key before stop expand fuel labels pending processed = some (.error error)) :
  ∃ l, expand l = .error error
  := by
  induction fuel generalizing labels pending processed with
  | zero => cases hrun
  | succ fuel ih =>
    rw [run, trace] at hrun
    split at hrun
    · cases hrun
    case h_2 current rest hpick =>
      split at hrun
      · cases hrun
      · split at hrun
        case h_1 error' hexpand =>
          obtain rfl := Except.error.inj (some.inj hrun)
          use current
        case h_2 => apply ih hrun

/-- A search which ends without stopping has reached what it tracks. -/
theorem Explores.of_exhausted (h : Explores key stop expand init Good) {outcome : Outcome L}
    (hsearch : search key before stop expand fuel init = some (.ok outcome))
    (hnone : outcome.found = none) :
  (∀ p ∈ outcome.processed, Good p ∧ stop p = false) ∧
    ∀ n track, Tracks key stop expand init Good n track →
      ∃ p ∈ outcome.processed, track n (key p)
  := by
  obtain ⟨labels, pending, hinv, ⟨-, rfl⟩ | ⟨l, rest, hfound, -⟩⟩ := h.invariant.run h hsearch
  · constructor
    · intro p hp
      use hinv.good p (hinv.perm.mem_iff.mpr (mem_append_left _ hp)), (hinv.closed p hp).1
    · intro n track htracks
      rcases hinv.tracked htracks with hp | ⟨i, -, q, hq, -⟩
      · apply hp
      · cases hq
  · rw [hnone] at hfound
    cases hfound

/-- A search which stops does so at a label which is at least as good as one that it tracks, if the
last property stops it. -/
theorem Explores.of_found (h : Explores key stop expand init Good) {outcome : Outcome L} {l : L}
    (hsearch : search key before stop expand fuel init = some (.ok outcome))
    (hfound : outcome.found = some l) {P : Type*} [Preorder P] (cost : L → P)
    (hbefore : ∀ a b, before a b = true → cost a ≤ cost b)
    (hafter : ∀ a b, before a b = false → cost b ≤ cost a) :
  Good l ∧ stop l = true ∧
    ∀ n track, Tracks key stop expand init Good n track →
      (∀ p, track n (key p) → stop p = true) → ∃ i ≤ n, ∃ q, track i (key q) ∧ cost l ≤ cost q
  := by
  obtain ⟨labels, pending, hinv, ⟨hnone, -⟩ | ⟨l', rest, hfound', hpick, hstop⟩⟩ :=
    h.invariant.run h hsearch
  · rw [hfound] at hnone
    cases hnone
  · rw [hfound] at hfound'
    obtain rfl := some.inj hfound'
    have hmem : l ∈ pending := (pick_perm hpick).mem_iff.mpr mem_cons_self
    use hinv.good l (hinv.perm.mem_iff.mpr (mem_append_right _ hmem)), hstop
    intro n track htracks hgoal
    rcases hinv.tracked htracks with ⟨p, hp, htrack⟩ | ⟨i, hi, q, hq, htrack⟩
    · have hopen := (hinv.closed p hp).1
      rw [hgoal p htrack] at hopen
      cases hopen
    · use i, hi, q, htrack
      apply pick_le hbefore hafter hpick q hq

end Explore

end LabelSearch
