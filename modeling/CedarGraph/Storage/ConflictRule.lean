import CedarGraph.Storage.CommitRuns

/-!
# The rule for writing batches together

Two batches may be written together if neither touches what the other one writes.  The conflict
index and the overlay of what is being written collect the footprints of many batches, and agree
with the rule for each of these.
-/

namespace Cedar

open List

/-- Two sets, whose values are given in order, have nothing in common. -/
def disjointSorted {κ : Type} [LinearOrder κ] : List κ → List κ → Bool
  | a :: left, b :: right =>
      if a < b then disjointSorted left (b :: right)
      else if b < a then disjointSorted (a :: left) right
      else false
  | _, _ => true

/-- Two collections have nothing in common.  They are sets, which are ordered by a key. -/
def disjoint {α κ : Type} [LinearOrder κ] (key : α → κ) (left right : List α) : Bool :=
  disjointSorted ((left.map key).toFinset.sort (· ≤ ·)) ((right.map key).toFinset.sort (· ≤ ·))

/-- Two batches may be written together. -/
def canSharePhysicalWrite (left right : CommitFootprint) : Bool :=
  disjoint id left.txnIds right.txnIds && disjoint FactRef.storeKey left.writes right.writes &&
    disjoint FactRef.storeKey left.writes right.strictReads &&
      disjoint FactRef.storeKey left.strictReads right.writes &&
        disjoint toLex left.edgeIds right.edgeIds

section Disjoint

variable {α κ : Type} [LinearOrder κ]

theorem disjointSorted_iff {left right : List κ} (hleft : left.Pairwise (· < ·))
    (hright : right.Pairwise (· < ·)) :
  disjointSorted left right = true ↔ ∀ a ∈ left, a ∉ right
  := by
  fun_induction disjointSorted left right with
  | case1 a left b right hlt ih =>
    have hnot : a ∉ b :: right := by
      intro hmem
      obtain rfl | hmem := mem_cons.mp hmem
      · apply lt_irrefl _ hlt
      · apply lt_asymm hlt (rel_of_pairwise_cons hright hmem)
    rw [ih hleft.of_cons hright, forall_mem_cons, and_iff_right hnot]
  | case2 a left b right _ hlt ih =>
    rw [ih hleft hright.of_cons]
    have hnot : b ∉ a :: left := by
      intro hmem
      obtain rfl | hmem := mem_cons.mp hmem
      · apply lt_irrefl _ hlt
      · apply lt_asymm hlt (rel_of_pairwise_cons hleft hmem)
    apply forall₂_congr
    intro c hc
    have hne : c ≠ b := by
      rintro rfl
      apply hnot hc
    simp [hne]
  | case3 a left b right hle hge =>
    obtain rfl := le_antisymm (not_lt.mp hge) (not_lt.mp hle)
    simp
  | case4 left right hneither =>
    cases left with
    | nil => simp
    | cons a left =>
      cases right with
      | nil => simp
      | cons b right => cases hneither a left b right rfl rfl

/-- Collections with nothing in common. -/
theorem disjoint_iff {key : α → κ} (hkey : Function.Injective key) {left right : List α} :
  disjoint key left right = true ↔ ∀ a ∈ left, a ∉ right
  := by
  rw [disjoint, disjointSorted_iff (Finset.sortedLT_sort _).pairwise
    (Finset.sortedLT_sort _).pairwise]
  simp only [Finset.mem_sort, mem_toFinset, forall_mem_map,
    mem_map_of_injective hkey]

end Disjoint

/-! ### Collected footprints -/

namespace CommitConflictIndex

/-- A footprint is added if it may be, and the index says whether it was. -/
def tryInsert (index : CommitConflictIndex) (candidate : CommitFootprint) :
    CommitConflictIndex × Bool :=
  if index.canInsert candidate then (index.insert candidate, true) else (index, false)

/-- Footprints are offered one after the other.  The result has the index, and those which were
added. -/
def offer : CommitConflictIndex × List CommitFootprint → List CommitFootprint →
    CommitConflictIndex × List CommitFootprint
  | state, [] => state
  | (index, added), candidate :: candidates =>
      match index.tryInsert candidate with
      | (index, true) => offer (index, candidate :: added) candidates
      | (index, false) => offer (index, added) candidates

/-- What the batches which are being written touch, as one index. -/
def fromBatches (batches : List (Option StoreCommitBatch)) : CommitConflictIndex :=
  (batches.filterMap id).foldl (fun overlay batch => overlay.insert (buildCommitFootprint batch)) {}

/-- A footprint touches what is being written. -/
def conflicts (overlay : CommitConflictIndex) (candidate : CommitFootprint) : Bool :=
  containsAny candidate.txnIds overlay.txnIds || containsAny candidate.writes overlay.writes ||
    containsAny candidate.strictReads overlay.writes ||
      containsAny candidate.writes overlay.strictReads ||
        containsAny candidate.edgeIds overlay.edgeIds

/-- The index has what the footprints have. -/
structure Collects (index : CommitConflictIndex) (added : List CommitFootprint) : Prop where
  txnIds : ∀ txnId, txnId ∈ index.txnIds ↔ ∃ footprint ∈ added, txnId ∈ footprint.txnIds
  writes : ∀ ref, ref ∈ index.writes ↔ ∃ footprint ∈ added, ref ∈ footprint.writes
  strictReads : ∀ ref, ref ∈ index.strictReads ↔ ∃ footprint ∈ added, ref ∈ footprint.strictReads
  edgeIds : ∀ edge, edge ∈ index.edgeIds ↔ ∃ footprint ∈ added, edge ∈ footprint.edgeIds

variable {index : CommitConflictIndex} {added : List CommitFootprint} {candidate : CommitFootprint}

theorem collects_nil :
  Collects {} []
  := by
  constructor <;> simp

theorem Collects.insert (h : index.Collects added) (candidate : CommitFootprint) :
  (index.insert candidate).Collects (candidate :: added)
  := by
  constructor
  · simp [CommitConflictIndex.insert, h.txnIds]
  · simp [CommitConflictIndex.insert, h.writes]
  · simp [CommitConflictIndex.insert, h.strictReads]
  · simp [CommitConflictIndex.insert, h.edgeIds]

/-- Offered footprints are collected if they are added. -/
theorem Collects.offer (h : index.Collects added) (candidates : List CommitFootprint) :
  (offer (index, added) candidates).1.Collects (offer (index, added) candidates).2
  := by
  induction candidates generalizing index added with
  | nil => exact h
  | cons candidate candidates ih =>
    rw [CommitConflictIndex.offer, tryInsert]
    split
    case h_1 hinsert =>
      split at hinsert
      · obtain ⟨rfl, -⟩ := Prod.mk.inj hinsert
        apply ih (h.insert candidate)
      · cases hinsert
    case h_2 hinsert =>
      split at hinsert
      · cases hinsert
      · obtain ⟨rfl, -⟩ := Prod.mk.inj hinsert
        apply ih h

theorem collects_fromBatches (batches : List (Option StoreCommitBatch)) :
  (fromBatches batches).Collects ((batches.filterMap id).map buildCommitFootprint).reverse
  := by
  rw [fromBatches, ← foldl_map]
  generalize (batches.filterMap id).map buildCommitFootprint = footprints
  induction footprints using reverseRecOn with
  | nil => apply collects_nil
  | append_singleton footprints footprint ih =>
    rw [foldl_append, reverse_append]
    apply ih.insert

/-- An index accepts what may be written together with each of its footprints. -/
theorem Collects.canInsert_iff (h : index.Collects added) :
  index.canInsert candidate = true ↔
    ∀ footprint ∈ added, canSharePhysicalWrite footprint candidate = true
  := by
  simp only [canInsert, canSharePhysicalWrite, Bool.and_eq_true, Bool.not_eq_true',
    containsAny_eq_false_iff, disjoint_iff Function.injective_id,
    disjoint_iff FactRef.storeKey_injective, disjoint_iff toLex.injective, h.txnIds, h.writes,
    h.strictReads, h.edgeIds]
  grind

theorem conflicts_eq_not_canInsert (overlay : CommitConflictIndex) (candidate : CommitFootprint) :
  overlay.conflicts candidate = !overlay.canInsert candidate
  := by
  simp only [conflicts, canInsert, Bool.not_and, Bool.not_not]
  ac_rfl

/-- An index to which footprints were offered accepts the next one if and only if it may be written
together with each one which was added, and the overlay of pending batches reports a conflict if and
only if one of these batches may not be written together with the next one. -/
theorem tryInsert_and_conflicts_iff (offered : List CommitFootprint)
    (pending : List (Option StoreCommitBatch)) (candidate : CommitFootprint) :
  (((offer ({}, []) offered).1.tryInsert candidate).2 = true ↔
      ∀ earlier ∈ (offer ({}, []) offered).2, canSharePhysicalWrite earlier candidate = true) ∧
    ((fromBatches pending).conflicts candidate = true ↔
      ∃ batch, some batch ∈ pending ∧
        canSharePhysicalWrite (buildCommitFootprint batch) candidate = false)
  := by
  constructor
  · rw [← (collects_nil.offer offered).canInsert_iff, tryInsert]
    split
    case isTrue hinsert => simp [hinsert]
    case isFalse hinsert => simp [hinsert]
  · rw [conflicts_eq_not_canInsert, Bool.not_eq_true', ← Bool.not_eq_true,
      (collects_fromBatches pending).canInsert_iff]
    simp

end CommitConflictIndex

end Cedar
