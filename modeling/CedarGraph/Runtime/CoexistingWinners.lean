import CedarGraph.Lib.KernelSelection
import CedarGraph.Runtime.KHop

/-!
# Winners among coexisting paths

The labels at the target of a search are paths with the intervals at which all of their edges and
vertices are present.  Winners are selected of them, which have no common instants.  Where there are
common instants the longer interval wins, then the shorter path, and then the path with the smaller
edges.

Rejected labels are taken again whenever a winner is replaced.  The selection ends, and the winners
do not depend on the order in which the labels are taken.
-/

namespace Cedar

open KernelSelection

structure PathValue where
  vertices : List VertexRef
  edges : List EdgeRef
  common : ValidTimeInterval
  deriving DecidableEq

/-- A path to a vertex.  Instead of the label before it, a label has the vertices and the edges. -/
structure CoexistingLabel where
  /-- The number of labels before it. -/
  id : Nat
  vertex : VertexRef
  common : ValidTimeInterval
  depth : Nat
  vertices : List VertexRef
  edges : List EdgeRef
  deriving DecidableEq

open CoexistingLabel

/-- The intervals have a common instant.  One without an end is taken to end at the last instant. -/
def intervalOverlaps (left right : ValidTimeInterval) : Bool :=
  left.start < KHop.intervalEnd right ∧ right.start < KHop.intervalEnd left

/-- The length of an interval.  One without an end is as long as possible. -/
def intervalLength (interval : ValidTimeInterval) : UInt64 :=
  match interval.stop with
  | none => -1
  | some stop => stop - interval.start

def EdgeRef.sortKey (edge : EdgeRef) : PartId ×ₗ EdgeId :=
  toLex (edge.homePartId, edge.edgeId)

namespace CoexistingLabel

/-- The path of a label. -/
def path (label : CoexistingLabel) : PathValue :=
  ⟨label.vertices, label.edges, label.common⟩

/-- The label wins where it overlaps another one. -/
def better (left right : CoexistingLabel) : Bool :=
  if intervalLength left.common ≠ intervalLength right.common then
    intervalLength left.common > intervalLength right.common
  else if left.depth ≠ right.depth then
    left.depth < right.depth
  else if left.edges.map EdgeRef.sortKey < right.edges.map EdgeRef.sortKey then
    true
  else if right.edges.map EdgeRef.sortKey < left.edges.map EdgeRef.sortKey then
    false
  else
    left.id < right.id

/-- Labels are ordered by the starts of their intervals. -/
def sortKey (label : CoexistingLabel) : ValidTime ×ₗ Nat :=
  toLex (label.common.start, label.id)

def overlaps (left right : CoexistingLabel) : Bool :=
  intervalOverlaps left.common right.common

end CoexistingLabel

/-- The loop over the pending labels. -/
def coexistingLoop (fuel : Nat) (pending : List CoexistingLabel) : Option (List CoexistingLabel) :=
  KernelSelection.select CoexistingLabel.overlaps CoexistingLabel.better CoexistingLabel.id fuel
    pending [] []

/-- The paths of the winners among the labels at the target. -/
def coexistingWinners (sorter : Sorter CoexistingLabel.sortKey) (targets : List CoexistingLabel)
    (fuel : Nat) : Option (List PathValue) :=
  (coexistingLoop fuel (sorter.sort targets)).map fun winners =>
    (sorter.sort winners).map CoexistingLabel.path

/-- The members have no common instants, and every other label overlaps a member which is better. -/
structure IsWinnerSet (labels : List CoexistingLabel) (W : Set CoexistingLabel) : Prop where
  mem : ∀ label ∈ W, label ∈ labels
  apart : ∀ a ∈ W, ∀ b ∈ W, a ≠ b → a.overlaps b = false
  beaten : ∀ label ∈ labels, label ∉ W → ∃ winner ∈ W, winner.overlaps label = true ∧
    winner.better label = true

namespace CoexistingLabel

/-! ### The order of the labels -/

/-- What labels are compared by. -/
def rank (label : CoexistingLabel) : UInt64ᵒᵈ ×ₗ Nat ×ₗ List (PartId ×ₗ EdgeId) ×ₗ Nat :=
  toLex (OrderDual.toDual (intervalLength label.common), toLex (label.depth,
    toLex (label.edges.map EdgeRef.sortKey, label.id)))

variable {left right : CoexistingLabel}

theorem better_iff :
  left.better right = true ↔ left.rank < right.rank
  := by
  simp only [better, rank, Prod.Lex.toLex_lt_toLex]
  split
  case isTrue hlength => simp [hlength]
  case isFalse hlength =>
    rw [not_ne_iff] at hlength
    split
    case isTrue hdepth => simp [hlength, hdepth]
    case isFalse hdepth =>
      rw [not_ne_iff] at hdepth
      rcases lt_trichotomy (left.edges.map EdgeRef.sortKey) (right.edges.map EdgeRef.sortKey) with
        hlt | heq | hgt
      · simp [hlength, hdepth, hlt]
      · simp [hlength, hdepth, heq]
      · simp [hlength, hdepth, hgt, ne_of_gt hgt]

theorem overlaps_comm (left right : CoexistingLabel) :
  left.overlaps right = right.overlaps left
  := by
  rw [overlaps, overlaps, intervalOverlaps, intervalOverlaps]
  simp only [and_comm]

/-- A better label has more labels which are worse. -/
theorem rankIn_lt_of_better {labels : List CoexistingLabel} (hright : right ∈ labels)
    (h : left.better right = true) :
  rankIn better labels right < rankIn better labels left
  := by
  apply rankIn_lt _ _ hright h
  · rw [← Bool.not_eq_true, better_iff]
    exact lt_irrefl _
  · intro other hother
    exact better_iff.mpr (lt_trans (better_iff.mp h) (better_iff.mp hother))

end CoexistingLabel

/-! ### The winners -/

variable {labels : List CoexistingLabel}

/-- When no label is pending, the winners are a winner set. -/
theorem isWinnerSet_of_selecting (hids : (labels.map CoexistingLabel.id).Nodup)
    {rejected winners : List CoexistingLabel}
    (h : Selecting overlaps better labels []
      rejected winners) :
  IsWinnerSet labels { label | label ∈ winners }
  where
  mem label hlabel := (h.mem_iff label).mpr (.inr (.inr hlabel))
  apart := h.apart
  beaten := by
    intro label hlabel hlost
    rcases (h.mem_iff label).mp hlabel with hpending | hrejected | hwon
    · cases hpending
    · obtain ⟨winner, hwinner, hoverlaps, hbetter⟩ := h.blocked label hrejected
      have hne : label.rank ≠ winner.rank := by
        intro heq
        have hid : label.id = winner.id := by
          simpa [rank] using congrArg (fun key => (ofLex (ofLex (ofLex key).2).2).2) heq
        apply hlost
        rw [List.inj_on_of_nodup_map hids hlabel ((h.mem_iff winner).mpr (.inr (.inr hwinner))) hid]
        exact hwinner
      have hnot : ¬ label.rank < winner.rank := by
        rw [← better_iff, hbetter]
        exact Bool.false_ne_true
      exact ⟨winner, hwinner, hoverlaps, better_iff.mpr (lt_of_le_of_ne (not_lt.mp hnot) hne.symm)⟩
    · exact absurd hwon hlost

/-- A winner set is a kernel. -/
theorem IsWinnerSet.isKernel {W : Set CoexistingLabel} (h : IsWinnerSet labels W) :
  IsKernel (· ∈ labels) (fun a b => a.overlaps b = true ∧ a.better b = true) (· ∈ W)
  where
  mem := h.mem
  apart := by
    rintro a b ha hb ⟨hoverlaps, hbetter⟩
    by_cases hab : a = b
    · rw [hab, better_iff] at hbetter
      exact lt_irrefl _ hbetter
    · rw [h.apart a ha b hb hab] at hoverlaps
      cases hoverlaps
  beaten := h.beaten

/-- There is one winner set at most. -/
theorem IsWinnerSet.unique {W W' : Set CoexistingLabel} (h : IsWinnerSet labels W)
    (h' : IsWinnerSet labels W') :
  W = W'
  := by
  have hrank : ∀ a b, a ∈ labels → b ∈ labels → a.overlaps b = true ∧ a.better b = true →
      labels.toFinset.card - rankIn better labels a <
        labels.toFinset.card - rankIn better labels b := by
    rintro a b - hb ⟨-, hbetter⟩
    have hlt := rankIn_lt_of_better hb hbetter
    have hle := @rankIn_le _ better labels _ a
    omega
  ext label
  exact h.isKernel.unique h'.isKernel hrank label

/-- The loop ends, and it finds the winner set in whatever order the labels are taken. -/
theorem coexistingLoop_isWinnerSet (hids : (labels.map CoexistingLabel.id).Nodup) :
  ∃ W, IsWinnerSet labels W ∧ (∀ W', IsWinnerSet labels W' → W' = W) ∧
    ∀ pending : List CoexistingLabel, pending.Perm labels → ∃ bound, ∀ fuel ≥ bound, ∃ winners,
      coexistingLoop fuel pending = some winners ∧ ∀ label, label ∈ winners ↔ label ∈ W
  := by
  have hrun : ∀ pending : List CoexistingLabel, pending.Perm labels → ∃ bound, ∀ fuel ≥ bound,
      ∃ winners, coexistingLoop fuel pending = some winners ∧
        IsWinnerSet labels { label | label ∈ winners } := by
    intro pending hperm
    have hstart : Selecting overlaps better labels
        pending [] [] :=
      ⟨fun label => by simp [hperm.mem_iff], List.nodup_nil, by simp, by simp⟩
    have hrank : ∀ a ∈ labels, ∀ b ∈ labels, a.better b = true →
        rankIn better labels b <
          rankIn better labels a :=
      fun a _ b hb => rankIn_lt_of_better hb
    obtain ⟨bound, hbound⟩ := @Selecting.exists_select _ _ _ CoexistingLabel.id _ _
      _ _ _ _ labels.toFinset.card overlaps_comm hrank
      (fun a _ => rankIn_le a) hstart
    refine ⟨bound, fun fuel hfuel => ?_⟩
    obtain ⟨winners, rejected, hwinners, hselecting⟩ := hbound fuel hfuel
    exact ⟨winners, hwinners, isWinnerSet_of_selecting hids hselecting⟩
  obtain ⟨bound, hbound⟩ := hrun labels (List.Perm.refl _)
  obtain ⟨winners, -, hset⟩ := hbound bound le_rfl
  refine ⟨_, hset, fun W' hW' => hW'.unique hset, fun pending hperm => ?_⟩
  obtain ⟨bound', hbound'⟩ := hrun pending hperm
  refine ⟨bound', fun fuel hfuel => ?_⟩
  obtain ⟨winners', hwinners', hset'⟩ := hbound' fuel hfuel
  refine ⟨winners', hwinners', fun label => ?_⟩
  have heq := hset'.unique hset
  exact Set.ext_iff.mp heq label

/-- Three paths of one edge, of which the second one overlaps the two others and is longer. -/
def threeLabels : List CoexistingLabel :=
  [⟨1, ⟨0, 2⟩, ⟨0, some 10⟩, 1, [⟨0, 1⟩, ⟨0, 2⟩], [⟨0, 1⟩]⟩,
    ⟨2, ⟨0, 2⟩, ⟨5, some 25⟩, 1, [⟨0, 1⟩, ⟨0, 2⟩], [⟨0, 2⟩]⟩,
    ⟨3, ⟨0, 2⟩, ⟨20, some 30⟩, 1, [⟨0, 1⟩, ⟨0, 2⟩], [⟨0, 3⟩]⟩]

/-- The winner set of the three paths is found, and it is the path in the middle. -/
theorem threeLabels_isWinnerSet :
  coexistingLoop 10 threeLabels = some [⟨2, ⟨0, 2⟩, ⟨5, some 25⟩, 1, [⟨0, 1⟩, ⟨0, 2⟩], [⟨0, 2⟩]⟩] ∧
    ∃ W, IsWinnerSet threeLabels W
  := by
  obtain ⟨W, hW, -⟩ := @coexistingLoop_isWinnerSet threeLabels (by decide)
  exact ⟨by decide +kernel, W, hW⟩

end Cedar
