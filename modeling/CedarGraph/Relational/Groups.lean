import CedarGraph.Relational.Aggregate

/-!
# The groups of rows

Every row goes into the group of its key.  Keys are compared by `==`, for which a floating-point
NaN differs from itself: a row with such a key has a group of its own.
-/

namespace Cedar

open List

namespace RelationalCell

theorem listEq_comm (l m : List RelationalCell) :
  listEq l m = listEq m l
  := by
  apply Bool.eq_iff_iff.mpr
  constructor
  · apply listEq_symm
  · apply listEq_symm

theorem listEq_congr_left {l m n : List RelationalCell} (h : listEq l m = true) :
  listEq l n = listEq m n
  := by
  apply Bool.eq_iff_iff.mpr
  constructor
  · apply listEq_trans (listEq_symm h)
  · apply listEq_trans h

theorem listEq_append_singleton (l m : List RelationalCell) (a b : RelationalCell) :
  listEq (l ++ [a]) (m ++ [b]) = (listEq l m && a.eq b)
  := by
  induction l generalizing m with
  | nil => cases m with
    | nil => simp [listEq]
    | cons c m => cases m <;> simp [listEq]
  | cons d l ih => cases m with
    | nil => cases l <;> simp [listEq]
    | cons c m => simp [listEq, ih, Bool.and_assoc]

theorem listEq_dropLast {l m : List RelationalCell} (h : listEq l m = true) :
  listEq l.dropLast m.dropLast = true
  := by
  obtain rfl | ⟨l, a, rfl⟩ := eq_nil_or_concat' l
  · cases m with
    | nil => rfl
    | cons => cases h
  · obtain rfl | ⟨m, b, rfl⟩ := eq_nil_or_concat' m
    · cases l <;> cases h
    · rw [listEq_append_singleton, Bool.and_eq_true] at h
      rw [dropLast_concat, dropLast_concat]
      apply h.1

end RelationalCell

namespace Relational

open RelationalCell

variable {std : StdHash} {groupBy : List Nat} {row : RelationalRow} {rows : List RelationalRow}
  {groups : List Group} {group : Group} {key : List RelationalCell}

/-- A row is added to the first group which has its key, or in a new group. -/
theorem addToGroups_cases (std : StdHash) (groupBy : List Nat) (row : RelationalRow)
    (groups : List Group) :
  ((∀ group ∈ groups, listEq group.key (groupCells groupBy row) = false) ∧
      addToGroups std groupBy row groups = groups ++ [⟨groupCells groupBy row, [row]⟩]) ∨
    ∃ before group after, groups = before ++ group :: after ∧
      listEq group.key (groupCells groupBy row) = true ∧
      addToGroups std groupBy row groups =
        before ++ { group with rows := group.rows ++ [row] } :: after
  := by
  induction groups with
  | nil => simp [addToGroups]
  | cons group groups ih =>
    rw [addToGroups]
    by_cases heq : listEq group.key (groupCells groupBy row) = true
    · rw [if_pos ⟨RelationalRow.foldl_combineHash_eq_of_listEq std heq _, heq⟩]
      exact Or.inr ⟨[], group, groups, rfl, heq, rfl⟩
    · rw [if_neg fun h => heq h.2]
      obtain ⟨hnone, hadd⟩ | ⟨before, found, after, rfl, hfound, hadd⟩ := ih
      · left
        rw [hadd, forall_mem_cons]
        exact ⟨⟨Bool.eq_false_of_not_eq_true heq, hnone⟩, rfl⟩
      · right
        rw [hadd]
        exact ⟨group :: before, found, after, rfl, hfound, rfl⟩

/-- The rows of a group have its key, or the group has a key which differs from itself and a single
row. -/
def Group.Uniform (groupBy : List Nat) (group : Group) : Prop :=
  (listEq group.key group.key = true ∧
      ∀ row ∈ group.rows, listEq group.key (groupCells groupBy row) = true) ∨
    (listEq group.key group.key = false ∧ ∃ row, group.rows = [row])

/-- The groups of some rows. -/
structure Grouped (groupBy : List Nat) (rows : List RelationalRow) (groups : List Group) :
    Prop where
  /-- Different groups have different keys. -/
  pairwise : groups.Pairwise fun left right => listEq left.key right.key = false
  /-- The rows of a group belong together. -/
  uniform : ∀ group ∈ groups, group.Uniform groupBy
  /-- The rows with a key are those of the group with the key. -/
  collects : ∀ key, (groups.filter fun group => listEq key group.key).flatMap Group.rows =
    rows.filter fun row => listEq key (groupCells groupBy row)

/-- At most one group has a key. -/
theorem Grouped.eq_of_listEq (h : Grouped groupBy rows groups)
    {left right : Group} (hleft : left ∈ groups) (hright : right ∈ groups)
    (heq : listEq left.key right.key = true) :
  left = right
  := by
  have hsymm : Std.Symm fun left right : Group => listEq left.key right.key = false :=
    ⟨fun left right hne => listEq_comm left.key right.key ▸ hne⟩
  by_contra hne
  rw [h.pairwise.forall hleft hright hne] at heq
  cases heq

/-- The rows with a key are those of a group, if the group has the key. -/
theorem Grouped.rows_eq (h : Grouped groupBy rows groups) (hgroup : group ∈ groups)
    (heq : listEq key group.key = true) :
  (groups.filter fun other => listEq key other.key) = [group]
  := by
  obtain ⟨before, after, rfl⟩ := append_of_mem hgroup
  obtain ⟨-, hafter, hbefore⟩ := pairwise_append.mp h.pairwise
  have hnot : ∀ other ∈ before ++ after, listEq key other.key = false := by
    intro other hother
    rw [listEq_congr_left heq]
    obtain hother | hother := mem_append.mp hother
    · rw [listEq_comm]
      apply hbefore other hother group mem_cons_self
    · apply (pairwise_cons.mp hafter).1 other hother
  have hnil : ∀ l : List Group, (∀ other ∈ l, listEq key other.key = false) →
      (l.filter fun other => listEq key other.key) = [] := by
    intro l hl
    apply filter_eq_nil_iff.mpr
    intro other hother
    rw [hl other hother]
    apply Bool.false_ne_true
  rw [filter_append, filter_cons, if_pos heq,
    hnil before fun other hother => hnot other (mem_append_left _ hother),
    hnil after fun other hother => hnot other (mem_append_right _ hother), nil_append]

/-! ### Building the groups -/

theorem Grouped.new (h : Grouped groupBy rows groups)
    (hnone : ∀ group ∈ groups, listEq group.key (groupCells groupBy row) = false) :
  Grouped groupBy (rows ++ [row]) (groups ++ [⟨groupCells groupBy row, [row]⟩])
  := by
  constructor
  · apply pairwise_append.mpr
    use h.pairwise, pairwise_singleton _ _
    intro group hgroup new hnew
    rw [mem_singleton.mp hnew]
    apply hnone group hgroup
  · intro group hgroup
    obtain hgroup | hgroup := mem_append.mp hgroup
    · apply h.uniform group hgroup
    · rw [mem_singleton.mp hgroup]
      cases hself : listEq (groupCells groupBy row) (groupCells groupBy row) with
      | true => exact Or.inl ⟨hself, by simpa using hself⟩
      | false => exact Or.inr ⟨hself, row, rfl⟩
  · intro key
    rw [filter_append, flatMap_append, h.collects]
    cases heq : listEq key (groupCells groupBy row) <;> simp [heq]

theorem Grouped.extend {before after : List Group}
    (h : Grouped groupBy rows (before ++ group :: after))
    (heq : listEq group.key (groupCells groupBy row) = true) :
  Grouped groupBy (rows ++ [row]) (before ++ { group with rows := group.rows ++ [row] } :: after)
  := by
  have hgroup : group ∈ before ++ group :: after := by simp
  constructor
  · obtain ⟨hbefore, hafter, hcross⟩ := pairwise_append.mp h.pairwise
    obtain ⟨hhead, htail⟩ := pairwise_cons.mp hafter
    apply pairwise_append.mpr
    use hbefore, pairwise_cons.mpr ⟨hhead, htail⟩
    intro left hleft right hright
    obtain rfl | hright := mem_cons.mp hright
    · apply hcross left hleft group mem_cons_self
    · apply hcross left hleft right (mem_cons_of_mem group hright)
  · intro other hother
    by_cases hold : other ∈ before ++ group :: after
    · apply h.uniform other hold
    · have hnew : other = { group with rows := group.rows ++ [row] } := by
        simp only [mem_append, mem_cons] at hother hold
        tauto
      obtain ⟨hself, hrows⟩ | ⟨hself, -⟩ := h.uniform group hgroup
      · left
        rw [hnew]
        use hself
        intro r hr
        obtain hr | hr := mem_append.mp hr
        · apply hrows r hr
        · rw [mem_singleton.mp hr]
          apply heq
      · rw [listEq_trans heq (listEq_symm heq)] at hself
        cases hself
  · intro key
    rw [@filter_append _ _ rows, ← h.collects key]
    cases hkey : listEq key group.key with
    | true =>
      have hrow : listEq key (groupCells groupBy row) = true := listEq_trans hkey heq
      have hone := h.rows_eq hgroup hkey
      simp only [filter_append, filter_cons, hkey, if_true, hrow] at hone ⊢
      obtain ⟨hbefore, hafter⟩ : (before.filter fun other => listEq key other.key) = [] ∧
          (after.filter fun other => listEq key other.key) = [] := by
        have hlength := congrArg length hone
        simp only [length_append, length_cons, length_nil] at hlength
        constructor <;> apply eq_nil_of_length_eq_zero <;> omega
      simp [hafter]
    | false =>
      have hrow : listEq key (groupCells groupBy row) = false := by
        apply Bool.eq_false_of_not_eq_true
        intro hrow
        rw [listEq_trans hrow (listEq_symm heq)] at hkey
        cases hkey
      simp [hkey, hrow]

/-- The groups after one more row. -/
theorem Grouped.addToGroups (std : StdHash) (row : RelationalRow)
    (h : Grouped groupBy rows groups) :
  Grouped groupBy (rows ++ [row]) (addToGroups std groupBy row groups)
  := by
  obtain ⟨hnone, hadd⟩ | ⟨before, group, after, rfl, heq, hadd⟩ :=
    addToGroups_cases std groupBy row groups
  · rw [hadd]
    apply h.new hnone
  · rw [hadd]
    apply h.extend heq

theorem Grouped.foldl (std : StdHash) (more : List RelationalRow)
    (h : Grouped groupBy rows groups) :
  Grouped groupBy (rows ++ more)
    (more.foldl (fun groups row => Relational.addToGroups std groupBy row groups) groups)
  := by
  induction more generalizing rows groups with
  | nil => rwa [append_nil]
  | cons row more ih =>
    have hrest := ih (h.addToGroups std row)
    rwa [append_assoc] at hrest

/-- The groups which are built collect the rows of the stream. -/
theorem grouped_of_buildGroups {input : BatchStream}
    (h : buildGroups std input groupBy = .ok groups) :
  Grouped groupBy input.rows groups
  := by
  obtain ⟨-, -, hgroups⟩ := StatusOr.bind_eq_ok_iff.mp h
  have hnil : Grouped groupBy [] [] := ⟨.nil, by simp, by simp⟩
  have hfold := hnil.foldl std input.rows
  obtain rfl := Except.ok.inj hgroups
  split
  case isTrue hempty =>
    obtain ⟨hrows, rfl⟩ := hempty
    rw [hrows]
    constructor
    · apply pairwise_singleton
    · intro group hgroup
      rw [mem_singleton.mp hgroup]
      exact Or.inl ⟨rfl, by simp⟩
    · intro key
      apply flatMap_eq_nil_iff.mpr
      intro group hgroup
      rw [mem_singleton.mp (mem_of_mem_filter hgroup)]
  case isFalse => exact hfold

end Relational

end Cedar
