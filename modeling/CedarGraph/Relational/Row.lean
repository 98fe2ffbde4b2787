import CedarGraph.Logical.Expression

/-!
# Rows of relational operators

A row has typed cells, of which any may be missing, and an interval in which it is effective,
unless it is not temporal.  A row also remembers its hash, once it has been computed.  Equality of
rows compares floating-point cells as IEEE 754 does, and does not look at the remembered hash.
-/

namespace Cedar

open Bool Value

/-- The data of cells. -/
inductive RelationalScalar where
  | bool (value : Bool)
  | int32 (value : Int32)
  | int64 (value : Int64)
  | float (bits : UInt32)
  | double (bits : UInt64)
  | timestamp (value : UInt64)
  | string (bytes : List UInt8)
  | binary (bytes : List UInt8)
  | vertexRef (ref : VertexRef)
  | edgeRef (ref : EdgeRef)
  | validTime (time : ValidTime)
  | validDuration (duration : UInt64)
  | commitSeq (seq : CommitSeq)
  | interval (interval : ValidTimeInterval)
  deriving DecidableEq

namespace RelationalScalar

/-- The operator `==` of data. -/
def eq : RelationalScalar → RelationalScalar → Bool
  | float a, float b => Value.floatEq Value.isNaN32 Value.isZero32 a b
  | double a, double b => Value.floatEq Value.isNaN64 Value.isZero64 a b
  | a, b => decide (a = b)

/-- The comparison by the operator `<`. -/
def compareSimple {α : Type} [LT α] [DecidableLT α] (left right : α) : Ordering :=
  if left < right then .lt else if right < left then .gt else .eq

/-- The comparison of floating-point patterns: NaNs are equal, and greater than all others. -/
def compareFloat {α : Type} (isNaN : α → Bool) (lt : α → α → Bool) (left right : α) : Ordering :=
  if isNaN left || isNaN right then
    if isNaN left && isNaN right then .eq else if isNaN left then .gt else .lt
  else if lt left right then .lt
  else if lt right left then .gt
  else .eq

/-- The comparison of intervals: by start, and then by end, of which an absent one is last. -/
def compareInterval (left right : ValidTimeInterval) : Ordering :=
  (compareSimple left.start right.start).then
    (match left.stop, right.stop with
      | some left, some right => compareSimple left right
      | some _, none => .lt
      | none, some _ => .gt
      | none, none => .eq)

/-- The comparison of data of one kind.  Data of different kinds compare as equal. -/
def compare : RelationalScalar → RelationalScalar → Ordering
  | bool a, bool b => compareSimple a b
  | int32 a, int32 b => compareSimple a b
  | int64 a, int64 b => compareSimple a b
  | float a, float b => compareFloat Value.isNaN32 Value.floatLt32 a b
  | double a, double b => compareFloat Value.isNaN64 Value.floatLt64 a b
  | timestamp a, timestamp b => compareSimple a b
  | string a, string b => compareSimple a b
  | binary a, binary b => compareSimple a b
  | vertexRef a, vertexRef b =>
      (compareSimple a.partId b.partId).then (compareSimple a.vertexId b.vertexId)
  | edgeRef a, edgeRef b =>
      (compareSimple a.homePartId b.homePartId).then (compareSimple a.edgeId b.edgeId)
  | validTime a, validTime b => compareSimple a b
  | validDuration a, validDuration b => compareSimple a b
  | commitSeq a, commitSeq b => compareSimple a b
  | interval a, interval b => compareInterval a b
  | _, _ => .eq

/-- Equal data are equal floating-point numbers, or the same. -/
theorem eq_cases {a b : RelationalScalar} (h : eq a b = true) :
  (∃ x y, a = float x ∧ b = float y ∧
      floatEq isNaN32 isZero32 x y = true) ∨
    (∃ x y, a = double x ∧ b = double y ∧
      floatEq isNaN64 isZero64 x y = true) ∨ a = b
  := by
  unfold eq at h
  split at h
  · exact Or.inl ⟨_, _, rfl, rfl, h⟩
  · exact Or.inr (Or.inl ⟨_, _, rfl, rfl, h⟩)
  · exact Or.inr (Or.inr (of_decide_eq_true h))

theorem eq_symm {a b : RelationalScalar} (h : eq a b = true) :
  eq b a = true
  := by
  obtain ⟨x, y, rfl, rfl, hxy⟩ | ⟨x, y, rfl, rfl, hxy⟩ | rfl := eq_cases h
  · exact floatEq_symm hxy
  · exact floatEq_symm hxy
  · exact h

theorem eq_trans {a b c : RelationalScalar} (h : eq a b = true) (h' : eq b c = true) :
  eq a c = true
  := by
  obtain ⟨x, y, rfl, rfl, hxy⟩ | ⟨x, y, rfl, rfl, hxy⟩ | rfl := eq_cases h
  · cases c with
    | float z => exact floatEq_trans hxy h'
    | _ => simp [eq] at h'
  · cases c with
    | double z => exact floatEq_trans hxy h'
    | _ => simp [eq] at h'
  · exact h'

end RelationalScalar

/-! ### Cells -/

/-- A cell of a row.  A missing cell has a type as well. -/
structure RelationalCell where
  type : QueryType := .bool
  present : Bool := false
  value : RelationalScalar := .bool false
  deriving DecidableEq

/-- The number of a type. -/
def QueryType.number : QueryType → Nat
  | .bool => 0
  | .int32 => 1
  | .int64 => 2
  | .float32 => 3
  | .float64 => 4
  | .timestamp64 => 5
  | .string => 6
  | .binary => 7
  | .vertexRef => 8
  | .edgeRef => 9
  | .validTime => 10
  | .validDuration => 11
  | .commitSeq => 12
  | .validTimeInterval => 13
  | .path => 14
  | .journey => 15

namespace RelationalCell

/-- The operator `==` of cells. -/
def eq (left right : RelationalCell) : Bool :=
  left.type = right.type && left.present = right.present && left.value.eq right.value

/-- Cells which are present and have equal values match. -/
def keysEqual (left right : RelationalCell) : Bool :=
  left.present && right.present && left.type = right.type && left.value.eq right.value

/-- The comparison of cells: by type, then missing ones first, then by value. -/
def compare (left right : RelationalCell) : Ordering :=
  if left.type ≠ right.type then
    if left.type.number < right.type.number then .lt else .gt
  else if left.present ≠ right.present then
    if left.present then .gt else .lt
  else if !left.present then .eq
  else left.value.compare right.value

theorem keysEqual_iff {left right : RelationalCell} :
  left.keysEqual right = true ↔ left.present = true ∧ left.eq right = true
  := by
  simp only [keysEqual, eq, and_eq_true, decide_eq_true_eq]
  constructor
  · rintro ⟨⟨⟨hl, hr⟩, htype⟩, hvalue⟩
    simp [hl, hr, htype, hvalue]
  · rintro ⟨hl, ⟨htype, hpresent⟩, hvalue⟩
    simp [← hpresent, hl, htype, hvalue]

theorem eq_symm {a b : RelationalCell} (h : a.eq b = true) :
  b.eq a = true
  := by
  simp only [eq, and_eq_true, decide_eq_true_eq] at h ⊢
  exact ⟨⟨h.1.1.symm, h.1.2.symm⟩, RelationalScalar.eq_symm h.2⟩

theorem eq_trans {a b c : RelationalCell} (h : a.eq b = true) (h' : b.eq c = true) :
  a.eq c = true
  := by
  simp only [eq, and_eq_true, decide_eq_true_eq] at h h' ⊢
  exact ⟨⟨h.1.1.trans h'.1.1, h.1.2.trans h'.1.2⟩, RelationalScalar.eq_trans h.2 h'.2⟩

/-- The operator `==` of lists of cells. -/
def listEq : List RelationalCell → List RelationalCell → Bool
  | [], [] => true
  | a :: l, b :: m => a.eq b && listEq l m
  | _, _ => false

theorem listEq_symm {l m : List RelationalCell} (h : listEq l m = true) :
  listEq m l = true
  := by
  induction l generalizing m with
  | nil => cases m with
    | nil => rfl
    | cons => cases h
  | cons a l ih => cases m with
    | nil => cases h
    | cons b m =>
      simp only [listEq, and_eq_true] at h ⊢
      exact ⟨eq_symm h.1, ih h.2⟩

theorem listEq_trans {l m n : List RelationalCell} (h : listEq l m = true)
    (h' : listEq m n = true) :
  listEq l n = true
  := by
  induction l generalizing m n with
  | nil => cases m with
    | nil => exact h'
    | cons => cases h
  | cons a l ih => cases m with
    | nil => cases h
    | cons b m => cases n with
      | nil => cases h'
      | cons c n =>
        simp only [listEq, and_eq_true] at h h' ⊢
        exact ⟨eq_trans h.1 h'.1, ih h.2 h'.2⟩

end RelationalCell

/-! ### Hashes -/

/-- The hash functions of the standard library, of which nothing is assumed. -/
structure StdHash where
  bool : Bool → UInt64
  int32 : Int32 → UInt64
  int64 : Int64 → UInt64
  uint32 : UInt32 → UInt64
  uint64 : UInt64 → UInt64
  string : List UInt8 → UInt64

/-- The hash after one more part. -/
def combineHash (hash part : UInt64) : UInt64 :=
  hash ^^^ (part + (0x9e3779b97f4a7c15 : UInt64) + (hash <<< (6 : UInt64)) +
    (hash >>> (2 : UInt64)))

/-- The hash of a cell.  Missing cells have hash zero, and the two zeros have one hash. -/
def hashCell (std : StdHash) (cell : RelationalCell) : UInt64 :=
  if !cell.present then 0
  else
    let hash : UInt64 := .ofNat cell.type.number + 0x9e3779b9
    match cell.value with
    | .bool value => combineHash hash (std.bool value)
    | .int32 value => combineHash hash (std.int32 value)
    | .int64 value => combineHash hash (std.int64 value)
    | .float bits => combineHash hash (std.uint32 (if Value.isZero32 bits then 0 else bits))
    | .double bits => combineHash hash (std.uint64 (if Value.isZero64 bits then 0 else bits))
    | .timestamp value => combineHash hash value
    | .string bytes => combineHash hash (std.string bytes)
    | .binary bytes => combineHash hash (std.string bytes)
    | .vertexRef ref => combineHash (combineHash hash ref.partId.toUInt64) ref.vertexId
    | .edgeRef ref => combineHash (combineHash hash ref.homePartId.toUInt64) ref.edgeId
    | .validTime time => combineHash hash time
    | .validDuration duration => combineHash hash duration
    | .commitSeq seq => combineHash hash seq
    | .interval interval =>
        combineHash
          (combineHash (combineHash hash interval.start) (interval.stop.getD (0 - 1)))
          interval.stop.isSome.toUInt64

/-- Equal cells have equal hashes. -/
theorem hashCell_eq_of_eq (std : StdHash) {a b : RelationalCell} (h : a.eq b = true) :
  hashCell std a = hashCell std b
  := by
  obtain ⟨type, present, value⟩ := a
  obtain ⟨type', present', value'⟩ := b
  simp only [RelationalCell.eq, and_eq_true, decide_eq_true_eq] at h
  obtain ⟨⟨rfl, rfl⟩, hvalue⟩ := h
  obtain ⟨x, y, rfl, rfl, hxy⟩ | ⟨x, y, rfl, rfl, hxy⟩ | rfl := RelationalScalar.eq_cases hvalue
  · obtain ⟨-, -, rfl | ⟨hx, hy⟩⟩ := floatEq_iff.mp hxy
    · rfl
    · simp [hashCell, hx, hy]
  · obtain ⟨-, -, rfl | ⟨hx, hy⟩⟩ := floatEq_iff.mp hxy
    · rfl
    · simp [hashCell, hx, hy]
  · rfl

/-! ### Rows -/

/-- A row, with the hash which it remembers. -/
structure RelationalRow where
  cells : List RelationalCell
  effective : Option ValidTimeInterval := none
  cachedHash : Option UInt64 := none
  deriving DecidableEq

namespace RelationalRow

/-- The operator `==` of rows. -/
def eq (left right : RelationalRow) : Bool :=
  RelationalCell.listEq left.cells right.cells && left.effective = right.effective

theorem eq_symm {a b : RelationalRow} (h : a.eq b = true) :
  b.eq a = true
  := by
  simp only [eq, and_eq_true, decide_eq_true_eq] at h ⊢
  exact ⟨RelationalCell.listEq_symm h.1, h.2.symm⟩

theorem eq_trans {a b c : RelationalRow} (h : a.eq b = true) (h' : b.eq c = true) :
  a.eq c = true
  := by
  simp only [eq, and_eq_true, decide_eq_true_eq] at h h' ⊢
  exact ⟨RelationalCell.listEq_trans h.1 h'.1, h.2.trans h'.2⟩

/-- The hash of the cells and the interval of a row. -/
def computeHash (std : StdHash) (row : RelationalRow) : UInt64 :=
  let hash := row.cells.foldl (fun hash cell => combineHash hash (hashCell std cell)) 0
  match row.effective with
  | some interval =>
      combineHash (combineHash hash (std.uint64 interval.start))
        (std.uint64 (interval.stop.getD (0 - 1)))
  | none => hash

/-- The hash of a row: the remembered one, if there is any. -/
def hashRow (std : StdHash) (row : RelationalRow) : UInt64 :=
  row.cachedHash.getD (row.computeHash std)

/-- The row remembers its hash once it has been asked for. -/
def rememberHash (std : StdHash) (row : RelationalRow) : RelationalRow :=
  { row with cachedHash := some (row.hashRow std) }

/-- The row without the hash which it remembers. -/
def forgetHash (row : RelationalRow) : RelationalRow :=
  { row with cachedHash := none }

theorem foldl_combineHash_eq_of_listEq
    (std : StdHash) {l m : List RelationalCell} (h : RelationalCell.listEq l m = true)
    (hash : UInt64) :
  l.foldl (fun hash cell => combineHash hash (hashCell std cell)) hash =
    m.foldl (fun hash cell => combineHash hash (hashCell std cell)) hash
  := by
  induction l generalizing m hash with
  | nil => cases m with
    | nil => rfl
    | cons => cases h
  | cons a l ih => cases m with
    | nil => cases h
    | cons b m =>
      simp only [RelationalCell.listEq, and_eq_true] at h
      rw [List.foldl_cons, hashCell_eq_of_eq std h.1]
      apply ih h.2

end RelationalRow

end Cedar
