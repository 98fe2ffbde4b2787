import CedarGraph.Lib.Comparing
import CedarGraph.Relational.SpillCodec

/-!
# The order of keys

The comparison of well-typed cells without floating-point data is a total order: it compares
lists of numbers lexicographically.
-/

namespace Cedar

open False Ordering QueryType

open RelationalScalar (compareSimple compareInterval)

namespace RelationalScalar

/-- The end of an interval, of which an absent one is last. -/
def stopKey (interval : ValidTimeInterval) : WithTop UInt64 :=
  interval.stop.elim ⊤ (↑)

/-- Well-typed data are of the form which their type gives them. -/
def HasForm (value : RelationalScalar) : QueryType → Prop
  | .bool => ∃ x, value = .bool x
  | .int32 => ∃ x, value = .int32 x
  | .int64 => ∃ x, value = .int64 x
  | .float32 => ∃ x, value = .float x
  | .float64 => ∃ x, value = .double x
  | .timestamp64 => ∃ x, value = .timestamp x
  | .string => ∃ x, value = .string x
  | .binary => ∃ x, value = .binary x
  | .vertexRef => ∃ x, value = .vertexRef x
  | .edgeRef => ∃ x, value = .edgeRef x
  | .validTime => ∃ x, value = .validTime x
  | .validDuration => ∃ x, value = .validDuration x
  | .commitSeq => ∃ x, value = .commitSeq x
  | .validTimeInterval => ∃ x, value = .interval x
  | .path => False
  | .journey => False

variable {type : QueryType}

theorem HasType.form {value : RelationalScalar} (h : value.HasType type) :
  value.HasForm type
  := by
  cases value <;> cases type <;> first | exact elim h | exact ⟨_, rfl⟩

/-- The numbers by which the data of a type are ordered lexicographically. -/
def code : RelationalScalar → List (WithTop ℤ)
  | .bool x => [(x.toNat : WithTop ℤ)]
  | .int32 x => [(x.toInt : WithTop ℤ)]
  | .int64 x => [(x.toInt : WithTop ℤ)]
  | .float _ | .double _ => []
  | .timestamp x | .validTime x | .validDuration x | .commitSeq x => [(x.toNat : WithTop ℤ)]
  | .string x | .binary x => x.map fun byte => (byte.toNat : WithTop ℤ)
  | .vertexRef x => [(x.partId.toNat : WithTop ℤ), (x.vertexId.toNat : WithTop ℤ)]
  | .edgeRef x => [(x.homePartId.toNat : WithTop ℤ), (x.edgeId.toNat : WithTop ℤ)]
  | .interval x => [(x.start.toNat : WithTop ℤ), (stopKey x).map fun stop => (stop.toNat : ℤ)]

theorem map_toNat_lt_iff (l m : List UInt8) :
  (l.map fun byte => (byte.toNat : WithTop ℤ)) < m.map (fun byte => (byte.toNat : WithTop ℤ)) ↔
    l < m
  := by
  induction l generalizing m with
  | nil => cases m <;> simp
  | cons x l ih =>
    cases m with
    | nil => simp
    | cons y m =>
      rw [List.map_cons, List.map_cons, List.cons_lt_cons_iff, List.cons_lt_cons_iff, ih]
      simp [UInt8.lt_iff_toNat_lt, UInt8.toNat_inj]

variable {a b : RelationalScalar} (h32 : type ≠ .float32) (h64 : type ≠ .float64)
  (ha : a.HasForm type) (hb : b.HasForm type)

include h32 h64 ha hb

theorem compare_eq_code :
  compare a b = compareByLT a.code b.code
  := by
  cases type
  case float32 => exact absurd rfl h32
  case float64 => exact absurd rfl h64
  case path => exact elim ha
  case journey => exact elim ha
  all_goals
    obtain ⟨x, rfl⟩ := ha
    obtain ⟨y, rfl⟩ := hb
  case bool => cases x <;> cases y <;> decide
  case string => simp [code, compare, compareSimple, compareByLT, map_toNat_lt_iff]
  case binary => simp [code, compare, compareSimple, compareByLT, map_toNat_lt_iff]
  case validTimeInterval =>
    simp only [code, compare, compareInterval, compareByLT_cons, stopKey]
    cases x.stop <;> cases y.stop <;>
      simp [compareSimple, compareByLT, UInt64.lt_iff_toNat_lt]
  all_goals
    simp [code, compare, compareByLT_cons]
    simp [compareSimple, compareByLT, UInt64.lt_iff_toNat_lt, UInt32.lt_iff_toNat_lt,
      Int32.lt_iff_toInt_lt, Int64.lt_iff_toInt_lt]

theorem eq_of_code (h : a.code = b.code) :
  a = b
  := by
  have hbytes : Function.Injective (List.map fun byte : UInt8 => (byte.toNat : WithTop ℤ)) := by
    rw [List.map_injective_iff]
    intro x y h
    simpa [UInt8.toNat_inj] using h
  cases type
  case float32 => exact absurd rfl h32
  case float64 => exact absurd rfl h64
  case path => exact elim ha
  case journey => exact elim ha
  all_goals
    obtain ⟨x, rfl⟩ := ha
    obtain ⟨y, rfl⟩ := hb
  case bool => cases x <;> cases y <;> first | rfl | cases h
  case string => exact congrArg _ (hbytes h)
  case binary => exact congrArg _ (hbytes h)
  case validTimeInterval =>
    obtain ⟨start, stop⟩ := x
    obtain ⟨start', stop'⟩ := y
    cases stop <;> cases stop' <;> simp_all [code, stopKey, UInt64.toNat_inj]
  case vertexRef => cases x; cases y; simpa [code, UInt64.toNat_inj, UInt32.toNat_inj] using h
  case edgeRef => cases x; cases y; simpa [code, UInt64.toNat_inj, UInt32.toNat_inj] using h
  all_goals simpa [code, UInt64.toNat_inj, Int32.toInt_inj, Int64.toInt_inj] using h

end RelationalScalar

theorem QueryType.number_injective :
  Function.Injective number
  := by
  intro a b h
  apply Option.some.inj
  rw [← ofNumber_number, ← ofNumber_number, h]

namespace RelationalCell

/-- A well-typed cell which is no floating-point number. -/
structure IsKey (cell : RelationalCell) : Prop where
  wellTyped : cell.WellTyped
  not_float32 : cell.present = true → cell.type ≠ .float32
  not_float64 : cell.present = true → cell.type ≠ .float64

/-- The comparison of the data of cells, of which missing ones have none. -/
def compareValues (a b : RelationalCell) : Ordering :=
  if a.present && b.present then a.value.compare b.value else .eq

theorem compare_eq_then (a b : RelationalCell) :
  a.compare b = (compareByLT a.type.number b.type.number).then
    ((compareByLT a.present b.present).then (compareValues a b))
  := by
  have hnumber := @number_injective a.type b.type
  have hcases := Nat.lt_trichotomy a.type.number b.type.number
  unfold compare compareByLT compareValues
  by_cases htype : a.type = b.type
  · rw [htype]
    cases ha : a.present <;> cases hb : b.present <;> simp
  · rw [if_pos htype]
    obtain h | h | h := hcases
    · simp [h]
    · exact absurd (hnumber h) htype
    · simp [h, Nat.lt_asymm h]

theorem IsKey.hasForm {cell : RelationalCell} (h : cell.IsKey) (hpresent : cell.present = true) :
  cell.value.HasForm cell.type
  := by
  have htyped := h.wellTyped
  rw [WellTyped, if_pos hpresent] at htyped
  apply htyped.form

/-- The numbers by which keys are ordered lexicographically. -/
def code (cell : RelationalCell) : List (WithTop ℤ) :=
  (cell.type.number : WithTop ℤ) :: (cell.present.toNat : WithTop ℤ) ::
    if cell.present then cell.value.code else []

variable {a b : RelationalCell}

theorem IsKey.compare_eq_code (ha : a.IsKey) (hb : b.IsKey) :
  a.compare b = compareByLT a.code b.code
  := by
  have hnumber : compareByLT (a.type.number : WithTop ℤ) b.type.number =
      compareByLT a.type.number b.type.number := by simp [compareByLT]
  have hpresent : compareByLT (a.present.toNat : WithTop ℤ) b.present.toNat =
      compareByLT a.present b.present := by cases a.present <;> cases b.present <;> decide
  rw [compare_eq_then, code, code, compareByLT_cons, compareByLT_cons, hnumber, hpresent]
  cases hcompare : compareByLT a.type.number b.type.number with
  | lt => rfl
  | gt => rfl
  | eq =>
    have htype := number_injective
      ((strictTotal_of_linearOrder Nat).eq_of_compareByLT hcompare)
    have hform := hb.hasForm
    rw [← htype] at hform
    unfold compareValues
    cases ha' : a.present <;> cases hb' : b.present
    case true.true =>
      apply RelationalScalar.compare_eq_code (ha.not_float32 ha') (ha.not_float64 ha')
        (ha.hasForm ha') (hform hb')
    all_goals rfl

theorem IsKey.eq_of_code (ha : a.IsKey) (hb : b.IsKey) (h : a.code = b.code) :
  a = b
  := by
  obtain ⟨type, present, value⟩ := a
  obtain ⟨type', present', value'⟩ := b
  obtain ⟨hnumber, hpresent, hvalue⟩ : (type.number : WithTop ℤ) = type'.number ∧
      (present.toNat : WithTop ℤ) = present'.toNat ∧
      (if present then value.code else []) = if present' then value'.code else [] := by
    simpa [code] using h
  obtain rfl := number_injective (Nat.cast_injective hnumber)
  cases present <;> cases present'
  case false.false => exact congrArg _ (ha.wellTyped.trans hb.wellTyped.symm)
  case true.true =>
    apply congrArg _ (RelationalScalar.eq_of_code (ha.not_float32 rfl) (ha.not_float64 rfl)
      (ha.hasForm rfl) (hb.hasForm rfl) hvalue)
  all_goals exact absurd (Nat.cast_injective hpresent) (by decide)

/-- The keys are ordered. -/
theorem ordersOn_compare :
  OrdersOn compare IsKey
  := ((strictTotal_of_linearOrder _).ordersOn code IsKey).congr fun _ _ => IsKey.compare_eq_code

/-- Keys which compare as equal are equal. -/
theorem IsKey.eq_of_compare (ha : a.IsKey) (hb : b.IsKey) (h : a.compare b = .eq) :
  a = b
  := by
  rw [ha.compare_eq_code hb] at h
  apply ha.eq_of_code hb ((strictTotal_of_linearOrder _).eq_of_compareByLT h)

/-- A key which is present is no floating-point number. -/
theorem IsKey.value_ne (ha : a.IsKey) (hpresent : a.present = true) :
  (∀ x, a.value ≠ .float x) ∧ ∀ x, a.value ≠ .double x
  := by
  have hform := ha.hasForm hpresent
  have h32 := ha.not_float32 hpresent
  have h64 := ha.not_float64 hpresent
  cases htype : a.type <;> rw [htype] at hform h32 h64 <;>
    simp only [RelationalScalar.HasForm, ne_eq, not_true_eq_false] at hform h32 h64
  all_goals
    obtain ⟨y, hy⟩ := hform
    rw [hy]
    simp

/-- Keys match if they are the same and not missing. -/
theorem IsKey.keysEqual_iff (ha : a.IsKey) (hb : b.IsKey) :
  a.keysEqual b = true ↔ a.present = true ∧ a = b
  := by
  constructor
  · intro h
    simp only [keysEqual, Bool.and_eq_true] at h
    obtain ⟨⟨⟨hpresent, hpresent'⟩, htype⟩, hvalue⟩ := h
    obtain ⟨h32, h64⟩ := ha.value_ne hpresent
    obtain ⟨x, _, hx, -⟩ | ⟨x, _, hx, -⟩ | hsame := RelationalScalar.eq_cases hvalue
    · exact absurd hx (h32 x)
    · exact absurd hx (h64 x)
    · cases a
      cases b
      simp_all
  · rintro ⟨hpresent, rfl⟩
    obtain ⟨h32, h64⟩ := ha.value_ne hpresent
    have hself : a.value.eq a.value = true := by
      unfold RelationalScalar.eq
      split
      case h_1 x _ hx _ => exact absurd hx (h32 x)
      case h_2 x _ hx _ => exact absurd hx (h64 x)
      case h_3 => exact decide_eq_true rfl
    simp [keysEqual, hpresent, hself]

end RelationalCell

end Cedar
