import CedarGraph.Lib.Timeline

/-!
# Values

A `Value` is a schema-bound value of one of eight physical types.  A floating-point value is
kept as its bit pattern, and equality compares it as IEEE 754 does: a NaN equals nothing, and
the two zeros are equal.  Equality of values is therefore a partial equivalence only.
-/

namespace Cedar

/-- The physical types. -/
inductive PhysicalType where
  | bool
  | int32
  | int64
  | float32
  | float64
  | timestamp64
  | string
  | binary
  deriving DecidableEq

/-- Schema-bound values.  Strings and binary values are byte strings with different types. -/
inductive Value where
  | bool (value : Bool)
  | int32 (value : Int32)
  | int64 (value : Int64)
  | float32 (bits : UInt32)
  | float64 (bits : UInt64)
  | timestamp (value : UInt64)
  | string (bytes : List UInt8)
  | binary (bytes : List UInt8)
  deriving DecidableEq

namespace Value

/-- The physical type of a value. -/
def type : Value → PhysicalType
  | bool _ => .bool
  | int32 _ => .int32
  | int64 _ => .int64
  | float32 _ => .float32
  | float64 _ => .float64
  | timestamp _ => .timestamp64
  | string _ => .string
  | binary _ => .binary

/-! ### Floating-point equality -/

/-- The pattern is a single precision NaN: all exponent bits and some fraction bit are set. -/
def isNaN32 (bits : UInt32) : Bool :=
  0x7F800000 < bits &&& 0x7FFFFFFF

/-- The pattern is a double precision NaN: all exponent bits and some fraction bit are set. -/
def isNaN64 (bits : UInt64) : Bool :=
  0x7FF0000000000000 < bits &&& 0x7FFFFFFFFFFFFFFF

/-- The pattern is a single precision zero of either sign. -/
def isZero32 (bits : UInt32) : Bool :=
  bits &&& 0x7FFFFFFF == 0

/-- The pattern is a double precision zero of either sign. -/
def isZero64 (bits : UInt64) : Bool :=
  bits &&& 0x7FFFFFFFFFFFFFFF == 0

/-- Equality of floating-point patterns, given which patterns are NaNs and zeros. -/
def floatEq {W : Type} [DecidableEq W] (isNaN isZero : W → Bool) (left right : W) : Bool :=
  !isNaN left && !isNaN right && (decide (left = right) || (isZero left && isZero right))

section FloatEq

variable {W : Type} [DecidableEq W] {isNaN isZero : W → Bool} {a b c : W}

theorem floatEq_iff :
  floatEq isNaN isZero a b = true ↔
    isNaN a = false ∧ isNaN b = false ∧ (a = b ∨ (isZero a = true ∧ isZero b = true))
  := by
  simp [floatEq, and_assoc]

theorem floatEq_symm (h : floatEq isNaN isZero a b = true) :
  floatEq isNaN isZero b a = true
  := by
  obtain ⟨ha, hb, h⟩ := floatEq_iff.mp h
  exact floatEq_iff.mpr ⟨hb, ha, h.imp Eq.symm And.symm⟩

theorem floatEq_trans
    (h : floatEq isNaN isZero a b = true) (h' : floatEq isNaN isZero b c = true) :
  floatEq isNaN isZero a c = true
  := by
  obtain ⟨ha, -, h⟩ := floatEq_iff.mp h
  obtain ⟨-, hc, h'⟩ := floatEq_iff.mp h'
  refine floatEq_iff.mpr ⟨ha, hc, ?_⟩
  obtain rfl | ⟨hza, hzb⟩ := h
  · exact h'
  · obtain rfl | ⟨-, hzc⟩ := h'
    · exact Or.inr ⟨hza, hzb⟩
    · exact Or.inr ⟨hza, hzc⟩

end FloatEq

/-- The number which orders floating-point patterns that are not NaNs, given the sign bit and the
other bits: the two zeros have one number. -/
def floatRank (negative : Bool) (magnitude : Nat) : Int :=
  if negative then -(magnitude : Int) else magnitude

/-- The order of single precision patterns, in which a NaN has no place. -/
def floatLt32 (left right : UInt32) : Bool :=
  let rank := fun bits : UInt32 => floatRank (bits &&& 0x80000000 != 0) (bits &&& 0x7FFFFFFF).toNat
  !isNaN32 left && !isNaN32 right && rank left < rank right

/-- The order of double precision patterns, in which a NaN has no place. -/
def floatLt64 (left right : UInt64) : Bool :=
  let rank := fun bits : UInt64 =>
    floatRank (bits &&& 0x8000000000000000 != 0) (bits &&& 0x7FFFFFFFFFFFFFFF).toNat
  !isNaN64 left && !isNaN64 right && rank left < rank right

/-! ### Order of values -/

/-- The operator `<` of data of one representation.  Strings and binary values are both byte
strings; data of different representations are not ordered. -/
def dataLt : Value → Value → Bool
  | bool a, bool b => !a && b
  | int32 a, int32 b => a < b
  | int64 a, int64 b => a < b
  | float32 a, float32 b => floatLt32 a b
  | float64 a, float64 b => floatLt64 a b
  | timestamp a, timestamp b => a < b
  | string a, string b => a < b
  | string a, binary b => a < b
  | binary a, string b => a < b
  | binary a, binary b => a < b
  | _, _ => false

/-- The comparison of data: neither of incomparable data is less than the other. -/
def dataOrder (left right : Value) : Ordering :=
  if dataLt left right then .lt else if dataLt right left then .gt else .eq

/-! ### Equality of values -/

/-- The operator `==` of values: equal types and equal data. -/
def eq : Value → Value → Bool
  | float32 a, float32 b => floatEq isNaN32 isZero32 a b
  | float64 a, float64 b => floatEq isNaN64 isZero64 a b
  | a, b => decide (a = b)

instance : BEq Value := ⟨eq⟩

/-- Equal values are equal floating-point numbers, or the same. -/
theorem eq_cases {a b : Value} (h : eq a b = true) :
  (∃ x y, a = float32 x ∧ b = float32 y ∧ floatEq isNaN32 isZero32 x y = true) ∨
    (∃ x y, a = float64 x ∧ b = float64 y ∧ floatEq isNaN64 isZero64 x y = true) ∨ a = b
  := by
  unfold eq at h
  split at h
  · exact Or.inl ⟨_, _, rfl, rfl, h⟩
  · exact Or.inr (Or.inl ⟨_, _, rfl, rfl, h⟩)
  · exact Or.inr (Or.inr (of_decide_eq_true h))

theorem eq_symm {a b : Value} (h : eq a b = true) :
  eq b a = true
  := by
  obtain ⟨x, y, rfl, rfl, hxy⟩ | ⟨x, y, rfl, rfl, hxy⟩ | rfl := eq_cases h
  · exact floatEq_symm hxy
  · exact floatEq_symm hxy
  · exact h

theorem eq_trans {a b c : Value} (h : eq a b = true) (h' : eq b c = true) :
  eq a c = true
  := by
  obtain ⟨x, y, rfl, rfl, hxy⟩ | ⟨x, y, rfl, rfl, hxy⟩ | rfl := eq_cases h
  · cases c with
    | float32 z => exact floatEq_trans hxy h'
    | _ => simp [eq] at h'
  · cases c with
    | float64 z => exact floatEq_trans hxy h'
    | _ => simp [eq] at h'
  · exact h'

end Value

/-- The operator `==` of optional values. -/
def optionalEq : Option Value → Option Value → Bool
  | none, none => true
  | some a, some b => a == b
  | _, _ => false

instance instBEqOptionValue : BEq (Option Value) := ⟨optionalEq⟩

theorem optionalEq_symm :
    ∀ {a b : Option Value}, optionalEq a b = true → optionalEq b a = true
  | none, none, _ => rfl
  | some _, some _, h => Value.eq_symm h

theorem optionalEq_trans :
    ∀ {a b c : Option Value},
      optionalEq a b = true → optionalEq b c = true → optionalEq a c = true
  | none, none, none, _, _ => rfl
  | some _, some _, some _, h, h' => Value.eq_trans h h'

instance : PartialEquivBEq (Option Value) where
  symm := optionalEq_symm
  trans := optionalEq_trans

end Cedar
