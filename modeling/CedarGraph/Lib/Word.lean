import Mathlib

/-!
# Machine words as linear orders

The unsigned words `UInt8`, `UInt16`, `UInt32` and `UInt64` are linearly ordered by their values, so
that results about linear orders apply to them.
-/

namespace Word

/-- The order of 64-bit words by value. -/
instance instLinearOrderUInt64 : LinearOrder UInt64 where
  le_refl := UInt64.le_refl
  le_trans _ _ _ := UInt64.le_trans
  lt_iff_le_not_ge a b := by grind
  le_antisymm _ _ := UInt64.le_antisymm
  le_total := UInt64.le_total
  toDecidableLE := inferInstance
  toDecidableLT := inferInstance
  toDecidableEq := inferInstance

/-- The order of 32-bit words by value. -/
instance instLinearOrderUInt32 : LinearOrder UInt32 where
  le_refl := UInt32.le_refl
  le_trans _ _ _ := UInt32.le_trans
  lt_iff_le_not_ge a b := by grind
  le_antisymm _ _ := UInt32.le_antisymm
  le_total := UInt32.le_total
  toDecidableLE := inferInstance
  toDecidableLT := inferInstance
  toDecidableEq := inferInstance

/-- The order of 16-bit words by value. -/
instance instLinearOrderUInt16 : LinearOrder UInt16 where
  le_refl := UInt16.le_refl
  le_trans _ _ _ := UInt16.le_trans
  lt_iff_le_not_ge a b := by grind
  le_antisymm _ _ := UInt16.le_antisymm
  le_total := UInt16.le_total
  toDecidableLE := inferInstance
  toDecidableLT := inferInstance
  toDecidableEq := inferInstance

/-- The order of bytes by value. -/
instance instLinearOrderUInt8 : LinearOrder UInt8 where
  le_refl := UInt8.le_refl
  le_trans _ _ _ := UInt8.le_trans
  lt_iff_le_not_ge a b := by grind
  le_antisymm _ _ := UInt8.le_antisymm
  le_total := UInt8.le_total
  toDecidableLE := inferInstance
  toDecidableLT := inferInstance
  toDecidableEq := inferInstance

/-- Zero is the least 64-bit word. -/
instance instOrderBotUInt64 : OrderBot UInt64 where
  bot := 0
  bot_le _ := by grind

theorem le_neg_one (n : UInt64) :
  n ≤ -1
  := UInt64.le_iff_toNat_le.mpr (Nat.le_of_lt_succ n.toNat_lt)

/-- The word after one which is not the greatest. -/
theorem toNat_add_one {n : UInt64} (h : n ≠ -1) :
  (n + 1).toNat = n.toNat + 1
  := by
  have hlast : n.toNat ≠ 2 ^ 64 - 1 := by
    intro heq
    apply h
    apply UInt64.toNat_inj.mp
    rw [heq]
    rfl
  have hlt := n.toNat_lt
  rw [UInt64.toNat_add, UInt64.toNat_one]
  omega

end Word
