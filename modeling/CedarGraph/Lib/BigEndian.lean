import CedarGraph.Lib.ByteCodec
import CedarGraph.Lib.Word

/-!
# Keys as bytes

Numbers which are parts of keys are written as a fixed number of bytes, the greatest one first.
The order of such bytes is the order of the numbers, and bytes which are composed of parts of
fixed lengths are ordered by the first part in which they differ.
-/

namespace ByteCodec

open Nat List

/-- A number as `n` bytes, the greatest one first. -/
def putBigEndian : Nat → Nat → List UInt8
  | 0, _ => []
  | n + 1, w => UInt8.ofNat (w / 256 ^ n) :: putBigEndian n w

/-- A number of `n` bytes, the greatest one first. -/
def getBigEndian : Nat → Reader Nat
  | 0, bytes => some (0, bytes)
  | _ + 1, [] => none
  | n + 1, b :: bytes => (getBigEndian n bytes).map fun p => (p.1 + 256 ^ n * b.toNat, p.2)

@[simp]
theorem length_putBigEndian (n w : Nat) :
  (putBigEndian n w).length = n
  := by
  induction n with
  | zero => rfl
  | succ n ih => rw [putBigEndian, length_cons, ih]

/-- A number is read as it was written, up to the bytes which it does not have. -/
theorem getBigEndian_putBigEndian (n w : Nat) :
  Reads (getBigEndian n) (putBigEndian n w) (w % 256 ^ n)
  := by
  intro rest
  induction n with
  | zero =>
    rw [pow_zero, mod_one]
    rfl
  | succ n ih =>
    have hbyte : (UInt8.ofNat (w / 256 ^ n)).toNat = w / 256 ^ n % 256 := UInt8.toNat_ofNat'
    rw [putBigEndian, cons_append, getBigEndian, ih, Option.map_some, hbyte, mod_pow_succ]

/-- A number which fits is read as it was written. -/
theorem reads_getBigEndian {n w : Nat} (h : w < 256 ^ n) :
  Reads (getBigEndian n) (putBigEndian n w) w
  := by
  have hreads := getBigEndian_putBigEndian n w
  rwa [mod_eq_of_lt h] at hreads

/-- A byte of a number orders what the bytes after it leave open. -/
theorem add_mul_lt_iff {m a b c d : Nat} (ha : a < m) (hb : b < m) :
  a + m * c < b + m * d ↔ c < d ∨ c = d ∧ a < b
  := by
  constructor
  · intro hlt
    obtain hcd | rfl | hdc := lt_trichotomy c d
    · left
      exact hcd
    · right
      omega
    · have hmul : m * (d + 1) ≤ m * c := mul_le_mul_left m hdc
      rw [mul_succ] at hmul
      omega
  · rintro (hcd | ⟨rfl, hab⟩)
    · have hmul : m * (c + 1) ≤ m * d := mul_le_mul_left m hcd
      rw [mul_succ] at hmul
      omega
    · omega

/-- The order of the bytes is that of the numbers. -/
theorem putBigEndian_lt_iff_mod (n v w : Nat) :
  putBigEndian n v < putBigEndian n w ↔ v % 256 ^ n < w % 256 ^ n
  := by
  induction n with
  | zero => simp [putBigEndian, mod_one]
  | succ n ih =>
    have hmod (x : Nat) : x % 256 ^ n < 256 ^ n := mod_lt x (by positivity)
    rw [putBigEndian, putBigEndian, cons_lt_cons_iff, ih, mod_pow_succ, mod_pow_succ,
      add_mul_lt_iff (hmod v) (hmod w), UInt8.lt_iff_toNat_lt, ← UInt8.toNat_inj,
      UInt8.toNat_ofNat', UInt8.toNat_ofNat']

theorem putBigEndian_lt_iff {n v w : Nat} (hv : v < 256 ^ n) (hw : w < 256 ^ n) :
  putBigEndian n v < putBigEndian n w ↔ v < w
  := by
  rw [putBigEndian_lt_iff_mod, mod_eq_of_lt hv, mod_eq_of_lt hw]

/-- Numbers which fit are written in different ways. -/
theorem putBigEndian_inj {n v w : Nat} (hv : v < 256 ^ n) (hw : w < 256 ^ n) :
  putBigEndian n v = putBigEndian n w ↔ v = w
  := by
  constructor
  · intro heq
    have hread := reads_getBigEndian hv []
    rw [heq, reads_getBigEndian hw []] at hread
    apply (Prod.mk.inj (Option.some.inj hread)).1.symm
  · rintro rfl
    rfl

/-- The bytes of a number depend on its lower part only. -/
theorem putBigEndian_mod (n w : Nat) :
  putBigEndian n (w % 256 ^ n) = putBigEndian n w
  := by
  apply le_antisymm
  · rw [← not_lt, putBigEndian_lt_iff_mod, mod_mod]
    apply lt_irrefl
  · rw [← not_lt, putBigEndian_lt_iff_mod, mod_mod]
    apply lt_irrefl

/-- A number is read exactly from its bytes. -/
theorem getBigEndian_eq_some_iff {n v : Nat} {bytes rest : List UInt8} :
  getBigEndian n bytes = some (v, rest) ↔ v < 256 ^ n ∧ bytes = putBigEndian n v ++ rest
  := by
  constructor
  case mpr =>
    rintro ⟨hlt, rfl⟩
    apply reads_getBigEndian hlt
  intro h
  induction n generalizing bytes v with
  | zero =>
    obtain ⟨rfl, rfl⟩ := Prod.mk.inj (Option.some.inj h)
    use by simp
    rfl
  | succ n ih =>
    rcases bytes with - | ⟨b, bytes⟩
    · cases h
    · obtain ⟨⟨low, left⟩, hlow, heq⟩ := Option.map_eq_some_iff.mp h
      obtain ⟨rfl, rfl⟩ := Prod.mk.inj heq
      obtain ⟨hlt, rfl⟩ := ih hlow
      have hb := b.toNat_lt
      have hdiv : (low + 256 ^ n * b.toNat) / 256 ^ n = b.toNat := by
        rw [add_mul_div_left _ _ (by positivity), div_eq_of_lt hlt, zero_add]
      have hmod : (low + 256 ^ n * b.toNat) % 256 ^ n = low := by
        rw [add_mul_mod_self_left, mod_eq_of_lt hlt]
      constructor
      · rw [pow_succ]
        have hmul : 256 ^ n * (b.toNat + 1) ≤ 256 ^ n * 256 := mul_le_mul_left _ hb
        rw [mul_succ] at hmul
        omega
      · rw [putBigEndian, hdiv, ← putBigEndian_mod n (low + 256 ^ n * b.toNat), hmod,
          UInt8.ofNat_toNat]
        rfl

/-- All of the bytes are a number exactly if they are those of this number. -/
theorem getAll_getBigEndian_iff {n w : Nat} {bytes : List UInt8} :
  getAll (getBigEndian n) bytes = some w ↔ w < 256 ^ n ∧ bytes = putBigEndian n w
  := by
  rw [getAll_eq_some_iff, getBigEndian_eq_some_iff, append_nil]

/-- Bytes of two parts are ordered by the first ones, and by the second ones if those agree. -/
theorem append_lt_append_iff {a a' b b' : List UInt8} (hlength : a.length = a'.length) :
  a ++ b < a' ++ b' ↔ a < a' ∨ a = a' ∧ b < b'
  := by
  induction a generalizing a' with
  | nil =>
    obtain rfl := length_eq_zero_iff.mp hlength.symm
    simp
  | cons x a ih =>
    cases a' with
    | nil => cases hlength
    | cons x' a' =>
      simp only [cons_append, cons_lt_cons_iff]
      grind

end ByteCodec
