import CedarGraph.Kernel.CanonicalReader

/-!
# The history of the references of facts

A filter over the references of the facts which were ever written.  Each reference sets three bits
of an array of words, and a reference with a bit which is not set was never published.
-/

namespace Cedar

open List UInt64

/-- A filter over references. -/
structure FactIdentityHistory where
  /-- The words of the filter, of which there are none after it is disabled. -/
  words : List UInt64

namespace FactIdentityHistory

/-- The greatest power of two from `power` on which does not exceed the number of words, which is
found by at most `fuel` doublings. -/
def roundDown (words : Nat) : (fuel power : Nat) → Nat
  | 0, power => power
  | fuel + 1, power => if power ≤ words / 2 then roundDown words fuel (2 * power) else power

/-- The number of words within a budget of bytes. -/
def wordCountForBytes (maxBytes : Nat) : Nat :=
  let words := max 1 (maxBytes / 8)
  roundDown words words 1

/-- The filter before any reference is published. -/
def empty (maxBytes : Nat) : FactIdentityHistory :=
  ⟨List.replicate (wordCountForBytes maxBytes) 0⟩

/-- The filter which contains every reference. -/
def disable (_history : FactIdentityHistory) : FactIdentityHistory :=
  ⟨[]⟩

def mix (value : UInt64) : UInt64 :=
  let value := value ^^^ (value >>> 30)
  let value := value * 0xbf58476d1ce4e5b9
  let value := value ^^^ (value >>> 27)
  let value := value * 0x94d049bb133111eb
  value ^^^ (value >>> 31)

def identityHash (ref : FactRef) : UInt64 :=
  let hash := ref.partId.toUInt64 * 0x9E3779B97F4A7C15
  let hash := hash ^^^ (UInt64.ofNat ref.family.number <<< 56)
  let hash := hash ^^^ (ref.propertyId.toUInt64 <<< 40)
  let hash := hash ^^^ mix ref.entityId
  mix hash

/-- The bits of a hash, one for each of the three probes. -/
def probes (wordCount : Nat) (base : UInt64) : List UInt64 :=
  let mask := UInt64.ofNat wordCount * 64 - 1
  let step := mix (base ^^^ 0x9e3779b97f4a7c15) ||| 1
  [0, 1, 2].map fun probe => (base + probe * step) &&& mask

/-- The bits of a reference. -/
def bits (wordCount : Nat) (ref : FactRef) : List UInt64 :=
  probes wordCount (identityHash ref)

/-- The word of a bit. -/
def wordOf (bit : UInt64) : Nat :=
  (bit >>> 6).toNat

/-- The place of a bit in its word. -/
def maskOf (bit : UInt64) : UInt64 :=
  1 <<< (bit &&& 63)

/-- A bit is set in its word. -/
def setBit (words : List UInt64) (bit : UInt64) : List UInt64 :=
  words.modify (wordOf bit) fun word => word ||| maskOf bit

/-- A bit is set. -/
def testBit (words : List UInt64) (bit : UInt64) : Bool :=
  words.getD (wordOf bit) 0 &&& maskOf bit != 0

def publish (history : FactIdentityHistory) (ref : FactRef) : FactIdentityHistory :=
  if history.words.length = 0 then
    history
  else
    match ref.validate with
    | .error _ => history
    | .ok () => ⟨(bits history.words.length ref).foldl setBit history.words⟩

def mightContain (history : FactIdentityHistory) (ref : FactRef) : Bool :=
  if history.words.length = 0 then
    true
  else
    match ref.validate with
    | .error _ => true
    | .ok () => (bits history.words.length ref).all (testBit history.words)

/-- The filter after some references are published. -/
def publishAll (history : FactIdentityHistory) (refs : List FactRef) : FactIdentityHistory :=
  refs.foldl publish history

/-! ### Published references -/

section Bits

variable {words : List UInt64} {bit bit' : UInt64}

@[simp]
theorem length_setBit :
  (setBit words bit).length = words.length
  := length_modify _ _ _

@[simp]
theorem length_foldl_setBit (bits : List UInt64) (words : List UInt64) :
  (bits.foldl setBit words).length = words.length
  := by
  induction bits generalizing words with
  | nil => rfl
  | cons bit bits ih => rw [foldl_cons, ih, length_setBit]

theorem maskOf_ne_zero :
  maskOf bit ≠ 0
  := by
  intro hzero
  have hone : (maskOf bit).toNat = 1 <<< ((bit &&& 63).toNat % 64) % 2 ^ 64 := rfl
  have hlt : (bit &&& 63).toNat % 64 < 64 := Nat.mod_lt _ (by norm_num)
  have hpow : 2 ^ ((bit &&& 63).toNat % 64) < 2 ^ 64 := Nat.pow_lt_pow_right (by norm_num) hlt
  rw [hzero, Nat.one_shiftLeft, Nat.mod_eq_of_lt hpow] at hone
  apply absurd hone.symm (Nat.two_pow_pos _).ne'

/-- A word keeps its bits when others are set. -/
theorem and_or_ne_zero {word mask : UInt64} (other : UInt64) (h : word &&& mask ≠ 0) :
  (word ||| other) &&& mask ≠ 0
  := by
  intro hzero
  apply h
  have hbits := congrArg UInt64.toBitVec hzero
  apply UInt64.toBitVec_inj.mp
  apply BitVec.eq_of_getLsbD_eq
  intro i hi
  have hbit := congrArg (fun bits => bits.getLsbD i) hbits
  have hnone : (UInt64.toBitVec 0).getLsbD i = false := by simp
  simp only [UInt64.toBitVec_and, UInt64.toBitVec_or] at hbit ⊢
  grind

/-- Setting a bit keeps the other ones. -/
theorem testBit_setBit (h : testBit words bit = true) :
  testBit (setBit words bit') bit = true
  := by
  rw [testBit, bne_iff_ne] at h ⊢
  rw [setBit, getD_eq_getElem?_getD, getElem?_modify]
  rw [getD_eq_getElem?_getD] at h
  cases hword : words[wordOf bit]? with
  | none => simp [hword] at h
  | some word =>
    rw [hword, Option.getD_some] at h
    by_cases heq : wordOf bit' = wordOf bit
    · simp [heq, and_or_ne_zero, h]
    · simp [heq, h]

/-- A bit is set after it is set. -/
theorem testBit_setBit_self (hlt : wordOf bit < words.length) :
  testBit (setBit words bit) bit = true
  := by
  rw [testBit, bne_iff_ne, setBit, getD_eq_getElem?_getD, getElem?_modify_eq,
    getElem?_eq_getElem hlt, Option.map_eq_map, Option.map_some, UInt64.or_comm]
  apply and_or_ne_zero
  rw [UInt64.and_self]
  apply maskOf_ne_zero

/-- Setting some bits keeps the other ones. -/
theorem testBit_foldl_setBit {bits : List UInt64} (h : testBit words bit = true) :
  testBit (bits.foldl setBit words) bit = true
  := by
  induction bits generalizing words with
  | nil => exact h
  | cons bit' bits ih => apply ih (testBit_setBit h)

theorem testBit_foldl_setBit_self
    {bits : List UInt64} (hmem : bit ∈ bits) (hlt : wordOf bit < words.length) :
  testBit (bits.foldl setBit words) bit = true
  := by
  induction bits generalizing words with
  | nil => cases hmem
  | cons bit' bits ih =>
    obtain rfl | hmem := mem_cons.mp hmem
    · apply testBit_foldl_setBit (testBit_setBit_self hlt)
    · apply ih hmem
      rwa [length_setBit]

/-- A number below the number of bits is one of a bit within the words. -/
theorem wordOf_and_lt {wordCount : Nat} (hpos : wordCount ≠ 0) (value : UInt64) :
  wordOf (value &&& (ofNat wordCount * 64 - 1)) < wordCount
  := by
  have hle : (value &&& (ofNat wordCount * 64 - 1)).toNat ≤
      (ofNat wordCount * 64 - 1).toNat := by
    apply Nat.and_le_right
  have hmask : (ofNat wordCount * 64 - 1).toNat / 64 < wordCount := by
    change (2 ^ 64 - 1 + wordCount % 2 ^ 64 * 64 % 2 ^ 64) % 2 ^ 64 / 64 < wordCount
    omega
  apply lt_of_le_of_lt _ hmask
  change _ >>> 6 ≤ _
  rw [Nat.shiftRight_eq_div_pow]
  apply Nat.div_le_div_right hle

end Bits

variable {history : FactIdentityHistory} {ref ref' : FactRef}

@[simp]
theorem length_words_publish :
  (history.publish ref).words.length = history.words.length
  := by
  rw [publish]
  split
  · rfl
  · split
    · rfl
    · simp

/-- A published reference stays in the filter. -/
theorem mightContain_publish (h : history.mightContain ref = true) :
  (history.publish ref').mightContain ref = true
  := by
  rw [mightContain, length_words_publish]
  rw [mightContain] at h
  split
  · rfl
  case isFalse hpos =>
    rw [if_neg hpos] at h
    split
    · rfl
    case h_2 hvalid =>
      rw [hvalid] at h
      rw [all_eq_true] at h ⊢
      intro bit hbit
      rw [publish, if_neg hpos]
      split
      · apply h bit hbit
      · apply testBit_foldl_setBit (h bit hbit)

/-- A published reference is in the filter. -/
theorem mightContain_publish_self :
  (history.publish ref).mightContain ref = true
  := by
  rw [mightContain, length_words_publish]
  split
  · rfl
  case isFalse hpos =>
    split
    · rfl
    case h_2 hvalid =>
      rw [all_eq_true]
      intro bit hbit
      rw [publish, if_neg hpos, hvalid]
      apply testBit_foldl_setBit_self hbit
      obtain ⟨probe, -, rfl⟩ := mem_map.mp hbit
      apply wordOf_and_lt hpos

/-- A filter contains all references which were published to it. -/
theorem mightContain_publishAll {refs : List FactRef} (hmem : ref ∈ refs) :
  (history.publishAll refs).mightContain ref = true
  := by
  induction refs using reverseRecOn with
  | nil => cases hmem
  | append_singleton refs last ih =>
    rw [publishAll, foldl_append]
    obtain hmem | hmem := mem_append.mp hmem
    · apply mightContain_publish (ih hmem)
    · rw [mem_singleton.mp hmem]
      apply mightContain_publish_self

end FactIdentityHistory

end Cedar
