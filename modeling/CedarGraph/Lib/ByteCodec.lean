import Mathlib

/-!
# Words and texts as bytes

Numbers are written as a fixed number of bytes, the least one first, and texts as their length
followed by their bytes.  A reader takes what it reads from the front of the bytes, and fails if
there are too few of them.  What a reader reads does not depend on the bytes which follow.
-/

universe u

namespace ByteCodec

open Option UInt8 List Prod Nat

/-- A reader of the front of some bytes. -/
abbrev Reader (α : Type) : Type :=
  StateT (List UInt8) Option α

variable {α β : Type} {x : Reader α} {f : α → Reader β} {a : α} {b : β} {bytes more : List UInt8}

/-- The reader reads a value from some bytes and leaves what follows them. -/
def Reads (x : Reader α) (bytes : List UInt8) (a : α) : Prop :=
  ∀ rest, x (bytes ++ rest) = some (a, rest)

/-- What is read does not depend on what follows. -/
def Local (x : Reader α) : Prop :=
  ∀ bytes a rest, x bytes = some (a, rest) → ∀ more, x (bytes ++ more) = some (a, rest ++ more)

theorem bind_eq :
  (x >>= f) bytes = (x bytes).bind fun p => f p.1 p.2
  := rfl

/-- A reader after another one reads what this one leaves. -/
protected theorem bind_eq_some_iff {rest : List UInt8} :
  (x >>= f) bytes = some (b, rest) ↔ ∃ a left, x bytes = some (a, left) ∧ f a left = some (b, rest)
  := by
  rw [bind_eq, bind_eq_some_iff, Prod.exists]

theorem pure_eq_some_iff {rest : List UInt8} {a' : α} :
  (pure a : Reader α) bytes = some (a', rest) ↔ a = a' ∧ bytes = rest
  := some_inj.trans mk_inj

theorem reads_pure (a : α) :
  Reads (pure a) [] a
  := fun _ => rfl

theorem local_pure (a : α) :
  Local (pure a : Reader α)
  := by
  intro bytes b rest h more
  obtain ⟨rfl, rfl⟩ := mk.inj (some.inj h)
  rfl

theorem Reads.bind (hx : Reads x bytes a) (hf : Reads (f a) more b) :
  Reads (x >>= f) (bytes ++ more) b
  := by
  intro rest
  rw [bind_eq, append_assoc, hx]
  apply hf

theorem Local.bind (hx : Local x) (hf : ∀ a, Local (f a)) :
  Local (x >>= f)
  := by
  intro bytes b rest h more
  obtain ⟨a, left, ha, hb⟩ := ByteCodec.bind_eq_some_iff.mp h
  apply ByteCodec.bind_eq_some_iff.mpr ⟨a, _, hx _ _ _ ha more, hf a _ _ _ hb more⟩

/-- What is read may be changed afterwards. -/
theorem Reads.map (g : α → β) (hx : Reads x bytes a) :
  Reads (x >>= fun a => pure (g a)) bytes (g a)
  := by
  have hmap := hx.bind (f := fun a => pure (g a)) (reads_pure (g a))
  rwa [append_nil] at hmap

theorem Local.map (g : α → β) (hx : Local x) :
  Local (x >>= fun a => pure (g a))
  := hx.bind fun _ => local_pure _

theorem local_failure :
  Local (failure : Reader α)
  := by
  intro bytes a rest h
  cases h

/-- A reader which reads all of some bytes reads none of their proper beginnings to the end. -/
theorem Local.eq_nil {a' : α} (hx : Local x) (h : Reads x (bytes ++ more) a)
    (h' : x bytes = some (a', [])) :
  more = []
  := by
  have hall := h []
  have hfront := hx _ _ _ h' more
  rw [append_nil, hfront] at hall
  apply (mk.inj (some.inj hall)).2

/-- A number as `n` bytes. -/
def putWord : Nat → Nat → List UInt8
  | 0, _ => []
  | n + 1, w => UInt8.ofNat w :: putWord n (w / 256)

/-- A number of `n` bytes. -/
def getWord : Nat → Reader Nat
  | 0, bytes => some (0, bytes)
  | _ + 1, [] => none
  | n + 1, b :: bytes => (getWord n bytes).map fun p => (b.toNat + 256 * p.1, p.2)

@[simp]
theorem length_putWord (n w : Nat) :
  (putWord n w).length = n
  := by
  induction n generalizing w with
  | zero => rfl
  | succ n ih => rw [putWord, length_cons, ih]

/-- A number is read as it was written, up to the bytes which it does not have. -/
theorem getWord_putWord (n w : Nat) :
  Reads (getWord n) (putWord n w) (w % 256 ^ n)
  := by
  intro rest
  induction n generalizing w with
  | zero =>
    rw [pow_zero, mod_one]
    rfl
  | succ n ih =>
    have hbyte : (ofNat w).toNat = w % 256 := toNat_ofNat'
    rw [putWord, cons_append, getWord, ih, map_some, hbyte, pow_succ', mod_mul]

/-- A number is written as its last bytes. -/
theorem putWord_mod (n w : Nat) :
  putWord n (w % 256 ^ n) = putWord n w
  := by
  induction n generalizing w with
  | zero => rfl
  | succ n ih =>
    have hbyte : ofNat (w % 256 ^ (n + 1)) = ofNat w := by
      apply UInt8.toNat_inj.mp
      apply mod_mul_left_mod
    rw [putWord, putWord, hbyte, pow_succ', mod_mul_right_div_self, ih]

/-- A number which fits is read as it was written. -/
theorem reads_getWord {n w : Nat} (h : w < 256 ^ n) :
  Reads (getWord n) (putWord n w) w
  := by
  have hreads := getWord_putWord n w
  rwa [mod_eq_of_lt h] at hreads

theorem local_getWord (n : Nat) :
  Local (getWord n)
  := by
  induction n with
  | zero => apply local_pure
  | succ n ih =>
    intro bytes w rest h more
    cases bytes with
    | nil => cases h
    | cons b bytes =>
      obtain ⟨⟨v, left⟩, hv, heq⟩ := map_eq_some_iff.mp h
      obtain ⟨rfl, rfl⟩ := mk.inj heq
      rw [cons_append, getWord, ih _ _ _ hv, map_some]

/-- What is read as a number are the bytes of this number. -/
theorem eq_of_getWord {n w : Nat} {rest : List UInt8} (h : getWord n bytes = some (w, rest)) :
  w < 256 ^ n ∧ bytes = putWord n w ++ rest
  := by
  induction n generalizing bytes w with
  | zero =>
    obtain ⟨rfl, rfl⟩ := mk.inj (some.inj h)
    use by simp
    rfl
  | succ n ih =>
    rcases bytes with - | ⟨b, bytes⟩
    · cases h
    · obtain ⟨⟨high, left⟩, hhigh, heq⟩ := map_eq_some_iff.mp h
      obtain ⟨rfl, rfl⟩ := mk.inj heq
      obtain ⟨hlt, rfl⟩ := ih hhigh
      have hb := b.toNat_lt
      constructor
      · rw [pow_succ']
        omega
      · have hbyte : ofNat (b.toNat + 256 * high) = b := by
          apply UInt8.toNat_inj.mp
          rw [UInt8.toNat_ofNat', add_mul_mod_self_left, mod_eq_of_lt hb]
        have hdiv : (b.toNat + 256 * high) / 256 = high := by omega
        rw [putWord, hbyte, hdiv]
        rfl

/-- What a reader reads, if it takes all of the bytes. -/
def getAll (x : Reader α) (bytes : List UInt8) : Option α :=
  match x bytes with
  | some (a, []) => some a
  | _ => none

theorem getAll_eq_some_iff :
  getAll x bytes = some a ↔ x bytes = some (a, [])
  := by
  rw [getAll]
  split
  case h_1 b h => simp [h]
  case h_2 h =>
    simp only [reduceCtorEq, false_iff]
    apply h

/-- All of the bytes are a number exactly if they are those of this number. -/
theorem getAll_getWord_iff {n w : Nat} :
  getAll (getWord n) bytes = some w ↔ w < 256 ^ n ∧ bytes = putWord n w
  := by
  rw [getAll_eq_some_iff]
  constructor
  · intro h
    simpa using eq_of_getWord h
  · rintro ⟨hlt, rfl⟩
    simpa using reads_getWord hlt []

/-- Some bytes from the front. -/
def getBytes (size : Nat) : Reader (List UInt8) := fun bytes =>
  if size > bytes.length then none else some (bytes.take size, bytes.drop size)

theorem reads_getBytes (bytes : List UInt8) :
  Reads (getBytes bytes.length) bytes bytes
  := by
  intro rest
  simp [getBytes]

theorem local_getBytes (size : Nat) :
  Local (getBytes size)
  := by
  intro bytes a rest h more
  unfold getBytes at h ⊢
  split at h
  · cases h
  case isFalse hle =>
    obtain ⟨rfl, rfl⟩ := mk.inj (some.inj h)
    have hsize : size ≤ bytes.length := Nat.le_of_not_lt hle
    rw [if_neg (by rw [length_append]; omega), take_append_of_le_length hsize,
      drop_append_of_le_length hsize]

/-- A text: its length, and its bytes. -/
def putText (text : List UInt8) : List UInt8 :=
  putWord 8 text.length ++ text

def getText : Reader (List UInt8) := do
  let size ← getWord 8
  getBytes size

theorem reads_getText {text : List UInt8} (h : text.length < 256 ^ 8) :
  Reads getText (putText text) text
  := (reads_getWord h).bind (reads_getBytes text)

theorem local_getText :
  Local getText
  := (local_getWord 8).bind local_getBytes

end ByteCodec
