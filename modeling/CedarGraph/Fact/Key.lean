import CedarGraph.Kernel.CanonicalReader
import CedarGraph.Lib.BigEndian

/-!
# Keys of facts

The key of a fact consists of a version, its reference, its valid time and its commit.  The bits
of the times are inverted, so that the order of the keys goes from late to early times.
-/

namespace Cedar

open FactRef List Option UInt64

open ByteCodec

/-- The version of the format of keys. -/
def factKeyVersion : UInt8 := 2

/-- The length of a key. -/
def encodedFactKeyBytes : Nat := 32

/-- The length of the part of a key which depends on the reference. -/
def factIdentityPrefixBytes : Nat := 16

/-- The part of a key which depends on the reference. -/
def FactRef.keyBytes (ref : FactRef) : List UInt8 :=
  factKeyVersion :: (putBigEndian 4 ref.partId.toNat ++
    (UInt8.ofNat ref.family.number :: (putBigEndian 2 ref.propertyId.toNat ++
      putBigEndian 8 ref.entityId.toNat)))

/-- The part of a key which depends on a time. -/
def timeBytes (time : UInt64) : List UInt8 :=
  putBigEndian 8 (~~~time).toNat

/-- The key of a fact, which is empty for an invalid reference or commit. -/
def encodeFactKey (ref : FactRef) (validFrom : ValidTime) (commitSeq : CommitSeq) : List UInt8 :=
  match ref.validate with
  | .error _ => []
  | .ok () =>
      if commitSeq = 0 then
        []
      else
        ref.keyBytes ++ (timeBytes validFrom ++ timeBytes commitSeq)

/-- What a key says. -/
structure DecodedFactKey where
  ref : FactRef
  validFrom : ValidTime
  commitSeq : CommitSeq
  deriving DecidableEq

/-- The family of a number in a key, if it is known. -/
def FactFamily.ofNumber : Nat → Option FactFamily
  | 1 => some .vertexState
  | 2 => some .vertexProperty
  | 3 => some .edgeIdentity
  | 4 => some .edgeState
  | 5 => some .edgeProperty
  | _ => none

/-- The numbers of a key after its version. -/
def factKeyFields : Reader (Nat × Nat × Nat × Nat × Nat × Nat) := do
  let partId ← getBigEndian 4
  let family ← getBigEndian 1
  let propertyId ← getBigEndian 2
  let entityId ← getBigEndian 8
  let validFromDesc ← getBigEndian 8
  let commitSeqDesc ← getBigEndian 8
  return (partId, family, propertyId, entityId, validFromDesc, commitSeqDesc)

/-- What a key says, if it is the key of a valid reference. -/
def decodeFactKey (encoded : List UInt8) : StatusOr DecodedFactKey :=
  if encoded.length ≠ encodedFactKeyBytes then
    Status.corruption "fact key" "incorrect fixed key length"
  else if encoded.head? ≠ some factKeyVersion then
    Status.corruption "fact key" "invalid key encoding"
  else
    match factKeyFields encoded.tail with
    | none => Status.corruption "fact key" "invalid key encoding"
    | some ((partId, number, propertyId, entityId, validFromDesc, commitSeqDesc), _) =>
        let commitSeq := ~~~(UInt64.ofNat commitSeqDesc)
        match FactFamily.ofNumber number with
        | none => Status.corruption "fact key" "invalid fact identity"
        | some family =>
            let ref : FactRef :=
              ⟨UInt32.ofNat partId, family, UInt16.ofNat propertyId, UInt64.ofNat entityId⟩
            match ref.validate with
            | .error _ => Status.corruption "fact key" "invalid fact identity"
            | .ok () =>
                if commitSeq = 0 then
                  Status.corruption "fact key" "invalid fact identity"
                else
                  .ok ⟨ref, ~~~(UInt64.ofNat validFromDesc), commitSeq⟩

namespace FactFamily

@[simp]
theorem ofNumber_number (family : FactFamily) :
  ofNumber family.number = some family
  := by
  cases family <;> rfl

theorem number_lt (family : FactFamily) :
  family.number < 256
  := by
  cases family <;> decide

end FactFamily

section Keys

variable {ref ref' : FactRef} {validFrom validFrom' : ValidTime} {commitSeq commitSeq' : CommitSeq}

theorem encodeFactKey_eq (href : ref.validate = .ok ()) (hcommit : commitSeq ≠ 0) :
  encodeFactKey ref validFrom commitSeq =
    ref.keyBytes ++ (timeBytes validFrom ++ timeBytes commitSeq)
  := by
  rw [encodeFactKey, href]
  simp [hcommit]

@[simp]
theorem length_timeBytes (time : UInt64) :
  (timeBytes time).length = 8
  := length_putBigEndian 8 _

@[simp]
theorem FactRef.length_keyBytes (ref : FactRef) :
  ref.keyBytes.length = factIdentityPrefixBytes
  := by
  simp [keyBytes, factIdentityPrefixBytes]

theorem toNat_lt_pow (x : UInt64) :
  x.toNat < 256 ^ 8
  := x.toNat_lt

/-- Later times come first. -/
theorem timeBytes_lt_iff {s t : UInt64} :
  timeBytes s < timeBytes t ↔ t < s
  := by
  rw [timeBytes, timeBytes, putBigEndian_lt_iff (toNat_lt_pow _) (toNat_lt_pow _), toNat_not,
    toNat_not]
  have hs := s.toNat_lt
  change 2 ^ 64 - 1 - s.toNat < 2 ^ 64 - 1 - t.toNat ↔ t.toNat < s.toNat
  omega

theorem timeBytes_inj {s t : UInt64} :
  timeBytes s = timeBytes t ↔ s = t
  := by
  rw [timeBytes, timeBytes, putBigEndian_inj (toNat_lt_pow _) (toNat_lt_pow _), UInt64.toNat_inj,
    UInt64.not_inj]

/-- The order of the parts of keys which depend on the references. -/
theorem FactRef.keyBytes_lt_iff :
  ref.keyBytes < ref'.keyBytes ↔ ref.storeKey < ref'.storeKey
  := by
  have hpart (r : FactRef) : r.partId.toNat < 256 ^ 4 := r.partId.toNat_lt
  have hproperty (r : FactRef) : r.propertyId.toNat < 256 ^ 2 := r.propertyId.toNat_lt
  have hnumber (r : FactRef) : (UInt8.ofNat r.family.number).toNat = r.family.number :=
    UInt8.toNat_ofNat_of_lt r.family.number_lt
  rw [keyBytes, keyBytes, storeKey, storeKey, cons_lt_cons_iff,
    append_lt_append_iff (by simp), cons_lt_cons_iff, append_lt_append_iff (by simp),
    putBigEndian_lt_iff (hpart _) (hpart _), putBigEndian_inj (hpart _) (hpart _),
    putBigEndian_lt_iff (hproperty _) (hproperty _), putBigEndian_inj (hproperty _) (hproperty _),
    putBigEndian_lt_iff (toNat_lt_pow _) (toNat_lt_pow _)]
  simp only [Prod.Lex.toLex_lt_toLex, UInt8.lt_iff_toNat_lt, ← UInt8.toNat_inj, hnumber, UInt32.lt_iff_toNat_lt, UInt32.toNat_inj,
    UInt16.lt_iff_toNat_lt, UInt16.toNat_inj, lt_iff_toNat_lt, lt_irrefl, false_or,
    true_and]

theorem FactRef.keyBytes_inj :
  ref.keyBytes = ref'.keyBytes ↔ ref = ref'
  := by
  constructor
  · intro heq
    apply storeKey_injective
    apply le_antisymm
    · rw [← not_lt, ← keyBytes_lt_iff, heq]
      apply lt_irrefl
    · rw [← not_lt, ← keyBytes_lt_iff, heq]
      apply lt_irrefl
  · rintro rfl
    rfl

/-- Keys are ordered by reference, and from late to early valid times and commits. -/
theorem encodeFactKey_lt_iff
    (href : ref.validate = .ok ()) (hcommit : commitSeq ≠ 0)
    (href' : ref'.validate = .ok ()) (hcommit' : commitSeq' ≠ 0) :
  encodeFactKey ref validFrom commitSeq < encodeFactKey ref' validFrom' commitSeq' ↔
    ref.storeKey < ref'.storeKey ∨ ref = ref' ∧
      (validFrom' < validFrom ∨ validFrom = validFrom' ∧ commitSeq' < commitSeq)
  := by
  rw [encodeFactKey_eq href hcommit, encodeFactKey_eq href' hcommit',
    append_lt_append_iff (by simp), append_lt_append_iff (by simp), keyBytes_lt_iff,
    keyBytes_inj, timeBytes_lt_iff, timeBytes_lt_iff, timeBytes_inj]

theorem encodeFactKey_inj
    (href : ref.validate = .ok ()) (hcommit : commitSeq ≠ 0)
    (href' : ref'.validate = .ok ()) (hcommit' : commitSeq' ≠ 0) :
  encodeFactKey ref validFrom commitSeq = encodeFactKey ref' validFrom' commitSeq' ↔
    ref = ref' ∧ validFrom = validFrom' ∧ commitSeq = commitSeq'
  := by
  constructor
  · intro heq
    rw [encodeFactKey_eq href hcommit, encodeFactKey_eq href' hcommit'] at heq
    obtain ⟨hkey, htimes⟩ := append_inj heq (by simp)
    obtain ⟨hvalid, hcommits⟩ := append_inj htimes (by simp)
    use keyBytes_inj.mp hkey, timeBytes_inj.mp hvalid, timeBytes_inj.mp hcommits
  · rintro ⟨rfl, rfl, rfl⟩
    rfl

/-- The numbers of a key are read exactly from the bytes after the version. -/
theorem factKeyFields_eq_some_iff {bytes rest : List UInt8}
    {partId number propertyId entityId validFromDesc commitSeqDesc : Nat} :
  factKeyFields bytes =
      some ((partId, number, propertyId, entityId, validFromDesc, commitSeqDesc), rest) ↔
    (partId < 256 ^ 4 ∧ number < 256 ∧ propertyId < 256 ^ 2 ∧ entityId < 256 ^ 8 ∧
      validFromDesc < 256 ^ 8 ∧ commitSeqDesc < 256 ^ 8) ∧
    bytes = putBigEndian 4 partId ++ (UInt8.ofNat number :: (putBigEndian 2 propertyId ++
      putBigEndian 8 entityId)) ++ (putBigEndian 8 validFromDesc ++
        putBigEndian 8 commitSeqDesc) ++ rest
  := by
  have hbyte (w : Nat) : putBigEndian 1 w = [UInt8.ofNat w] := by simp [putBigEndian]
  simp only [factKeyFields, ByteCodec.bind_eq_some_iff, pure_eq_some_iff, getBigEndian_eq_some_iff,
    Prod.mk.injEq, hbyte]
  constructor
  · rintro ⟨_, _, ⟨hpart, rfl⟩, _, _, ⟨hnumber, rfl⟩, _, _, ⟨hproperty, rfl⟩, _, _,
      ⟨hentity, rfl⟩, _, _, ⟨hvalid, rfl⟩, _, _, ⟨hcommit, rfl⟩, ⟨rfl, rfl, rfl, rfl, rfl, rfl⟩, rfl⟩
    exact ⟨⟨hpart, hnumber, hproperty, hentity, hvalid, hcommit⟩, rfl⟩
  · rintro ⟨⟨hpart, hnumber, hproperty, hentity, hvalid, hcommit⟩, rfl⟩
    exact ⟨_, _, ⟨hpart, rfl⟩, _, _, ⟨hnumber, rfl⟩, _, _, ⟨hproperty, rfl⟩, _, _, ⟨hentity, rfl⟩,
      _, _, ⟨hvalid, rfl⟩, _, _, ⟨hcommit, rfl⟩, ⟨rfl, rfl, rfl, rfl, rfl, rfl⟩, rfl⟩

/-- The key of a fact says what it is the key of. -/
theorem decodeFactKey_encodeFactKey (href : ref.validate = .ok ()) (hcommit : commitSeq ≠ 0) :
  decodeFactKey (encodeFactKey ref validFrom commitSeq) = .ok ⟨ref, validFrom, commitSeq⟩
  := by
  have hlength : (encodeFactKey ref validFrom commitSeq).length = encodedFactKeyBytes := by
    rw [encodeFactKey_eq href hcommit]
    simp [factIdentityPrefixBytes, encodedFactKeyBytes]
  have hhead : (encodeFactKey ref validFrom commitSeq).head? = some factKeyVersion := by
    rw [encodeFactKey_eq href hcommit]
    rfl
  have hfields := (@factKeyFields_eq_some_iff (encodeFactKey ref validFrom commitSeq).tail [] _ _ _
    _ _ _).mpr ⟨⟨ref.partId.toNat_lt, ref.family.number_lt, ref.propertyId.toNat_lt,
      ref.entityId.toNat_lt, (~~~validFrom).toNat_lt, (~~~commitSeq).toNat_lt⟩, by
        simp [encodeFactKey_eq href hcommit, keyBytes, timeBytes]⟩
  rw [decodeFactKey, if_neg (not_not.mpr hlength), if_neg (not_not.mpr hhead), hfields]
  simp only [FactFamily.ofNumber_number, UInt32.ofNat_toNat, UInt16.ofNat_toNat,
    UInt64.ofNat_toNat, UInt64.not_not, href, if_neg hcommit]

theorem FactFamily.number_of_ofNumber {number : Nat} {family : FactFamily}
    (h : FactFamily.ofNumber number = some family) :
  family.number = number
  := by
  unfold FactFamily.ofNumber at h
  split at h
  all_goals cases h
  all_goals rfl

/-- Bytes which are accepted are the key of what they say. -/
theorem encodeFactKey_of_decodeFactKey {encoded : List UInt8} {key : DecodedFactKey}
    (h : decodeFactKey encoded = .ok key) :
  key.ref.validate = .ok () ∧ key.commitSeq ≠ 0 ∧
    encodeFactKey key.ref key.validFrom key.commitSeq = encoded
  := by
  rw [decodeFactKey] at h
  split at h
  · cases h
  case isFalse hlength =>
    split at h
    · cases h
    case isFalse hhead =>
      rcases encoded with - | ⟨version, bytes⟩
      · cases hlength (by decide)
      split at h
      · cases h
      case h_2 partId number propertyId entityId validFromDesc commitSeqDesc rest hfields =>
        obtain ⟨⟨hpart, -, hproperty, hentity, hvalidFrom, hcommitSeq⟩, hbytes⟩ :=
          factKeyFields_eq_some_iff.mp hfields
        rw [tail_cons] at hbytes
        dsimp only at h
        split at h
        · cases h
        case h_2 family hfamily =>
          split at h
          · cases h
          case h_2 href =>
            split at h
            · cases h
            case isFalse hcommit =>
              obtain rfl := Except.ok.inj h
              use href, hcommit
              obtain rfl : version = factKeyVersion := by simpa using hhead
              obtain rfl : rest = [] := by
                apply length_eq_zero_iff.mp
                have hcount := congrArg length hbytes
                rw [encodedFactKeyBytes, length_cons] at hlength
                simp only [length_append, length_cons, length_putBigEndian] at hcount
                omega
              have hnot (time : Nat) (hlt : time < 256 ^ 8) :
                  (~~~ ~~~ofNat time).toNat = time := by
                rw [UInt64.not_not]
                exact toNat_ofNat_of_lt hlt
              rw [encodeFactKey_eq href hcommit, keyBytes, timeBytes, timeBytes,
                hnot _ hvalidFrom, hnot _ hcommitSeq, hbytes,
                FactFamily.number_of_ofNumber hfamily]
              rw [UInt32.toNat_ofNat_of_lt' hpart, UInt16.toNat_ofNat_of_lt' hproperty,
                toNat_ofNat_of_lt' hentity]
              simp

end Keys

/-! ### Keys as an order -/

/-- The parts of a key in the order in which they are compared.  Late times come first. -/
def DecodedFactKey.sortKey (key : DecodedFactKey) :
    (PartId ×ₗ Nat ×ₗ PropertyId ×ₗ UInt64) ×ₗ ValidTimeᵒᵈ ×ₗ CommitSeqᵒᵈ :=
  toLex (key.ref.storeKey, toLex (OrderDual.toDual key.validFrom, OrderDual.toDual key.commitSeq))

/-- The bytes of a key. -/
def DecodedFactKey.encode (key : DecodedFactKey) : List UInt8 :=
  encodeFactKey key.ref key.validFrom key.commitSeq

/-- The key is the one of a valid reference and of a commit. -/
def DecodedFactKey.Valid (key : DecodedFactKey) : Prop :=
  key.ref.validate = .ok () ∧ key.commitSeq ≠ 0

open DecodedFactKey

/-- Valid keys are ordered as their bytes are, and they are exactly what can be read from bytes. -/
theorem encodeFactKey_order_iso :
  (∀ key key' : DecodedFactKey, key.Valid → key'.Valid →
      (key.encode < key'.encode ↔ key.sortKey < key'.sortKey)) ∧
    (∀ key : DecodedFactKey, key.Valid → decodeFactKey key.encode = .ok key) ∧
    ∀ encoded key, decodeFactKey encoded = .ok key → key.Valid ∧ key.encode = encoded
  := by
  refine ⟨?_, ?_, ?_⟩
  · rintro key key' ⟨href, hcommit⟩ ⟨href', hcommit'⟩
    rw [encode, encode,
      encodeFactKey_lt_iff href hcommit href' hcommit', sortKey,
      sortKey, Prod.Lex.toLex_lt_toLex, Prod.Lex.toLex_lt_toLex,
      storeKey_injective.eq_iff, OrderDual.toDual_lt_toDual, OrderDual.toDual_lt_toDual,
      OrderDual.toDual_inj]
  · rintro key ⟨href, hcommit⟩
    apply decodeFactKey_encodeFactKey href hcommit
  · intro encoded key h
    obtain ⟨href, hcommit, hencoded⟩ := encodeFactKey_of_decodeFactKey h
    use ⟨href, hcommit⟩, hencoded

/-- The key of a vertex at its commits. -/
def vertexKey (commitSeq : CommitSeq) : DecodedFactKey :=
  ⟨EntityFact.vertex ⟨0, 1⟩, 5, commitSeq⟩

theorem vertexKey_order :
  (vertexKey 3).encode < (vertexKey 2).encode ∧
    decodeFactKey (vertexKey 3).encode = .ok (vertexKey 3) ∧
    (vertexKey 3).Valid
  := by
  have hvalid (commitSeq : CommitSeq) (h : commitSeq ≠ 0) : (vertexKey commitSeq).Valid :=
    ⟨rfl, h⟩
  refine ⟨?_, encodeFactKey_order_iso.2.1 _ (hvalid 3 (by decide)), ?_⟩
  · apply (encodeFactKey_order_iso.1 _ _ (hvalid 3 (by decide)) (hvalid 2 (by decide))).mpr
    apply Prod.Lex.toLex_lt_toLex.mpr
    right
    use rfl
    apply Prod.Lex.toLex_lt_toLex.mpr
    right
    decide
  · apply (encodeFactKey_order_iso.2.2 (vertexKey 3).encode (vertexKey 3) _).1
    apply encodeFactKey_order_iso.2.1 _ (hvalid 3 (by decide))

end Cedar
