import CedarGraph.Core.Status
import CedarGraph.Lib.BigEndian

/-!
# Bolt messages

A message of a client is a structure of PackStream: a marker, a number which says what the message
asks for, and fields.  The first message says who the client is: its field is a map, in which an entry
has the credentials.

Credentials are compared with a token.  The reader of the map knows strings of at most 15 bytes only,
whose length is part of their marker.  PackStream has longer ones as well, and a map with one of them
is refused.
-/

namespace Cedar

open List Option

open ByteCodec

/-! ### Messages -/

inductive BoltMessageKind where
  | hello
  | run
  | pull
  | begin
  | commit
  | rollback
  | reset
  | goodbye
  deriving DecidableEq

/-- What a message asks for. -/
def decodeBoltMessageKind : List UInt8 → StatusOr BoltMessageKind
  | marker :: signature :: _ =>
      if marker < 0xB0 ∨ marker > 0xBF then
        Status.parseError "bolt" "expected tiny struct message"
      else if signature = 0x01 then .ok .hello
      else if signature = 0x10 then .ok .run
      else if signature = 0x3F then .ok .pull
      else if signature = 0x11 then .ok .begin
      else if signature = 0x12 then .ok .commit
      else if signature = 0x13 then .ok .rollback
      else if signature = 0x0F then .ok .reset
      else if signature = 0x02 then .ok .goodbye
      else Status.parseError "bolt" "unsupported message signature"
  | _ => Status.parseError "bolt" "expected tiny struct message"

/-- A message behind its length. -/
def encodeBoltChunk (payload : List UInt8) (maxChunkBytes : Nat) : StatusOr (List UInt8) :=
  if payload.length > maxChunkBytes ∨ payload.length > 0xffff then
    Status.resourceExhausted "bolt" "chunk exceeds configured limit"
  else
    .ok (putBigEndian 2 payload.length ++ payload)

def encodeBoltSuccess (maxChunkBytes : Nat) : StatusOr (List UInt8) :=
  encodeBoltChunk [0xB1, 0x70, 0xA0] maxChunkBytes

def encodeBoltIgnored (maxChunkBytes : Nat) : StatusOr (List UInt8) :=
  encodeBoltChunk [0xB1, 0x7E, 0xA0] maxChunkBytes

/-! ### Authentication -/

/-- The text "credentials". -/
def credentialsKey : List UInt8 :=
  [0x63, 0x72, 0x65, 0x64, 0x65, 0x6E, 0x74, 0x69, 0x61, 0x6C, 0x73]

def helloRequired : StatusError :=
  ⟨.invalidArgument, "bolt", "authentication requires HELLO credentials"⟩

def malformedHello : StatusError :=
  ⟨.invalidArgument, "bolt", "malformed HELLO credentials"⟩

def invalidCredentials : StatusError :=
  ⟨.invalidArgument, "bolt", "invalid credentials"⟩

/-- The difference of two sizes, which are words of 64 bits. -/
def sizeMinus (size length : Nat) : Nat :=
  if length ≤ size then size - length else 2 ^ 64 + size - length

/-- Some bytes from an offset on, fewer at the end.  There is none beyond the end. -/
def substr (payload : List UInt8) (offset length : Nat) : Option (List UInt8) :=
  if offset > payload.length then none else some ((payload.drop offset).take length)

/-- A string of at most 15 bytes at an offset, and the offset behind it.  The result is none if a
byte is read outside the payload. -/
def helloString (payload : List UInt8) (offset : Nat) : Option (StatusOr (List UInt8 × Nat)) :=
  if offset ≥ payload.length then
    some (.error malformedHello)
  else
    (payload[offset]?).bind fun marker =>
      let length := marker.toNat - 0x80
      if marker < 0x80 ∨ marker > 0x8F ∨ offset + 1 > sizeMinus payload.length length then
        some (.error malformedHello)
      else
        (substr payload (offset + 1) length).map fun text => .ok (text, offset + 1 + length)

/-- The credentials in some entries of a map. -/
def helloEntries (payload : List UInt8) :
    (entries offset : Nat) → (credentials : List UInt8) → Option (StatusOr (List UInt8))
  | 0, _, credentials => some (.ok credentials)
  | entries + 1, offset, credentials =>
      (helloString payload offset).bind fun
        | .error status => some (.error status)
        | .ok (key, offset) =>
            (helloString payload offset).bind fun
              | .error status => some (.error status)
              | .ok (value, offset) =>
                  helloEntries payload entries offset
                    (if key = credentialsKey then value else credentials)

/-- All differences of the bytes of two texts of the same length. -/
def byteDifference (credentials token : List UInt8) : UInt8 :=
  (List.zipWith (· ^^^ ·) credentials token).foldl (· ||| ·) 0

/-- Whether a first message has the credentials.  The result is none if a byte is read outside the
payload. -/
def authenticateBoltHello (payload token : List UInt8) : Option Status :=
  if token = [] then
    some (.ok ())
  else if payload.length < 3 then
    some (.error helloRequired)
  else
    (payload[0]?).bind fun marker =>
      (payload[1]?).bind fun signature =>
        if marker < 0xB0 ∨ marker > 0xBF ∨ signature ≠ 0x01 then
          some (.error helloRequired)
        else
          (payload[2]?).bind fun mapMarker =>
            if mapMarker < 0xA0 ∨ mapMarker > 0xAF then
              some (.error helloRequired)
            else
              (helloEntries payload (mapMarker.toNat - 0xA0) 3 []).map fun
                | .error status => .error status
                | .ok credentials =>
                    if credentials.length ≠ token.length then .error invalidCredentials
                    else if byteDifference credentials token ≠ 0 then .error invalidCredentials
                    else .ok ()

/-! ### PackStream -/

/-- How a string of PackStream says its length. -/
inductive StringForm where
  | tiny
  | string8
  | string16
  deriving DecidableEq

/-- The least length which a form does not have. -/
def StringForm.limit : StringForm → Nat
  | tiny => 16
  | string8 => 256
  | string16 => 65536

/-- A string of PackStream. -/
structure PackString where
  form : StringForm
  text : List UInt8
  fits : text.length < form.limit

/-- The bytes before the text of a string. -/
def StringForm.header (length : Nat) : StringForm → List UInt8
  | tiny => [UInt8.ofNat (0x80 + length)]
  | string8 => [0xD0, UInt8.ofNat length]
  | string16 => 0xD1 :: putBigEndian 2 length

def PackString.bytes (string : PackString) : List UInt8 :=
  string.form.header string.text.length ++ string.text

/-- How a map of PackStream says the number of its entries. -/
inductive MapForm where
  | tiny
  | map8
  | map16
  deriving DecidableEq

/-- The bytes before the entries of a map. -/
def MapForm.header (entries : Nat) : MapForm → List UInt8
  | tiny => [UInt8.ofNat (0xA0 + entries)]
  | map8 => [0xD8, UInt8.ofNat entries]
  | map16 => 0xD9 :: putBigEndian 2 entries

/-- A first message: a map with at most 15 entries of strings, and what may follow it. -/
structure BoltHello where
  marker : UInt8
  mapForm : MapForm
  entries : List (PackString × PackString)
  rest : List UInt8
  tinyStruct : 0xB0 ≤ marker ∧ marker ≤ 0xBF
  fewEntries : entries.length ≤ 15

/-- The value of the last entry with credentials. -/
def lastCredentials (entries : List (PackString × PackString)) : Option (List UInt8) :=
  (entries.reverse.find? fun entry => entry.1.text = credentialsKey).map fun entry => entry.2.text

/-- The bytes of some entries. -/
def entryBytes (entries : List (PackString × PackString)) : List UInt8 :=
  entries.flatMap fun entry => entry.1.bytes ++ entry.2.bytes

namespace BoltHello

def payload (hello : BoltHello) : List UInt8 :=
  hello.marker :: 0x01 :: (hello.mapForm.header hello.entries.length ++
    (entryBytes hello.entries ++ hello.rest))

/-- The credentials of the client. -/
def credentials (hello : BoltHello) : Option (List UInt8) :=
  lastCredentials hello.entries

/-- The map and all of its strings have their lengths in their markers. -/
def Tiny (hello : BoltHello) : Prop :=
  hello.mapForm = .tiny ∧
    ∀ entry ∈ hello.entries, entry.1.form = .tiny ∧ entry.2.form = .tiny

end BoltHello

/-! ### Reading strings -/

open UInt8 hiding not_not

open StringForm hiding ofNat

open PackString

section Strings

variable {payload rest front text token : List UInt8} {offset next : Nat} {string : PackString}

/-- A string inside the payload, by its marker. -/
theorem helloString_of_lt (hlt : offset < payload.length) :
  helloString payload offset =
    if payload[offset] < 0x80 ∨ payload[offset] > 0x8F ∨
        offset + 1 > sizeMinus payload.length (payload[offset].toNat - 0x80) then
      some (.error malformedHello)
    else
      some (.ok ((payload.drop (offset + 1)).take (payload[offset].toNat - 0x80),
        offset + 1 + (payload[offset].toNat - 0x80)))
  := by
  rw [helloString, if_neg (not_le.mpr hlt), getElem?_eq_getElem hlt, bind_some]
  dsimp only [substr]
  rw [if_neg (not_lt.mpr hlt), map_some]

/-- A string is read without leaving the payload. -/
theorem exists_helloString (payload : List UInt8) (offset : Nat) :
  ∃ result, helloString payload offset = some result
  := by
  rcases Nat.lt_or_ge offset payload.length with hlt | hge
  · rw [helloString_of_lt hlt]
    split
    · use .error malformedHello
    · exact ⟨_, rfl⟩
  · use .error malformedHello
    rw [helloString, if_pos hge]

/-- What the reader has checked of a string. -/
theorem checked_of_helloString (h : helloString payload offset = some (.ok (text, next))) :
  ∃ marker : UInt8, payload.drop offset = marker :: payload.drop (offset + 1) ∧
    0x80 ≤ marker.toNat ∧ marker.toNat ≤ 0x8F ∧ offset < payload.length ∧
      offset + 1 ≤ sizeMinus payload.length (marker.toNat - 0x80) ∧
      text = (payload.drop (offset + 1)).take (marker.toNat - 0x80) ∧
      next = offset + 1 + (marker.toNat - 0x80)
  := by
  rcases Nat.lt_or_ge offset payload.length with hlt | hge
  · rw [helloString_of_lt hlt] at h
    split at h
    · cases h
    case isFalse hmarker =>
      push Not at hmarker
      obtain ⟨rfl, rfl⟩ := Prod.mk.inj (Except.ok.inj (some.inj h))
      exact ⟨payload[offset], drop_eq_getElem_cons hlt, hmarker.1, hmarker.2.1, hlt,
        hmarker.2.2, rfl, rfl⟩
  · rw [helloString, if_pos hge] at h
    cases h

/-- A string whose length is in its marker is read. -/
theorem helloString_tiny (htiny : string.form = .tiny) :
  helloString (front ++ (string.bytes ++ rest)) front.length =
    some (.ok (string.text, (front ++ string.bytes).length))
  := by
  obtain ⟨form, text, hfits⟩ := string
  obtain rfl := htiny
  have hnext : (front ++ bytes ⟨.tiny, text, hfits⟩).length =
      front.length + 1 + text.length := by
    simp only [bytes, header, length_append, length_singleton]
    omega
  have hlength : text.length < 16 := hfits
  have hmarker : (ofNat (0x80 + text.length)).toNat = 0x80 + text.length := by
    rw [toNat_ofNat', Nat.mod_eq_of_lt (by omega)]
  have hbytes : front ++ (bytes ⟨.tiny, text, hfits⟩ ++ rest) =
      front ++ [ofNat (0x80 + text.length)] ++ (text ++ rest) := by
    simp [bytes, header]
  have hsize : (front ++ [ofNat (0x80 + text.length)] ++ (text ++ rest)).length =
      front.length + 1 + text.length + rest.length := by
    simp only [length_append, length_singleton]
    omega
  have hlt : front.length <
      (front ++ [ofNat (0x80 + text.length)] ++ (text ++ rest)).length := by
    omega
  have hget : (front ++ [ofNat (0x80 + text.length)] ++ (text ++ rest))[front.length] =
      ofNat (0x80 + text.length) := by
    simp
  have hdrop : (front ++ [ofNat (0x80 + text.length)] ++ (text ++ rest)).drop
      (front.length + 1) = text ++ rest := drop_left' (by simp)
  rw [hnext, hbytes, helloString_of_lt hlt, hget, hmarker, Nat.add_sub_cancel_left, hdrop,
    take_left, if_neg]
  rw [lt_iff_toNat_lt, gt_iff_lt, lt_iff_toNat_lt, sizeMinus, if_pos (by omega)]
  simp
  omega

/-- Another string is refused. -/
theorem helloString_of_ne_tiny (hform : string.form ≠ .tiny) :
  helloString (front ++ (string.bytes ++ rest)) front.length = some (.error malformedHello)
  := by
  have hmarker : ∃ marker tail, marker > 0x8F ∧ string.bytes = marker :: tail := by
    obtain ⟨form, text, hfits⟩ := string
    cases form with
    | tiny => cases hform rfl
    | string8 => exact ⟨0xD0, ofNat text.length :: text, by decide, rfl⟩
    | string16 => exact ⟨0xD1, putBigEndian 2 text.length ++ text, by decide, rfl⟩
  obtain ⟨marker, tail, hlarge, hbytes⟩ := hmarker
  rw [hbytes, helloString_of_lt (by simp), if_pos]
  right; left
  simpa using hlarge

/-- What is read as a string is one, unless the payload is so short that the check of its size
overflows. -/
theorem eq_of_helloString (hsize : 15 ≤ payload.length)
    (h : helloString payload offset = some (.ok (text, next))) :
  ∃ string : PackString, string.form = .tiny ∧ string.text = text ∧
    payload.drop offset = string.bytes ++ payload.drop next
  := by
  obtain ⟨marker, hdrop, hlow, hhigh, hlt, hroom, htext, hnext⟩ := checked_of_helloString h
  rw [sizeMinus, if_pos (by omega)] at hroom
  have hlength : text.length = marker.toNat - 0x80 := by
    rw [htext, length_take, length_drop]
    omega
  have hheader : UInt8.ofNat (0x80 + text.length) = marker := by
    rw [hlength, Nat.add_sub_cancel' hlow, UInt8.ofNat_toNat]
  have hrest : text ++ payload.drop next = payload.drop (offset + 1) := by
    rw [htext, hnext, ← @drop_drop _ (marker.toNat - 0x80) (offset + 1), take_append_drop]
  have hfits : text.length < tiny.limit := by
    rw [limit]
    omega
  refine ⟨⟨.tiny, text, hfits⟩, rfl, rfl, ?_⟩
  rw [bytes, header, hheader, hdrop, append_assoc, hrest,
    singleton_append]

/-- What is read as a string is inside the payload. -/
theorem length_le_of_helloString (h : helloString payload offset = some (.ok (text, next))) :
  offset + 1 + text.length ≤ payload.length ∧ offset < next
  := by
  obtain ⟨marker, hdrop, hlow, hhigh, hlt, hroom, htext, hnext⟩ := checked_of_helloString h
  rw [htext, length_take, length_drop]
  omega

end Strings

/-! ### Reading entries -/

section Entries

variable {payload rest front credentials result : List UInt8} {offset count : Nat}
  {entries : List (PackString × PackString)} {entry : PackString × PackString}

/-- An entry has its value unless a later one has credentials too. -/
theorem lastCredentials_cons :
  (lastCredentials (entry :: entries)).getD credentials =
    (lastCredentials entries).getD
      (if entry.1.text = credentialsKey then entry.2.text else credentials)
  := by
  rw [lastCredentials, lastCredentials, reverse_cons, find?_append]
  cases entries.reverse.find? fun entry => entry.1.text = credentialsKey with
  | some later => simp
  | none =>
    by_cases hkey : entry.1.text = credentialsKey
    · simp [hkey]
    · simp [hkey]

/-- The entries of a map are read without leaving the payload. -/
theorem exists_helloEntries (payload : List UInt8) (count offset : Nat)
    (credentials : List UInt8) :
  ∃ result, helloEntries payload count offset credentials = some result
  := by
  induction count generalizing offset credentials with
  | zero => exact ⟨_, rfl⟩
  | succ count ih =>
    rw [helloEntries]
    obtain ⟨key, hkey⟩ := exists_helloString payload offset
    rw [hkey, bind_some]
    cases key with
    | error status => exact ⟨_, rfl⟩
    | ok key =>
      obtain ⟨value, hvalue⟩ := exists_helloString payload key.2
      dsimp only
      rw [hvalue]
      cases value with
      | error status => exact ⟨_, rfl⟩
      | ok value => exact ih _ _

/-- An entry with short strings is read. -/
theorem helloEntries_succ_tiny (hkey : entry.1.form = .tiny) (hvalue : entry.2.form = .tiny) :
  helloEntries (front ++ (entryBytes (entry :: entries) ++ rest)) (count + 1) front.length
      credentials =
    helloEntries (front ++ entry.1.bytes ++ entry.2.bytes ++ (entryBytes entries ++ rest)) count
      (front ++ entry.1.bytes ++ entry.2.bytes).length
      (if entry.1.text = credentialsKey then entry.2.text else credentials)
  := by
  have hbytes : front ++ (entryBytes (entry :: entries) ++ rest) =
      front ++ (entry.1.bytes ++ (entry.2.bytes ++ (entryBytes entries ++ rest))) := by
    simp [entryBytes]
  have hassoc : front ++ (entry.1.bytes ++ (entry.2.bytes ++ (entryBytes entries ++ rest))) =
      front ++ entry.1.bytes ++ (entry.2.bytes ++ (entryBytes entries ++ rest)) := by
    rw [append_assoc]
  rw [hbytes, helloEntries, helloString_tiny hkey, bind_some]
  dsimp only
  rw [hassoc, helloString_tiny hvalue, bind_some]
  rw [← append_assoc]

/-- An entry with another string is refused. -/
theorem helloEntries_succ_of_not_tiny
    (hform : ¬ (entry.1.form = .tiny ∧ entry.2.form = .tiny)) :
  helloEntries (front ++ (entryBytes (entry :: entries) ++ rest)) (count + 1) front.length
      credentials =
    some (.error malformedHello)
  := by
  have hbytes : front ++ (entryBytes (entry :: entries) ++ rest) =
      front ++ (entry.1.bytes ++ (entry.2.bytes ++ (entryBytes entries ++ rest))) := by
    simp [entryBytes]
  rw [hbytes, helloEntries]
  by_cases hkey : entry.1.form = .tiny
  · have hvalue : entry.2.form ≠ .tiny := fun hvalue => hform ⟨hkey, hvalue⟩
    rw [helloString_tiny hkey, bind_some]
    dsimp only
    rw [← append_assoc, helloString_of_ne_tiny hvalue, bind_some]
  · rw [helloString_of_ne_tiny hkey, bind_some]

/-- Entries whose strings are all short are read. -/
theorem helloEntries_tiny
    (htiny : ∀ entry ∈ entries, entry.1.form = .tiny ∧ entry.2.form = .tiny) :
  helloEntries (front ++ (entryBytes entries ++ rest)) entries.length front.length credentials =
    some (.ok ((lastCredentials entries).getD credentials))
  := by
  induction entries generalizing front credentials with
  | nil => rfl
  | cons entry entries ih =>
    obtain ⟨hkey, hvalue⟩ := htiny entry mem_cons_self
    rw [length_cons, helloEntries_succ_tiny hkey hvalue,
      ih fun other hother => htiny other (mem_cons_of_mem _ hother), lastCredentials_cons]

/-- Entries with another string are refused. -/
theorem helloEntries_of_not_tiny
    (hform : ¬ ∀ entry ∈ entries, entry.1.form = .tiny ∧ entry.2.form = .tiny) :
  helloEntries (front ++ (entryBytes entries ++ rest)) entries.length front.length credentials =
    some (.error malformedHello)
  := by
  induction entries generalizing front credentials with
  | nil =>
    cases hform fun _ hmem => by cases hmem
  | cons entry entries ih =>
    by_cases hentry : entry.1.form = .tiny ∧ entry.2.form = .tiny
    · rw [forall_mem_cons] at hform
      rw [length_cons, helloEntries_succ_tiny hentry.1 hentry.2,
        ih fun hentries => hform ⟨hentry, hentries⟩]
    · rw [length_cons, helloEntries_succ_of_not_tiny hentry]

/-- What is read as an entry, and what is read after it. -/
theorem helloEntries_succ_eq_ok
    (h : helloEntries payload (count + 1) offset credentials = some (.ok result)) :
  ∃ key next value last, helloString payload offset = some (.ok (key, next)) ∧
    helloString payload next = some (.ok (value, last)) ∧
      helloEntries payload count last (if key = credentialsKey then value else credentials) =
        some (.ok result)
  := by
  rw [helloEntries] at h
  obtain ⟨key, hkey⟩ := exists_helloString payload offset
  rw [hkey, bind_some] at h
  cases key with
  | error status => cases h
  | ok key =>
    obtain ⟨value, hvalue⟩ := exists_helloString payload key.2
    dsimp only at h
    rw [hvalue] at h
    cases value with
    | error status => cases h
    | ok value => exact ⟨key.1, key.2, value.1, value.2, hkey, hvalue, h⟩

/-- What is read as some entries is such, unless the payload is short. -/
theorem eq_of_helloEntries (hsize : 15 ≤ payload.length)
    (h : helloEntries payload count offset credentials = some (.ok result)) :
  ∃ entries rest, entries.length = count ∧
    (∀ entry ∈ entries, entry.1.form = .tiny ∧ entry.2.form = .tiny) ∧
      payload.drop offset = entryBytes entries ++ rest ∧
      result = (lastCredentials entries).getD credentials
  := by
  induction count generalizing offset credentials with
  | zero =>
    cases h
    exact ⟨[], payload.drop offset, rfl, by simp, rfl, rfl⟩
  | succ count ih =>
    obtain ⟨key, next, value, last, hkey, hvalue, hrest⟩ := helloEntries_succ_eq_ok h
    obtain ⟨keyString, hkeyForm, rfl, hkeyBytes⟩ := eq_of_helloString hsize hkey
    obtain ⟨valueString, hvalueForm, rfl, hvalueBytes⟩ := eq_of_helloString hsize hvalue
    obtain ⟨entries, rest, rfl, hforms, hbytes, rfl⟩ := ih hrest
    refine ⟨(keyString, valueString) :: entries, rest, rfl, ?_, ?_, ?_⟩
    · rw [forall_mem_cons]
      exact ⟨⟨hkeyForm, hvalueForm⟩, hforms⟩
    · rw [hkeyBytes, hvalueBytes, hbytes]
      simp [entryBytes]
    · rw [lastCredentials_cons]

/-- A short payload has no key for credentials. -/
theorem eq_of_helloEntries_of_lt (hsize : payload.length < 15) (hoffset : 3 ≤ offset)
    (h : helloEntries payload count offset credentials = some (.ok result)) :
  result = credentials
  := by
  induction count generalizing offset credentials with
  | zero =>
    cases h
    rfl
  | succ count ih =>
    obtain ⟨key, next, value, last, hkey, hvalue, hrest⟩ := helloEntries_succ_eq_ok h
    have hkeyInside := length_le_of_helloString hkey
    have hvalueInside := length_le_of_helloString hvalue
    have hother : key ≠ credentialsKey := by
      rintro rfl
      have hlength : credentialsKey.length = 11 := rfl
      omega
    rw [if_neg hother] at hrest
    exact ih (by omega) hrest

end Entries

/-! ### Exact credentials -/

/-- Differences are collected without being lost. -/
theorem foldl_or_eq_zero_iff (differences : List UInt8) (seen : UInt8) :
  differences.foldl (· ||| ·) seen = 0 ↔ seen = 0 ∧ ∀ difference ∈ differences, difference = 0
  := by
  induction differences generalizing seen with
  | nil => simp
  | cons difference differences ih =>
    rw [foldl_cons, ih, or_eq_zero_iff, forall_mem_cons, and_assoc]

/-- Texts of the same length without a difference are the same. -/
theorem byteDifference_eq_zero_iff {credentials token : List UInt8}
    (hlength : credentials.length = token.length) :
  byteDifference credentials token = 0 ↔ credentials = token
  := by
  rw [byteDifference, foldl_or_eq_zero_iff, and_iff_right rfl]
  induction credentials generalizing token with
  | nil =>
    rw [length_nil, eq_comm, length_eq_zero_iff] at hlength
    simp [hlength]
  | cons byte credentials ih =>
    cases token with
    | nil => cases hlength
    | cons other token =>
      rw [zipWith_cons_cons, forall_mem_cons, ih (Nat.succ.inj hlength),
        xor_eq_zero_iff, cons.injEq]

section Authenticate

variable {payload token : List UInt8}

/-- What a message with a map has, by the entries of the map. -/
theorem authenticateBoltHello_cons {marker mapMarker : UInt8} {tail : List UInt8}
    (hne : token ≠ [])
    (hmarker : 0xB0 ≤ marker ∧ marker ≤ 0xBF) (hmap : 0xA0 ≤ mapMarker ∧ mapMarker ≤ 0xAF) :
  authenticateBoltHello (marker :: 0x01 :: mapMarker :: tail) token = some (.ok ()) ↔
    helloEntries (marker :: 0x01 :: mapMarker :: tail) (mapMarker.toNat - 0xA0) 3 [] =
      some (.ok token)
  := by
  have hstruct : ¬ (marker < 0xB0 ∨ marker > 0xBF ∨ (0x01 : UInt8) ≠ 0x01) := by
    push Not
    exact ⟨hmarker.1, hmarker.2, rfl⟩
  have htiny : ¬ (mapMarker < 0xA0 ∨ mapMarker > 0xAF) := by
    push Not
    exact hmap
  have hlength : ¬ (marker :: 0x01 :: mapMarker :: tail).length < 3 := by
    simp
  rw [authenticateBoltHello, if_neg hne, if_neg hlength, getElem?_cons_zero, bind_some,
    getElem?_cons_succ, getElem?_cons_zero, bind_some, if_neg hstruct,
    getElem?_cons_succ, getElem?_cons_succ, getElem?_cons_zero, bind_some,
    if_neg htiny, map_eq_some_iff]
  constructor
  · rintro ⟨result, hresult, hok⟩
    rw [hresult]
    split at hok
    · cases hok
    case h_2 credentials =>
      split at hok
      · cases hok
      case isFalse hsame =>
        split at hok
        · cases hok
        case isFalse hzero =>
          rw [not_not] at hsame hzero
          rw [(byteDifference_eq_zero_iff hsame).mp hzero]
  · intro hentries
    refine ⟨_, hentries, ?_⟩
    dsimp only
    rw [if_neg (not_not.mpr rfl), if_neg]
    rw [not_not, byteDifference_eq_zero_iff rfl]

/-- A message which is accepted is a structure with a map. -/
theorem exists_eq_of_authenticate (hne : token ≠ [])
    (h : authenticateBoltHello payload token = some (.ok ())) :
  ∃ marker mapMarker tail, (0xB0 ≤ marker ∧ marker ≤ 0xBF) ∧
    (0xA0 ≤ mapMarker ∧ mapMarker ≤ 0xAF) ∧ payload = marker :: 0x01 :: mapMarker :: tail
  := by
  rw [authenticateBoltHello, if_neg hne] at h
  split at h
  · cases h
  case isFalse hlength =>
    obtain _ | ⟨marker, _ | ⟨signature, _ | ⟨mapMarker, tail⟩⟩⟩ := payload
    · cases hlength (by decide)
    · cases hlength (by simp)
    · cases hlength (by simp)
    rw [getElem?_cons_zero, bind_some, getElem?_cons_succ, getElem?_cons_zero,
      bind_some] at h
    split at h
    · cases h
    case isFalse hstruct =>
      rw [getElem?_cons_succ, getElem?_cons_succ, getElem?_cons_zero,
        bind_some] at h
      split at h
      · cases h
      case isFalse hmap =>
        push Not at hstruct hmap
        obtain ⟨hlow, hhigh, rfl⟩ := hstruct
        exact ⟨marker, mapMarker, tail, ⟨hlow, hhigh⟩, hmap, rfl⟩

/-- Nothing is read outside the payload. -/
theorem exists_authenticateBoltHello (payload token : List UInt8) :
  ∃ result, authenticateBoltHello payload token = some result
  := by
  rw [authenticateBoltHello]
  split
  · exact ⟨_, rfl⟩
  split
  · exact ⟨_, rfl⟩
  case isFalse hlength =>
    obtain _ | ⟨marker, _ | ⟨signature, _ | ⟨mapMarker, tail⟩⟩⟩ := payload
    · cases hlength (by decide)
    · cases hlength (by simp)
    · cases hlength (by simp)
    rw [getElem?_cons_zero, bind_some, getElem?_cons_succ, getElem?_cons_zero,
      bind_some]
    split
    · exact ⟨_, rfl⟩
    rw [getElem?_cons_succ, getElem?_cons_succ, getElem?_cons_zero, bind_some]
    split
    · exact ⟨_, rfl⟩
    · obtain ⟨result, hresult⟩ :=
        exists_helloEntries (marker :: signature :: mapMarker :: tail) (mapMarker.toNat - 0xA0) 3 []
      rw [hresult]
      exact ⟨_, rfl⟩

/-- The credentials which are read from some entries are the token. -/
theorem getD_eq_token_iff (hne : token ≠ []) (credentials : Option (List UInt8)) :
  credentials.getD [] = token ↔ credentials = some token
  := by
  cases credentials with
  | none => simp [hne.symm]
  | some credentials => simp

/-- A first message is accepted if its strings are all short and its credentials are the token. -/
theorem BoltHello.authenticate_iff (hello : BoltHello) (hne : token ≠ []) :
  authenticateBoltHello hello.payload token = some (.ok ()) ↔
    hello.Tiny ∧ hello.credentials = some token
  := by
  by_cases hform : hello.mapForm = .tiny
  · have hcount : (ofNat (0xA0 + hello.entries.length)).toNat =
        0xA0 + hello.entries.length := by
      have hfew := hello.fewEntries
      rw [toNat_ofNat', Nat.mod_eq_of_lt (by omega)]
    have hmap : 0xA0 ≤ ofNat (0xA0 + hello.entries.length) ∧
        ofNat (0xA0 + hello.entries.length) ≤ 0xAF := by
      have hfew := hello.fewEntries
      rw [le_iff_toNat_le, le_iff_toNat_le]
      simp
      omega
    have hpayload : hello.payload =
        [hello.marker, 0x01, ofNat (0xA0 + hello.entries.length)] ++
          (entryBytes hello.entries ++ hello.rest) := by
      rw [BoltHello.payload, hform]
      rfl
    have hentries : authenticateBoltHello hello.payload token = some (.ok ()) ↔
        helloEntries hello.payload hello.entries.length 3 [] = some (.ok token) := by
      have hcons := @authenticateBoltHello_cons _ _ _ (entryBytes hello.entries ++ hello.rest) hne
        hello.tinyStruct hmap
      rw [hcount, Nat.add_sub_cancel_left] at hcons
      rw [hpayload]
      exact hcons
    rw [hentries, BoltHello.Tiny, and_iff_right hform]
    by_cases htiny : ∀ entry ∈ hello.entries, entry.1.form = .tiny ∧ entry.2.form = .tiny
    · have hread : helloEntries hello.payload hello.entries.length 3 [] =
          some (.ok ((lastCredentials hello.entries).getD [])) := by
        rw [hpayload]
        exact helloEntries_tiny htiny
      rw [hread, and_iff_right htiny, some.injEq, Except.ok.injEq, getD_eq_token_iff hne,
        BoltHello.credentials]
    · have hread : helloEntries hello.payload hello.entries.length 3 [] =
          some (.error malformedHello) := by
        rw [hpayload]
        exact helloEntries_of_not_tiny htiny
      rw [hread, iff_false_right fun h => htiny h.1]
      simp
  · have hlarge : ∃ mapMarker tail, 0xAF < mapMarker ∧
        hello.payload = hello.marker :: 0x01 :: mapMarker :: tail := by
      rw [BoltHello.payload]
      cases h : hello.mapForm with
      | tiny => cases hform h
      | map8 => exact ⟨0xD8, _, by decide, rfl⟩
      | map16 => exact ⟨0xD9, _, by decide, rfl⟩
    obtain ⟨mapMarker, tail, hgt, hpayload⟩ := hlarge
    constructor
    · intro h
      obtain ⟨marker, other, tail', -, hother, heq⟩ := exists_eq_of_authenticate hne h
      rw [hpayload] at heq
      injection heq with _ heq
      injection heq with _ heq
      injection heq with heq _
      cases not_lt.mpr hother.2 (heq ▸ hgt)
    · intro h
      cases hform h.1.1

/-- Whatever is accepted is a first message whose credentials are the token. -/
theorem exists_hello_of_authenticate (hne : token ≠ [])
    (h : authenticateBoltHello payload token = some (.ok ())) :
  ∃ hello : BoltHello, hello.payload = payload ∧ hello.credentials = some token
  := by
  obtain ⟨marker, mapMarker, tail, hmarker, hmap, rfl⟩ := exists_eq_of_authenticate hne h
  rw [authenticateBoltHello_cons hne hmarker hmap] at h
  rcases Nat.lt_or_ge (marker :: 0x01 :: mapMarker :: tail).length 15 with hshort | hsize
  · cases hne (eq_of_helloEntries_of_lt hshort (le_refl 3) h)
  · obtain ⟨entries, rest, hcount, hforms, hbytes, htoken⟩ := eq_of_helloEntries hsize h
    have hlow : 0xA0 ≤ mapMarker.toNat := hmap.1
    have hhigh : mapMarker.toNat ≤ 0xAF := hmap.2
    have hheader : UInt8.ofNat (0xA0 + entries.length) = mapMarker := by
      rw [hcount, Nat.add_sub_cancel' hlow, UInt8.ofNat_toNat]
    have hfew : entries.length ≤ 15 := by
      omega
    refine ⟨⟨marker, .tiny, entries, rest, hmarker, hfew⟩, ?_, ?_⟩
    · have htail : tail = entryBytes entries ++ rest := hbytes
      rw [BoltHello.payload, MapForm.header, hheader, htail]
      rfl
    · exact (getD_eq_token_iff hne _).mp htoken.symm

end Authenticate

end Cedar
