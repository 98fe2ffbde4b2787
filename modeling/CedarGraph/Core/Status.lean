import Mathlib

/-!
# Statuses

A fallible operation returns a value or a status that is not OK.  Such a status carries a
code and two texts, of which the first names what was processed and the second what was
wrong with it.
-/

namespace Cedar

/-- The codes of the statuses which the modelled operations return. -/
inductive StatusCode where
  | notFound
  | corruption
  | notSupported
  | invalidArgument
  | conflict
  | resourceExhausted
  | identityConflict
  | numericOverflow
  | snapshotExpired
  | schemaMismatch
  | parseError
  | bindError
  | indeterminate
  | recoveryRequired
  | shutdownInProgress
  deriving DecidableEq

/-- A status that is not OK. -/
structure StatusError where
  /-- The code of the status. -/
  code : StatusCode
  /-- What was processed. -/
  msg : String
  /-- What was wrong. -/
  msg2 : String
  deriving DecidableEq

/-- The text with which a status of a code begins. -/
def StatusCode.text : StatusCode → String
  | notFound => "NotFound: "
  | corruption => "Corruption: "
  | notSupported => "Not implemented: "
  | invalidArgument => "Invalid argument: "
  | conflict => "Conflict: "
  | resourceExhausted => "ResourceExhausted: "
  | identityConflict => "IdentityConflict: "
  | numericOverflow => "NumericOverflow: "
  | snapshotExpired => "SnapshotExpired: "
  | schemaMismatch => "SchemaMismatch: "
  | parseError => "ParseError: "
  | bindError => "BindError: "
  | indeterminate => "Indeterminate: "
  | recoveryRequired => "RecoveryRequired: "
  | shutdownInProgress => "ShutdownInProgress: "

/-- A status as a text. -/
def StatusError.text (error : StatusError) : String :=
  error.code.text ++ error.msg ++ (if error.msg2 = "" then "" else ": " ++ error.msg2)

/-- A value, or a status that is not OK. -/
abbrev StatusOr (α : Type) : Type := Except StatusError α

/-- The result of an operation that returns no value. -/
abbrev Status : Type := StatusOr Unit

namespace Status

variable {α : Type} (msg msg2 : String)

/-- The failure with code `kInvalidArgument`. -/
def invalidArgument : StatusOr α :=
  .error ⟨.invalidArgument, msg, msg2⟩

/-- The failure with code `kCorruption`. -/
def corruption : StatusOr α :=
  .error ⟨.corruption, msg, msg2⟩

/-- The failure with code `kNotFound`. -/
def notFound : StatusOr α :=
  .error ⟨.notFound, msg, msg2⟩

/-- The failure with code `kConflict`. -/
def conflict : StatusOr α :=
  .error ⟨.conflict, msg, msg2⟩

/-- The failure with code `kNotSupported`. -/
def notSupported : StatusOr α :=
  .error ⟨.notSupported, msg, msg2⟩

/-- The failure with code `kResourceExhausted`. -/
def resourceExhausted : StatusOr α :=
  .error ⟨.resourceExhausted, msg, msg2⟩

/-- The failure with code `kParseError`. -/
def parseError : StatusOr α :=
  .error ⟨.parseError, msg, msg2⟩

/-- The failure with code `kBindError`. -/
def bindError : StatusOr α :=
  .error ⟨.bindError, msg, msg2⟩

/-- The failure with code `kNumericOverflow`. -/
def numericOverflow : StatusOr α :=
  .error ⟨.numericOverflow, msg, msg2⟩

end Status

namespace StatusOr

variable {α β : Type} {x : StatusOr α} {f : α → StatusOr β} {b : β}

/-- A sequence of two operations succeeds exactly if both do. -/
theorem bind_eq_ok_iff :
  x >>= f = .ok b ↔ ∃ a, x = .ok a ∧ f a = .ok b
  := by
  cases x with
  | error e | ok a => simp [bind, Except.bind]

@[simp]
theorem ok_bind (a : α) (f : α → StatusOr β) :
  (Except.ok a : StatusOr α) >>= f = f a
  := rfl

@[simp]
theorem pure_eq_ok (a : α) :
  (pure a : StatusOr α) = .ok a
  := rfl

/-- An operation behind a check succeeds exactly if the check passes and the operation does. -/
theorem guard_eq_ok_iff {c : Prop} [Decidable c] {e : StatusError} {a : α} :
  (if c then .error e else x) = .ok a ↔ ¬ c ∧ x = .ok a
  := by
  split
  case isTrue h => simp [h]
  case isFalse h => simp [h]

theorem check_eq_ok_iff {c : Prop} [Decidable c] {msg msg2 : String} {a : α} :
  (if c then Status.invalidArgument msg msg2 else x) = .ok a ↔ ¬ c ∧ x = .ok a
  := guard_eq_ok_iff

theorem budget_eq_ok_iff {c : Prop} [Decidable c] {msg msg2 : String} {a : α} :
  (if c then Status.resourceExhausted msg msg2 else x) = .ok a ↔ ¬ c ∧ x = .ok a
  := guard_eq_ok_iff

/-- An operation on all entries of a list succeeds exactly if it does on every entry. -/
theorem mapM_eq_ok_iff {g : α → StatusOr β} {l : List α} {m : List β} :
  l.mapM g = .ok m ↔ List.Forall₂ (fun a b => g a = .ok b) l m
  := by
  induction l generalizing m with
  | nil => simp [eq_comm]
  | cons a l ih =>
    rw [List.mapM_cons, bind_eq_ok_iff, List.forall₂_cons_left_iff]
    constructor
    · rintro ⟨b, hb, h⟩
      obtain ⟨m', hm', h⟩ := bind_eq_ok_iff.mp h
      use b, m', hb, ih.mp hm'
      apply (Except.ok.inj h).symm
    · rintro ⟨b, m', hb, hm', rfl⟩
      use b, hb
      apply bind_eq_ok_iff.mpr
      use m', ih.mpr hm'
      rfl

/-- An operation whose results are known succeeds on a list exactly if it does on every entry. -/
theorem mapM_eq_ok_iff_map {P : α → Prop} {f : α → StatusOr β} {g : α → β} {l : List α}
    {m : List β} (h : ∀ a ∈ l, ∀ b, f a = .ok b ↔ P a ∧ b = g a) :
  l.mapM f = .ok m ↔ (∀ a ∈ l, P a) ∧ m = l.map g
  := by
  induction l generalizing m with
  | nil => simp [eq_comm]
  | cons a l ih =>
    obtain ⟨ha, hl⟩ := List.forall_mem_cons.mp h
    rw [List.mapM_cons, bind_eq_ok_iff, List.forall_mem_cons]
    constructor
    · rintro ⟨b, hb, h⟩
      obtain ⟨m', hm', h⟩ := bind_eq_ok_iff.mp h
      obtain ⟨hP, rfl⟩ := (ha b).mp hb
      obtain ⟨hall, rfl⟩ := (ih hl).mp hm'
      exact ⟨⟨hP, hall⟩, (Except.ok.inj h).symm⟩
    · rintro ⟨⟨hP, hall⟩, rfl⟩
      refine ⟨g a, (ha _).mpr ⟨hP, rfl⟩, bind_eq_ok_iff.mpr ⟨l.map g, (ih hl).mpr ⟨hall, rfl⟩, rfl⟩⟩

end StatusOr

end Cedar
