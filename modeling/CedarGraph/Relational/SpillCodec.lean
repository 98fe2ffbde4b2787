import CedarGraph.Relational.Spill

/-!
# Written rows are read back

A row which is read from a run is the row which was written, without the hash which it remembers.
A row whose bytes are too many for the size of its frame is not read at all, since what a reader
reads from the front of its bytes does not end there.
-/

namespace Cedar

open Except List Option StatusOr

open ByteCodec

/-! ### Well-typed cells -/

/-- The datum is of a type.  The length of a text is a number of 64 bits. -/
def RelationalScalar.HasType : RelationalScalar → QueryType → Prop
  | .bool _, .bool => True
  | .int32 _, .int32 => True
  | .int64 _, .int64 => True
  | .float _, .float32 => True
  | .double _, .float64 => True
  | .timestamp _, .timestamp64 => True
  | .string bytes, .string => bytes.length < 2 ^ 64
  | .binary bytes, .binary => bytes.length < 2 ^ 64
  | .vertexRef _, .vertexRef => True
  | .edgeRef _, .edgeRef => True
  | .validTime _, .validTime => True
  | .validDuration _, .validDuration => True
  | .commitSeq _, .commitSeq => True
  | .interval _, .validTimeInterval => True
  | _, _ => False

/-- The datum of a cell is of its type.  A missing cell has the default datum. -/
def RelationalCell.WellTyped (cell : RelationalCell) : Prop :=
  if cell.present then cell.value.HasType cell.type else cell.value = .bool false

/-- The cells of a row are well-typed, and their number is one of 32 bits, as a frame has it. -/
structure RelationalRow.Writable (row : RelationalRow) : Prop where
  cells : ∀ cell ∈ row.cells, cell.WellTyped
  count : row.cells.length < 2 ^ 32

theorem QueryType.ofNumber_number (type : QueryType) :
  QueryType.ofNumber type.number = some type
  := by
  cases type <;> rfl

theorem QueryType.number_lt (type : QueryType) :
  type.number < 256
  := by
  cases type <;> decide

theorem RelationalScalar.HasType.length_lt {value : RelationalScalar} {type : QueryType}
    {bytes : List UInt8} (h : value.HasType type)
    (hbytes : value = .string bytes ∨ value = .binary bytes) :
  bytes.length < 256 ^ 8
  := by
  obtain rfl | rfl := hbytes
  all_goals cases type <;> first | exact h | cases h

namespace Relational

/-! ### What the readers read -/

theorem reads_getBool (b : Bool) :
  Reads getBool (putBool b) b
  := by
  intro rest
  cases b <;> rfl

theorem local_getBool :
  Local getBool
  := (local_getWord 1).map _

theorem reads_word64 (w : UInt64) :
  Reads (getWord 8) (putWord 8 w.toNat) w.toNat
  := reads_getWord w.toNat_lt

theorem reads_word32 (w : UInt32) :
  Reads (getWord 4) (putWord 4 w.toNat) w.toNat
  := reads_getWord w.toNat_lt

theorem reads_deserializeInterval (interval : ValidTimeInterval) :
  Reads deserializeInterval (serializeInterval interval) interval
  := by
  obtain ⟨start, stop⟩ := interval
  apply (reads_word64 start).bind
  apply (reads_getBool stop.isSome).bind
  rw [UInt64.ofNat_toNat]
  cases stop with
  | none => apply reads_pure
  | some stop =>
    have hread := (reads_word64 stop).map fun stop =>
      (⟨start, some (.ofNat stop)⟩ : ValidTimeInterval)
    rwa [UInt64.ofNat_toNat] at hread

theorem local_deserializeInterval :
  Local deserializeInterval
  := by
  apply (local_getWord 8).bind
  intro start
  apply local_getBool.bind
  intro hasStop
  cases hasStop with
  | false => apply local_pure
  | true => apply (local_getWord 8).map

theorem reads_getScalar (kind : UInt64 → RelationalScalar) (w : UInt64) :
  Reads (getScalar kind) (putWord 8 w.toNat) (kind w)
  := by
  have hread := (reads_word64 w).map fun w => kind (.ofNat w)
  rwa [UInt64.ofNat_toNat] at hread

theorem local_getScalar (kind : UInt64 → RelationalScalar) :
  Local (getScalar kind)
  := (local_getWord 8).map _

/-- A datum whose text fits is read as it was written. -/
theorem reads_deserializeScalar {value : RelationalScalar} {type : QueryType}
    (htype : value.HasType type) :
  Reads deserializeScalar (serializeScalar value) value
  := by
  have hkind (n : Nat) (hn : n < 256 ^ 1) : Reads (getWord 1) (putWord 1 n) n := reads_getWord hn
  cases value with
  | bool b => apply (hkind 0 (by decide)).bind ((reads_getBool b).map _)
  | int32 v =>
    apply (hkind 1 (by decide)).bind
    have hread := (reads_word32 v.toUInt32).map fun w =>
      RelationalScalar.int32 (UInt32.ofNat w).toInt32
    rwa [UInt32.ofNat_toNat] at hread
  | int64 v =>
    apply (hkind 2 (by decide)).bind
    apply reads_getScalar (fun w => .int64 w.toInt64) v.toUInt64
  | float bits =>
    apply (hkind 3 (by decide)).bind
    have hread := (reads_word32 bits).map fun w => RelationalScalar.float (.ofNat w)
    rwa [UInt32.ofNat_toNat] at hread
  | double bits => apply (hkind 4 (by decide)).bind (reads_getScalar _ bits)
  | timestamp v => apply (hkind 5 (by decide)).bind (reads_getScalar _ v)
  | string bytes =>
    apply (hkind 6 (by decide)).bind
    apply (reads_getText (htype.length_lt (.inl rfl))).map
  | binary bytes =>
    apply (hkind 7 (by decide)).bind
    apply (reads_getText (htype.length_lt (.inr rfl))).map
  | vertexRef ref =>
    apply (hkind 8 (by decide)).bind
    apply (reads_word32 ref.partId).bind
    rw [UInt32.ofNat_toNat]
    apply reads_getScalar (fun id => .vertexRef ⟨ref.partId, id⟩) ref.vertexId
  | edgeRef ref =>
    apply (hkind 9 (by decide)).bind
    apply (reads_word32 ref.homePartId).bind
    rw [UInt32.ofNat_toNat]
    apply reads_getScalar (fun id => .edgeRef ⟨ref.homePartId, id⟩) ref.edgeId
  | validTime v => apply (hkind 10 (by decide)).bind (reads_getScalar _ v)
  | validDuration v => apply (hkind 11 (by decide)).bind (reads_getScalar _ v)
  | commitSeq v => apply (hkind 12 (by decide)).bind (reads_getScalar _ v)
  | interval v => apply (hkind 13 (by decide)).bind ((reads_deserializeInterval v).map _)

theorem local_deserializeScalar :
  Local deserializeScalar
  := by
  apply (local_getWord 1).bind
  intro kind
  unfold deserializeKind
  split
  · apply local_getBool.map
  · apply (local_getWord 4).map
  · apply local_getScalar
  · apply (local_getWord 4).map
  · apply local_getScalar
  · apply local_getScalar
  · apply local_getText.map
  · apply local_getText.map
  · apply (local_getWord 4).bind fun _ => local_getScalar _
  · apply (local_getWord 4).bind fun _ => local_getScalar _
  · apply local_getScalar
  · apply local_getScalar
  · apply local_getScalar
  · apply local_deserializeInterval.map
  · apply local_failure

theorem reads_readCellFrame (cell : RelationalCell) :
  Reads readCellFrame (putWord 1 cell.type.number ++ putBool cell.present)
    (cell.type, cell.present)
  := by
  have hnumber : cell.type.number < 256 ^ 1 := cell.type.number_lt
  apply (reads_getWord hnumber).bind
  rw [QueryType.ofNumber_number]
  apply (reads_getBool cell.present).map

theorem local_readCellFrame :
  Local readCellFrame
  := by
  apply (local_getWord 1).bind
  intro number
  cases QueryType.ofNumber number with
  | none => apply local_failure
  | some type => apply local_getBool.map

/-! ### A row as one reader -/

/-- The reader of a cell, without the texts of its errors. -/
def readCell : Reader RelationalCell := do
  let frame ← readCellFrame
  if frame.2 then return ⟨frame.1, true, ← deserializeScalar⟩
  else return { type := frame.1 }

def readCells : Nat → Reader (List RelationalCell)
  | 0 => return []
  | n + 1 => do
      let cell ← readCell
      let cells ← readCells n
      return cell :: cells

def readEffective : Reader (Option ValidTimeInterval) := do
  let hasEffective ← getBool
  if hasEffective then return some (← deserializeInterval)
  else return none

/-- The bytes which are left suffice for a number of cells. -/
def sufficeFor (count : Nat) : Reader Unit := fun bytes =>
  if count > bytes.length / 2 then none else some ((), bytes)

def readRow : Reader RelationalRow := do
  let count ← getWord 4
  let effective ← readEffective
  let _ ← sufficeFor count
  let cells ← readCells count
  return { cells := cells, effective := effective }

variable {payload : List UInt8} {row : RelationalRow}

variable {α : Type} {granted : Bool} {rows : List RelationalRow}

theorem readOr_eq_ok_iff {reader : Reader α} {message : String} {result : α × List UInt8} :
  readOr reader payload message = .ok result ↔ reader payload = some result
  := by
  unfold readOr
  cases reader payload with
  | none => simp [corruption, Status.corruption]
  | some r => simp

theorem reads_readCell {cell : RelationalCell} (hcell : cell.WellTyped) :
  Reads readCell (serializeCell cell) cell
  := by
  obtain ⟨type, present, value⟩ := cell
  apply (reads_readCellFrame ⟨type, present, value⟩).bind
  cases present with
  | true =>
    have htyped : value.HasType type := hcell
    apply (reads_deserializeScalar htyped).map
  | false =>
    obtain rfl : value = .bool false := hcell
    apply reads_pure

theorem local_readCell :
  Local readCell
  := by
  apply local_readCellFrame.bind
  rintro ⟨type, present⟩
  cases present with
  | true => apply local_deserializeScalar.map
  | false => apply local_pure

theorem reads_readCells {cells : List RelationalCell} (hcells : ∀ cell ∈ cells, cell.WellTyped) :
  Reads (readCells cells.length) (cells.flatMap serializeCell) cells
  := by
  induction cells with
  | nil => apply reads_pure
  | cons cell cells ih =>
    obtain ⟨hcell, hcells⟩ := forall_mem_cons.mp hcells
    apply (reads_readCell hcell).bind
    apply (ih hcells).map

theorem local_readCells (n : Nat) :
  Local (readCells n)
  := by
  induction n with
  | zero => apply local_pure
  | succ n ih => exact local_readCell.bind fun _ => ih.map _

theorem reads_readEffective (effective : Option ValidTimeInterval) :
  Reads readEffective (serializeEffective effective) effective
  := by
  cases effective with
  | none => apply (reads_getBool false).map fun _ => none
  | some interval => apply (reads_getBool true).bind ((reads_deserializeInterval interval).map _)

theorem local_readEffective :
  Local readEffective
  := by
  apply local_getBool.bind
  intro hasEffective
  cases hasEffective with
  | true => apply local_deserializeInterval.map
  | false => apply local_pure

/-- A cell has at least the bytes of its frame. -/
theorem two_mul_le_length_flatMap (cells : List RelationalCell) :
  2 * cells.length ≤ (cells.flatMap serializeCell).length
  := by
  induction cells with
  | nil => apply Nat.le_refl
  | cons cell cells ih =>
    have hcell : 2 ≤ (serializeCell cell).length := by
      rw [serializeCell, putBool]
      grind [length_putWord]
    rw [flatMap_cons, length_append, length_cons]
    omega

theorem local_sufficeFor (count : Nat) :
  Local (sufficeFor count)
  := by
  intro bytes a rest h more
  unfold sufficeFor at h ⊢
  grind

/-- A row which can be written is read as it was written, without its hash. -/
theorem reads_readRow (hrow : row.Writable) :
  Reads readRow (serializeRow row) row.forgetHash
  := by
  have hwidth : (256 : Nat) ^ 4 = 2 ^ 32 := by norm_num
  apply (reads_getWord (hwidth ▸ hrow.count)).bind
  apply (reads_readEffective row.effective).bind
  intro rest
  have hcount := two_mul_le_length_flatMap row.cells
  have hsuffice : ¬row.cells.length > (row.cells.flatMap serializeCell ++ rest).length / 2 := by
    rw [length_append]
    omega
  rw [bind_eq, sufficeFor, if_neg hsuffice]
  apply (reads_readCells hrow.cells).map

theorem local_readRow :
  Local readRow
  := by
  apply (local_getWord 4).bind
  intro count
  apply local_readEffective.bind
  intro effective
  apply (local_sufficeFor count).bind
  intro _
  apply (local_readCells count).map

/-! ### The readers with errors -/

theorem deserializeCell_eq_ok_iff {result : RelationalCell × List UInt8} :
  deserializeCell payload = .ok result ↔ readCell payload = some result
  := by
  unfold deserializeCell readCell
  rw [bind_eq_ok_iff, bind_eq, bind_eq_some_iff]
  simp only [readOr_eq_ok_iff]
  apply exists_congr
  rintro ⟨⟨type, present⟩, rest⟩
  apply and_congr_right
  intro _
  cases present with
  | false => simp [pure, Except.pure, StateT.pure]
  | true => simp [bind_eq, bind_eq_ok_iff, readOr_eq_ok_iff, pure, Except.pure,
      StateT.pure, bind_eq_some_iff]

theorem readCells_of_deserializeCells {n : Nat} {result : List RelationalCell × List UInt8}
    (h : deserializeCells n payload = .ok result) :
  readCells n payload = some result
  := by
  induction n generalizing payload result with
  | zero => exact congrArg some (ok.inj h)
  | succ n ih =>
    obtain ⟨⟨cell, rest⟩, hcell, h⟩ := bind_eq_ok_iff.mp h
    obtain ⟨⟨cells, rest'⟩, hcells, h⟩ := bind_eq_ok_iff.mp h
    rw [readCells, bind_eq, deserializeCell_eq_ok_iff.mp hcell, bind_some, bind_eq, ih hcells]
    exact congrArg some (ok.inj h)

theorem readEffective_of_deserializeEffective {result : Option ValidTimeInterval × List UInt8}
    (h : deserializeEffective payload = .ok result) :
  readEffective payload = some result
  := by
  obtain ⟨⟨hasEffective, rest⟩, hflag, h⟩ := bind_eq_ok_iff.mp h
  rw [readEffective, bind_eq, readOr_eq_ok_iff.mp hflag, bind_some]
  cases hasEffective with
  | false => exact congrArg some (ok.inj h)
  | true =>
    obtain ⟨⟨interval, rest'⟩, hinterval, h⟩ := bind_eq_ok_iff.mp h
    rw [if_pos rfl, bind_eq, readOr_eq_ok_iff.mp hinterval]
    exact congrArg some (ok.inj h)

/-- A row is read from all of its bytes. -/
theorem readRow_of_deserializeRow (h : deserializeRow payload = .ok row) :
  readRow payload = some (row, [])
  := by
  obtain ⟨⟨count, rest⟩, hcount, h⟩ := bind_eq_ok_iff.mp h
  obtain ⟨⟨effective, body⟩, heffective, h⟩ := bind_eq_ok_iff.mp h
  obtain ⟨hsuffice, h⟩ := guard_eq_ok_iff.mp h
  obtain ⟨⟨cells, trailing⟩, hcells, h⟩ := bind_eq_ok_iff.mp h
  obtain ⟨htrailing, h⟩ := guard_eq_ok_iff.mp h
  rw [readRow, bind_eq, readOr_eq_ok_iff.mp hcount, bind_some, bind_eq,
    readEffective_of_deserializeEffective heffective, bind_some, bind_eq, sufficeFor,
    if_neg hsuffice, bind_some, bind_eq, readCells_of_deserializeCells hcells]
  obtain rfl : trailing = [] := not_not.mp htrailing
  exact congrArg (fun row => some (row, [])) (ok.inj h)

/-- The size of a frame is the number of its bytes, unless these are too many for it. -/
theorem scanFrame_framedRow {result : List UInt8 × List UInt8}
    (h : scanFrame (framedRow row) = .ok result) :
  ∃ size ≤ (serializeRow row).length,
    result = ((serializeRow row).take size, (serializeRow row).drop size)
  := by
  obtain ⟨⟨size, payload⟩, hsize, h⟩ := bind_eq_ok_iff.mp h
  have hread := readOr_eq_ok_iff.mp hsize
  rw [framedRow, getWord_putWord] at hread
  obtain ⟨rfl, rfl⟩ := Prod.mk.inj (some.inj hread)
  obtain ⟨_, h⟩ := guard_eq_ok_iff.mp h
  obtain ⟨_, h⟩ := guard_eq_ok_iff.mp h
  obtain ⟨⟨count, body⟩, _, h⟩ := bind_eq_ok_iff.mp h
  obtain ⟨⟨_, body'⟩, _, h⟩ := bind_eq_ok_iff.mp h
  obtain ⟨_, h⟩ := guard_eq_ok_iff.mp h
  refine ⟨_, ?_, (ok.inj h).symm⟩
  apply Nat.mod_le

@[simp]
theorem scanFrames_nil (fuel : Nat) :
  scanFrames fuel [] = .ok []
  := by
  cases fuel <;> rfl

theorem scanFrames_succ (fuel : Nat) (h : payload ≠ []) :
  scanFrames (fuel + 1) payload =
    scanFrame payload >>= fun first =>
      scanFrames fuel first.2 >>= fun frames => .ok (first.1 :: frames)
  := by
  cases payload with
  | nil => exact absurd rfl h
  | cons byte bytes => rfl

/-- What is read from the run of a row is the row without its hash. -/
theorem deserializeRows_framedRow (hrow : row.Writable)
    (h : deserializeRows (framedRow row) granted = .ok rows) :
  rows = [row.forgetHash]
  := by
  obtain ⟨frames, hframes, h⟩ := bind_eq_ok_iff.mp h
  obtain ⟨_, h⟩ := guard_eq_ok_iff.mp h
  obtain ⟨⟨frame, rest⟩, hframe, hframes⟩ := bind_eq_ok_iff.mp hframes
  obtain ⟨frames', hrest, hframes⟩ := bind_eq_ok_iff.mp hframes
  obtain rfl := ok.inj hframes
  obtain ⟨size, hsize, hresult⟩ := scanFrame_framedRow hframe
  obtain ⟨rfl, rfl⟩ := Prod.mk.inj hresult
  have hdecoded := mapM_eq_ok_iff.mp h
  obtain ⟨decoded, rows, hdecode, hrows, rfl⟩ := forall₂_cons_left_iff.mp hdecoded
  -- the first frame is read to its end, and is therefore not a proper beginning of the row
  have hend : (serializeRow row).drop size = [] := by
    apply local_readRow.eq_nil _ (readRow_of_deserializeRow hdecode)
    · exact row.forgetHash
    · rw [take_append_drop]
      apply reads_readRow hrow
  rw [take_of_length_le (drop_eq_nil_iff.mp hend)] at hdecode
  rw [hend] at hrest
  obtain rfl := ok.inj hrest
  have hall := reads_readRow hrow []
  rw [append_nil, readRow_of_deserializeRow hdecode] at hall
  rw [forall₂_nil_left_iff.mp hrows, (Prod.mk.inj (some.inj hall)).1]

/-- What is read from the runs of some rows is the rows without their hashes. -/
theorem readSpilledRows_map_framedRow {read : List RelationalRow}
    (hrows : ∀ row ∈ rows, row.Writable)
    (h : readSpilledRows (rows.map framedRow) granted = .ok read) :
  read = rows.map RelationalRow.forgetHash
  := by
  obtain ⟨parts, hparts, h⟩ := bind_eq_ok_iff.mp h
  rw [← ok.inj h]
  have hall := mapM_eq_ok_iff.mp hparts
  clear * - hrows hall
  rw [forall₂_map_left_iff] at hall
  induction hall with
  | nil => rfl
  | @cons row part rows parts hpart _ ih =>
    obtain ⟨hrow, hrows⟩ := forall_mem_cons.mp hrows
    rw [flatten_cons, deserializeRows_framedRow hrow hpart, ih hrows]
    rfl

end Relational

end Cedar
