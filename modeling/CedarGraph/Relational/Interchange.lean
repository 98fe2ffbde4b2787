import CedarGraph.Relational.JoinEquivalence
import CedarGraph.Relational.TemporalCount

/-!
# Exchanging join algorithms

The algorithms for joins may be exchanged for one another.  The ones which write rows to scratch
lose cells of a row with too many of them: the count of a frame and its size have 32 bits, and the
bytes which follow may happen to be frames of their own.
-/

namespace Cedar

open List QueryType StatusOr LessSort

open ByteCodec

namespace Relational

/-- The algorithms for joins. -/
inductive JoinAlgorithm where
  | indexNestedLoop
  | hash
  | externalHash
  | sortMerge
  | externalSortMerge
  deriving DecidableEq

/-- The join of an input by an algorithm. -/
def JoinAlgorithm.run (std : StdHash) (sorter : LessSort RelationalRow) :
    JoinAlgorithm → JoinInput → Budget → StatusOr BatchStream
  | .indexNestedLoop => indexNestedLoopJoin
  | .hash => hashJoinInMemory std
  | .externalHash => externalHashJoin std
  | .sortMerge => sortMergeJoinInMemory sorter
  | .externalSortMerge => externalSortMergeJoin std sorter

/-- The rows which an algorithm reads from scratch and joins. -/
def JoinAlgorithm.readsBack (std : StdHash) : JoinAlgorithm → JoinInput → List RelationalRow
  | .externalHash, input => probedRows std input
  | .externalSortMerge, input => input.left.rows ++ probedRows std input
  | .indexNestedLoop, _ | .hash, _ | .sortMerge, _ => []

section Run

variable {std : StdHash} {sorter : LessSort RelationalRow} {input : JoinInput}

/-- Every algorithm produces the rows of the nested loops. -/
theorem sameRows_of_run (hinput : input.WellTyped) {algorithm : JoinAlgorithm}
    (hfit : ∀ row ∈ algorithm.readsBack std input, row.cells.length < 2 ^ 32)
    {budget : Budget} {out : BatchStream} (h : algorithm.run std sorter input budget = .ok out) :
  SameRows out.rows (nestedLoops input input.left.rows input.right.rows)
  := by
  have hright : ∀ row ∈ probedRows std input, row.cells.length < 2 ^ 32 → row.Writable :=
    fun row hrow hcount => ⟨hinput.right row (mem_of_mem_filter hrow), hcount⟩
  cases algorithm with
  | indexNestedLoop =>
    obtain ⟨_, _, h⟩ := bind_eq_ok_iff.mp h
    rw [rows_of_joinOutput h]
    apply Perm.refl
  | hash =>
    rw [rows_of_hashJoinInMemory h]
    apply (Perm.flatMap_left _ fun _ _ => joinRow_perm (reverse_perm _)).map
  | externalHash =>
    rw [rows_of_externalHashJoin (fun row hrow => hright row hrow (hfit row hrow)) h]
    apply Perm.refl
  | sortMerge =>
    apply (rows_of_sortMergeJoinInMemory hinput.keyed_left hinput.keyed_right h).map
  | externalSortMerge =>
    obtain ⟨hlefts, hrights⟩ := forall_mem_append.mp hfit
    apply rows_of_externalSortMergeJoin hinput (forall_mem_append.mpr ⟨_, _⟩) h
    · exact fun row hrow => ⟨hinput.left row hrow, hlefts row hrow⟩
    · exact fun row hrow => hright row hrow (hrights row hrow)

/-- Whatever algorithms are used, and with whatever memory they succeed, they produce the same rows,
if the rows which they read from scratch have fewer cells than the count of a frame can tell. -/
theorem JoinAlgorithm.run_sameRows (hinput : input.WellTyped) (first second : JoinAlgorithm)
    (hfit : ∀ row ∈ first.readsBack std input ++ second.readsBack std input,
      row.cells.length < 2 ^ 32)
    {budget budget' : Budget} {out out' : BatchStream}
    (h : first.run std sorter input budget = .ok out)
    (h' : second.run std sorter input budget' = .ok out') :
  SameRows out.rows out'.rows
  := by
  obtain ⟨hfirst, hsecond⟩ := forall_mem_append.mp hfit
  apply (sameRows_of_run hinput hfirst h).trans (sameRows_of_run hinput hsecond h').symm

end Run

def sevenCell : RelationalCell := ⟨.int64, true, .int64 7⟩

def textCell (bytes : List UInt8) : RelationalCell := ⟨.string, true, .string bytes⟩

/-- Two rows with one key, and one whose key is missing, joined with a row with that key and one
whose key is missing. -/
def smallInput : JoinInput :=
  ⟨{ rows := [{ cells := [sevenCell] }, { cells := [{ type := .int64 }] }] },
    { rows := [{ cells := [sevenCell, textCell [97]] }, { cells := [{ type := .int64 }] },
      { cells := [sevenCell, textCell [98]] }] }, 0, 0, .inner⟩

/-- The output of the join of these rows. -/
def smallOutput (first second : List UInt8) : List RelationalRow :=
  [{ cells := [sevenCell, sevenCell, textCell first] },
    { cells := [sevenCell, sevenCell, textCell second] }]

theorem wellTyped_smallInput :
  smallInput.WellTyped
  := by
  constructor <;> simp [smallInput, sevenCell, textCell, cell, RelationalCell.WellTyped,
    RelationalScalar.HasType]

open JoinAlgorithm

/-- The join in memory and the spilled one produce the two rows, in different orders. -/
theorem smallInput_sameRows :
  JoinAlgorithm.hash.run constantHash (LessSort.insertion _) smallInput ⟨true, true, 2⟩ =
      .ok { rows := smallOutput [98] [97] } ∧
    JoinAlgorithm.externalSortMerge.run constantHash (LessSort.insertion _) smallInput
      ⟨true, true, 2⟩ = .ok { rows := smallOutput [97] [98], orderSpecified := true } ∧
    SameRows (smallOutput [98] [97]) (smallOutput [97] [98])
  := by
  have hhash : hash.run constantHash (insertion _) smallInput
      ⟨true, true, 2⟩ = .ok { rows := smallOutput [98] [97] } := by decide +kernel
  have hspilled : externalSortMerge.run constantHash (insertion _)
      smallInput ⟨true, true, 2⟩ =
        .ok { rows := smallOutput [97] [98], orderSpecified := true } := by decide +kernel
  exact ⟨hhash, hspilled, run_sameRows wellTyped_smallInput .hash .externalSortMerge
    (by decide +kernel) hhash hspilled⟩

/-! ### The order of the rows -/

/-- The cells of the right rows which match a left row. -/
def matchedCells (input : JoinInput) (left : RelationalRow) : List (List RelationalCell) :=
  (input.right.rows.filter (rowsMatch input left)).map RelationalRow.cells

/-- The rows for a left row do not depend on the order of the matches, unless they have the cells of
these. -/
theorem joinRow_reverse_iff (kind : JoinKind) (left : RelationalRow) (found : List RelationalRow) :
  joinRow kind left found = joinRow kind left found.reverse ↔
    kind = .inner → (found.map RelationalRow.cells).reverse = found.map RelationalRow.cells
  := by
  cases kind with
  | inner =>
    have hcombine : combine left =
        (fun cells => { left with cells := left.cells ++ cells }) ∘ RelationalRow.cells := rfl
    have hinjective : Function.Injective fun cells =>
        ({ left with cells := left.cells ++ cells } : RelationalRow) := by
      intro cells cells' h
      apply append_cancel_left (congrArg RelationalRow.cells h)
    simp only [joinRow, true_imp_iff]
    rw [hcombine, ← map_map, ← map_map, (map_injective_iff.mpr hinjective).eq_iff, map_reverse,
      eq_comm]
  | semi | anti => simp [joinRow]

/-- The spilled hash join returns the rows in the order of the join in memory exactly if the matches
of every left row read the same in both directions, or are not returned. -/
theorem externalHashJoin_sameOrder_iff {std : StdHash} {input : JoinInput}
    {budget budget' : Budget} {out out' : BatchStream}
    (h : hashJoinInMemory std input budget = .ok out)
    (h' : externalHashJoin std input budget' = .ok out')
    (hrights : ∀ row ∈ input.right.rows, row.Writable) :
  out'.rows = out.rows ↔ (input.kind = .inner →
    ∀ left ∈ input.left.rows, (matchedCells input left).reverse = matchedCells input left)
  := by
  rw [rows_of_externalHashJoin (fun row hrow => hrights row (mem_of_mem_filter hrow)) h',
    rows_of_hashJoinInMemory h, nestedLoops, flatMap_eq_flatMap_iff]
  · simp only [joinRow_reverse_iff]
    constructor
    · intro h hkind left hleft
      apply h left hleft hkind
    · intro h left hleft hkind
      apply h hkind left hleft
  · intro left _
    apply (joinRow_perm (reverse_perm _).symm).length_eq

/-- A semijoin returns its row either way. -/
theorem smallInput_semi_sameOrder :
  ∃ out out', hashJoinInMemory constantHash { smallInput with kind := .semi } ⟨true, true, 2⟩ =
      .ok out ∧
    externalHashJoin constantHash { smallInput with kind := .semi } ⟨true, true, 2⟩ = .ok out' ∧
    out'.rows = out.rows
  := by
  have hhash : hashJoinInMemory constantHash { smallInput with kind := .semi } ⟨true, true, 2⟩ =
      .ok { rows := [{ cells := [sevenCell] }] } := by decide +kernel
  have hspilled : externalHashJoin constantHash { smallInput with kind := .semi }
      ⟨true, true, 2⟩ = .ok { rows := [{ cells := [sevenCell] }] } := by decide +kernel
  exact ⟨_, _, hhash, hspilled,
    (externalHashJoin_sameOrder_iff hhash hspilled
      fun row hrow => ⟨wellTyped_smallInput.right row hrow, by revert row; decide +kernel⟩).mpr
        (by simp)⟩

/-- The inner join returns the two rows in different orders. -/
theorem smallInput_otherOrder :
  hashJoinInMemory constantHash smallInput ⟨true, true, 2⟩ =
      .ok { rows := smallOutput [98] [97] } ∧
    externalHashJoin constantHash smallInput ⟨true, true, 2⟩ =
      .ok { rows := smallOutput [97] [98] } ∧
    smallOutput [97] [98] ≠ smallOutput [98] [97]
  := by decide +kernel

/-! ### A row with too many cells -/

/-- Bytes after their number. -/
def frameBytes (frame : List UInt8) : List UInt8 :=
  putWord 4 frame.length ++ frame

/-- The bytes pass the checks of a frame. -/
structure Scannable (frame : List UInt8) : Prop where
  lower : 5 ≤ frame.length
  upper : frame.length < 2 ^ 32
  header : ∃ count flag rest body, getWord 4 frame = some (count, rest) ∧
    getBool rest = some (flag, body) ∧ count ≤ body.length / 2

theorem scanFrame_frameBytes {frame : List UInt8} (h : Scannable frame) (rest : List UInt8) :
  scanFrame (frameBytes frame ++ rest) = .ok (frame, rest)
  := by
  obtain ⟨count, flag, front, body, hcount, hflag, hle⟩ := h.header
  have hupper : frame.length < 256 ^ 4 := by
    have := h.upper
    omega
  have hsize : readOr (getWord 4) (frameBytes frame ++ rest) "invalid spilled row framing" =
      .ok (frame.length, frame ++ rest) := by
    rw [readOr_eq_ok_iff, frameBytes, append_assoc]
    apply reads_getWord hupper
  have hlower := h.lower
  rw [scanFrame, hsize, ok_bind]
  dsimp only
  rw [if_neg (by rw [length_append]; omega), if_neg (by omega), take_left,
    drop_left, readOr_eq_ok_iff.mpr hcount, ok_bind]
  dsimp only
  rw [readOr_eq_ok_iff.mpr hflag, ok_bind]
  dsimp only
  rw [if_neg (by omega)]
  rfl

variable {frames : List (List UInt8)} {n : Nat}

/-- Frames are found one after another. -/
theorem scanFrames_frameBytes (h : ∀ frame ∈ frames, Scannable frame) {fuel : Nat}
    (hfuel : frames.length ≤ fuel) :
  scanFrames fuel (frames.flatMap frameBytes) = .ok frames
  := by
  induction frames generalizing fuel with
  | nil => apply scanFrames_nil
  | cons frame frames ih =>
    obtain ⟨hframe, hframes⟩ := forall_mem_cons.mp h
    obtain ⟨fuel, rfl⟩ : ∃ n, fuel = n + 1 := ⟨fuel - 1, by rw [length_cons] at hfuel; omega⟩
    have hne : (frame :: frames).flatMap frameBytes ≠ [] := cons_ne_nil _ _
    rw [scanFrames_succ _ hne, flatMap_cons, scanFrame_frameBytes hframe, ok_bind,
      ih hframes (Nat.le_of_succ_le_succ hfuel), ok_bind]

theorem length_le_length_flatMap_frameBytes (frames : List (List UInt8)) :
  frames.length ≤ (frames.flatMap frameBytes).length
  := by
  induction frames with
  | nil => apply Nat.le_refl
  | cons frame frames ih =>
    rw [flatMap_cons, length_append, frameBytes, length_append, length_putWord,
      length_cons]
    omega

/-- Bytes which are a missing cell and a text, without the first one. -/
def swallowedText : List UInt8 :=
  0 :: serializeCell ⟨.binary, true, .binary (List.replicate 229 0)⟩

/-- Four cells whose bytes are a frame. -/
def frameCells : List RelationalCell :=
  [⟨.bool, true, .bool false⟩, { type := .int64 }, { type := .bool },
    ⟨.binary, true, .binary swallowedText⟩]

/-- The frame which these bytes are. -/
def cellsFrame : List UInt8 := (frameCells.flatMap serializeCell).drop 4

/-- The row which is read from that frame. -/
def strayRow : RelationalRow :=
  { cells := [{ type := .bool }, ⟨.binary, true, .binary (List.replicate 229 0)⟩]
    effective := some ⟨0xf10701, none⟩ }

/-- A key, and cells which are as many frames. -/
def wideRow (n : Nat) : RelationalRow :=
  { cells := sevenCell :: (List.replicate n frameCells).flatten }

/-- What remains of such a row. -/
def narrowRow : RelationalRow := { cells := [sevenCell] }

/-- The frame and the narrow row, evaluated. -/
theorem cellsFrame_narrowRow :
  (frameCells.flatMap serializeCell = frameBytes cellsFrame ∧
      (frameBytes cellsFrame).length = 260 ∧ deserializeRow cellsFrame = .ok strayRow ∧
        swallowedText.length < 2 ^ 64) ∧
    (serializeRow narrowRow).length = 16 ∧
      deserializeRow (serializeRow narrowRow) = .ok narrowRow
  := by
  decide +kernel

theorem flatMap_replicate_frameCells (n : Nat) :
  (replicate n frameCells).flatten.flatMap serializeCell =
    (replicate n cellsFrame).flatMap frameBytes
  := by
  induction n with
  | zero => rfl
  | succ n ih =>
    rw [replicate_succ, replicate_succ, flatten_cons, flatMap_append, ih,
      flatMap_cons, cellsFrame_narrowRow.1.1]

theorem length_frameCells (n : Nat) :
  (replicate n frameCells).flatten.length = 4 * n
  := by
  simp [frameCells, Nat.mul_comm]

theorem length_flatMap_cellsFrame (n : Nat) :
  ((replicate n cellsFrame).flatMap frameBytes).length = 260 * n
  := by
  simp [flatMap_replicate, cellsFrame_narrowRow.1.2.1, Nat.mul_comm]

/-- The bytes of the wide row are the ones of the narrow one, and of stray frames. -/
theorem framedRow_wideRow (hn : 4 * n % 2 ^ 32 = 0) :
  framedRow (wideRow n) =
    (serializeRow narrowRow :: replicate n cellsFrame).flatMap frameBytes
  := by
  have hrow : serializeRow (wideRow n) =
      serializeRow narrowRow ++ (replicate n cellsFrame).flatMap frameBytes := by
    have hcount : putWord 4 (wideRow n).cells.length = putWord 4 narrowRow.cells.length := by
      rw [← putWord_mod]
      have hlength : (wideRow n).cells.length % 256 ^ 4 = 1 := by
        rw [wideRow, length_cons, length_frameCells]
        omega
      rw [hlength]
      rfl
    rw [serializeRow, hcount, serializeRow, wideRow, flatMap_cons,
      flatMap_replicate_frameCells, append_assoc, append_assoc]
    rfl
  have hsize : putWord 4 (serializeRow (wideRow n)).length =
      putWord 4 (serializeRow narrowRow).length := by
    rw [← putWord_mod, hrow, length_append, cellsFrame_narrowRow.2.1, length_flatMap_cellsFrame]
    congr 1
    omega
  rw [framedRow, hsize, hrow, flatMap_cons, frameBytes, append_assoc]

/-- Of a wide row, only its key is read. -/
theorem deserializeRows_wideRow (hn : 4 * n % 2 ^ 32 = 0) :
  deserializeRows (framedRow (wideRow n)) true = .ok (narrowRow :: replicate n strayRow)
  := by
  rw [framedRow_wideRow hn]
  rw [deserializeRows, scanFrames_frameBytes _ (length_le_length_flatMap_frameBytes _), ok_bind,
    if_neg (by decide)]
  · apply mapM_eq_ok_iff.mpr (.cons cellsFrame_narrowRow.2.2 _)
    clear hn
    induction n with
    | zero => exact .nil
    | succ n ih => exact .cons cellsFrame_narrowRow.1.2.2.1 ih
  · intro frame hframe
    obtain rfl | hframe := mem_cons.mp hframe
    · refine ⟨by decide +kernel, by decide +kernel, 1, false, (serializeRow narrowRow).drop 4,
        (serializeRow narrowRow).drop 5, ?_⟩
      decide +kernel
    · rw [eq_of_mem_replicate hframe]
      refine ⟨by decide +kernel, by decide +kernel, 2, true, cellsFrame.drop 4,
        cellsFrame.drop 5, ?_⟩
      decide +kernel

/-- The narrow row, joined with a wide one. -/
def wideInput (n : Nat) : JoinInput :=
  ⟨{ rows := [narrowRow] }, { rows := [wideRow n] }, 0, 0, .inner⟩

def oneRowBudget : Budget := ⟨true, true, 1⟩

theorem wellTyped_wideInput (n : Nat) :
  (wideInput n).WellTyped
  := by
  have hseven : sevenCell.WellTyped := trivial
  have hframe : ∀ cell ∈ frameCells, cell.WellTyped := by
    simp only [frameCells, forall_mem_cons]
    refine ⟨trivial, rfl, rfl, ?_, fun _ h => by cases h⟩
    exact cellsFrame_narrowRow.1.2.2.2
  constructor
  · intro row hrow cell hcell
    obtain rfl := mem_singleton.mp hrow
    obtain rfl := mem_singleton.mp hcell
    exact hseven
  · intro row hrow cell hcell
    obtain rfl := mem_singleton.mp hrow
    obtain rfl | hcell := mem_cons.mp hcell
    · exact hseven
    · obtain ⟨cells, hcells, hcell⟩ := mem_flatten.mp hcell
      rw [eq_of_mem_replicate hcells] at hcell
      exact hframe cell hcell
  · intro row hrow _
    obtain rfl := mem_singleton.mp hrow
    exact ⟨noConfusion, noConfusion⟩
  · intro row hrow _
    obtain rfl := mem_singleton.mp hrow
    exact ⟨noConfusion, noConfusion⟩

theorem indexNestedLoopJoin_wideInput (n : Nat) :
  indexNestedLoopJoin (wideInput n) oneRowBudget =
    .ok { rows := [combine narrowRow (wideRow n)] }
  := rfl

theorem readSpilledRows_wideRow (std : StdHash) (hn : 4 * n % 2 ^ 32 = 0) (partition : Nat) :
  readSpilledRows (partitionRuns std (wideInput n).right (wideInput n).rightKey partition) true =
    .ok (if partitionOf std sevenCell = partition then narrowRow :: replicate n strayRow
      else [])
  := by
  have hruns : partitionRuns std (wideInput n).right (wideInput n).rightKey partition =
      if partitionOf std sevenCell = partition then [framedRow (wideRow n)] else [] := by
    have hcell : cell (wideRow n) 0 = sevenCell := rfl
    simp only [partitionRuns, wideInput]
    split <;> simp_all
  rw [hruns]
  split
  · rw [readSpilledRows, mapM_cons, deserializeRows_wideRow hn]
    simp
  · rfl

theorem partitionMatches_wideInput (std : StdHash) (n : Nat) :
  partitionMatches std (wideInput n) (narrowRow :: replicate n strayRow) narrowRow =
    [narrowRow]
  := by
  have hnarrow : rowsMatch (wideInput n) narrowRow narrowRow = true := rfl
  unfold partitionMatches
  rw [filter_cons, if_pos (by exact decide_eq_true rfl), filter_cons_of_pos hnarrow,
    filter_eq_nil_iff.mpr]
  intro row hrow
  rw [eq_of_mem_replicate (mem_of_mem_filter hrow)]
  exact Bool.false_ne_true

theorem externalHashJoin_wideInput (std : StdHash) (hn : 4 * n % 2 ^ 32 = 0) :
  externalHashJoin std (wideInput n) oneRowBudget =
    .ok { rows := [combine narrowRow narrowRow] }
  := by
  have hread : (range partitionCount).mapM (fun partition =>
      readSpilledRows (partitionRuns std (wideInput n).right (wideInput n).rightKey partition)
        oneRowBudget.scratch) = .ok ((range partitionCount).map fun partition =>
      if partitionOf std sevenCell = partition then narrowRow :: replicate n strayRow
      else []) := by
    apply mapM_eq_ok_iff.mpr
    rw [forall₂_map_right_iff, forall₂_same]
    exact fun partition _ => readSpilledRows_wideRow std hn partition
  have hget : ((range partitionCount).map fun partition =>
      if partitionOf std sevenCell = partition then narrowRow :: replicate n strayRow
      else []).getD (partitionOf std sevenCell) [] = narrowRow :: replicate n strayRow := by
    rw [getD_eq_getElem _ _ (by simpa using partitionOf_lt std sevenCell)]
    simp
  rw [externalHashJoin, hread, ok_bind]
  have hrows : ((wideInput n).left.rows.flatMap fun left =>
      joinRow (wideInput n).kind left (partitionMatches std (wideInput n)
        (((range partitionCount).map fun partition =>
          if partitionOf std sevenCell = partition then narrowRow :: replicate n strayRow
          else []).getD (partitionOf std (cell left (wideInput n).leftKey)) []) left)) =
      [combine narrowRow narrowRow] := by
    change joinRow _ narrowRow (partitionMatches std (wideInput n)
      (getD _ (partitionOf std sevenCell) []) narrowRow) ++ [] = _
    rw [hget, partitionMatches_wideInput]
    rfl
  rw [hrows]
  rfl

/-- The joins of a wide row differ. -/
theorem exists_run_not_sameRows (hn : 4 * n % 2 ^ 32 = 0) (hpos : 0 < n) :
  ∃ out out',
    indexNestedLoop.run constantHash (insertion _) (wideInput n)
      oneRowBudget = .ok out ∧
    externalHash.run constantHash (insertion _) (wideInput n)
      oneRowBudget = .ok out' ∧
    ¬SameRows out.rows out'.rows
  := by
  refine ⟨_, _, indexNestedLoopJoin_wideInput n, externalHashJoin_wideInput constantHash hn,
    fun h => ?_⟩
  have hrow := singleton_perm_singleton.mp h
  have hlength := congrArg (fun row => row.cells.length) hrow
  have hwide := length_frameCells n
  simp only [combine, wideRow, narrowRow, RelationalRow.forgetHash, length_append,
    length_cons, length_nil] at hlength
  omega

/-- The spilled join of a row of more than `2 ^ 32` cells loses most of them. -/
theorem wideInput_loses_cells :
  (wideInput (2 ^ 30)).WellTyped ∧ ∃ out out',
    JoinAlgorithm.indexNestedLoop.run constantHash (LessSort.insertion _) (wideInput (2 ^ 30))
      oneRowBudget = .ok out ∧
    JoinAlgorithm.externalHash.run constantHash (LessSort.insertion _) (wideInput (2 ^ 30))
      oneRowBudget = .ok out' ∧
    ¬SameRows out.rows out'.rows
  := by
  have hn : 4 * 2 ^ 30 % 2 ^ 32 = 0 := by norm_num
  have hpos : 0 < 2 ^ 30 := by norm_num
  exact ⟨wellTyped_wideInput _, exists_run_not_sameRows hn hpos⟩

end Relational

end Cedar
