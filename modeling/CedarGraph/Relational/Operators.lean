import CedarGraph.Lib.Sorting
import CedarGraph.Relational.Row

/-!
# Relational operators

The operators on streams of rows: union, removal of duplicates, sorting, limits, and the joins
which keep their inputs in memory.  An operator asks for memory before it produces its rows; what
it is answered is a parameter here, and so is the sorting routine of the standard library.
-/

namespace Cedar

/-- A stream of rows. -/
structure BatchStream where
  rows : List RelationalRow
  orderSpecified : Bool := false
  deriving DecidableEq

/-- The answers to the requests of an operator. -/
structure Budget where
  /-- The working memory is granted. -/
  scratch : Bool
  /-- The memory of the output is granted. -/
  output : Bool
  /-- The rows which the operator may produce. -/
  maxOutputRows : Nat

namespace Relational

def memoryExhausted {α : Type} : StatusOr α :=
  Status.resourceExhausted "query relational" "memory_bytes"

def outputRowsExhausted {α : Type} : StatusOr α :=
  Status.resourceExhausted "query" "output row budget exceeded"

def needsSpill {α : Type} : StatusOr α :=
  Status.resourceExhausted "query relational" "NeedsSpill"

/-! ### Union, duplicates, limits -/

/-- The rows of one stream after those of another. -/
def unionAll (left right : BatchStream) (budget : Budget) : StatusOr BatchStream :=
  if left.rows.length + right.rows.length > budget.maxOutputRows then outputRowsExhausted
  else if !budget.output then memoryExhausted
  else .ok { rows := left.rows ++ right.rows }

/-- The rows which are kept so far, by hash.  A bucket has its rows in order. -/
abbrev SeenRows : Type := List RelationalRow

/-- The rows of a stream which are new, each compared with those which have its hash and have been
kept before. -/
def distinctRows (std : StdHash) : SeenRows → List RelationalRow → List RelationalRow
  | _, [] => []
  | seen, row :: rows =>
      let candidates := seen.filter fun previous => previous.hashRow std = row.hashRow std
      if candidates.any fun previous => previous.eq row then
        distinctRows std seen rows
      else
        row.rememberHash std :: distinctRows std (seen ++ [row.rememberHash std]) rows

/-- The rows of a stream without duplicates. -/
def distinct (std : StdHash) (input : BatchStream) (budget : Budget) : StatusOr BatchStream :=
  let rows := distinctRows std [] input.rows
  if rows.length > budget.maxOutputRows then outputRowsExhausted
  else if !budget.output then memoryExhausted
  else .ok { rows := rows }

/-- Some rows of a stream from a position on. -/
def limit (input : BatchStream) (offset count : Nat) (budget : Budget) : StatusOr BatchStream :=
  let rows := (input.rows.drop offset).take count
  if rows.length > budget.maxOutputRows then outputRowsExhausted
  else if !budget.output then memoryExhausted
  else .ok { rows := rows, orderSpecified := input.orderSpecified }

/-! ### Sorting -/

inductive SortDirection where
  | ascending
  | descending
  deriving DecidableEq

structure SortKey where
  column : Nat
  direction : SortDirection := .ascending

/-- The cell of a row in a column.  The columns are checked before they are used. -/
def cell (row : RelationalRow) (column : Nat) : RelationalCell :=
  row.cells.getD column {}

/-- A row comes before another one in the order of the keys. -/
def rowLess : List SortKey → RelationalRow → RelationalRow → Bool
  | [], _, _ => false
  | key :: keys, left, right =>
      match (cell left key.column).compare (cell right key.column) with
      | .eq => rowLess keys left right
      | .lt => key.direction = .ascending
      | .gt => key.direction = .descending

/-- The rows have the columns of the keys, each with one type. -/
def validateSort (input : BatchStream) (keys : List SortKey) : Status :=
  if input.rows.any fun row => keys.any fun key => row.cells.length ≤ key.column then
    Status.invalidArgument "relational sort" "sort column is out of range"
  else if keys.any fun key => input.rows.any fun row =>
      (input.rows.head?.map fun first => (cell first key.column).type) ≠
        some (cell row key.column).type then
    Status.invalidArgument "relational sort" "sort column types differ"
  else
    .ok ()

/-- The number which orders the values of a column of fixed width, if there is one.  The source
throws on a cell whose value is not of its type. -/
def fixedWidthKey (row : RelationalRow) (key : SortKey) : Option UInt64 := do
  let cell ← row.cells[key.column]?
  guard cell.present
  let value ← match cell.type, cell.value with
    | .int32, .int32 value => some (value.toUInt32 ^^^ 0x80000000).toUInt64
    | .int64, .int64 value => some (value.toUInt64 ^^^ 0x8000000000000000)
    | .timestamp64, .timestamp value => some value
    | .validTime, .validTime value => some value
    | .validDuration, .validDuration value => some value
    | .commitSeq, .commitSeq value => some value
    | _, _ => none
  return match key.direction with
    | .ascending => value
    | .descending => ~~~value

/-- One pass of the radix sort: the rows by one byte of their numbers, ties in order. -/
def radixPass (shift : UInt64) (rows : List (UInt64 × RelationalRow)) :
    List (UInt64 × RelationalRow) :=
  (List.range 256).flatMap fun byte =>
    rows.filter fun row => ((row.1 >>> shift) &&& 0xff).toNat = byte

/-- The rows sorted by the numbers of one column, if all of them have one. -/
def tryFixedWidthRadixSort (rows : List RelationalRow) (key : SortKey) :
    Option (List RelationalRow) := do
  let keyed ← rows.mapM fun row => (fixedWidthKey row key).map fun value => (value, row)
  return ([0, 8, 16, 24, 32, 40, 48, 56].foldl (fun rows shift => radixPass shift rows)
    keyed).map Prod.snd

/-- The rows in the order of the keys. -/
def sort (sorter : LessSort RelationalRow) (input : BatchStream) (keys : List SortKey)
    (budget : Budget) : StatusOr BatchStream := do
  validateSort input keys
  if input.rows.length > budget.maxOutputRows then outputRowsExhausted
  else if !budget.output then needsSpill
  else
    let rows := match keys with
      | [key] => (tryFixedWidthRadixSort input.rows key).getD
          (sorter.sort (rowLess keys) input.rows)
      | _ => sorter.sort (rowLess keys) input.rows
    return { rows := rows, orderSpecified := true }

/-! ### Joins in memory -/

inductive JoinKind where
  | inner
  | semi
  | anti
  deriving DecidableEq

structure JoinInput where
  left : BatchStream
  right : BatchStream
  leftKey : Nat
  rightKey : Nat
  kind : JoinKind

def validateKey (stream : BatchStream) (key : Nat) : Status :=
  if stream.rows.any fun row => row.cells.length ≤ key then
    Status.invalidArgument "relational operator" "key column is out of range"
  else
    .ok ()

/-- The type of the first key which is present. -/
def expectedType (input : JoinInput) : Option QueryType :=
  ((input.left.rows.map fun row => cell row input.leftKey) ++
    input.right.rows.map fun row => cell row input.rightKey).find? (·.present) |>.map (·.type)

/-- The rows have the columns of the keys, and those which are present have one type. -/
def validateJoin (input : JoinInput) : Status := do
  validateKey input.left input.leftKey
  validateKey input.right input.rightKey
  match expectedType input with
  | none => .ok ()
  | some expected =>
      let differs := fun (key : Nat) (row : RelationalRow) =>
        (cell row key).present && (cell row key).type ≠ expected
      if input.left.rows.any (differs input.leftKey) then
        Status.invalidArgument "relational join" "join key types differ"
      else if input.right.rows.any (differs input.rightKey) then
        Status.invalidArgument "relational join" "join key types differ"
      else
        .ok ()

/-- The cells of two rows, with the interval and the remembered hash of the left one. -/
def combine (left right : RelationalRow) : RelationalRow :=
  { left with cells := left.cells ++ right.cells }

/-- The rows which a join produces for a left row from the right rows that match it. -/
def joinRow (kind : JoinKind) (left : RelationalRow) (found : List RelationalRow) :
    List RelationalRow :=
  match kind with
  | .inner => found.map (combine left)
  | .semi => if found = [] then [] else [left]
  | .anti => if found = [] then [left] else []

/-- The keys of two rows match. -/
def rowsMatch (input : JoinInput) (left right : RelationalRow) : Bool :=
  (cell left input.leftKey).keysEqual (cell right input.rightKey)

/-- The output of a join, if its rows are within the budget. -/
def joinOutput (rows : List RelationalRow) (orderSpecified : Bool) (budget : Budget)
    (refused : StatusOr BatchStream) : StatusOr BatchStream :=
  if rows.length > budget.maxOutputRows then outputRowsExhausted
  else if !budget.output then refused
  else .ok { rows := rows, orderSpecified := orderSpecified }

/-- The join which compares every left row with every right row. -/
def indexNestedLoopJoin (input : JoinInput) (budget : Budget) : StatusOr BatchStream := do
  validateJoin input
  let rows := input.left.rows.flatMap fun left =>
    joinRow input.kind left (input.right.rows.filter (rowsMatch input left))
  joinOutput rows false budget memoryExhausted

/-- The number of buckets for some entries: a power of two, at least twice their number. -/
def hashBucketCount (entries : Nat) : Nat :=
  Nat.nextPowerOfTwo (entries * 2)

/-- The bucket of a key. -/
def bucketOf (std : StdHash) (buckets : Nat) (key : RelationalCell) : UInt64 :=
  hashCell std key &&& (.ofNat (buckets - 1))

/-- The chains of the buckets, the last entry first.  Missing keys have no entry. -/
def buildTable (std : StdHash) (buckets : Nat) (key : Nat) :
    List RelationalRow → (UInt64 → List RelationalRow) → UInt64 → List RelationalRow
  | [], table => table
  | row :: rows, table =>
      if !(cell row key).present then buildTable std buckets key rows table
      else
        let bucket := bucketOf std buckets (cell row key)
        buildTable std buckets key rows fun b => if b = bucket then row :: table b else table b

/-- The join which looks the left rows up in a table of the right rows. -/
def hashJoinInMemory (std : StdHash) (input : JoinInput) (budget : Budget) :
    StatusOr BatchStream := do
  validateJoin input
  if !budget.scratch then needsSpill
  else
    let buckets := hashBucketCount input.right.rows.length
    let table := buildTable std buckets input.rightKey input.right.rows fun _ => []
    let rows := input.left.rows.flatMap fun left =>
      let key := cell left input.leftKey
      let chain := if key.present then table (bucketOf std buckets key) else []
      joinRow input.kind left (chain.filter (rowsMatch input left))
    joinOutput rows false budget needsSpill

/-- The rows of the join of two groups of rows, each with one key. -/
def joinGroups (input : JoinInput) (left right : List RelationalRow) : List RelationalRow :=
  match left.head?, right.head? with
  | some first, some second =>
      if rowsMatch input first second then
        match input.kind with
        | .inner => left.flatMap fun row => right.map (combine row)
        | .semi => left
        | .anti => []
      else if input.kind = .anti then left else []
  | _, _ => []

/-- The rows which follow a row and have its key. -/
def sameKey (key : Nat) (row : RelationalRow) (rows : List RelationalRow) : List RelationalRow :=
  rows.takeWhile fun other => (cell row key).compare (cell other key) = .eq

/-- The rows after those which have the key of a row. -/
def afterKey (key : Nat) (row : RelationalRow) (rows : List RelationalRow) : List RelationalRow :=
  rows.dropWhile fun other => (cell row key).compare (cell other key) = .eq

theorem length_afterKey_le (key : Nat) (row : RelationalRow) (rows : List RelationalRow) :
  (afterKey key row rows).length ≤ rows.length
  := (List.dropWhile_sublist _).length_le

/-- The merge of the sorted inputs of a join. -/
def mergeRows (input : JoinInput) : List RelationalRow → List RelationalRow → List RelationalRow
  | [], _ => []
  | left, [] => if input.kind = .anti then left else []
  | left :: lefts, right :: rights =>
      match (cell left input.leftKey).compare (cell right input.rightKey) with
      | .lt =>
          (if input.kind = .anti then [left] else []) ++ mergeRows input lefts (right :: rights)
      | .gt => mergeRows input (left :: lefts) rights
      | .eq =>
          joinGroups input (left :: sameKey input.leftKey left lefts)
              (right :: sameKey input.rightKey right rights) ++
            mergeRows input (afterKey input.leftKey left lefts)
              (afterKey input.rightKey right rights)
  termination_by left right => left.length + right.length
  decreasing_by
    all_goals simp only [List.length_cons]
    · omega
    · omega
    · have hleft := length_afterKey_le input.leftKey left lefts
      have hright := length_afterKey_le input.rightKey right rights
      omega

/-- A row has a lesser key than another one. -/
def keyLess (key : Nat) (left right : RelationalRow) : Bool :=
  (cell left key).compare (cell right key) = .lt

/-- The join which sorts its inputs and merges them. -/
def sortMergeJoinInMemory (sorter : LessSort RelationalRow) (input : JoinInput) (budget : Budget) :
    StatusOr BatchStream := do
  validateJoin input
  if !budget.scratch then needsSpill
  else
    let rows := mergeRows input (sorter.sort (keyLess input.leftKey) input.left.rows)
      (sorter.sort (keyLess input.rightKey) input.right.rows)
    joinOutput rows true budget needsSpill

end Relational

end Cedar
