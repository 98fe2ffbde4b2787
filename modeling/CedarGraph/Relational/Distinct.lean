import CedarGraph.Relational.RowHashes

/-!
# Duplicates in the outputs of operators

Expressions combine base streams by the relational operators.  An operator copies the rows of its
inputs, with the hashes which they remember, and the removal of duplicates makes the rows of its
input remember their hashes.  A row which is combined from another one or clipped keeps the hash of
that row, so that equal rows may have different hashes.
-/

namespace Cedar

open List RelationalRow StatusOr

namespace Relational

variable {std : StdHash} {rows seen : List RelationalRow} {row : RelationalRow}

/-! ### First occurrences -/

/-- The rows of which no equal row has been seen or comes before. -/
def firstOccurrences : List RelationalRow → List RelationalRow → List RelationalRow
  | _, [] => []
  | seen, row :: rows =>
      if seen.any fun previous => previous.eq row then firstOccurrences seen rows
      else row :: firstOccurrences (seen ++ [row]) rows

/-- Equal rows have equal hashes. -/
def HashesAgree (std : StdHash) (rows : List RelationalRow) : Prop :=
  ∀ a ∈ rows, ∀ b ∈ rows, a.eq b = true → a.hashRow std = b.hashRow std

/-- A row is found among those with its hash exactly if an equal row has been kept, if equal rows
have equal hashes. -/
theorem any_filter_hashRow_eq (h : ∀ a ∈ seen, a.eq row = true → a.hashRow std = row.hashRow std) :
  ((seen.filter fun previous => previous.hashRow std = row.hashRow std).any
      fun previous => previous.eq row) =
    seen.any fun previous => previous.eq row
  := by
  apply Bool.eq_iff_iff.mpr
  simp only [any_eq_true, mem_filter, decide_eq_true_eq]
  constructor
  · rintro ⟨a, ⟨ha, -⟩, heq⟩
    exact ⟨a, ha, heq⟩
  · rintro ⟨a, ha, heq⟩
    exact ⟨a, ⟨ha, h a ha heq⟩, heq⟩

/-- If equal rows have equal hashes, then the rows which are kept are the first occurrences. -/
theorem distinctRows_eq_firstOccurrences (h : HashesAgree std (seen ++ rows)) :
  (distinctRows std seen rows).map forgetHash =
    firstOccurrences (seen.map forgetHash) (rows.map forgetHash)
  := by
  induction rows generalizing seen with
  | nil => rfl
  | cons row rows ih =>
    have hany : ((seen.map forgetHash).any fun previous =>
        previous.eq row.forgetHash) = seen.any fun previous => previous.eq row := by
      rw [any_map]
      rfl
    have hseen : ∀ a ∈ seen, a.eq row = true → a.hashRow std = row.hashRow std := by
      intro a ha
      apply h a (mem_append_left _ ha) row (by simp)
    rw [distinctRows, map_cons, firstOccurrences, hany, any_filter_hashRow_eq hseen]
    split
    case isTrue =>
      apply ih
      intro a ha b hb
      apply h a _ b _
      · simp only [mem_append] at ha ⊢
        tauto
      · simp only [mem_append] at hb ⊢
        tauto
    case isFalse =>
      -- remembering the hash of the new row changes neither the row nor its hash
      have hagree : HashesAgree std (seen ++ [row.rememberHash std] ++ rows) := by
        have hlift : ∀ a ∈ seen ++ [row.rememberHash std] ++ rows,
            ∃ a' ∈ seen ++ row :: rows, a.hashRow std = a'.hashRow std ∧
              ∀ b : RelationalRow, a.eq b = a'.eq b ∧ b.eq a = b.eq a' := by
          intro a ha
          simp only [mem_append, mem_singleton] at ha
          obtain (ha | rfl) | ha := ha
          · exact ⟨a, mem_append_left _ ha, rfl, fun _ => ⟨rfl, rfl⟩⟩
          · exact ⟨row, by simp, rfl, fun _ => ⟨rfl, rfl⟩⟩
          · exact ⟨a, by simp [ha], rfl, fun _ => ⟨rfl, rfl⟩⟩
        intro a ha b hb heq
        obtain ⟨a', ha', hhash, hsame⟩ := hlift a ha
        obtain ⟨b', hb', hhash', hsame'⟩ := hlift b hb
        rw [hhash, hhash']
        apply h a' ha' b' hb'
        rwa [← (hsame' a').2, ← (hsame b).1]
      rw [map_cons, ih hagree, map_append]
      rfl

/-- No two first occurrences are equal. -/
theorem pairwise_firstOccurrences (seen rows : List RelationalRow) :
  (firstOccurrences seen rows).Pairwise (fun a b => a.eq b = false) ∧
    ∀ a ∈ seen, ∀ b ∈ firstOccurrences seen rows, a.eq b = false
  := by
  induction rows generalizing seen with
  | nil => simp [firstOccurrences]
  | cons row rows ih =>
    rw [firstOccurrences]
    split
    case isTrue => apply ih seen
    case isFalse hnew =>
      obtain ⟨hpairwise, hseen⟩ := ih (seen ++ [row])
      have hrow : ∀ a ∈ seen, a.eq row = false := by
        intro a ha
        apply Bool.eq_false_of_not_eq_true
        intro heq
        exact hnew (any_eq_true.mpr ⟨a, ha, heq⟩)
      constructor
      · apply pairwise_cons.mpr ⟨_, hpairwise⟩
        intro b hb
        apply hseen row (by simp) b hb
      · intro a ha b hb
        obtain rfl | hb := mem_cons.mp hb
        · apply hrow a ha
        · apply hseen a (mem_append_left _ ha) b hb

/-- Every row is kept, or an equal row with its hash is. -/
theorem exists_mem_distinctRows (hself : row.eq row = true) (hrow : row ∈ rows) :
  ∃ kept ∈ seen ++ distinctRows std seen rows,
    kept.eq row = true ∧ kept.hashRow std = row.hashRow std
  := by
  induction rows generalizing seen with
  | nil => cases hrow
  | cons next rows ih =>
    rw [distinctRows]
    split
    case isTrue hfound =>
      obtain rfl | hrow := mem_cons.mp hrow
      · obtain ⟨kept, hkept, heq⟩ := any_eq_true.mp hfound
        obtain ⟨hkept, hhash⟩ := mem_filter.mp hkept
        exact ⟨kept, mem_append_left _ hkept, heq, of_decide_eq_true hhash⟩
      · apply ih hrow
    case isFalse =>
      obtain rfl | hrow := mem_cons.mp hrow
      · exact ⟨row.rememberHash std, by simp, hself, rfl⟩
      · obtain ⟨kept, hkept, hsame⟩ := @ih (seen ++ [next.rememberHash std]) hrow
        refine ⟨kept, ?_, hsame⟩
        simpa using hkept

/-- The rows which are kept are the first occurrences exactly if equal rows have equal hashes. -/
theorem distinctRows_exact_iff :
  (distinctRows std [] rows).map forgetHash =
      firstOccurrences [] (rows.map forgetHash) ↔
    HashesAgree std rows
  := by
  constructor
  · intro h a ha b hb hab
    have hpairwise : (distinctRows std [] rows).Pairwise fun a b => a.eq b = false := by
      have hfirst := (pairwise_firstOccurrences [] (rows.map forgetHash)).1
      rw [← h] at hfirst
      apply pairwise_map.mp hfirst
    have hself : a.eq a = true := eq_trans hab (eq_symm hab)
    have hself' : b.eq b = true := eq_trans (eq_symm hab) hab
    obtain ⟨kept, hkept, heq, hhash⟩ : ∃ kept ∈ [] ++ distinctRows std [] rows, _ :=
      exists_mem_distinctRows hself ha
    obtain ⟨kept', hkept', heq', hhash'⟩ : ∃ kept ∈ [] ++ distinctRows std [] rows, _ :=
      exists_mem_distinctRows hself' hb
    -- the two rows which are kept are equal, hence one row
    have hsymm : Std.Symm fun a b : RelationalRow => a.eq b = false :=
      ⟨fun a b hne => Bool.eq_false_of_not_eq_true fun heq => by
        rw [eq_symm heq] at hne
        cases hne⟩
    have hsame : kept = kept' := by
      by_contra hne
      have hkeeps : kept.eq kept' = true :=
        eq_trans heq (eq_trans hab (eq_symm heq'))
      rw [hpairwise.forall hkept hkept' hne] at hkeeps
      cases hkeeps
    rw [← hhash, ← hhash', hsame]
  · intro h
    apply distinctRows_eq_firstOccurrences h

/-! ### Expressions -/

/-- What the operators use of the libraries, and the arithmetic of floating-point numbers. -/
structure Algorithms where
  std : StdHash
  rowSort : LessSort RelationalRow
  intervalSort : LessSort ValidTimeInterval
  eventSort : LessSort TemporalEvent
  addDouble : UInt64 → UInt64 → UInt64

/-- The operators on one stream.  Every operator has its budget. -/
inductive UnaryOperator where
  | distinct (budget : Budget)
  | sort (keys : List SortKey) (budget : Budget)
  | limit (offset count : Nat) (budget : Budget)
  | aggregateRows (groupBy : List Nat) (aggregates : List AggregateSpec) (budget : Budget)
  | temporalAggregate (groupBy : List Nat) (fragments : FragmentBudget) (budget : Budget)

def UnaryOperator.run (algorithms : Algorithms) (stream : BatchStream) :
    UnaryOperator → StatusOr BatchStream
  | .distinct budget => Relational.distinct algorithms.std stream budget
  | .sort keys budget => Relational.sort algorithms.rowSort stream keys budget
  | .limit offset count budget => Relational.limit stream offset count budget
  | .aggregateRows groupBy aggregates budget =>
      Relational.aggregateRows algorithms.std algorithms.addDouble stream groupBy aggregates budget
  | .temporalAggregate groupBy fragments budget =>
      Relational.temporalAggregate algorithms.std algorithms.eventSort stream groupBy fragments
        budget

inductive JoinOperator where
  | indexNestedLoopJoin (budget : Budget)
  | hashJoin (budget : Budget) (spill : Option Budget)
  | sortMergeJoin (budget : Budget) (spill : Option Budget)
  | intervalMergeJoin (fuel : Nat) (fragments : FragmentBudget) (budget : Budget)

def JoinOperator.run (algorithms : Algorithms) (input : JoinInput) :
    JoinOperator → StatusOr BatchStream
  | .indexNestedLoopJoin budget => Relational.indexNestedLoopJoin input budget
  | .hashJoin budget spill => Relational.hashJoin algorithms.std input budget spill
  | .sortMergeJoin budget spill =>
      Relational.sortMergeJoin algorithms.std algorithms.rowSort input budget spill
  | .intervalMergeJoin fuel fragments budget =>
      Relational.intervalMergeJoin algorithms.std algorithms.rowSort algorithms.intervalSort fuel
        input fragments budget

/-- The expressions which combine base streams by the operators. -/
inductive RelationalExpression where
  | base (index : Nat)
  | unionAll (left right : RelationalExpression) (budget : Budget)
  | unary (operator : UnaryOperator) (input : RelationalExpression)
  | join (operator : JoinOperator) (left right : RelationalExpression) (leftKey rightKey : Nat)
      (kind : JoinKind)

/-- The rows of a base stream remember their hashes after duplicates have been removed from it.
Other inputs are gone then. -/
def rememberInput (std : StdHash) : UnaryOperator → RelationalExpression → List BatchStream →
    List BatchStream
  | .distinct _, .base index, streams =>
      streams.modify index fun stream =>
        { stream with rows := stream.rows.map (RelationalRow.rememberHash std) }
  | _, _, streams => streams

/-- The stream of an expression, and the base streams after it has been computed. -/
def RelationalExpression.eval (algorithms : Algorithms) :
    RelationalExpression → List BatchStream → StatusOr (BatchStream × List BatchStream)
  | .base index, streams =>
      match streams[index]? with
      | some stream => .ok (stream, streams)
      | none => Status.invalidArgument "relational operator" "base stream is absent"
  | .unionAll left right budget, streams => do
      let (left, streams) ← left.eval algorithms streams
      let (right, streams) ← right.eval algorithms streams
      return (← Relational.unionAll left right budget, streams)
  | .unary operator input, streams => do
      let (stream, streams) ← input.eval algorithms streams
      let result ← operator.run algorithms stream
      return (result, rememberInput algorithms.std operator input streams)
  | .join operator left right leftKey rightKey kind, streams => do
      let (left, streams) ← left.eval algorithms streams
      let (right, streams) ← right.eval algorithms streams
      return (← operator.run algorithms ⟨left, right, leftKey, rightKey, kind⟩, streams)

/-- The rows of the output are the first occurrences of the rows of the input, in their order. -/
def IsDistinctOf (out input : BatchStream) : Prop :=
  out.rows.map RelationalRow.forgetHash =
    firstOccurrences [] (input.rows.map RelationalRow.forgetHash)

instance (out input : BatchStream) : Decidable (IsDistinctOf out input) :=
  inferInstanceAs (Decidable (_ = _))

/-! ### Rows which remember their own hashes -/

/-- The row remembers its own hash, or no hash at all if none is to be remembered. -/
def OwnsHash (std : StdHash) (remembers : Bool) (row : RelationalRow) : Prop :=
  ∀ hash ∈ row.cachedHash, remembers = true ∧ hash = row.computeHash std

theorem ownsHash_of_none {remembers : Bool} (h : row.cachedHash = none) :
  OwnsHash std remembers row
  := by
  simp [OwnsHash, h]

theorem OwnsHash.cachedHash_eq_none (h : OwnsHash std false row) :
  row.cachedHash = none
  := by
  rw [Option.eq_none_iff_forall_not_mem]
  intro hash hhash
  cases (h hash hhash).1

theorem OwnsHash.hashRow_eq {remembers : Bool} (h : OwnsHash std remembers row) :
  row.hashRow std = row.computeHash std
  := by
  rw [hashRow]
  rcases hcached : row.cachedHash with _ | hash
  · rfl
  · exact (h hash hcached).2

theorem OwnsHash.rememberHash {remembers : Bool} (h : OwnsHash std remembers row) :
  OwnsHash std true (row.rememberHash std)
  := by
  rintro hash ⟨⟩
  exact ⟨rfl, h.hashRow_eq⟩

theorem mem_distinctRows (h : row ∈ distinctRows std seen rows) :
  ∃ kept ∈ rows, row = kept.rememberHash std
  := by
  induction rows generalizing seen with
  | nil => cases h
  | cons next rows ih =>
    rw [distinctRows] at h
    split at h
    · obtain ⟨kept, hkept, hrow⟩ := ih h
      exact ⟨kept, mem_cons_of_mem _ hkept, hrow⟩
    · rcases mem_cons.mp h with hrow | h
      · exact ⟨next, mem_cons_self, hrow⟩
      · obtain ⟨kept, hkept, hrow⟩ := ih h
        exact ⟨kept, mem_cons_of_mem _ hkept, hrow⟩

/-- Rows with their own hashes have equal hashes if they are equal. -/
theorem hashesAgree_of_ownsHash {remembers : Bool} (h : ∀ row ∈ rows, OwnsHash std remembers row) :
  HashesAgree std rows
  := by
  intro a ha b hb heq
  simp only [eq, Bool.and_eq_true, decide_eq_true_eq] at heq
  rw [(h a ha).hashRow_eq, (h b hb).hashRow_eq, computeHash, computeHash, heq.2,
    foldl_combineHash_eq_of_listEq std heq.1]

/-- Which rows may remember a hash: those of the output, and those of the base streams afterwards.
An expression is clean if no row which may remember one is combined or clipped. -/
structure HashFlow where
  remembers : Bool
  bases : Nat → Bool
  clean : Bool

/-- The rows of the output may remember a hash, if those of the input do. -/
def UnaryOperator.remembers (remembers : Bool) : UnaryOperator → Bool
  | .distinct _ => true
  | .sort _ _ | .limit _ _ _ => remembers
  | .aggregateRows _ _ _ | .temporalAggregate _ _ _ => false

/-- The join combines or clips its left rows. -/
def JoinOperator.changes (kind : JoinKind) : JoinOperator → Bool
  | .intervalMergeJoin _ _ _ => true
  | _ => kind = .inner

/-- The base streams of which rows may remember a hash afterwards. -/
def rememberBases : UnaryOperator → RelationalExpression → (Nat → Bool) → Nat → Bool
  | .distinct _, .base index, bases => Function.update bases index true
  | _, _, bases => bases

/-- The flow of the hashes through an expression, from the base streams with rows which may
remember one. -/
def RelationalExpression.hashFlow : RelationalExpression → (Nat → Bool) → HashFlow
  | .base index, bases => ⟨bases index, bases, true⟩
  | .unionAll left right _, bases =>
      let left := left.hashFlow bases
      let right := right.hashFlow left.bases
      ⟨left.remembers || right.remembers, right.bases, left.clean && right.clean⟩
  | .unary operator input, bases =>
      let flow := input.hashFlow bases
      ⟨operator.remembers flow.remembers, rememberBases operator input flow.bases, flow.clean⟩
  | .join operator left right _ _ kind, bases =>
      let left := left.hashFlow bases
      let right := right.hashFlow left.bases
      ⟨left.remembers, right.bases,
        left.clean && right.clean && !(operator.changes kind && left.remembers)⟩

/-- The rows of the base streams remember their own hashes, if any. -/
def BasesOwn (std : StdHash) (bases : Nat → Bool) (streams : List BatchStream) : Prop :=
  ∀ index stream, streams[index]? = some stream →
    ∀ row ∈ stream.rows, OwnsHash std (bases index) row

section Flow

variable {algorithms : Algorithms} {streams streams' : List BatchStream} {out stream : BatchStream}
  {remembers : Bool} {bases : Nat → Bool}

theorem UnaryOperator.ownsHash_of_run {operator : UnaryOperator}
    (hrows : ∀ row ∈ stream.rows, OwnsHash algorithms.std remembers row)
    (h : operator.run algorithms stream = .ok out) :
  ∀ row ∈ out.rows, OwnsHash algorithms.std (operator.remembers remembers) row
  := by
  intro row hrow
  cases operator with
  | distinct budget =>
    obtain ⟨-, h⟩ := guard_eq_ok_iff.mp h
    obtain ⟨-, h⟩ := guard_eq_ok_iff.mp h
    rw [← Except.ok.inj h] at hrow
    obtain ⟨row, hmem, rfl⟩ := mem_distinctRows hrow
    exact (hrows row hmem).rememberHash
  | sort keys budget => exact hrows row (mem_of_mem_sort h hrow)
  | limit offset count budget =>
    obtain ⟨-, h⟩ := guard_eq_ok_iff.mp h
    obtain ⟨-, h⟩ := guard_eq_ok_iff.mp h
    rw [← Except.ok.inj h] at hrow
    exact hrows row (mem_of_mem_drop (mem_of_mem_take hrow))
  | aggregateRows groupBy aggregates budget =>
    exact ownsHash_of_none (cachedHash_of_aggregateRows h row hrow)
  | temporalAggregate groupBy fragments budget =>
    exact ownsHash_of_none (cachedHash_of_temporalAggregate h row hrow)

theorem JoinOperator.ownsHash_of_run {operator : JoinOperator} {input : JoinInput}
    (hclean : (!(operator.changes input.kind && remembers)) = true)
    (hlefts : ∀ row ∈ input.left.rows, OwnsHash algorithms.std remembers row)
    (h : operator.run algorithms input = .ok out) :
  ∀ row ∈ out.rows, OwnsHash algorithms.std remembers row
  := by
  -- rows which remember nothing are combined to such rows
  have hcombine : remembers = false → ∀ left right, OwnsHash algorithms.std remembers left →
      OwnsHash algorithms.std remembers (combine left right) := by
    rintro rfl left right hleft
    exact ownsHash_of_none hleft.cachedHash_eq_none
  cases operator with
  | indexNestedLoopJoin budget =>
    refine forall_mem_indexNestedLoopJoin (fun hkind => hcombine ?_) hlefts h
    simpa [changes, hkind] using hclean
  | hashJoin budget spill =>
    refine forall_mem_hashJoin (fun hkind => hcombine ?_) hlefts h
    simpa [changes, hkind] using hclean
  | sortMergeJoin budget spill =>
    refine forall_mem_sortMergeJoin (fun hkind => hcombine ?_) (fun _ => ownsHash_of_none) hlefts h
    simpa [changes, hkind] using hclean
  | intervalMergeJoin fuel fragments budget =>
    obtain rfl : remembers = false := by simpa [changes] using hclean
    intro row hrow
    refine ownsHash_of_none (cachedHash_of_intervalMergeJoin ?_ h row hrow)
    exact fun left hleft => (hlefts left hleft).cachedHash_eq_none

/-- A base stream from which duplicates are removed remembers its hashes. -/
theorem basesOwn_rememberInput (operator : UnaryOperator) (input : RelationalExpression)
    (h : BasesOwn std bases streams) :
  BasesOwn std (rememberBases operator input bases) (rememberInput std operator input streams)
  := by
  unfold rememberInput
  split
  case h_1 index =>
    intro other stream hstream row hrow
    rw [getElem?_modify] at hstream
    obtain ⟨before, hbefore, rfl⟩ := Option.map_eq_some_iff.mp hstream
    rcases eq_or_ne index other with rfl | hne
    · rw [if_pos rfl] at hrow
      obtain ⟨row, hmem, rfl⟩ := mem_map.mp hrow
      simpa [rememberBases] using (h index before hbefore row hmem).rememberHash
    · rw [if_neg hne] at hrow
      simpa [rememberBases, Function.update_of_ne hne.symm] using h other before hbefore row hrow
  case h_2 hother =>
    unfold rememberBases
    split
    · exact absurd rfl (hother _ _ rfl)
    · exact h

/-- The rows of a clean expression remember their own hashes, as its flow says. -/
theorem RelationalExpression.ownsHash_of_eval {e : RelationalExpression}
    (hbases : BasesOwn algorithms.std bases streams) (hclean : (e.hashFlow bases).clean = true)
    (h : e.eval algorithms streams = .ok (out, streams')) :
  (∀ row ∈ out.rows, OwnsHash algorithms.std (e.hashFlow bases).remembers row) ∧
    BasesOwn algorithms.std (e.hashFlow bases).bases streams'
  := by
  induction e generalizing bases streams out streams' with
  | base index =>
    rw [eval] at h
    split at h
    case h_1 stream hstream =>
      obtain ⟨rfl, rfl⟩ := Prod.mk.inj (Except.ok.inj h)
      exact ⟨hbases index stream hstream, hbases⟩
    case h_2 => cases h
  | unionAll left right budget ihleft ihright =>
    simp only [hashFlow, Bool.and_eq_true] at hclean
    obtain ⟨⟨l, middle⟩, hl, h⟩ := bind_eq_ok_iff.mp h
    obtain ⟨⟨r, last⟩, hr, h⟩ := bind_eq_ok_iff.mp h
    obtain ⟨result, hop, h⟩ := bind_eq_ok_iff.mp h
    obtain ⟨rfl, rfl⟩ := Prod.mk.inj (Except.ok.inj h)
    obtain ⟨hlefts, hmiddle⟩ := ihleft hbases hclean.1 hl
    obtain ⟨hrights, hlast⟩ := ihright hmiddle hclean.2 hr
    refine ⟨?_, hlast⟩
    obtain ⟨-, hop⟩ := guard_eq_ok_iff.mp hop
    obtain ⟨-, hop⟩ := guard_eq_ok_iff.mp hop
    rw [← Except.ok.inj hop]
    refine forall_mem_append.mpr ⟨fun row hrow hash hhash => ?_, fun row hrow hash hhash => ?_⟩
    · exact (hlefts row hrow hash hhash).imp_left (Bool.or_inl ·)
    · exact (hrights row hrow hash hhash).imp_left (Bool.or_inr ·)
  | unary operator input ih =>
    obtain ⟨⟨stream, last⟩, hstream, h⟩ := bind_eq_ok_iff.mp h
    obtain ⟨result, hrun, h⟩ := bind_eq_ok_iff.mp h
    obtain ⟨rfl, rfl⟩ := Prod.mk.inj (Except.ok.inj h)
    obtain ⟨hrows, hlast⟩ := ih hbases hclean hstream
    exact ⟨operator.ownsHash_of_run hrows hrun, basesOwn_rememberInput operator input hlast⟩
  | join operator left right leftKey rightKey kind ihleft ihright =>
    simp only [hashFlow, Bool.and_eq_true] at hclean
    obtain ⟨⟨l, middle⟩, hl, h⟩ := bind_eq_ok_iff.mp h
    obtain ⟨⟨r, last⟩, hr, h⟩ := bind_eq_ok_iff.mp h
    obtain ⟨result, hrun, h⟩ := bind_eq_ok_iff.mp h
    obtain ⟨rfl, rfl⟩ := Prod.mk.inj (Except.ok.inj h)
    obtain ⟨hlefts, hmiddle⟩ := ihleft hbases hclean.1.1 hl
    obtain ⟨-, hlast⟩ := ihright hmiddle hclean.1.2 hr
    exact ⟨operator.ownsHash_of_run hclean.2 hlefts hrun, hlast⟩

end Flow

def sampleAlgorithms : Algorithms where
  std := constantHash
  rowSort := LessSort.insertion _
  intervalSort := LessSort.insertion _
  eventSort := LessSort.insertion _
  addDouble a _ := a

def largeBudget : Budget := ⟨true, true, 100⟩

/-- A stream with a single row, whose single cell is a number. -/
def oneNumber (n : Int64) : BatchStream :=
  { rows := [{ cells := [⟨.int64, true, .int64 n⟩] }] }

def threeStreams : List BatchStream :=
  [oneNumber 1, oneNumber 1, oneNumber 1]

/-- A join with the second stream. -/
def joinOfBases (left : RelationalExpression) : RelationalExpression :=
  .join (.indexNestedLoopJoin largeBudget) left (.base 1) 0 0 .inner

def distinctOf : RelationalExpression → RelationalExpression :=
  .unary (.distinct largeBudget)

/-- Equal rows, of which the first was combined from a row that remembered its hash. -/
def combinedTwice : RelationalExpression :=
  .unionAll (joinOfBases (distinctOf (.base 0))) (joinOfBases (.base 2))
    largeBudget

/-- A row with the same number twice. -/
def twiceOne (hash : Option UInt64) : RelationalRow :=
  { cells := [⟨.int64, true, .int64 1⟩, ⟨.int64, true, .int64 1⟩], cachedHash := hash }

/-- A join of the base streams, before duplicates are removed from the first one. -/
def combinedBefore : RelationalExpression :=
  .unionAll (joinOfBases (.base 0))
    (joinOfBases (.join (.indexNestedLoopJoin largeBudget) (.base 2)
      (distinctOf (.base 0)) 0 0 .semi)) largeBudget

end Relational

end Cedar
