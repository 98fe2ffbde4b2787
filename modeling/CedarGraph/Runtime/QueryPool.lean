import CedarGraph.Core.Status

/-!
# The pool of query resources

A query takes its budget from the counters of a pool, one after the other, each by a loop of
compare and swap.  If a counter is exhausted, the query gives back what it took before.  What a
query was granted is given back with the last copy of its reservation.  The bytes which are read
have a counter of their own, from which permits take.

A step is one access to a counter, and the steps of all calls are interleaved in any way.
-/

namespace Cedar

open List Function

/-- The counters of a pool: the dimensions of the resources, and the workers. -/
inductive PoolCounter where
  | memory | scratch | readBytes | prefetchBytes | decodedRows | outputRows | outputBytes
  | intervalFragments | graphLabels | visitedVertices | cpuMicros | workers
  deriving DecidableEq

namespace PoolCounter

/-- The counters in the order in which they are taken. -/
def all : List PoolCounter :=
  [memory, scratch, readBytes, prefetchBytes, decodedRows, outputRows, outputBytes,
    intervalFragments, graphLabels, visitedVertices, cpuMicros, workers]

/-- The name of a counter in the message that it is exhausted. -/
def name : PoolCounter → String
  | memory => "memory_bytes"
  | scratch => "scratch_bytes"
  | readBytes => "read_bytes"
  | prefetchBytes => "prefetch_bytes"
  | decodedRows => "decoded_rows"
  | outputRows => "output_rows"
  | outputBytes => "output_bytes"
  | intervalFragments => "interval_fragments"
  | graphLabels => "graph_labels"
  | visitedVertices => "visited_vertices"
  | cpuMicros => "cpu_us"
  | workers => "parallelism"

/-- The workers are counted with 32 bits, and the dimensions with 64. -/
def modulus (c : PoolCounter) : Nat :=
  if c = workers then 2 ^ 32 else 2 ^ 64

end PoolCounter

/-- The limits of a pool. -/
structure QueryResourcePoolOptions where
  /-- The limits of the dimensions, and the maximal parallelism. -/
  limit : PoolCounter → Nat
  readBytesPerSecond : Nat
  reservedInteractiveWorkers : Nat
  limit_lt : ∀ c, limit c < c.modulus

/-- The workers which a query may leave in use.  An analytical one does not take those which are
reserved for interactive ones. -/
def QueryResourcePoolOptions.workerLimit (options : QueryResourcePoolOptions)
    (analytical : Bool) : Nat :=
  let maxParallelism := options.limit .workers
  if analytical then
    maxParallelism - min (if maxParallelism = 0 then 0 else maxParallelism - 1)
      options.reservedInteractiveWorkers
  else
    maxParallelism

def poolExhausted (msg : String) : StatusError :=
  ⟨.resourceExhausted, "query", msg⟩

/-- Where a query is which asks a pool for its budget. -/
inductive AdmitPhase where
  /-- The counters which are not taken yet, and what was last read of the first one. -/
  | acquiring (todo : List PoolCounter) (current : Option Nat)
  /-- The query is admitted, and there are some copies of its reservation. -/
  | reserved (copies : Nat)
  /-- What was taken is given back, because of a failure or with the last copy. -/
  | releasing (failure : Option StatusError)
  | ended (failure : Option StatusError)
  deriving DecidableEq

/-- A query which asked a pool for its budget. -/
structure Admission where
  /-- The budget in the dimensions, and the parallelism. -/
  budget : PoolCounter → Nat
  analytical : Bool
  /-- The counters which were taken and not given back. -/
  admitted : List PoolCounter
  phase : AdmitPhase

/-- The counters from which a budget takes. -/
def budgetCounters (budget : PoolCounter → Nat) : List PoolCounter :=
  PoolCounter.all.filter (budget · ≠ 0)

/-- What a thread does with its admission. -/
inductive AdmissionStep where
  /-- The next access to a counter.  The weak compare and swap may fail spuriously. -/
  | advance (spurious : Bool)
  | copy
  | drop

section Admission

variable (options : QueryResourcePoolOptions)

/-- The parallelism of a budget is checked first. -/
def admitQuery (budget : PoolCounter → Nat) (analytical : Bool) : Admission :=
  ⟨budget, analytical, [],
    if budget .workers = 0 ∨ budget .workers > options.workerLimit analytical then
      .ended (some (poolExhausted "max_parallelism budget exhausted"))
    else
      .acquiring (budgetCounters budget) none⟩

namespace Admission

variable (call : Admission)

/-- What a query holds of a counter. -/
def held (c : PoolCounter) : Nat :=
  call.admitted.count c * call.budget c

/-- The workers of an analytical query. -/
def analyticalWorkers : Nat :=
  if call.analytical then call.held .workers else 0

/-- A counter does not have what the query asks for. -/
def exhausted (c : PoolCounter) (current : Nat) : Bool :=
  let requested := call.budget c
  if c = .workers then
    let limit := options.workerLimit call.analytical
    requested > limit - min limit current
  else
    requested > options.limit c || current > options.limit c - requested

/-- A step of a query, with the counters of the pool. -/
def step (totals : PoolCounter → Nat) : AdmissionStep → (PoolCounter → Nat) × Admission
  | .advance spurious =>
      match call.phase with
      | .acquiring [] _ => (totals, { call with phase := .reserved 1 })
      | .acquiring (c :: todo) none =>
          (totals, { call with phase := .acquiring (c :: todo) (some (totals c)) })
      | .acquiring (c :: todo) (some current) =>
          if call.exhausted options c current then
            let failure := poolExhausted (c.name ++ " pool admission exhausted")
            (totals, { call with phase := .releasing (some failure) })
          else if totals c = current ∧ !spurious then
            (update totals c ((current + call.budget c) % c.modulus),
              { call with admitted := call.admitted ++ [c], phase := .acquiring todo none })
          else
            (totals, { call with phase := .acquiring (c :: todo) (some (totals c)) })
      | .releasing failure =>
          match call.admitted with
          | [] => (totals, { call with phase := .ended failure })
          | c :: admitted =>
              (update totals c ((totals c + c.modulus - call.budget c) % c.modulus),
                { call with admitted })
      | .reserved _ | .ended _ => (totals, call)
  | .copy =>
      match call.phase with
      | .reserved copies => (totals, { call with phase := .reserved (copies + 1) })
      | _ => (totals, call)
  | .drop =>
      match call.phase with
      | .reserved copies =>
          (totals, { call with phase :=
            if copies = 1 then .releasing none else .reserved (copies - 1) })
      | _ => (totals, call)

/-- What was taken is what the phase says.  Nothing is left at the end. -/
def Consistent : Prop :=
  match call.phase with
  | .acquiring todo _ => call.admitted ++ todo = budgetCounters call.budget
  | .reserved _ => ∀ c, call.held c = call.budget c
  | .releasing _ => True
  | .ended _ => ∀ c, call.held c = 0

end Admission

end Admission

/-! ### Permits to read -/

/-- The kinds of work which read. -/
inductive QueryWorkClass where
  | durability | interactive | maintenance | analytical | projection
  deriving DecidableEq

/-- A permit to read bytes, which holds them with a pointer to their counter. -/
structure IoPermit where
  bytes : Nat
  aggregate : Bool
  attached : bytes ≠ 0 → aggregate = true

/-- A permit for nothing, which is also left behind by a move. -/
def IoPermit.empty : IoPermit :=
  ⟨0, false, nofun⟩

/-- A permit is destroyed, or overwritten by a move. -/
def IoPermit.release (permit : IoPermit) (total : Nat) : Nat :=
  if permit.aggregate ∧ permit.bytes ≠ 0 then
    (total + 2 ^ 64 - permit.bytes) % 2 ^ 64
  else
    total

/-- A call which asks for a permit, and the permit. -/
inductive IoCall where
  | acquiring (bytes : Nat) (current : Option Nat)
  | permit (permit : IoPermit)
  | ended (failure : Option StatusError)

section Io

variable (options : QueryResourcePoolOptions)

def acquireIo (workClass : QueryWorkClass) (walSyncCritical : Bool) (bytes : Nat) : IoCall :=
  if bytes = 0 then
    .permit .empty
  else if walSyncCritical ∧ (workClass = .analytical ∨ workClass = .projection) then
    .ended (poolExhausted "wal_sync_critical io permit waits")
  else if options.readBytesPerSecond ≠ 0 ∧ bytes > options.readBytesPerSecond then
    .ended (poolExhausted "read_bytes_per_second rate exhausted")
  else
    .acquiring bytes none

/-- The next access of a call to the counter of the bytes. -/
def IoCall.advance (spurious : Bool) (total : Nat) : IoCall → Nat × IoCall
  | .acquiring bytes (some current) =>
      let limit := options.limit .readBytes
      if bytes > 2 ^ 64 - 1 - current then
        (total, .ended (poolExhausted "read_bytes accounting overflow"))
      else if limit ≠ 0 ∧ bytes > limit - min limit current then
        (total, .ended (poolExhausted "read_bytes budget exhausted"))
      else if total = current ∧ !spurious then
        ((current + bytes) % 2 ^ 64, .permit ⟨bytes, true, fun _ => rfl⟩)
      else
        (total, .acquiring bytes (some total))
  | .acquiring bytes none => (total, .acquiring bytes (some total))
  | call => (total, call)

/-- The bytes which a call holds. -/
def IoCall.held : IoCall → Nat
  | .permit granted => granted.bytes
  | .acquiring _ _ | .ended _ => 0

end Io

/-! ### The pool -/

/-- The counters of a pool, and the calls which were made. -/
structure QueryResourcePool where
  totals : PoolCounter → Nat
  admissions : List Admission
  ioBytes : Nat
  ios : List IoCall

/-- A step of one of the calls, which are known by their numbers. -/
inductive PoolStep where
  | admitQuery (budget : PoolCounter → Nat) (analytical : Bool)
  | admission (i : Nat) (step : AdmissionStep)
  | acquireIo (workClass : QueryWorkClass) (walSyncCritical : Bool) (bytes : Nat)
  | advanceIo (i : Nat) (spurious : Bool)
  /-- A new permit is constructed from another. -/
  | moveIo (source : Nat)
  /-- A permit is assigned from another. -/
  | assignIo (target source : Nat)
  | destroyIo (i : Nat)

namespace QueryResourcePool

/-- A pool before any call. -/
def create : QueryResourcePool :=
  ⟨fun _ => 0, [], 0, []⟩

variable (options : QueryResourcePoolOptions) (pool : QueryResourcePool)

def step : PoolStep → QueryResourcePool
  | .admitQuery budget analytical =>
      { pool with admissions := pool.admissions ++ [Cedar.admitQuery options budget analytical] }
  | .admission i step =>
      match pool.admissions[i]? with
      | some call =>
          let (totals, call) := call.step options pool.totals step
          { pool with totals, admissions := pool.admissions.set i call }
      | none => pool
  | .acquireIo workClass walSyncCritical bytes =>
      { pool with ios := pool.ios ++ [Cedar.acquireIo options workClass walSyncCritical bytes] }
  | .advanceIo i spurious =>
      match pool.ios[i]? with
      | some call =>
          let (ioBytes, call) := call.advance options spurious pool.ioBytes
          { pool with ioBytes, ios := pool.ios.set i call }
      | none => pool
  | .moveIo source =>
      match pool.ios[source]? with
      | some (.permit permit) =>
          { pool with ios := pool.ios.set source (.permit .empty) ++ [.permit permit] }
      | _ => pool
  | .assignIo target source =>
      match pool.ios[target]?, pool.ios[source]? with
      | some (.permit overwritten), some (.permit permit) =>
          if target = source then
            pool
          else
            { pool with
              ioBytes := overwritten.release pool.ioBytes
              ios := (pool.ios.set source (.permit .empty)).set target (.permit permit) }
      | _, _ => pool
  | .destroyIo i =>
      match pool.ios[i]? with
      | some (.permit permit) =>
          { pool with
            ioBytes := permit.release pool.ioBytes, ios := pool.ios.set i (.ended none) }
      | _ => pool

/-- The pool after some steps. -/
def run (steps : List PoolStep) : QueryResourcePool :=
  steps.foldl (step options) create

/-- Every counter is the sum of what the calls hold of it, and within its limit.  Analytical
queries leave the reserved workers to others, but for one. -/
structure Balanced : Prop where
  totals_eq : ∀ c, pool.totals c = (pool.admissions.map (·.held c)).sum
  totals_le : ∀ c, pool.totals c ≤ options.limit c
  analytical_le : (pool.admissions.map (·.analyticalWorkers)).sum ≤
    max (min 1 (options.limit .workers))
      (options.limit .workers - options.reservedInteractiveWorkers)
  consistent : ∀ call ∈ pool.admissions, call.Consistent
  ioBytes_eq : pool.ioBytes = (pool.ios.map (·.held)).sum
  ioBytes_lt : pool.ioBytes < 2 ^ 64

end QueryResourcePool

/-! ### Balance -/

/-- One entry of a list is changed. -/
theorem sum_map_set {α : Type} {l : List α} {i : Nat} {a : α} (h : l[i]? = some a) (f : α → Nat)
    (b : α) :
  ((l.set i b).map f).sum + f a = (l.map f).sum + f b
  := by
  induction l generalizing i with
  | nil => cases h
  | cons first l ih =>
    cases i with
    | zero =>
      obtain rfl : first = a := by simpa using h
      simp only [set_cons_zero, map_cons, sum_cons]
      omega
    | succ i =>
      have hrest := ih h
      simp only [set_cons_succ, map_cons, sum_cons]
      omega

variable {options : QueryResourcePoolOptions}

theorem add_sub_mod {total amount modulus : Nat} (hlt : total < modulus) (hle : amount ≤ total) :
  (total + modulus - amount) % modulus = total - amount
  := by
  rw [Nat.sub_add_comm hle, Nat.add_mod_right, Nat.mod_eq_of_lt (by omega)]

theorem workerLimit_true :
  options.workerLimit true = max (min 1 (options.limit .workers))
    (options.limit .workers - options.reservedInteractiveWorkers)
  := by
  simp only [QueryResourcePoolOptions.workerLimit, if_true]
  split <;> omega

/-- A query is admitted with its whole budget. -/
theorem count_budgetCounters (budget : PoolCounter → Nat) (c : PoolCounter) :
  (budgetCounters budget).count c * budget c = budget c
  := by
  by_cases hc : budget c = 0
  · rw [hc, Nat.mul_zero]
  · have hcount : PoolCounter.all.count c = 1 := by cases c <;> rfl
    rw [budgetCounters, count_filter (by simpa using hc), hcount, Nat.one_mul]

namespace Admission

variable {call : Admission} {c : PoolCounter} {current : Nat}

/-- What is taken from a counter leaves it within its limit, and that of the workers within the one
of the query. -/
theorem add_le_of_not_exhausted (hc : call.budget c ≠ 0)
    (h : ¬ call.exhausted options c current = true) :
  current + call.budget c ≤ options.limit c ∧
    (c = .workers → current + call.budget c ≤ options.workerLimit call.analytical)
  := by
  have hlimit : options.workerLimit call.analytical ≤ options.limit .workers := by
    unfold QueryResourcePoolOptions.workerLimit
    grind
  unfold exhausted at h
  grind

/-- What a step takes from a counter is what the query then holds more of it. -/
structure Moves (options : QueryResourcePoolOptions) (totals totals' : PoolCounter → Nat)
    (call call' : Admission) : Prop where
  totals_add : ∀ c, totals' c + call.held c = totals c + call'.held c
  totals_le : ∀ c, totals' c ≤ options.limit c
  workers_le : call'.analyticalWorkers ≤ call.analyticalWorkers ∨
    totals' .workers ≤ options.workerLimit true
  consistent : call'.Consistent

variable {totals : PoolCounter → Nat} (hlimit : ∀ c, totals c ≤ options.limit c)

include hlimit

/-- A step may only change the phase. -/
theorem moves_phase {phase : AdmitPhase} (h : { call with phase }.Consistent) :
  Moves options totals totals call { call with phase }
  := ⟨fun _ => rfl, hlimit, .inl le_rfl, h⟩

/-- A step may change one counter. -/
theorem moves_update {total : Nat} {admitted : List PoolCounter} {phase : AdmitPhase}
    (hothers : ∀ other ≠ c, admitted.count other = call.admitted.count other)
    (htotal : total + call.held c = totals c + { call with admitted, phase }.held c)
    (hle : total ≤ totals c ∨ total ≤ options.limit c ∧
      (c = .workers → total ≤ options.workerLimit call.analytical))
    (h : { call with admitted, phase }.Consistent) :
  Moves options totals (update totals c total) call { call with admitted, phase }
  := by
  have hheld : ∀ other ≠ c, { call with admitted, phase }.held other = call.held other :=
    fun other hother => congrArg (· * _) (hothers other hother)
  refine ⟨fun other => ?_, fun other => ?_, ?_, h⟩
  · obtain rfl | hother := eq_or_ne other c
    · rw [update_self, htotal]
    · rw [update_of_ne hother, hheld other hother]
  · obtain rfl | hother := eq_or_ne other c
    · rw [update_self]
      apply hle.elim (fun hle => hle.trans (hlimit other)) And.left
    · rw [update_of_ne hother]
      apply hlimit
  · unfold analyticalWorkers
    dsimp only
    split
    case isTrue hanalytical =>
      obtain rfl | hother := eq_or_ne .workers c
      · rw [hanalytical] at hle
        rw [update_self]
        apply hle.imp _ fun hle => hle.2 rfl
        omega
      · exact .inl (hheld .workers hother).le
    · exact .inl le_rfl

theorem moves_step (hheld : ∀ c, call.held c ≤ totals c) (hcall : call.Consistent)
    (step : AdmissionStep) :
  let next := call.step options totals step
  Moves options totals next.1 call next.2
  := by
  obtain ⟨budget, analytical, admitted, phase⟩ := call
  cases step with
  | copy => cases phase <;> apply moves_phase hlimit hcall
  | drop =>
    cases phase with
    | reserved copies =>
      apply moves_phase hlimit
      split
      · trivial
      · exact hcall
    | _ => apply moves_phase hlimit hcall
  | advance spurious =>
    cases phase with
    | reserved copies | ended failure => apply moves_phase hlimit hcall
    | releasing failure =>
      cases admitted with
      | nil =>
        apply moves_phase hlimit
        intro c
        apply Nat.zero_mul
      | cons c admitted =>
        have hlt := (hlimit c).trans_lt (options.limit_lt c)
        have hle := hheld c
        have hsub : (totals c + c.modulus - budget c) % c.modulus = totals c - budget c := by
          apply add_sub_mod hlt
          simp only [held, count_cons_self, Nat.succ_mul] at hle
          omega
        apply moves_update hlimit
        · intro other hother
          rw [count_cons_of_ne hother.symm]
        · rw [hsub]
          simp only [held, count_cons_self, Nat.succ_mul] at hle ⊢
          omega
        · rw [hsub]
          exact .inl (Nat.sub_le ..)
        · trivial
    | acquiring todo current =>
      cases todo with
      | nil =>
        apply moves_phase hlimit
        intro c
        rw [held, ← append_nil admitted, show _ = _ from hcall]
        apply count_budgetCounters
      | cons c todo =>
        cases current with
        | none => apply moves_phase hlimit hcall
        | some current =>
          have hc : budget c ≠ 0 := by
            have hmem : c ∈ budgetCounters budget := by
              rw [← show _ = _ from hcall]
              simp
            simpa using of_mem_filter hmem
          dsimp only [Admission.step]
          split
          · apply moves_phase hlimit
            trivial
          case isFalse hfits =>
            have hle := add_le_of_not_exhausted hc hfits
            split
            case isTrue hsame =>
              obtain ⟨rfl, -⟩ := hsame
              rw [Nat.mod_eq_of_lt (hle.1.trans_lt (options.limit_lt c))]
              apply moves_update hlimit _ _ (.inr hle)
              · exact (append_assoc admitted [c] todo).trans hcall
              · intro other hother
                simp [hother.symm]
              · simp only [held, count_append, count_singleton_self, Nat.add_mul]
                omega
            · apply moves_phase hlimit hcall

end Admission

theorem IoPermit.release_add (permit : IoPermit) {total : Nat} (hlt : total < 2 ^ 64)
    (hle : permit.bytes ≤ total) :
  permit.release total + permit.bytes = total
  := by
  have hattached := permit.attached
  rw [release, add_sub_mod hlt hle]
  grind

theorem IoCall.advance_add (call : IoCall) (spurious : Bool) {total : Nat} (hlt : total < 2 ^ 64) :
  let next := call.advance options spurious total
  next.1 + call.held = total + next.2.held ∧ next.1 < 2 ^ 64
  := by
  fun_cases advance options spurious total call
  case case3 bytes current _ hfits _ hsame =>
    obtain ⟨rfl, -⟩ := hsame
    have hsmall : total + bytes < 2 ^ 64 := by omega
    exact ⟨Nat.mod_eq_of_lt hsmall, Nat.mod_lt _ (by decide)⟩
  all_goals exact ⟨rfl, hlt⟩

namespace QueryResourcePool

variable {pool : QueryResourcePool} (h : Balanced options pool)

include h

/-- One of the calls to read is changed with the counter. -/
theorem Balanced.setIo {i ioBytes : Nat} {call call' : IoCall} (hcall : pool.ios[i]? = some call)
    (hadd : ioBytes + call.held = pool.ioBytes + call'.held) (hlt : ioBytes < 2 ^ 64) :
  Balanced options { pool with ioBytes, ios := pool.ios.set i call' }
  := by
  have hset := sum_map_set hcall (·.held) call'
  have heq := h.ioBytes_eq
  exact { h with ioBytes_eq := by dsimp only; omega, ioBytes_lt := hlt }

theorem Balanced.admission {i : Nat} {call : Admission} (hcall : pool.admissions[i]? = some call)
    (step : AdmissionStep) :
  let next := call.step options pool.totals step
  Balanced options { pool with totals := next.1, admissions := pool.admissions.set i next.2 }
  := by
  have hmem := mem_of_getElem? hcall
  have hheld : ∀ c, call.held c ≤ pool.totals c := by
    intro c
    rw [h.totals_eq c]
    apply le_sum_of_mem (mem_map_of_mem hmem)
  intro next
  have hmoves : Admission.Moves options pool.totals next.1 call next.2 :=
    Admission.moves_step h.totals_le hheld (h.consistent call hmem) step
  have hsum : ∀ c, next.1 c = ((pool.admissions.set i next.2).map (·.held c)).sum := by
    intro c
    have hset := sum_map_set hcall (·.held c) next.2
    have hadd := hmoves.totals_add c
    have heq := h.totals_eq c
    omega
  refine { h with
    totals_eq := hsum, totals_le := hmoves.totals_le, analytical_le := ?_, consistent := ?_ }
  · have hset := sum_map_set hcall (·.analyticalWorkers) next.2
    have hall : ((pool.admissions.set i next.2).map (·.analyticalWorkers)).sum ≤
        next.1 .workers := by
      rw [hsum]
      apply sum_le_sum
      intro call _
      unfold Admission.analyticalWorkers
      split <;> omega
    have hle := h.analytical_le
    have hworkers := hmoves.workers_le
    rw [workerLimit_true] at hworkers
    dsimp only
    omega
  · intro call' hcall'
    obtain hcall' | rfl := mem_or_eq_of_mem_set hcall'
    · apply h.consistent call' hcall'
    · exact hmoves.consistent

theorem Balanced.step (step : PoolStep) :
  Balanced options (pool.step options step)
  := by
  have hlt := h.ioBytes_lt
  have hsum := h.ioBytes_eq
  have hle : ∀ {i : Nat} {call : IoCall}, pool.ios[i]? = some call → call.held ≤ pool.ioBytes := by
    intro i call hcall
    rw [hsum]
    apply le_sum_of_mem (mem_map_of_mem (mem_of_getElem? hcall))
  cases step with
  | admitQuery budget analytical =>
    have hheld : ∀ c, (Cedar.admitQuery options budget analytical).held c = 0 :=
      fun c => Nat.zero_mul _
    refine { h with totals_eq := ?_, analytical_le := ?_, consistent := ?_ }
    · intro c
      simp [QueryResourcePool.step, h.totals_eq c, hheld]
    · have hworkers : (Cedar.admitQuery options budget analytical).analyticalWorkers = 0 := by
        simp [Admission.analyticalWorkers, hheld]
      simpa [QueryResourcePool.step, hworkers] using h.analytical_le
    · rw [QueryResourcePool.step, forall_mem_append, forall_mem_singleton]
      use h.consistent
      unfold Admission.Consistent
      split
      · grind [Cedar.admitQuery]
      · grind [Cedar.admitQuery]
      · trivial
      · exact hheld
  | admission i step =>
    rw [QueryResourcePool.step]
    split
    case h_1 call hcall => apply h.admission hcall
    · exact h
  | acquireIo workClass walSyncCritical bytes =>
    have hheld : (Cedar.acquireIo options workClass walSyncCritical bytes).held = 0 := by
      unfold Cedar.acquireIo
      split_ifs <;> rfl
    exact { h with ioBytes_eq := by simp [QueryResourcePool.step, hsum, hheld] }
  | advanceIo i spurious =>
    rw [QueryResourcePool.step]
    split
    case h_1 call hcall =>
      obtain ⟨hadd, hlt⟩ := call.advance_add spurious hlt
      apply h.setIo hcall hadd hlt
    · exact h
  | moveIo source =>
    rw [QueryResourcePool.step]
    split
    case h_1 permit hpermit =>
      refine { h with ioBytes_eq := ?_ }
      rw [map_append, sum_append, hsum]
      exact (sum_map_set hpermit (·.held) (.permit .empty)).symm
    · exact h
  | assignIo target source =>
    rw [QueryResourcePool.step]
    split
    case h_1 overwritten permit htarget hsource =>
      split
      · exact h
      case isFalse hne =>
        have hrelease := overwritten.release_add hlt (hle htarget)
        have hempty := sum_map_set hsource (·.held) (.permit .empty)
        rw [← getElem?_set_ne (Ne.symm hne) (a := .permit .empty)] at htarget
        have hset := sum_map_set htarget (·.held) (.permit permit)
        have hbytes : ∀ permit, (IoCall.permit permit).held = permit.bytes := fun _ => rfl
        have hnone : IoPermit.empty.bytes = 0 := rfl
        rw [hbytes, hbytes] at hempty hset
        refine { h with ioBytes_eq := ?_, ioBytes_lt := ?_ }
        all_goals
          dsimp only
          omega
    · exact h
  | destroyIo i =>
    rw [QueryResourcePool.step]
    split
    case h_1 permit hpermit =>
      have hrelease := permit.release_add hlt (hle hpermit)
      apply h.setIo hpermit hrelease
      omega
    · exact h

omit h in
theorem balanced_run (options : QueryResourcePoolOptions) (steps : List PoolStep) :
  Balanced options (run options steps)
  := by
  rw [run]
  apply foldlRecOn steps (QueryResourcePool.step options)
  · exact ⟨fun _ => rfl, fun _ => Nat.zero_le _, Nat.zero_le _, nofun, rfl, by decide⟩
  · intro pool h step _
    apply h.step

end QueryResourcePool

end Cedar
