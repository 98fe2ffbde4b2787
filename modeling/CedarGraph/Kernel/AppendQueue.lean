import CedarGraph.Runtime.PressureController
import CedarGraph.Storage.CommitBatch

/-!
# The append queue

Commits are admitted to a queue, up to a number of bytes.  A worker takes groups from its front, in
the size which two controllers allow, and writes them.  The bytes of a request are reserved from its
admission until the group in which it was written is released, or until it is cancelled in the
queue.

Whatever the order of admissions, cancellations and groups, the counters are the sums of the bytes
of the requests, every request leaves the queue in order and once, and the worker takes at least one
request from a queue which is not empty.
-/

namespace Cedar

open Nat

open List hiding beq_eq_decide

/-! ### Limits of a group -/

/-- The most requests and bytes of a group. -/
structure EpochLimits where
  maxTransactions : UInt32 := 1
  maxEncodedBytes : UInt64 := 1

structure EpochOptions where
  maxTransactions : UInt32 := 128
  maxEncodedBytes : UInt64 := 2 * 1024 * 1024
  latencySloUs : UInt64 := 5000
  minTransactionsUnderLoad : UInt32 := 2
  deepQueueThreshold : UInt32 := 16

/-- The options with which a controller works. -/
def EpochOptions.normalize (options : EpochOptions) : EpochOptions where
  maxTransactions := max 1 options.maxTransactions
  maxEncodedBytes := max 1 options.maxEncodedBytes
  latencySloUs := max 1 options.latencySloUs
  minTransactionsUnderLoad :=
    min (max 1 options.maxTransactions) (max 1 options.minTransactionsUnderLoad)
  deepQueueThreshold := max 1 options.deepQueueThreshold

structure AdaptiveEpochController where
  options : EpochOptions
  bytesPerTransactionEwma : UInt64 := 0
  walSyncUsEwma : UInt64 := 0

namespace AdaptiveEpochController

def saturatingMultiply (left right : UInt64) : UInt64 :=
  if left = 0 ∨ right = 0 then 0
  else if left > 0xffffffffffffffff / right then 0xffffffffffffffff
  else left * right

def ewma (previous sample : UInt64) : UInt64 :=
  if previous = 0 then sample else previous - previous / 8 + sample / 8

/-- A group was written.  The time of the sync may be unknown. -/
def observe (controller : AdaptiveEpochController) (walSyncUs : Option UInt64)
    (transactions encodedBytes : UInt64) : AdaptiveEpochController :=
  if transactions = 0 then controller
  else
    { controller with
      walSyncUsEwma := (walSyncUs.map (ewma controller.walSyncUsEwma)).getD controller.walSyncUsEwma
      bytesPerTransactionEwma :=
        ewma controller.bytesPerTransactionEwma (encodedBytes / transactions) }

def bytesForTarget (controller : AdaptiveEpochController) (target : UInt32) : UInt64 :=
  min controller.options.maxEncodedBytes
    (saturatingMultiply controller.bytesPerTransactionEwma target.toUInt64)

/-- The limits for a queue.  How long the worker waits for more requests is left out. -/
def nextLimits (controller : AdaptiveEpochController) (pressure : PressureState)
    (depth oldestAgeUs : UInt64) : EpochLimits :=
  let options := controller.options
  match pressure with
  | .hard => ⟨1, min options.maxEncodedBytes (512 * 1024)⟩
  | .soft => ⟨max 1 (options.maxTransactions / 2), max 1 (options.maxEncodedBytes / 2)⟩
  | .normal =>
      if depth ≤ 1 then
        ⟨1, options.maxEncodedBytes⟩
      else
        let maxTransactions :=
          if depth ≥ options.deepQueueThreshold.toUInt64 then options.maxTransactions
          else (min options.maxTransactions.toUInt64
            (max options.minTransactionsUnderLoad.toUInt64 depth)).toUInt32
        if oldestAgeUs > options.latencySloUs ∧
            ¬ controller.walSyncUsEwma ≥ options.latencySloUs then
          let maxTransactions := max options.minTransactionsUnderLoad (maxTransactions / 2)
          ⟨maxTransactions,
            if controller.bytesPerTransactionEwma ≠ 0 then
              max 1 (controller.bytesForTarget maxTransactions)
            else
              max 1 (options.maxEncodedBytes / 2)⟩
        else
          ⟨maxTransactions,
            if controller.bytesPerTransactionEwma ≠ 0 then
              max 1 (controller.bytesForTarget maxTransactions)
            else
              options.maxEncodedBytes⟩

end AdaptiveEpochController

/-! ### The queue -/

structure AppendCommitRequest where
  /-- The number of requests which were admitted before. -/
  id : Nat
  estimatedBytes : UInt64
  footprint : CommitFootprint

structure AppendConfig where
  maxQueueRequests : Nat
  maxQueueBytes : UInt64
  maxBatchSize : UInt32
  maxBatchBytes : UInt64

/-- The queue and the group which is written.  The last four fields only tell what has happened. -/
structure AppendQueue where
  queue : List AppendCommitRequest := []
  queuedBytes : UInt64 := 0
  reservedBytes : UInt64 := 0
  /-- The requests of a group which was decided in advance. -/
  slot : Option (List Nat) := none
  pipelinedAdmission : Bool := false
  /-- The requests which are marked as cancelled. -/
  cancelled : List Nat := []
  /-- The group which is written. -/
  active : List AppendCommitRequest := []
  /-- The group with results whose bytes are still reserved. -/
  finishing : List AppendCommitRequest := []
  pressure : PressureController := {}
  runtimePressureState : PressureState := .normal
  runtimeTargetCount : UInt32 := 128
  runtimeTargetBytes : UInt64 := 2 * 1024 * 1024
  epochs : AdaptiveEpochController
  admitted : Nat := 0
  selected : List Nat := []
  removed : List Nat := []
  results : List Nat := []

/-- A section of the append mutex, the mark of a cancellation before it, or a store of an atomic
variable of the pressure.  The stores come in any order, so that a group may see some of them. -/
inductive AppendStep where
  /-- A request is submitted.  It is not permitted while the pipeline stops, or under pressure. -/
  | submit (estimatedBytes : UInt64) (footprint : CommitFootprint) (permitted pipelined : Bool)
  | markCancelled (id : Nat)
  | cancel (id : Nat)
  | plan (ids : List Nat)
  | select (oldestAgeUs : UInt64)
  | finish (ok : Bool) (walSyncUs : Option UInt64) (keepSlot : Bool)
  | release
  | observePressure (sample : PressureSample)
  | storePressureState
  | storeTargetCount
  | storeTargetBytes

namespace AppendQueue

variable (config : AppendConfig)

variable (state : AppendQueue)

def hasCapacity (estimatedBytes : UInt64) : Bool :=
  state.queue.length < config.maxQueueRequests &&
    estimatedBytes ≤ config.maxQueueBytes - min state.reservedBytes config.maxQueueBytes &&
    estimatedBytes ≤ config.maxQueueBytes - min state.queuedBytes config.maxQueueBytes

/-- A request is admitted, or it is rejected without an effect. -/
def submit (estimatedBytes : UInt64) (footprint : CommitFootprint) (permitted pipelined : Bool) :
    AppendQueue :=
  if estimatedBytes > config.maxBatchBytes ∨ ¬ permitted ∨
      ¬ state.hasCapacity config estimatedBytes then
    state
  else
    { state with
      queue := state.queue ++ [⟨state.admitted, estimatedBytes, footprint⟩]
      queuedBytes := state.queuedBytes + estimatedBytes
      reservedBytes := state.reservedBytes + estimatedBytes
      pipelinedAdmission := state.pipelinedAdmission || pipelined
      admitted := state.admitted + 1 }

/-- A request which is marked is taken from the queue, and a group with it is given up. -/
def cancel (id : Nat) : AppendQueue :=
  let slot := state.slot.filter fun ids => id ∉ ids
  match state.queue.find? fun request => request.id = id with
  | none => { state with slot }
  | some request =>
      { state with
        slot
        queue := state.queue.eraseP fun request => request.id = id
        queuedBytes := state.queuedBytes - request.estimatedBytes
        reservedBytes := state.reservedBytes - request.estimatedBytes
        removed := state.removed ++ [id] }

def limitsForQueue (oldestAgeUs : UInt64) : EpochLimits :=
  let limits := state.epochs.nextLimits state.runtimePressureState (.ofNat state.queue.length)
    oldestAgeUs
  ⟨min limits.maxTransactions (min config.maxBatchSize state.runtimeTargetCount),
    min limits.maxEncodedBytes (min config.maxBatchBytes state.runtimeTargetBytes)⟩

/-- The number of requests from the front of the queue which form a group. -/
def groupSize (targetBytes : UInt64) :
    (maximum : Nat) → CommitConflictIndex → (batchBytes : UInt64) → (first : Bool) →
    List AppendCommitRequest → Nat
  | 0, _, _, _, _ => 0
  | _, _, _, _, [] => 0
  | maximum + 1, index, batchBytes, first, candidate :: queue =>
      if ¬ first ∧ (batchBytes > targetBytes ∨
          candidate.estimatedBytes > targetBytes - batchBytes) then
        0
      else if index.canInsert candidate.footprint then
        groupSize targetBytes maximum (index.insert candidate.footprint)
          (batchBytes + candidate.estimatedBytes) false queue + 1
      else
        0

/-- The group which was decided in advance is at the front of the queue, none of its requests is
marked as cancelled, and no larger group can be formed by now. -/
def promotes (oldestAgeUs : UInt64) (ids : List Nat) : Bool :=
  (state.queue.take ids.length).map AppendCommitRequest.id = ids ∧
    (∀ id ∈ ids, id ∉ state.cancelled) ∧
    ¬ (state.pipelinedAdmission ∧
      min state.queue.length (state.limitsForQueue config oldestAgeUs).maxTransactions.toNat >
        ids.length)

/-- The number of requests which are taken from the queue. -/
def selectionSize (oldestAgeUs : UInt64) : Nat :=
  match state.slot.filter (state.promotes config oldestAgeUs) with
  | some ids => ids.length
  | none =>
      let limits := state.limitsForQueue config oldestAgeUs
      groupSize limits.maxEncodedBytes (min state.queue.length limits.maxTransactions.toNat) {} 0
        true state.queue

/-- The worker takes a group, unless there is one which is not released. -/
def select (oldestAgeUs : UInt64) : AppendQueue :=
  if state.active ≠ [] ∨ state.finishing ≠ [] then
    state
  else
    let group := state.queue.take (state.selectionSize config oldestAgeUs)
    { state with
      queue := state.queue.drop (state.selectionSize config oldestAgeUs)
      queuedBytes := group.foldl (fun bytes request => bytes - request.estimatedBytes)
        state.queuedBytes
      slot := none
      active := group
      selected := state.selected ++ group.map AppendCommitRequest.id }

/-- The group has results. -/
def finish (ok : Bool) (walSyncUs : Option UInt64) (keepSlot : Bool) : AppendQueue :=
  if state.active = [] then
    state
  else
    { state with
      epochs :=
        if ok then
          state.epochs.observe walSyncUs (.ofNat state.active.length)
            (state.active.map AppendCommitRequest.estimatedBytes).sum
        else state.epochs
      slot := if keepSlot then state.slot else none
      active := []
      finishing := state.active
      results := state.results ++ state.active.map AppendCommitRequest.id }

/-- The bytes of the group are no longer reserved. -/
def release : AppendQueue :=
  { state with
    reservedBytes :=
      state.reservedBytes - (state.finishing.map AppendCommitRequest.estimatedBytes).sum
    finishing := [] }

def step : AppendStep → AppendQueue
  | .submit estimatedBytes footprint permitted pipelined =>
      state.submit config estimatedBytes footprint permitted pipelined
  | .markCancelled id => { state with cancelled := id :: state.cancelled }
  | .cancel id => if id ∈ state.cancelled then state.cancel id else state
  -- a plan has requests
  | .plan ids => if ids = [] then state else { state with slot := some ids }
  | .select oldestAgeUs => state.select config oldestAgeUs
  | .finish ok walSyncUs keepSlot => state.finish ok walSyncUs keepSlot
  | .release => state.release
  | .observePressure sample => { state with pressure := state.pressure.observe sample }
  | .storePressureState => { state with runtimePressureState := state.pressure.state }
  | .storeTargetCount => { state with runtimeTargetCount := state.pressure.targetCount }
  | .storeTargetBytes => { state with runtimeTargetBytes := state.pressure.targetBytes }

/-- The queue after some steps. -/
def run (options : EpochOptions) (steps : List AppendStep) : AppendQueue :=
  steps.foldl (step config) { epochs := { options := options.normalize } }

end AppendQueue

/-! ### What the counters say -/

/-- The bytes of some requests. -/
def bytesOf (requests : List AppendCommitRequest) : Nat :=
  (requests.map fun request => request.estimatedBytes.toNat).sum

/-- The counters are the sums of the bytes, within the limit.  Of the admitted requests those which
were not removed were selected in order or are in the queue, and those which were selected have a
result or are in the group which is written. -/
structure AppendQueue.Accounted (config : AppendConfig) (state : AppendQueue) : Prop where
  queued : state.queuedBytes.toNat = bytesOf state.queue
  reserved : state.reservedBytes.toNat =
    bytesOf state.queue + bytesOf state.active + bytesOf state.finishing
  bounded : state.reservedBytes ≤ config.maxQueueBytes
  order : (range state.admitted).filter (· ∉ state.removed) =
    state.selected ++ state.queue.map AppendCommitRequest.id
  removed : state.removed.Nodup ∧ ∀ id ∈ state.removed, id < state.admitted
  results : state.selected = state.results ++ state.active.map AppendCommitRequest.id

@[simp]
theorem bytesOf_nil :
  bytesOf [] = 0
  := rfl

@[simp]
theorem bytesOf_cons (request : AppendCommitRequest) (requests : List AppendCommitRequest) :
  bytesOf (request :: requests) = request.estimatedBytes.toNat + bytesOf requests
  := by
  simp [bytesOf]

@[simp]
theorem bytesOf_append (requests requests' : List AppendCommitRequest) :
  bytesOf (requests ++ requests') = bytesOf requests + bytesOf requests'
  := by
  simp [bytesOf]

/-- The bytes of a group are taken from a counter one after another. -/
theorem toNat_foldl_sub {group : List AppendCommitRequest} {bytes : UInt64}
    (h : bytesOf group ≤ bytes.toNat) :
  (group.foldl (fun bytes request => bytes - request.estimatedBytes) bytes).toNat =
    bytes.toNat - bytesOf group
  := by
  induction group generalizing bytes with
  | nil => rfl
  | cons request group ih =>
    rw [bytesOf_cons] at h ⊢
    have hle : request.estimatedBytes ≤ bytes := UInt64.le_iff_toNat_le.mpr (by omega)
    have hsub := UInt64.toNat_sub_of_le _ _ hle
    rw [foldl_cons, ih (by omega)]
    omega

/-- The sum of the bytes of a group, unless it is too large. -/
theorem toNat_sum {group : List AppendCommitRequest} (h : bytesOf group < 2 ^ 64) :
  (group.map AppendCommitRequest.estimatedBytes).sum.toNat = bytesOf group
  := by
  induction group with
  | nil => rfl
  | cons request group ih =>
    rw [bytesOf_cons] at h ⊢
    rw [map_cons, sum_cons, UInt64.toNat_add, ih (by omega), mod_eq_of_lt h]

namespace AppendQueue

variable {config : AppendConfig} {state : AppendQueue}

namespace Accounted

/-- No request is counted twice. -/
theorem nodup (h : Accounted config state) :
  (state.selected ++ state.queue.map AppendCommitRequest.id).Nodup
  := by
  rw [← h.order]
  exact nodup_range.filter _

theorem bytesOf_le (h : Accounted config state) :
  bytesOf state.queue + bytesOf state.active + bytesOf state.finishing ≤
    config.maxQueueBytes.toNat
  := by
  rw [← h.reserved]
  exact UInt64.le_iff_toNat_le.mp h.bounded

theorem submit (h : Accounted config state) (estimatedBytes : UInt64)
    (footprint : CommitFootprint) (permitted pipelined : Bool) :
  Accounted config (state.submit config estimatedBytes footprint permitted pipelined)
  := by
  rw [AppendQueue.submit]
  split
  · exact h
  case isFalse hadmitted =>
    push Not at hadmitted
    obtain ⟨-, -, hcapacity⟩ := hadmitted
    rw [hasCapacity, Bool.and_eq_true, Bool.and_eq_true] at hcapacity
    have hle := of_decide_eq_true hcapacity.1.2
    rw [min_eq_left h.bounded, UInt64.le_iff_toNat_le, UInt64.toNat_sub_of_le _ _ h.bounded] at hle
    have hbound := h.bytesOf_le
    have hreserved := h.reserved
    have hqueued := h.queued
    have hlt := config.maxQueueBytes.toNat_lt
    -- neither sum is too large for its counter
    have hsum : (state.reservedBytes + estimatedBytes).toNat =
        state.reservedBytes.toNat + estimatedBytes.toNat := by
      rw [UInt64.toNat_add, mod_eq_of_lt (by omega)]
    have hsum' : (state.queuedBytes + estimatedBytes).toNat =
        state.queuedBytes.toNat + estimatedBytes.toNat := by
      rw [UInt64.toNat_add, mod_eq_of_lt (by omega)]
    refine ⟨?_, ?_, ?_, ?_, ?_, h.results⟩
    · simp [hsum', hqueued]
    · simp only [bytesOf_append, bytesOf_cons, bytesOf_nil]
      omega
    · rw [UInt64.le_iff_toNat_le, hsum]
      omega
    · have hnew : state.admitted ∉ state.removed := fun hmem =>
        absurd (h.removed.2 _ hmem) (lt_irrefl _)
      simp only [range_succ, filter_append, h.order]
      simp [hnew]
    · exact ⟨h.removed.1, fun id hid => lt_succ_of_lt (h.removed.2 id hid)⟩

theorem cancel (h : Accounted config state) (id : Nat) :
  Accounted config (state.cancel id)
  := by
  rw [AppendQueue.cancel]
  split
  · exact { h with }
  case h_2 request hfound =>
    obtain ⟨hid, before, after, hqueue, hbefore⟩ := find?_eq_some_iff_append.mp hfound
    have herase : (state.queue.eraseP fun request => request.id = id) = before ++ after := by
      rw [hqueue, eraseP_append_right _ (by simpa using hbefore)]
      simp only [eraseP_cons, hid, cond_true]
    have hid : request.id = id := of_decide_eq_true hid
    have hqueued := h.queued
    have hreserved := h.reserved
    rw [hqueue, bytesOf_append, bytesOf_cons] at hqueued hreserved
    have hsub := UInt64.toNat_sub_of_le state.queuedBytes request.estimatedBytes
      (UInt64.le_iff_toNat_le.mpr (by omega))
    have hsub' := UInt64.toNat_sub_of_le state.reservedBytes request.estimatedBytes
      (UInt64.le_iff_toNat_le.mpr (by omega))
    have hnodup := h.nodup
    have horder := h.order
    rw [hqueue, map_append, map_cons, hid] at hnodup horder
    -- the request was admitted, and it was not removed before
    have hmem : id ∈ (range state.admitted).filter (· ∉ state.removed) := by
      rw [horder]
      simp
    obtain ⟨hlt, hnew⟩ := mem_filter.mp hmem
    rw [decide_eq_true_eq] at hnew
    refine ⟨?_, ?_, ?_, ?_, ?_, h.results⟩
    · dsimp only
      rw [herase, bytesOf_append]
      omega
    · dsimp only
      rw [herase, bytesOf_append]
      omega
    · refine le_trans ?_ h.bounded
      rw [UInt64.le_iff_toNat_le, hsub']
      omega
    · dsimp only
      have hfilter : (range state.admitted).filter (· ∉ state.removed ++ [id]) =
          ((range state.admitted).filter (· ∉ state.removed)).filter (· != id) := by
        rw [filter_filter]
        apply filter_congr
        intro other _
        simp only [mem_append, mem_singleton, not_or, Bool.decide_and, bne,
          beq_eq_decide, decide_not, Bool.and_comm]
      rw [hfilter, horder, ← hnodup.erase_eq_filter, herase, map_append,
        ← append_assoc, erase_append_right, erase_cons_head, append_assoc]
      intro hleft
      rw [← append_assoc] at hnodup
      exact (disjoint_of_nodup_append hnodup) hleft mem_cons_self
    · refine ⟨nodup_append.mpr ⟨h.removed.1, nodup_singleton _, ?_⟩, ?_⟩
      · intro other hother other' hother' heq
        rw [heq, mem_singleton.mp hother'] at hother
        exact hnew hother
      · intro other hother
        rcases mem_append.mp hother with hother | hother
        · exact h.removed.2 other hother
        · rw [mem_singleton.mp hother]
          exact mem_range.mp hlt

theorem select (h : Accounted config state) (oldestAgeUs : UInt64) :
  Accounted config (state.select config oldestAgeUs)
  := by
  rw [AppendQueue.select]
  split
  · exact h
  case isFalse hidle =>
    push Not at hidle
    obtain ⟨hactive, hfinishing⟩ := hidle
    have hsplit := take_append_drop (state.selectionSize config oldestAgeUs) state.queue
    have hqueued := h.queued
    have hreserved := h.reserved
    have horder := h.order
    rw [← hsplit, bytesOf_append] at hqueued hreserved
    rw [← hsplit, map_append, ← append_assoc] at horder
    rw [hactive, hfinishing, bytesOf_nil] at hreserved
    refine ⟨?_, ?_, h.bounded, horder, h.removed, ?_⟩
    · dsimp only
      rw [toNat_foldl_sub (by omega)]
      omega
    · dsimp only
      rw [hfinishing, bytesOf_nil]
      omega
    · dsimp only
      rw [h.results, hactive, map_nil, append_nil]

theorem finish (h : Accounted config state) (ok : Bool) (walSyncUs : Option UInt64)
    (keepSlot : Bool) (hfinishing : state.active ≠ [] → state.finishing = []) :
  Accounted config (state.finish ok walSyncUs keepSlot)
  := by
  rw [AppendQueue.finish]
  split
  · exact h
  case isFalse hactive =>
    have hreserved := h.reserved
    rw [hfinishing hactive] at hreserved
    refine { h with reserved := ?_, results := ?_ }
    · simpa using hreserved
    · simpa using h.results

theorem release (h : Accounted config state) :
  Accounted config state.release
  := by
  have hbound := h.bytesOf_le
  have hlt := config.maxQueueBytes.toNat_lt
  have hreserved := h.reserved
  have hsum := @toNat_sum state.finishing (by omega)
  have hsub := UInt64.toNat_sub_of_le state.reservedBytes
    (state.finishing.map AppendCommitRequest.estimatedBytes).sum
    (UInt64.le_iff_toNat_le.mpr (by omega))
  refine { h with reserved := ?_, bounded := ?_ }
  · rw [AppendQueue.release]
    dsimp only
    rw [bytesOf_nil]
    omega
  · refine le_trans ?_ h.bounded
    rw [AppendQueue.release, UInt64.le_iff_toNat_le, hsub]
    omega

end Accounted

end AppendQueue

/-! ### The limits are positive -/

/-- The targets of the pressure controller are within their bounds. -/
def PressureController.Bounded (controller : PressureController) : Prop :=
  64 ≤ controller.targetCount.toNat ∧ controller.targetCount.toNat ≤ 256

theorem PressureController.Bounded.observe {controller : PressureController}
    (h : controller.Bounded) (sample : PressureSample) :
  (controller.observe sample).Bounded
  := by
  have hmeasured : (((controller.observeRates sample).observeDeficit sample).observeState
      sample).Bounded := by
    unfold Bounded observeState recover observeDeficit observeRates
    grind [Bounded]
  rw [PressureController.observe]
  generalize ((controller.observeRates sample).observeDeficit sample).observeState sample =
    measured at hmeasured
  have hloaded : (measured.observeLoad sample).Bounded := by
    rw [observeLoad]
    split
    · split
      · obtain ⟨hlow, hhigh⟩ := hmeasured
        have hsum : (measured.targetCount + 64).toNat = measured.targetCount.toNat + 64 := by
          exact mod_eq_of_lt (by simp; omega)
        unfold Bounded
        rw [min_def]
        split
        · exact ⟨by simp, by simp⟩
        case isFalse hle =>
          rw [UInt32.le_iff_toNat_le] at hle
          simp only [hsum]
          simp at hle
          omega
      · exact hmeasured
    · unfold Bounded
      dsimp only
      split
      · decide
      · exact hmeasured
  have hlow : 64 ≤ (64 : UInt32).toNat ∧ (64 : UInt32).toNat ≤ 256 := by decide
  rw [setTargets]
  split
  · exact hlow
  · exact hlow
  · exact hloaded

namespace AdaptiveEpochController

variable {controller : AdaptiveEpochController}

@[simp]
theorem observe_options (walSyncUs : Option UInt64) (transactions encodedBytes : UInt64) :
  (controller.observe walSyncUs transactions encodedBytes).options = controller.options
  := by
  rw [observe]
  split <;> rfl

/-- The number of requests for a queue which is not deep. -/
theorem one_le_clamp {maximum minimum : UInt32} (hmax : 1 ≤ maximum) (hmin : 1 ≤ minimum)
    (depth : UInt64) :
  1 ≤ (min maximum.toUInt64 (max minimum.toUInt64 depth)).toUInt32
  := by
  have hlt := maximum.toNat_lt
  simp only [UInt32.le_iff_toNat_le] at hmax hmin ⊢
  have hclamp : (min maximum.toUInt64 (max minimum.toUInt64 depth)).toNat =
      min maximum.toNat (max minimum.toNat depth.toNat) := by
    simp only [min_def, max_def, UInt64.le_iff_toNat_le, UInt32.toNat_toUInt64]
    split <;> split <;> simp_all
  rw [UInt64.toNat_toUInt32, hclamp, mod_eq_of_lt (by omega)]
  exact le_min hmax (le_max_of_le_left hmin)

theorem nextLimits_pos (hmax : 1 ≤ controller.options.maxTransactions)
    (hmin : 1 ≤ controller.options.minTransactionsUnderLoad) (pressure : PressureState)
    (depth oldestAgeUs : UInt64) :
  1 ≤ (controller.nextLimits pressure depth oldestAgeUs).maxTransactions
  := by
  have hclamp := one_le_clamp hmax hmin depth
  rw [nextLimits.eq_def]
  cases pressure with
  | hard => exact le_refl _
  | soft => exact le_max_left _ _
  | normal =>
    dsimp only
    split
    · exact le_refl _
    · split
      · exact le_max_of_le_left hmin
      · dsimp only
        split
        · exact hmax
        · exact hclamp

end AdaptiveEpochController

namespace AppendQueue

variable {config : AppendConfig} {state : AppendQueue}

/-- What makes the limits positive, and what the group which is written allows. -/
structure Ready (state : AppendQueue) : Prop where
  maxTransactions : 1 ≤ state.epochs.options.maxTransactions
  minTransactions : 1 ≤ state.epochs.options.minTransactionsUnderLoad
  pressure : state.pressure.Bounded ∧ 64 ≤ state.runtimeTargetCount.toNat
  slot : state.slot ≠ some []
  /-- A group is released before another one is taken. -/
  phase : state.active ≠ [] → state.finishing = []

theorem Ready.init (options : EpochOptions) :
  Ready { epochs := { options := options.normalize } }
  := by
  refine ⟨le_max_left _ _, le_min (le_max_left _ _) (le_max_left _ _), ?_, by simp,
    fun h => absurd rfl h⟩
  exact (by decide : (64 ≤ (128 : UInt32).toNat ∧ (128 : UInt32).toNat ≤ 256) ∧
    64 ≤ (128 : UInt32).toNat)

theorem Ready.step (h : Ready state) (action : AppendStep) :
  Ready (state.step config action)
  := by
  obtain ⟨hmax, hmin, hpressure, hslot, hphase⟩ := h
  cases action with
  | submit estimatedBytes footprint permitted pipelined =>
    rw [AppendQueue.step, submit]
    split <;> exact ⟨hmax, hmin, hpressure, hslot, hphase⟩
  | markCancelled id => exact ⟨hmax, hmin, hpressure, hslot, hphase⟩
  | cancel id =>
    have hfilter : state.slot.filter (fun ids => id ∉ ids) ≠ some [] := by
      intro heq
      exact hslot (Option.filter_eq_some_iff.mp heq).1
    rw [AppendQueue.step, cancel]
    split
    · split <;> exact ⟨hmax, hmin, hpressure, hfilter, hphase⟩
    · exact ⟨hmax, hmin, hpressure, hslot, hphase⟩
  | plan ids =>
    rw [AppendQueue.step]
    split
    · exact ⟨hmax, hmin, hpressure, hslot, hphase⟩
    case isFalse hids => exact ⟨hmax, hmin, hpressure, by simpa using hids, hphase⟩
  | select oldestAgeUs =>
    rw [AppendQueue.step, select]
    split
    · exact ⟨hmax, hmin, hpressure, hslot, hphase⟩
    case isFalse hidle =>
      push Not at hidle
      exact ⟨hmax, hmin, hpressure, by simp, fun _ => hidle.2⟩
  | finish ok walSyncUs keepSlot =>
    rw [AppendQueue.step, finish]
    split
    · exact ⟨hmax, hmin, hpressure, hslot, hphase⟩
    · refine ⟨?_, ?_, hpressure, ?_, fun hactive => absurd rfl hactive⟩
      · cases ok <;> simpa using hmax
      · cases ok <;> simpa using hmin
      · cases keepSlot
        · simp
        · simpa using hslot
  | release => exact ⟨hmax, hmin, hpressure, hslot, fun _ => rfl⟩
  | observePressure sample =>
    exact ⟨hmax, hmin, ⟨hpressure.1.observe sample, hpressure.2⟩, hslot, hphase⟩
  | storeTargetCount => exact ⟨hmax, hmin, ⟨hpressure.1, hpressure.1.1⟩, hslot, hphase⟩
  | storePressureState | storeTargetBytes => exact ⟨hmax, hmin, hpressure, hslot, hphase⟩

theorem Ready.limitsForQueue_pos (h : Ready state) (hconfig : 0 < config.maxBatchSize)
    (oldestAgeUs : UInt64) :
  0 < (state.limitsForQueue config oldestAgeUs).maxTransactions.toNat
  := by
  have hlimits := AdaptiveEpochController.nextLimits_pos h.maxTransactions h.minTransactions
    state.runtimePressureState (.ofNat state.queue.length) oldestAgeUs
  have htarget := h.pressure.2
  have hpos : 0 < (state.limitsForQueue config oldestAgeUs).maxTransactions := by
    refine lt_min (lt_of_lt_of_le (by decide) hlimits) (lt_min hconfig ?_)
    rw [UInt32.lt_iff_toNat_lt]
    exact lt_of_lt_of_le (by decide) htarget
  exact UInt32.lt_iff_toNat_lt.mp hpos

/-! ### Every interleaving -/

theorem Accounted.init (options : EpochOptions) :
  Accounted config { epochs := { options := options.normalize } }
  := by
  refine ⟨rfl, rfl, ?_, rfl, ⟨nodup_nil, by simp⟩, rfl⟩
  exact zero_le _

theorem Accounted.step (h : Accounted config state) (hready : Ready state) (action : AppendStep) :
  Accounted config (state.step config action)
  := by
  cases action with
  | submit estimatedBytes footprint permitted pipelined =>
    exact h.submit estimatedBytes footprint permitted pipelined
  | markCancelled id | observePressure sample | storePressureState | storeTargetCount
  | storeTargetBytes => exact { h with }
  | cancel id =>
    rw [AppendQueue.step]
    split
    · exact h.cancel id
    · exact h
  | plan ids =>
    rw [AppendQueue.step]
    split
    · exact h
    · exact { h with }
  | select oldestAgeUs => exact h.select oldestAgeUs
  | finish ok walSyncUs keepSlot => exact h.finish ok walSyncUs keepSlot hready.phase
  | release => exact h.release

theorem run_ready_accounted (options : EpochOptions) (steps : List AppendStep) :
  Ready (run config options steps) ∧ Accounted config (run config options steps)
  := by
  induction steps using reverseRecOn with
  | nil => exact ⟨Ready.init options, Accounted.init options⟩
  | append_singleton steps action ih =>
    obtain ⟨hready, haccounted⟩ := ih
    rw [run, foldl_append]
    exact ⟨hready.step action, haccounted.step hready action⟩

/-- Three requests of which the second one is cancelled. -/
def threeRequests : List AppendStep :=
  [.submit 10 ⟨[1], [], [], []⟩ true true, .submit 20 ⟨[2], [], [], []⟩ true true,
    .submit 30 ⟨[3], [], [], []⟩ true true, .markCancelled 1, .cancel 1]

end AppendQueue

end Cedar
