import CedarGraph.Lib.Word

/-!
# The pressure controller

The controller decides from samples of the load whether transactions are admitted.  It smooths the
rates by averages which forget an eighth of the past with every sample, and leaves a state of
pressure after three healthy samples in a row.

The average of a rate which has become zero does not fall below seven, since an eighth of a lesser
number is zero.  The admitted rate can therefore stay above the one of the background work for
ever, and then no sample is healthy.
-/

namespace Cedar

open Function List UInt64 Nat

inductive PressureState where
  | normal
  | soft
  | hard
  deriving DecidableEq

/-- A sample of the load. -/
structure PressureSample where
  arrivalRate : UInt64 := 0
  l0Files : UInt64 := 0
  pendingCompactionBytes : UInt64 := 0
  immutableMemtablePercent : UInt64 := 0
  writeStopped : UInt64 := 0
  backgroundError : UInt64 := 0
  queueDepth : UInt64 := 0
  bytesPerTxn : UInt64 := 0
  walSyncUs : UInt64 := 0
  memtableUs : UInt64 := 0
  queueAgeUs : UInt64 := 0
  freeDiskBytes : UInt64 := 0xffffffffffffffff
  freeDiskPercent : UInt64 := 100
  sampleIntervalUs : UInt64 := 0
  admittedFactsBytesPerSec : UInt64 := 0
  completedBackgroundBytesPerSec : UInt64 := 0
  storageDebtBytes : UInt64 := 0
  immutableMemtableCount : UInt64 := 0
  columnarBacklogBuffers : UInt64 := 0
  columnarFlushPendingBytes : UInt64 := 0
  retainedWalBytes : UInt64 := 0

structure AdmissionDecision where
  admitted : Bool
  maxCount : UInt32
  maxBytes : UInt64
  collectionWindowUs : UInt64

structure PressureController where
  state : PressureState := .normal
  targetCount : UInt32 := 128
  targetBytes : UInt64 := 2 * 1024 * 1024
  collectionWindowUs : UInt64 := 200
  busyObservations : UInt32 := 0
  arrivalRateEwma : UInt64 := 0
  bytesPerTxnEwma : UInt64 := 0
  walSyncUsEwma : UInt64 := 0
  memtableUsEwma : UInt64 := 0
  queueAgeUsEwma : UInt64 := 0
  admittedRateEwma : UInt64 := 0
  backgroundRateEwma : UInt64 := 0
  projectedDebtBytes : UInt64 := 0
  deficitObservations : UInt32 := 0
  deficitDurationUs : UInt64 := 0
  recoveryObservations : UInt32 := 0

namespace PressureController

def gib : UInt64 := 1024 * 1024 * 1024
def softPendingCompactionBytes : UInt64 := 8 * gib
def hardPendingCompactionBytes : UInt64 := 32 * gib
def softRetainedWalBytes : UInt64 := 768 * 1024 * 1024
def hardRetainedWalBytes : UInt64 := gib
def pressureHorizonSeconds : UInt64 := 5
def maxWord : UInt64 := 0xffffffffffffffff

variable (controller : PressureController) (sample : PressureSample)

def diskSignalAvailable : Bool :=
  sample.freeDiskBytes ≠ maxWord

def lowDiskSoft : Bool :=
  diskSignalAvailable sample && (sample.freeDiskBytes < 10 * gib || sample.freeDiskPercent < 10)

def lowDiskHard : Bool :=
  diskSignalAvailable sample && (sample.freeDiskBytes < 4 * gib || sample.freeDiskPercent < 5)

def diskRecoveredSoft : Bool :=
  !diskSignalAvailable sample || (sample.freeDiskBytes ≥ 10 * gib && sample.freeDiskPercent ≥ 10)

def diskRecoveredHard : Bool :=
  !diskSignalAvailable sample || (sample.freeDiskBytes ≥ 4 * gib && sample.freeDiskPercent ≥ 5)

def saturatingAdd (left right : UInt64) : UInt64 :=
  if left > maxWord - right then maxWord else left + right

/-- The debt after the horizon, if the rates stay as they are. -/
def projectedDebt (base admitted completed : UInt64) : UInt64 :=
  if admitted ≤ completed then base
  else
    let deficit := admitted - completed
    let horizon :=
      if deficit > maxWord / pressureHorizonSeconds then maxWord
      else deficit * pressureHorizonSeconds
    saturatingAdd base horizon

/-- The average after a sample. -/
def ewma (old sample : UInt64) : UInt64 :=
  if old = 0 then sample else old - old / 8 + sample / 8

def observedStorageDebt : UInt64 :=
  max sample.storageDebtBytes sample.columnarFlushPendingBytes

/-- The averages after a sample.  Rates count only if the sample has an interval. -/
def observeRates : PressureController :=
  let admitted := if sample.sampleIntervalUs ≠ 0 then
    ewma controller.admittedRateEwma sample.admittedFactsBytesPerSec
    else controller.admittedRateEwma
  let background := if sample.sampleIntervalUs ≠ 0 then
    ewma controller.backgroundRateEwma sample.completedBackgroundBytesPerSec
    else controller.backgroundRateEwma
  { controller with
    arrivalRateEwma := ewma controller.arrivalRateEwma sample.arrivalRate
    bytesPerTxnEwma := ewma controller.bytesPerTxnEwma sample.bytesPerTxn
    walSyncUsEwma := ewma controller.walSyncUsEwma sample.walSyncUs
    memtableUsEwma := ewma controller.memtableUsEwma sample.memtableUs
    queueAgeUsEwma := ewma controller.queueAgeUsEwma sample.queueAgeUs
    admittedRateEwma := admitted
    backgroundRateEwma := background
    projectedDebtBytes := projectedDebt (observedStorageDebt sample) admitted background }

def ratesHealthy : Bool :=
  sample.sampleIntervalUs = 0 || controller.backgroundRateEwma ≥ controller.admittedRateEwma

/-- How many samples in a row have had a deficit, and for how long. -/
def observeDeficit : PressureController :=
  if sample.sampleIntervalUs ≠ 0 ∧
      controller.admittedRateEwma > controller.backgroundRateEwma then
    { controller with
      deficitObservations := controller.deficitObservations + 1
      deficitDurationUs := saturatingAdd controller.deficitDurationUs sample.sampleIntervalUs }
  else
    { controller with deficitObservations := 0, deficitDurationUs := 0 }

def isHard : Bool :=
  sample.writeStopped ≠ 0 || sample.backgroundError ≠ 0 || lowDiskHard sample ||
    sample.l0Files ≥ 24 || sample.pendingCompactionBytes ≥ hardPendingCompactionBytes ||
    sample.retainedWalBytes ≥ hardRetainedWalBytes || sample.immutableMemtableCount ≥ 4 ||
    sample.columnarBacklogBuffers ≥ 2 || sample.immutableMemtablePercent ≥ 90 ||
    (controller.deficitDurationUs ≥ pressureHorizonSeconds * 1000000 &&
      observedStorageDebt sample ≥ softPendingCompactionBytes &&
      controller.projectedDebtBytes ≥ hardPendingCompactionBytes)

def isSoft : Bool :=
  lowDiskSoft sample || sample.l0Files ≥ 16 ||
    sample.pendingCompactionBytes ≥ softPendingCompactionBytes ||
    sample.retainedWalBytes ≥ softRetainedWalBytes || sample.immutableMemtableCount ≥ 2 ||
    sample.columnarBacklogBuffers ≥ 1 || sample.immutableMemtablePercent ≥ 75 ||
    (controller.deficitObservations ≥ 3 &&
      controller.projectedDebtBytes ≥ softPendingCompactionBytes)

/-- The sample does not count for the recovery from hard pressure. -/
def staysHard : Bool :=
  isHard controller sample || !ratesHealthy controller sample || !diskRecoveredHard sample ||
    sample.l0Files ≥ 16 || sample.pendingCompactionBytes ≥ softPendingCompactionBytes ||
    sample.retainedWalBytes ≥ softRetainedWalBytes || sample.immutableMemtableCount ≥ 2 ||
    sample.columnarBacklogBuffers ≥ 1 || sample.immutableMemtablePercent ≥ 70

/-- The sample does not count for the recovery from soft pressure. -/
def staysSoft : Bool :=
  isSoft controller sample || !ratesHealthy controller sample || !diskRecoveredSoft sample ||
    sample.l0Files > 12 || sample.pendingCompactionBytes ≥ softPendingCompactionBytes / 2 ||
    sample.retainedWalBytes ≥ softRetainedWalBytes || sample.immutableMemtableCount ≠ 0 ||
    sample.columnarBacklogBuffers ≠ 0 || sample.immutableMemtablePercent ≠ 0

/-- The third sample in a row which counts for the recovery ends the state of pressure. -/
def recover (state : PressureState) : PressureController :=
  if controller.recoveryObservations + 1 ≥ 3 then
    { controller with state := state, recoveryObservations := 0 }
  else
    { controller with recoveryObservations := controller.recoveryObservations + 1 }

def observeState : PressureController :=
  match controller.state with
  | .hard =>
      if staysHard controller sample then { controller with recoveryObservations := 0 }
      else controller.recover (if isSoft controller sample then .soft else .normal)
  | .soft =>
      if isHard controller sample then
        { controller with state := .hard, recoveryObservations := 0 }
      else if staysSoft controller sample then { controller with recoveryObservations := 0 }
      else controller.recover .normal
  | .normal =>
      { controller with
        state := if isHard controller sample then .hard
          else if isSoft controller sample then .soft else .normal
        recoveryObservations := 0 }

/-- The size of the groups for the load. -/
def observeLoad : PressureController :=
  let busy := sample.arrivalRate ≥ 256 || sample.queueDepth ≥ 64
  if controller.state = .normal ∧ busy then
    if controller.busyObservations + 1 ≥ 4 then
      { controller with
        targetCount := min 256 (controller.targetCount + 64), busyObservations := 0 }
    else { controller with busyObservations := controller.busyObservations + 1 }
  else
    { controller with
      busyObservations := 0
      targetCount := if controller.state = .normal then 128 else controller.targetCount }

def setTargets : PressureController :=
  match controller.state with
  | .soft =>
      { controller with targetCount := 64, targetBytes := 1024 * 1024, collectionWindowUs := 200 }
  | .hard =>
      { controller with targetCount := 64, targetBytes := 512 * 1024, collectionWindowUs := 0 }
  | .normal => { controller with targetBytes := 2 * 1024 * 1024, collectionWindowUs := 200 }

def observe : PressureController :=
  let controller := (controller.observeRates sample).observeDeficit sample
  ((controller.observeState sample).observeLoad sample).setTargets

def observeAll (samples : List PressureSample) : PressureController :=
  samples.foldl observe controller

def decideAdmission (requestCount requestBytes deadlineUs : UInt64) : AdmissionDecision :=
  let admitted := controller.state ≠ .hard &&
    !(controller.state = .soft && deadlineUs = 0 && requestCount ≠ 0) &&
    !(requestCount ≥ controller.targetCount.toUInt64 || requestBytes ≥ controller.targetBytes)
  ⟨admitted, controller.targetCount, controller.targetBytes, controller.collectionWindowUs⟩

/-! ### Averages which decay -/

/-- What an average becomes by a sample of zero. -/
def decay (n : Nat) : Nat := n - n / 8

theorem min_decay (n : Nat) :
  min (decay n) 7 = min n 7
  := by
  unfold decay
  omega

theorem decay_of_le {n : Nat} (h : n ≤ 7) :
  decay n = n
  := by
  unfold decay
  omega

theorem toNat_ewma_zero (x : UInt64) :
  (ewma x 0).toNat = decay x.toNat
  := by
  unfold ewma decay
  split
  case isTrue h =>
    rw [h]
    rfl
  case isFalse h =>
    have hle : x / 8 ≤ x := by
      apply Nat.div_le_self
    have hzero : (0 : UInt64) / 8 = 0 := rfl
    rw [hzero, UInt64.add_zero, UInt64.toNat_sub_of_le _ _ hle]
    rfl

/-- An average does not fall below seven, and falls to seven. -/
theorem exists_iterate_decay (n : Nat) :
  ∃ K, ∀ k ≥ K, decay^[k] n = min n 7
  := by
  induction n using Nat.strong_induction_on with
  | h n ih =>
    by_cases hn : n ≤ 7
    · use 0
      intro k _
      rw [iterate_fixed (decay_of_le hn), Nat.min_eq_left hn]
    · have hlt : decay n < n := by
        unfold decay
        omega
      obtain ⟨K, hK⟩ := ih (decay n) hlt
      use K + 1
      intro k hk
      obtain ⟨k, rfl⟩ := Nat.exists_eq_add_one_of_ne_zero (Nat.ne_of_gt (Nat.lt_of_lt_of_le
        (Nat.succ_pos K) hk))
      rw [iterate_succ_apply, hK k (Nat.le_of_succ_le_succ hk), min_decay]

theorem min_iterate_decay (k n : Nat) :
  min (decay^[k] n) 7 = min n 7
  := by
  induction k generalizing n with
  | zero => rfl
  | succ k ih => rw [iterate_succ_apply, ih, min_decay]

theorem iterate_decay_sub_le {j k : Nat} (h : j ≤ k) (m n : Nat) :
  decay^[k] m - decay^[k] n ≤ decay^[j] m - decay^[j] n
  := by
  induction h with
  | refl => apply le_refl
  | step _ ih =>
    rw [iterate_succ_apply', iterate_succ_apply']
    apply le_trans _ ih
    unfold decay
    omega

/-- The debt is that of the base and the deficit, as far as a word holds it. -/
theorem toNat_projectedDebt (base admitted background : UInt64) :
  (projectedDebt base admitted background).toNat =
    min (2 ^ 64 - 1) (base.toNat + 5 * (admitted.toNat - background.toNat))
  := by
  have hmax : maxWord.toNat = 2 ^ 64 - 1 := rfl
  have hlimit : (maxWord / pressureHorizonSeconds).toNat = (2 ^ 64 - 1) / 5 := rfl
  have hhorizon : pressureHorizonSeconds.toNat = 5 := rfl
  have hbase := base.toNat_lt
  have hadd (x : UInt64) : (saturatingAdd base x).toNat =
      min (2 ^ 64 - 1) (base.toNat + x.toNat) := by
    have hx := x.toNat_lt
    have hrest : (maxWord - x).toNat = 2 ^ 64 - 1 - x.toNat := by
      rw [UInt64.toNat_sub_of_le _ _ (le_iff_toNat_le.mpr (by omega)), hmax]
    unfold saturatingAdd
    split <;> rename_i h <;> rw [gt_iff_lt, lt_iff_toNat_lt] at h
    · omega
    · rw [UInt64.toNat_add]
      omega
  unfold projectedDebt
  split <;> rename_i h <;> rw [le_iff_toNat_le] at h
  · omega
  · have hdeficit : (admitted - background).toNat = admitted.toNat - background.toNat :=
      UInt64.toNat_sub_of_le _ _ (le_iff_toNat_le.mpr (by omega))
    rw [hadd]
    split <;> rename_i h' <;> rw [gt_iff_lt, lt_iff_toNat_lt] at h'
    · omega
    · rw [UInt64.toNat_mul, hdeficit, hhorizon]
      omega

theorem soft_le_projectedDebt_iff (base admitted background : UInt64) :
  softPendingCompactionBytes ≤ projectedDebt base admitted background ↔
    8 * 2 ^ 30 ≤ base.toNat + 5 * (admitted.toNat - background.toNat)
  := by
  have hsoft : softPendingCompactionBytes.toNat = 8 * 2 ^ 30 := rfl
  rw [UInt64.le_iff_toNat_le, toNat_projectedDebt]
  omega

/-! ### One sample -/

section Observe

variable {controller : PressureController} {sample : PressureSample}

/-- The controller before it decides on its state. -/
def measured (controller : PressureController) (sample : PressureSample) : PressureController :=
  (controller.observeRates sample).observeDeficit sample

/-- The count of deficits is all that a deficit changes. -/
theorem measured_eq :
  (controller.measured sample).state = controller.state ∧
    (controller.measured sample).recoveryObservations = controller.recoveryObservations ∧
    (controller.measured sample).admittedRateEwma =
      (controller.observeRates sample).admittedRateEwma ∧
    (controller.measured sample).backgroundRateEwma =
      (controller.observeRates sample).backgroundRateEwma ∧
    (controller.measured sample).projectedDebtBytes =
      (controller.observeRates sample).projectedDebtBytes
  := by
  unfold measured observeDeficit
  split <;> exact ⟨rfl, rfl, rfl, rfl, rfl⟩

theorem observe_eq :
  controller.observe sample =
    (((controller.measured sample).observeState sample).observeLoad sample).setTargets
  := rfl

@[simp]
theorem state_observeLoad :
  (controller.observeLoad sample).state = controller.state
  := by
  unfold observeLoad
  grind

@[simp]
theorem state_setTargets :
  controller.setTargets.state = controller.state
  := by
  unfold setTargets
  split <;> rfl

/-- The averages and the counters do not depend on the load. -/
theorem counters_setTargets_observeLoad :
  (controller.observeLoad sample).setTargets.admittedRateEwma = controller.admittedRateEwma ∧
    (controller.observeLoad sample).setTargets.backgroundRateEwma =
      controller.backgroundRateEwma ∧
    (controller.observeLoad sample).setTargets.deficitObservations =
      controller.deficitObservations ∧
    (controller.observeLoad sample).setTargets.recoveryObservations =
      controller.recoveryObservations
  := by
  unfold setTargets observeLoad
  grind

/-- Nor do the averages and the count of deficits depend on the state. -/
theorem counters_observeState :
  (controller.observeState sample).admittedRateEwma = controller.admittedRateEwma ∧
    (controller.observeState sample).backgroundRateEwma = controller.backgroundRateEwma ∧
    (controller.observeState sample).deficitObservations = controller.deficitObservations
  := by
  unfold observeState recover
  grind

theorem state_observe :
  (controller.observe sample).state = ((controller.measured sample).observeState sample).state
  := by
  rw [observe_eq, state_setTargets, state_observeLoad]

/-- The averages after a sample are those which were measured. -/
theorem rates_observe :
  (controller.observe sample).admittedRateEwma = (controller.measured sample).admittedRateEwma ∧
    (controller.observe sample).backgroundRateEwma =
      (controller.measured sample).backgroundRateEwma
  := by
  simp only [observe_eq, counters_setTargets_observeLoad, counters_observeState, and_self]

theorem deficitObservations_observe :
  (controller.observe sample).deficitObservations =
    (controller.measured sample).deficitObservations
  := by
  rw [observe_eq, counters_setTargets_observeLoad.2.2.1, counters_observeState.2.2]

theorem recoveryObservations_observe :
  (controller.observe sample).recoveryObservations =
    ((controller.measured sample).observeState sample).recoveryObservations
  := by
  rw [observe_eq, counters_setTargets_observeLoad.2.2.2]

/-- No more than two samples have counted for a recovery which is not over. -/
theorem recoveryObservations_observe_lt :
  (controller.observe sample).recoveryObservations.toNat < 3
  := by
  have hzero : (0 : UInt32).toNat < 3 := by decide
  have hrecover (state : PressureState) :
      ((controller.measured sample).recover state).recoveryObservations.toNat < 3 := by
    unfold recover
    split
    case isTrue => exact hzero
    case isFalse h => exact Nat.lt_of_not_le fun hle => h (UInt32.le_iff_toNat_le.mpr hle)
  rw [recoveryObservations_observe, observeState]
  split
  · split
    · exact hzero
    · apply hrecover
  · split
    · exact hzero
    · split
      · exact hzero
      · apply hrecover
  · exact hzero

end Observe

section Tame

variable {controller : PressureController} {sample : PressureSample}

/-- The deficit of the averages is soft pressure. -/
def softDeficit (controller : PressureController) : Prop :=
  8 * 2 ^ 30 ≤ 5 * (controller.admittedRateEwma.toNat - controller.backgroundRateEwma.toNat)

instance (controller : PressureController) : Decidable controller.softDeficit :=
  inferInstanceAs (Decidable (_ ≤ _))

theorem softDeficit_observe :
  (controller.observe sample).softDeficit ↔ (controller.measured sample).softDeficit
  := by
  rw [softDeficit, softDeficit, rates_observe.1, rates_observe.2]

/-- A controller which is normal has not counted three samples with a large deficit. -/
def Tame (controller : PressureController) : Prop :=
  controller.state = .normal → 3 ≤ controller.deficitObservations → ¬controller.softDeficit

theorem tame_observe :
  (controller.observe sample).Tame
  := by
  intro hstate hcount hdeficit
  have hsoft : isSoft (controller.measured sample) sample = false := by
    rw [state_observe, observeState] at hstate
    unfold recover at hstate
    simp only [staysSoft] at hstate
    grind
  rw [softDeficit_observe, softDeficit, measured_eq.2.2.1, measured_eq.2.2.2.1] at hdeficit
  rw [deficitObservations_observe] at hcount
  have hprojected : softPendingCompactionBytes ≤
      (controller.measured sample).projectedDebtBytes := by
    rw [measured_eq.2.2.2.2, observeRates, soft_le_projectedDebt_iff]
    exact Nat.le_add_left_of_le hdeficit
  simp [isSoft, hcount, hprojected] at hsoft

end Tame

/-! ### Calm samples -/

/-- All rates, debts, counts and errors are zero, and the disk is free. -/
structure Calm (sample : PressureSample) : Prop where
  interval : sample.sampleIntervalUs ≠ 0
  arrivalRate : sample.arrivalRate = 0
  l0Files : sample.l0Files = 0
  pendingCompactionBytes : sample.pendingCompactionBytes = 0
  immutableMemtablePercent : sample.immutableMemtablePercent = 0
  writeStopped : sample.writeStopped = 0
  backgroundError : sample.backgroundError = 0
  queueDepth : sample.queueDepth = 0
  freeDiskBytes : sample.freeDiskBytes = maxWord
  admitted : sample.admittedFactsBytesPerSec = 0
  completed : sample.completedBackgroundBytesPerSec = 0
  storageDebtBytes : sample.storageDebtBytes = 0
  immutableMemtableCount : sample.immutableMemtableCount = 0
  columnarBacklogBuffers : sample.columnarBacklogBuffers = 0
  columnarFlushPendingBytes : sample.columnarFlushPendingBytes = 0
  retainedWalBytes : sample.retainedWalBytes = 0

section Calm

variable {controller : PressureController} {sample : PressureSample} (h : Calm sample)

include h

theorem Calm.observedStorageDebt_eq :
  observedStorageDebt sample = 0
  := by
  rw [observedStorageDebt, h.storageDebtBytes, h.columnarFlushPendingBytes]
  rfl

theorem Calm.isHard_eq :
  isHard controller sample = false
  := by
  have hdebt := h.observedStorageDebt_eq
  cases h
  simp +decide [isHard, lowDiskHard, diskSignalAvailable, *]

theorem Calm.isSoft_iff :
  isSoft controller sample = true ↔ 3 ≤ controller.deficitObservations ∧
    softPendingCompactionBytes ≤ controller.projectedDebtBytes
  := by
  cases h
  simp +decide [isSoft, lowDiskSoft, diskSignalAvailable, *]

theorem Calm.staysHard_eq :
  staysHard controller sample = !ratesHealthy controller sample
  := by
  have hhard := @Calm.isHard_eq controller sample h
  cases h
  simp +decide [staysHard, diskRecoveredHard, diskSignalAvailable, *]

theorem Calm.staysSoft_eq :
  staysSoft controller sample =
    (isSoft controller sample || !ratesHealthy controller sample)
  := by
  cases h
  simp +decide [staysSoft, diskRecoveredSoft, diskSignalAvailable, *]

/-- A controller which a calm sample leaves normal admits a transaction. -/
theorem Calm.admit_observe (hstate : (controller.observe sample).state = .normal) :
  ((controller.observe sample).decideAdmission 0 0 1).admitted = true
  := by
  rw [state_observe] at hstate
  have hcount : (controller.observe sample).targetCount = 128 := by
    rw [observe_eq, setTargets]
    simp [observeLoad, hstate, h.arrivalRate, h.queueDepth]
  have hbytes : (controller.observe sample).targetBytes = 2 * 1024 * 1024 := by
    rw [observe_eq, setTargets, state_observeLoad, hstate]
  rw [decideAdmission, hcount, hbytes, state_observe, hstate]
  dsimp only
  decide

/-- The averages decay. -/
theorem Calm.toNat_rates :
  (controller.observe sample).admittedRateEwma.toNat = decay controller.admittedRateEwma.toNat ∧
    (controller.observe sample).backgroundRateEwma.toNat =
      decay controller.backgroundRateEwma.toNat
  := by
  rw [rates_observe.1, rates_observe.2, measured_eq.2.2.1, measured_eq.2.2.2.1, observeRates,
    if_pos h.interval, if_pos h.interval, h.admitted, h.completed]
  exact ⟨toNat_ewma_zero _, toNat_ewma_zero _⟩

omit h

/-- The averages have a deficit. -/
def deficit (controller : PressureController) : Prop :=
  controller.backgroundRateEwma.toNat < controller.admittedRateEwma.toNat

theorem deficit_observe :
  (controller.observe sample).deficit ↔ (controller.measured sample).deficit
  := by
  rw [deficit, deficit, rates_observe.1, rates_observe.2]

theorem Calm.ratesHealthy_iff (h : Calm sample) :
  ratesHealthy controller sample = true ↔ ¬controller.deficit
  := by
  simp [ratesHealthy, h.interval, deficit, le_iff_toNat_le]

/-- A calm sample with a deficit counts. -/
theorem Calm.deficitObservations_of_deficit (h : Calm sample)
    (hdeficit : (controller.observe sample).deficit) :
  (controller.observe sample).deficitObservations = controller.deficitObservations + 1
  := by
  rw [deficit_observe, deficit, measured_eq.2.2.1, measured_eq.2.2.2.1] at hdeficit
  rw [deficitObservations_observe, measured, observeDeficit, if_pos ⟨h.interval, hdeficit⟩]
  rfl

theorem deficitObservations_of_not_deficit
    (hdeficit : ¬(controller.observe sample).deficit) :
  (controller.observe sample).deficitObservations = 0
  := by
  rw [deficit_observe, deficit, measured_eq.2.2.1, measured_eq.2.2.2.1] at hdeficit
  rw [deficitObservations_observe, measured, observeDeficit, if_neg fun h => hdeficit h.2]

/-- A calm sample is soft pressure if it is the third one with a deficit, and the deficit is
large. -/
theorem Calm.isSoft_measured_iff (h : Calm sample) :
  isSoft (controller.measured sample) sample = true ↔
    3 ≤ (controller.observe sample).deficitObservations ∧
      (controller.observe sample).softDeficit
  := by
  have hprojected : (controller.measured sample).projectedDebtBytes =
      projectedDebt 0 (controller.measured sample).admittedRateEwma
        (controller.measured sample).backgroundRateEwma := by
    rw [measured_eq.2.2.1, measured_eq.2.2.2.1, measured_eq.2.2.2.2, observeRates,
      h.observedStorageDebt_eq]
  rw [h.isSoft_iff, deficitObservations_observe, softDeficit_observe, hprojected,
    soft_le_projectedDebt_iff, UInt64.toNat_zero, Nat.zero_add]
  rfl

/-- A calm sample while the controller is normal. -/
theorem Calm.state_of_normal (h : Calm sample) (hstate : controller.state = .normal) :
  (controller.observe sample).state =
    if 3 ≤ (controller.observe sample).deficitObservations ∧
      (controller.observe sample).softDeficit then .soft else .normal
  := by
  rw [state_observe, observeState, measured_eq.1, hstate]
  simp only [h.isHard_eq, Bool.false_eq_true, if_false, h.isSoft_measured_iff]

/-- A calm sample without a deficit counts for the recovery. -/
theorem Calm.state_of_not_deficit (h : Calm sample)
    (hdeficit : ¬(controller.observe sample).deficit) :
  if controller.state = .normal ∨ 3 ≤ controller.recoveryObservations + 1 then
    (controller.observe sample).state = .normal
  else
    (controller.observe sample).recoveryObservations = controller.recoveryObservations + 1
  := by
  have hsoft : isSoft (controller.measured sample) sample = false := by
    rw [← Bool.not_eq_true, h.isSoft_measured_iff, deficitObservations_of_not_deficit hdeficit]
    exact fun hsoft => absurd hsoft.1 (by decide)
  rw [deficit_observe] at hdeficit
  have hhealthy := h.ratesHealthy_iff.mpr hdeficit
  rw [state_observe, recoveryObservations_observe, observeState, recover, recover, measured_eq.1,
    measured_eq.2.1]
  cases hcase : controller.state with
  | normal => simp [h.isHard_eq, hsoft]
  | hard =>
    by_cases hthird : 3 ≤ controller.recoveryObservations + 1
    · simp [h.staysHard_eq, hhealthy, hsoft, hthird]
    · simp [h.staysHard_eq, hhealthy, hthird]
  | soft =>
    by_cases hthird : 3 ≤ controller.recoveryObservations + 1
    · simp [h.isHard_eq, h.staysSoft_eq, hhealthy, hsoft, hthird]
    · simp [h.isHard_eq, h.staysSoft_eq, hhealthy, hsoft, hthird]

/-! ### Runs of calm samples -/

variable {samples : List PressureSample}

@[simp]
theorem observeAll_nil :
  controller.observeAll [] = controller
  := rfl

theorem observeAll_cons :
  controller.observeAll (sample :: samples) = (controller.observe sample).observeAll samples
  := rfl

theorem observeAll_append {more : List PressureSample} :
  controller.observeAll (samples ++ more) = (controller.observeAll samples).observeAll more
  := foldl_append

/-- What every sample leaves holds after all of them. -/
theorem observeAll_induction {P : PressureController → Prop} (hstart : P controller)
    (hstep : ∀ {controller sample}, P (observe controller sample)) :
  P (controller.observeAll samples)
  := by
  obtain rfl | ⟨front, sample, rfl⟩ := samples.eq_nil_or_concat
  · exact hstart
  · rw [concat_eq_append, observeAll_append]
    apply hstep

theorem recoveryObservations_observeAll_lt
    (hrecovery : controller.recoveryObservations.toNat < 3) :
  (controller.observeAll samples).recoveryObservations.toNat < 3
  := observeAll_induction (P := fun controller => controller.recoveryObservations.toNat < 3)
    hrecovery recoveryObservations_observe_lt

theorem toNat_rates_observeAll (h : ∀ sample ∈ samples, Calm sample) :
  (controller.observeAll samples).admittedRateEwma.toNat =
      decay^[samples.length] controller.admittedRateEwma.toNat ∧
    (controller.observeAll samples).backgroundRateEwma.toNat =
      decay^[samples.length] controller.backgroundRateEwma.toNat
  := by
  induction samples generalizing controller with
  | nil => exact ⟨rfl, rfl⟩
  | cons sample samples ih =>
    obtain ⟨hsample, hsamples⟩ := forall_mem_cons.mp h
    rw [observeAll_cons, (ih hsamples).1, (ih hsamples).2, hsample.toNat_rates.1,
      hsample.toNat_rates.2, length_cons]
    exact ⟨rfl, rfl⟩

/-- The averages of the rates settle without a deficit. -/
def SettlesHealthy (controller : PressureController) : Prop :=
  min controller.admittedRateEwma.toNat 7 ≤ min controller.backgroundRateEwma.toNat 7

/-- If they settle with a deficit, they have one all along. -/
theorem deficit_of_not_settlesHealthy (hsettles : ¬controller.SettlesHealthy) :
  controller.deficit
  := by
  unfold SettlesHealthy at hsettles
  unfold deficit
  omega

theorem not_settlesHealthy_observe (hsettles : ¬controller.SettlesHealthy) (h : Calm sample) :
  ¬(controller.observe sample).SettlesHealthy
  := by
  rw [SettlesHealthy, h.toNat_rates.1, h.toNat_rates.2, min_decay, min_decay]
  exact hsettles

/-- Pressure lasts as long as there is a deficit. -/
theorem state_observeAll_ne_normal (hsettles : ¬controller.SettlesHealthy)
    (hstate : controller.state ≠ .normal) (h : ∀ sample ∈ samples, Calm sample) :
  (controller.observeAll samples).state ≠ .normal
  := by
  induction samples generalizing controller with
  | nil => exact hstate
  | cons sample samples ih =>
    obtain ⟨hsample, hsamples⟩ := forall_mem_cons.mp h
    have hsettles' := not_settlesHealthy_observe hsettles hsample
    apply ih hsettles' _ hsamples
    have hdeficit := deficit_of_not_settlesHealthy hsettles'
    rw [deficit_observe] at hdeficit
    have hhealthy : ratesHealthy (controller.measured sample) sample = false := by
      rw [← Bool.not_eq_true, hsample.ratesHealthy_iff]
      exact not_not_intro hdeficit
    rw [state_observe, observeState, measured_eq.1]
    cases hcase : controller.state with
    | normal => exact absurd hcase hstate
    | hard => simp [hsample.staysHard_eq, hhealthy]
    | soft => simp [hsample.isHard_eq, hsample.staysSoft_eq, hhealthy]

/-- Three calm samples without a deficit end the pressure. -/
theorem state_observeAll_of_le
    (hrates : controller.admittedRateEwma.toNat ≤ controller.backgroundRateEwma.toNat)
    (hrecovery : controller.recoveryObservations.toNat < 3)
    (h : ∀ sample ∈ samples, Calm sample)
    (hlength : controller.state = .normal ∨
      3 ≤ controller.recoveryObservations.toNat + samples.length) :
  (controller.observeAll samples).state = .normal
  := by
  induction samples generalizing controller with
  | nil =>
    obtain hstate | hlength := hlength
    · exact hstate
    · rw [length_nil] at hlength
      omega
  | cons sample samples ih =>
    obtain ⟨hsample, hsamples⟩ := forall_mem_cons.mp h
    have hrates' : (controller.observe sample).admittedRateEwma.toNat ≤
        (controller.observe sample).backgroundRateEwma.toNat := by
      rw [hsample.toNat_rates.1, hsample.toNat_rates.2]
      unfold decay
      omega
    have hstep := hsample.state_of_not_deficit (not_lt.mpr hrates')
    apply ih hrates' recoveryObservations_observe_lt hsamples
    split at hstep
    case isTrue => exact Or.inl hstep
    case isFalse hcount =>
      obtain ⟨hstate, hthird⟩ := not_or.mp hcount
      have hsucc : (controller.recoveryObservations + 1).toNat =
          controller.recoveryObservations.toNat + 1 := by
        rw [UInt32.toNat_add, UInt32.toNat_one]
        omega
      rw [hstep]
      have hlength := hlength.resolve_left hstate
      rw [length_cons] at hlength
      omega

/-- The controller comes back to normal and stays so, whatever calm samples follow. -/
def Recovers (controller : PressureController) : Prop :=
  ∃ N, ∀ samples, (∀ sample ∈ samples, Calm sample) → N ≤ samples.length →
    (controller.observeAll samples).state = .normal ∧
      ((controller.observeAll samples).decideAdmission 0 0 1).admitted = true

/-- It recovers if its state is normal after so many calm samples. -/
theorem recovers_of_state {N : Nat} (hstate : ∀ samples, (∀ sample ∈ samples, Calm sample) →
    N ≤ samples.length → (controller.observeAll samples).state = .normal) :
  controller.Recovers
  := by
  use N + 1
  intro samples h hlength
  have hnormal := hstate samples h (by omega)
  use hnormal
  -- the last sample sets the sizes which the admission compares with
  obtain rfl | ⟨front, sample, rfl⟩ := samples.eq_nil_or_concat
  · cases hlength
  · rw [concat_eq_append, observeAll_append] at hnormal ⊢
    apply Calm.admit_observe (h sample (by simp)) hnormal

theorem recovers_of_settlesHealthy (hsettles : controller.SettlesHealthy)
    (hrecovery : controller.recoveryObservations.toNat < 3) :
  controller.Recovers
  := by
  obtain ⟨K, hK⟩ := exists_iterate_decay controller.admittedRateEwma.toNat
  obtain ⟨K', hK'⟩ := exists_iterate_decay controller.backgroundRateEwma.toNat
  apply recovers_of_state (N := max K K' + 3)
  intro samples h hlength
  rw [← take_append_drop (max K K') samples, observeAll_append]
  have hfront : ∀ sample ∈ samples.take (max K K'), Calm sample :=
    fun sample hsample => h sample (mem_of_mem_take hsample)
  have hcount : (samples.take (max K K')).length = max K K' := by
    rw [length_take]
    omega
  apply state_observeAll_of_le
  · rw [(toNat_rates_observeAll hfront).1, (toNat_rates_observeAll hfront).2,
      hcount, hK _ (le_max_left K K'), hK' _ (le_max_right K K')]
    exact hsettles
  · apply recoveryObservations_observeAll_lt hrecovery
  · exact fun sample hsample => h sample (mem_of_mem_drop hsample)
  · rw [length_drop]
    omega

/-- The calm sample which is the third one with a deficit. -/
def thirdDeficit (controller : PressureController) : Nat :=
  max 1 (3 - controller.deficitObservations.toNat)

/-- The controller is normal, and the deficit is small when three samples have had one. -/
def StaysNormal (controller : PressureController) : Prop :=
  controller.state = .normal ∧
    5 * (decay^[controller.thirdDeficit] controller.admittedRateEwma.toNat -
      decay^[controller.thirdDeficit] controller.backgroundRateEwma.toNat) < 8 * 2 ^ 30

instance (controller : PressureController) : Decidable controller.SettlesHealthy :=
  inferInstanceAs (Decidable (_ ≤ _))

instance (controller : PressureController) : Decidable controller.StaysNormal :=
  inferInstanceAs (Decidable (_ ∧ _))

theorem softDeficit_observeAll_iff (h : ∀ sample ∈ samples, Calm sample) :
  (controller.observeAll samples).softDeficit ↔
    8 * 2 ^ 30 ≤ 5 * (decay^[samples.length] controller.admittedRateEwma.toNat -
      decay^[samples.length] controller.backgroundRateEwma.toNat)
  := by
  rw [softDeficit, (toNat_rates_observeAll h).1, (toNat_rates_observeAll h).2]

/-- A calm sample counts for at most one deficit. -/
theorem deficitObservations_observeAll_le (h : ∀ sample ∈ samples, Calm sample) :
  (controller.observeAll samples).deficitObservations.toNat ≤
    controller.deficitObservations.toNat + samples.length
  := by
  induction samples generalizing controller with
  | nil => apply Nat.le_refl
  | cons sample samples ih =>
    obtain ⟨hsample, hsamples⟩ := forall_mem_cons.mp h
    have hstep : (controller.observe sample).deficitObservations.toNat ≤
        controller.deficitObservations.toNat + 1 := by
      by_cases hdeficit : (controller.observe sample).deficit
      · rw [hsample.deficitObservations_of_deficit hdeficit]
        apply Nat.mod_le
      · rw [deficitObservations_of_not_deficit hdeficit]
        apply Nat.zero_le
    have hrest := @ih (controller.observe sample) hsamples
    rw [observeAll_cons, length_cons]
    omega

theorem state_observeAll_of_staysNormal (hstays : controller.StaysNormal)
    (h : ∀ sample ∈ samples, Calm sample) :
  (controller.observeAll samples).state = .normal
  := by
  induction samples using reverseRecOn with
  | nil => exact hstays.1
  | append_singleton samples sample ih =>
    have hsamples : ∀ sample ∈ samples, Calm sample :=
      fun other hother => h other (mem_append_left _ hother)
    have hsample : Calm sample := h sample (by simp)
    have hsoft : ¬(3 ≤ (controller.observeAll (samples ++ [sample])).deficitObservations ∧
        (controller.observeAll (samples ++ [sample])).softDeficit) := by
      rintro ⟨hcount, hdeficit⟩
      have hle : (controller.observeAll (samples ++ [sample])).deficitObservations.toNat ≤
          controller.deficitObservations.toNat + (samples ++ [sample]).length :=
        deficitObservations_observeAll_le h
      rw [softDeficit_observeAll_iff h] at hdeficit
      rw [UInt32.le_iff_toNat_le] at hcount
      rw [length_append, length_singleton] at hle hdeficit
      have hthree : (3 : UInt32).toNat = 3 := rfl
      have hthird : controller.thirdDeficit ≤ samples.length + 1 := by
        unfold thirdDeficit
        omega
      have hgap := iterate_decay_sub_le hthird controller.admittedRateEwma.toNat
        controller.backgroundRateEwma.toNat
      have hsmall := hstays.2
      omega
    rw [observeAll_append] at hsoft ⊢
    rw [observeAll_cons, observeAll_nil] at hsoft ⊢
    rw [hsample.state_of_normal (ih hsamples), if_neg hsoft]

theorem deficitObservations_observeAll (hsettles : ¬controller.SettlesHealthy)
    (h : ∀ sample ∈ samples, Calm sample)
    (hsmall : controller.deficitObservations.toNat + samples.length < 2 ^ 32) :
  (controller.observeAll samples).deficitObservations.toNat =
    controller.deficitObservations.toNat + samples.length
  := by
  induction samples generalizing controller with
  | nil => rfl
  | cons sample samples ih =>
    obtain ⟨hsample, hsamples⟩ := forall_mem_cons.mp h
    have hsettles' := not_settlesHealthy_observe hsettles hsample
    rw [length_cons] at hsmall
    have hstep : (controller.observe sample).deficitObservations.toNat =
        controller.deficitObservations.toNat + 1 := by
      rw [hsample.deficitObservations_of_deficit (deficit_of_not_settlesHealthy hsettles'),
        UInt32.toNat_add, UInt32.toNat_one]
      omega
    rw [observeAll_cons, ih hsettles' hsamples (by omega), length_cons]
    omega

/-- The sample which is calm and has defaults otherwise. -/
def calmSample : PressureSample := { sampleIntervalUs := 1 }

theorem calm_calmSample :
  Calm calmSample
  := by
  constructor <;> first | rfl | decide

theorem calm_replicate (n : Nat) :
  ∀ sample ∈ replicate n calmSample, Calm sample
  := by
  intro sample hsample
  rw [eq_of_mem_replicate hsample]
  apply calm_calmSample

/-- A controller which settles with a deficit leaves the normal state, unless the deficit is small
in time. -/
theorem exists_state_ne_normal (htame : controller.Tame) (hsettles : ¬controller.SettlesHealthy)
    (hstays : ¬controller.StaysNormal) :
  ∃ n, (controller.observeAll (List.replicate n calmSample)).state ≠ .normal
  := by
  by_cases hstate : controller.state = .normal
  case neg => exact ⟨0, hstate⟩
  have hlarge := not_lt.mp fun hsmall => hstays ⟨hstate, hsmall⟩
  have hfew : controller.deficitObservations.toNat < 3 := by
    by_contra hmany
    have hsoft := htame hstate (UInt32.le_iff_toNat_le.mpr (not_lt.mp hmany))
    have hgap := iterate_decay_sub_le (zero_le controller.thirdDeficit)
      controller.admittedRateEwma.toNat controller.backgroundRateEwma.toNat
    unfold softDeficit at hsoft
    rw [iterate_zero_apply, iterate_zero_apply] at hgap
    omega
  have hthird : controller.deficitObservations.toNat + controller.thirdDeficit = 3 := by
    unfold thirdDeficit
    omega
  obtain ⟨n, hn⟩ : ∃ n, controller.thirdDeficit = n + 1 := ⟨controller.thirdDeficit - 1, by
    omega⟩
  rw [hn] at hthird hlarge
  by_cases hbefore : (controller.observeAll (replicate n calmSample)).state = .normal
  case neg => exact ⟨n, hbefore⟩
  use n + 1
  -- this sample is the third one with a deficit, which is still large
  have hrun : controller.observeAll (replicate (n + 1) calmSample) =
      (controller.observeAll (replicate n calmSample)).observe calmSample := by
    rw [replicate_succ', observeAll_append]
    rfl
  have hsoft : (controller.observeAll (replicate (n + 1) calmSample)).softDeficit := by
    rw [softDeficit_observeAll_iff (calm_replicate _), length_replicate]
    exact hlarge
  have hcount : 3 ≤
      (controller.observeAll (replicate (n + 1) calmSample)).deficitObservations := by
    rw [UInt32.le_iff_toNat_le, deficitObservations_observeAll hsettles (calm_replicate _) (by
      rw [length_replicate]
      omega), length_replicate]
    exact le_of_eq hthird.symm
  rw [hrun] at hsoft hcount ⊢
  rw [calm_calmSample.state_of_normal hbefore, if_pos ⟨hcount, hsoft⟩]
  exact PressureState.noConfusion

theorem not_recovers (htame : controller.Tame) (hsettles : ¬controller.SettlesHealthy)
    (hstays : ¬controller.StaysNormal) :
  ¬controller.Recovers
  := by
  rintro ⟨N, hN⟩
  obtain ⟨n, hn⟩ := exists_state_ne_normal htame hsettles hstays
  have hsettles' : ¬(controller.observeAll (replicate n calmSample)).SettlesHealthy := by
    rw [SettlesHealthy, (toNat_rates_observeAll (calm_replicate n)).1,
      (toNat_rates_observeAll (calm_replicate n)).2, min_iterate_decay, min_iterate_decay]
    exact hsettles
  have hlater := state_observeAll_ne_normal hsettles' hn (calm_replicate N)
  rw [← observeAll_append] at hlater
  apply hlater
  apply (hN _ _ _).1
  · intro sample hsample
    obtain hsample | hsample := mem_append.mp hsample
    · apply calm_replicate n sample hsample
    · apply calm_replicate N sample hsample
  · rw [length_append, length_replicate, length_replicate]
    omega

theorem tame_observeAll (samples : List PressureSample) :
  ((({} : PressureController).observeAll samples).Tame)
  := by
  apply observeAll_induction _ tame_observe
  exact fun _ hcount => absurd hcount (by decide)

/-- A fresh controller recovers from some samples exactly if the averages of the rates settle
without a deficit, or it is normal and the deficit is small in time. -/
theorem recovers_observeAll_iff (samples : List PressureSample) :
  (({} : PressureController).observeAll samples).Recovers ↔
    (({} : PressureController).observeAll samples).SettlesHealthy ∨
      (({} : PressureController).observeAll samples).StaysNormal
  := by
  constructor
  · intro hrecovers
    by_contra h
    obtain ⟨hsettles, hstays⟩ := not_or.mp h
    exact not_recovers (tame_observeAll samples) hsettles hstays hrecovers
  · rintro (hsettles | hstays)
    · apply recovers_of_settlesHealthy hsettles
      apply recoveryObservations_observeAll_lt
      decide
    · apply recovers_of_state (N := 0)
      intro calm hcalm _
      apply state_observeAll_of_staysNormal hstays hcalm

/-- A sample of a store which has stopped writes, with some bytes admitted. -/
def stoppedSample : PressureSample :=
  { writeStopped := 1, sampleIntervalUs := 1000000, admittedFactsBytesPerSec := 8 }

/-- After that sample the controller stays under hard pressure for ever. -/
theorem stoppedSample_not_recovers :
  ¬(({} : PressureController).observeAll [stoppedSample]).Recovers
  := by
  apply not_recovers (tame_observeAll _)
  · decide
  · exact fun h => absurd h.1 (by decide)

end Calm

end PressureController

end Cedar
