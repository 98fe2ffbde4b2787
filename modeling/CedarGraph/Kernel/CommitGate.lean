import CedarGraph.Lib.Lists

/-!
# Closing a database while transactions commit

A commit registers itself in a counter, and looks afterwards whether the database is being closed.
Closing a database announces itself first, and waits afterwards until the counter is zero and the
pipeline of the commits is empty.  A request of a transaction may outlive the call which submitted
it, but only in the queue of the pipeline.

Every step of a thread up to the next atomic operation is a step of the model, as is everything
which is done under the mutex of the pipeline.
-/

namespace Cedar

open List

namespace CommitGate

/-- How a transaction commits. -/
inductive CommitMode where
  | sync
  | async
  | pipelined
  deriving DecidableEq

/-- The next operation of a thread which commits. -/
inductive CallPc where
  | loadClosed
  | fetchAdd
  | loadClosing
  | recheckClosed
  /-- The recheck has failed, and the registration is withdrawn. -/
  | withdraw
  /-- The commit has begun. -/
  | admitted
  /-- The request was submitted, and the thread waits for it. -/
  | submitted
  | endCommit
  | returned
  deriving DecidableEq

/-- Where a request is. -/
inductive RequestStage where
  | mailbox
  /-- A worker of the executor has it. -/
  | handoff
  | queued
  | selected
  | finished
  deriving DecidableEq

/-- A call which commits a transaction, with its request. -/
structure CommitCall where
  mode : CommitMode
  pc : CallPc := .loadClosed
  request : Option RequestStage := none

open CommitCall

/-- The next operation of a thread which closes the database. -/
inductive ClosePc where
  | storeClosing
  | waitForActiveCommitCalls
  | drainAppendCommitPipeline
  | prepareClose
  | stopAppendCommitPipeline
  | finishClose
  | storeClosed
  /-- The database is closed, and closing is over. -/
  | clearClosing
  /-- Closing has failed. -/
  | rollback
  | returned
  deriving DecidableEq

open ClosePc

/-- The part of a database which commits and closing share, with the threads. -/
structure State where
  closed : Bool := false
  closing : Bool := false
  activeCommitCalls : Int := 0
  executorStopping : Bool := false
  appendCommitStopping : Bool := false
  calls : List CommitCall := []
  closers : List ClosePc := []

open State

/-- A submission returns: a synchronous one when its request is finished, an asynchronous one when
it is selected, and a pipelined one when it is in the queue. -/
def submissionReturns : CommitMode → Option RequestStage → Bool
  | _, none => true
  | .sync, some stage => stage = .finished
  | .async, some stage => stage = .selected ∨ stage = .finished
  | .pipelined, some stage => stage = .queued ∨ stage = .selected ∨ stage = .finished

/-- The next operation of a call, with what it adds to the counter.  A submission may be refused for
other reasons than that the database is stopping. -/
def CommitCall.next (state : State) (accepted : Bool) (call : CommitCall) : CommitCall × Int :=
  match call.pc with
  | .loadClosed => ({ call with pc := if state.closed then .returned else .fetchAdd }, 0)
  | .fetchAdd => ({ call with pc := .loadClosing }, 1)
  | .loadClosing => ({ call with pc := if state.closing then .withdraw else .recheckClosed }, 0)
  | .recheckClosed => ({ call with pc := if state.closed then .withdraw else .admitted }, 0)
  | .withdraw => ({ call with pc := .returned }, -1)
  | .admitted =>
      let refused := match call.mode with
        | .sync => state.appendCommitStopping
        | .async | .pipelined => state.executorStopping
      if !accepted || refused then
        ({ call with pc := .endCommit }, 0)
      else
        match call.mode with
        | .sync => ({ call with pc := .submitted, request := some .queued }, 0)
        | .async | .pipelined => ({ call with pc := .submitted, request := some .mailbox }, 0)
  | .submitted =>
      if submissionReturns call.mode call.request then ({ call with pc := .endCommit }, 0)
      else (call, 0)
  | .endCommit => ({ call with pc := .returned }, -1)
  | .returned => (call, 0)

/-- What the threads of the executor and of the pipeline do with a request. -/
inductive RequestStep where
  /-- A worker takes it from the mailbox. -/
  | take
  /-- A worker hands it to the pipeline, which may refuse it. -/
  | handOff (accepted : Bool)
  | select
  | finish
  /-- A request which is still in the queue is cancelled after its deadline. -/
  | cancel

def CommitCall.advance (state : State) (call : CommitCall) : RequestStep → CommitCall
  | .take => if call.request = some .mailbox then { call with request := some .handoff } else call
  | .handOff accepted =>
      if call.request = some .handoff then
        let stage := if accepted && !state.appendCommitStopping then .queued else .finished
        { call with request := some stage }
      else
        call
  | .select => if call.request = some .queued then { call with request := some .selected } else call
  | .finish =>
      if call.request = some .selected then { call with request := some .finished } else call
  | .cancel => if call.request = some .queued then { call with request := some .finished } else call

/-- A request which the pipeline has and has not finished. -/
def CommitCall.inPipeline (call : CommitCall) : Bool :=
  call.request = some .queued ∨ call.request = some .selected

/-- A request which was not handed to the pipeline fails when the executor stops. -/
def CommitCall.stopExecutor (call : CommitCall) : CommitCall :=
  if call.request = some .mailbox then { call with request := some .finished } else call

/-- The next operation of a thread which closes the database, where a drain, the preparation of the
store and its end may fail. -/
def State.close (state : State) (j : Nat) (ok : Bool) : ClosePc → State
  | .storeClosing =>
      if state.closed || state.closing then
        { state with closers := state.closers.set j .returned }
      else
        { state with closing := true, closers := state.closers.set j .waitForActiveCommitCalls }
  | .waitForActiveCommitCalls =>
      if state.activeCommitCalls = 0 then
        { state with closers := state.closers.set j .drainAppendCommitPipeline }
      else
        state
  | .drainAppendCommitPipeline =>
      if state.calls.any CommitCall.inPipeline then
        state
      else
        { state with closers := state.closers.set j (if ok then .prepareClose else .rollback) }
  | .prepareClose =>
      { state with
        closers := state.closers.set j (if ok then .stopAppendCommitPipeline else .rollback) }
  | .stopAppendCommitPipeline =>
      { state with
        executorStopping := true
        appendCommitStopping := true
        calls := state.calls.map CommitCall.stopExecutor
        closers := state.closers.set j .finishClose }
  | .finishClose =>
      { state with closers := state.closers.set j (if ok then .storeClosed else .rollback) }
  | .storeClosed => { state with closed := true, closers := state.closers.set j .clearClosing }
  | .clearClosing => { state with closing := false, closers := state.closers.set j .returned }
  | .rollback => { state with closing := false, closers := state.closers.set j .returned }
  | .returned => state

/-- A step: a thread starts to commit or to close the database, or one of the threads goes on. -/
inductive Step where
  | beginCall (mode : CommitMode)
  | call (i : Nat) (accepted : Bool)
  | request (i : Nat) (step : RequestStep)
  | beginClose
  | close (j : Nat) (ok : Bool)

def State.step (state : State) : Step → State
  | .beginCall mode => { state with calls := state.calls ++ [{ mode := mode }] }
  | .call i accepted =>
      match state.calls[i]? with
      | none => state
      | some call =>
          let next := call.next state accepted
          { state with
            calls := state.calls.set i next.1
            activeCommitCalls := state.activeCommitCalls + next.2 }
  | .request i step =>
      match state.calls[i]? with
      | none => state
      | some call => { state with calls := state.calls.set i (call.advance state step) }
  | .beginClose => { state with closers := state.closers ++ [.storeClosing] }
  | .close j ok =>
      match state.closers[j]? with
      | none => state
      | some pc => state.close j ok pc

/-- A run. -/
def State.run (state : State) (steps : List Step) : State :=
  steps.foldl State.step state

/-! ### The invariant -/

/-- The call is counted. -/
def CommitCall.registered (call : CommitCall) : Bool :=
  match call.pc with
  | .loadClosed | .fetchAdd | .returned => false
  | _ => true

/-- The call is between the beginning and the end of a commit. -/
def CommitCall.inCommit (call : CommitCall) : Bool :=
  match call.pc with
  | .admitted | .submitted | .endCommit => true
  | _ => false

/-- The call has seen that the database is not being closed. -/
def CommitCall.passedClosing (call : CommitCall) : Bool :=
  call.inCommit || call.pc = .recheckClosed

/-- The request is on its way to the pipeline. -/
def CommitCall.onItsWay (call : CommitCall) : Bool :=
  call.request = some .mailbox ∨ call.request = some .handoff

/-- The thread is responsible for the announcement. -/
def ClosePc.announced : ClosePc → Bool
  | .storeClosing | .returned => false
  | _ => true

/-- The thread has seen that no commit is registered, and has not failed since. -/
def ClosePc.sawNoCommit : ClosePc → Bool
  | .drainAppendCommitPipeline | .prepareClose | .stopAppendCommitPipeline => true
  | _ => false

/-- The thread has also seen that the pipeline is empty. -/
def ClosePc.sawEmptyPipeline : ClosePc → Bool
  | .prepareClose | .stopAppendCommitPipeline => true
  | _ => false

/-- What holds along every run. -/
structure Invariant (state : State) : Prop where
  active : state.activeCommitCalls = state.calls.countP CommitCall.registered
  announced : state.closers.countP ClosePc.announced = if state.closing then 1 else 0
  closed : state.closed = true → ∀ pc ∈ state.closers, pc.announced = true → pc = .clearClosing
  /-- A request which is on its way to the pipeline is waited for. -/
  onItsWay : ∀ call ∈ state.calls, call.onItsWay = true → call.pc = .submitted
  noCommit : ∀ pc ∈ state.closers, pc.sawNoCommit = true →
    ∀ call ∈ state.calls, call.passedClosing = false
  emptyPipeline : ∀ pc ∈ state.closers, pc.sawEmptyPipeline = true →
    ∀ call ∈ state.calls, call.inPipeline = false

theorem countP_set_of_getElem? {α : Type} {l : List α} {i : Nat} {a b : α} (p : α → Bool)
    (h : l[i]? = some a) :
  (l.set i b).countP p + (p a).toNat = l.countP p + (p b).toNat
  := by
  induction l generalizing i with
  | nil => cases h
  | cons first rest ih =>
    cases i with
    | zero =>
      obtain rfl := Option.some.inj h
      cases ha : p first <;> cases hb : p b <;> simp [ha, hb]
    | succ i =>
      rw [set_cons_succ, countP_cons, countP_cons]
      have ih := ih h
      omega

theorem forall_mem_append_singleton {α : Type} {l : List α} {a : α} {P : α → Prop}
    (h : ∀ b ∈ l, P b) (ha : P a) :
  ∀ b ∈ l ++ [a], P b
  := forall_mem_append.mpr ⟨h, forall_mem_singleton.mpr ha⟩

theorem forall_mem_set {α : Type} {l : List α} {i : Nat} {a : α} {P : α → Prop}
    (h : ∀ b ∈ l, P b) (ha : P a) :
  ∀ b ∈ l.set i a, P b
  := by
  intro b hb
  obtain hb | rfl := mem_or_eq_of_mem_set hb
  · apply h b hb
  · exact ha

section Calls

variable {state : State} {call : CommitCall} {accepted : Bool}

/-- An operation changes the counter as it changes whether the call is counted. -/
theorem next_registered :
  (call.next state accepted).2 + ((call.registered).toNat : Int) =
    ((call.next state accepted).1.registered).toNat
  := by
  obtain ⟨mode, pc, request⟩ := call
  cases pc <;> cases mode <;> grind [CommitCall.next, CommitCall.registered]

/-- Only a call within a commit changes its request. -/
theorem next_request (hcall : call.passedClosing = false) :
  (call.next state accepted).1.request = call.request
  := by
  obtain ⟨mode, pc, request⟩ := call
  cases pc <;> simp_all [CommitCall.next, CommitCall.passedClosing, CommitCall.inCommit]

theorem advance_pc (step : RequestStep) :
  (call.advance state step).pc = call.pc
  := by
  cases step <;> grind [advance]

theorem advance_onItsWay {step : RequestStep} (h : (call.advance state step).onItsWay = true) :
  call.onItsWay = true
  := by
  cases step <;> grind [advance, onItsWay]

end Calls

section Steps

variable {state : State} {call : CommitCall} {i j : Nat} {pc : ClosePc}

theorem passedClosing_eq_false_of_registered (h : call.registered = false) :
  call.passedClosing = false
  := by
  obtain ⟨mode, pc, request⟩ := call
  cases pc <;> simp_all [registered, passedClosing, inCommit]

theorem ClosePc.sawNoCommit_of_sawEmptyPipeline (h : pc.sawEmptyPipeline = true) :
  pc.sawNoCommit = true
  := by
  cases pc <;> simp_all [sawEmptyPipeline, sawNoCommit]

theorem ClosePc.announced_of_sawNoCommit (h : pc.sawNoCommit = true) :
  pc.announced = true
  := by
  cases pc <;> simp_all [sawNoCommit, announced]

/-- A thread which is responsible for the announcement has made it. -/
theorem Invariant.closing_of_mem (h : Invariant state) (hpc : pc ∈ state.closers)
    (hannounced : pc.announced = true) :
  state.closing = true
  := by
  have hcount := h.announced
  have hpos : 0 < state.closers.countP ClosePc.announced :=
    countP_pos_iff.mpr ⟨pc, hpc, hannounced⟩
  cases hclosing : state.closing with
  | true => rfl
  | false =>
    rw [hclosing] at hcount
    simp only [Bool.false_eq_true, if_false] at hcount
    omega

/-- While a thread knows that no commit is registered, no request is on its way. -/
theorem Invariant.onItsWay_eq_false (h : Invariant state) (hpc : pc ∈ state.closers)
    (hsaw : pc.sawNoCommit = true) (hcall : call ∈ state.calls) :
  call.onItsWay = false
  := by
  apply Bool.eq_false_of_not_eq_true
  intro hway
  have hpassed := h.noCommit pc hpc hsaw call hcall
  rw [passedClosing, inCommit, h.onItsWay call hcall hway] at hpassed
  cases hpassed

/-- A step of a call keeps the invariant. -/
theorem Invariant.stepCall (h : Invariant state) (hcall : state.calls[i]? = some call)
    (accepted : Bool) :
  Invariant { state with
    calls := state.calls.set i (call.next state accepted).1
    activeCommitCalls := state.activeCommitCalls + (call.next state accepted).2 }
  := by
  have hmem := mem_of_getElem? hcall
  refine { h with active := ?_, onItsWay := ?_, noCommit := ?_, emptyPipeline := ?_ }
  · have hcount := countP_set_of_getElem? registered
      (b := (call.next state accepted).1) hcall
    have hnext := @next_registered state call accepted
    have hactive := h.active
    dsimp only
    omega
  · apply forall_mem_set h.onItsWay
    have hcall := h.onItsWay call hmem
    obtain ⟨mode, pc, request⟩ := call
    cases pc <;> cases mode <;>
      grind [CommitCall.next, CommitCall.onItsWay, submissionReturns]
  · intro pc hpc hsaw
    apply forall_mem_set (h.noCommit pc hpc hsaw)
    have hcall := h.noCommit pc hpc hsaw call hmem
    have hclosing := h.closing_of_mem hpc (announced_of_sawNoCommit hsaw)
    obtain ⟨mode, pc, request⟩ := call
    cases pc <;> grind [CommitCall.next, CommitCall.passedClosing, CommitCall.inCommit]
  · intro pc hpc hsaw
    apply forall_mem_set (h.emptyPipeline pc hpc hsaw)
    have hcommit := h.noCommit pc hpc (sawNoCommit_of_sawEmptyPipeline hsaw) call hmem
    rw [inPipeline, next_request hcommit]
    apply h.emptyPipeline pc hpc hsaw call hmem

/-- A step of a request keeps the invariant. -/
theorem Invariant.stepRequest (h : Invariant state) (hcall : state.calls[i]? = some call)
    (step : RequestStep) :
  Invariant { state with calls := state.calls.set i (call.advance state step) }
  := by
  have hmem := mem_of_getElem? hcall
  have hpc := @advance_pc state call step
  refine { h with active := ?_, onItsWay := ?_, noCommit := ?_, emptyPipeline := ?_ }
  · have hcount := countP_set_of_getElem? registered (b := call.advance state step) hcall
    have hsame : (call.advance state step).registered = call.registered := by
      rw [registered, registered, hpc]
    have hactive := h.active
    rw [hsame] at hcount
    dsimp only
    omega
  · apply forall_mem_set h.onItsWay
    rw [hpc]
    intro hway
    apply h.onItsWay call hmem (advance_onItsWay hway)
  · intro pc hpc' hsaw
    apply forall_mem_set (h.noCommit pc hpc' hsaw)
    rw [passedClosing, inCommit, hpc]
    apply h.noCommit pc hpc' hsaw call hmem
  · intro pc hpc' hsaw
    apply forall_mem_set (h.emptyPipeline pc hpc' hsaw)
    have hempty := h.emptyPipeline pc hpc' hsaw call hmem
    have hway := h.onItsWay_eq_false hpc' (sawNoCommit_of_sawEmptyPipeline hsaw) hmem
    clear h hpc
    cases step <;> grind [advance, CommitCall.onItsWay, inPipeline]

/-- Of the threads which close the database, only one has announced itself. -/
theorem Invariant.eq_of_mem_set (h : Invariant state) (hpc : state.closers[j]? = some pc)
    (hannounced : pc.announced = true) {next other : ClosePc}
    (hother : other ∈ state.closers.set j next) (hannounced' : other.announced = true) :
  other = next
  := by
  have hclosing := h.closing_of_mem (mem_of_getElem? hpc) hannounced
  have hcount := countP_set_of_getElem? ClosePc.announced (b := .returned) hpc
  have hone := h.announced
  rw [hclosing, if_pos rfl] at hone
  rw [hone, hannounced] at hcount
  have hnone : (state.closers.set j .returned).countP ClosePc.announced = 0 := by
    simp only [ClosePc.announced, Bool.toNat_true, Bool.toNat_false] at hcount ⊢
    omega
  obtain ⟨k, hk⟩ := mem_iff_getElem?.mp hother
  by_cases heq : j = k
  · obtain rfl := heq
    have hlt : j < state.closers.length := (List.getElem?_eq_some_iff.mp hpc).1
    rw [getElem?_set_self hlt] at hk
    exact (Option.some.inj hk).symm
  · have hk' : (state.closers.set j .returned)[k]? = some other := by
      rw [getElem?_set_ne heq] at hk ⊢
      exact hk
    cases countP_eq_zero.mp hnone other (mem_of_getElem? hk') hannounced'

/-- A thread which has announced itself goes on, where the flags may change. -/
theorem Invariant.stepClose (h : Invariant state) (hpc : state.closers[j]? = some pc)
    (hannounced : pc.announced = true) (next : ClosePc) {state' : State}
    (hcalls : state'.calls = state.calls)
    (hactive : state'.activeCommitCalls = state.activeCommitCalls)
    (hclosers : state'.closers = state.closers.set j next)
    (hclosing : state'.closing = next.announced)
    (hclosed : state'.closed = true → next.announced = true → next = .clearClosing)
    (hnoCommit : next.sawNoCommit = true → ∀ call ∈ state.calls, call.passedClosing = false)
    (hempty : next.sawEmptyPipeline = true → ∀ call ∈ state.calls, call.inPipeline = false) :
  Invariant state'
  := by
  have hclosing' := h.closing_of_mem (mem_of_getElem? hpc) hannounced
  constructor
  · rw [hactive, hcalls]
    exact h.active
  · have hcount := countP_set_of_getElem? ClosePc.announced (b := next) hpc
    have hone := h.announced
    cases hnext : next.announced <;> simp_all
  · intro hclosed' other hother hannounced'
    rw [hclosers] at hother
    obtain rfl := h.eq_of_mem_set hpc hannounced hother hannounced'
    apply hclosed hclosed' hannounced'
  · rw [hcalls]
    exact h.onItsWay
  · rw [hcalls]
    intro other hother hsaw
    rw [hclosers] at hother
    obtain rfl := h.eq_of_mem_set hpc hannounced hother (announced_of_sawNoCommit hsaw)
    apply hnoCommit hsaw
  · rw [hcalls]
    intro other hother hsaw
    rw [hclosers] at hother
    obtain rfl := h.eq_of_mem_set hpc hannounced hother
      (announced_of_sawNoCommit (sawNoCommit_of_sawEmptyPipeline hsaw))
    apply hempty hsaw

/-- A thread which has announced itself goes on, and no flag changes. -/
theorem Invariant.goOn (h : Invariant state) (hpc : state.closers[j]? = some pc)
    (hannounced : pc.announced = true) (hclear : pc ≠ .clearClosing) {next : ClosePc}
    (hnext : next.announced = true)
    (hnoCommit : next.sawNoCommit = true → ∀ call ∈ state.calls, call.passedClosing = false)
    (hempty : next.sawEmptyPipeline = true → ∀ call ∈ state.calls, call.inPipeline = false) :
  Invariant { state with closers := state.closers.set j next }
  := by
  have hmem := mem_of_getElem? hpc
  apply h.stepClose hpc hannounced next
  · rfl
  · rfl
  · rfl
  · exact (h.closing_of_mem hmem hannounced).trans hnext.symm
  · intro hclosed
    cases hclear (h.closed hclosed _ hmem hannounced)
  · exact hnoCommit
  · exact hempty

/-- A step keeps the invariant. -/
theorem Invariant.step (h : Invariant state) (step : Step) :
  Invariant (state.step step)
  := by
  cases step with
  | beginCall mode =>
    rw [State.step]
    refine { h with
      active := by simp [h.active, CommitCall.registered]
      onItsWay := forall_mem_append_singleton h.onItsWay nofun
      noCommit := ?_, emptyPipeline := ?_ }
    · intro pc hpc hsaw
      apply forall_mem_append_singleton (h.noCommit pc hpc hsaw) rfl
    · intro pc hpc hsaw
      apply forall_mem_append_singleton (h.emptyPipeline pc hpc hsaw) rfl
  | call i accepted =>
    rw [State.step]
    split
    · exact h
    case h_2 call hcall => apply h.stepCall hcall
  | request i step =>
    rw [State.step]
    split
    · exact h
    case h_2 call hcall => apply h.stepRequest hcall
  | beginClose =>
    rw [State.step]
    refine { h with
      announced := by simp [h.announced, ClosePc.announced]
      closed := fun hclosed => forall_mem_append_singleton (h.closed hclosed) nofun
      noCommit := forall_mem_append_singleton h.noCommit nofun
      emptyPipeline := forall_mem_append_singleton h.emptyPipeline nofun }
  | close j ok =>
    rw [State.step]
    split
    · exact h
    case h_2 pc hpc =>
      have hmem := mem_of_getElem? hpc
      cases pc with
      | storeClosing =>
        have hcount (next : ClosePc) := countP_set_of_getElem? ClosePc.announced (b := next) hpc
        rw [close]
        split
        case isTrue =>
          refine { h with
            announced := ?_, closed := fun hclosed => forall_mem_set (h.closed hclosed) nofun
            noCommit := forall_mem_set h.noCommit nofun
            emptyPipeline := forall_mem_set h.emptyPipeline nofun }
          have hcount := hcount .returned
          simpa [ClosePc.announced, h.announced] using hcount
        case isFalse hopen =>
          simp only [Bool.or_eq_true, not_or, Bool.not_eq_true] at hopen
          refine { h with
            announced := ?_, closed := ?_, noCommit := forall_mem_set h.noCommit nofun
            emptyPipeline := forall_mem_set h.emptyPipeline nofun }
          · have hcount := hcount .waitForActiveCommitCalls
            simpa [ClosePc.announced, h.announced, hopen.2] using hcount
          · intro hclosed
            rw [hopen.1] at hclosed
            cases hclosed
      | returned => exact h
      | waitForActiveCommitCalls =>
        rw [close]
        split
        case isTrue hzero =>
          apply h.goOn hpc rfl nofun rfl
          · -- the counter is zero, so no call is counted
            intro _ call hcall
            apply passedClosing_eq_false_of_registered
            have hcount : state.calls.countP CommitCall.registered = 0 := by
              have hactive := h.active
              omega
            apply Bool.eq_false_of_not_eq_true (countP_eq_zero.mp hcount call hcall)
          · intro hsaw
            cases hsaw
        · exact h
      | drainAppendCommitPipeline =>
        rw [close]
        split
        · exact h
        case isFalse hempty =>
          apply h.goOn hpc rfl nofun
          · cases ok <;> rfl
          · intro _
            apply h.noCommit _ hmem rfl
          · intro _ call hcall
            apply Bool.eq_false_of_not_eq_true
            intro hpipeline
            apply hempty (any_eq_true.mpr ⟨call, hcall, hpipeline⟩)
      | prepareClose =>
        apply h.goOn hpc rfl nofun
        · cases ok <;> rfl
        · intro _
          apply h.noCommit _ hmem rfl
        · intro _
          apply h.emptyPipeline _ hmem rfl
      | stopAppendCommitPipeline =>
        -- no request is in the mailbox any more
        have hcalls : state.calls.map CommitCall.stopExecutor = state.calls := by
          rw [map_congr_left, map_id]
          intro call hcall
          have hway := h.onItsWay_eq_false hmem rfl hcall
          simp_all [CommitCall.stopExecutor, CommitCall.onItsWay]
        apply h.stepClose hpc rfl .finishClose
        · exact hcalls
        · rfl
        · rfl
        · apply h.closing_of_mem hmem rfl
        · intro hclosed
          cases h.closed hclosed _ hmem rfl
        · simp [sawNoCommit]
        · simp [sawEmptyPipeline]
      | finishClose =>
        apply h.goOn hpc rfl nofun
        · cases ok <;> rfl
        · cases ok <;> simp [sawNoCommit]
        · cases ok <;> simp [sawEmptyPipeline]
      | storeClosed =>
        apply h.stepClose hpc rfl .clearClosing
        · rfl
        · rfl
        · rfl
        · apply h.closing_of_mem hmem rfl
        · simp
        · simp [sawNoCommit]
        · simp [sawEmptyPipeline]
      | clearClosing | rollback =>
        apply h.stepClose hpc rfl .returned
        · rfl
        · rfl
        · rfl
        · rfl
        · simp [ClosePc.announced]
        · simp [sawNoCommit]
        · simp [sawEmptyPipeline]

end Steps

theorem invariant_initial :
  Invariant {}
  := by
  constructor <;> simp

/-- The invariant holds along a run. -/
theorem Invariant.run {state : State} (h : Invariant state) (steps : List Step) :
  Invariant (state.run steps)
  := by
  induction steps generalizing state with
  | nil => exact h
  | cons step steps ih =>
    apply ih
    apply h.step

/-- Along every run, the counter is the number of the calls which are registered, and closing is
announced exactly while a thread closes the database.  There is never a second one, and when the
database is closed, that thread only takes its announcement back. -/
theorem one_closer_run (steps : List Step) :
  let state := State.run {} steps
  state.activeCommitCalls = state.calls.countP CommitCall.registered ∧
    state.closers.countP ClosePc.announced = (if state.closing then 1 else 0) ∧
    (state.closed = true → ∀ pc ∈ state.closers, pc.announced = true → pc = .clearClosing)
  := by
  have h := invariant_initial.run steps
  exact ⟨h.active, h.announced, h.closed⟩

/-- A thread which begins a commit without being interrupted. -/
def beginCommit (i : Nat) (mode : CommitMode) : List Step :=
  .beginCall mode :: List.replicate 4 (.call i true)

/-- Along every run, when the pipeline is stopped by a thread which closes the database, no thread is
within a commit and the pipeline is empty.  The counter is never negative, and after an attempt to
close the database which has failed a new commit begins. -/
theorem close_drains_commits (steps : List Step) :
  (∀ j : Nat, (State.run {} steps).closers[j]? = some .stopAppendCommitPipeline →
    ∀ call ∈ (State.run {} steps).calls, call.inCommit = false ∧ call.inPipeline = false) ∧
  0 ≤ (State.run {} steps).activeCommitCalls ∧
  ∀ (j : Nat) (ok : Bool) (mode : CommitMode), (State.run {} steps).closers[j]? = some .rollback →
    (((State.run {} steps).step (.close j ok)).run
        (beginCommit (State.run {} steps).calls.length mode)).calls[
          (State.run {} steps).calls.length]? = some { mode := mode, pc := .admitted }
  := by
  have h := invariant_initial.run steps
  refine ⟨?_, ?_, ?_⟩
  · intro j hpc call hcall
    have hmem := mem_of_getElem? hpc
    have hcommit := h.noCommit _ hmem rfl call hcall
    rw [passedClosing, Bool.or_eq_false_iff] at hcommit
    use hcommit.1, h.emptyPipeline _ hmem rfl call hcall
  · rw [h.active]
    apply Int.natCast_nonneg
  · intro j ok mode hpc
    have hclosed : (run {} steps).closed = false := by
      apply Bool.eq_false_of_not_eq_true
      intro hclosed
      cases h.closed hclosed _ (mem_of_getElem? hpc) rfl
    have hstep : (run {} steps).step (.close j ok) =
        { run {} steps with
          closing := false
          closers := (run {} steps).closers.set j .returned } := by
      rw [step, hpc]
      rfl
    rw [hstep]
    generalize run {} steps = state at hclosed ⊢
    simp [run, beginCommit, step, CommitCall.next, hclosed]

/-- A transaction commits while the database is closed, and a pipelined one is in the queue when its
call has returned. -/
def pipelinedThenClose : List Step :=
  beginCommit 0 .pipelined ++ [.call 0 true, .beginClose, .close 0 true, .request 0 .take,
    .request 0 (.handOff true), .call 0 true, .call 0 true, .close 0 true, .request 0 .select,
    .request 0 .finish, .close 0 true, .close 0 true]

theorem pipelinedThenClose_drains_commits :
  (State.run {} pipelinedThenClose).closers = [.stopAppendCommitPipeline] ∧
    ∀ call ∈ (State.run {} pipelinedThenClose).calls,
      call.inCommit = false ∧ call.inPipeline = false
  := by
  constructor
  · decide
  · apply (close_drains_commits pipelinedThenClose).1 0 (by decide)

end CommitGate

end Cedar
