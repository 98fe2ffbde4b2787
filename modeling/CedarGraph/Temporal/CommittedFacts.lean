import CedarGraph.Temporal.CorrectedChain

/-!
# Committed facts

The committed facts of a database are valid events, no two of which share reference, valid time
and commit.  The events of one reference form a chain.
-/

namespace Cedar

/-- Valid events, no two of which share reference, valid time and commit. -/
structure CommittedFacts where
  events : List FactEvent
  /-- Every event passes its check. -/
  valid : ∀ event ∈ events, event.validate = .ok ()
  /-- A commit changes the state of a fact from a valid time on once. -/
  distinct : (events.map fun event => (event.ref, event.chainKey)).Nodup

namespace CommittedFacts

variable (facts : CommittedFacts)

/-- The chain of a reference. -/
def chain (ref : FactRef) : FactChain where
  ref := ref
  events := facts.events.filter fun event => event.ref = ref
  valid event hevent := facts.valid event (List.mem_filter.mp hevent).1
  sameRef event hevent := of_decide_eq_true (List.mem_filter.mp hevent).2
  distinct := by
    have hpairs := List.pairwise_map.mp facts.distinct
    apply List.pairwise_map.mpr
    apply (hpairs.filter _).imp_of_mem
    intro e f he hf hne heq
    apply hne
    rw [of_decide_eq_true (List.mem_filter.mp he).2, of_decide_eq_true (List.mem_filter.mp hf).2,
      heq]

theorem mem_chain_iff {ref : FactRef} {event : FactEvent} :
  event ∈ (facts.chain ref).events ↔ event ∈ facts.events ∧ event.ref = ref
  := by
  simp [chain]

/-- A reference without events has no state. -/
theorem stateAt_chain_eq_nil
    {ref : FactRef} (hnone : ∀ event ∈ facts.events, event.ref ≠ ref) (snapshotSeq : CommitSeq) :
  (facts.chain ref).stateAt snapshotSeq = []
  := by
  have hnil : (facts.chain ref).events = [] := by
    apply List.filter_eq_nil_iff.mpr
    simpa using hnone
  rw [FactChain.stateAt, FactChain.boundariesAt, hnil]
  rfl

/-- The fact has the value at the instant, as the snapshot corrects it. -/
def HasValueAt (snapshotSeq : CommitSeq) (ref : FactRef) (t : ValidTime) (value : Value) : Prop :=
  ∃ state ∈ (facts.chain ref).stateAt snapshotSeq,
    state.interval.Contains t ∧ state.value = some value

end CommittedFacts

end Cedar
