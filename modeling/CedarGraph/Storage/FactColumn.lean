import CedarGraph.Fact.Key

/-!
# The column of the facts

The storage engine keeps the committed facts in the order of their keys.  An iterator over them is
the list of the facts which it has not passed yet.
-/

namespace Cedar

open FactEvent List

/-- The key of an event. -/
def FactEvent.encodedKey (event : FactEvent) : List UInt8 :=
  encodeFactKey event.ref event.validFrom event.commitSeq

variable {event : FactEvent}

/-- A valid event has a valid reference. -/
theorem FactEvent.validate_ref (hvalid : event.validate = .ok ()) :
  event.ref.validate = .ok ()
  := by
  have hmutation := validateMutation_of_validate hvalid
  obtain ⟨_, href, -⟩ := StatusOr.bind_eq_ok_iff.mp hmutation
  exact href

/-- A valid event has a commit. -/
theorem FactEvent.commitSeq_ne_zero (hvalid : event.validate = .ok ()) :
  event.commitSeq ≠ 0
  := by
  intro hzero
  rw [validate, if_pos hzero] at hvalid
  cases hvalid

/-- The key of a valid event says where the event is. -/
theorem FactEvent.decodeFactKey_encodedKey (hvalid : event.validate = .ok ()) :
  decodeFactKey event.encodedKey = .ok ⟨event.ref, event.validFrom, event.commitSeq⟩
  := decodeFactKey_encodeFactKey (validate_ref hvalid) (commitSeq_ne_zero hvalid)

/-- Keys of valid events are ordered by reference, and from late to early valid times and
commits. -/
theorem FactEvent.encodedKey_lt_iff {e f : FactEvent} (he : e.validate = .ok ())
    (hf : f.validate = .ok ()) :
  e.encodedKey < f.encodedKey ↔ e.ref.storeKey < f.ref.storeKey ∨ e.ref = f.ref ∧
    (f.validFrom < e.validFrom ∨ e.validFrom = f.validFrom ∧ f.commitSeq < e.commitSeq)
  := encodeFactKey_lt_iff (validate_ref he) (commitSeq_ne_zero he) (validate_ref hf)
    (commitSeq_ne_zero hf)

/-- The valid events of a store, in the order of their keys. -/
structure FactColumn where
  events : List FactEvent
  /-- Every event passes its check. -/
  valid : ∀ event ∈ events, event.validate = .ok ()
  /-- The keys increase. -/
  sorted : events.Pairwise fun e f => e.encodedKey < f.encodedKey

/-- A column without facts. -/
def FactColumn.empty : FactColumn := ⟨[], by simp, List.Pairwise.nil⟩

/-- A vertex which was created at 3 and deleted at 7, which a later commit corrected. -/
def correctedVertex : FactColumn where
  events :=
    [{ ref := EntityFact.vertex ⟨0, 1⟩, validFrom := 7, commitSeq := 5, operation := .put },
      { ref := EntityFact.vertex ⟨0, 1⟩, validFrom := 7, commitSeq := 2, operation := .delete },
      { ref := EntityFact.vertex ⟨0, 1⟩, validFrom := 3, commitSeq := 1, operation := .put }]
  valid := by decide
  sorted := by decide +kernel

namespace FactColumn

variable (column : FactColumn)

/-- The iterator at the first fact whose key is not less than a key. -/
def seek (key : List UInt8) : List FactEvent :=
  column.events.dropWhile fun event => event.encodedKey < key

/-- The iterator which goes back from the last fact whose key is not greater than a key. -/
def seekForPrev (key : List UInt8) : List FactEvent :=
  (column.events.takeWhile fun event => event.encodedKey ≤ key).reverse

/-- The column without some facts. -/
def filter (keep : FactEvent → Bool) : FactColumn where
  events := column.events.filter keep
  valid event hevent := column.valid event (List.mem_filter.mp hevent).1
  sorted := column.sorted.filter keep

@[simp]
theorem events_filter (keep : FactEvent → Bool) :
  (column.filter keep).events = column.events.filter keep
  := rfl

/-- A fact is put into the column, in the place of one with the same key. -/
def put (event : { event : FactEvent // event.validate = .ok () }) : FactColumn where
  events := column.events.filter (·.encodedKey < event.val.encodedKey) ++
    event.val :: column.events.filter (event.val.encodedKey < ·.encodedKey)
  valid other hother := by
    obtain hother | hother := List.mem_append.mp hother
    · apply column.valid other (List.mem_filter.mp hother).1
    · obtain rfl | hother := List.mem_cons.mp hother
      · exact event.property
      · apply column.valid other (List.mem_filter.mp hother).1
  sorted := by
    apply List.pairwise_append.mpr
    use column.sorted.filter _
    constructor
    · apply List.pairwise_cons.mpr ⟨_, column.sorted.filter _⟩
      intro other hother
      apply of_decide_eq_true (List.mem_filter.mp hother).2
    · intro e he f hf
      have he := of_decide_eq_true (List.mem_filter.mp he).2
      obtain rfl | hf := List.mem_cons.mp hf
      · exact he
      · apply lt_trans he (of_decide_eq_true (List.mem_filter.mp hf).2)

/-- Some facts are put into the column. -/
def putAll (events : List { event : FactEvent // event.validate = .ok () }) : FactColumn :=
  events.foldl put column

variable {column}

theorem mem_put_iff {event : { event : FactEvent // event.validate = .ok () }} {other : FactEvent} :
  other ∈ (column.put event).events ↔
    other = event.val ∨ other ∈ column.events ∧ other.encodedKey ≠ event.val.encodedKey
  := by
  simp only [put, mem_append, mem_cons, mem_filter, decide_eq_true_eq,
    ne_iff_lt_or_gt]
  tauto

section PutAll

variable {events : List { event : FactEvent // event.validate = .ok () }} {other : FactEvent}

theorem mem_or_mem_of_mem_putAll (h : other ∈ (column.putAll events).events) :
  other ∈ column.events ∨ ∃ event ∈ events, other = event.val
  := by
  induction events generalizing column with
  | nil =>
    left
    exact h
  | cons first events ih =>
    obtain hput | ⟨event, hevent, heq⟩ := ih h
    · obtain rfl | ⟨hother, -⟩ := mem_put_iff.mp hput
      · right
        use first, mem_cons_self
      · left
        exact hother
    · right
      use event, mem_cons_of_mem _ hevent

/-- Only facts with the same keys are replaced. -/
theorem mem_putAll_of_mem (hother : other ∈ column.events)
    (hne : ∀ event ∈ events, other.encodedKey ≠ event.val.encodedKey) :
  other ∈ (column.putAll events).events
  := by
  induction events generalizing column with
  | nil => exact hother
  | cons first events ih =>
    obtain ⟨hfirst, hevents⟩ := forall_mem_cons.mp hne
    apply ih _ hevents
    apply mem_put_iff.mpr
    right
    use hother

/-- The keys of facts stay. -/
theorem exists_encodedKey_putAll
    (h : (∃ event ∈ column.events, event.encodedKey = other.encodedKey) ∨
      ∃ event ∈ events, event.val.encodedKey = other.encodedKey) :
  ∃ event ∈ (column.putAll events).events, event.encodedKey = other.encodedKey
  := by
  induction events generalizing column with
  | nil =>
    obtain h | ⟨_, hnil, -⟩ := h
    · exact h
    · cases hnil
  | cons first events ih =>
    apply ih
    by_cases hfirst : first.val.encodedKey = other.encodedKey
    · left
      use first.val, mem_put_iff.mpr (Or.inl rfl), hfirst
    · obtain ⟨event, hevent, hkey⟩ | ⟨event, hevent, hkey⟩ := h
      · left
        use event
        constructor
        · apply mem_put_iff.mpr
          right
          use hevent
          intro heq
          apply hfirst
          rw [← heq, hkey]
        · exact hkey
      · right
        obtain rfl | hevent := mem_cons.mp hevent
        · cases hfirst hkey
        · use event, hevent, hkey

end PutAll

/-- The references of the events are sorted. -/
theorem sorted_ref :
  column.events.Pairwise fun e f => e.ref.storeKey ≤ f.ref.storeKey
  := by
  apply column.sorted.imp_of_mem
  intro e f he hf hlt
  obtain hlt | ⟨heq, -⟩ :=
    (encodedKey_lt_iff (column.valid e he) (column.valid f hf)).mp hlt
  · apply le_of_lt hlt
  · rw [heq]

/-- The events of a reference go from late to early boundaries and commits. -/
theorem sorted_chainKey {ref : FactRef} (p : FactEvent → Bool)
    (hp : ∀ event, p event = true → event.ref = ref) :
  (column.events.filter p).Pairwise fun e f => f.chainKey < e.chainKey
  := by
  apply (column.sorted.filter p).imp_of_mem
  intro e f he hf hlt
  obtain ⟨he, hpe⟩ := mem_filter.mp he
  obtain ⟨hf, hpf⟩ := mem_filter.mp hf
  rw [encodedKey_lt_iff (column.valid e he) (column.valid f hf), hp e hpe,
    hp f hpf] at hlt
  rw [chainKey, chainKey, Prod.Lex.toLex_lt_toLex]
  obtain hlt | ⟨-, hlt | ⟨heq, hlt⟩⟩ := hlt
  · cases lt_irrefl _ hlt
  · left
    exact hlt
  · right
    use heq.symm, hlt

/-- The chain of a reference. -/
def chain (column : FactColumn) (ref : FactRef) : FactChain where
  ref := ref
  events := column.events.filter fun event => event.ref = ref
  valid event hevent := column.valid event (List.mem_filter.mp hevent).1
  sameRef event hevent := of_decide_eq_true (List.mem_filter.mp hevent).2
  distinct := by
    apply List.pairwise_map.mpr
    have hsorted := @sorted_chainKey column ref (fun event => event.ref = ref) (by simp)
    apply hsorted.imp
    intro e f hlt
    apply hlt.ne'

theorem mem_chain_iff {column : FactColumn} {ref : FactRef} {event : FactEvent} :
  event ∈ (column.chain ref).events ↔ event ∈ column.events ∧ event.ref = ref
  := by
  simp [chain]

end FactColumn

end Cedar
