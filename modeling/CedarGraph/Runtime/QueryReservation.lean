import CedarGraph.Core.Status

/-!
# Query reservations

The memory of a query is reserved up to a limit.  Plain bytes are granted and released, and leases
hold bytes until the last shared pointer to them is gone.  A lease for an owner is found again by
its owner through a weak reference, as long as it has not expired.

The last pointer goes before the destructor of the lease takes the lock.  In between the weak
reference has expired, so that another lease may take its place, and the bytes are still reserved.
-/

namespace Cedar

open List Function

/-- A lease on reserved bytes. -/
structure QueryReservationLease where
  id : Nat
  owner : Option Nat
  bytes : Nat
  /-- The number of shared pointers, without which the lease waits for its destructor. -/
  copies : Nat
  deriving DecidableEq

/-- The counters of a reservation, and the leases which are not destroyed. -/
structure QueryReservation where
  limitBytes : Nat
  usedBytes : Nat
  peakBytes : Nat
  /-- The limit of the memory among the dimensions. -/
  limitMemory : Nat
  usedMemory : Nat
  /-- The weak references of the owners. -/
  retainedOwners : Nat → Option Nat
  leases : List QueryReservationLease
  /-- The next lease. -/
  next : Nat
  /-- The bytes which were granted without a lease and are not released. -/
  granted : Nat

namespace QueryReservation

/-- A reservation with nothing granted. -/
def create (limit : Nat) : QueryReservation :=
  ⟨limit, 0, 0, limit, 0, fun _ => none, [], 0, 0⟩

variable (r : QueryReservation)

def tryGrow (bytes : Nat) : Bool × QueryReservation :=
  if bytes > r.limitBytes ∨ r.usedBytes > r.limitBytes - bytes then
    (false, r)
  else
    let used := (r.usedBytes + bytes) % 2 ^ 64
    (true, { r with usedBytes := used, usedMemory := used, peakBytes := max r.peakBytes used })

def reserveMemory (bytes : Nat) : Status × QueryReservation :=
  if bytes > r.limitMemory ∨ r.usedMemory > r.limitMemory - bytes then
    (Status.resourceExhausted "query" "memory_bytes budget exhausted", r)
  else
    let used := (r.usedMemory + bytes) % 2 ^ 64
    (.ok (), { r with usedBytes := used, usedMemory := used, peakBytes := max r.peakBytes used })

def releaseMemory (bytes : Nat) : QueryReservation :=
  let used := r.usedMemory - min bytes r.usedMemory
  { r with usedBytes := used, usedMemory := used }

def release (bytes : Nat) : QueryReservation :=
  let used := if bytes ≥ r.usedBytes then 0 else r.usedBytes - bytes
  { r with usedBytes := used, usedMemory := used }

/-- Bytes are leased.  The owner is noted with the lock still held. -/
def tryRetain (bytes : Nat) (owner : Option Nat) : Bool × QueryReservation :=
  let (ok, grown) := r.tryGrow bytes
  if ok then
    (true, { grown with leases := ⟨r.next, owner, bytes, 1⟩ :: r.leases, next := r.next + 1 })
  else
    (false, grown)

/-- A weak reference has not expired. -/
def live (id : Nat) : Bool :=
  r.leases.any fun lease => lease.id = id && lease.copies ≠ 0

/-- The number of pointers to a lease changes. -/
def withCopies (id : Nat) (change : Nat → Nat) : QueryReservation :=
  { r with leases := r.leases.map fun lease =>
      if lease.id = id then { lease with copies := change lease.copies } else lease }

def tryRetainOwner (owner : Option Nat) (bytes : Nat) : Bool × QueryReservation :=
  match owner with
  | none => r.tryRetain bytes none
  | some owner =>
      match (r.retainedOwners owner).filter r.live with
      | some existing => (true, r.withCopies existing (· + 1))
      | none =>
          if bytes > 2 ^ 64 - 1 - 128 then
            (false, r)
          else
            let (ok, retained) := r.tryRetain (bytes + 128) (some owner)
            if ok then
              (true, { retained with
                retainedOwners := Function.update r.retainedOwners owner (some r.next) })
            else
              (false, retained)

/-- The destructor of a lease, which keeps the reference of its owner to a newer one. -/
def destroy (lease : QueryReservationLease) : QueryReservation :=
  let r := match lease.owner with
    | none => r
    | some owner =>
        if (r.retainedOwners owner).any fun id => !r.live id then
          { r with retainedOwners := Function.update r.retainedOwners owner none }
        else
          r
  { r.release lease.bytes with leases := r.leases.erase lease }

/-- An operation on a reservation or on the pointers to its leases. -/
inductive Step where
  | tryGrow (bytes : Nat)
  | reserveMemory (bytes : Nat)
  | releaseMemory (bytes : Nat)
  | release (bytes : Nat)
  | tryRetain (bytes : Nat)
  | tryRetainOwner (owner : Option Nat) (bytes : Nat)
  | copy (id : Nat)
  | drop (id : Nat)
  | destroy (lease : QueryReservationLease)

/-- The operation can be made: what is released was granted, only a pointer can be copied or
dropped, and a lease is destroyed after its last pointer. -/
def allows : Step → Bool
  | .releaseMemory bytes | .release bytes => bytes ≤ r.granted
  | .copy id | .drop id => r.live id
  | .destroy lease => lease ∈ r.leases && lease.copies = 0
  | _ => true

/-- An operation, and whether it is granted. -/
def step : Step → Bool × QueryReservation
  | .tryGrow bytes =>
      let (ok, grown) := r.tryGrow bytes
      (ok, if ok then { grown with granted := r.granted + bytes } else grown)
  | .reserveMemory bytes =>
      let (status, grown) := r.reserveMemory bytes
      (status.isOk, if status.isOk then { grown with granted := r.granted + bytes } else grown)
  | .releaseMemory bytes => (true, { r.releaseMemory bytes with granted := r.granted - bytes })
  | .release bytes => (true, { r.release bytes with granted := r.granted - bytes })
  | .tryRetain bytes => r.tryRetain bytes none
  | .tryRetainOwner owner bytes => r.tryRetainOwner owner bytes
  | .copy id => (true, r.withCopies id (· + 1))
  | .drop id => (true, r.withCopies id (· - 1))
  | .destroy lease => (true, r.destroy lease)

/-- The reservation after some operations. -/
def run (steps : List Step) : QueryReservation :=
  steps.foldl (fun r step => (r.step step).2) r

/-- All operations can be made. -/
def allowsAll (r : QueryReservation) : List Step → Bool
  | [] => true
  | step :: steps => r.allows step && (r.step step).2.allowsAll steps

variable {r : QueryReservation} {bytes : Nat}

/-! ### Leases and their owners -/

/-- The leases are distinct, and the owner of a live one refers to it. -/
structure Owned (leases : List QueryReservationLease) (owners : Nat → Option Nat) (next : Nat) :
    Prop where
  fresh : ∀ lease ∈ leases, lease.id < next
  ids : (leases.map (·.id)).Nodup
  owned : ∀ lease ∈ leases, lease.copies ≠ 0 → ∀ owner ∈ lease.owner,
    owners owner = some lease.id

variable {leases : List QueryReservationLease} {owners owners' : Nat → Option Nat} {next id : Nat}

/-- A new lease, to which its owner refers from then on. -/
theorem Owned.cons (h : Owned leases owners next) {owner : Option Nat}
    (howner : ∀ o ∈ owner, owners' o = some next)
    (hothers : ∀ lease ∈ leases, lease.copies ≠ 0 → ∀ o ∈ lease.owner, owners' o = owners o) :
  Owned (⟨next, owner, bytes, 1⟩ :: leases) owners' (next + 1)
  := by
  constructor
  · rw [forall_mem_cons]
    use Nat.lt_succ_self next
    intro lease hlease
    apply Nat.lt_succ_of_lt (h.fresh lease hlease)
  · apply nodup_cons.mpr ⟨_, h.ids⟩
    intro hmem
    obtain ⟨lease, hlease, heq⟩ := mem_map.mp hmem
    apply (h.fresh lease hlease).ne heq
  · rw [forall_mem_cons]
    use fun _ => howner
    intro lease hlease hcopies o ho
    rw [hothers lease hlease hcopies o ho]
    apply h.owned lease hlease hcopies o ho

/-- The pointers do not change the rest of a lease. -/
theorem map_withCopies {α : Type} (f : QueryReservationLease → α) {change : Nat → Nat}
    (hf : ∀ lease copies, f { lease with copies } = f lease) :
  (r.withCopies id change).leases.map f = r.leases.map f
  := by
  rw [withCopies, map_map]
  apply map_congr_left
  intro lease _
  rw [comp_apply]
  split
  · apply hf
  · rfl

/-- A lease which was live may have more or fewer pointers. -/
theorem Owned.withCopies (h : Owned r.leases owners next) (hlive : r.live id = true)
    (change : Nat → Nat) :
  Owned (r.withCopies id change).leases owners next
  := by
  obtain ⟨live, hmem, hboth⟩ := any_eq_true.mp hlive
  obtain ⟨hid, hcopies⟩ : live.id = id ∧ live.copies ≠ 0 := by simpa using hboth
  constructor
  · intro changed hchanged
    obtain ⟨lease, hlease, rfl⟩ := mem_map.mp hchanged
    have hfresh := h.fresh lease hlease
    split <;> exact hfresh
  · rw [map_withCopies (·.id) fun _ _ => rfl]
    exact h.ids
  · intro changed hchanged
    obtain ⟨lease, hlease, rfl⟩ := mem_map.mp hchanged
    split
    case isTrue heq =>
      obtain rfl := inj_on_of_nodup_map h.ids hlease hmem (heq.trans hid.symm)
      intro _
      apply h.owned lease hlease hcopies
    case isFalse => apply h.owned lease hlease

/-- A lease which is destroyed does not take the reference to a live one with it. -/
theorem destroy_cases (h : Owned r.leases r.retainedOwners r.next)
    (lease : QueryReservationLease) :
  ∃ owners, Owned (r.leases.erase lease) owners r.next ∧
    r.destroy lease = { r.release lease.bytes with
      leases := r.leases.erase lease, retainedOwners := owners }
  := by
  have hsub : r.leases.erase lease ⊆ r.leases := erase_subset
  have hkept : Owned (r.leases.erase lease) r.retainedOwners r.next := by
    refine ⟨fun other hother => h.fresh other (hsub hother),
      h.ids.sublist (erase_sublist.map _), fun other hother => h.owned other (hsub hother)⟩
  rw [destroy]
  split
  · exact ⟨_, hkept, rfl⟩
  case h_2 owner howner =>
    split
    case isTrue hexpired =>
      refine ⟨update r.retainedOwners owner none, ⟨hkept.fresh, hkept.ids, ?_⟩, rfl⟩
      intro other hother hcopies o ho
      rw [update_of_ne]
      · apply hkept.owned other hother hcopies o ho
      · rintro rfl
        have hlive : r.live other.id = true :=
          any_eq_true.mpr ⟨other, hsub hother, by simp [hcopies]⟩
        rw [hkept.owned other hother hcopies o ho, Option.any_some, hlive] at hexpired
        cases hexpired
    · exact ⟨_, hkept, rfl⟩

/-! ### Balance -/

/-- Both counters are the sum of the live grants and within the limit, and the peak is raised to
them. -/
structure Balanced (peak : Nat) (r : QueryReservation) : Prop where
  small : r.limitBytes < 2 ^ 64
  limits : r.limitMemory = r.limitBytes
  mirrored : r.usedMemory = r.usedBytes
  sum : r.usedBytes = r.granted + (r.leases.map (·.bytes)).sum
  bounded : r.usedBytes ≤ r.limitBytes
  peak : r.peakBytes = max peak r.usedBytes
  owned : Owned r.leases r.retainedOwners r.next

/-- An operation is refused and changes nothing, or keeps the balance. -/
def Keeps (r : QueryReservation) (result : Bool × QueryReservation) : Prop :=
  result = (false, r) ∨ result.1 = true ∧ Balanced r.peakBytes result.2

variable {peak : Nat} (h : Balanced peak r)

include h

theorem Balanced.le_peak :
  r.usedBytes ≤ r.peakBytes
  := by
  rw [h.peak]
  apply le_max_right

/-- Bytes are granted, or held by a new lease.  Its owner must not have a live one. -/
theorem Balanced.tryGrow_cases (bytes : Nat) :
  r.tryGrow bytes = (false, r) ∨
    ∃ grown, r.tryGrow bytes = (true, grown) ∧ grown.retainedOwners = r.retainedOwners ∧
      Balanced r.peakBytes { grown with granted := r.granted + bytes } ∧
      ∀ (owner : Option Nat) (owners : Nat → Option Nat), (∀ o ∈ owner, owners o = some r.next) →
        (∀ lease ∈ r.leases, lease.copies ≠ 0 → ∀ o ∈ lease.owner,
          owners o = r.retainedOwners o) →
        Balanced r.peakBytes { grown with
          leases := ⟨r.next, owner, bytes, 1⟩ :: r.leases
          next := r.next + 1
          retainedOwners := owners }
  := by
  have hsmall := h.small
  have hsum := h.sum
  rw [tryGrow]
  split
  · left
    rfl
  case isFalse hfits =>
    right
    refine ⟨_, rfl, rfl, { h with mirrored := rfl, sum := ?_, bounded := ?_, peak := rfl },
      fun owner owners howner hothers => { h with
        mirrored := rfl, sum := ?_, bounded := ?_, peak := rfl
        owned := h.owned.cons howner hothers }⟩
    all_goals
      simp only [map_cons, sum_cons]
      omega

theorem Balanced.tryGrow (bytes : Nat) :
  Keeps r (r.step (.tryGrow bytes))
  := by
  rw [step]
  obtain heq | ⟨grown, heq, -, hgrown, -⟩ := h.tryGrow_cases bytes
  · rw [heq]
    exact .inl rfl
  · rw [heq]
    exact .inr ⟨rfl, hgrown⟩

/-- The two ways to be granted bytes are the same. -/
theorem Balanced.step_reserveMemory (bytes : Nat) :
  r.step (.reserveMemory bytes) = r.step (.tryGrow bytes)
  := by
  simp only [step, reserveMemory, QueryReservation.tryGrow, h.limits, h.mirrored]
  by_cases hrefused : bytes > r.limitBytes ∨ r.usedBytes > r.limitBytes - bytes
  · simp only [if_pos hrefused]
    rfl
  · simp only [if_neg hrefused]
    rfl

/-- Fewer bytes are in use, after a grant or a lease is given back. -/
theorem Balanced.release {granted : Nat}
    (hsum : r.usedBytes = bytes + (granted + (leases.map (·.bytes)).sum))
    (howned : Owned leases owners r.next) :
  Balanced r.peakBytes { r.release bytes with granted, leases, retainedOwners := owners }
  := by
  have hbounded := h.bounded
  have hpeak := h.le_peak
  have hused : (if bytes ≥ r.usedBytes then 0 else r.usedBytes - bytes) = r.usedBytes - bytes := by
    split <;> omega
  rw [QueryReservation.release]
  refine { h with mirrored := rfl, sum := ?_, bounded := ?_, peak := ?_, owned := howned }
  all_goals
    dsimp only
    omega

theorem Balanced.releaseMemory_eq (bytes : Nat) :
  r.releaseMemory bytes = r.release bytes
  := by
  have hused : r.usedBytes - min bytes r.usedBytes =
      if bytes ≥ r.usedBytes then 0 else r.usedBytes - bytes := by
    split <;> omega
  rw [releaseMemory, QueryReservation.release, h.mirrored, hused]

theorem Balanced.withCopies (hlive : r.live id = true) (change : Nat → Nat) :
  Balanced r.peakBytes (r.withCopies id change)
  := by
  refine { h with
    sum := ?_, peak := (max_eq_left h.le_peak).symm, owned := h.owned.withCopies hlive change }
  rw [map_withCopies (·.bytes) fun _ _ => rfl]
  exact h.sum

theorem Balanced.tryRetainOwner (owner : Option Nat) (bytes : Nat) :
  Keeps r (r.tryRetainOwner owner bytes)
  := by
  unfold QueryReservation.tryRetainOwner
  split
  · rw [tryRetain]
    obtain heq | ⟨grown, heq, hsame, -, hleased⟩ := h.tryGrow_cases bytes
    · rw [heq]
      exact .inl rfl
    · have hbalanced := hleased none r.retainedOwners nofun fun _ _ _ _ _ => rfl
      rw [← hsame] at hbalanced
      rw [heq]
      exact .inr ⟨rfl, hbalanced⟩
  case h_2 owner =>
    split
    case h_1 existing hexisting =>
      exact .inr ⟨rfl, h.withCopies (Option.filter_eq_some_iff.mp hexisting).2 _⟩
    case h_2 hexpired =>
      split
      · exact .inl rfl
      · rw [tryRetain]
        obtain heq | ⟨grown, heq, -, -, hleased⟩ := h.tryGrow_cases (bytes + 128)
        · rw [heq]
          exact .inl rfl
        · rw [heq]
          refine .inr ⟨rfl, hleased _ _ (by simp) ?_⟩
          -- a live lease of the owner would have been found
          intro lease hlease hcopies o ho
          apply update_of_ne
          rintro rfl
          rw [h.owned.owned lease hlease hcopies o ho, Option.filter_eq_none_iff] at hexpired
          apply hexpired _ rfl (any_eq_true.mpr ⟨lease, hlease, by simp [hcopies]⟩)

theorem Balanced.step {step : Step} (hstep : r.allows step = true) :
  Keeps r (r.step step)
  := by
  have hreleased : ∀ {bytes}, decide (bytes ≤ r.granted) = true →
      r.usedBytes = bytes + (r.granted - bytes + (r.leases.map (·.bytes)).sum) := by
    intro bytes hle
    rw [h.sum, ← add_assoc, Nat.add_sub_cancel' (of_decide_eq_true hle)]
  cases step with
  | tryGrow bytes => apply h.tryGrow
  | reserveMemory bytes =>
    rw [h.step_reserveMemory]
    apply h.tryGrow
  | releaseMemory bytes =>
    rw [QueryReservation.step, h.releaseMemory_eq]
    exact .inr ⟨rfl, h.release (hreleased hstep) h.owned⟩
  | release bytes =>
    exact .inr ⟨rfl, h.release (hreleased hstep) h.owned⟩
  | tryRetain bytes => apply h.tryRetainOwner none
  | tryRetainOwner owner bytes => apply h.tryRetainOwner
  | copy id => exact .inr ⟨rfl, h.withCopies hstep _⟩
  | drop id => exact .inr ⟨rfl, h.withCopies hstep (· - 1)⟩
  | destroy lease =>
    obtain ⟨hmem, -⟩ : lease ∈ r.leases ∧ lease.copies = 0 := by
      simpa [allows] using hstep
    obtain ⟨owners, howned, heq⟩ := destroy_cases h.owned lease
    rw [QueryReservation.step, heq]
    have hsum : r.usedBytes =
        lease.bytes + (r.granted + ((r.leases.erase lease).map (·.bytes)).sum) := by
      rw [h.sum, ← sum_map_erase (·.bytes) hmem, add_left_comm]
    exact .inr ⟨rfl, h.release hsum howned⟩

omit h

/-- The bytes in use before, between and after some operations. -/
def history (r : QueryReservation) : List Step → List Nat
  | [] => [r.usedBytes]
  | step :: steps => r.usedBytes :: (r.step step).2.history steps

theorem Balanced.run (h : Balanced peak r) {steps : List Step}
    (hsteps : r.allowsAll steps = true) :
  (∃ peak, Balanced peak (r.run steps)) ∧
    (r.run steps).peakBytes = (r.history steps).foldl max peak
  := by
  induction steps generalizing r peak with
  | nil => exact ⟨⟨peak, h⟩, h.peak⟩
  | cons step steps ih =>
    obtain ⟨hstep, hsteps⟩ := Bool.and_eq_true_iff.mp hsteps
    have hnext : Balanced r.peakBytes (r.step step).2 := by
      obtain heq | ⟨-, hbalanced⟩ := h.step hstep
      · rw [heq]
        exact { h with peak := (max_eq_left h.le_peak).symm }
      · exact hbalanced
    obtain ⟨hrun, hpeak⟩ := ih hnext hsteps
    use hrun
    rw [history, foldl_cons, ← h.peak]
    exact hpeak

/-- The reservations of a query balance: both counters are the sum of what is granted and held by
leases, within the limit, and the peak is the most that was ever in use.  An owner has at most one
live lease, to which it refers, and a refused request changes nothing. -/
theorem run_balanced {limit : Nat} (hlimit : limit < 2 ^ 64) {steps : List Step}
    (hsteps : (create limit).allowsAll steps = true) :
  (∃ peak, Balanced peak ((create limit).run steps)) ∧
    ((create limit).run steps).peakBytes = ((create limit).history steps).foldl max 0 ∧
    (∀ a ∈ ((create limit).run steps).leases, ∀ b ∈ ((create limit).run steps).leases,
      a.copies ≠ 0 → b.copies ≠ 0 → ∀ owner ∈ a.owner, owner ∈ b.owner → a = b) ∧
    ∀ step, ((create limit).run steps).allows step = true →
      (((create limit).run steps).step step).1 = false →
      (((create limit).run steps).step step).2 = (create limit).run steps
  := by
  have hcreate : Balanced 0 (create limit) :=
    ⟨hlimit, rfl, rfl, rfl, Nat.zero_le limit, rfl, ⟨nofun, .nil, nofun⟩⟩
  obtain ⟨⟨peak, h⟩, hpeak⟩ := hcreate.run hsteps
  refine ⟨⟨peak, h⟩, hpeak, ?_, ?_⟩
  · intro a ha b hb hcopies hcopies' owner howner howner'
    apply inj_on_of_nodup_map h.owned.ids ha hb
    apply Option.some.inj
    rw [← h.owned.owned a ha hcopies owner howner, h.owned.owned b hb hcopies' owner howner']
  · intro step hstep hrefused
    obtain heq | ⟨hok, -⟩ := h.step hstep
    · rw [heq]
    · rw [hok] at hrefused
      cases hrefused

/-- A lease is pinned twice, expires, and is replaced before it is destroyed. -/
theorem repinned_balanced :
  ∃ peak, Balanced peak ((create 1000).run [.tryGrow 100, .tryRetainOwner (some 7) 50,
    .tryRetainOwner (some 7) 50, .drop 0, .drop 0, .tryRetainOwner (some 7) 60,
    .destroy ⟨0, some 7, 178, 0⟩, .release 40])
  := (run_balanced (by decide) (by decide)).1

end QueryReservation

end Cedar
