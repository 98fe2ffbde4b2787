import CedarGraph.Fact.Event

/-!
# Specifications of reads

A read is restricted to one partition, to a set of partitions, or not at all, to a family and a
property of facts, and to ranges of entities, valid times and commits.
-/

namespace Cedar

open StatusOr

inductive PartScopeKind where
  | exact
  | set
  | all
  deriving DecidableEq

/-- The partitions which a read is about. -/
structure PartScope where
  kind : PartScopeKind := .exact
  parts : List PartId
  deriving DecidableEq

namespace PartScope

/-- A wildcard carries no parts, and any other scope carries its parts in increasing order. -/
def validate (scope : PartScope) : Status :=
  if scope.kind = .all then
    if scope.parts = [] then .ok ()
    else Status.invalidArgument "part scope" "wildcard cannot carry parts"
  else if scope.parts = [] then
    Status.invalidArgument "part scope" "empty part set"
  else if scope.kind = .exact ∧ scope.parts.length ≠ 1 then
    Status.invalidArgument "part scope" "exact scope requires one part"
  else if ¬ scope.parts.Pairwise (· ≤ ·) then
    Status.invalidArgument "part scope" "parts must be sorted"
  else if ¬ scope.parts.IsChain (· ≠ ·) then
    Status.invalidArgument "part scope" "parts must be unique"
  else
    .ok ()

/-- The scope has the partition.  The parts are sorted, so binary search is membership. -/
def contains (scope : PartScope) (part : PartId) : Bool :=
  scope.kind = .all || scope.parts.contains part

/-- A valid scope other than the wildcard carries its parts in strictly increasing order. -/
theorem pairwise_parts {scope : PartScope}
    (hvalid : scope.validate = .ok ()) (hkind : scope.kind ≠ .all) :
  scope.parts ≠ [] ∧ scope.parts.Pairwise (· < ·)
  := by
  rw [validate, if_neg hkind] at hvalid
  obtain ⟨hnil, hvalid⟩ := check_eq_ok_iff.mp hvalid
  obtain ⟨-, hvalid⟩ := check_eq_ok_iff.mp hvalid
  obtain ⟨hsorted, hvalid⟩ := check_eq_ok_iff.mp hvalid
  obtain ⟨hunique, -⟩ := check_eq_ok_iff.mp hvalid
  use hnil
  apply List.isChain_iff_pairwise.mp
  have hle := (not_not.mp hsorted).isChain
  have hne := not_not.mp hunique
  generalize scope.parts = parts at hle hne
  induction parts with
  | nil => apply List.IsChain.nil
  | cons a parts ih =>
    cases parts with
    | nil => apply List.IsChain.singleton
    | cons b parts =>
      rw [List.isChain_cons_cons] at hle hne ⊢
      use lt_of_le_of_ne hle.1 hne.1
      apply ih hle.2 hne.2

end PartScope

/-- A range of entities, of which a bound may be absent. -/
structure EntityRange where
  min : Option UInt64 := none
  maxExclusive : Option UInt64 := none
  deriving DecidableEq

/-- A range with two bounds is not empty. -/
def EntityRange.validate (range : EntityRange) : Status :=
  match range.min, range.maxExclusive with
  | some min, some maxExclusive =>
      if min ≥ maxExclusive then
        Status.invalidArgument "entity range" "min must be less than max_exclusive"
      else
        .ok ()
  | _, _ => .ok ()

/-- The columns of the store of facts. -/
inductive FactColumnId where
  | partId
  | factFamily
  | propertyId
  | entityId
  | validFrom
  | cedarCommitSeq
  | storageSequence
  | operation
  | schemaEpoch
  | physicalType
  | boolValue
  | int32Value
  | int64Value
  | float32Value
  | float64Value
  | timestamp64Value
  | bytesValue
  | sourcePartId
  | sourceVertexId
  | targetPartId
  | targetVertexId
  | edgeType
  deriving DecidableEq

/-- The events which a read is about, and the columns which a columnar read delivers. -/
structure FactReadSpec where
  partScope : PartScope := ⟨.exact, [0]⟩
  family : FactFamily := .vertexState
  propertyId : PropertyId := 0
  entityRange : EntityRange := {}
  validFromMin : Option ValidTime := none
  validFromMax : Option ValidTime := none
  commitSeqMin : Option CommitSeq := none
  commitSeqMax : Option CommitSeq := none
  projection : List FactColumnId := []
  batchRowLimit : UInt32 := 1024
  maxRows : Option UInt64 := none

namespace FactReadSpec

/-- The first of two bounds exceeds the second one. -/
def reversed (min max : Option UInt64) : Bool :=
  match min, max with
  | some min, some max => min > max
  | _, _ => false

/-- The ranges of the read are not reversed, its batches have rows, and no column is projected
twice. -/
def validate (spec : FactReadSpec) : Status := do
  spec.partScope.validate
  spec.entityRange.validate
  if spec.batchRowLimit = 0 then
    Status.invalidArgument "fact read spec" "zero batch row limit"
  else if reversed spec.validFromMin spec.validFromMax then
    Status.invalidArgument "fact read spec" "reversed valid-time range"
  else if reversed spec.commitSeqMin spec.commitSeqMax then
    Status.invalidArgument "fact read spec" "reversed commit range"
  else if ¬ spec.projection.Nodup then
    Status.invalidArgument "fact read spec" "duplicate projection column"
  else
    .ok ()

/-- What a valid specification satisfies. -/
theorem of_validate {spec : FactReadSpec} (hvalid : spec.validate = .ok ()) :
  spec.partScope.validate = .ok () ∧ spec.entityRange.validate = .ok () ∧
    spec.batchRowLimit ≠ 0 ∧ reversed spec.validFromMin spec.validFromMax = false ∧
    reversed spec.commitSeqMin spec.commitSeqMax = false ∧ spec.projection.Nodup
  := by
  obtain ⟨_, hscope, hvalid⟩ := bind_eq_ok_iff.mp hvalid
  obtain ⟨_, hrange, hvalid⟩ := bind_eq_ok_iff.mp hvalid
  obtain ⟨hbatch, hvalid⟩ := check_eq_ok_iff.mp hvalid
  obtain ⟨htime, hvalid⟩ := check_eq_ok_iff.mp hvalid
  obtain ⟨hcommit, hvalid⟩ := check_eq_ok_iff.mp hvalid
  obtain ⟨hprojection, -⟩ := check_eq_ok_iff.mp hvalid
  use hscope, hrange, hbatch, by simpa using htime, by simpa using hcommit
  apply not_not.mp hprojection

/-- The read is about the event. -/
def matchesReadSpec (spec : FactReadSpec) (event : FactEvent) : Bool :=
  spec.partScope.contains event.ref.partId && event.ref.family = spec.family &&
    event.ref.propertyId = spec.propertyId &&
    spec.entityRange.min.all (· ≤ event.ref.entityId) &&
    spec.entityRange.maxExclusive.all (event.ref.entityId < ·) &&
    spec.validFromMin.all (· ≤ event.validFrom) &&
    spec.validFromMax.all (event.validFrom ≤ ·) &&
    spec.commitSeqMin.all (· ≤ event.commitSeq) &&
    spec.commitSeqMax.all (event.commitSeq ≤ ·)

end FactReadSpec

end Cedar
