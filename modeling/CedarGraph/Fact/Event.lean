import CedarGraph.Core.Status
import CedarGraph.Fact.Value
import CedarGraph.Lib.Word

/-!
# Facts

A fact reference names a chain of facts by partition, family, property and entity.  A fact
event asserts (PUT) or retracts (DELETE) the fact from a valid time on, in a commit.  The
identifiers and times are machine words of the widths of the source.
-/

namespace Cedar

abbrev PartId : Type := UInt32
abbrev VertexId : Type := UInt64
abbrev EdgeId : Type := UInt64
abbrev PropertyId : Type := UInt16
abbrev CommitSeq : Type := UInt64
abbrev ValidTime : Type := UInt64

/-- The identity of a vertex: a vertex id is local to a partition. -/
structure VertexRef where
  partId : PartId
  vertexId : VertexId
  deriving DecidableEq

/-- The identity of an edge. -/
structure EdgeRef where
  homePartId : PartId
  edgeId : EdgeId
  deriving DecidableEq

inductive FactFamily where
  | vertexState
  | vertexProperty
  | edgeIdentity
  | edgeState
  | edgeProperty
  deriving DecidableEq

inductive FactOperation where
  | put
  | delete
  deriving DecidableEq

/-- The facts of the family are about the existence of an entity. -/
def isStateFamily : FactFamily → Bool
  | .vertexState | .edgeState | .edgeIdentity => true
  | .vertexProperty | .edgeProperty => false

/-- The name of a chain of facts. -/
structure FactRef where
  partId : PartId
  family : FactFamily
  propertyId : PropertyId
  entityId : UInt64
  deriving DecidableEq

namespace FactRef

def isProperty (ref : FactRef) : Bool :=
  !isStateFamily ref.family

/-- A reference names an entity, and a property exactly if its family has properties. -/
def validate (ref : FactRef) : Status :=
  if ref.entityId = 0 then
    Status.invalidArgument "fact reference" "zero entity ID"
  else if isStateFamily ref.family ∧ ref.propertyId ≠ 0 then
    Status.invalidArgument "fact reference" "state fact has property ID"
  else if ¬ isStateFamily ref.family ∧ ref.propertyId = 0 then
    Status.invalidArgument "fact reference" "property fact has zero property ID"
  else
    .ok ()

end FactRef

/-- The fact that a vertex exists. -/
def EntityFact.vertex (vertex : VertexRef) : FactRef :=
  ⟨vertex.partId, .vertexState, 0, vertex.vertexId⟩

/-- The fact that an edge exists. -/
def EntityFact.edge (edge : EdgeRef) : FactRef :=
  ⟨edge.homePartId, .edgeState, 0, edge.edgeId⟩

/-- The fact that a vertex has a property. -/
def PropertyFact.vertex (vertex : VertexRef) (propertyId : PropertyId) : FactRef :=
  ⟨vertex.partId, .vertexProperty, propertyId, vertex.vertexId⟩

/-- The fact that an edge has a property. -/
def PropertyFact.edge (edge : EdgeRef) (propertyId : PropertyId) : FactRef :=
  ⟨edge.homePartId, .edgeProperty, propertyId, edge.edgeId⟩

/-- The immutable relation of an edge to its endpoints and its type. -/
structure EdgeIdentity where
  edgeId : EdgeId
  sourceVertexId : VertexId
  targetVertexId : VertexId
  edgeType : UInt64
  homePartId : PartId
  sourcePartId : PartId
  targetPartId : PartId
  deriving DecidableEq

namespace EdgeIdentity

def edgeRef (identity : EdgeIdentity) : EdgeRef :=
  ⟨identity.homePartId, identity.edgeId⟩

def sourceRef (identity : EdgeIdentity) : VertexRef :=
  ⟨identity.sourcePartId, identity.sourceVertexId⟩

def targetRef (identity : EdgeIdentity) : VertexRef :=
  ⟨identity.targetPartId, identity.targetVertexId⟩

/-- An edge has an id, endpoints and a type, and its home is the partition of its source. -/
def validate (identity : EdgeIdentity) : Status :=
  if identity.edgeId = 0 ∨ identity.sourceVertexId = 0 ∨ identity.targetVertexId = 0 ∨
      identity.edgeType = 0 ∨ identity.homePartId ≠ identity.sourcePartId then
    Status.invalidArgument "edge identity" "invalid edge home partition, endpoints, or type"
  else
    .ok ()

end EdgeIdentity

/-- The checks on a mutation of a fact: a state fact carries no schema epoch and no value, and a
property fact carries a schema epoch, and a value exactly if it is asserted. -/
def validateMutation (ref : FactRef) (operation : FactOperation) (schemaEpoch : UInt32)
    (value : Option Value) : Status := do
  ref.validate
  if ¬ ref.isProperty then
    if schemaEpoch ≠ 0 ∨ value.isSome then
      Status.invalidArgument "entity fact" "state facts cannot carry schema or value"
    else
      .ok ()
  else if schemaEpoch = 0 then
    Status.invalidArgument "property fact" "missing schema epoch"
  else if operation = .put ∧ value.isNone then
    Status.invalidArgument "property fact" "PUT requires a value"
  else if operation = .delete ∧ value.isSome then
    Status.invalidArgument "property fact" "DELETE cannot carry a value"
  else
    .ok ()

/-- A committed mutation of a fact. -/
structure FactEvent where
  ref : FactRef
  validFrom : ValidTime
  commitSeq : CommitSeq
  operation : FactOperation := .put
  schemaEpoch : UInt32 := 0
  value : Option Value := none
  edgeIdentity : Option EdgeIdentity := none
  deriving DecidableEq

namespace FactEvent

/-- The checks on a committed event. -/
def validate (event : FactEvent) : Status := do
  if event.commitSeq = 0 then
    Status.invalidArgument "fact event" "zero commit sequence"
  else
    validateMutation event.ref event.operation event.schemaEpoch event.value
    if event.ref.family = .edgeIdentity then
      if event.validFrom ≠ 0 ∨ event.operation ≠ .put ∨ event.schemaEpoch ≠ 0 ∨
          event.value.isSome then
        Status.invalidArgument "edge identity fact"
          "identity facts require a valid_from=0 PUT payload"
      else
        match event.edgeIdentity with
        | none =>
            Status.invalidArgument "edge identity fact"
              "identity facts require a valid_from=0 PUT payload"
        | some identity =>
            if identity.edgeRef ≠ ⟨event.ref.partId, event.ref.entityId⟩ then
              Status.invalidArgument "edge identity fact"
                "identity facts require a valid_from=0 PUT payload"
            else
              identity.validate
    else if event.edgeIdentity.isSome then
      Status.invalidArgument "fact event" "edge identity payload on non-identity fact"
    else
      .ok ()

/-- A valid event passes the checks on its mutation. -/
theorem validateMutation_of_validate {event : FactEvent} (hvalid : event.validate = .ok ()) :
  validateMutation event.ref event.operation event.schemaEpoch event.value = .ok ()
  := by
  rw [validate] at hvalid
  split at hvalid
  · cases hvalid
  · obtain ⟨_, hmutation, -⟩ := StatusOr.bind_eq_ok_iff.mp hvalid
    exact hmutation

/-- A valid event carries the identity of an edge only if it is of the family of identities. -/
theorem edgeIdentity_of_validate
    {event : FactEvent} (hvalid : event.validate = .ok ())
    (hfamily : event.ref.family ≠ .edgeIdentity) :
  event.edgeIdentity = none
  := by
  rw [validate] at hvalid
  split at hvalid
  · cases hvalid
  · obtain ⟨_, -, hidentity⟩ := StatusOr.bind_eq_ok_iff.mp hvalid
    split at hidentity
    · cases hidentity
    case isFalse hnone => simpa using hnone

/-- The position of an event in its chain: by valid time, and by commit for one valid time. -/
def chainKey (event : FactEvent) : ValidTime ×ₗ CommitSeq :=
  toLex (event.validFrom, event.commitSeq)

end FactEvent

end Cedar
