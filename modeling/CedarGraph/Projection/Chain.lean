import CedarGraph.Temporal.Interval

/-!
# Projection chains

A projection generation stores, for the entities of a partition, the maximal intervals of a
property or of existence as they were in the snapshot at its base sequence.
-/

namespace Cedar

/-- What a projection materializes. -/
inductive ProjectionKind where
  | state
  | adjacency
  | property
  | statistics
  | propertyIndex
  deriving DecidableEq

/-- What a projection chain is about. -/
structure ProjectionHeader where
  kind : ProjectionKind := .state
  generationId : UInt64 := 0
  baseSeq : CommitSeq
  partId : PartId
  propertyId : PropertyId := 0
  schemaEpoch : UInt32 := 0
  entityMin : UInt64 := 0
  entityMaxExclusive : UInt64 := 0
  validFromMin : ValidTime := 0

end Cedar
