import CedarGraph.Projection.Chain

/-!
# Manifests of projections

The manifest of a projection generation lists the regions which the generation covers, by kind,
partition, property, range of entities and valid time, with the segments which store them.
-/

namespace Cedar

/-- A file of a projection. -/
structure SegmentDescriptor where
  segmentId : String
  filename : String
  header : ProjectionHeader

/-- A region which a projection generation covers. -/
structure CoverageRegion where
  kind : ProjectionKind := .state
  partId : PartId
  propertyId : Option PropertyId := none
  schemaEpoch : UInt32 := 0
  entityMin : UInt64 := 0
  entityMaxExclusive : UInt64 := 0
  validTime : ValidTimeInterval
  builtThrough : CommitSeq := 0
  segments : List SegmentDescriptor := []

/-- The regions of a projection generation. -/
structure ProjectionManifest where
  databaseIdentity : String := ""
  generationId : UInt64 := 0
  baseSeq : CommitSeq := 0
  regions : List CoverageRegion := []

end Cedar
