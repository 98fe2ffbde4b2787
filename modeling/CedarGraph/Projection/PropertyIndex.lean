import CedarGraph.Projection.Manifest

/-!
# Property indexes

A segment of a property index lists the values of a property of the vertices of a partition, each
with the interval in which the vertex has the value, in the order of the values.
-/

namespace Cedar

/-- A value which a vertex has in an interval. -/
structure PropertyIndexPosting where
  vertex : VertexRef
  effective : ValidTimeInterval
  commitSeq : CommitSeq
  value : Value

/-- The values of a property in a partition. -/
structure PropertyIndexSegment where
  generationId : UInt64 := 0
  baseSeq : CommitSeq := 0
  builtThrough : CommitSeq := 0
  property : PropertyId
  partId : PartId
  schemaEpoch : UInt32 := 0
  postings : List PropertyIndexPosting := []

/-- The comparison of values: those of different types are not ordered. -/
def compareValues (left right : Value) : Ordering :=
  if left.type ≠ right.type then .eq else Value.dataOrder left right

namespace PropertyIndexSegment

/-- The posting does not fit after the one before it. -/
def unordered (prior posting : PropertyIndexPosting) : Bool :=
  compareValues prior.value posting.value = .gt ||
    (compareValues prior.value posting.value = .eq &&
      prior.vertex.vertexId > posting.vertex.vertexId)

/-- The postings are about the partition of the segment and were built through its commit, have
values of one type, and are in order. -/
def validatePostings (segment : PropertyIndexSegment) :
    Option PropertyIndexPosting → List PropertyIndexPosting → Status
  | _, [] => .ok ()
  | prior, posting :: postings =>
      if posting.vertex.vertexId = 0 ∨ posting.vertex.partId ≠ segment.partId ∨
          posting.effective.validate ≠ .ok () ∨ posting.commitSeq > segment.builtThrough then
        Status.invalidArgument "property index" "invalid posting"
      else if prior.any fun prior => prior.value.type ≠ posting.value.type then
        Status.invalidArgument "property index" "mixed posting value types"
      else if prior.any fun prior => unordered prior posting then
        Status.invalidArgument "property index" "postings are not sorted"
      else
        validatePostings segment (some posting) postings

/-- The checks on a segment. -/
def validate (segment : PropertyIndexSegment) : Status :=
  if segment.generationId = 0 ∨ segment.baseSeq > segment.builtThrough ∨ segment.property = 0 ∨
      segment.schemaEpoch = 0 then
    Status.invalidArgument "property index" "invalid segment identity"
  else if segment.postings.length > 1000000 then
    Status.resourceExhausted "property index" "posting count exceeds bound"
  else
    segment.validatePostings none segment.postings

end PropertyIndexSegment

end Cedar
