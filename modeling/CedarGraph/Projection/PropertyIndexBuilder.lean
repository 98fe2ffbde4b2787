import CedarGraph.Kernel.CanonicalReader
import CedarGraph.Lib.Lists
import CedarGraph.Projection.PropertyIndex

/-!
# Building property indexes

The builder reads the state of the properties at the start of an interval of valid time and
writes, for every property and partition with a value there, a segment with a region which claims
the whole interval.

A region is truthful if at every instant which it claims its segment has the values of the
property at that instant.  The builder reads one instant only, so the regions are truthful exactly
if no value starts later in the interval.
-/

namespace Cedar

open FactReadSpec List PropertyFact StatusOr

inductive PropertyEntityKind where
  | vertex
  | edge
  deriving DecidableEq

/-- The definition of a property in the schema. -/
structure PropertyDefinition where
  propertyId : PropertyId
  schemaEpoch : UInt32 := 0
  name : String
  entityKind : PropertyEntityKind := .vertex
  physicalType : PhysicalType := .binary
  blobThresholdBytes : UInt64 := 0

/-- A definition has an id, an epoch, a name of a bounded size and a threshold. -/
def PropertyDefinition.validate (definition : PropertyDefinition) : Status :=
  if definition.propertyId = 0 ∨ definition.schemaEpoch = 0 ∨ definition.name = "" ∨
      definition.name.utf8ByteSize > 4096 ∨ definition.blobThresholdBytes = 0 then
    Status.invalidArgument "property definition" "invalid schema definition"
  else
    .ok ()

/-- A segment which is to be written. -/
structure ProjectionSegmentInput where
  descriptor : SegmentDescriptor
  segment : PropertyIndexSegment

/-- A projection generation which is to be published. -/
structure ProjectionBuild where
  manifest : ProjectionManifest
  segments : List ProjectionSegmentInput

namespace PropertyIndexBuilder

/-- The order of postings: by value, by vertex, and by the start of the interval. -/
def postingLess (left right : PropertyIndexPosting) : Bool :=
  match Value.dataOrder left.value right.value with
  | .lt => true
  | .gt => false
  | .eq =>
      if left.vertex.partId ≠ right.vertex.partId then left.vertex.partId < right.vertex.partId
      else if left.vertex.vertexId ≠ right.vertex.vertexId then
        left.vertex.vertexId < right.vertex.vertexId
      else left.effective.start < right.effective.start

/-- A routine which sorts postings.  A NaN is not less than any value, and no value is less than
it, so in its presence the order of the result is open. -/
structure PostingSorter where
  sort : List PropertyIndexPosting → List PropertyIndexPosting
  /-- Sorting permutes. -/
  perm : ∀ postings, (sort postings).Perm postings

/-- Sorting by insertion. -/
def PostingSorter.insertion : PostingSorter where
  sort postings := postings.insertionSort fun left right => postingLess right left = false
  perm postings := List.perm_insertionSort _ postings

/-- What a generation is built from. -/
structure Source where
  reader : CanonicalFactReader
  partScope : PartScope
  validTime : ValidTimeInterval
  baseSeq : CommitSeq
  builtThrough : CommitSeq
  generationId : UInt64

variable (source : Source)

/-- The read of the values of a property at the start of the interval. -/
def stateSpec (definition : PropertyDefinition) : CanonicalStateReadSpec where
  facts :=
    { partScope := source.partScope
      family := .vertexProperty
      propertyId := definition.propertyId
      commitSeqMax := some source.builtThrough
      batchRowLimit := 1024 }
  validTime := source.validTime.start
  snapshotSeq := source.builtThrough

/-- The posting of a row with a value. -/
def toPosting (row : CanonicalStateRow) : Option PropertyIndexPosting :=
  row.value.map fun value =>
    ⟨⟨row.ref.partId, row.ref.entityId⟩, row.effective, row.commitSeq, value⟩

/-- The postings of a partition, in order. -/
def partSegment (sorter : PostingSorter) (definition : PropertyDefinition)
    (postings : List PropertyIndexPosting) (part : PartId) : PropertyIndexSegment where
  generationId := source.generationId
  baseSeq := source.baseSeq
  builtThrough := source.builtThrough
  property := definition.propertyId
  partId := part
  schemaEpoch := definition.schemaEpoch
  postings := sorter.sort (postings.filter fun posting => posting.vertex.partId = part)

/-- The end of a range of entities which has the vertex. -/
def afterVertex (vertex : VertexId) : UInt64 :=
  if vertex = 0xFFFFFFFFFFFFFFFF then 0xFFFFFFFFFFFFFFFF else vertex + 1

/-- The range of the vertices of the postings, from the range of those before. -/
def entityRange : List PropertyIndexPosting → UInt64 × UInt64 → UInt64 × UInt64
  | [], range => range
  | posting :: postings, (entityMin, entityMaxExclusive) =>
      entityRange postings
        (min entityMin posting.vertex.vertexId,
          if posting.vertex.vertexId ≠ 0xFFFFFFFFFFFFFFFF then
            max entityMaxExclusive (posting.vertex.vertexId + 1)
          else 0xFFFFFFFFFFFFFFFF)

/-- The range of the vertices of a segment. -/
def segmentRange (segment : PropertyIndexSegment) : UInt64 × UInt64 :=
  match segment.postings with
  | [] => (0, 0)
  | first :: _ =>
      let range := entityRange segment.postings
        (first.vertex.vertexId, afterVertex first.vertex.vertexId)
      (if range.1 = 0xFFFFFFFFFFFFFFFF then 0 else range.1, range.2)

/-- The file of a segment. -/
def descriptor (segment : PropertyIndexSegment) : SegmentDescriptor :=
  let segmentId := "property-" ++ toString segment.property ++ "-part-" ++
    toString segment.partId ++ "-generation-" ++ toString source.generationId
  { segmentId := segmentId
    filename := segmentId ++ ".cpi"
    header :=
      { kind := .propertyIndex
        generationId := source.generationId
        baseSeq := source.baseSeq
        partId := segment.partId
        propertyId := segment.property
        schemaEpoch := segment.schemaEpoch
        entityMin := (segmentRange segment).1
        entityMaxExclusive := (segmentRange segment).2
        validFromMin := source.validTime.start } }

/-- The region of a segment: it claims the whole interval. -/
def region (segment : PropertyIndexSegment) : CoverageRegion where
  kind := .propertyIndex
  partId := segment.partId
  propertyId := some segment.property
  schemaEpoch := segment.schemaEpoch
  entityMin := (segmentRange segment).1
  entityMaxExclusive := (segmentRange segment).2
  validTime := source.validTime
  builtThrough := source.builtThrough
  segments := [descriptor source segment]

/-- The partitions of the postings, in increasing order. -/
def postingParts (postings : List PropertyIndexPosting) : List PartId :=
  (postings.map fun posting => posting.vertex.partId).dedup.insertionSort (· ≤ ·)

/-- The segment of a partition, which must be valid to be encoded. -/
def buildPart (sorter : PostingSorter) (definition : PropertyDefinition)
    (postings : List PropertyIndexPosting) (part : PartId) : StatusOr PropertyIndexSegment := do
  (partSegment source sorter definition postings part).validate
  return partSegment source sorter definition postings part

/-- The segments of a property. -/
def buildDefinition (rowSorter : Sorter FactEvent.chainKey) (sorter : PostingSorter)
    (definition : PropertyDefinition) : StatusOr (List PropertyIndexSegment) := do
  definition.validate
  if definition.entityKind ≠ .vertex then
    .ok []
  else do
    let rows ← source.reader.readStateRows rowSorter (stateSpec source definition)
    let postings := rows.filterMap toPosting
    (postingParts postings).mapM (buildPart source sorter definition postings)

/-- The indexes of the vertex properties of a schema. -/
def buildPropertyIndexProjection (rowSorter : Sorter FactEvent.chainKey) (sorter : PostingSorter)
    (definitions : List PropertyDefinition) (databaseIdentity : String) :
    StatusOr ProjectionBuild :=
  if source.generationId = 0 ∨ source.baseSeq > source.builtThrough then
    Status.invalidArgument "property index builder" "invalid generation watermark"
  else if source.partScope.validate ≠ .ok () ∨ source.validTime.validate ≠ .ok () then
    Status.invalidArgument "property index builder" "invalid scope"
  else do
    let built ← definitions.mapM (buildDefinition source rowSorter sorter)
    let segments := built.flatten
    .ok {
      manifest := {
        databaseIdentity := databaseIdentity
        generationId := source.generationId
        baseSeq := source.baseSeq
        regions := segments.map (region source) }
      segments := segments.map fun segment => ⟨descriptor source segment, segment⟩ }

/-! ### The postings of a property -/

section Postings

variable {source} {rowSorter : Sorter FactEvent.chainKey} {definition : PropertyDefinition}

/-- The references of the property in the scope. -/
def InScope (source : Source) (definition : PropertyDefinition) (ref : FactRef) : Prop :=
  source.partScope.contains ref.partId = true ∧ ref.family = .vertexProperty ∧
    ref.propertyId = definition.propertyId

/-- The read is about the references in the scope. -/
theorem readsSnapshot_stateSpec (source : Source) (definition : PropertyDefinition) :
  CanonicalFactReader.ReadsSnapshot (stateSpec source definition).facts source.builtThrough
    (InScope source definition)
  := by
  have hiff : ∀ event, (stateSpec source definition).facts.matchesReadSpec event = true ↔
      InScope source definition event.ref ∧ event.commitSeq ≤ source.builtThrough := by
    simp only [matchesReadSpec, Bool.and_eq_true, decide_eq_true_eq]
    simp [stateSpec, InScope, and_assoc]
  constructor
  · intro event hmatch
    apply ((hiff event).mp hmatch).1
  · intro event href hle
    apply (hiff event).mpr ⟨href, hle⟩

variable {rows : List CanonicalStateRow}

/-- The postings of a read are the values of the property at the start of the interval. -/
theorem exists_posting_iff (hscope : source.partScope.validate = .ok ())
    (hrows : source.reader.readStateRows rowSorter (stateSpec source definition) = .ok rows)
    {vertex : VertexRef} {interval : ValidTimeInterval} {value : Value} :
  (∃ posting ∈ rows.filterMap toPosting, posting.vertex = vertex ∧
      posting.effective = interval ∧ posting.value = value) ↔
    source.partScope.contains vertex.partId = true ∧ interval.Contains source.validTime.start ∧
      ⟨interval, some value⟩ ∈ (source.reader.facts.chain
        (PropertyFact.vertex vertex definition.propertyId)).stateAt source.builtThrough
  := by
  have hvalid : (stateSpec source definition).facts.validate = .ok () := by
    simp [validate, stateSpec, hscope, EntityRange.validate, reversed]
  have hseq : source.builtThrough ≤ source.reader.commitSeq := by
    by_contra hlt
    obtain ⟨_, -, hrows⟩ := bind_eq_ok_iff.mp hrows
    rw [if_pos] at hrows
    · cases hrows
    · use not_le.mp hlt
      intro hzero
      apply hlt
      rw [show source.builtThrough = 0 from hzero]
      apply bot_le
  have hreads := readsSnapshot_stateSpec source definition
  have hread := source.reader.readStateRows_eq_ok rowSorter hvalid hseq rfl hreads
  obtain rfl := Except.ok.inj (hread.symm.trans hrows)
  have hmem := source.reader.mem_flatMap_stateRows_iff hreads hseq source.validTime.start
  constructor
  · rintro ⟨posting, hposting, rfl, rfl, rfl⟩
    obtain ⟨row, hrow, hposting⟩ := mem_filterMap.mp hposting
    obtain ⟨ref, ⟨hpart, hfamily, hproperty⟩, hrow⟩ := (hmem row).mp hrow
    obtain ⟨state, hstate, rfl⟩ := mem_map.mp hrow
    obtain ⟨hstate, hcontains⟩ := mem_filter.mp hstate
    obtain ⟨value, hvalue, rfl⟩ := Option.map_eq_some_iff.mp hposting
    use hpart, of_decide_eq_true hcontains
    have href : vertex ⟨ref.partId, ref.entityId⟩ definition.propertyId = ref := by
      rw [vertex, ← hproperty, ← hfamily]
    rw [href, ← hvalue]
    apply hstate
  · rintro ⟨hpart, hcontains, hstate⟩
    have hrow := (hmem ⟨PropertyFact.vertex vertex definition.propertyId, interval, _, some value⟩).mpr
      ⟨PropertyFact.vertex vertex definition.propertyId, ⟨hpart, rfl, rfl⟩, mem_map.mpr
        ⟨⟨interval, some value⟩, mem_filter.mpr ⟨hstate, decide_eq_true hcontains⟩, rfl⟩⟩
    refine ⟨_, mem_filterMap.mpr ⟨_, hrow, rfl⟩, rfl, rfl, rfl⟩

end Postings

/-! ### The segments of a generation -/

section Segments

variable {source} {rowSorter : Sorter FactEvent.chainKey} {sorter : PostingSorter}

variable {definition : PropertyDefinition}

/-- The segments of a property are those of the partitions with a value at the start of the
interval. -/
theorem mem_buildDefinition_iff {segments : List PropertyIndexSegment}
    (hbuilt : buildDefinition source rowSorter sorter definition = .ok segments)
    (hvertex : definition.entityKind = .vertex) :
  ∃ rows, source.reader.readStateRows rowSorter (stateSpec source definition) = .ok rows ∧
    ∀ segment, segment ∈ segments ↔ ∃ posting ∈ rows.filterMap toPosting,
      segment = partSegment source sorter definition (rows.filterMap toPosting)
        posting.vertex.partId
  := by
  obtain ⟨_, -, hbuilt⟩ := bind_eq_ok_iff.mp hbuilt
  rw [if_neg (not_not.mpr hvertex)] at hbuilt
  obtain ⟨rows, hrows, hbuilt⟩ := bind_eq_ok_iff.mp hbuilt
  use rows, hrows
  have hforall := mapM_eq_ok_iff.mp hbuilt
  have hsegment : ∀ {part segment},
      buildPart source sorter definition (rows.filterMap toPosting) part = .ok segment →
      segment = partSegment source sorter definition (rows.filterMap toPosting) part := by
    intro part segment h
    obtain ⟨_, -, h⟩ := bind_eq_ok_iff.mp h
    apply (Except.ok.inj h).symm
  have hparts : ∀ part, part ∈ postingParts (rows.filterMap toPosting) ↔
      ∃ posting ∈ rows.filterMap toPosting, posting.vertex.partId = part := by
    simp [postingParts]
  intro segment
  constructor
  · intro hmem
    obtain ⟨part, hpart, heq⟩ := hforall.exists_left hmem
    obtain ⟨posting, hposting, rfl⟩ := (hparts part).mp hpart
    use posting, hposting, hsegment heq
  · rintro ⟨posting, hposting, rfl⟩
    obtain ⟨segment, hmem, heq⟩ := hforall.exists_right ((hparts _).mpr ⟨posting, hposting, rfl⟩)
    rwa [← hsegment heq]

/-- At every instant which the region claims, the segment has a posting of a vertex with a value
exactly if the vertex is of the partition of the region and has the value. -/
def Truthful (facts : CommittedFacts) (snapshotSeq : CommitSeq) (region : CoverageRegion)
    (segment : PropertyIndexSegment) : Prop :=
  ∀ t, region.validTime.Contains t → ∀ vertex value,
    (∃ posting ∈ segment.postings, posting.vertex = vertex ∧ posting.effective.Contains t ∧
        posting.value = value) ↔
      vertex.partId = region.partId ∧ ∃ property, region.propertyId = some property ∧
        facts.HasValueAt snapshotSeq (PropertyFact.vertex vertex property) t value

/-- Every value which the property has in the partition in the interval is there from the start of
the interval on. -/
def NoLaterValue (facts : CommittedFacts) (snapshotSeq : CommitSeq)
    (validTime : ValidTimeInterval) (property : PropertyId) (part : PartId) : Prop :=
  ∀ vertexId, ∀ state ∈ (facts.chain
      (PropertyFact.vertex ⟨part, vertexId⟩ property)).stateAt snapshotSeq,
    state.value.isSome → validTime.Contains state.interval.start →
      state.interval.start = validTime.start

/-- The region of a partition is truthful exactly if no value starts later in the interval. -/
theorem truthful_partSegment_iff (hscope : source.partScope.validate = .ok ())
    {rows : List CanonicalStateRow}
    (hrows : source.reader.readStateRows rowSorter (stateSpec source definition) = .ok rows)
    {part : PartId} (hpart : source.partScope.contains part = true) :
  Truthful source.reader.facts source.builtThrough
      (region source (partSegment source sorter definition (rows.filterMap toPosting) part))
      (partSegment source sorter definition (rows.filterMap toPosting) part) ↔
    NoLaterValue source.reader.facts source.builtThrough source.validTime definition.propertyId
      part
  := by
  have hposting : ∀ vertex t value,
      (∃ posting ∈ (partSegment source sorter definition (rows.filterMap toPosting) part).postings,
        posting.vertex = vertex ∧ posting.effective.Contains t ∧ posting.value = value) ↔
      vertex.partId = part ∧ ∃ interval : ValidTimeInterval, interval.Contains t ∧
        interval.Contains source.validTime.start ∧
        ⟨interval, some value⟩ ∈ (source.reader.facts.chain
          (PropertyFact.vertex vertex definition.propertyId)).stateAt source.builtThrough := by
    intro vertex t value
    constructor
    · rintro ⟨posting, hmem, rfl, ht, rfl⟩
      obtain ⟨hmem, hpart'⟩ := mem_filter.mp ((sorter.perm _).mem_iff.mp hmem)
      obtain ⟨-, hstart, hstate⟩ := (exists_posting_iff hscope hrows).mp ⟨posting, hmem, rfl, rfl, rfl⟩
      use of_decide_eq_true hpart', posting.effective
    · rintro ⟨rfl, interval, ht, hstart, hstate⟩
      obtain ⟨posting, hmem, rfl, rfl, rfl⟩ :=
        (exists_posting_iff hscope hrows).mpr ⟨hpart, hstart, hstate⟩
      use posting
      constructor
      · apply (sorter.perm _).mem_iff.mpr
        apply mem_filter.mpr
        use hmem
        simp
      · use rfl, ht
  constructor
  · intro htruthful vertexId state hstate hsome hcontains
    obtain ⟨value, hvalue⟩ := Option.isSome_iff_exists.mp hsome
    have hlaid := (source.reader.facts.chain (PropertyFact.vertex ⟨part, vertexId⟩
      definition.propertyId)).laid_stateAt source.builtThrough
    have hvalid : state.interval.Valid := hlaid.valid state hstate
    have hthere := (htruthful state.interval.start hcontains ⟨part, vertexId⟩ value).mpr
      ⟨rfl, definition.propertyId, rfl, state, hstate, hvalid.contains_start, hvalue⟩
    obtain ⟨-, interval, hinterval, hstart, hmem⟩ := (hposting _ _ _).mp hthere
    obtain rfl := hlaid.eq_of_contains hmem hstate hinterval hvalid.contains_start
    apply le_antisymm hstart.1 hcontains.1
  · intro hlater t ht vertex value
    rw [hposting]
    apply and_congr_right
    rintro rfl
    constructor
    · rintro ⟨interval, hinterval, -, hstate⟩
      use definition.propertyId, rfl, ⟨interval, some value⟩
    · rintro ⟨property, hproperty, state, hstate, hinterval, hvalue⟩
      obtain rfl := Option.some.inj hproperty
      use state.interval, hinterval
      have hstart : state.interval.start ≤ source.validTime.start := by
        by_contra hlt
        have hwithin : source.validTime.Contains state.interval.start :=
          ht.of_le (le_of_lt (not_le.mp hlt)) hinterval.1
        have heq := hlater vertex.vertexId state hstate (by simp [hvalue]) hwithin
        apply hlt (le_of_eq heq)
      use hinterval.of_le hstart ht.1
      rw [← hvalue]
      apply hstate

end Segments

/-! ### The regions of a generation -/

/-- Every region is truthful about the segment which it names. -/
def ClaimsOnlyStored (facts : CommittedFacts) (snapshotSeq : CommitSeq) (build : ProjectionBuild) :
    Prop :=
  ∀ region ∈ build.manifest.regions, ∀ input ∈ build.segments,
    input.descriptor ∈ region.segments → Truthful facts snapshotSeq region input.segment

section Build

variable {source} {rowSorter : Sorter FactEvent.chainKey} {sorter : PostingSorter}
  {definitions : List PropertyDefinition} {databaseIdentity : String} {build : ProjectionBuild}

/-- Segments with the same file have the same region up to the range of entities. -/
theorem truthful_region_of_descriptor_eq
    {facts : CommittedFacts} {snapshotSeq : CommitSeq} {left right segment : PropertyIndexSegment}
    (heq : descriptor source left = descriptor source right) :
  Truthful facts snapshotSeq (region source right) segment ↔
    Truthful facts snapshotSeq (region source left) segment
  := by
  have hpart : left.partId = right.partId := congrArg (fun file => file.header.partId) heq
  have hproperty : left.property = right.property :=
    congrArg (fun file => file.header.propertyId) heq
  simp only [Truthful, region, hpart, hproperty]

/-- The regions of a build claim only what is stored exactly if, for every vertex property and
every partition of the scope with a value at the start of the interval, no value starts later in
the interval. -/
theorem claimsOnlyStored_iff
    (hbuild : buildPropertyIndexProjection source rowSorter sorter definitions databaseIdentity =
      .ok build) :
  ClaimsOnlyStored source.reader.facts source.builtThrough build ↔
    ∀ definition ∈ definitions, definition.entityKind = .vertex →
      ∀ part, source.partScope.contains part = true →
        (∃ vertexId value, source.reader.facts.HasValueAt source.builtThrough
          (PropertyFact.vertex ⟨part, vertexId⟩ definition.propertyId) source.validTime.start
          value) →
        NoLaterValue source.reader.facts source.builtThrough source.validTime
          definition.propertyId part
  := by
  rw [buildPropertyIndexProjection] at hbuild
  split at hbuild
  · cases hbuild
  obtain ⟨hvalid, hbuild⟩ := guard_eq_ok_iff.mp hbuild
  obtain ⟨built, hbuilt, hbuild⟩ := bind_eq_ok_iff.mp hbuild
  obtain rfl := Except.ok.inj hbuild
  have hbuilt := mapM_eq_ok_iff.mp hbuilt
  push Not at hvalid
  have hscope := hvalid.1
  rw [ClaimsOnlyStored]
  constructor
  · rintro hclaims definition hdefinition hvertex part hpart ⟨vertexId, value, state, hstate,
      hstart, hvalue⟩
    obtain ⟨segments, hmem, hsegments⟩ := hbuilt.exists_right hdefinition
    obtain ⟨rows, hrows, hsegment⟩ := mem_buildDefinition_iff hsegments hvertex
    apply (truthful_partSegment_iff hscope hrows hpart).mp
    obtain ⟨posting, hposting, hvertexRef, -⟩ : ∃ posting ∈ rows.filterMap toPosting,
        posting.vertex = ⟨part, vertexId⟩ ∧ posting.effective = state.interval ∧
          posting.value = value := by
      apply (exists_posting_iff hscope hrows).mpr
      use hpart, hstart
      rw [← hvalue]
      apply hstate
    have hflat := mem_flatten.mpr ⟨segments, hmem, (hsegment _).mpr ⟨posting, hposting, rfl⟩⟩
    rw [hvertexRef] at hflat
    apply hclaims _ (mem_map_of_mem hflat) _ (mem_map_of_mem hflat)
    apply mem_singleton_self
  · intro hlater region' hregion input hinput hdescriptor
    obtain ⟨segment', hsegment', rfl⟩ := mem_map.mp hregion
    obtain ⟨segment, hsegment, rfl⟩ := mem_map.mp hinput
    rw [truthful_region_of_descriptor_eq (mem_singleton.mp hdescriptor)]
    obtain ⟨segments, hmem, hsegment⟩ := mem_flatten.mp hsegment
    obtain ⟨definition, hdefinition, hsegments⟩ := hbuilt.exists_left hmem
    have hvertex : definition.entityKind = .vertex := by
      by_contra hedge
      obtain ⟨_, -, hsegments⟩ := bind_eq_ok_iff.mp hsegments
      rw [if_pos hedge] at hsegments
      rw [← Except.ok.inj hsegments] at hsegment
      cases hsegment
    obtain ⟨rows, hrows, hiff⟩ := mem_buildDefinition_iff hsegments hvertex
    obtain ⟨posting, hposting, rfl⟩ := (hiff segment).mp hsegment
    -- The partition has a region because of the posting, which is a value at the start.
    obtain ⟨hpart, hstart, hstate⟩ :=
      (exists_posting_iff hscope hrows).mp ⟨posting, hposting, rfl, rfl, rfl⟩
    apply (truthful_partSegment_iff hscope hrows hpart).mpr
    apply hlater definition hdefinition hvertex _ hpart
    use posting.vertex.vertexId, posting.value, ⟨posting.effective, some posting.value⟩, hstate, hstart

end Build

/-! ### A value which starts later -/

/-- The assertion of a value of property 7. -/
def assertion (vertexId : VertexId) (validFrom : ValidTime) (value : Int64) : FactEvent :=
  { ref := PropertyFact.vertex ⟨0, vertexId⟩ 7, validFrom, commitSeq := 1, schemaEpoch := 1,
    value := some (.int64 value) }

/-- Vertex 1 has a value from the start on, vertex 2 from instant 10 on. -/
def laterFacts : CommittedFacts where
  events := [assertion 1 0 5, assertion 2 10 9]
  valid := by decide
  distinct := by decide

/-- The generation of all values until an end. -/
def laterSource (stop : Option ValidTime) : Source where
  reader := ⟨laterFacts, 1⟩
  partScope := { kind := .all, parts := [] }
  validTime := ⟨0, stop⟩
  baseSeq := 1
  builtThrough := 1
  generationId := 1

def laterProperty : PropertyDefinition :=
  { propertyId := 7, schemaEpoch := 1, name := "property", blobThresholdBytes := 1 }

/-- The segment of the values at the start. -/
def laterSegment : PropertyIndexSegment where
  generationId := 1
  baseSeq := 1
  builtThrough := 1
  property := 7
  partId := 0
  schemaEpoch := 1
  postings := [⟨⟨0, 1⟩, ⟨0, none⟩, 1, .int64 5⟩]

/-- The index of the values. -/
def laterBuild (stop : Option ValidTime) : ProjectionBuild where
  manifest :=
    { databaseIdentity := "database", generationId := 1, baseSeq := 1,
      regions := [region (laterSource stop) laterSegment] }
  segments := [⟨descriptor (laterSource stop) laterSegment, laterSegment⟩]

/-- The region claims instant 10, at which vertex 2 has a value without a posting. -/
theorem laterBuild_misses_value :
  buildPropertyIndexProjection (laterSource none) (Sorter.insertion _) .insertion [laterProperty]
      "database" = .ok (laterBuild none) ∧
    (region (laterSource none) laterSegment).validTime.Contains 10 ∧
    laterFacts.HasValueAt 1 (PropertyFact.vertex ⟨0, 2⟩ 7) 10 (.int64 9) ∧
    (∀ posting ∈ laterSegment.postings, posting.vertex ≠ ⟨0, 2⟩) ∧
    ¬ ClaimsOnlyStored laterFacts 1 (laterBuild none)
  := by
  have hvalue : laterFacts.HasValueAt 1 (vertex ⟨0, 2⟩ 7) 10 (.int64 9) := by
    use ⟨⟨10, none⟩, some (.int64 9)⟩
    decide
  have hposting : ∀ posting ∈ laterSegment.postings, posting.vertex ≠ ⟨0, 2⟩ := by decide
  use rfl, by decide, hvalue, hposting
  intro hclaims
  have htruthful := hclaims _ (mem_singleton_self _) _ (mem_singleton_self _)
    (mem_singleton_self _)
  obtain ⟨posting, hmem, hvertex, -⟩ := (htruthful 10 (by decide) ⟨0, 2⟩ (.int64 9)).mpr
    ⟨rfl, 7, rfl, hvalue⟩
  apply hposting posting hmem hvertex

/-- Until instant 10 no value starts later. -/
theorem noLaterValue_laterFacts (part : PartId) :
  NoLaterValue laterFacts 1 ⟨0, some 10⟩ 7 part
  := by
  intro vertexId state hstate _ hcontains
  by_cases hevent : part = 0 ∧ (vertexId = 1 ∨ vertexId = 2)
  · obtain ⟨rfl, rfl | rfl⟩ := hevent
    · have hstates : ∀ state ∈ (laterFacts.chain (vertex ⟨0, 1⟩ 7)).stateAt 1,
          state.interval.start = 0 := by
        decide
      apply hstates state hstate
    · have hstates : ∀ state ∈ (laterFacts.chain (vertex ⟨0, 2⟩ 7)).stateAt 1,
          state.interval.start = 10 := by
        decide
      rw [hstates state hstate] at hcontains
      exact absurd hcontains (by decide)
  · rw [laterFacts.stateAt_chain_eq_nil] at hstate
    · cases hstate
    · intro event hmem href
      apply hevent
      obtain rfl | rfl : event = assertion 1 0 5 ∨ event = assertion 2 10 9 := by
        simpa [laterFacts] using hmem
      · use congrArg FactRef.partId href.symm, Or.inl (congrArg FactRef.entityId href.symm)
      · use congrArg FactRef.partId href.symm, Or.inr (congrArg FactRef.entityId href.symm)

/-- The index until instant 10 claims only what is stored. -/
theorem laterBuild_claimsOnlyStored :
  buildPropertyIndexProjection (laterSource (some 10)) (Sorter.insertion _) .insertion
      [laterProperty] "database" = .ok (laterBuild (some 10)) ∧
    ClaimsOnlyStored laterFacts 1 (laterBuild (some 10))
  := by
  have hbuild : buildPropertyIndexProjection (laterSource (some 10)) (Sorter.insertion _) .insertion
      [laterProperty] "database" = .ok (laterBuild (some 10)) := rfl
  use hbuild
  apply (claimsOnlyStored_iff hbuild).mpr
  rintro definition hdefinition - part - -
  obtain rfl := mem_singleton.mp hdefinition
  apply noLaterValue_laterFacts

end PropertyIndexBuilder

end Cedar
