import CedarGraph.Runtime.TemporalGraph

/-!
# The index of the neighbours

The index keeps the identities of edges by their endpoints, together with the commits which stated
them.  It is built from the facts of a snapshot and then follows query deltas.  For the snapshot
itself there is a catalog, which a delta does not change.

A search may miss an edge: one which was stated again, with the later commit first, since an edge
has one entry in a posting, and one of a delta, since the catalog is asked for a snapshot which the
index has reached by it.  It finds all others.
-/

namespace Cedar

open List

/-- What the index reads of the view of a query delta. -/
structure IdentityView where
  baseSeq : CommitSeq
  through : CommitSeq
  edgeIdentities : List EdgeIdentity := []
  edgeIdentityRecords : List (CommitSeq × EdgeIdentity) := []

/-- The identities of a view, which were stated by its last commit if no other one is known. -/
def IdentityView.records (view : IdentityView) : List (CommitSeq × EdgeIdentity) :=
  if view.edgeIdentityRecords = [] then view.edgeIdentities.map (view.through, ·)
  else view.edgeIdentityRecords

abbrev AdjacencyKey : Type := VertexRef × ExpandDirection × Option UInt64

structure AdjacencyIndex where
  postings : AdjacencyKey → List (CommitSeq × UInt64 × EdgeIdentity) := fun _ => []
  /-- There are postings. -/
  posted : Bool := false
  builtThrough : CommitSeq := 0
  generation : UInt64 := 0
  generationComplete : Bool := true
  /-- A key without a posting has no identities. -/
  readCatalog : AdjacencyKey → List EdgeIdentity := fun _ => []

namespace AdjacencyIndex

def keys (identity : EdgeIdentity) : List AdjacencyKey :=
  [(identity.sourceRef, .out, none), (identity.sourceRef, .out, some identity.edgeType),
    (identity.targetRef, .into, none), (identity.targetRef, .into, some identity.edgeType)]

/-- An edge has one entry in a posting. -/
def add (generation : UInt64) (index : AdjacencyIndex) (record : CommitSeq × EdgeIdentity) :
    AdjacencyIndex :=
  { index with
    posted := true
    postings := fun key =>
      if key ∈ keys record.2 ∧
          ∀ entry ∈ index.postings key, entry.2.2.edgeRef ≠ record.2.edgeRef then
        index.postings key ++ [(record.1, generation, record.2)]
      else index.postings key }

/-- The identities which facts state. -/
def identities (events : List FactEvent) : List (CommitSeq × EdgeIdentity) :=
  events.filterMap fun event => event.edgeIdentity.map (event.commitSeq, ·)

def build (events : List FactEvent) (snapshotSeq : CommitSeq) (generation : UInt64) :
    StatusOr AdjacencyIndex := do
  (identities events).forM fun record => do
    if record.2.sourceVertexId = 0 then
      Status.invalidArgument "read catalog" "invalid adjacency vertex"
    else record.2.validate
  return { (identities events).foldl (add generation) { generation } with
    builtThrough := snapshotSeq
    readCatalog := fun key =>
      ((identities events).map Prod.snd).filter fun identity => key ∈ keys identity }

def applyDelta (generation : UInt64) (index : AdjacencyIndex) (view : IdentityView) :
    AdjacencyIndex :=
  let index := { index with
    generationComplete := index.generationComplete &&
      !(index.posted && generation ≠ index.generation)
    generation }
  let index := (view.records.filter fun record => record.1 ≤ view.through).foldl
    (add generation) index
  { index with builtThrough := max index.builtThrough view.through }

/-- The directions in which a search goes along an edge. -/
def directions : ExpandDirection → List ExpandDirection
  | .both => [.into, .out]
  | direction => [direction]

/-- The identities of a posting, which are those of the catalog for its own snapshot. -/
def collect (index : AdjacencyIndex) (snapshotSeq : CommitSeq) (generation : Option UInt64)
    (delta : Option IdentityView) (key : AdjacencyKey) : List EdgeIdentity :=
  if delta.isNone ∧ snapshotSeq = index.builtThrough ∧ index.readCatalog key ≠ [] then
    index.readCatalog key
  else
    ((index.postings key).filter fun entry =>
      entry.1 ≤ snapshotSeq ∧ ∀ g ∈ generation, entry.2.1 = g).map fun entry => entry.2.2

/-- An edge leaves or enters a vertex of the frontier. -/
def Meets (frontier : List VertexRef) (direction : ExpandDirection) (identity : EdgeIdentity) :
    Prop :=
  direction ≠ .into ∧ identity.sourceRef ∈ frontier ∨
    direction ≠ .out ∧ identity.targetRef ∈ frontier

instance (frontier : List VertexRef) (direction : ExpandDirection) :
    DecidablePred (Meets frontier direction) := fun _ =>
  inferInstanceAs (Decidable (_ ∨ _))

/-- The identities at a frontier, in no particular order. -/
def seek (index : AdjacencyIndex) (frontier : List VertexRef) (direction : ExpandDirection)
    (edgeType : Option UInt64) (snapshotSeq : CommitSeq) (generation : Option UInt64)
    (delta : Option IdentityView) : StatusOr (List EdgeIdentity) :=
  if ¬ index.builtThrough ≥ snapshotSeq ∧
      ∀ view ∈ delta, view.records = [] ∨ view.through < snapshotSeq then
    Status.notFound "adjacency index" "posting coverage is missing"
  else if ¬ index.generationComplete ∨ ∃ g ∈ generation, index.generation ≠ g then
    Status.notFound "adjacency index" "posting generation is unavailable"
  else
    let found := frontier.flatMap fun vertex => (directions direction).flatMap fun direction =>
      index.collect snapshotSeq generation delta (vertex, direction, edgeType)
    let fresh := (delta.toList.flatMap IdentityView.records).filter fun record =>
      record.1 ≤ snapshotSeq ∧ Meets frontier direction record.2 ∧
        ∀ type ∈ edgeType, record.2.edgeType = type
    .ok (found ++ fresh.map Prod.snd).dedup

/-! ### What a search finds -/

/-- The first record of its edge. -/
def First (stated : List (CommitSeq × EdgeIdentity)) (record : CommitSeq × EdgeIdentity) : Prop :=
  stated.find? (fun other => other.2.edgeRef = record.2.edgeRef) = some record

/-- An edge is always stated with the same identity. -/
def Immutable (stated : List (CommitSeq × EdgeIdentity)) : Prop :=
  ∀ record ∈ stated, ∀ other ∈ stated, record.2.edgeRef = other.2.edgeRef → record.2 = other.2

/-- The index shows the first record of each edge which was stated, and the catalog those of the
snapshot. -/
structure Shows (g : UInt64) (base : CommitSeq) (events stated : List (CommitSeq × EdgeIdentity))
    (index : AdjacencyIndex) : Prop where
  postings : ∀ key seq g' identity, (seq, g', identity) ∈ index.postings key ↔
    g' = g ∧ key ∈ keys identity ∧ First stated (seq, identity)
  generation : index.generation = g
  base_le : base ≤ index.builtThrough
  readCatalog : ∀ key, index.readCatalog key =
    (events.map Prod.snd).filter fun identity => key ∈ keys identity

open IdentityView

section Shows

variable {g : UInt64} {base s : CommitSeq} {events stated : List (CommitSeq × EdgeIdentity)}
  {index : AdjacencyIndex} {identity : EdgeIdentity} {edgeType : Option UInt64}
  {record : CommitSeq × EdgeIdentity}

theorem Immutable.mono (h : Immutable stated) (hsubset : events ⊆ stated) :
  Immutable events
  := fun r hr r' hr' => h r (hsubset hr) r' (hsubset hr')

theorem First.mem (h : First stated record) :
  record ∈ stated
  := mem_of_find?_eq_some h

/-- Each edge which was stated has a first record, with the same identity. -/
theorem exists_first (himmutable : Immutable stated) (hrecord : record ∈ stated) :
  ∃ seq, First stated (seq, record.2)
  := by
  rcases hfind : stated.find? fun other => other.2.edgeRef = record.2.edgeRef with _ | first
  · simpa using find?_eq_none.mp hfind record hrecord
  · have hsame : first.2.edgeRef = record.2.edgeRef := by simpa using find?_some hfind
    have hidentity := himmutable _ (mem_of_find?_eq_some hfind) record hrecord hsame
    use first.1
    rw [First, hfind, ← hidentity]

/-- A further record is the first one of its edge if there was none. -/
theorem first_append_singleton {other : CommitSeq × EdgeIdentity} :
  First (stated ++ [record]) other ↔ First stated other ∨
    (∀ earlier ∈ stated, earlier.2.edgeRef ≠ record.2.edgeRef) ∧ other = record
  := by
  rw [First, First, find?_append]
  by_cases hsame : record.2.edgeRef = other.2.edgeRef
  · rw [find?_cons_of_pos (by simpa using hsame), hsame]
    rcases hfind : stated.find? fun earlier => earlier.2.edgeRef = other.2.edgeRef with _ | first
    all_goals rw [hfind]
    · have hnone : ∀ earlier ∈ stated, earlier.2.edgeRef ≠ other.2.edgeRef := by
        simpa using hfind
      rw [Option.none_or, Option.some.injEq, eq_comm]
      exact ⟨fun heq => .inr ⟨hnone, heq⟩, fun h => (h.resolve_left nofun).2⟩
    · have hearlier : first.2.edgeRef = other.2.edgeRef := by simpa using find?_some hfind
      rw [Option.some_or, iff_self_or]
      intro hnone
      exact absurd hearlier (hnone.1 first (mem_of_find?_eq_some hfind))
  · rw [find?_cons_of_neg (by simpa using hsame), find?_nil, Option.or_none, iff_self_or]
    rintro ⟨-, rfl⟩
    exact absurd rfl hsame

/-- A record is added to the postings unless its edge has an entry there. -/
theorem postings_foldl_add {records : List (CommitSeq × EdgeIdentity)}
    (h : ∀ key seq g' identity, (seq, g', identity) ∈ index.postings key ↔
      g' = g ∧ key ∈ keys identity ∧ First stated (seq, identity))
    (himmutable : Immutable (stated ++ records)) (key : AdjacencyKey) (seq : CommitSeq)
    (g' : UInt64) (identity : EdgeIdentity) :
  (seq, g', identity) ∈ (records.foldl (add g) index).postings key ↔
    g' = g ∧ key ∈ keys identity ∧ First (stated ++ records) (seq, identity)
  := by
  induction records generalizing index stated with
  | nil => simpa using h key seq g' identity
  | cons record records ih =>
    rw [append_cons] at himmutable ⊢
    apply ih _ himmutable
    intro key seq g' identity
    have hstated := himmutable.mono (subset_append_left _ _)
    have hnew : key ∈ keys record.2 →
        ((∀ entry ∈ index.postings key, entry.2.2.edgeRef ≠ record.2.edgeRef) ↔
          ∀ earlier ∈ stated, earlier.2.edgeRef ≠ record.2.edgeRef) := by
      intro hkey
      constructor
      · intro hentries earlier hearlier hsame
        have hidentity := hstated earlier (by simp [hearlier]) record (by simp) hsame
        obtain ⟨first, hfirst⟩ := exists_first (hstated.mono (subset_append_left _ _)) hearlier
        rw [hidentity] at hfirst
        exact hentries _ ((h key first g record.2).mpr ⟨rfl, hkey, hfirst⟩) rfl
      · rintro hall ⟨seq, g', identity⟩ hentry
        exact hall (seq, identity) ((h key seq g' identity).mp hentry).2.2.mem
    rw [first_append_singleton, add]
    dsimp only
    by_cases hkey : key ∈ keys record.2
    · simp only [hkey, true_and, hnew hkey]
      split
      case isTrue hfresh =>
        rw [mem_append, h, mem_singleton]
        constructor
        · rintro (⟨hg, hk, hfirst⟩ | heq)
          · exact ⟨hg, hk, .inl hfirst⟩
          · cases heq
            exact ⟨rfl, hkey, .inr ⟨hfresh, rfl⟩⟩
        · rintro ⟨rfl, hk, hfirst | ⟨-, rfl⟩⟩
          · exact .inl ⟨rfl, hk, hfirst⟩
          · exact .inr rfl
      case isFalse hold =>
        rw [h, or_iff_left fun hfresh => hold hfresh.1]
    · simp only [hkey, false_and, if_false, h]
      refine and_congr_right fun _ => and_congr_right fun hk => ⟨.inl, ?_⟩
      rintro (hfirst | ⟨-, rfl⟩)
      · exact hfirst
      · exact absurd hk hkey

/-- Nothing but the postings changes. -/
theorem foldl_add_rest (records : List (CommitSeq × EdgeIdentity)) (index : AdjacencyIndex) :
  (records.foldl (add g) index).generation = index.generation ∧
    (records.foldl (add g) index).builtThrough = index.builtThrough ∧
      (records.foldl (add g) index).readCatalog = index.readCatalog
  := by
  induction records generalizing index with
  | nil => exact ⟨rfl, rfl, rfl⟩
  | cons record records ih => exact ih _

/-- A view tells by which commits its identities were stated. -/
structure Tells (view : IdentityView) : Prop where
  identities : view.edgeIdentities = view.edgeIdentityRecords.map Prod.snd
  le_through : ∀ record ∈ view.edgeIdentityRecords, record.1 ≤ view.through

theorem Tells.records_eq {view : IdentityView} (h : Tells view) :
  view.records = view.edgeIdentityRecords
  := by
  rw [records, h.identities]
  split
  case isTrue hnil => simp [hnil]
  case isFalse => rfl

/-- A delta of the same generation adds its identities. -/
theorem Shows.foldl_applyDelta {views : List IdentityView} (h : Shows g base events stated index)
    (hviews : ∀ view ∈ views, Tells view)
    (himmutable : Immutable (stated ++ views.flatMap records)) :
  Shows g base events (stated ++ views.flatMap records)
    (views.foldl (applyDelta g) index)
  := by
  induction views generalizing index stated with
  | nil => simpa using h
  | cons view views ih =>
    obtain ⟨hview, hviews⟩ := forall_mem_cons.mp hviews
    rw [flatMap_cons, ← append_assoc] at himmutable ⊢
    refine ih ?_ hviews himmutable
    have hall : (view.records.filter fun record => record.1 ≤ view.through) = view.records := by
      rw [hview.records_eq]
      exact filter_eq_self.mpr fun record hrecord => by simpa using hview.le_through _ hrecord
    refine ⟨?_, ?_, ?_, ?_⟩
    · rw [applyDelta, hall]
      exact postings_foldl_add h.postings (himmutable.mono (subset_append_left _ _))
    · exact (foldl_add_rest _ _).1
    · apply le_max_of_le_left
      rw [(foldl_add_rest _ _).2.1]
      exact h.base_le
    · intro key
      exact (congrFun (foldl_add_rest _ _).2.2 key).trans (h.readCatalog key)

theorem mem_keys_iff {vertex : VertexRef} {direction : ExpandDirection} :
  (vertex, direction, edgeType) ∈ keys identity ↔
    (direction = .out ∧ vertex = identity.sourceRef ∨
      direction = .into ∧ vertex = identity.targetRef) ∧
        ∀ type ∈ edgeType, identity.edgeType = type
  := by
  cases edgeType <;> cases direction <;> simp [keys, eq_comm]

/-- A search asks for the keys of the edges which meet the frontier. -/
theorem exists_key_iff {frontier : List VertexRef} {direction : ExpandDirection} :
  (∃ vertex ∈ frontier, ∃ way ∈ directions direction, (vertex, way, edgeType) ∈ keys identity) ↔
    Meets frontier direction identity ∧ ∀ type ∈ edgeType, identity.edgeType = type
  := by
  simp only [mem_keys_iff]
  cases direction with
  | out | into => simp [directions, Meets]
  | both =>
    simp [directions, Meets]
    aesop

/-- A posting has the identities whose first record is one through the snapshot.  For its own
snapshot the catalog has those of the build, unless it has none. -/
theorem Shows.mem_collect_iff {generation : Option UInt64} {delta : Option IdentityView}
    {key : AdjacencyKey} (h : Shows g base events (events ++ stated) index)
    (hgeneration : ∀ g' ∈ generation, g = g') (hevents : ∀ record ∈ events, record.1 ≤ base)
    (himmutable : Immutable events) :
  identity ∈ index.collect s generation delta key ↔
    key ∈ keys identity ∧ (∃ seq ≤ s, First (events ++ stated) (seq, identity)) ∧
      (delta = none → s = index.builtThrough →
        identity ∈ events.map Prod.snd ∨ ∀ record ∈ events, key ∉ keys record.2)
  := by
  rw [collect, h.readCatalog]
  split
  case isTrue hcatalog =>
    obtain ⟨hdelta, rfl, hkey⟩ := hcatalog
    simp only [Option.isNone_iff_eq_none.mp hdelta, mem_filter, decide_eq_true_eq, true_imp_iff]
    rw [and_comm]
    refine and_congr_right fun _ => ⟨fun hmem => ⟨?_, .inl hmem⟩, fun hall => ?_⟩
    · obtain ⟨record, hrecord, rfl⟩ := mem_map.mp hmem
      obtain ⟨seq, hfirst⟩ := exists_first himmutable hrecord
      refine ⟨seq, le_trans (hevents _ hfirst.mem) h.base_le, ?_⟩
      rw [First, find?_append, hfirst]
      rfl
    · obtain ⟨-, hmem | hnone⟩ := hall
      · exact hmem
      · refine absurd (filter_eq_nil_iff.mpr fun other hother => ?_) hkey
        obtain ⟨record, hrecord, rfl⟩ := mem_map.mp hother
        simpa using hnone record hrecord
  case isFalse hcatalog =>
    simp only [mem_map, mem_filter, decide_eq_true_eq]
    constructor
    · rintro ⟨⟨seq, g', identity⟩, ⟨hentry, hle, -⟩, rfl⟩
      obtain ⟨-, hkey, hfirst⟩ := (h.postings _ _ _ _).mp hentry
      refine ⟨hkey, ⟨seq, hle, hfirst⟩, fun hdelta hs => .inr ?_⟩
      intro record hrecord hmem
      apply hcatalog ⟨Option.isNone_iff_eq_none.mpr hdelta, hs, ne_nil_of_mem
        (mem_filter.mpr ⟨mem_map_of_mem hrecord, decide_eq_true hmem⟩)⟩
    · rintro ⟨hkey, ⟨seq, hle, hfirst⟩, -⟩
      exact ⟨_, ⟨(h.postings _ _ _ _).mpr ⟨rfl, hkey, hfirst⟩, hle, hgeneration⟩, rfl⟩

end Shows

/-- The identities of the facts of a build, and of deltas. -/
def stated (events : List FactEvent) (views : List IdentityView) :
    List (CommitSeq × EdgeIdentity) :=
  identities events ++ views.flatMap IdentityView.records

/-- The edges at a frontier which were stated through a snapshot. -/
def neighborhood (stated : List (CommitSeq × EdgeIdentity)) (frontier : List VertexRef)
    (direction : ExpandDirection) (edgeType : Option UInt64) (s : CommitSeq) : Set EdgeIdentity :=
  {identity | (∃ seq ≤ s, (seq, identity) ∈ stated) ∧ Meets frontier direction identity ∧
    ∀ type ∈ edgeType, identity.edgeType = type}

/-- A search in an index shows an edge: its own delta states it through the snapshot, or the first
record in the index is one through the snapshot, and for the snapshot which the index has reached
the build states it, or nothing with one of the keys. -/
def Reached (events : List FactEvent) (views : List IdentityView) (delta : Option IdentityView)
    (builtThrough : CommitSeq) (frontier : List VertexRef) (direction : ExpandDirection)
    (edgeType : Option UInt64) (s : CommitSeq) (identity : EdgeIdentity) : Prop :=
  (∃ seq ≤ s, (seq, identity) ∈ delta.toList.flatMap records) ∨
    (∃ seq ≤ s, First (stated events views) (seq, identity)) ∧
      (delta = none → s = builtThrough → identity ∈ (identities events).map Prod.snd ∨
        ∃ vertex ∈ frontier, ∃ way ∈ directions direction,
          (vertex, way, edgeType) ∈ keys identity ∧
            ∀ record ∈ identities events, (vertex, way, edgeType) ∉ keys record.2)

variable {events : List FactEvent} {base s : CommitSeq} {g : UInt64} {index built : AdjacencyIndex}
  {views : List IdentityView} {delta : Option IdentityView} {frontier : List VertexRef}
  {direction : ExpandDirection} {edgeType generation : Option UInt64} {result : List EdgeIdentity}

theorem Shows.mem_seek_iff
    (h : Shows g base (identities events) (stated events views) index)
    (hevents : ∀ record ∈ identities events, record.1 ≤ base)
    (himmutable : Immutable (identities events))
    (hseek : index.seek frontier direction edgeType s generation delta = .ok result) :
  result.Nodup ∧ ∀ identity, identity ∈ result ↔
    (Meets frontier direction identity ∧ ∀ type ∈ edgeType, identity.edgeType = type) ∧
      Reached events views delta index.builtThrough frontier direction edgeType s identity
  := by
  obtain ⟨-, hseek⟩ := StatusOr.guard_eq_ok_iff.mp hseek
  obtain ⟨hgeneration, hseek⟩ := StatusOr.guard_eq_ok_iff.mp hseek
  push Not at hgeneration
  rw [h.generation] at hgeneration
  obtain rfl := Except.ok.inj hseek
  refine ⟨nodup_dedup _, fun identity => ?_⟩
  rw [mem_dedup, mem_append, Reached, and_or_left, or_comm]
  simp only [mem_flatMap, h.mem_collect_iff hgeneration.2 hevents himmutable]
  refine or_congr ?_ ?_
  · simp only [mem_map, mem_filter, mem_flatMap, decide_eq_true_eq]
    constructor
    · rintro ⟨record, ⟨hmem, hle, hmeets⟩, rfl⟩
      exact ⟨hmeets, record.1, hle, hmem⟩
    · rintro ⟨hmeets, seq, hle, hmem⟩
      exact ⟨_, ⟨hmem, hle, hmeets⟩, rfl⟩
  · rw [← exists_key_iff]
    constructor
    · rintro ⟨vertex, hvertex, way, hway, hkey, hfirst, hcatalog⟩
      refine ⟨⟨vertex, hvertex, way, hway, hkey⟩, hfirst, fun hdelta hs => ?_⟩
      refine (hcatalog hdelta hs).imp_right fun hnone => ?_
      exact ⟨vertex, hvertex, way, hway, hkey, hnone⟩
    · rintro ⟨⟨vertex, hvertex, way, hway, hkey⟩, hfirst, hcatalog⟩
      by_cases hasked : delta = none ∧ s = index.builtThrough
      · obtain hbuilt | ⟨vertex, hvertex, way, hway, hkey, hnone⟩ := hcatalog hasked.1 hasked.2
        · exact ⟨vertex, hvertex, way, hway, hkey, hfirst, fun _ _ => .inl hbuilt⟩
        · exact ⟨vertex, hvertex, way, hway, hkey, hfirst, fun _ _ => .inr hnone⟩
      · refine ⟨vertex, hvertex, way, hway, hkey, hfirst, fun hdelta hs => ?_⟩
        exact absurd ⟨hdelta, hs⟩ hasked

/-- A search finds each edge once, and only edges at the frontier which were stated through the
snapshot.  It finds all of them if and only if it reaches all of them. -/
theorem seek_complete_iff (hbuilt : build events base g = .ok built)
    (hevents : ∀ record ∈ identities events, record.1 ≤ base)
    (hviews : ∀ view ∈ views, Tells view) (himmutable : Immutable (stated events views))
    (hseek : (views.foldl (applyDelta g) built).seek frontier direction edgeType s generation
      delta = .ok result) :
  result.Nodup ∧
  (∀ identity ∈ result, identity ∈ neighborhood (stated events (views ++ delta.toList)) frontier
    direction edgeType s) ∧
  ((∀ identity ∈ neighborhood (stated events (views ++ delta.toList)) frontier direction edgeType s,
      identity ∈ result) ↔
    ∀ identity ∈ neighborhood (stated events (views ++ delta.toList)) frontier direction edgeType s,
      Reached events views delta (views.foldl (applyDelta g) built).builtThrough frontier direction
        edgeType s identity)
  := by
  obtain ⟨_, -, hbuilt⟩ := StatusOr.bind_eq_ok_iff.mp hbuilt
  have hbefore : Immutable (identities events) := himmutable.mono (subset_append_left _ _)
  have hstart : Shows g base (identities events) (identities events) built := by
    rw [← Except.ok.inj hbuilt]
    refine ⟨?_, (foldl_add_rest _ _).1, le_refl _, fun _ => rfl⟩
    refine @postings_foldl_add g [] { generation := g } (identities events) ?_ hbefore
    simp [First]
  obtain ⟨hnodup, hmem⟩ :=
    (hstart.foldl_applyDelta hviews himmutable).mem_seek_iff hevents hbefore hseek
  refine ⟨hnodup, fun identity hresult => ?_, forall_congr' fun identity => ?_⟩
  · obtain ⟨hmatches, ⟨seq, hle, hdelta⟩ | ⟨⟨seq, hle, hfirst⟩, -⟩⟩ := (hmem identity).mp hresult
    · refine ⟨⟨seq, hle, ?_⟩, hmatches⟩
      rw [stated, flatMap_append]
      exact mem_append_right _ (mem_append_right _ hdelta)
    · refine ⟨⟨seq, hle, ?_⟩, hmatches⟩
      rw [stated, flatMap_append, ← append_assoc]
      exact mem_append_left _ hfirst.mem
  · refine imp_congr_right fun hasked => ?_
    rw [hmem, and_iff_right hasked.2]

/-- The edge from one vertex to another. -/
def arrow (edge source target : UInt64) : EdgeIdentity := ⟨edge, source, target, 5, 0, 0, 0⟩

/-- A fact which states the edge from the first to the second vertex. -/
def firstArrow (seq : CommitSeq) : FactEvent :=
  ⟨⟨0, .edgeIdentity, 0, 7⟩, 0, seq, .put, 0, none, some (arrow 7 1 2)⟩

/-- The view of a commit which states an edge from another vertex. -/
def laterArrow (source : UInt64) : IdentityView :=
  ⟨1, 2, [arrow 8 source 3], [(2, arrow 8 source 3)]⟩

/-- An edge of a delta is found at a vertex about which the build states nothing. -/
theorem laterArrow_found :
  ∃ built, build [firstArrow 1] 1 0 = .ok built ∧ ∃ result,
    ([laterArrow 4].foldl (applyDelta 0) built).seek [⟨0, 4⟩] .out none 2 none none = .ok result ∧
      arrow 8 4 3 ∈ result
  := by
  have htells : ∀ view ∈ [laterArrow 4], Tells view := by
    intro view hview
    rw [mem_singleton.mp hview]
    exact ⟨rfl, by simp [laterArrow]⟩
  refine ⟨_, rfl, _, rfl, ?_⟩
  have himmutable : Immutable (stated [firstArrow 1] [laterArrow 4]) := by
    unfold Immutable
    decide +kernel
  refine (@seek_complete_iff [firstArrow 1] 1 2 0 _ [laterArrow 4] none [⟨0, 4⟩] .out none none _
    rfl (by decide +kernel) htells himmutable rfl).2.2.mpr ?_ _ ?_
  · rintro identity ⟨⟨seq, -, hmem⟩, hmeets, -⟩
    have hstated : (seq, identity) ∈ [(1, arrow 7 1 2), (2, arrow 8 4 3)] := hmem
    simp only [mem_cons, Prod.mk.injEq, not_mem_nil, or_false] at hstated
    rcases hstated with ⟨rfl, rfl⟩ | ⟨rfl, rfl⟩
    · exact absurd hmeets (by decide)
    · refine .inr ⟨⟨2, le_refl _, rfl⟩, fun _ _ => .inr ?_⟩
      exact ⟨⟨0, 4⟩, by decide, .out, by decide, by decide, by decide +kernel⟩
  · exact ⟨⟨2, le_refl _, by decide +kernel⟩, by decide, by simp⟩

/-- The catalog misses the edge of a delta, and a posting one which was stated again before. -/
theorem seek_misses :
  (build [firstArrow 1] 1 0).map (fun built =>
    ([laterArrow 1].foldl (applyDelta 0) built).seek [⟨0, 1⟩] .out none 2 none none) =
      .ok (.ok [arrow 7 1 2]) ∧
  (build [firstArrow 3, firstArrow 1] 3 0).map (fun built =>
    built.seek [⟨0, 1⟩] .out none 2 none none) = .ok (.ok [])
  := by decide +kernel

end AdjacencyIndex

end Cedar
