import CedarGraph.Lib.Layering
import CedarGraph.Runtime.TemporalGraph

/-!
# Expansion over several hops

An expansion over several hops goes by layers.  A label of a layer carries the instants at which its
path is present as a whole, and the next layer expands it within them.  The instants at which a
vertex was reached in a layer are kept, so that other paths to it add only what is new.

A vertex which was reached in one layer is left out of the later ones.  The main result is when the
labels nevertheless show at every instant the vertices to which there is a path.
-/

namespace Cedar

open List Or TemporalGraph Nat

/-- A vertex which an expansion has reached, with the edges of the path to it. -/
structure GraphLabel where
  vertex : VertexRef
  depth : Nat := 0
  predecessor : Option VertexRef := none
  effective : Option ValidTimeInterval := none
  trailEdges : List EdgeRef := []
  deriving DecidableEq

structure KHopOptions where
  maxHops : Nat := 1
  /-- No path follows an edge twice. -/
  trail : Bool := false

structure KHopResult where
  traversals : List TemporalTraversal := []
  labels : List GraphLabel := []
  deriving DecidableEq

/-- The state of an expansion. -/
structure KHopState where
  /-- The layer of a vertex, and the instants at which it was reached. -/
  visited : VertexRef → Option (Nat × List ValidTimeInterval)
  result : KHopResult
  /-- The labels of the next layer. -/
  next : List GraphLabel

namespace KHop

/-- The end of an interval.  One without an end is taken to end at the last instant. -/
def intervalEnd (interval : ValidTimeInterval) : ValidTime :=
  interval.stop.getD (-1)

/-- The parts of a piece before and after a cover. -/
def uncoveredBy (cover piece : ValidTimeInterval) : List ValidTimeInterval :=
  match intersect piece cover with
  | none => [piece]
  | some overlap =>
      (if piece.start < overlap.start then [⟨piece.start, some overlap.start⟩] else []) ++
        if intervalEnd overlap < intervalEnd piece then [⟨intervalEnd overlap, piece.stop⟩] else []

/-- The parts of an interval which are not covered. -/
def subtractCovered (current : ValidTimeInterval) (covers : List ValidTimeInterval) :
    List ValidTimeInterval :=
  covers.foldl (fun pieces cover => pieces.flatMap (uncoveredBy cover)) [current]

/-- The intervals from the last one on, each merged into the one before if it starts no later than
that one ends. -/
def mergeFrom (last : ValidTimeInterval) : List ValidTimeInterval → List ValidTimeInterval
  | [] => [last]
  | interval :: rest =>
      if interval.start > intervalEnd last then
        last :: mergeFrom interval rest
      -- of two intervals of which one has no end, the later one decides
      else if last.stop = none ∨ interval.stop = none ∨ intervalEnd interval > intervalEnd last then
        mergeFrom ⟨last.start, interval.stop⟩ rest
      else
        mergeFrom last rest

/-- The intervals with another one, merged by their starts. -/
def mergeInterval (sorter : Sorter (Span.start : ValidTimeInterval → ValidTime))
    (intervals : List ValidTimeInterval) (added : ValidTimeInterval) : List ValidTimeInterval :=
  match sorter.sort (intervals ++ [added]) with
  | [] => []
  | first :: rest => mergeFrom first rest

/-- The ends at which a traversal arrives from a vertex, and those which it leaves. -/
def moves (direction : ExpandDirection) (vertex : VertexRef) (traversal : TemporalTraversal) :
    List (VertexRef × VertexRef) :=
  let out :=
    if direction ≠ .into ∧ traversal.source = vertex then
      [(traversal.target, traversal.source)]
    else []
  let into :=
    if direction ≠ .out ∧ traversal.target = vertex ∧
        ∀ move ∈ out, move.1 ≠ traversal.source then
      [(traversal.source, traversal.target)]
    else []
  out ++ into

/-- The instants at which a traversal reaches a vertex anew. -/
def newPieces (depth : Nat) (effective : ValidTimeInterval) :
    Option (Nat × List ValidTimeInterval) → List ValidTimeInterval
  | none => [effective]
  | some (found, cover) =>
      if found < depth then []
      else if found = depth then subtractCovered effective cover
      else []

section Expand

variable (sorter : Sorter TemporalTraversal.sortKey)
  (sorter' : Sorter (Span.start : ValidTimeInterval → ValidTime))
  (graph : TemporalGraph) (request : GraphExpansionRequest) (options : KHopOptions)

/-- Follows a traversal from a label, with the end at which it arrives and the one it leaves. -/
def visit (depth : Nat) (prior : GraphLabel) (state : KHopState)
    (move : TemporalTraversal × VertexRef × VertexRef) : KHopState :=
  let (traversal, destination, predecessor) := move
  let found := state.visited destination
  let pieces := newPieces depth traversal.effective found
  if pieces = [] then
    state
  else
    let labels := pieces.map fun piece =>
      (⟨destination, depth, some predecessor, some piece, prior.trailEdges ++ [traversal.edge]⟩ :
        GraphLabel)
    { visited := Function.update state.visited destination
        (some ((found.map Prod.fst).getD depth,
          mergeInterval sorter' ((found.map Prod.snd).getD []) traversal.effective))
      result :=
        { traversals := state.result.traversals ++
            pieces.map fun piece => { traversal with effective := piece }
          labels := state.result.labels ++ labels }
      next := state.next ++ labels }

/-- The edges of the vertex of a label, within its interval. -/
def layerRequest (prior : GraphLabel) : GraphExpansionRequest :=
  { request with
    frontier := [prior.vertex]
    interval := prior.effective.getD request.interval }

/-- The moves along the traversals from a label. -/
def labelMoves (prior : GraphLabel) (rows : List TemporalTraversal) :
    List (TemporalTraversal × VertexRef × VertexRef) :=
  (rows.filter fun traversal => ¬ (options.trail ∧ traversal.edge ∈ prior.trailEdges)).flatMap
    fun traversal => (moves request.direction prior.vertex traversal).map (traversal, ·)

/-- Expands a label. -/
def expandLabel (depth : Nat) (state : KHopState) (prior : GraphLabel) : StatusOr KHopState := do
  let rows ← graph.expandTemporal sorter (layerRequest request prior)
  return (labelMoves request options prior rows).foldl (visit sorter' depth prior) state

/-- Expands the layers after a frontier, at most so many. -/
def expandLayers : (hops depth : Nat) → (frontier : List GraphLabel) → KHopState →
    StatusOr KHopState
  | 0, _, _, state => .ok state
  | hops + 1, depth, frontier, state =>
      if frontier = [] then
        .ok state
      else do
        let state ← frontier.foldlM (expandLabel sorter sorter' graph request options depth)
          { state with next := [] }
        expandLayers hops (depth + 1) state.next state

/-- The labels of the frontier. -/
def initialLabels : List GraphLabel :=
  request.frontier.map fun vertex => { vertex := vertex, effective := some request.interval }

/-- The state before the first layer: the frontier is visited. -/
def initialState : KHopState where
  visited vertex := if vertex ∈ request.frontier then some (0, []) else none
  result := {}
  next := []

end Expand

end KHop

/-- The labels of the vertices which are reached from the frontier. -/
def TemporalGraph.kHopExpand (sorter : Sorter TemporalTraversal.sortKey)
    (sorter' : Sorter (Span.start : ValidTimeInterval → ValidTime)) (graph : TemporalGraph)
    (request : GraphExpansionRequest) (options : KHopOptions) : StatusOr KHopResult :=
  if options.maxHops = 0 then
    .ok {}
  else do
    let state ← KHop.expandLayers sorter sorter' graph request options options.maxHops 1
      (KHop.initialLabels request) (KHop.initialState request)
    return state.result

namespace KHop

/-! ### Intervals which are covered -/

/-- The end of the interval is not mistaken for another one.  Either all intervals have ends, or
none of them is bounded by the last instant. -/
def Regular (bounded : Bool) (interval : ValidTimeInterval) : Prop :=
  if bounded then interval.stop ≠ none else interval.start ≠ -1 ∧ interval.stop ≠ some (-1)

section Regular

variable {bounded : Bool} {interval left right common piece cover last : ValidTimeInterval}
  {pieces covers : List ValidTimeInterval} {t : ValidTime}

/-- An intersection of regular intervals is regular. -/
theorem Regular.intersect (hleft : Regular bounded left)
    (hright : bounded = false → Regular false right) (h : intersect left right = some common) :
  Regular bounded common
  := by
  obtain rfl := intersect_eq h
  cases bounded with
  | true =>
    rw [Regular, if_pos rfl] at hleft ⊢
    intro hnone
    apply hleft (earlierEnd_eq_none hnone)
  | false =>
    specialize hright rfl
    rw [Regular, if_neg Bool.false_ne_true] at hleft hright ⊢
    constructor
    · rw [laterStart]
      split
      · apply hright.1
      · apply hleft.1
    · rcases earlierEnd_eq_or left.stop right.stop with heq | heq
      · rw [heq]
        apply hleft.2
      · rw [heq]
        apply hright.2

/-- An interval whose stop is present ends there. -/
theorem intervalEnd_of_stop {stop : ValidTime} (h : interval.stop = some stop) :
  intervalEnd interval = stop
  := by
  rw [intervalEnd, h, Option.getD_some]

/-- An end which is followed by another one is a stop. -/
theorem stop_of_intervalEnd_lt (h : intervalEnd left < intervalEnd right) :
  left.stop = some (intervalEnd left)
  := by
  rcases hstop : left.stop with - | stop
  · rw [intervalEnd, hstop] at h
    cases not_lt_of_ge (Word.le_neg_one _) h
  · rw [intervalEnd_of_stop hstop]

/-- What is left of a piece is before or after its overlap with the cover. -/
theorem mem_uncoveredBy_iff {overlap rest : ValidTimeInterval}
    (h : Cedar.intersect piece cover = some overlap) :
  rest ∈ uncoveredBy cover piece ↔
    piece.start < overlap.start ∧ rest = ⟨piece.start, some overlap.start⟩ ∨
      intervalEnd overlap < intervalEnd piece ∧ rest = ⟨intervalEnd overlap, piece.stop⟩
  := by
  rw [uncoveredBy, h]
  simp only [mem_append, mem_ite_nil_right, mem_singleton]

/-- A piece without a cover has the instants of the piece which the cover does not have. -/
theorem exists_mem_uncoveredBy_iff (hpiece : Regular bounded piece)
    (hcover : Regular bounded cover) :
  (∃ rest ∈ uncoveredBy cover piece, rest.Contains t) ↔ piece.Contains t ∧ ¬ cover.Contains t
  := by
  rcases hoverlap : Cedar.intersect piece cover with - | overlap
  · rw [uncoveredBy, hoverlap]
    have hdisjoint := @not_contains_of_intersect _ _ t hoverlap
    simp only [mem_singleton, exists_eq_left]
    tauto
  have hcontains := @contains_of_intersect _ _ _ t hoverlap
  have hstart := (contains_of_intersect hoverlap).mp (valid_of_intersect hoverlap).contains_start
  have hregular := hpiece.intersect (fun h => h ▸ hcover) hoverlap
  simp only [mem_uncoveredBy_iff hoverlap]
  constructor
  · rintro ⟨_, ⟨hlt, rfl⟩ | ⟨hlt, rfl⟩, ht⟩
    · -- before the cover
      have hbefore : t < overlap.start := ht.2 _ rfl
      have hin : piece.Contains t := hstart.1.of_le ht.1 (le_of_lt hbefore)
      use hin
      intro hcovered
      apply not_le_of_gt hbefore (hcontains.mpr ⟨hin, hcovered⟩).1
    · -- after the cover
      have hstop := stop_of_intervalEnd_lt hlt
      have hafter : overlap.start < intervalEnd overlap :=
        valid_of_intersect hoverlap _ hstop
      have hin : piece.Contains t :=
        ⟨le_trans hstart.1.1 (le_trans (le_of_lt hafter) ht.1), ht.2⟩
      use hin
      intro hcovered
      apply not_lt_of_ge ht.1 ((hcontains.mpr ⟨hin, hcovered⟩).2 _ hstop)
  · rintro ⟨hin, hfree⟩
    rcases lt_or_ge t overlap.start with hbefore | hafter
    · use ⟨piece.start, some overlap.start⟩
      use inl ⟨lt_of_le_of_lt hin.1 hbefore, rfl⟩, hin.1
      rintro _ ⟨⟩
      apply hbefore
    · obtain ⟨stop, hstop, hle⟩ :=
        Span.exists_stop_le (fun ht => hfree (hcontains.mp ht).2) hafter
      have hend : intervalEnd overlap < intervalEnd piece := by
        rw [intervalEnd_of_stop hstop]
        rcases hpstop : piece.stop with - | pstop
        · -- the piece has no end, and no interval ends at the last instant
          cases bounded with
          | true => cases hpiece hpstop
          | false =>
            rw [intervalEnd, hpstop]
            apply lt_of_le_of_ne (Word.le_neg_one stop)
            rintro rfl
            apply hregular.2 hstop
        · rw [intervalEnd_of_stop hpstop]
          apply lt_of_le_of_lt hle (hin.2 _ hpstop)
      use ⟨intervalEnd overlap, piece.stop⟩
      use inr ⟨hend, rfl⟩, ?_, hin.2
      rw [intervalEnd_of_stop hstop]
      apply hle

/-- What is left of a regular piece is regular and not empty. -/
theorem regular_of_mem_uncoveredBy (hpiece : Regular bounded piece)
    (hcover : Regular bounded cover) (hvalid : piece.Valid) {rest : ValidTimeInterval}
    (hrest : rest ∈ uncoveredBy cover piece) :
  Regular bounded rest ∧ rest.Valid
  := by
  rcases hoverlap : Cedar.intersect piece cover with - | overlap
  · rw [uncoveredBy, hoverlap] at hrest
    rw [mem_singleton.mp hrest]
    use hpiece
  have hregular := hpiece.intersect (fun h => h ▸ hcover) hoverlap
  obtain ⟨hlt, rfl⟩ | ⟨hlt, rfl⟩ := (mem_uncoveredBy_iff hoverlap).mp hrest
  · constructor
    · cases bounded with
      | true => rintro ⟨⟩
      | false =>
        use hpiece.1
        intro heq
        apply hregular.1 (Option.some.inj heq)
    · rintro _ ⟨⟩
      apply hlt
  · have hstop := stop_of_intervalEnd_lt hlt
    constructor
    · cases bounded with
      | true => apply hpiece
      | false =>
        refine ⟨?_, hpiece.2⟩
        intro heq
        apply hregular.2 (hstop.trans (congrArg some heq))
    · intro stop hpstop
      rw [@intervalEnd_of_stop piece stop hpstop] at hlt
      apply hlt

/-- What is left of an interval has the instants which are not covered. -/
theorem exists_mem_foldl_uncoveredBy_iff (hpieces : ∀ piece ∈ pieces, Regular bounded piece ∧
      piece.Valid) (hcovers : ∀ cover ∈ covers, Regular bounded cover) :
  ((∃ rest ∈ covers.foldl (fun pieces cover => pieces.flatMap (uncoveredBy cover)) pieces,
      rest.Contains t) ↔
    (∃ piece ∈ pieces, piece.Contains t) ∧ ∀ cover ∈ covers, ¬ cover.Contains t) ∧
  ∀ rest ∈ covers.foldl (fun pieces cover => pieces.flatMap (uncoveredBy cover)) pieces,
    Regular bounded rest ∧ rest.Valid
  := by
  induction covers generalizing pieces with
  | nil =>
    use by simp
    apply hpieces
  | cons cover covers ih =>
    obtain ⟨hcover, hcovers⟩ := forall_mem_cons.mp hcovers
    have hleft : ∀ rest ∈ pieces.flatMap (uncoveredBy cover), Regular bounded rest ∧ rest.Valid := by
      intro rest hrest
      obtain ⟨piece, hpiece, hrest⟩ := mem_flatMap.mp hrest
      apply regular_of_mem_uncoveredBy (hpieces piece hpiece).1 hcover (hpieces piece hpiece).2 hrest
    have hinstants : (∃ rest ∈ pieces.flatMap (uncoveredBy cover), rest.Contains t) ↔
        (∃ piece ∈ pieces, piece.Contains t) ∧ ¬ cover.Contains t := by
      simp only [mem_flatMap]
      constructor
      · rintro ⟨rest, ⟨piece, hpiece, hrest⟩, ht⟩
        obtain ⟨hin, hfree⟩ :=
          (exists_mem_uncoveredBy_iff (hpieces piece hpiece).1 hcover).mp ⟨rest, hrest, ht⟩
        use ⟨piece, hpiece, hin⟩
      · rintro ⟨⟨piece, hpiece, hin⟩, hfree⟩
        obtain ⟨rest, hrest, ht⟩ :=
          (exists_mem_uncoveredBy_iff (hpieces piece hpiece).1 hcover).mpr ⟨hin, hfree⟩
        use rest, ⟨piece, hpiece, hrest⟩
    obtain ⟨hiff, hregular⟩ := ih hleft hcovers
    rw [foldl_cons]
    refine ⟨?_, hregular⟩
    rw [hiff, hinstants, forall_mem_cons, and_assoc]

/-- The parts of an interval which are not covered have the instants which no cover has. -/
theorem subtractCovered_exact (hregular : Regular bounded interval) (hvalid : interval.Valid)
    (hcovers : ∀ cover ∈ covers, Regular bounded cover) :
  (∀ rest ∈ subtractCovered interval covers, Regular bounded rest ∧ rest.Valid) ∧
    ∀ t, (∃ rest ∈ subtractCovered interval covers, rest.Contains t) ↔
      interval.Contains t ∧ ∀ cover ∈ covers, ¬ cover.Contains t
  := by
  have hleft (t : ValidTime) := @exists_mem_foldl_uncoveredBy_iff bounded [interval] covers t
    (forall_mem_singleton.mpr ⟨hregular, hvalid⟩) hcovers
  simp only [mem_singleton, exists_eq_left] at hleft
  use (hleft 0).2
  intro t
  apply (hleft t).1

/-- A merged interval consists of instants of the intervals, and its bounds are theirs. -/
theorem of_mem_mergeFrom {rest : List ValidTimeInterval}
    (hregular : ∀ interval ∈ last :: rest, Regular bounded interval)
    (h : piece ∈ mergeFrom last rest) :
  Regular bounded piece ∧ ∀ t, piece.Contains t → ∃ interval ∈ last :: rest, interval.Contains t
  := by
  induction rest generalizing last with
  | nil =>
    obtain rfl := mem_singleton.mp h
    use hregular piece mem_cons_self
    intro t ht
    use piece, mem_cons_self
  | cons interval rest ih =>
    obtain ⟨hlast, hregular⟩ := forall_mem_cons.mp hregular
    obtain ⟨hinterval, hrest⟩ := forall_mem_cons.mp hregular
    simp only [exists_mem_cons_iff] at ih ⊢
    rw [mergeFrom] at h
    split at h
    · rcases mem_cons.mp h with rfl | h
      · use hlast
        intro t
        apply inl
      · obtain ⟨hpiece, hcontains⟩ := ih hregular h
        use hpiece
        intro t ht
        apply inr (hcontains t ht)
    case isFalse hnear =>
      split at h
      · have hmerged : Regular bounded ⟨last.start, interval.stop⟩ := by
          cases bounded with
          | true => apply hinterval
          | false => exact ⟨hlast.1, hinterval.2⟩
        obtain ⟨hpiece, hcontains⟩ := ih (forall_mem_cons.mpr ⟨hmerged, hrest⟩) h
        use hpiece
        intro t ht
        rcases hcontains t ht with ht | ht
        · -- an instant after the last interval is in the one which touches it
          by_cases hin : last.Contains t
          · apply inl hin
          · refine inr (inl ⟨?_, ht.2⟩)
            obtain ⟨stop, hstop, hle⟩ := Span.exists_stop_le hin ht.1
            rw [intervalEnd_of_stop hstop] at hnear
            apply le_trans (not_lt.mp hnear) hle
        · apply inr (inr ht)
      · obtain ⟨hpiece, hcontains⟩ := ih (forall_mem_cons.mpr ⟨hlast, hrest⟩) h
        use hpiece
        intro t ht
        apply (hcontains t ht).imp_right inr

/-- The merged intervals have no instants but those of the intervals and of the added one. -/
theorem of_mem_mergeInterval (sorter : Sorter (Span.start : ValidTimeInterval → ValidTime))
    (hpieces : ∀ piece ∈ pieces, Regular bounded piece) (hinterval : Regular bounded interval)
    (h : piece ∈ mergeInterval sorter pieces interval) :
  Regular bounded piece ∧
    ∀ t, piece.Contains t → interval.Contains t ∨ ∃ piece ∈ pieces, piece.Contains t
  := by
  rw [mergeInterval] at h
  split at h
  · cases h
  case h_2 first rest hsort =>
    have hmem : ∀ other, other ∈ first :: rest ↔ other ∈ pieces ∨ other = interval := by
      intro other
      rw [← hsort, (sorter.perm _).mem_iff, mem_append, mem_singleton]
    have hregular : ∀ other ∈ first :: rest, Regular bounded other := by
      intro other hother
      rcases (hmem other).mp hother with hother | rfl
      · apply hpieces other hother
      · apply hinterval
    obtain ⟨hpiece, hcontains⟩ := of_mem_mergeFrom hregular h
    use hpiece
    intro t ht
    obtain ⟨other, hother, ht⟩ := hcontains t ht
    rcases (hmem other).mp hother with hother | rfl
    · apply inr ⟨other, hother, ht⟩
    · apply inl ht

end Regular

/-! ### The moves of a layer -/

/-- A label of the vertex carries the instant. -/
def Shows (labels : List GraphLabel) (v : VertexRef) (t : ValidTime) : Prop :=
  ∃ label ∈ labels, label.vertex = v ∧ ∃ interval ∈ label.effective, interval.Contains t

instance (labels : List GraphLabel) (v : VertexRef) (t : ValidTime) :
    Decidable (Shows labels v t) :=
  inferInstanceAs (Decidable (∃ label ∈ labels, label.vertex = v ∧
    ∃ interval ∈ label.effective, interval.Contains t))

theorem shows_append {labels labels' : List GraphLabel} {v : VertexRef} {t : ValidTime} :
  Shows (labels ++ labels') v t ↔ Shows labels v t ∨ Shows labels' v t
  := by
  simp only [Shows, mem_append, or_and_right, exists_or]

/-- The state while a layer is expanded, of which some vertices were offered at some instants.  A
vertex of an earlier layer stays as it is.  Any other one is visited if it was offered, and the
labels of the next layer carry the instants at which it was. -/
structure Offered (before : VertexRef → Option (Nat × List ValidTimeInterval))
    (emitted : List GraphLabel) (depth : Nat) (bounded : Bool)
    (offered : VertexRef → ValidTime → Prop) (state : KHopState) : Prop where
  old : ∀ v entry, before v = some entry → state.visited v = some entry
  new : ∀ v, before v = none →
    state.visited v = none ∧ (∀ t, ¬ offered v t) ∨
      ∃ cover, state.visited v = some (depth, cover) ∧ (∃ t, offered v t) ∧
        ∀ interval ∈ cover, Regular bounded interval ∧ ∀ t, interval.Contains t → offered v t
  shows_iff : ∀ v t, Shows state.next v t ↔ before v = none ∧ offered v t
  labels : state.result.labels = emitted ++ state.next
  regular : ∀ label ∈ state.next, ∃ interval, label.effective = some interval ∧
    Regular bounded interval ∧ interval.Valid
  depths : ∀ label ∈ state.next, label.depth = depth

section Visit

variable {sorter' : Sorter (Span.start : ValidTimeInterval → ValidTime)}
  {before : VertexRef → Option (Nat × List ValidTimeInterval)} {emitted : List GraphLabel}
  {depth : Nat} {bounded : Bool} {offered : VertexRef → ValidTime → Prop} {state : KHopState}
  {prior : GraphLabel} {move : TemporalTraversal × VertexRef × VertexRef}

/-- The labels which a move adds are of its end, and they carry the pieces. -/
theorem shows_map_iff {destination predecessor : VertexRef} {edges : List EdgeRef}
    {pieces : List ValidTimeInterval} {v : VertexRef} {t : ValidTime} :
  Shows (pieces.map fun piece => ⟨destination, depth, some predecessor, some piece, edges⟩) v t ↔
    v = destination ∧ ∃ piece ∈ pieces, piece.Contains t
  := by
  simp [Shows, eq_comm]
  tauto

/-- A vertex which was not reached before the layer has a cover, of instants at which it was
offered, and a move to it adds the pieces which are not covered. -/
theorem Offered.exists_cover (h : Offered before emitted depth bounded offered state) {v : VertexRef}
    (hnew : before v = none) (effective : ValidTimeInterval) :
  ∃ cover, newPieces depth effective (state.visited v) = subtractCovered effective cover ∧
    (((state.visited v).map Prod.fst).getD depth, ((state.visited v).map Prod.snd).getD []) =
      (depth, cover) ∧
    ∀ interval ∈ cover, Regular bounded interval ∧ ∀ t, interval.Contains t → offered v t
  := by
  rcases h.new v hnew with ⟨hfound, -⟩ | ⟨cover, hfound, -, hcover⟩
  · use []
    rw [hfound]
    use rfl, rfl
    apply forall_mem_nil
  · use cover
    rw [hfound, newPieces, if_neg (lt_irrefl _), if_pos rfl]
    use rfl, rfl

variable (sorter') (prior) in
/-- A move offers its end at the instants of its traversal. -/
theorem Offered.visit (h : Offered before emitted depth bounded offered state)
    (hbefore : ∀ v entry, before v = some entry → entry.1 < depth)
    (hregular : Regular bounded move.1.effective) (hvalid : move.1.effective.Valid) :
  Offered before emitted depth bounded
    (fun v t => offered v t ∨ v = move.2.1 ∧ move.1.effective.Contains t)
    (visit sorter' depth prior state move)
  := by
  obtain ⟨traversal, destination, predecessor⟩ := move
  have hother : ∀ v, v ≠ destination → ∀ t,
      (offered v t ∨ v = destination ∧ traversal.effective.Contains t ↔ offered v t) := by
    intro v hv t
    simp [hv]
  rcases hold : before destination with - | entry
  swap
  · -- the end belongs to an earlier layer
    rw [visit]
    rw [h.old _ _ hold, newPieces, if_pos (hbefore _ _ hold), if_pos rfl]
    have hne : ∀ v, before v = none → v ≠ destination := by
      rintro v hv rfl
      cases hv.symm.trans hold
    refine ⟨h.old, ?_, ?_, h.labels, h.regular, h.depths⟩
    · intro v hv
      simp only [hother v (hne v hv)]
      apply h.new v hv
    · intro v t
      rw [h.shows_iff]
      apply and_congr_right
      intro hv
      apply (hother v (hne v hv) t).symm
  obtain ⟨cover, hpieces, hentry, hcover⟩ := h.exists_cover hold traversal.effective
  have hends := fun interval hinterval => (hcover interval hinterval).1
  obtain ⟨hparts, hinstants⟩ := subtractCovered_exact hregular hvalid hends
  -- an instant of the traversal which is not in the pieces was offered before
  have hcovered : ∀ t, traversal.effective.Contains t →
      (∃ piece ∈ subtractCovered traversal.effective cover, piece.Contains t) ∨
        offered destination t := by
    intro t ht
    by_cases hfree : ∀ interval ∈ cover, ¬ interval.Contains t
    · apply inl ((hinstants t).mpr ⟨ht, hfree⟩)
    · push Not at hfree
      obtain ⟨interval, hinterval, ht⟩ := hfree
      apply inr ((hcover interval hinterval).2 t ht)
  rw [KHop.visit]
  dsimp only
  rw [hpieces]
  obtain ⟨hdepth, hcovers⟩ := Prod.mk.inj hentry
  rw [hdepth, hcovers]
  split
  case isTrue hnil =>
    convert h using 1
    funext v t
    rw [eq_iff_iff, or_iff_left_iff_imp]
    rintro ⟨rfl, ht⟩
    rcases hcovered t ht with ⟨piece, hpiece, -⟩ | ht
    · rw [hnil] at hpiece
      cases hpiece
    · apply ht
  case isFalse hsome =>
    constructor
    · intro v entry hv
      have hne : v ≠ destination := fun heq => by simp [heq, hold] at hv
      apply (Function.update_of_ne hne ..).trans (h.old v entry hv)
    · intro v hv
      rcases eq_or_ne v destination with rfl | hne
      · refine inr ⟨_, Function.update_self .., ?_, ?_⟩
        · use traversal.effective.start
          apply inr ⟨rfl, hvalid.contains_start⟩
        · intro interval hinterval
          obtain ⟨hreg, hcontains⟩ := of_mem_mergeInterval sorter' hends hregular hinterval
          use hreg
          intro t ht
          rcases hcontains t ht with ht | ⟨piece, hpiece, ht⟩
          · apply inr ⟨rfl, ht⟩
          · apply inl ((hcover piece hpiece).2 t ht)
      · simp only [Function.update_of_ne hne, hother v hne]
        apply h.new v hv
    · intro v t
      rw [shows_append, shows_map_iff, h.shows_iff]
      constructor
      · rintro (⟨hv, ht⟩ | ⟨rfl, hpiece⟩)
        · use hv
          apply inl ht
        · use hold
          apply inr ⟨rfl, ((hinstants t).mp hpiece).1⟩
      · rintro ⟨hv, ht | ⟨rfl, ht⟩⟩
        · apply inl ⟨hv, ht⟩
        · rcases hcovered t ht with hpiece | ht
          · apply inr ⟨rfl, hpiece⟩
          · apply inl ⟨hv, ht⟩
    · rw [h.labels, append_assoc]
    · intro label hlabel
      rcases mem_append.mp hlabel with hlabel | hlabel
      · apply h.regular label hlabel
      · obtain ⟨piece, hpiece, rfl⟩ := mem_map.mp hlabel
        use piece, rfl
        apply hparts piece hpiece
    · intro label hlabel
      rcases mem_append.mp hlabel with hlabel | hlabel
      · apply h.depths label hlabel
      · obtain ⟨piece, -, rfl⟩ := mem_map.mp hlabel
        rfl

variable (sorter') (prior) in
/-- Moves offer their ends at the instants of their traversals. -/
theorem Offered.foldl {moves : List (TemporalTraversal × VertexRef × VertexRef)}
    (h : Offered before emitted depth bounded offered state)
    (hbefore : ∀ v entry, before v = some entry → entry.1 < depth)
    (hmoves : ∀ move ∈ moves, Regular bounded move.1.effective ∧ move.1.effective.Valid) :
  Offered before emitted depth bounded
    (fun v t => offered v t ∨ ∃ move ∈ moves, v = move.2.1 ∧ move.1.effective.Contains t)
    (moves.foldl (KHop.visit sorter' depth prior) state)
  := by
  induction moves generalizing offered state with
  | nil => simpa using h
  | cons move moves ih =>
    obtain ⟨hmove, hmoves⟩ := forall_mem_cons.mp hmoves
    have hrest := ih (h.visit sorter' prior hbefore hmove.1 hmove.2) hmoves
    simpa only [foldl_cons, exists_mem_cons_iff, or_assoc] using hrest

end Visit

end KHop

/-- The label is of a layer after the first one, at some instant. -/
def GraphLabel.Found (label : GraphLabel) : Prop :=
  label.depth ≠ 0 ∧ ∃ interval, label.effective = some interval ∧ interval.Valid

namespace KHop

/-- Unless all intervals have ends, the present ones are regular. -/
def RegularGraph (bounded : Bool) (graph : TemporalGraph) : Prop :=
  bounded = false → ∀ ref, ∀ present ∈ graph.presentIntervals ref, Regular false present.interval

section Layer

variable {graph : TemporalGraph} {request : GraphExpansionRequest} {options : KHopOptions}
  {sorter : Sorter TemporalTraversal.sortKey}
  {sorter' : Sorter (Span.start : ValidTimeInterval → ValidTime)}

/-- The moves along a traversal go where its edge leads. -/
theorem exists_mem_moves_iff {direction : ExpandDirection} {traversal : TemporalTraversal}
    {u v : VertexRef} :
  (∃ move ∈ moves direction u traversal, move.1 = v) ↔
    direction ≠ .into ∧ traversal.source = u ∧ traversal.target = v ∨
      direction ≠ .out ∧ traversal.target = u ∧ traversal.source = v
  := by
  simp only [moves, mem_append, mem_ite_nil_right, mem_singleton, or_and_right, exists_or, and_assoc,
    exists_and_left, exists_eq_left]
  constructor
  · rintro (hway | ⟨hdirection, hu, -, hv⟩)
    · apply inl hway
    · apply inr ⟨hdirection, hu, hv⟩
  · rintro (hway | ⟨hdirection, hu, hv⟩)
    · apply inl hway
    · -- the way back is left out if the way out has the same end
      by_cases hsame : direction ≠ .into ∧ traversal.source = u ∧ traversal.target = traversal.source
      · apply inl ⟨hsame.1, hsame.2.1, hsame.2.2.trans hv⟩
      · refine inr ⟨hdirection, hu, ?_, hv⟩
        rintro _ ⟨hout, hsource, rfl⟩ hend
        apply hsame ⟨hout, hsource, hend⟩

/-- The moves from a label offer the vertices to which there is a step, within its interval. -/
theorem exists_mem_labelMoves_iff {prior : GraphLabel} {rows : List TemporalTraversal}
    {interval : ValidTimeInterval} {v : VertexRef} {t : ValidTime} (htrail : options.trail = false)
    (hrows : graph.expandTemporal sorter (layerRequest request prior) = .ok rows)
    (heffective : prior.effective = some interval) :
  (∃ move ∈ labelMoves request options prior rows,
      v = move.2.1 ∧ move.1.effective.Contains t) ↔
    interval.Contains t ∧ graph.Step request t prior.vertex v
  := by
  have hinterval : (layerRequest request prior).interval = interval := by
    rw [layerRequest, heffective, Option.getD_some]
  simp only [labelMoves, htrail, Bool.false_eq_true, false_and, not_false_eq_true, decide_true,
    filter_true, mem_flatMap, mem_map]
  constructor
  · rintro ⟨_, ⟨traversal, hmem, move, hmove, rfl⟩, rfl, ht⟩
    obtain ⟨identity, hidentity, hselects, htraversal⟩ :=
      (mem_expandTemporal_iff hrows).mp hmem
    obtain ⟨hin, htraversable⟩ := traversable_of_mem_traversals htraversal ht
    obtain ⟨hsource, -, htarget, -⟩ := eq_of_mem_traversals htraversal
    have hleads := exists_mem_moves_iff.mp ⟨move, hmove, rfl⟩
    rw [hsource, htarget] at hleads
    rw [hinterval] at hin
    use hin, identity, hidentity, ((GraphExpansionRequest.selects_iff rfl).mp hselects).1, hleads
  · rintro ⟨hin, identity, hidentity, htype, hleads, htraversable⟩
    have hselects : (layerRequest request prior).selects identity :=
      (GraphExpansionRequest.selects_iff rfl).mpr ⟨htype, v, hleads⟩
    rw [← hinterval] at hin
    obtain ⟨edge, hedge, hcontains⟩ := htraversable.edge
    obtain ⟨source, hfrom, hcontains'⟩ := htraversable.source
    obtain ⟨target, hto, hcontains''⟩ := htraversable.target
    obtain ⟨traversal, htraversal, hiff⟩ := exists_mem_traversals_of_states hedge hfrom hto hin
      hcontains hcontains' hcontains''
    have ht := (hiff t).mpr ⟨hin, hcontains, hcontains', hcontains''⟩
    obtain ⟨hsource, -, htarget, -⟩ := eq_of_mem_traversals htraversal
    rw [GraphExpansionRequest.Leads, ← hsource, ← htarget] at hleads
    obtain ⟨move, hmove, rfl⟩ := exists_mem_moves_iff.mpr hleads
    refine ⟨_, ⟨traversal, ?_, move, hmove, rfl⟩, rfl, ht⟩
    apply (mem_expandTemporal_iff hrows).mpr
    use identity

variable {before : VertexRef → Option (Nat × List ValidTimeInterval)} {emitted : List GraphLabel}
  {depth : Nat} {bounded : Bool} {offered : VertexRef → ValidTime → Prop} {state : KHopState}

/-- A label offers the vertices to which there is a step, within its interval. -/
theorem Offered.expandLabel (h : Offered before emitted depth bounded offered state)
    (hbefore : ∀ v entry, before v = some entry → entry.1 < depth)
    (hgraph : RegularGraph bounded graph) (htrail : options.trail = false) {prior : GraphLabel} {interval : ValidTimeInterval}
    (heffective : prior.effective = some interval) (hregular : Regular bounded interval)
    (hvalid : interval.Valid) :
  ∃ state', expandLabel sorter sorter' graph request options depth state prior = .ok state' ∧
    Offered before emitted depth bounded
      (fun v t => offered v t ∨ interval.Contains t ∧ graph.Step request t prior.vertex v) state'
  := by
  have hinterval : (layerRequest request prior).interval = interval := by
    rw [layerRequest, heffective, Option.getD_some]
  obtain ⟨rows, hrows⟩ := @exists_expandTemporal graph sorter
    (layerRequest request prior) (hinterval ▸ hvalid)
  have hmoves : ∀ move ∈ labelMoves request options prior rows,
      Regular bounded move.1.effective ∧ move.1.effective.Valid := by
    rintro _ hmove
    obtain ⟨traversal, hmem, hmove⟩ := mem_flatMap.mp hmove
    obtain ⟨move, -, rfl⟩ := mem_map.mp hmove
    obtain ⟨identity, -, -, htraversal⟩ :=
      (mem_expandTemporal_iff hrows).mp (mem_filter.mp hmem).1
    refine ⟨?_, valid_of_mem_traversals htraversal⟩
    obtain ⟨edge, hedge, source, hsource, target, htarget, clipped, hclipped, rfl⟩ :=
      mem_traversals_iff.mp htraversal
    obtain ⟨between, hbetween, hclipped⟩ := Option.bind_eq_some_iff.mp hclipped
    obtain ⟨within, hwithin, hbetween⟩ := Option.bind_eq_some_iff.mp hbetween
    rw [hinterval] at hwithin
    have hregular' := hregular.intersect (fun hb => hgraph hb _ edge hedge) hwithin
    have hregular'' := hregular'.intersect (fun hb => hgraph hb _ source hsource) hbetween
    apply hregular''.intersect (fun hb => hgraph hb _ target htarget) hclipped
  use (labelMoves request options prior rows).foldl (KHop.visit sorter' depth prior) state
  constructor
  · rw [KHop.expandLabel, hrows]
    rfl
  · have hoffered := h.foldl sorter' prior hbefore hmoves
    simpa only [exists_mem_labelMoves_iff htrail hrows heffective] using hoffered

/-- The labels of a frontier have regular intervals which are not empty. -/
def RegularLabels (bounded : Bool) (labels : List GraphLabel) : Prop :=
  ∀ label ∈ labels, ∃ interval, label.effective = some interval ∧
    Regular bounded interval ∧ interval.Valid

/-- A frontier offers the vertices to which there is a step from one of its labels, within the
interval of the label. -/
theorem Offered.expandFrontier (h : Offered before emitted depth bounded offered state)
    (hbefore : ∀ v entry, before v = some entry → entry.1 < depth)
    (hgraph : RegularGraph bounded graph) (htrail : options.trail = false) {frontier : List GraphLabel}
    (hfrontier : RegularLabels bounded frontier) :
  ∃ state', frontier.foldlM (KHop.expandLabel sorter sorter' graph request options depth) state =
      .ok state' ∧
    Offered before emitted depth bounded
      (fun v t => offered v t ∨ ∃ u, Shows frontier u t ∧ graph.Step request t u v) state'
  := by
  induction frontier generalizing offered state with
  | nil =>
    use state, rfl
    simpa [Shows] using h
  | cons prior frontier ih =>
    obtain ⟨⟨interval, heffective, hregular, hvalid⟩, hrest⟩ := forall_mem_cons.mp hfrontier
    obtain ⟨next, hnext, hoffered⟩ :=
      @Offered.expandLabel graph request options sorter sorter' before emitted depth bounded offered
        state h hbefore hgraph htrail prior interval heffective hregular hvalid
    obtain ⟨state', hstate', hoffered'⟩ := ih hoffered hrest
    use state'
    rw [foldlM_cons, hnext]
    use hstate'
    convert hoffered' using 1
    funext v t
    rw [eq_iff_iff, or_assoc]
    apply or_congr_right
    simp only [Shows, exists_mem_cons_iff, or_and_right, exists_or, heffective,
      Option.mem_some_iff, exists_eq_left', and_assoc]

end Layer

end KHop

namespace TemporalGraph

/-- The layer of a vertex, at the instants at which the expansion reaches it. -/
def Layer (graph : TemporalGraph) (request : GraphExpansionRequest) (n : Nat) (v : VertexRef)
    (t : ValidTime) : Prop :=
  Layering.Layer (· ∈ request.frontier) request.interval.Contains (graph.Step request) n v t

/-- The vertices of the first layers. -/
def Visited (graph : TemporalGraph) (request : GraphExpansionRequest) (n : Nat)
    (v : VertexRef) : Prop :=
  Layering.Visited (· ∈ request.frontier) request.interval.Contains (graph.Step request) n v

variable {graph : TemporalGraph} {request : GraphExpansionRequest} {n : Nat} {v : VertexRef}
  {t : ValidTime}

theorem visited_zero_iff :
  graph.Visited request 0 v ↔ v ∈ request.frontier
  := Iff.rfl

theorem layer_succ_iff :
  graph.Layer request (n + 1) v t ↔
    ¬ graph.Visited request n v ∧ ∃ u, graph.Layer request n u t ∧ graph.Step request t u v
  := Iff.rfl

theorem visited_succ_iff :
  graph.Visited request (n + 1) v ↔
    graph.Visited request n v ∨ ∃ t, graph.Layer request (n + 1) v t
  := Iff.rfl

end TemporalGraph

namespace KHop

section Layers

variable {graph : TemporalGraph} {request : GraphExpansionRequest} {options : KHopOptions}
  {sorter : Sorter TemporalTraversal.sortKey}
  {sorter' : Sorter (Span.start : ValidTimeInterval → ValidTime)}
  {bounded : Bool} {n : Nat} {frontier : List GraphLabel} {state : KHopState}

/-- The state after a layer. -/
structure AtLayer (graph : TemporalGraph) (request : GraphExpansionRequest) (bounded : Bool)
    (n : Nat) (frontier : List GraphLabel) (state : KHopState) : Prop where
  visited_iff : ∀ v, (state.visited v).isSome ↔ graph.Visited request n v
  depth_le : ∀ v entry, state.visited v = some entry → entry.1 ≤ n
  shows_iff : ∀ v t, Shows frontier v t ↔ graph.Layer request n v t
  labels_iff : ∀ v t, Shows state.result.labels v t ↔
    ∃ m, 1 ≤ m ∧ m ≤ n ∧ graph.Layer request m v t
  regular : RegularLabels bounded frontier
  found : ∀ label ∈ state.result.labels, label.Found

/-- The next layer is expanded. -/
theorem AtLayer.next (h : AtLayer graph request bounded n frontier state)
    (hgraph : RegularGraph bounded graph) (htrail : options.trail = false) :
  ∃ state', frontier.foldlM (expandLabel sorter sorter' graph request options (n + 1))
      { state with next := [] } = .ok state' ∧
    AtLayer graph request bounded (n + 1) state'.next state'
  := by
  have hstart : Offered state.visited state.result.labels (n + 1) bounded (fun _ _ => False)
      { state with next := [] } := by
    refine ⟨fun _ _ => id, ?_, ?_, ?_, forall_mem_nil _, forall_mem_nil _⟩
    · intro v hv
      exact inl ⟨hv, fun _ => id⟩
    · simp [Shows]
    · rw [append_nil]
  obtain ⟨state', hstate', hoffered⟩ := @Offered.expandFrontier graph request options sorter sorter'
    _ _ _ _ _ _ hstart (fun v entry hv => lt_succ_of_le (h.depth_le v entry hv)) hgraph htrail
    frontier h.regular
  use state', hstate'
  -- a vertex which is new to the layer is offered at its instants in the layer
  have hlayer : ∀ v t, state.visited v = none ∧
      (False ∨ ∃ u, Shows frontier u t ∧ graph.Step request t u v) ↔
        graph.Layer request (n + 1) v t := by
    intro v t
    rw [layer_succ_iff, false_or, ← h.visited_iff,
      Bool.not_eq_true, Option.isSome_eq_false_iff, Option.isNone_iff_eq_none]
    simp only [h.shows_iff]
  have hshows : ∀ v t, Shows state'.next v t ↔ graph.Layer request (n + 1) v t := by
    intro v t
    rw [hoffered.shows_iff, hlayer]
  constructor
  · intro v
    rw [visited_succ_iff, ← h.visited_iff]
    simp only [← hlayer]
    rcases hv : state.visited v with - | entry
    · rcases hoffered.new v hv with ⟨hnone, hnot⟩ | ⟨cover, hsome, hin, -⟩
      · simp [hnone, hnot]
      · simpa [hsome] using hin
    · simp [hoffered.old v entry hv]
  · intro v entry hentry
    rcases hv : state.visited v with - | old
    · rcases hoffered.new v hv with ⟨hnone, -⟩ | ⟨cover, hsome, -⟩
      · rw [hnone] at hentry
        cases hentry
      · rw [hsome] at hentry
        rw [← Option.some.inj hentry]
    · rw [hoffered.old v old hv] at hentry
      rw [← Option.some.inj hentry]
      apply le_succ_of_le (h.depth_le v old hv)
  · apply hshows
  · intro v t
    rw [hoffered.labels, shows_append, h.labels_iff, hshows]
    constructor
    · rintro (⟨m, hm, hle, hlayer⟩ | hlayer)
      · use m, hm, le_succ_of_le hle
      · use n + 1, succ_le_succ (zero_le n), le_refl _
    · rintro ⟨m, hm, hle, hlayer⟩
      rcases le_succ_iff.mp hle with hle | rfl
      · apply inl ⟨m, hm, hle, hlayer⟩
      · apply inr hlayer
  · apply hoffered.regular
  · intro label hlabel
    rw [hoffered.labels] at hlabel
    rcases mem_append.mp hlabel with hlabel | hlabel
    · apply h.found label hlabel
    · obtain ⟨interval, heffective, -, hvalid⟩ := hoffered.regular label hlabel
      refine ⟨?_, interval, heffective, hvalid⟩
      rw [hoffered.depths label hlabel]
      apply succ_ne_zero

/-- The expanded layers have labels of the layers of the graph. -/
theorem AtLayer.run (h : AtLayer graph request bounded n frontier state)
    (hgraph : RegularGraph bounded graph) (htrail : options.trail = false) (hops : Nat) :
  ∃ state', expandLayers sorter sorter' graph request options hops (n + 1) frontier state =
      .ok state' ∧
    (∀ v t, Shows state'.result.labels v t ↔
      ∃ m, 1 ≤ m ∧ m ≤ n + hops ∧ graph.Layer request m v t) ∧
    ∀ label ∈ state'.result.labels, label.Found
  := by
  induction hops generalizing n frontier state with
  | zero => exact ⟨state, rfl, h.labels_iff, h.found⟩
  | succ hops ih =>
    rw [expandLayers]
    split
    case isTrue hnil =>
      -- no label is left, so that no later layer has a vertex
      refine ⟨state, rfl, ?_, h.found⟩
      intro v t
      rw [h.labels_iff]
      have hempty : ∀ u s, ¬ graph.Layer request n u s := by
        intro u s
        rw [← h.shows_iff, hnil]
        simp [Shows]
      constructor
      · rintro ⟨m, hm, hle, hlayer⟩
        use m, hm, by omega
      · rintro ⟨m, hm, hle, hlayer⟩
        use m, hm
        refine ⟨?_, hlayer⟩
        by_contra hlt
        apply Layering.not_layer_of_le hempty (by omega) v t hlayer
    case isFalse =>
      obtain ⟨next, hnext, hat⟩ := @AtLayer.next graph request options sorter sorter' bounded n
        frontier state h hgraph htrail
      obtain ⟨state', hstate', hlabels, hfound⟩ := ih hat
      use state'
      rw [hnext]
      refine ⟨hstate', ?_, hfound⟩
      intro v t
      rw [hlabels, add_assoc, add_comm 1]

/-- The frontier is the first layer. -/
theorem atLayer_initial (hvalid : request.interval.Valid)
    (hregular : Regular bounded request.interval) :
  AtLayer graph request bounded 0 (initialLabels request) (initialState request)
  := by
  constructor
  · intro v
    rw [initialState, visited_zero_iff]
    dsimp only
    split
    case isTrue hv => simpa using hv
    case isFalse hv => simpa using hv
  · intro v entry hentry
    rw [initialState] at hentry
    dsimp only at hentry
    split at hentry
    · rw [← Option.some.inj hentry]
    · cases hentry
  · intro v t
    constructor
    · rintro ⟨_, hlabel, rfl, interval, hinterval, ht⟩
      obtain ⟨v, hv, rfl⟩ := mem_map.mp hlabel
      obtain rfl := Option.some.inj hinterval
      exact ⟨hv, ht⟩
    · rintro ⟨hv, ht⟩
      refine ⟨_, mem_map.mpr ⟨v, hv, rfl⟩, rfl, _, rfl, ht⟩
  · intro v t
    constructor
    · rintro ⟨_, hlabel, -⟩
      cases hlabel
    · rintro ⟨m, hm, hle, -⟩
      omega
  · intro label hlabel
    obtain ⟨v, -, rfl⟩ := mem_map.mp hlabel
    use request.interval
  · apply forall_mem_nil

end Layers

end KHop

namespace TemporalGraph

variable (graph : TemporalGraph) (request : GraphExpansionRequest)

/-- The request is bounded, or neither it nor any present interval is bounded by the last instant.
An interval which ends at the last instant is taken for one without an end. -/
def ClearOfLast : Prop :=
  request.interval.stop = none → KHop.Regular false request.interval ∧
    ∀ ref, ∀ present ∈ graph.presentIntervals ref, KHop.Regular false present.interval

/-- At the instant there is a walk of so many edges from the frontier, whose edges and vertices are
present. -/
def Walk (t : ValidTime) (n : Nat) (v : VertexRef) : Prop :=
  Layering.Walk (· ∈ request.frontier) (graph.Step request) t n v

/-- At every instant the labels show the vertices to which there is a walk. -/
def CompletePerInstant (hops : Nat) (labels : List GraphLabel) : Prop :=
  ∀ v t, v ∉ request.frontier → request.interval.Contains t →
    (KHop.Shows labels v t ↔ ∃ n ≤ hops, graph.Walk request t n v)

/-- The shortest walks to a vertex, if they are short enough, are equally long at all instants. -/
def HopConstant (hops : Nat) : Prop :=
  Layering.HopConstant (· ∈ request.frontier) request.interval.Contains (graph.Step request) hops

variable {graph request}

/-- The labels of an expansion are those of the layers. -/
theorem exists_kHopExpand (sorter : Sorter TemporalTraversal.sortKey)
    (sorter' : Sorter (Span.start : ValidTimeInterval → ValidTime)) {options : KHopOptions}
    (htrail : options.trail = false) (hvalid : request.interval.Valid)
    (hlast : graph.ClearOfLast request) :
  ∃ result, graph.kHopExpand sorter sorter' request options = .ok result ∧
    (∀ v t, KHop.Shows result.labels v t ↔
      ∃ m, 1 ≤ m ∧ m ≤ options.maxHops ∧ graph.Layer request m v t) ∧
    ∀ label ∈ result.labels, label.Found
  := by
  have hregular : KHop.Regular request.interval.stop.isSome request.interval := by
    rcases hstop : request.interval.stop with - | stop
    · apply (hlast hstop).1
    · simp [KHop.Regular, hstop]
  have hgraph : KHop.RegularGraph request.interval.stop.isSome graph := by
    intro hnone
    apply (hlast (by simpa using hnone)).2
  have hinitial := @KHop.atLayer_initial graph request _ hvalid hregular
  rw [kHopExpand]
  split
  case isTrue hzero =>
    refine ⟨{}, rfl, ?_, forall_mem_nil _⟩
    rw [hzero]
    apply hinitial.labels_iff
  case isFalse =>
    obtain ⟨state, hstate, hlabels, hfound⟩ :=
      @KHop.AtLayer.run graph request options sorter sorter' _ _ _ _ hinitial hgraph htrail
        options.maxHops
    use state.result
    rw [hstate]
    refine ⟨rfl, ?_, hfound⟩
    simpa only [zero_add] using hlabels

/-- An expansion over several hops is complete at every instant exactly if the number of hops to a
vertex does not depend on the instant. -/
theorem kHopExpand_completePerInstant_iff (sorter : Sorter TemporalTraversal.sortKey)
    (sorter' : Sorter (Span.start : ValidTimeInterval → ValidTime)) (graph : TemporalGraph)
    (request : GraphExpansionRequest) (options : KHopOptions)
    (htrail : options.trail = false) (hvalid : request.interval.Valid)
    (hlast : graph.ClearOfLast request) :
  ∃ result, graph.kHopExpand sorter sorter' request options = .ok result ∧
    (graph.CompletePerInstant request options.maxHops result.labels ↔
      graph.HopConstant request options.maxHops)
  := by
  obtain ⟨result, hresult, hlabels, -⟩ := exists_kHopExpand sorter sorter' htrail hvalid hlast
  use result, hresult
  rw [HopConstant, ← Layering.complete_iff_hopConstant]
  have hlayers : ∀ v t, v ∉ request.frontier →
      (KHop.Shows result.labels v t ↔ ∃ m ≤ options.maxHops, graph.Layer request m v t) := by
    intro v t hv
    rw [hlabels]
    constructor
    · rintro ⟨m, -, hle, hlayer⟩
      use m, hle
    · rintro ⟨m, hle, hlayer⟩
      refine ⟨m, ?_, hle, hlayer⟩
      apply one_le_iff_ne_zero.mpr
      rintro rfl
      apply hv hlayer.1
  apply forall₄_congr
  intro v t hv _
  rw [hlayers v t hv]
  rfl

/-- Three vertices and the edges between them: one from 1 to 3 before 10, and from then on those
from 1 over 2 to 3. -/
def detourFacts : CommittedFacts where
  events := [
    ⟨EntityFact.vertex ⟨0, 1⟩, 0, 1, .put, 0, none, none⟩,
    ⟨EntityFact.vertex ⟨0, 2⟩, 0, 1, .put, 0, none, none⟩,
    ⟨EntityFact.vertex ⟨0, 3⟩, 0, 1, .put, 0, none, none⟩,
    ⟨⟨0, .edgeIdentity, 0, 1⟩, 0, 1, .put, 0, none, some ⟨1, 1, 3, 1, 0, 0, 0⟩⟩,
    ⟨⟨0, .edgeIdentity, 0, 2⟩, 0, 1, .put, 0, none, some ⟨2, 1, 2, 1, 0, 0, 0⟩⟩,
    ⟨⟨0, .edgeIdentity, 0, 3⟩, 0, 1, .put, 0, none, some ⟨3, 2, 3, 1, 0, 0, 0⟩⟩,
    ⟨EntityFact.edge ⟨0, 1⟩, 0, 1, .put, 0, none, none⟩,
    ⟨EntityFact.edge ⟨0, 1⟩, 10, 1, .delete, 0, none, none⟩,
    ⟨EntityFact.edge ⟨0, 2⟩, 10, 1, .put, 0, none, none⟩,
    ⟨EntityFact.edge ⟨0, 3⟩, 10, 1, .put, 0, none, none⟩]
  valid := by decide +kernel
  distinct := by decide +kernel

/-- The edges from 1, between 0 and 20. -/
def detourRequest : GraphExpansionRequest :=
  ⟨[⟨0, 1⟩], ⟨0, some 20⟩, .out, none⟩

/-- The vertex 3, which is reached in one hop before 10, has no label at 10, when it is reached in
two. -/
theorem detour_not_completePerInstant :
  ∃ result, (detourFacts.graphAt 1).kHopExpand (Sorter.insertion _) (Sorter.insertion _)
      detourRequest { maxHops := 2 } = .ok result ∧
    ¬ (detourFacts.graphAt 1).CompletePerInstant detourRequest 2 result.labels
  := by
  use {
    traversals := [
      ⟨⟨0, 1⟩, ⟨0, 1⟩, ⟨0, 3⟩, 1, ⟨0, some 10⟩⟩,
      ⟨⟨0, 1⟩, ⟨0, 2⟩, ⟨0, 2⟩, 1, ⟨10, some 20⟩⟩]
    labels := [
      ⟨⟨0, 3⟩, 1, some ⟨0, 1⟩, some ⟨0, some 10⟩, [⟨0, 1⟩]⟩,
      ⟨⟨0, 2⟩, 1, some ⟨0, 1⟩, some ⟨10, some 20⟩, [⟨0, 2⟩]⟩] }
  constructor
  · decide +kernel
  · intro hcomplete
    have hfirst : (detourFacts.graphAt 1).Walk detourRequest 10 0 ⟨0, 1⟩ := .source (by decide)
    have hstep : (detourFacts.graphAt 1).Step detourRequest 10 ⟨0, 1⟩ ⟨0, 2⟩ :=
      ⟨⟨2, 1, 2, 1, 0, 0, 0⟩, by decide +kernel, by simp [detourRequest], by decide,
        by decide +kernel⟩
    have hstep' : (detourFacts.graphAt 1).Step detourRequest 10 ⟨0, 2⟩ ⟨0, 3⟩ :=
      ⟨⟨3, 2, 3, 1, 0, 0, 0⟩, by decide +kernel, by simp [detourRequest], by decide,
        by decide +kernel⟩
    have hwalk : (detourFacts.graphAt 1).Walk detourRequest 10 2 ⟨0, 3⟩ :=
      (hfirst.step hstep).step hstep'
    have hshows := (hcomplete ⟨0, 3⟩ 10 (by decide) (by decide)).mpr ⟨2, le_refl _, hwalk⟩
    revert hshows
    decide +kernel

/-- The vertices which are reached in one hop have labels at all instants. -/
theorem detour_completePerInstant :
  ∃ result, (detourFacts.graphAt 1).kHopExpand (Sorter.insertion _) (Sorter.insertion _)
      detourRequest { maxHops := 1 } = .ok result ∧
    (detourFacts.graphAt 1).CompletePerInstant detourRequest 1 result.labels
  := by
  obtain ⟨result, hresult, hiff⟩ := kHopExpand_completePerInstant_iff (Sorter.insertion _)
    (Sorter.insertion _) (detourFacts.graphAt 1) detourRequest { maxHops := 1 } rfl (by decide)
    (by rintro ⟨⟩)
  use result, hresult
  apply hiff.mpr
  -- a vertex outside the frontier is not reached without a hop
  have hone : ∀ {v t n}, v ∉ detourRequest.frontier → n ≤ 1 →
      (detourFacts.graphAt 1).Walk detourRequest t n v → n = 1 := by
    intro v t n hv hn hwalk
    cases hwalk with
    | source hsource => cases hv hsource
    | step => omega
  intro v s t hv _ _ m hm n hn hleast hleast'
  rw [hone hv hm hleast.1, hone hv hn hleast'.1]

end TemporalGraph

end Cedar
