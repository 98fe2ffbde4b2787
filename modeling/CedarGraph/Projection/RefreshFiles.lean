import CedarGraph.Fact.Event

/-!
# The files of index refreshes

A refresh writes the segments of the next generation, then its manifest, and then a file which names
the current generation.  Each of them is written to a temporary file, which is renamed.  A step may
fail, and the files of the steps before it stay.  What is written is checked before: these checks
depend on the facts and the definitions of the properties, and not on the files.

The next generation follows the current one.  It is the first one if there is none, also after the
generations before were retired.  A refresh does not replace files, so that files which were left by
earlier generations of the same number prevent it.
-/

namespace Cedar

open List

/-- A generation of property indexes.  A segment is named by its property, its part and the
generation. -/
structure IndexGeneration where
  generation : Nat
  baseSeq : CommitSeq
  segments : List (PropertyId × PartId)
  deriving DecidableEq

/-- A file of the projection store, which may be a temporary one. -/
inductive ProjectionFile where
  | segment (propertyId : PropertyId) (partId : PartId) (generation : Nat) (temporary : Bool)
  | manifest (generation : Nat) (temporary : Bool)
  | currentTemporary
  deriving DecidableEq

namespace ProjectionFile

def temporary : ProjectionFile → Bool
  | segment _ _ _ temporary => temporary
  | manifest _ temporary => temporary
  | currentTemporary => true

end ProjectionFile

/-- The files of a generation. -/
def IndexGeneration.files (index : IndexGeneration) : List ProjectionFile :=
  index.segments.map (fun segment => .segment segment.1 segment.2 index.generation false) ++
    [.manifest index.generation false]

/-- The files, and what `PROJECTION-CURRENT` names if it is there: a generation, or none after it
was retired. -/
structure ProjectionDisk where
  files : List ProjectionFile := []
  published : Option (Option IndexGeneration) := none
  deriving DecidableEq

inductive ProjectionStatus where
  | ok
  | failed (error : StatusError)
  | ioError
  deriving DecidableEq

/-- The checks of what a refresh is to write. -/
structure BuildChecks where
  /-- The indexes are built and encoded: there are not too many postings, and the bounds of a page
  equal its first and last value, which a NaN does not. -/
  projection : Status := .ok ()
  /-- The manifest is valid, is about the segments, and does not span too many commits. -/
  manifest : Status := .ok ()
  /-- The bytes of a segment have its checksum and are decoded to what the manifest says. -/
  segment : PropertyId × PartId → Status := fun _ => .ok ()
  encoded : Status := .ok ()
  catalog : Status := .ok ()

/-- All checks of some segments pass. -/
structure BuildChecks.Pass (checks : BuildChecks) (segments : List (PropertyId × PartId)) :
    Prop where
  projection : checks.projection = .ok ()
  manifest : checks.manifest = .ok ()
  segment : ∀ segment ∈ segments, checks.segment segment = .ok ()
  encoded : checks.encoded = .ok ()
  catalog : checks.catalog = .ok ()

inductive FileStep where
  /-- There must be no such file. -/
  | absent (file : ProjectionFile) (message : String)
  | check (status : Status)
  | write (file : ProjectionFile)
  | sync
  | rename (source target : ProjectionFile)
  /-- The temporary file is renamed to `PROJECTION-CURRENT`. -/
  | publish (generation : Option IndexGeneration)

/-- A step is done, fails without an effect, or fails although its effect stays. -/
inductive StepOutcome where
  | done
  | failed
  | failedAfter
  deriving DecidableEq

namespace ProjectionDisk

/-- The effect of a step.  Only the checks can fail by themselves. -/
def perform (disk : ProjectionDisk) : FileStep → StatusOr ProjectionDisk
  | .absent file message =>
      if file ∈ disk.files then Status.conflict "projection store" message else .ok disk
  | .check status => status.map fun _ => disk
  | .write file => .ok { disk with files := disk.files.insert file }
  | .sync => .ok disk
  | .rename source target =>
      .ok { disk with files := (disk.files.filter (· ≠ source)).insert target }
  | .publish generation =>
      .ok { files := disk.files.filter (· ≠ .currentTemporary), published := some generation }

/-- Steps up to the first one which fails.  When no outcomes are left the steps are done. -/
def runSteps : List FileStep → List StepOutcome → ProjectionDisk → ProjectionStatus × ProjectionDisk
  | [], _, disk => (.ok, disk)
  | step :: steps, outcomes, disk =>
      match disk.perform step with
      | .error error => (.failed error, disk)
      | .ok next =>
          match outcomes.headD .done with
          | .done => runSteps steps outcomes.tail next
          | .failed => (.ioError, disk)
          | .failedAfter => (.ioError, next)

end ProjectionDisk

/-- A segment is checked and written. -/
def segmentSteps (checks : BuildChecks) (generation : Nat) (segment : PropertyId × PartId) :
    List FileStep :=
  let destination := ProjectionFile.segment segment.1 segment.2 generation false
  let temp := ProjectionFile.segment segment.1 segment.2 generation true
  [.check (checks.segment segment),
    .absent destination "segment filename already exists or is not regular",
    .absent temp "segment temporary filename already exists",
    .write temp, .sync, .rename temp destination]

/-- A manifest is encoded and written. -/
def manifestSteps (checks : BuildChecks) (generation : Nat) : List FileStep :=
  [.check checks.encoded,
    .absent (.manifest generation false) "manifest generation already exists",
    .absent (.manifest generation true) "manifest temporary filename already exists",
    .write (.manifest generation true), .sync,
    .rename (.manifest generation true) (.manifest generation false), .sync]

/-- `PROJECTION-CURRENT` is replaced. -/
def publishSteps (generation : Option IndexGeneration) : List FileStep :=
  [.write .currentTemporary, .sync, .publish generation, .sync]

def buildSteps (checks : BuildChecks) (generation : IndexGeneration) : List FileStep :=
  generation.segments.flatMap (segmentSteps checks generation.generation) ++
    (manifestSteps checks generation.generation ++ publishSteps (some generation))

/-- The projection store.  A retired generation is kept while it is pinned. -/
structure ProjectionStore where
  disk : ProjectionDisk := {}
  current : Option IndexGeneration := none
  retired : List IndexGeneration := []
  deriving DecidableEq

namespace ProjectionStore

variable (store : ProjectionStore)

/-- What is asked of a generation before its files are written. -/
def checkGeneration (generation : IndexGeneration) (checks : BuildChecks) : Status :=
  if ∃ named ∈ store.disk.published, ∃ other ∈ named, generation.generation ≤ other.generation then
    Status.conflict "projection store" "generation is not newer than published CURRENT"
  else do
    checks.manifest
    if generation.generation = 0 ∨
        ∃ other ∈ store.current, generation.generation ≤ other.generation then
      Status.conflict "projection store" "generation is not strictly newer"
    else if ∃ other ∈ store.retired, generation.generation ≤ other.generation then
      Status.conflict "projection store" "generation is already retained"
    else
      .ok ()

/-- Publishes a generation.  A failure to lock the store or to read a file leaves everything as it
is, and is left out here and below. -/
def build (generation : IndexGeneration) (checks : BuildChecks) (outcomes : List StepOutcome)
    (pinned : Nat → Bool) : ProjectionStatus × ProjectionStore :=
  match store.checkGeneration generation checks with
  | .error error => (.failed error, store)
  | .ok () =>
      match store.disk.runSteps (buildSteps checks generation) outcomes with
      | (.ok, disk) =>
          let retired := store.retired ++ store.current.toList
          match checks.catalog with
          -- the generation before is retired, but it stays the current one
          | .error error => (.failed error, { store with disk, retired })
          | .ok () =>
              -- generations which are not pinned are dropped, but their files stay
              (.ok, ⟨disk, some generation, retired.filter fun other => pinned other.generation⟩)
      | (status, disk) => (status, { store with disk })

/-- The number of the next generation. -/
def nextGeneration : Nat :=
  match store.current with
  | some generation => generation.generation + 1
  | none => 1

/-- Builds the indexes of some properties in some parts, as the next generation. -/
def refreshQueryIndexes (segments : List (PropertyId × PartId)) (checks : BuildChecks)
    (outcomes : List StepOutcome) (pinned : Nat → Bool) : ProjectionStatus × ProjectionStore :=
  match checks.projection with
  | .error error => (.failed error, store)
  | .ok () =>
      let baseSeq := (store.current.map IndexGeneration.baseSeq).getD 0
      store.build ⟨store.nextGeneration, baseSeq, segments⟩ checks outcomes pinned

/-- The files of retired generations which are not pinned are removed, as far as this succeeds. -/
def collectRetired (removed : ProjectionFile → Bool) (pinned : Nat → Bool) : ProjectionStore :=
  let gone := store.retired.filter fun generation => ¬ pinned generation.generation
  { store with
    disk := { store.disk with
      files := store.disk.files.filter fun file =>
        ¬ (file ∈ gone.flatMap IndexGeneration.files ∧ removed file) }
    retired := store.retired.filter fun generation => pinned generation.generation }

/-- Retires the current generation if it is based on an earlier commit. -/
def retireBefore (seq : CommitSeq) (outcomes : List StepOutcome) (removed : ProjectionFile → Bool)
    (pinned : Nat → Bool) : ProjectionStatus × ProjectionStore :=
  match store.current with
  | none => (.ok, store.collectRetired removed pinned)
  | some generation =>
      if generation.baseSeq < seq then
        match store.disk.published with
        | none => (.failed ⟨.conflict, "projection store", "durable CURRENT disappeared"⟩, store)
        | some named =>
            if named.map IndexGeneration.generation ≠ some generation.generation then
              (.failed ⟨.conflict, "projection store",
                "durable CURRENT changed before retirement"⟩, store)
            else
              match store.disk.runSteps (publishSteps none) outcomes with
              | (.ok, disk) =>
                  (.ok, collectRetired ⟨disk, none, store.retired ++ [generation]⟩ removed pinned)
              | (status, disk) => (status, { store with disk })
      else
        (.ok, store.collectRetired removed pinned)

/-- Opens the store again.  Some files may be lost, temporary ones are removed as far as this
succeeds, and the generation of `PROJECTION-CURRENT` is loaded if its files can be read. -/
def reopen (lost removed : ProjectionFile → Bool) (loads : Bool) : ProjectionStore :=
  let files := store.disk.files.filter fun file =>
    ¬ (lost file ∨ (file.temporary ∧ removed file))
  let named := store.disk.published.join.filter fun generation =>
    loads ∧ ∀ file ∈ generation.files, file ∈ files
  ⟨{ store.disk with files }, named, []⟩

end ProjectionStore

/-- A step of the history of a store. -/
inductive ProjectionAction where
  | refresh (segments : List (PropertyId × PartId)) (checks : BuildChecks)
      (outcomes : List StepOutcome) (pinned : Nat → Bool)
  | retireBefore (seq : CommitSeq) (outcomes : List StepOutcome)
      (removed : ProjectionFile → Bool) (pinned : Nat → Bool)
  | collectRetired (removed : ProjectionFile → Bool) (pinned : Nat → Bool)
  | reopen (lost removed : ProjectionFile → Bool) (loads : Bool)

namespace ProjectionStore

def act (store : ProjectionStore) : ProjectionAction → ProjectionStore
  | .refresh segments checks outcomes pinned =>
      (store.refreshQueryIndexes segments checks outcomes pinned).2
  | .retireBefore seq outcomes removed pinned => (store.retireBefore seq outcomes removed pinned).2
  | .collectRetired removed pinned => store.collectRetired removed pinned
  | .reopen lost removed loads => store.reopen lost removed loads

/-- The store after a history. -/
def after (history : List ProjectionAction) : ProjectionStore :=
  history.foldl act {}

/-- No file of the next generation is there, and no other generation is in its way. -/
structure Unobstructed (store : ProjectionStore) (segments : List (PropertyId × PartId)) :
    Prop where
  published : ∀ named ∈ store.disk.published, ∀ other ∈ named,
    other.generation < store.nextGeneration
  retired : ∀ other ∈ store.retired, other.generation < store.nextGeneration
  segments : ∀ segment ∈ segments, ∀ temporary,
    .segment segment.1 segment.2 store.nextGeneration temporary ∉ store.disk.files
  manifest : ∀ temporary, .manifest store.nextGeneration temporary ∉ store.disk.files

end ProjectionStore

/-! ### Refreshes without a failure -/

namespace ProjectionDisk

variable {disk next : ProjectionDisk} {steps steps' : List FileStep} {status : Status}
  {destination temp : ProjectionFile} {message message' : String} {generation : Nat}
  {checks : BuildChecks} {segments : List (PropertyId × PartId)}

theorem runSteps_append (h : disk.runSteps steps [] = (.ok, next)) :
  disk.runSteps (steps ++ steps') [] = next.runSteps steps' []
  := by
  induction steps generalizing disk with
  | nil => rw [← (Prod.mk.inj h).2, nil_append]
  | cons step steps ih =>
    rw [cons_append]
    rw [runSteps] at h ⊢
    split at h
    · cases (Prod.mk.inj h).1
    · exact ih h

theorem runSteps_append_ne (h : (disk.runSteps steps []).1 ≠ .ok) :
  (disk.runSteps (steps ++ steps') []).1 ≠ .ok
  := by
  induction steps generalizing disk with
  | nil => cases h rfl
  | cons step steps ih =>
    rw [cons_append]
    rw [runSteps] at h ⊢
    split at h
    · exact h
    · exact ih h

/-- A file is there after it was checked, written and renamed, if neither name was in use. -/
theorem runSteps_renamed (hstatus : status = .ok ()) (hdestination : destination ∉ disk.files)
    (htemp : temp ∉ disk.files) :
  ∃ next, disk.runSteps [.check status, .absent destination message, .absent temp message',
      .write temp, .sync, .rename temp destination] [] = (.ok, next) ∧
    ∀ file, file ∈ next.files ↔ file ∈ disk.files ∨ file = destination
  := by
  simp only [runSteps, perform, hstatus, Except.map, if_neg hdestination, if_neg htemp]
  refine ⟨_, rfl, fun file => ?_⟩
  simp only [mem_insert_iff, mem_filter, decide_eq_true_eq]
  constructor
  · rintro (h | ⟨h | h, hne⟩)
    · exact .inr h
    · exact absurd h hne
    · exact .inl h
  · rintro (h | h)
    · exact .inr ⟨.inr h, fun heq => htemp (heq ▸ h)⟩
    · exact .inl h

theorem runSteps_renamed_ne (file : Bool → ProjectionFile)
    (h : status = .ok () → ∃ temporary, file temporary ∈ disk.files) (steps : List FileStep) :
  (disk.runSteps ([.check status, .absent (file false) message, .absent (file true) message'] ++
    steps) []).1 ≠ .ok
  := by
  rcases status with error | ⟨⟨⟩⟩
  · exact nofun
  · by_cases hdestination : file false ∈ disk.files
    · simp [runSteps, perform, Except.map, hdestination, Status.conflict]
    · have htemp : file true ∈ disk.files := by simpa [hdestination] using h rfl
      simp [runSteps, perform, Except.map, hdestination, htemp, Status.conflict]

/-- The segments are written if they pass their checks and none of their names is in use. -/
theorem runSteps_segments (hnodup : segments.Nodup)
    (h : ∀ segment ∈ segments, checks.segment segment = .ok () ∧ ∀ temporary,
      .segment segment.1 segment.2 generation temporary ∉ disk.files) :
  ∃ next, disk.runSteps (segments.flatMap (segmentSteps checks generation)) [] = (.ok, next) ∧
    ∀ number temporary, .manifest number temporary ∈ next.files ↔
      .manifest number temporary ∈ disk.files
  := by
  induction segments generalizing disk with
  | nil => exact ⟨disk, rfl, fun _ _ => Iff.rfl⟩
  | cons segment segments ih =>
    obtain ⟨hfirst, hnodup⟩ := nodup_cons.mp hnodup
    obtain ⟨⟨hstatus, hsegment⟩, hsegments⟩ := forall_mem_cons.mp h
    obtain ⟨middle, hmiddle, hfiles⟩ := @runSteps_renamed _ _ _ _
      "segment filename already exists or is not regular"
      "segment temporary filename already exists" hstatus (hsegment false) (hsegment true)
    -- the new file is not one of the segments which follow
    obtain ⟨next, hnext, hmanifests⟩ := @ih middle hnodup fun other hother =>
      ⟨(hsegments other hother).1, fun temporary hmem => by
        rcases (hfiles _).mp hmem with hmem | heq
        · exact (hsegments other hother).2 temporary hmem
        · injection heq with hproperty hpart
          exact hfirst (Prod.ext hproperty hpart ▸ hother)⟩
    refine ⟨next, ?_, fun number temporary => ?_⟩
    · rw [flatMap_cons]
      exact (runSteps_append hmiddle).trans hnext
    · rw [hmanifests, hfiles]
      simp

/-- The segments are not written if one of them fails its checks or one of their names is in use. -/
theorem runSteps_segments_ne (steps : List FileStep)
    (h : ∃ segment ∈ segments, checks.segment segment = .ok () → ∃ temporary,
      .segment segment.1 segment.2 generation temporary ∈ disk.files) :
  (disk.runSteps (segments.flatMap (segmentSteps checks generation) ++ steps) []).1 ≠ .ok
  := by
  induction segments generalizing disk with
  | nil =>
    obtain ⟨_, hmem, -⟩ := h
    cases hmem
  | cons segment segments ih =>
    by_cases hused : checks.segment segment = .ok () → ∃ temporary,
        .segment segment.1 segment.2 generation temporary ∈ disk.files
    · apply runSteps_append_ne
      exact runSteps_renamed_ne (.segment segment.1 segment.2 generation) hused _
    · push Not at hused
      obtain ⟨middle, hmiddle, hfiles⟩ := @runSteps_renamed _ _ _ _
        "segment filename already exists or is not regular"
        "segment temporary filename already exists" hused.1 (hused.2 false) (hused.2 true)
      have hrest := @runSteps_append _ _ _
        (segments.flatMap (segmentSteps checks generation) ++ steps) hmiddle
      refine ne_of_eq_of_ne (congrArg Prod.fst hrest) (ih ?_)
      obtain ⟨other, hother, hmem⟩ := h
      rcases mem_cons.mp hother with rfl | hother
      · obtain ⟨temporary, hmem⟩ := hmem hused.1
        exact absurd hmem (hused.2 temporary)
      · refine ⟨other, hother, fun hstatus => ?_⟩
        obtain ⟨temporary, hmem⟩ := hmem hstatus
        exact ⟨temporary, (hfiles _).mpr (.inl hmem)⟩

/-- A generation is written exactly if it passes its checks and no name of its files is in use. -/
theorem runSteps_buildSteps_iff {index : IndexGeneration} (hnodup : index.segments.Nodup) :
  (disk.runSteps (buildSteps checks index) []).1 = .ok ↔
    (∀ segment ∈ index.segments, checks.segment segment = .ok () ∧ ∀ temporary,
      .segment segment.1 segment.2 index.generation temporary ∉ disk.files) ∧
    checks.encoded = .ok () ∧ ∀ temporary, .manifest index.generation temporary ∉ disk.files
  := by
  rw [buildSteps]
  by_cases hsegments : ∀ segment ∈ index.segments, checks.segment segment = .ok () ∧ ∀ temporary,
      .segment segment.1 segment.2 index.generation temporary ∉ disk.files
  · obtain ⟨next, hnext, hmanifests⟩ := runSteps_segments hnodup hsegments
    rw [runSteps_append hnext, manifestSteps]
    simp only [← hmanifests]
    by_cases hmanifest : checks.encoded = .ok () ∧
        ∀ temporary, .manifest index.generation temporary ∉ next.files
    · refine iff_of_true ?_ ⟨hsegments, hmanifest⟩
      simp [runSteps, perform, publishSteps, hmanifest, Except.map]
    · refine iff_of_false ?_ fun h => hmanifest h.2
      push Not at hmanifest
      exact runSteps_renamed_ne (.manifest index.generation) hmanifest _
  · refine iff_of_false ?_ fun h => hsegments h.1
    push Not at hsegments
    exact runSteps_segments_ne _ hsegments

end ProjectionDisk

namespace ProjectionStore

theorem checkGeneration_eq_ok_iff {store : ProjectionStore} {generation : IndexGeneration}
    {checks : BuildChecks} :
  store.checkGeneration generation checks = .ok () ↔
    (∀ named ∈ store.disk.published, ∀ other ∈ named, other.generation < generation.generation) ∧
    checks.manifest = .ok () ∧ generation.generation ≠ 0 ∧
    (∀ other ∈ store.current, other.generation < generation.generation) ∧
    ∀ other ∈ store.retired, other.generation < generation.generation
  := by
  simp only [checkGeneration, Status.conflict, StatusOr.guard_eq_ok_iff, StatusOr.bind_eq_ok_iff,
    and_true]
  push Not
  constructor
  · rintro ⟨hpublished, _, hmanifest, ⟨hzero, hcurrent⟩, hretired⟩
    exact ⟨hpublished, hmanifest, hzero, hcurrent, hretired⟩
  · rintro ⟨hpublished, hmanifest, hzero, hcurrent, hretired⟩
    exact ⟨hpublished, (), hmanifest, ⟨hzero, hcurrent⟩, hretired⟩

theorem lt_nextGeneration (store : ProjectionStore) :
  store.nextGeneration ≠ 0 ∧ ∀ other ∈ store.current, other.generation < store.nextGeneration
  := by
  rcases hcurrent : store.current with _ | generation
  · simp [nextGeneration, hcurrent]
  · simp [nextGeneration, hcurrent]

/-- One property in one part is indexed twice, and then retired. -/
def refreshedTwice : List ProjectionAction :=
  [.refresh [(1, 0)] {} [] fun _ => false, .refresh [(1, 0)] {} [] fun _ => false,
    .retireBefore 1 [] (fun _ => true) fun _ => false]

end ProjectionStore

end Cedar
