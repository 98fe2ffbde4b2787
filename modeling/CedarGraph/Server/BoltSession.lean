import CedarGraph.Server.PackStream

/-!
# Sessions

A session answers the messages of one client.  It may hold a transaction, which a message begins and
others commit or roll back; a statement which writes outside a transaction gets one of its own.

What the database answers is not determined here: every message comes with the answers which the
database gives while the message is processed.  Of a transaction only the mutations are known which
have been staged, and whether it has ended.
-/

namespace Cedar

open Cypher

variable {μ : Type}

/-! ### Transactions -/

/-- What a commit comes to. -/
inductive CommitVerdict where
  | committed
  | aborted (status : StatusError)
  | indeterminate (status : StatusError)
  deriving DecidableEq

/-- A transaction with the mutations which have been staged. -/
structure BoltTransaction (μ : Type) where
  terminal : Bool := false
  mutations : List μ := []

/-- What the database answers while a message is processed.  A statement which writes tries to stage
some mutations one after the other. -/
structure DatabaseAnswers (μ : Type) where
  prepared : StatusOr BoundStatement
  began : Status
  attempted : List μ
  staged : Status
  committed : StatusOr CommitVerdict
  cursor : StatusOr (List (StatusOr BoltBatch))

/-- What a message asks from the database, with the answer. -/
inductive DatabaseCall (μ : Type) where
  | prepare (query : Text)
  | beginTransaction (began : Status)
  | stageWrite (bindings : Bindings) (validTime : ValidTime) (mutations : List μ) (staged : Status)
  | executeWrite (bindings : Bindings) (validTime : ValidTime) (result : StatusOr CommitVerdict)
  | execute (bindings : Bindings)
  | fetch
  | commit (mutations : List μ) (result : StatusOr CommitVerdict)
  | rollback
  deriving DecidableEq

namespace BoltTransaction

def terminalError : StatusError :=
  ⟨.invalidArgument, "transaction", "terminal transaction"⟩

/-- A statement stages its mutations, unless the transaction has ended. -/
def stageWrite (transaction : BoltTransaction μ) (answers : DatabaseAnswers μ) :
    Status × List μ :=
  if transaction.terminal ∧ answers.attempted.length ≠ 0 then
    (.error terminalError, [])
  else
    (answers.staged, answers.attempted)

/-- The end of a transaction, unless the database refuses to begin with it. -/
def commit (transaction : BoltTransaction μ) (answers : DatabaseAnswers μ) :
    StatusOr CommitVerdict × BoltTransaction μ :=
  if transaction.terminal then
    (.error terminalError, transaction)
  else
    match answers.committed with
    | .error status => (.error status, transaction)
    | .ok verdict => (.ok verdict, ⟨true, []⟩)

def rollback (transaction : BoltTransaction μ) : Status :=
  if transaction.terminal then .error terminalError else .ok ()

end BoltTransaction

/-- A statement with a transaction of its own. -/
def executeWrite (answers : DatabaseAnswers μ) : StatusOr CommitVerdict := do
  answers.began
  answers.staged
  answers.committed

/-! ### Messages -/

structure BoltConfig where
  maxFrameBytes : Nat
  maxPullRecords : Nat
  authToken : List UInt8

structure BoltSession (μ : Type) where
  prepared : Option BoundStatement := none
  cursor : Option (List (StatusOr BoltBatch)) := none
  transaction : Option (BoltTransaction μ) := none
  transactionDirty : Bool := false
  authenticated : Bool := false
  pendingBatch : Option BoltBatch := none
  pendingRow : Nat := 0

/-- The reply to a message, with the records before it, what the message leaves and what it has asked
from the database. -/
structure BoltResult (μ : Type) where
  reply : StatusOr (List UInt8)
  frames : List (List UInt8) := []
  session : BoltSession μ
  calls : List (DatabaseCall μ) := []

/-- The one valid time of a statement which writes. -/
def writeTime : Option TimeScope → StatusOr ValidTime
  | none => .ok 0
  | some scope =>
      match scope.asOf, scope.stop with
      | some time, _ => .ok time
      | none, some _ => Status.invalidArgument "bolt" "range writes require one valid-time point"
      | none, none => .ok scope.start

namespace BoltSession

/-- The session without what a transaction has left. -/
def clear (session : BoltSession μ) : BoltSession μ :=
  { session with
    transaction := none
    transactionDirty := false
    cursor := none
    pendingBatch := none
    pendingRow := 0 }

variable (config : BoltConfig) (answers : DatabaseAnswers μ)

/-- A statement which writes, in the transaction or in one of its own. -/
def runWrite (bindings : Bindings) (validTime : ValidTime) (session : BoltSession μ) : BoltResult μ :=
  match session.transaction with
  | some transaction =>
      let staged := transaction.stageWrite answers
      let session := { session with
        transaction := some { transaction with mutations := transaction.mutations ++ staged.2 } }
      let calls := [DatabaseCall.stageWrite bindings validTime staged.2 staged.1]
      match staged.1 with
      | .error status => ⟨.error status, [], session, calls⟩
      | .ok _ => ⟨encodeBoltFields [] config.maxFrameBytes, [],
          { session with transactionDirty := true }, calls⟩
  | none =>
      let calls := [DatabaseCall.executeWrite bindings validTime (executeWrite answers)]
      match executeWrite answers with
      | .error status => ⟨.error status, [], session, calls⟩
      -- What the commit has come to is not looked at.
      | .ok _ => ⟨encodeBoltFields [] config.maxFrameBytes, [], session, calls⟩

/-- A statement which reads leaves a cursor. -/
def runRead (statement : BoundStatement) (bindings : Bindings) (session : BoltSession μ) :
    BoltResult μ :=
  match answers.cursor with
  | .error status => ⟨.error status, [], session, [.execute bindings]⟩
  | .ok cursor =>
      ⟨encodeBoltFields (statement.projections.map ProjectionItem.expression) config.maxFrameBytes,
        [], { session with cursor := some cursor }, [.execute bindings]⟩

/-- A prepared statement. -/
def runPrepared (statement : BoundStatement) (parameters : List (Text × Value))
    (session : BoltSession μ) : BoltResult μ :=
  match bindParameters parameters statement.parameters [] with
  | .error status => ⟨.error status, [], session, []⟩
  | .ok bindings =>
      if statement.kind = .write then
        match writeTime statement.validTime with
        | .error status => ⟨.error status, [], session, []⟩
        | .ok validTime => session.runWrite config answers bindings validTime
      else
        session.runRead config answers statement bindings

/-- The message RUN. -/
def run (payload : List UInt8) (session : BoltSession μ) : BoltResult μ :=
  match readRun payload config.maxFrameBytes with
  | .error status => ⟨.error status, [], session, []⟩
  | .ok (query, parameters) =>
      match answers.prepared with
      | .error status => ⟨.error status, [], session, [.prepare query]⟩
      | .ok statement =>
          let result := runPrepared config answers statement parameters
            { session with prepared := some statement, pendingBatch := none, pendingRow := 0 }
          { result with calls := .prepare query :: result.calls }

/-- The session after a record of a batch. -/
def emitted (session : BoltSession μ) (batch : BoltBatch) : BoltSession μ :=
  if session.pendingRow + 1 = batch.rows.length then
    { session with pendingBatch := none, pendingRow := 0 }
  else
    { session with pendingBatch := some batch, pendingRow := session.pendingRow + 1 }

/-- Some records of the result.  It is none if a row is read which a batch does not have. -/
def pullRecords (config : BoltConfig) :
    (limit : Nat) → (frames : List (List UInt8)) → (calls : List (DatabaseCall μ)) →
      (session : BoltSession μ) → Option (BoltResult μ)
  | 0, frames, calls, session =>
      some ⟨encodeBoltSuccess config.maxFrameBytes, frames, session, calls⟩
  | limit + 1, frames, calls, session =>
      match session.pendingBatch, session.cursor with
      | some batch, _ =>
          (encodeBoltRecord batch session.pendingRow config.maxFrameBytes).bind fun
            | .error status => some ⟨.error status, frames, session, calls⟩
            | .ok frame =>
                pullRecords config limit (frames ++ [frame]) calls (session.emitted batch)
      | none, some (.error status :: cursor) =>
          some ⟨.error status, frames, { session with cursor := some cursor }, calls ++ [.fetch]⟩
      | none, some (.ok batch :: cursor) =>
          let session :=
            { session with cursor := some cursor, pendingBatch := some batch, pendingRow := 0 }
          (encodeBoltRecord batch 0 config.maxFrameBytes).bind fun
            | .error status => some ⟨.error status, frames, session, calls ++ [.fetch]⟩
            | .ok frame =>
                pullRecords config limit (frames ++ [frame]) (calls ++ [.fetch])
                  (session.emitted batch)
      | none, _ =>
          some ⟨encodeBoltSuccess config.maxFrameBytes, frames,
            { session with cursor := none, pendingRow := 0 }, calls ++ [.fetch]⟩

/-- The message PULL. -/
def pull (config : BoltConfig) (payload : List UInt8) (session : BoltSession μ) :
    Option (BoltResult μ) :=
  let limit := pullLimit payload config.maxPullRecords
  if session.cursor.isNone then
    some ⟨encodeBoltSuccess config.maxFrameBytes, [], session, []⟩
  else if limit = 0 ∨ limit > config.maxPullRecords then
    some ⟨Status.invalidArgument "bolt" "invalid PULL fetch size", [], session, []⟩
  else
    session.pullRecords config limit [] []

/-- The message BEGIN. -/
def begin (session : BoltSession μ) : BoltResult μ :=
  match session.transaction with
  | some _ => ⟨Status.conflict "bolt" "transaction is already open", [], session, []⟩
  | none =>
      match answers.began with
      | .error status => ⟨.error status, [], session, [.beginTransaction answers.began]⟩
      | .ok _ => ⟨encodeBoltSuccess config.maxFrameBytes, [],
          { session with transaction := some {}, transactionDirty := false },
          [.beginTransaction answers.began]⟩

/-- The message COMMIT. -/
def commit (session : BoltSession μ) : BoltResult μ :=
  match session.transaction with
  | none => ⟨encodeBoltSuccess config.maxFrameBytes, [], session, []⟩
  | some transaction =>
      let committed := transaction.commit answers
      let calls := [DatabaseCall.commit transaction.mutations committed.1]
      -- Only a transaction which was committed leaves the session.
      let kept := { session with transaction := some committed.2 }
      match committed.1 with
      | .ok .committed => ⟨encodeBoltSuccess config.maxFrameBytes, [], session.clear, calls⟩
      | .ok (.aborted status) => ⟨.error status, [], kept, calls⟩
      | .ok (.indeterminate status) => ⟨.error status, [], kept, calls⟩
      | .error status => ⟨.error status, [], kept, calls⟩

/-- The message ROLLBACK. -/
def rollback (config : BoltConfig) (session : BoltSession μ) : BoltResult μ :=
  match session.transaction with
  | none => ⟨encodeBoltSuccess config.maxFrameBytes, [], session.clear, []⟩
  | some transaction =>
      match transaction.rollback with
      | .error status => ⟨.error status, [], session, [.rollback]⟩
      | .ok _ => ⟨encodeBoltSuccess config.maxFrameBytes, [], session.clear, [.rollback]⟩

/-- The message RESET. -/
def reset (config : BoltConfig) (session : BoltSession μ) : BoltResult μ :=
  ⟨encodeBoltSuccess config.maxFrameBytes, [], { session.clear with prepared := none },
    if session.transaction.isSome then [.rollback] else []⟩

/-- The message HELLO. -/
def hello (config : BoltConfig) (payload : List UInt8) (session : BoltSession μ) :
    Option (BoltResult μ) :=
  (authenticateBoltHello payload config.authToken).map fun
    | .error status => ⟨.error status, [], session, []⟩
    | .ok _ => ⟨encodeBoltSuccess config.maxFrameBytes, [],
        { session with authenticated := true }, []⟩

/-- One message.  The result is none if memory is read which the message or a batch does not have. -/
def processBoltMessage (payload : List UInt8) (session : BoltSession μ) : Option (BoltResult μ) :=
  match decodeBoltMessageKind payload with
  | .error status => some ⟨.error status, [], session, []⟩
  | .ok kind =>
      if kind ≠ .hello ∧ config.authToken ≠ [] ∧ !session.authenticated then
        some ⟨Status.invalidArgument "bolt" "authentication required before request", [], session,
          []⟩
      else
        match kind with
        | .hello => session.hello config payload
        | .run => some (session.run config answers payload)
        | .pull => session.pull config payload
        | .begin => some (session.begin config answers)
        | .commit => some (session.commit config answers)
        | .rollback => some (session.rollback config)
        | .reset => some (session.reset config)
        | .goodbye => some ⟨encodeBoltIgnored config.maxFrameBytes, [], session, []⟩

end BoltSession

/-! ### Authentication -/

/-- A message with what the database answers to it. -/
structure BoltExchange (μ : Type) where
  payload : List UInt8
  answers : DatabaseAnswers μ

/-- The sessions which some messages lead to. -/
inductive BoltSession.Reached (config : BoltConfig) :
    List (BoltExchange μ) → BoltSession μ → Prop where
  | start : Reached config [] {}
  | message {exchanges : List (BoltExchange μ)} {session : BoltSession μ}
      {exchange : BoltExchange μ} {result : BoltResult μ}
      (before : Reached config exchanges session)
      (processed : session.processBoltMessage config exchange.answers exchange.payload =
        some result) :
      Reached config (exchanges ++ [exchange]) result.session

/-- A message is a first one, whose credentials are the token. -/
def HasCredentials (token payload : List UInt8) : Prop :=
  ∃ hello : BoltHello, hello.payload = payload ∧ hello.credentials = some token

section Authentication

variable {config : BoltConfig} {session : BoltSession μ} {answers : DatabaseAnswers μ}
  {payload : List UInt8} {result : BoltResult μ} {exchanges : List (BoltExchange μ)}

/-- Before the client is known only the first message does anything. -/
theorem BoltSession.unchanged_of_not_authenticated (hne : config.authToken ≠ [])
    (hsession : session.authenticated = false)
    (hkind : decodeBoltMessageKind payload ≠ .ok .hello)
    (h : session.processBoltMessage config answers payload = some result) :
  result.session = session ∧ result.calls = []
  := by
  rw [processBoltMessage] at h
  cases hdecode : decodeBoltMessageKind payload with
  | error status =>
    rw [hdecode] at h
    obtain rfl := Option.some.inj h
    exact ⟨rfl, rfl⟩
  | ok kind =>
    have hother : kind ≠ .hello := by
      rintro rfl
      exact hkind hdecode
    rw [hdecode] at h
    dsimp only at h
    rw [if_pos ⟨hother, hne, by rw [hsession]; rfl⟩] at h
    obtain rfl := Option.some.inj h
    exact ⟨rfl, rfl⟩

/-- A client is known only after a first message with the token. -/
theorem BoltSession.authenticated_of_process (hne : config.authToken ≠ [])
    (hsession : session.authenticated = false)
    (h : session.processBoltMessage config answers payload = some result)
    (hresult : result.session.authenticated = true) :
  HasCredentials config.authToken payload
  := by
  by_cases hkind : decodeBoltMessageKind payload = .ok .hello
  · rw [processBoltMessage, hkind] at h
    dsimp only at h
    rw [if_neg (by simp), hello, Option.map_eq_some_iff] at h
    obtain ⟨status, hstatus, hresultEq⟩ := h
    cases status with
    | error status =>
      obtain rfl := hresultEq
      rw [hsession] at hresult
      cases hresult
    | ok value => exact exists_hello_of_authenticate hne hstatus
  · have hsame := (unchanged_of_not_authenticated hne hsession hkind h).1
    rw [hsame, hsession] at hresult
    cases hresult

/-- No client is known as long as no message has the token. -/
theorem BoltSession.Reached.not_authenticated (hne : config.authToken ≠ [])
    (hreached : Reached config exchanges session)
    (hnone : ∀ exchange ∈ exchanges, ¬ HasCredentials config.authToken exchange.payload) :
  session.authenticated = false
  := by
  induction hreached with
  | start => rfl
  | message before processed ih =>
    have hbefore := ih fun exchange hmem => hnone exchange (List.mem_append_left _ hmem)
    by_contra hresult
    rw [Bool.not_eq_false] at hresult
    exact hnone _ (by simp) (authenticated_of_process hne hbefore processed hresult)

/-- Before a message with the token nothing but a first message changes a session or asks anything
from the database, no message is read beyond its end, and the token is found in a first message unless
one of its lengths is not in a marker. -/
theorem authentication_exact_iff (hne : config.authToken ≠ []) :
  (∀ (exchanges : List (BoltExchange μ)) (session : BoltSession μ) (exchange : BoltExchange μ)
      (result : BoltResult μ), BoltSession.Reached config exchanges session →
      (∀ earlier ∈ exchanges, ¬ HasCredentials config.authToken earlier.payload) →
      decodeBoltMessageKind exchange.payload ≠ .ok .hello →
      session.processBoltMessage config exchange.answers exchange.payload = some result →
      result.session = session ∧ result.calls = []) ∧
    (∀ payload, ∃ status, authenticateBoltHello payload config.authToken = some status) ∧
      ∀ hello : BoltHello,
        (authenticateBoltHello hello.payload config.authToken = some (.ok ()) ↔
            hello.credentials = some config.authToken) ↔
          hello.Tiny ∨ hello.credentials ≠ some config.authToken
  := by
  refine ⟨?_, ?_, ?_⟩
  · intro exchanges session exchange result hreached hnone hkind hprocess
    exact BoltSession.unchanged_of_not_authenticated hne (hreached.not_authenticated hne hnone)
      hkind hprocess
  · intro payload
    exact exists_authenticateBoltHello payload config.authToken
  · intro hello
    rw [hello.authenticate_iff hne]
    tauto

/-- Sixteen bytes. -/
def longToken : List UInt8 :=
  List.replicate 16 0x61

/-- A first message with a key and the token as strings with a length of their own. -/
def longHello : BoltHello where
  marker := 0xB1
  mapForm := .tiny
  entries := [(⟨.tiny, credentialsKey, by decide⟩, ⟨.string8, longToken, by decide⟩)]
  rest := []
  tinyStruct := by decide
  fewEntries := by decide

/-- A token of sixteen bytes is not accepted. -/
theorem longHello_not_accepted :
  authenticateBoltHello longHello.payload longToken = some (.error malformedHello) ∧
    longHello.credentials = some longToken
  := by
  decide +kernel

/-- A token of one byte is accepted. -/
theorem shortToken_exact :
  authenticateBoltHello
      (BoltHello.payload ⟨0xB1, .tiny,
        [(⟨.tiny, credentialsKey, by decide⟩, ⟨.tiny, [0x61], by decide⟩)], [], by decide,
        by decide⟩) [0x61] =
    some (.ok ())
  := by
  have h := (@authentication_exact_iff Nat ⟨1024, 16, [0x61]⟩ (by decide)).2.2
    ⟨0xB1, .tiny, [(⟨.tiny, credentialsKey, by decide⟩, ⟨.tiny, [0x61], by decide⟩)], [],
      by decide, by decide⟩
  refine (h.mpr (Or.inl ?_)).mpr ?_
  · simp [BoltHello.Tiny]
  · rfl

end Authentication

end Cedar
