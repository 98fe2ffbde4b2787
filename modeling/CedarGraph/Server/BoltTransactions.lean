import CedarGraph.Server.BoltSession

/-!
# Replies about transactions

A client learns from the replies what has become of its statements.  The replies are true as long as
the database commits whatever it is given, and no statement fails after some of its mutations have
been staged in a transaction which is committed later.

Otherwise they are not.  The reply to a statement with a transaction of its own is a success even if
that transaction was aborted.  A transaction which was not committed stays in the session although it
has ended, so that the next one is refused.  What a failed statement has staged is committed together
with the rest.
-/

namespace Cedar

open BoltResult BoltSession List Option Or

open Cypher

variable {μ : Type}

/-! ### What a message does to the transaction -/

/-- Questions to the database which leave every transaction as it is or end it without a commit. -/
def DatabaseCall.isQuiet : DatabaseCall μ → Bool
  | .prepare _ => true
  | .beginTransaction (.error _) => true
  | .execute _ => true
  | .fetch => true
  | .rollback => true
  | _ => false

/-- Whatever else a message asks from the database. -/
def BoltResult.effects (result : BoltResult μ) : List (DatabaseCall μ) :=
  result.calls.filter fun call => !call.isQuiet

/-- The client is known, or need not be. -/
def BoltSession.Admitted (config : BoltConfig) (session : BoltSession μ) : Prop :=
  config.authToken = [] ∨ session.authenticated = true

/-- What a message can do to the transaction of a session, by what the message asks for. -/
inductive TransactionStep (config : BoltConfig) (session : BoltSession μ)
    (result : BoltResult μ) : StatusOr BoltMessageKind → Prop where
  | quiet {kind : StatusOr BoltMessageKind}
      (effects : result.effects = [])
      (transaction : result.session.transaction = session.transaction)
      (other : (kind ≠ .ok .commit ∧ kind ≠ .ok .rollback) ∨
        (¬ session.Admitted config ∧ result.reply.isOk = false)) :
      TransactionStep config session result kind
  | staged {transaction : BoltTransaction μ} {bindings : Bindings} {validTime : ValidTime}
      {mutations : List μ} {staged : Status}
      (before : session.transaction = some transaction)
      (after : result.session.transaction =
        some { transaction with mutations := transaction.mutations ++ mutations })
      (effects : result.effects = [.stageWrite bindings validTime mutations staged])
      (reply : result.reply.isOk ↔ staged.isOk ∧ 11 ≤ config.maxFrameBytes) :
      TransactionStep config session result (.ok .run)
  | written {bindings : Bindings} {validTime : ValidTime} {committed : StatusOr CommitVerdict}
      (transaction : result.session.transaction = session.transaction)
      (effects : result.effects = [.executeWrite bindings validTime committed])
      (reply : result.reply.isOk ↔ committed.isOk ∧ 11 ≤ config.maxFrameBytes) :
      TransactionStep config session result (.ok .run)
  | began
      (before : session.transaction = none)
      (after : result.session.transaction = some {})
      (effects : result.effects = [.beginTransaction (.ok ())]) :
      TransactionStep config session result (.ok .begin)
  | committed {transaction : BoltTransaction μ}
      (admitted : result.session.Admitted config)
      (before : session.transaction = some transaction)
      (after : result.session.transaction = none)
      (effects : result.effects = [.commit transaction.mutations (.ok .committed)])
      (reply : result.reply.isOk ↔ 3 ≤ config.maxFrameBytes) :
      TransactionStep config session result (.ok .commit)
  | failed {transaction ended : BoltTransaction μ} {verdict : StatusOr CommitVerdict}
      (admitted : session.Admitted config)
      (before : session.transaction = some transaction)
      (after : result.session.transaction = some ended)
      (effects : result.effects = [.commit transaction.mutations verdict])
      (verdict : verdict ≠ .ok .committed)
      (reply : result.reply.isOk = false) :
      TransactionStep config session result (.ok .commit)
  | cleared {kind : BoltMessageKind}
      (admitted : result.session.Admitted config)
      (effects : result.effects = [])
      (after : result.session.transaction = none)
      (other : kind ≠ .commit ∨ session.transaction = none) :
      TransactionStep config session result (.ok kind)
  | ended {transaction : BoltTransaction μ}
      (before : session.transaction = some transaction)
      (terminal : transaction.terminal = true) :
      TransactionStep config session result (.ok .rollback)

section Steps

variable {config : BoltConfig} {session : BoltSession μ} {answers : DatabaseAnswers μ}
  {payload : List UInt8} {result : BoltResult μ}

theorem isOk_encodeBoltFields_nil (maxFrameBytes : Nat) :
  (encodeBoltFields [] maxFrameBytes).isOk ↔ 11 ≤ maxFrameBytes
  := by
  rw [← encodeBoltFields_nil]
  cases encodeBoltFields [] maxFrameBytes with
  | error status | ok frame => simp [Except.isOk, Except.toBool]

theorem isOk_encodeBoltSuccess (maxFrameBytes : Nat) :
  (encodeBoltSuccess maxFrameBytes).isOk ↔ 3 ≤ maxFrameBytes
  := by
  rw [encodeBoltSuccess, encodeBoltChunk]
  by_cases hfits : 3 ≤ maxFrameBytes
  · rw [if_neg]
    · simp [hfits, Except.isOk, Except.toBool]
    · simp
      omega
  · rw [if_pos]
    · simp [hfits, Status.resourceExhausted, Except.isOk, Except.toBool]
    · simp
      omega

/-- Records are read without a transaction. -/
theorem BoltSession.pullRecords_quiet (limit : Nat) {frames : List (List UInt8)}
    {calls : List (DatabaseCall μ)} (hcalls : ∀ call ∈ calls, call.isQuiet)
    (h : session.pullRecords config limit frames calls = some result) :
  (∀ call ∈ result.calls, call.isQuiet) ∧ result.session.transaction = session.transaction
  := by
  have hemitted (session : BoltSession μ) (batch : BoltBatch) :
      (session.emitted batch).transaction = session.transaction := by
    rw [emitted]
    split
    · rfl
    · rfl
  induction limit generalizing session frames calls with
  | zero =>
    obtain rfl := some.inj h
    exact ⟨hcalls, rfl⟩
  | succ limit ih =>
    have hfetch : ∀ call ∈ calls ++ [.fetch], call.isQuiet := by
      intro call hcall
      rcases mem_append.mp hcall with hcall | hcall
      · exact hcalls call hcall
      · rw [mem_singleton.mp hcall]
        rfl
    rw [pullRecords.eq_def] at h
    dsimp only at h
    split at h
    case h_1 batch cursor hbatch =>
      rw [bind_eq_some_iff] at h
      obtain ⟨record, -, h⟩ := h
      cases record with
      | error status =>
        obtain rfl := some.inj h
        exact ⟨hcalls, rfl⟩
      | ok frame =>
        have hrest := ih hcalls h
        rw [hemitted] at hrest
        exact hrest
    case h_2 status cursor hbatch hcursor =>
      obtain rfl := some.inj h
      exact ⟨hfetch, rfl⟩
    case h_3 batch cursor hbatch hcursor =>
      rw [bind_eq_some_iff] at h
      obtain ⟨record, -, h⟩ := h
      cases record with
      | error status =>
        obtain rfl := some.inj h
        exact ⟨hfetch, rfl⟩
      | ok frame =>
        have hrest := ih hfetch h
        rw [hemitted] at hrest
        exact hrest
    case h_4 =>
      obtain rfl := some.inj h
      exact ⟨hfetch, rfl⟩

/-- What a statement does. -/
theorem BoltSession.run_step :
  TransactionStep config session (session.run config answers payload) (.ok .run)
  := by
  rw [run]
  split
  · exact .quiet rfl rfl (inl ⟨by simp, by simp⟩)
  split
  · exact .quiet rfl rfl (inl ⟨by simp, by simp⟩)
  dsimp only
  rw [runPrepared]
  split
  · exact .quiet rfl rfl (inl ⟨by simp, by simp⟩)
  split
  · split
    · exact .quiet rfl rfl (inl ⟨by simp, by simp⟩)
    rw [runWrite]
    split
    case h_1 transaction htransaction =>
      dsimp only
      split
      case h_1 status hstaged =>
        refine .staged htransaction rfl rfl ?_
        rw [hstaged]
        simp [Except.isOk, Except.toBool]
      case h_2 value hstaged =>
        refine .staged htransaction rfl rfl ?_
        rw [hstaged, isOk_encodeBoltFields_nil]
        simp [Except.isOk, Except.toBool]
    case h_2 hnone =>
      dsimp only
      split
      case h_1 status hwritten =>
        refine .written rfl rfl ?_
        rw [hwritten]
        simp [Except.isOk, Except.toBool]
      case h_2 verdict hwritten =>
        refine .written rfl rfl ?_
        rw [hwritten, isOk_encodeBoltFields_nil]
        simp [Except.isOk, Except.toBool]
  · rw [runRead]
    split
    · exact .quiet rfl rfl (inl ⟨by simp, by simp⟩)
    · exact .quiet rfl rfl (inl ⟨by simp, by simp⟩)

/-- What a message does to the transaction. -/
theorem BoltSession.processBoltMessage_step
    (h : session.processBoltMessage config answers payload = some result) :
  TransactionStep config session result (decodeBoltMessageKind payload)
  := by
  rw [processBoltMessage] at h
  cases hdecode : decodeBoltMessageKind payload with
  | error status =>
    rw [hdecode] at h
    obtain rfl := some.inj h
    exact .quiet rfl rfl (inl ⟨by simp, by simp⟩)
  | ok kind =>
    rw [hdecode] at h
    dsimp only at h
    split at h
    case isTrue hclosed =>
      obtain rfl := some.inj h
      refine .quiet rfl rfl (inr ⟨?_, rfl⟩)
      rw [Admitted]
      simpa using hclosed.2
    case isFalse hopen =>
      have hadmitted (hother : kind ≠ .hello) : session.Admitted config := by
        rw [Admitted]
        by_contra hclosed
        apply hopen
        simpa [hother] using hclosed
      cases kind with
      | hello =>
        rw [hello, map_eq_some_iff] at h
        obtain ⟨status, -, h⟩ := h
        cases status with
        | error status | ok value =>
          obtain rfl := h
          exact .quiet rfl rfl (inl ⟨by simp, by simp⟩)
      | run =>
        obtain rfl := some.inj h
        apply run_step
      | pull =>
        rw [pull] at h
        dsimp only at h
        split at h
        · obtain rfl := some.inj h
          exact .quiet rfl rfl (inl ⟨by simp, by simp⟩)
        split at h
        · obtain rfl := some.inj h
          exact .quiet rfl rfl (inl ⟨by simp, by simp⟩)
        · obtain ⟨hcalls, htransaction⟩ := pullRecords_quiet _ (by simp) h
          refine .quiet ?_ htransaction (inl ⟨by simp, by simp⟩)
          rw [effects, filter_eq_nil_iff]
          intro call hcall
          rw [hcalls call hcall]
          simp
      | begin =>
        obtain rfl := some.inj h
        rw [begin]
        split
        · exact .quiet rfl rfl (inl ⟨by simp, by simp⟩)
        case h_2 hnone =>
          split
          case h_1 status hbegan =>
            refine .quiet ?_ rfl (inl ⟨by simp, by simp⟩)
            rw [effects, hbegan]
            rfl
          case h_2 value hbegan =>
            refine .began hnone rfl ?_
            rw [effects, hbegan]
            rfl
      | commit =>
        obtain rfl := some.inj h
        rw [commit]
        split
        case h_1 hnone => exact .cleared (hadmitted (by simp)) rfl hnone (inr hnone)
        case h_2 transaction htransaction =>
          have hopen := hadmitted (by simp)
          dsimp only
          split
          case h_1 hcommitted =>
            refine .committed hopen htransaction rfl ?_ (isOk_encodeBoltSuccess _)
            rw [effects, hcommitted]
            rfl
          case h_2 status hcommitted | h_3 status hcommitted | h_4 status hcommitted =>
            refine .failed hopen htransaction rfl rfl ?_ rfl
            rw [hcommitted]
            simp
      | rollback =>
        obtain rfl := some.inj h
        rw [rollback]
        split
        · exact .cleared (hadmitted (by simp)) rfl rfl (inl (by simp))
        case h_2 transaction htransaction =>
          split
          case h_1 status hrollback =>
            refine .ended htransaction ?_
            rw [BoltTransaction.rollback] at hrollback
            split at hrollback
            case isTrue hterminal => exact hterminal
            · cases hrollback
          case h_2 => exact .cleared (hadmitted (by simp)) rfl rfl (inl (by simp))
      | reset =>
        obtain rfl := some.inj h
        refine .cleared (hadmitted (by simp)) ?_ rfl (inl (by simp))
        rw [reset, effects]
        split
        · rfl
        · rfl
      | goodbye =>
        obtain rfl := some.inj h
        exact .quiet rfl rfl (inl ⟨by simp, by simp⟩)

end Steps

/-! ### True replies -/

/-- The mutations since a transaction was begun, after another question to the database. -/
def sinceCall (counts : Status → Bool) (seen : List μ) : DatabaseCall μ → List μ
  | .beginTransaction (.ok _) => []
  | .stageWrite _ _ mutations staged => if counts staged then seen ++ mutations else seen
  | _ => seen

/-- The mutations of the statements which count since the last transaction was begun. -/
def sinceBegin (counts : BoltResult μ → Status → Bool) (history : List (BoltResult μ)) : List μ :=
  history.foldl (fun seen result => result.calls.foldl (sinceCall (counts result)) seen) []

/-- The mutations of the statements which the client takes for executed. -/
def acknowledged (history : List (BoltResult μ)) : List μ :=
  sinceBegin (fun result _ => result.reply.isOk) history

variable (config : BoltConfig) (history : List (BoltResult μ))

/-- The mutations of the statements which fail after they are staged: the database refuses another
one, or the reply is too long. -/
def strays : List μ :=
  sinceBegin (fun _ staged => !(staged.isOk && 11 ≤ config.maxFrameBytes)) history

/-- A reply after some others is true. -/
structure TruthfulReply (config : BoltConfig) (history : List (BoltResult μ))
    (session : BoltSession μ) (exchange : BoltExchange μ) (result : BoltResult μ) : Prop where
  /-- A statement with a transaction of its own succeeds only if that is committed. -/
  written : ∀ bindings validTime committed,
    .executeWrite bindings validTime committed ∈ result.calls → result.reply.isOk →
      committed = .ok .committed
  /-- A successful commit publishes what the client takes for executed. -/
  published : decodeBoltMessageKind exchange.payload = .ok .commit → session.transaction.isSome →
    result.reply.isOk → .commit (acknowledged history) (.ok .committed) ∈ result.calls
  /-- No transaction which has ended stays after a commit or a rollback. -/
  unfinished : decodeBoltMessageKind exchange.payload = .ok .commit ∨
      decodeBoltMessageKind exchange.payload = .ok .rollback →
    ∀ transaction, result.session.transaction = some transaction → transaction.terminal = false
  /-- The next transaction is begun if the database lets it. -/
  free : decodeBoltMessageKind exchange.payload = .ok .commit ∨
      decodeBoltMessageKind exchange.payload = .ok .rollback →
    session.Admitted config → ∀ next : BoltExchange μ,
      decodeBoltMessageKind next.payload = .ok .begin → next.answers.began = .ok () →
        ∃ answer, result.session.processBoltMessage config next.answers next.payload = some answer ∧
          .beginTransaction (.ok ()) ∈ answer.calls

/-- What the database has to do for a reply to be true. -/
structure Undisturbed (config : BoltConfig) (history : List (BoltResult μ))
    (result : BoltResult μ) : Prop where
  /-- The transaction of a statement is committed, at least if the client gets the reply. -/
  written : ∀ bindings validTime verdict,
    .executeWrite bindings validTime (.ok verdict) ∈ result.calls → 11 ≤ config.maxFrameBytes →
      verdict = .committed
  /-- Every other transaction is committed. -/
  committed : ∀ mutations verdict, .commit mutations verdict ∈ result.calls →
    verdict = .ok .committed
  /-- No statement of the transaction has failed half-way, at least if the client gets the reply. -/
  whole : ∀ mutations verdict, .commit mutations verdict ∈ result.calls →
    3 ≤ config.maxFrameBytes → strays config history = []

/-- Something holds of every message of a run, with the results before it. -/
def EveryReply (config : BoltConfig)
    (holds : List (BoltResult μ) → BoltSession μ → BoltExchange μ → BoltResult μ → Prop) :
    List (BoltExchange μ) → List (BoltResult μ) → BoltSession μ → Prop
  | [], _, _ => True
  | exchange :: exchanges, history, session =>
      ∀ result, session.processBoltMessage config exchange.answers exchange.payload = some result →
        holds history session exchange result ∧
          EveryReply config holds exchanges (history ++ [result]) result.session

/-- What is staged is what the client takes for executed and what failed statements have left. -/
def Accounted (session : BoltSession μ) : Prop :=
  ∀ transaction, session.transaction = some transaction →
    transaction.terminal = false ∧ (acknowledged history).Sublist transaction.mutations ∧
      (acknowledged history).length + (strays config history).length =
        transaction.mutations.length

section Replies

variable {config : BoltConfig} {session : BoltSession μ} {exchange : BoltExchange μ}
  {result : BoltResult μ} {history : List (BoltResult μ)}

theorem sinceCall_of_isQuiet {counts : Status → Bool} {seen : List μ} {call : DatabaseCall μ}
    (hquiet : call.isQuiet = true) :
  sinceCall counts seen call = seen
  := by
  cases call with
  | beginTransaction began =>
    cases began with
    | error status => rfl
    | ok value => cases hquiet
  | stageWrite bindings validTime mutations staged => cases hquiet
  | _ => rfl

/-- Questions without effect do not count. -/
theorem foldl_sinceCall_effects (counts : Status → Bool) (seen : List μ)
    (calls : List (DatabaseCall μ)) :
  calls.foldl (sinceCall counts) seen =
    (calls.filter fun call => !call.isQuiet).foldl (sinceCall counts) seen
  := by
  induction calls generalizing seen with
  | nil => rfl
  | cons call calls ih =>
    by_cases hquiet : call.isQuiet
    · rw [foldl_cons, sinceCall_of_isQuiet hquiet, ih,
        filter_cons_of_neg (by simp [hquiet])]
    · rw [foldl_cons, ih, filter_cons_of_pos (by simp [hquiet]), foldl_cons]

theorem sinceBegin_append (counts : BoltResult μ → Status → Bool) :
  sinceBegin counts (history ++ [result]) =
    result.effects.foldl (sinceCall (counts result)) (sinceBegin counts history)
  := by
  rw [sinceBegin, foldl_append, foldl_cons, foldl_nil, foldl_sinceCall_effects]
  rfl

/-- A question with an effect is one of the effects. -/
theorem BoltResult.mem_effects {call : DatabaseCall μ} (hloud : call.isQuiet = false) :
  call ∈ result.calls ↔ call ∈ result.effects
  := by
  rw [effects, mem_filter, hloud]
  simp

/-- If a transaction which was not committed stays, the next one is not begun. -/
theorem not_truthfulReply_of_some {transaction : BoltTransaction μ}
    (hadmitted : session.Admitted config)
    (hkind : decodeBoltMessageKind exchange.payload = .ok .commit)
    (hafter : result.session.transaction = some transaction) :
  ¬ TruthfulReply config history session exchange result
  := by
  intro h
  let next : BoltExchange μ := ⟨[0xB0, 0x11], { exchange.answers with began := .ok () }⟩
  obtain ⟨answer, hanswer, hbegan⟩ := h.free (inl hkind) hadmitted next rfl rfl
  -- a session with a transaction begins no other one
  have hrefused : .beginTransaction (.ok ()) ∉ answer.calls := by
    change (if _ then _ else some (result.session.begin config next.answers)) = _ at hanswer
    rw [begin, hafter] at hanswer
    split at hanswer
    · obtain rfl := some.inj hanswer
      simp
    · obtain rfl := some.inj hanswer
      simp
  exact hrefused hbegan

/-- What the database has to do depends on the questions with an effect. -/
theorem undisturbed_iff :
  Undisturbed config history result ↔
    (∀ bindings validTime verdict,
      .executeWrite bindings validTime (.ok verdict) ∈ result.effects →
        11 ≤ config.maxFrameBytes → verdict = .committed) ∧
    ∀ mutations verdict, .commit mutations verdict ∈ result.effects →
      verdict = .ok .committed ∧ (3 ≤ config.maxFrameBytes → strays config history = [])
  := by
  constructor
  · rintro ⟨hwritten, hcommitted, hwhole⟩
    use fun _ _ _ hmem => hwritten _ _ _ ((mem_effects rfl).mpr hmem)
    intro _ _ hmem
    have hcall := (mem_effects rfl).mpr hmem
    exact ⟨hcommitted _ _ hcall, hwhole _ _ hcall⟩
  · rintro ⟨hwritten, hcommit⟩
    constructor
    · exact fun _ _ _ hmem => hwritten _ _ _ ((mem_effects rfl).mp hmem)
    · exact fun _ _ hmem => (hcommit _ _ ((mem_effects rfl).mp hmem)).1
    · exact fun _ _ hmem => (hcommit _ _ ((mem_effects rfl).mp hmem)).2

/-- A reply to another message only says whether a statement was committed. -/
theorem truthfulReply_of_other {kind : StatusOr BoltMessageKind}
    (hkind : decodeBoltMessageKind exchange.payload = kind)
    (hother : kind ≠ .ok .commit ∧ kind ≠ .ok .rollback)
    (hwritten : ∀ bindings validTime committed,
      .executeWrite bindings validTime committed ∈ result.effects → result.reply.isOk →
        committed = .ok .committed) :
  TruthfulReply config history session exchange result
  where
  written _ _ _ hmem :=
    hwritten _ _ _ ((mem_effects rfl).mp hmem)
  published hcommit := (hother.1 (hkind.symm.trans hcommit)).elim
  unfinished hend :=
    (hend.elim (fun h => hother.1 (hkind.symm.trans h)) fun h => hother.2 (hkind.symm.trans h)).elim
  free hend :=
    (hend.elim (fun h => hother.1 (hkind.symm.trans h)) fun h => hother.2 (hkind.symm.trans h)).elim

/-- A reply is true if no transaction is left and the commit was whole. -/
theorem truthfulReply_of_none (hnone : result.session.transaction = none)
    (hadmitted : result.session.Admitted config)
    (hwritten : ∀ bindings validTime committed,
      .executeWrite bindings validTime committed ∉ result.effects)
    (hpublished : decodeBoltMessageKind exchange.payload = .ok .commit →
      session.transaction.isSome → result.reply.isOk →
        .commit (acknowledged history) (.ok .committed) ∈ result.calls) :
  TruthfulReply config history session exchange result
  where
  written _ _ _ hmem :=
    (hwritten _ _ _ ((mem_effects rfl).mp hmem)).elim
  published := hpublished
  unfinished _ transaction hsome := by
    rw [hnone] at hsome
    cases hsome
  free _ _ next hbegin hbegan := by
    refine ⟨result.session.begin config next.answers, ?_, ?_⟩
    · rw [processBoltMessage, hbegin]
      dsimp only
      rw [if_neg]
      rintro ⟨-, hne, hunknown⟩
      rcases hadmitted with hempty | hknown
      · exact hne hempty
      · simp [hknown] at hunknown
    · rw [begin, hnone, hbegan]
      simp

/-- A reply is true exactly if the database does what it has to. -/
theorem truthfulReply_iff (haccounted : Accounted config history session)
    (h : session.processBoltMessage config exchange.answers exchange.payload = some result) :
  TruthfulReply config history session exchange result ↔ Undisturbed config history result
  := by
  have hstep := processBoltMessage_step h
  generalize hkind : decodeBoltMessageKind exchange.payload = kind at hstep
  cases hstep with
  | quiet effects transaction other =>
    apply iff_of_true
    · rcases other with other | ⟨hclosed, hreply⟩
      · exact truthfulReply_of_other hkind other (by simp [effects])
      · refine ⟨?_, ?_, ?_, ?_⟩
        · simp [hreply]
        · simp [hreply]
        · intro _ left hleft
          rw [transaction] at hleft
          exact (haccounted left hleft).1
        · exact fun _ hadmitted => (hclosed hadmitted).elim
    · simp [undisturbed_iff, effects]
  | staged before after effects reply | began before after effects =>
    apply iff_of_true
    · exact truthfulReply_of_other hkind ⟨by simp, by simp⟩ (by simp [effects])
    · simp [undisturbed_iff, effects]
  | @written bindings validTime committed transaction effects reply =>
    have hmem : .executeWrite bindings validTime committed ∈ result.calls := by
      rw [mem_effects rfl, effects]
      simp
    constructor
    · intro htrue
      rw [undisturbed_iff, effects]
      refine ⟨?_, by simp⟩
      intro _ _ verdict hverdict hfits
      obtain ⟨rfl, rfl, rfl⟩ := mem_singleton.mp hverdict
      apply Except.ok.inj (htrue.written _ _ _ hmem (reply.mpr ⟨rfl, hfits⟩))
    · intro hdone
      refine truthfulReply_of_other hkind ⟨by simp, by simp⟩ ?_
      intro _ _ other hother hreply
      rw [effects, mem_singleton] at hother
      obtain ⟨rfl, rfl, rfl⟩ := hother
      obtain ⟨hok, hfits⟩ := reply.mp hreply
      cases committed with
      | error status => cases hok
      | ok verdict => rw [hdone.written _ _ _ hmem hfits]
  | @committed transaction admitted before after effects reply =>
    have hpublished : .commit (acknowledged history) (.ok .committed) ∈ result.calls ↔
        strays config history = [] := by
      rw [mem_effects rfl, effects, mem_singleton, DatabaseCall.commit.injEq, and_iff_left rfl]
      obtain ⟨-, hsublist, hlength⟩ := haccounted transaction before
      constructor
      · intro heq
        rw [heq] at hlength
        exact eq_nil_of_length_eq_zero (by omega)
      · intro hnil
        rw [hnil] at hlength
        exact hsublist.eq_of_length hlength
    constructor
    · intro htrue
      rw [undisturbed_iff, effects]
      refine ⟨by simp, ?_⟩
      intro mutations verdict hcommit
      obtain ⟨rfl, rfl⟩ := mem_singleton.mp hcommit
      use rfl
      intro hfits
      rw [← hpublished]
      exact htrue.published hkind (by rw [before]; rfl) (reply.mpr hfits)
    · intro hdone
      apply truthfulReply_of_none after admitted (by simp [effects])
      intro _ _ hreply
      rw [hpublished]
      refine hdone.whole transaction.mutations (.ok .committed) ?_ (reply.mp hreply)
      rw [mem_effects rfl, effects]
      simp
  | @failed transaction ended verdict admitted before after effects hverdict reply =>
    apply iff_of_false
    · exact not_truthfulReply_of_some admitted hkind after
    · intro hdone
      refine hverdict (hdone.committed transaction.mutations verdict ?_)
      rw [mem_effects rfl, effects]
      simp
  | cleared admitted effects after other =>
    apply iff_of_true
    · apply truthfulReply_of_none after admitted (by simp [effects])
      intro hcommit hsome _
      rw [hkind] at hcommit
      rcases other with other | other
      · cases other (Except.ok.inj hcommit)
      · rw [other] at hsome
        cases hsome
    · simp [undisturbed_iff, effects]
  | ended before terminal =>
    rw [(haccounted _ before).1] at terminal
    cases terminal

/-- As long as replies are true, what is staged is accounted for. -/
theorem Accounted.step (haccounted : Accounted config history session)
    (h : session.processBoltMessage config exchange.answers exchange.payload = some result)
    (htrue : TruthfulReply config history session exchange result) :
  Accounted config (history ++ [result]) result.session
  := by
  have hstep := processBoltMessage_step h
  generalize hkind : decodeBoltMessageKind exchange.payload = kind at hstep
  intro left hleft
  rw [acknowledged, strays, sinceBegin_append, sinceBegin_append]
  cases hstep with
  | quiet effects transaction other | written transaction effects reply =>
    rw [transaction] at hleft
    rw [effects]
    exact haccounted left hleft
  | @staged transaction bindings validTime mutations staged before after effects reply =>
    obtain ⟨hterminal, hsublist, hlength⟩ := haccounted transaction before
    rw [after] at hleft
    obtain rfl := some.inj hleft
    rw [effects, foldl_cons, foldl_nil, foldl_cons, foldl_nil]
    dsimp only [sinceCall]
    refine ⟨hterminal, ?_⟩
    by_cases hdone : staged.isOk ∧ 11 ≤ config.maxFrameBytes
    · rw [if_pos (reply.mpr hdone), if_neg (by simp [hdone]), length_append,
        length_append]
      refine ⟨hsublist.append (Sublist.refl _), ?_⟩
      rw [acknowledged, strays] at hlength
      omega
    · rw [if_neg (fun hreply => hdone (reply.mp hreply)), if_pos,
        length_append, length_append]
      · refine ⟨hsublist.trans (sublist_append_left _ _), ?_⟩
        rw [acknowledged, strays] at hlength
        omega
      · rw [not_and_or] at hdone
        simpa using hdone
  | began before after effects =>
    rw [after] at hleft
    obtain rfl := some.inj hleft
    rw [effects]
    exact ⟨rfl, Sublist.refl _, rfl⟩
  | committed admitted before after effects reply | cleared admitted effects after other =>
    rw [after] at hleft
    cases hleft
  | failed admitted before after effects hverdict reply =>
    cases not_truthfulReply_of_some admitted hkind after htrue
  | ended before terminal =>
    rw [(haccounted _ before).1] at terminal
    cases terminal

/-- All replies of a run are true exactly if the database does what it has to at every message. -/
theorem everyReply_truthful_iff (config : BoltConfig) (exchanges : List (BoltExchange μ)) :
  EveryReply config (TruthfulReply config) exchanges [] {} ↔
    EveryReply config (fun history _ _ result => Undisturbed config history result) exchanges [] {}
  := by
  have haccounted : Accounted config [] ({} : BoltSession μ) := by
    intro transaction hsome
    cases hsome
  generalize ([] : List (BoltResult μ)) = history at haccounted ⊢
  generalize ({} : BoltSession μ) = session at haccounted ⊢
  induction exchanges generalizing history session with
  | nil => rfl
  | cons exchange exchanges ih =>
    apply forall₂_congr
    intro result hresult
    dsimp only
    rw [← truthfulReply_iff haccounted hresult]
    apply and_congr_right
    intro htrue
    apply ih _ _ (haccounted.step hresult htrue)

end Replies

/-! ### False replies -/

/-- The statement `CREATE (a) DELETE a`.  Its vertex is staged, and the second mutation of the same
fact is refused. -/
def createDelete : BoundStatement where
  kind := .write
  patterns := [⟨[0x61], [], [], [], [0x61], [], 1, 1, false, none, none, none, none⟩]
  deletions := [[0x61]]

/-- Frames of 1024 bytes and no token. -/
def openConfig : BoltConfig := ⟨1024, 16, []⟩

/-- The database prepares a statement, begins a transaction and stages the vertex 1. -/
def createAnswers (staged : Status) (committed : StatusOr CommitVerdict) : DatabaseAnswers FactRef :=
  ⟨.ok createDelete, .ok (), [⟨0, .vertexState, 0, 1⟩], staged, committed, .ok []⟩

def runMessage : List UInt8 :=
  [0xB3, 0x10, 0xD0, 0x13, 0x43, 0x52, 0x45, 0x41, 0x54, 0x45, 0x20, 0x28, 0x61, 0x29, 0x20, 0x44,
    0x45, 0x4C, 0x45, 0x54, 0x45, 0x20, 0x61, 0xA0, 0xA0]

def duplicateMutation : StatusError :=
  ⟨.invalidArgument, "transaction", "duplicate fact mutation"⟩

def underPressure : StatusError :=
  ⟨.resourceExhausted, "commit", "append admission is under pressure"⟩

/-- The messages BEGIN, RUN and COMMIT, where the statement fails after its vertex is staged. -/
def partialRun : List (BoltExchange FactRef) :=
  [⟨[0xB1, 0x11, 0xA0], createAnswers (.ok ()) (.ok .committed)⟩,
    ⟨runMessage, createAnswers (.error duplicateMutation) (.ok .committed)⟩,
    ⟨[0xB0, 0x12], createAnswers (.ok ()) (.ok .committed)⟩]

/-- The message RUN, where the transaction of the statement is aborted. -/
def abortedRun : List (BoltExchange FactRef) :=
  [⟨runMessage, createAnswers (.ok ()) (.ok (.aborted underPressure))⟩]

/-- The messages BEGIN and COMMIT, where the transaction is aborted. -/
def endedRun : List (BoltExchange FactRef) :=
  [⟨[0xB1, 0x11, 0xA0], createAnswers (.ok ()) (.ok .committed)⟩,
    ⟨[0xB0, 0x12], createAnswers (.ok ()) (.ok (.aborted underPressure))⟩]

/-- The vertex of the failed statement is published, an aborted statement is answered with success, and
an aborted transaction stays in its session. -/
theorem replies_not_truthful :
  ¬ EveryReply openConfig (TruthfulReply openConfig) partialRun [] {} ∧
    ¬ EveryReply openConfig (TruthfulReply openConfig) abortedRun [] {} ∧
      ¬ EveryReply openConfig (TruthfulReply openConfig) endedRun [] {}
  := by
  refine ⟨?_, ?_, ?_⟩
  · intro h
    have hcommit := ((((h _ rfl).2 _ rfl).2) _ rfl).1.published rfl rfl rfl
    revert hcommit
    decide +kernel
  · intro h
    have hwritten := (h _ rfl).1.written [] 0 (.ok (.aborted underPressure)) (by decide +kernel) rfl
    cases hwritten
  · intro h
    have hended := ((h _ rfl).2 _ rfl).1.unfinished (inl rfl) ⟨true, []⟩ rfl
    cases hended

end Cedar
