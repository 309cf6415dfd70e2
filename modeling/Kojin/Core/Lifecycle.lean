/-
  Core/Lifecycle.lean --- the stages one execution goes through.

  `executeTask` is a tree of calls; what other programs of a deployment can see
  of it is how far it has come.  The protocol of this file names the stages,
  keeps at each the copy of the message the execution has in hand, and says which
  call leads from one stage to the next:

      received ─ postponed ─ released ─ gone                  eta guard
      received ─ running ─ failed ─ toRetry | toBury ─ gone   failure
      running ─ succeeded ─ acked ─ stored ─ wrapping ─ finished
                                    calling ─ collected       last member
                                    minting ─ continuing      chain

  At `gone` the execution has given its message back to the broker; at every
  other stage the message is still its own.

  `executeTask_follows` is the link to the code.  Everything proved about runs is
  proved about stages and reaches the code through it.
-/
import Kojin.Core.Worker

set_option autoImplicit false

namespace Kojin.Core

open Kojin.Foundation

/-! ## Stages -/

/-- How far an execution has come.  The flag says whether its worker has a result
backend; it is dropped where it no longer matters. -/
inductive Stage where
  | received (hasBackend : Bool) (m : TaskMessage)
  | cleared (hasBackend : Bool) (m : TaskMessage)
  | postponed (m : TaskMessage) (eta : DateTime)
  | released (m : TaskMessage) (eta : DateTime)
  | running (hasBackend : Bool) (m : TaskMessage)
  | erred (m : TaskMessage)
  | failed (m : TaskMessage)
  | toRetry (m : TaskMessage)
  | toBury (m : TaskMessage)
  | succeeded (hasBackend : Bool) (m : TaskMessage) (result : Json)
  | acked (hasBackend : Bool) (m : TaskMessage) (result : Json)
  | stored (m : TaskMessage) (result : Json)
  | calling (m : TaskMessage) (result : Json) (callback : TaskMessage)
  | collected (m : TaskMessage) (result : Json) (callback : TaskMessage)
  | wrapping (m : TaskMessage) (result : Json)
  | minting (m : TaskMessage) (result : Json) (now : DateTime)
  | continuing (m : TaskMessage) (result : Json) (next : TaskMessage)
  | chained (m : TaskMessage) (result : Json)
  | finished (m : TaskMessage) (result : Json)
  | gone

/-- The log lines that mark the way from one stage to the next. -/
def TraceEvent.isMark : TraceEvent → Bool
  | .executing _ => true
  | .beforeFailed _ _ => true
  | .taskFailed _ _ _ => true
  | .completed _ => true
  | _ => false

/-- The chain step a successful execution owes: the first of the remaining
signatures and those behind it. -/
def Codec.chainNext (codec : Codec) (m : TaskMessage) : Option (Signature × List Signature) :=
  match m.headers.lookup "kojin.chain_next" with
  | none => none
  | some json =>
      match codec.decodeSignatures json with
      | .ok (sig :: rest) => some (sig, rest)
      | _ => none

theorem chainNext_eq_some {codec : Codec} {m : TaskMessage} {sig : Signature}
    {rest : List Signature} (h : codec.chainNext m = some (sig, rest)) :
    ∃ json, m.headers.lookup "kojin.chain_next" = some json ∧
      codec.decodeSignatures json = .ok (sig :: rest) := by
  unfold Codec.chainNext at h
  split at h
  · cases h
  · rename_i json hlookup
    split at h
    · rename_i hdecode
      cases h
      exact ⟨json, hlookup, hdecode⟩
    · cases h

/-- The callback a member owes when the backend counts it as number `completed`. -/
def TaskMessage.callbackDue (m : TaskMessage) (completed : UInt32) : Option TaskMessage :=
  if completed = m.groupTotal.getD 0 then m.chordCallback else none

/-- The copy of the message on the success path. -/
def TaskMessage.succeed (m : TaskMessage) : TaskMessage := { m with state := .success }

/-! ## Steps -/

section Lifecycle

variable (codec : Codec)

/-- Which call leads from which stage to which. -/
inductive Stage.Step : Stage → (op : traits.Op) → traits.Res op → Stage → Prop where
  -- log lines and hooks on the way
  | note (t : Stage) {e : TraceEvent} (h : e.isMark = false) :
      Step t (.runtime (.trace e)) () t
  | before (b : Bool) (m : TaskMessage) (mw : Nat) (x : TaskMessage) (r : TaskResult Unit) :
      Step (.running b m) (.runtime (.before mw x)) r (.running b m)
  | onError (m : TaskMessage) (mw : Nat) (x : TaskMessage) (e : KojinError)
      (r : TaskResult Unit) :
      Step (.failed m) (.runtime (.onError mw x e)) r (.failed m)
  | after (b : Bool) (m : TaskMessage) (result : Json) (mw : Nat) (x : TaskMessage)
      (y : Json) (r : TaskResult Unit) :
      Step (.succeeded b m result) (.runtime (.after mw x y)) r (.succeeded b m result)
  -- the eta guard
  | postpone (b : Bool) {m : TaskMessage} {eta now : DateTime} :
      m.eta = some eta → now.nanos < eta.nanos →
      Step (.received b m) (.runtime .utcNow) now (.postponed m eta)
  | clear (b : Bool) {m : TaskMessage} {eta now : DateTime} :
      m.eta = some eta → ¬ now.nanos < eta.nanos →
      Step (.received b m) (.runtime .utcNow) now (.cleared b m)
  | release (m : TaskMessage) (eta : DateTime) (r : TaskResult Unit) :
      Step (.postponed m eta) (.broker (.ack m.id)) r (.released m eta)
  | reschedule (m : TaskMessage) (eta : DateTime) (r : TaskResult Unit) :
      Step (.released m eta) (.broker (.schedule m eta)) r .gone
  -- the handler
  | execute (b : Bool) {m : TaskMessage} :
      m.eta = none → Step (.received b m) (.runtime (.trace (.executing m))) () (.running b m)
  | executeCleared (b : Bool) (m : TaskMessage) :
      Step (.cleared b m) (.runtime (.trace (.executing m))) () (.running b m)
  | handled (b : Bool) (m : TaskMessage) (result : Json) :
      Step (.running b m) (.runtime (.handle m.start m.taskName m.payload)) (.ok result)
        (.succeeded b m result)
  | err (b : Bool) (m : TaskMessage) (e : KojinError) :
      Step (.running b m) (.runtime (.handle m.start m.taskName m.payload)) (.error e) (.erred m)
  -- failure
  | beforeFailed (b : Bool) (m : TaskMessage) (e : KojinError) :
      Step (.running b m) (.runtime (.trace (.beforeFailed m.id e))) () (.failed m)
  | notFound (b : Bool) (m : TaskMessage) (e : KojinError) :
      Step (.running b m) (.runtime (.trace (.taskFailed m.id m.taskName e))) () (.failed m)
  | taskFailed (m : TaskMessage) (e : KojinError) :
      Step (.erred m) (.runtime (.trace (.taskFailed m.id m.taskName e))) () (.failed m)
  | retry {m : TaskMessage} (now : DateTime) :
      m.retries < m.maxRetries →
      Step (.failed m) (.runtime .utcNow) now (.toRetry (m.retryCopy now))
  | bury {m : TaskMessage} (now : DateTime) :
      ¬ m.retries < m.maxRetries →
      Step (.failed m) (.runtime .utcNow) now (.toBury (m.buriedCopy now))
  | sleep (m : TaskMessage) :
      Step (.toRetry m) (.runtime (.sleep (BackoffStrategy.default.delayFor (m.retries - 1)))) ()
        (.toRetry m)
  | nack (m : TaskMessage) (r : TaskResult Unit) :
      Step (.toRetry m) (.broker (.nack m)) r .gone
  | deadLetter (m : TaskMessage) (r : TaskResult Unit) :
      Step (.toBury m) (.broker (.deadLetter m)) r .gone
  -- success
  | ack (b : Bool) (m : TaskMessage) (result : Json) (r : TaskResult Unit) :
      Step (.succeeded b m result) (.broker (.ack m.id)) r (.acked b m result)
  | completeWithoutBackend (m : TaskMessage) (result : Json) :
      Step (.acked false m result) (.runtime (.trace (.completed m.succeed))) ()
        (.finished m result)
  | storeMember {m : TaskMessage} {group : String} (result : Json) (r : TaskResult Unit) :
      m.groupId = some group →
      Step (.acked true m result) (.backend (.store m.id result)) r (.stored m result)
  | storeLone {m : TaskMessage} (result : Json) (r : TaskResult Unit) :
      m.groupId = none →
      Step (.acked true m result) (.backend (.store m.id result)) r (.wrapping m result)
  | countLast {m callback : TaskMessage} {group : String} (result : Json) {c : UInt32} :
      m.groupId = some group → m.callbackDue c = some callback →
      Step (.stored m result) (.backend (.completeGroupMember group m.id result)) (.ok c)
        (.calling m result callback)
  | countOther {m : TaskMessage} {group : String} (result : Json) {c : UInt32} :
      m.groupId = some group → m.callbackDue c = none →
      Step (.stored m result) (.backend (.completeGroupMember group m.id result)) (.ok c)
        (.wrapping m result)
  | countFailed {m : TaskMessage} {group : String} (result : Json) (e : KojinError) :
      m.groupId = some group →
      Step (.stored m result) (.backend (.completeGroupMember group m.id result)) (.error e)
        (.wrapping m result)
  | collect {m : TaskMessage} {group : String} (result : Json) (callback : TaskMessage)
      (r : TaskResult (List Json)) :
      m.groupId = some group →
      Step (.calling m result callback) (.backend (.getGroupResults group)) r
        (.collected m result (callback.withGroupResults r))
  | callback (m : TaskMessage) (result : Json) (cb : TaskMessage) (r : TaskResult Unit) :
      Step (.collected m result cb) (.broker (.enqueue cb)) r (.wrapping m result)
  | mint {m : TaskMessage} {sig : Signature} {rest : List Signature} (result : Json)
      (now : DateTime) :
      codec.chainNext m = some (sig, rest) →
      Step (.wrapping m result) (.runtime .utcNow) now (.minting m result now)
  | name {m : TaskMessage} {sig : Signature} {rest : List Signature} (result : Json)
      (now : DateTime) (id : TaskId) :
      codec.chainNext m = some (sig, rest) →
      Step (.minting m result now) (.runtime .newTaskId) id
        (.continuing m result (m.chainStep codec result sig rest now id))
  | chain (m : TaskMessage) (result : Json) (next : TaskMessage) (r : TaskResult Unit) :
      Step (.continuing m result next) (.broker (.enqueue next)) r (.chained m result)
  | complete {m : TaskMessage} (result : Json) :
      codec.chainNext m = none →
      Step (.wrapping m result) (.runtime (.trace (.completed m.succeed))) ()
        (.finished m result)
  | completeChained (m : TaskMessage) (result : Json) :
      Step (.chained m result) (.runtime (.trace (.completed m.succeed))) ()
        (.finished m result)

/-- Where an execution may stop. -/
def Stage.Final : Stage → Prop
  | .finished _ _ => True
  | .gone => True
  | _ => False

/-- The protocol of `executeTask`. -/
abbrev lifecycle : Protocol traits := ⟨Stage, Stage.Step codec, Stage.Final⟩

end Lifecycle

/-! ## The code follows the protocol -/

section Follows

variable {codec : Codec}

/-- A call of the runtime, and what follows it. -/
theorem wp_runtime {α : Type} {op : RuntimeOp} {f : op.Res → Prog traits α} {t : Stage}
    {Q : α → Stage → Prop}
    (h : ∀ r : op.Res, ∃ t', Stage.Step codec t (.runtime op) r t' ∧
      (f r).wp (lifecycle codec) t' Q) :
    (runtime op >>= f).wp (lifecycle codec) t Q := h

/-- A call of the broker, and what follows it. -/
theorem wp_broker {α : Type} {op : BrokerOp} {f : TaskResult Unit → Prog traits α} {t : Stage}
    {Q : α → Stage → Prop}
    (h : ∀ r : TaskResult Unit, ∃ t', Stage.Step codec t (.broker op) r t' ∧
      (f r).wp (lifecycle codec) t' Q) :
    (broker op >>= f).wp (lifecycle codec) t Q := h

/-- A call of the backend, and what follows it. -/
theorem wp_backend {α : Type} {op : ResultBackendOp} {f : op.Res → Prog traits α} {t : Stage}
    {Q : α → Stage → Prop}
    (h : ∀ r : op.Res, ∃ t', Stage.Step codec t (.backend op) r t' ∧
      (f r).wp (lifecycle codec) t' Q) :
    (backend op >>= f).wp (lifecycle codec) t Q := h

theorem wp_log {t : Stage} {e : TraceEvent} (h : e.isMark = false)
    {Q : Unit → Stage → Prop} (hQ : Q () t) : (log e).wp (lifecycle codec) t Q :=
  fun _ => ⟨t, .note t h, hQ⟩

theorem wp_logError {t : Stage} {r : TaskResult Unit} {event : KojinError → TraceEvent}
    (h : ∀ e, (event e).isMark = false) {Q : Unit → Stage → Prop} (hQ : Q () t) :
    (logError r event).wp (lifecycle codec) t Q := by
  cases r with
  | ok _ => exact hQ
  | error e => exact wp_log (h e) hQ

/-- A log line that is no mark leaves the stage as it is. -/
theorem wp_log_bind {α : Type} {t : Stage} {e : TraceEvent} (h : e.isMark = false)
    {f : Unit → Prog traits α} {Q : α → Stage → Prop}
    (hf : (f ()).wp (lifecycle codec) t Q) : (log e >>= f).wp (lifecycle codec) t Q :=
  (Prog.wp_bind _ _ _ _).mpr (wp_log h hf)

theorem wp_logError_bind {α : Type} {t : Stage} {r : TaskResult Unit}
    {event : KojinError → TraceEvent} (h : ∀ e, (event e).isMark = false)
    {f : Unit → Prog traits α} {Q : α → Stage → Prop}
    (hf : (f ()).wp (lifecycle codec) t Q) :
    (logError r event >>= f).wp (lifecycle codec) t Q :=
  (Prog.wp_bind _ _ _ _).mpr (wp_logError h hf)

/-- Sequential composition where the first part ends at a known stage. -/
theorem wp_then {α β : Type} {p : Prog traits α} {f : α → Prog traits β} {t t' : Stage}
    {Q : β → Stage → Prop} (h : p.wp (lifecycle codec) t fun _ u => u = t')
    (hf : ∀ a, (f a).wp (lifecycle codec) t' Q) : (p >>= f).wp (lifecycle codec) t Q := by
  refine Prog.wp_seq h ?_
  intro a u hu
  rw [hu]
  exact hf a

/-- The `on_error` hooks change nothing. -/
theorem runOnError_wp (m x : TaskMessage) (e : KojinError) (mws : List Nat) :
    (runOnError x e mws).wp (lifecycle codec) (.failed m) fun _ u => u = .failed m := by
  induction mws with
  | nil => rfl
  | cons mw rest ih =>
      apply wp_runtime
      intro r
      refine ⟨.failed m, .onError m mw x e r, ?_⟩
      exact wp_logError_bind (fun _ => rfl) ih

/-- With retries left the updated copy goes back through `nack`. -/
theorem retry_wp {m : TaskMessage} (h : m.retries < m.maxRetries) :
    (retry m.start).wp (lifecycle codec) (.failed m) fun _ u => u = .gone := by
  apply wp_runtime
  intro now
  refine ⟨.toRetry (m.retryCopy now), .retry now h, wp_log_bind rfl ?_⟩
  apply wp_runtime
  intro _
  refine ⟨.toRetry (m.retryCopy now), .sleep (m.retryCopy now), ?_⟩
  apply wp_broker
  intro r
  exact ⟨.gone, .nack (m.retryCopy now) r, wp_logError (fun _ => rfl) rfl⟩

/-- With none left it goes to the dead-letter queue. -/
theorem bury_wp {m : TaskMessage} (h : ¬ m.retries < m.maxRetries) :
    (bury m.start).wp (lifecycle codec) (.failed m) fun _ u => u = .gone := by
  apply wp_runtime
  intro now
  refine ⟨.toBury (m.buriedCopy now), .bury now h, wp_log_bind rfl ?_⟩
  apply wp_broker
  intro r
  exact ⟨.gone, .deadLetter (m.buriedCopy now) r, wp_logError (fun _ => rfl) rfl⟩

theorem handleFailure_wp (w : Worker) (m : TaskMessage) (e : KojinError) :
    (handleFailure w m.start e).wp (lifecycle codec) (.failed m) fun _ u => u = .gone := by
  refine wp_then (runOnError_wp m m.start e w.middlewares) ?_
  intro _
  by_cases h : m.retries < m.maxRetries
  · rw [if_pos (show m.start.retries < m.start.maxRetries from h)]
    exact retry_wp h
  · rw [if_neg (show ¬ m.start.retries < m.start.maxRetries from h)]
    exact bury_wp h

/-- The `after` hooks change nothing. -/
theorem runAfter_wp (b : Bool) (m x : TaskMessage) (result : Json) (mws : List Nat) :
    (runAfter x result mws).wp (lifecycle codec) (.succeeded b m result)
      fun _ u => u = .succeeded b m result := by
  induction mws with
  | nil => rfl
  | cons mw rest ih =>
      apply wp_runtime
      intro r
      refine ⟨.succeeded b m result, .after b m result mw x result r, ?_⟩
      exact wp_logError_bind (fun _ => rfl) ih

theorem enqueueCallback_wp {m : TaskMessage} {group : String} (hg : m.groupId = some group)
    (result : Json) (callback : TaskMessage) :
    (enqueueCallback group callback).wp (lifecycle codec) (.calling m result callback)
      fun _ u => u = .wrapping m result := by
  apply wp_backend
  intro results
  refine ⟨.collected m result (callback.withGroupResults results),
    .collect result callback results hg, ?_⟩
  apply wp_broker
  intro r
  refine ⟨.wrapping m result, .callback m result _ r, ?_⟩
  cases r with
  | ok _ => exact wp_log rfl rfl
  | error e => exact wp_log rfl rfl

/-- What the answer of the backend leads to. -/
theorem onMemberCompleted_wp {m : TaskMessage} {group : String} (hg : m.groupId = some group)
    (result : Json) {c : UInt32} {t : Stage}
    (h : t = (m.callbackDue c).elim (.wrapping m result) (.calling m result)) :
    (onMemberCompleted m.succeed group (.ok c)).wp (lifecycle codec) t
      fun _ u => u = .wrapping m result := by
  apply wp_log_bind rfl
  by_cases hc : c = m.groupTotal.getD 0
  · rw [if_pos (show c = m.succeed.groupTotal.getD 0 from hc)]
    rw [TaskMessage.callbackDue, if_pos hc] at h
    have hcb : m.succeed.chordCallback = m.chordCallback := rfl
    rw [hcb, h]
    cases m.chordCallback with
    | none => rfl
    | some callback => exact enqueueCallback_wp hg result callback
  · rw [if_neg (show ¬ c = m.succeed.groupTotal.getD 0 from hc)]
    rw [TaskMessage.callbackDue, if_neg hc] at h
    exact h

/-- Counting a member leads past the group, through the callback if this was the
last member. -/
theorem completeGroup_wp {m : TaskMessage} {group : String} (hg : m.groupId = some group)
    (result : Json) :
    (completeGroup m.succeed result).wp (lifecycle codec) (.stored m result)
      fun _ u => u = .wrapping m result := by
  have hgroup : m.succeed.groupId = some group := hg
  unfold completeGroup
  rw [hgroup]
  apply wp_backend
  intro completed
  cases completed with
  | error e => exact ⟨.wrapping m result, .countFailed result e hg, wp_log rfl rfl⟩
  | ok c =>
      cases hdue : m.callbackDue c with
      | none =>
          refine ⟨.wrapping m result, .countOther result hg hdue, ?_⟩
          exact onMemberCompleted_wp hg result (by rw [hdue]; rfl)
      | some callback =>
          refine ⟨.calling m result callback, .countLast result hg hdue, ?_⟩
          exact onMemberCompleted_wp hg result (by rw [hdue]; rfl)

/-- The stages from which an execution has only its last log line to write. -/
def Stage.Closing (codec : Codec) (m : TaskMessage) (result : Json) (u : Stage) : Prop :=
  (u = .wrapping m result ∧ codec.chainNext m = none) ∨ u = .chained m result ∨
    u = .acked false m result

/-- The chain goes on exactly when a step is owed. -/
theorem continueChain_wp (m : TaskMessage) (result : Json) :
    (continueChain codec m.succeed result).wp (lifecycle codec) (.wrapping m result)
      fun _ u => u.Closing codec m result := by
  have hheaders : m.succeed.headers = m.headers := rfl
  unfold continueChain
  rw [hheaders]
  cases hlookup : m.headers.lookup "kojin.chain_next" with
  | none => exact .inl ⟨rfl, by simp [Codec.chainNext, hlookup]⟩
  | some json =>
      cases hdecode : codec.decodeSignatures json with
      | error e =>
          simp only [hdecode]
          apply wp_log rfl
          exact .inl ⟨rfl, by simp [Codec.chainNext, hlookup, hdecode]⟩
      | ok sigs =>
          cases sigs with
          | nil =>
              simp only [hdecode]
              exact .inl ⟨rfl, by simp [Codec.chainNext, hlookup, hdecode]⟩
          | cons sig rest =>
              simp only [hdecode]
              have hnext : codec.chainNext m = some (sig, rest) := by
                simp [Codec.chainNext, hlookup, hdecode]
              apply wp_runtime
              intro now
              refine ⟨.minting m result now, .mint result now hnext, ?_⟩
              apply wp_runtime
              intro id
              refine ⟨.continuing m result _, .name result now id hnext, ?_⟩
              apply wp_broker
              intro r
              refine ⟨.chained m result, .chain m result _ r, ?_⟩
              cases r with
              | ok _ => exact wp_log rfl (.inr (.inl rfl))
              | error e => exact wp_log rfl (.inr (.inl rfl))

/-- Everything between the acknowledgement and the last log line. -/
theorem followUp_wp (w : Worker) (m : TaskMessage) (result : Json) :
    (followUp w codec m.succeed result).wp (lifecycle codec) (.acked w.hasBackend m result)
      fun _ u => u.Closing codec m result := by
  unfold followUp
  cases w.hasBackend with
  | false => exact .inr (.inr rfl)
  | true =>
      rw [if_pos rfl]
      apply wp_backend
      intro r
      cases hg : m.groupId with
      | none =>
          have hgroup : m.succeed.groupId = none := hg
          refine ⟨.wrapping m result, .storeLone result r hg, ?_⟩
          apply wp_logError_bind (fun _ => rfl)
          unfold completeGroup
          rw [hgroup]
          exact continueChain_wp m result
      | some group =>
          refine ⟨.stored m result, .storeMember result r hg, ?_⟩
          apply wp_logError_bind (fun _ => rfl)
          refine wp_then (completeGroup_wp hg result) ?_
          intro _
          exact continueChain_wp m result

/-- The last log line. -/
theorem completed_wp {m : TaskMessage} {result : Json} {u : Stage}
    (h : u.Closing codec m result) :
    (log (.completed m.succeed)).wp (lifecycle codec) u
      fun _ u' => u' = .finished m result := by
  intro _
  refine ⟨.finished m result, ?_, rfl⟩
  rcases h with ⟨rfl, hnext⟩ | rfl | rfl
  · exact .complete result hnext
  · exact .completeChained m result
  · exact .completeWithoutBackend m result

theorem onSuccess_wp (w : Worker) (m : TaskMessage) (result : Json) :
    (onSuccess w codec m.start result).wp (lifecycle codec) (.succeeded w.hasBackend m result)
      fun _ u => u = .finished m result := by
  refine wp_then (runAfter_wp w.hasBackend m m.start result w.middlewares) ?_
  intro _
  apply wp_broker
  intro r
  refine ⟨.acked w.hasBackend m result, .ack w.hasBackend m result r, ?_⟩
  apply wp_logError_bind (fun _ => rfl)
  refine Prog.wp_seq (followUp_wp w m result) ?_
  intro _ u hu
  exact completed_wp hu

/-- The `before` hooks change nothing, whatever they answer. -/
theorem runBefore_wp (b : Bool) (m x : TaskMessage) (mws : List Nat) :
    (runBefore x mws).wp (lifecycle codec) (.running b m) fun _ u => u = .running b m := by
  induction mws with
  | nil => rfl
  | cons mw rest ih =>
      apply wp_runtime
      intro r
      refine ⟨.running b m, .before b m mw x r, ?_⟩
      cases r with
      | ok _ => exact ih
      | error e => rfl

/-- The handler of a registered task, or the error for an unknown one. -/
theorem dispatch_wp (w : Worker) (b : Bool) (m : TaskMessage) :
    (dispatch w m.start).wp (lifecycle codec) (.running b m) fun r u =>
      match r with
      | .ok result => u = .succeeded b m result
      | .error _ => u = .erred m ∨ u = .running b m := by
  unfold dispatch
  split
  · intro r
    cases r with
    | ok result => exact ⟨.succeeded b m result, .handled b m result, rfl⟩
    | error e => exact ⟨.erred m, .err b m e, .inl rfl⟩
  · exact .inr rfl

/-- The failure line of the handler, and the failure path. -/
theorem taskFailed_wp (w : Worker) (b : Bool) (m : TaskMessage) (e : KojinError) {u : Stage}
    (h : u = .erred m ∨ u = .running b m) :
    (log (.taskFailed m.id m.taskName e) >>= fun _ => handleFailure w m.start e).wp
      (lifecycle codec) u fun _ (u' : Stage) => u' = .gone := by
  apply wp_runtime
  intro _
  refine ⟨.failed m, ?_, handleFailure_wp w m e⟩
  rcases h with rfl | rfl
  · exact .taskFailed m e
  · exact .notFound b m e

theorem runTask_wp (w : Worker) (m : TaskMessage) {t : Stage}
    (h : Stage.Step codec t (.runtime (.trace (.executing m))) () (.running w.hasBackend m)) :
    (runTask w codec m).wp (lifecycle codec) t fun _ u => u.Final := by
  apply wp_runtime
  intro _
  refine ⟨.running w.hasBackend m, h, ?_⟩
  refine wp_then (runBefore_wp w.hasBackend m m.start w.middlewares) ?_
  intro outcome
  cases outcome with
  | error e =>
      apply wp_runtime
      intro _
      refine ⟨.failed m, .beforeFailed w.hasBackend m e, ?_⟩
      refine Prog.wp_mono (handleFailure_wp w m e) ?_
      intro _ u hu
      rw [hu]
      trivial
  | ok _ =>
      refine Prog.wp_seq (dispatch_wp w w.hasBackend m) ?_
      intro r u hu
      cases r with
      | ok result =>
          obtain rfl : u = .succeeded w.hasBackend m result := hu
          refine Prog.wp_mono (onSuccess_wp w m result) ?_
          intro _ u hu
          rw [hu]
          trivial
      | error e =>
          refine Prog.wp_mono (taskFailed_wp w w.hasBackend m e hu) ?_
          intro _ u hu
          rw [hu]
          trivial

/-- The eta guard gives the message back. -/
theorem reschedule_wp (m : TaskMessage) (eta : DateTime) :
    (reschedule m eta).wp (lifecycle codec) (.postponed m eta) fun _ u => u.Final := by
  apply wp_log_bind rfl
  apply wp_broker
  intro acked
  refine ⟨.released m eta, .release m eta acked, ?_⟩
  apply wp_logError_bind (fun _ => rfl)
  apply wp_broker
  intro scheduled
  exact ⟨.gone, .reschedule m eta scheduled, wp_logError (fun _ => rfl) trivial⟩

/-- The execution follows the protocol, whatever the broker, the backend, the
hooks and the handler answer. -/
theorem executeTask_follows (w : Worker) (m : TaskMessage) :
    (executeTask w codec m).Follows (lifecycle codec) (.received w.hasBackend m) := by
  unfold executeTask
  cases heta : m.eta with
  | none => exact runTask_wp w m (.execute w.hasBackend heta)
  | some eta =>
      apply wp_runtime
      intro now
      by_cases hnow : now.nanos < eta.nanos
      · refine ⟨.postponed m eta, .postpone w.hasBackend heta hnow, ?_⟩
        rw [if_pos hnow]
        exact reschedule_wp m eta
      · refine ⟨.cleared w.hasBackend m, .clear w.hasBackend heta hnow, ?_⟩
        rw [if_neg hnow]
        exact runTask_wp w m (.executeCleared w.hasBackend m)

end Follows

end Kojin.Core
