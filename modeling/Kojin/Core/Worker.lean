/-
  Core/Worker.lean --- one execution of one message (`kojin-core`: `worker.rs`,
  `execute_task` and `handle_failure`).

  A worker dequeues a message and spawns `executeTask` on it.  The execution
  makes up to a dozen calls in a fixed order; each may fail, and a failed call is
  logged and passed over.  The pieces below are the pieces of the source, in its
  order:

      executeTask
        reschedule             the eta is in the future: ack, then schedule
        runTask
          runBefore            the before hooks, up to the first that fails
          dispatch             the handler
          onSuccess            after hooks, ack, store, group, chain
            completeGroup      count the member; the last one enqueues the callback
            continueChain      enqueue the next step of a chain
          handleFailure        on_error hooks, then nack or dead_letter

  Group completion and chain continuation are inside the branch that has a result
  backend; a worker without one does neither.
-/
import Kojin.Core.System

set_option autoImplicit false

namespace Kojin.Core

open Kojin.Foundation

/-- What a worker is set up with: the registered task names, its middlewares in
order, and whether it has a result backend. -/
structure Worker where
  registry : List String
  middlewares : List Nat
  hasBackend : Bool

/-- How the JSON library prints timestamps and reads back a list of signatures. -/
structure Codec where
  rfc3339 : DateTime → String
  decodeSignatures : String → Except String (List Signature)

/-! ## Calls -/

/-- Ask the runtime. -/
def runtime (op : RuntimeOp) : Prog traits op.Res := Prog.perform (I := traits) (.runtime op)

/-- Call the broker. -/
def broker (op : BrokerOp) : Prog traits (TaskResult Unit) :=
  Prog.perform (I := traits) (.broker op)

/-- Call the result backend. -/
def backend (op : ResultBackendOp) : Prog traits op.Res :=
  Prog.perform (I := traits) (.backend op)

/-- Write a log line. -/
def log (event : TraceEvent) : Prog traits Unit := runtime (.trace event)

/-- `if let Err(e) = result { log }`. -/
def logError (result : TaskResult Unit) (event : KojinError → TraceEvent) : Prog traits Unit :=
  match result with
  | .ok _ => pure ()
  | .error e => log (event e)

section Traces

variable {tr : List (Event traits)}

/-- A call of the runtime, and what follows it. -/
theorem trace_runtime {α : Type} {op : RuntimeOp} {f : op.Res → Prog traits α} {a : α}
    (h : Prog.Trace (runtime op >>= f) tr a) :
    ∃ (r : op.Res) (rest : List (Event traits)),
      tr = ⟨.runtime op, r⟩ :: rest ∧ Prog.Trace (f r) rest a := Prog.trace_call_iff.mp h

/-- A call of the broker, and what follows it. -/
theorem trace_broker {α : Type} {op : BrokerOp} {f : TaskResult Unit → Prog traits α} {a : α}
    (h : Prog.Trace (broker op >>= f) tr a) :
    ∃ (r : TaskResult Unit) (rest : List (Event traits)),
      tr = ⟨.broker op, r⟩ :: rest ∧ Prog.Trace (f r) rest a := Prog.trace_call_iff.mp h

/-- A call of the backend, and what follows it. -/
theorem trace_backend {α : Type} {op : ResultBackendOp} {f : op.Res → Prog traits α} {a : α}
    (h : Prog.Trace (backend op >>= f) tr a) :
    ∃ (r : op.Res) (rest : List (Event traits)),
      tr = ⟨.backend op, r⟩ :: rest ∧ Prog.Trace (f r) rest a := Prog.trace_call_iff.mp h

end Traces

/-! ## Failure -/

/-- The copy `handle_failure` sends back to the queue. -/
def TaskMessage.retryCopy (m : TaskMessage) (now : DateTime) : TaskMessage :=
  { m with retries := m.retries + 1, state := .retry, updatedAt := now }

/-- The copy `handle_failure` sends to the dead-letter queue. -/
def TaskMessage.buriedCopy (m : TaskMessage) (now : DateTime) : TaskMessage :=
  { m with state := .deadLettered, updatedAt := now }

/-- The `on_error` hooks, all of them. -/
def runOnError (m : TaskMessage) (error : KojinError) : List Nat → Prog traits Unit
  | [] => pure ()
  | mw :: rest => do
      let result ← runtime (.onError mw m error)
      logError result (.onErrorFailed m.id)
      runOnError m error rest

/-- The branch of `handle_failure` with retries left. -/
def retry (m : TaskMessage) : Prog traits Unit := do
  let now ← runtime .utcNow
  let m' := m.retryCopy now
  let backoff := BackoffStrategy.default.delayFor (m'.retries - 1)
  log (.retrying m.id m'.retries m'.maxRetries backoff)
  runtime (.sleep backoff)
  let result ← broker (.nack m')
  logError result (.nackFailed m.id)

/-- The branch of `handle_failure` with no retries left. -/
def bury (m : TaskMessage) : Prog traits Unit := do
  let now ← runtime .utcNow
  log (.maxRetriesExceeded m.id)
  let result ← broker (.deadLetter (m.buriedCopy now))
  logError result (.deadLetterFailed m.id)

/-- `handle_failure`. -/
def handleFailure (w : Worker) (m : TaskMessage) (error : KojinError) : Prog traits Unit := do
  runOnError m error w.middlewares
  if m.retries < m.maxRetries then retry m else bury m

/-! ## Success -/

/-- The `after` hooks, all of them. -/
def runAfter (m : TaskMessage) (result : Json) : List Nat → Prog traits Unit
  | [] => pure ()
  | mw :: rest => do
      let outcome ← runtime (.after mw m result)
      logError outcome (.afterFailed m.id)
      runAfter m result rest

/-- The callback with the group's results in its headers, if they could be read. -/
def TaskMessage.withGroupResults (callback : TaskMessage) :
    TaskResult (List Json) → TaskMessage
  | .ok results => callback.insertHeader "kojin.group_results" (Json.arr results).print
  | .error _ => callback

/-- The last member of a chord enqueues the callback. -/
def enqueueCallback (group : String) (callback : TaskMessage) : Prog traits Unit := do
  let results ← backend (.getGroupResults group)
  match ← broker (.enqueue (callback.withGroupResults results)) with
  | .error e => log (.enqueueCallbackFailed group e)
  | .ok _ => log (.callbackEnqueued group)

/-- The answer of the backend to the completion of a member: the last member, if
it carries a callback, enqueues it. -/
def onMemberCompleted (m : TaskMessage) (group : String) :
    TaskResult UInt32 → Prog traits Unit
  | .ok completed => do
      let total := m.groupTotal.getD 0
      log (.groupMemberCompleted m.id group completed total)
      if completed = total then
        match m.chordCallback with
        | some callback => enqueueCallback group callback
        | none => pure ()
      else pure ()
  | .error e => log (.completeMemberFailed m.id group e)

/-- Handle group completion, for a message that belongs to a group. -/
def completeGroup (m : TaskMessage) (result : Json) : Prog traits Unit :=
  match m.groupId with
  | none => pure ()
  | some group => do
      let completed ← backend (.completeGroupMember group m.id result)
      onMemberCompleted m group completed

/-- The next message of a chain: made from the first remaining signature, with
the current result as its input and the other signatures behind it. -/
def TaskMessage.chainStep (codec : Codec) (m : TaskMessage) (result : Json) (sig : Signature)
    (rest : List Signature) (now : DateTime) (id : TaskId) : TaskMessage :=
  let next := (sig.intoMessage now id).insertHeader "kojin.chain_input" result.print
  let next := match m.correlationId with
    | some corr => { next with correlationId := some corr }
    | none => next
  if rest.isEmpty then next
  else next.insertHeader "kojin.chain_next" (encodeSignatures codec.rfc3339 rest)

/-- Enqueue the next step of a chain, if the header names one. -/
def continueChain (codec : Codec) (m : TaskMessage) (result : Json) : Prog traits Unit :=
  match m.headers.lookup "kojin.chain_next" with
  | none => pure ()
  | some json =>
      match codec.decodeSignatures json with
      | .ok (sig :: rest) => do
          let now ← runtime .utcNow
          let id ← runtime .newTaskId
          match ← broker (.enqueue (m.chainStep codec result sig rest now id)) with
          | .error e => log (.enqueueContinuationFailed m.id e)
          | .ok _ => log (.continuationEnqueued m.id rest.length)
      | .ok [] => pure ()
      | .error e => log (.deserializeChainFailed m.id e)

/-- A step that the header names is made and sent. -/
theorem continueChain_step {codec : Codec} {m : TaskMessage} {json : String} {sig : Signature}
    {rest : List Signature} (result : Json)
    (hlookup : m.headers.lookup "kojin.chain_next" = some json)
    (hdecode : codec.decodeSignatures json = .ok (sig :: rest)) :
    continueChain codec m result = (do
      let now ← runtime .utcNow
      let id ← runtime .newTaskId
      match ← broker (.enqueue (m.chainStep codec result sig rest now id)) with
      | .error e => log (.enqueueContinuationFailed m.id e)
      | .ok _ => log (.continuationEnqueued m.id rest.length)) := by
  simp only [continueChain, hlookup, hdecode]

/-- What a worker with a result backend does after the acknowledgement. -/
def followUp (w : Worker) (codec : Codec) (m : TaskMessage) (result : Json) :
    Prog traits Unit :=
  if w.hasBackend then do
    let stored ← backend (.store m.id result)
    logError stored (.storeFailed m.id)
    completeGroup m result
    continueChain codec m result
  else pure ()

/-- The success branch of `execute_task`. -/
def onSuccess (w : Worker) (codec : Codec) (m : TaskMessage) (result : Json) :
    Prog traits Unit := do
  runAfter m result w.middlewares
  let m := { m with state := .success }
  let acked ← broker (.ack m.id)
  logError acked (.ackFailed m.id)
  followUp w codec m result
  log (.completed m)

/-! ## The execution -/

/-- The `before` hooks, up to the first that fails. -/
def runBefore (m : TaskMessage) : List Nat → Prog traits (TaskResult Unit)
  | [] => pure (.ok ())
  | mw :: rest => do
      match ← runtime (.before mw m) with
      | .ok _ => runBefore m rest
      | .error e => pure (.error e)

/-- `TaskRegistry::dispatch`. -/
def dispatch (w : Worker) (m : TaskMessage) : Prog traits (TaskResult Json) :=
  if m.taskName ∈ w.registry then runtime (.handle m m.taskName m.payload)
  else pure (.error (.taskNotFound m.taskName))

/-- The message once it is past the eta guard. -/
def TaskMessage.start (m : TaskMessage) : TaskMessage := { m with state := .started }

/-- `execute_task` past the eta guard. -/
def runTask (w : Worker) (codec : Codec) (m : TaskMessage) : Prog traits Unit := do
  log (.executing m)
  match ← runBefore m.start w.middlewares with
  | .error e => do
      log (.beforeFailed m.id e)
      handleFailure w m.start e
  | .ok _ =>
      match ← dispatch w m.start with
      | .ok result => onSuccess w codec m.start result
      | .error e => do
          log (.taskFailed m.id m.taskName e)
          handleFailure w m.start e

/-- The eta guard sends the message back: first the acknowledgement, then
`schedule`. -/
def reschedule (m : TaskMessage) (eta : DateTime) : Prog traits Unit := do
  log (.etaInFuture m.id eta)
  let acked ← broker (.ack m.id)
  logError acked (.ackBeforeRescheduleFailed m.id)
  let scheduled ← broker (.schedule m eta)
  logError scheduled (.rescheduleFailed m.id)

/-- `execute_task`. -/
def executeTask (w : Worker) (codec : Codec) (m : TaskMessage) : Prog traits Unit :=
  match m.eta with
  | none => runTask w codec m
  | some eta => do
      let now ← runtime .utcNow
      if now.nanos < eta.nanos then reschedule m eta else runTask w codec m

/-! ## For concrete runs -/

/-- A runtime that reads a stopped clock and whose hooks and handlers succeed. -/
def stillRuntime : RuntimeOracle
  | .utcNow => ⟨0⟩
  | .newTaskId => ⟨0⟩
  | .newUuid => ⟨0⟩
  | .sleep _ => ()
  | .trace _ => ()
  | .before _ _ => .ok ()
  | .after _ _ _ => .ok ()
  | .onError _ _ _ => .ok ()
  | .handle _ _ _ => .ok .null

/-- A runtime whose handlers fail. -/
def failingRuntime : RuntimeOracle
  | .handle _ _ _ => .error (.taskFailed "no")
  | op => stillRuntime op

/-- A runtime that draws the given identifier and is otherwise still. -/
def drawing (id : TaskId) : RuntimeOracle
  | .newTaskId => id
  | .newUuid => id
  | op => stillRuntime op

/-- A codec that prints no timestamps and reads no signatures. -/
def blankCodec : Codec := ⟨fun _ => "", fun _ => .error "no signatures"⟩

end Kojin.Core
