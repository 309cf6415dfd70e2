/-
  Sqs/Broker.lean --- queues in SQS (`kojin-sqs`: `broker.rs`, `config.rs`).

  The server keeps texts.  Receiving a text puts it in flight under a receipt; a
  receipt deletes the text, or makes it visible again.  The broker remembers the
  receipt of every message it has handed out.

      enqueue       SendMessage
      dequeue       ReceiveMessage from the first queue that has a message, decode
                    it, remember its receipt
      ack           DeleteMessage, if the receipt is remembered
      nack          ChangeMessageVisibility to 0, if the receipt is remembered
      dead_letter   ack, then SendMessage to the dead-letter queue if there is one
      schedule      SendMessage with a delay

  A receipt is remembered or forgotten in a section of its own; the lock is held
  over the request that follows in `ack` and `nack`.  A request may not arrive, or
  it is carried out and only its answer is lost.  How long a text stays invisible,
  or delayed, is not modelled: a text in flight stays there until it is settled,
  and a delayed one may arrive at any time.
-/
import Kojin.Core.System
import Kojin.Foundation.Loss

set_option autoImplicit false

namespace Kojin.Sqs

open Kojin.Foundation Kojin.Core

/-! ## The server -/

/-- A receipt handle.  The broker only hands it back. -/
abbrev Receipt : Type := Nat

/-- A `SendMessage` request. -/
structure SendRequest where
  queueUrl : String
  body : String
  groupId : Option String
  deduplicationId : Option String
  delaySeconds : Option Int
  deriving DecidableEq, Repr

/-- A received message; the service may leave out either part. -/
structure Received where
  body : Option String
  receipt : Option Receipt
  deriving DecidableEq, Repr

/-- The calls of the broker: the clock, the requests, and the two sections on its
receipts. -/
inductive SqsOp where
  | utcNow
  | sendMessage (request : SendRequest)
  | receiveMessage (url : String) (waitSeconds visibilityTimeout : Int)
  | deleteMessage (url : String) (receipt : Receipt)
  | changeVisibility (url : String) (receipt : Receipt) (timeout : Int)
  | insertReceipt (id : TaskId) (url : String) (receipt : Receipt)
  | removeReceipt (id : TaskId)

/-- The message of a failed request. -/
abbrev RequestError : Type := String

/-- What each call on the service answers. -/
abbrev SqsOp.Res : SqsOp → Type
  | .utcNow => DateTime
  | .sendMessage _ => Except RequestError Unit
  | .receiveMessage _ _ _ => Except RequestError (Option Received)
  | .deleteMessage _ _ => Except RequestError Unit
  | .changeVisibility _ _ _ => Except RequestError Unit
  | .insertReceipt _ _ _ => Unit
  | .removeReceipt _ => Option (String × Receipt)

/-- The interface of the broker. -/
abbrev requests : Interface := ⟨SqsOp, SqsOp.Res⟩

/-- The server and the broker's receipts: the texts that can be received, by queue,
those in flight under their receipts, and the number of receipts issued. -/
structure SqsState where
  visible : List (String × String)
  flight : List (Receipt × String × String)
  receipts : TaskId → Option (String × Receipt)
  issued : Nat
  nodup : (flight.map Prod.fst).Nodup
  bound : ∀ e ∈ flight, e.1 < issued

/-- What the outside decides about a request: the clock, what is lost of the
request, whether a FIFO queue takes the message for a duplicate, and which text is
received. -/
structure SqsOracle where
  now : DateTime
  failure : Option (Loss RequestError)
  duplicate : Bool
  pick : Nat

namespace SqsState

/-- A server without messages. -/
def empty : SqsState := ⟨[], [], fun _ => none, 0, .nil, fun _ he => nomatch he⟩

/-- A text is sent. -/
def send (s : SqsState) (request : SendRequest) (duplicate : Bool) : SqsState :=
  if duplicate && request.deduplicationId.isSome then s
  else { s with visible := s.visible ++ [(request.queueUrl, request.body)] }

/-- The text at this place is put in flight under a new receipt. -/
def take (s : SqsState) (pick : Nat) (url body : String) : SqsState where
  visible := s.visible.eraseIdx pick
  flight := s.flight ++ [(s.issued, url, body)]
  receipts := s.receipts
  issued := s.issued + 1
  nodup := by
    rw [List.map_append, List.nodup_append]
    refine ⟨s.nodup, List.nodup_singleton _, ?_⟩
    intro r hr r' hr' heq
    obtain ⟨e, he, rfl⟩ := List.mem_map.mp hr
    obtain rfl := List.mem_singleton.mp hr'
    exact absurd heq (Nat.ne_of_lt (s.bound e he))
  bound e he := by
    rcases List.mem_append.mp he with he | he
    · exact Nat.lt_succ_of_lt (s.bound e he)
    · obtain rfl := List.mem_singleton.mp he
      exact Nat.lt_succ_self _

/-- A visible text of the queue is received. -/
def receive (s : SqsState) (url : String) (pick : Nat) : Option Received × SqsState :=
  match s.visible[pick]? with
  | some (url', body) =>
      if url' = url then (some ⟨some body, some s.issued⟩, s.take pick url body) else (none, s)
  | none => (none, s)

/-- Whether this is the text in flight with this receipt. -/
def isAt (url : String) (receipt : Receipt) (e : Receipt × String × String) : Bool :=
  e.1 = receipt && e.2.1 = url

/-- A text in flight is deleted. -/
def delete (s : SqsState) (url : String) (receipt : Receipt) : SqsState :=
  { s with
    flight := s.flight.eraseP (isAt url receipt)
    nodup := s.nodup.sublist (List.eraseP_sublist.map _)
    bound := fun e he => s.bound e (List.eraseP_sublist.subset he) }

/-- A text in flight becomes visible again, if the timeout is zero. -/
def changeVisibility (s : SqsState) (url : String) (receipt : Receipt) (timeout : Int) :
    SqsState :=
  match s.flight.find? (isAt url receipt) with
  | some e =>
      if timeout = 0 then { s.delete url receipt with visible := s.visible ++ [e.2] } else s
  | none => s

end SqsState

/-- The server. -/
def server : Service requests where
  State := SqsState
  Oracle := SqsOracle
  respond o s
    | .utcNow => some (o.now, s)
    | .insertReceipt id url receipt =>
        some ((), { s with receipts := Function.update s.receipts id (some (url, receipt)) })
    | .removeReceipt id =>
        some (s.receipts id, { s with receipts := Function.update s.receipts id none })
    | .sendMessage request =>
        some (carried o.failure s (.ok (), s.send request o.duplicate))
    | .receiveMessage url _ _ =>
        some (carried o.failure s (.ok (s.receive url o.pick).1, (s.receive url o.pick).2))
    | .deleteMessage url receipt =>
        some (carried o.failure s (.ok (), s.delete url receipt))
    | .changeVisibility url receipt timeout =>
        some (carried o.failure s (.ok (), s.changeVisibility url receipt timeout))

/-- A request fails, and did what it is for or nothing, or it succeeds and did it. -/
theorem done_or_failed {α S : Type} {failure : Option (Loss RequestError)} {s s' done : S} {a : α}
    {ans : Except RequestError α} (h : some (carried failure s (.ok a, done)) = some (ans, s')) :
    (∃ e, ans = .error e ∧ failure ≠ none ∧
        ((arrives failure = false ∧ s' = s) ∨ (arrives failure = true ∧ s' = done))) ∨
      (ans = .ok a ∧ failure = none ∧ s' = done) := by
  rcases carried_cases (Option.some.inj h) with ⟨hnone, hdone⟩ | ⟨e, rfl, hcases⟩
  · cases hdone
    exact .inr ⟨rfl, hnone, rfl⟩
  · refine .inl ⟨e, rfl, ?_, hcases.imp_right And.right⟩
    rintro rfl
    rcases hcases with ⟨hlost, -⟩ | ⟨hne, -, -⟩
    · cases hlost
    · exact hne rfl

/-- What a request answers. -/
theorem server_send {o : SqsOracle} {s s' : SqsState} {request : SendRequest}
    {ans : Except RequestError Unit}
    (h : server.respond o s (.sendMessage request) = some (ans, s')) :
    (∃ e, ans = .error e ∧ o.failure ≠ none ∧ ((arrives o.failure = false ∧ s' = s) ∨
        (arrives o.failure = true ∧ s' = s.send request o.duplicate))) ∨
      (ans = .ok () ∧ o.failure = none ∧ s' = s.send request o.duplicate) :=
  done_or_failed h

theorem server_receive {o : SqsOracle} {s s' : SqsState} {url : String} {wait visibility : Int}
    {ans : Except RequestError (Option Received)}
    (h : server.respond o s (.receiveMessage url wait visibility) = some (ans, s')) :
    (∃ e, ans = .error e ∧ o.failure ≠ none ∧ ((arrives o.failure = false ∧ s' = s) ∨
        (arrives o.failure = true ∧ s' = (s.receive url o.pick).2))) ∨
      (ans = .ok (s.receive url o.pick).1 ∧ o.failure = none ∧ s' = (s.receive url o.pick).2) :=
  done_or_failed h

theorem server_delete {o : SqsOracle} {s s' : SqsState} {url : String} {receipt : Receipt}
    {ans : Except RequestError Unit}
    (h : server.respond o s (.deleteMessage url receipt) = some (ans, s')) :
    (∃ e, ans = .error e ∧ o.failure ≠ none ∧ ((arrives o.failure = false ∧ s' = s) ∨
        (arrives o.failure = true ∧ s' = s.delete url receipt))) ∨
      (ans = .ok () ∧ o.failure = none ∧ s' = s.delete url receipt) :=
  done_or_failed h

theorem server_visibility {o : SqsOracle} {s s' : SqsState} {url : String} {receipt : Receipt}
    {timeout : Int} {ans : Except RequestError Unit}
    (h : server.respond o s (.changeVisibility url receipt timeout) = some (ans, s')) :
    (∃ e, ans = .error e ∧ o.failure ≠ none ∧ ((arrives o.failure = false ∧ s' = s) ∨
        (arrives o.failure = true ∧ s' = s.changeVisibility url receipt timeout))) ∨
      (ans = .ok () ∧ o.failure = none ∧ s' = s.changeVisibility url receipt timeout) :=
  done_or_failed h

/-! ## The broker -/

/-- `SqsConfig`. -/
structure SqsConfig where
  queueUrls : List String
  dlqUrl : Option String
  visibilityTimeout : Int
  waitTimeSeconds : Int

/-- `queue_name_from_url`: the last segment, without the suffix of FIFO queues. -/
def queueNameFromUrl (url : String) : String :=
  let segment := (url.splitOn "/").getLastD url
  if segment.endsWith ".fifo" then (segment.dropEnd 5).toString else segment

/-- `SqsBroker`: its configuration and the names of its queues, in the iteration
order of the map. -/
structure SqsBroker where
  config : SqsConfig
  queueNames : List (String × String)
  names : ∀ e ∈ queueNames, e.1 ∈ config.queueUrls

/-- What the broker uses of the JSON library. -/
structure SqsCodec where
  rfc3339 : DateTime → String
  decodeMessage : String → Except String TaskMessage

namespace SqsBroker

variable (b : SqsBroker) (codec : SqsCodec)

/-- `broker_err`. -/
def brokerErr (e : RequestError) : KojinError := .broker e

/-- `resolve_queue_url`: by name, or the URL itself. -/
def resolveQueueUrl (queue : String) : Option String :=
  match b.queueNames.find? fun e => e.2 = queue with
  | some e => some e.1
  | none => if queue ∈ b.config.queueUrls then some queue else none

/-- `is_fifo`. -/
def isFifo (url : String) : Bool := url.endsWith ".fifo"

/-- The request for a message, with group and deduplication on a FIFO queue. -/
def request (codec : SqsCodec) (m : TaskMessage) (url dedupId : String) (delay : Option Int) :
    SendRequest where
  queueUrl := url
  body := m.encode codec.rfc3339
  groupId := if isFifo url then some m.queue else none
  deduplicationId := if isFifo url then some dedupId else none
  delaySeconds := delay

/-- A request that is the end of a call. -/
def sendLast (request : SendRequest) : Prog requests (TaskResult Unit) := do
  let answer ← Prog.perform (I := requests) (.sendMessage request)
  pure (answer.mapError brokerErr)

/-- `(eta - now).num_seconds()`: rounded towards zero. -/
def secondsUntil (eta now : DateTime) : Int := (eta.nanos - now.nanos).tdiv 1000000000

/-- `dedup_key`, or the identifier. -/
def dedupId (m : TaskMessage) : String := m.dedupKey.getD m.id.toText

/-- `SqsBroker::enqueue`. -/
def enqueue (m : TaskMessage) : Prog requests (TaskResult Unit) :=
  match b.resolveQueueUrl m.queue with
  | none => pure (.error (.queueNotFound m.queue))
  | some url =>
      match m.eta with
      | none => sendLast (request codec m url (dedupId m) none)
      | some eta => do
          let now ← Prog.perform (I := requests) .utcNow
          let delay := max 0 (min (secondsUntil eta now) 900)
          sendLast (request codec m url (dedupId m) (if 0 < delay then some delay else none))

/-- `SqsBroker::dequeue`, over the remaining queue names. -/
def dequeueFrom (wait : Int) : List String → Prog requests (TaskResult (Option TaskMessage))
  | [] => pure (.ok none)
  | name :: names =>
      match b.resolveQueueUrl name with
      | none => dequeueFrom wait names
      | some url => do
          match ← Prog.perform (I := requests)
            (.receiveMessage url wait b.config.visibilityTimeout) with
          | .error e => pure (.error (brokerErr e))
          | .ok none => dequeueFrom wait names
          | .ok (some received) =>
              match codec.decodeMessage (received.body.getD "{}") with
              | .error e => pure (.error (.serialization e))
              | .ok m =>
                  match received.receipt with
                  | none => pure (.ok (some m))
                  | some receipt => do
                      Prog.perform (I := requests) (.insertReceipt m.id url receipt)
                      pure (.ok (some m))

/-- `SqsBroker::dequeue`. -/
def dequeue (queues : List String) (timeoutSecs : Int) :
    Prog requests (TaskResult (Option TaskMessage)) :=
  b.dequeueFrom codec (min timeoutSecs b.config.waitTimeSeconds) queues

/-- `SqsBroker::ack`. -/
def ack (id : TaskId) : Prog requests (TaskResult Unit) := do
  match ← Prog.perform (I := requests) (.removeReceipt id) with
  | none => pure (.ok ())
  | some (url, receipt) => do
      let answer ← Prog.perform (I := requests) (.deleteMessage url receipt)
      pure (answer.mapError brokerErr)

/-- `SqsBroker::nack`. -/
def nack (m : TaskMessage) : Prog requests (TaskResult Unit) := do
  match ← Prog.perform (I := requests) (.removeReceipt m.id) with
  | none => pure (.ok ())
  | some (url, receipt) => do
      let answer ← Prog.perform (I := requests) (.changeVisibility url receipt 0)
      pure (answer.mapError brokerErr)

/-- `SqsBroker::dead_letter`. -/
def deadLetter (m : TaskMessage) : Prog requests (TaskResult Unit) := do
  match ← ack m.id with
  | .error e => pure (.error e)
  | .ok _ =>
      match b.config.dlqUrl with
      | none => pure (.ok ())
      | some url => sendLast (request codec m url m.id.toText none)

/-- `SqsBroker::schedule`. -/
def schedule (m : TaskMessage) (eta : DateTime) : Prog requests (TaskResult Unit) := do
  let now ← Prog.perform (I := requests) .utcNow
  let delay := max (secondsUntil eta now) 0
  let m := if 900 < delay then { m with eta := some eta } else m
  match b.resolveQueueUrl m.queue with
  | none => pure (.error (.queueNotFound m.queue))
  | some url => sendLast (request codec m url (dedupId m) (some (min delay 900)))

/-- `impl Broker for SqsBroker`. -/
def driver : BrokerDriver requests
  | .enqueue m => b.enqueue codec m
  | .ack id => ack id
  | .nack m => nack m
  | .deadLetter m => b.deadLetter codec m
  | .schedule m eta => b.schedule codec m eta

end SqsBroker

end Kojin.Sqs
