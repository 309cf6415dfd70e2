/-
  Amqp/Broker.lean --- queues in RabbitMQ (`kojin-amqp`: `broker.rs`, `config.rs`).

  The server keeps texts in queues.  A consumer is handed a text under a delivery
  tag of its channel, and the text stays with the server until it is settled under
  that tag: acknowledged, or rejected, which puts the text back or routes it to the
  dead-letter queue.

      enqueue       publish to the direct exchange
      schedule      publish to the delayed exchange
      consumer      decode, remember the tag under the identifier, hand the message
                    to the channel; reject a text that cannot be read
      dequeue       the next message of the channel
      ack           basic_ack, if a tag is remembered
      nack          basic_nack with requeue, if a tag is remembered
      dead_letter   basic_nack without requeue, if a tag is remembered

  The tag is forgotten in the section that holds the lock over the request, so a
  method comes in one piece.  A connection is not lost, and a text in the delayed
  exchange may become ready at any time.  The prefetch limit only removes
  interleavings.
-/
import Kojin.Core.System

set_option autoImplicit false

namespace Kojin.Amqp

open Kojin.Foundation Kojin.Core

/-! ## The server -/

/-- A delivery: the queue, whose consumer has a channel of its own, and the tag on
that channel. -/
abbrev Delivery : Type := String × Nat

/-- A `basic_publish` request. -/
structure PublishRequest where
  exchange : String
  routingKey : String
  body : String
  priority : Option UInt8
  delay : Option Int32
  deriving DecidableEq

/-- The calls of the broker: the clock, the requests, and the section on its
deliveries. -/
inductive AmqpOp where
  | utcNow
  | basicPublish (request : PublishRequest)
  | basicAck (delivery : Delivery)
  | basicNack (delivery : Delivery) (requeue : Bool)
  | removeDelivery (id : TaskId)

/-- The message of a failed request. -/
abbrev RequestError : Type := String

/-- What each call on the server answers. -/
abbrev AmqpOp.Res : AmqpOp → Type
  | .utcNow => DateTime
  | .basicPublish _ => Except RequestError Unit
  | .basicAck _ => Except RequestError Unit
  | .basicNack _ _ => Except RequestError Unit
  | .removeDelivery _ => Option Delivery

/-- The interface of the broker. -/
abbrev requests : Interface := ⟨AmqpOp, AmqpOp.Res⟩

/-- The part of `AmqpConfig` the broker uses, with the queues it has declared. -/
structure AmqpBroker where
  exchange : String
  delayedExchange : String
  queues : List String

/-- The server, the deliveries the broker remembers, and the messages its consumers
have handed over: the texts that are ready, by queue, the delayed ones, those
delivered and not settled, and the dead-letter queues. -/
structure AmqpState where
  ready : List (String × String)
  delayed : List (String × String)
  unacked : List (Delivery × String)
  dlq : List (String × String)
  deliveries : TaskId → Option Delivery
  channel : List TaskMessage
  issued : String → Nat
  nodup : (unacked.map Prod.fst).Nodup
  bound : ∀ e ∈ unacked, e.1.2 ≤ issued e.1.1

/-- What the outside decides about a request: the clock, and whether it fails. -/
structure AmqpOracle where
  now : DateTime
  failure : Option RequestError

namespace AmqpState

/-- A server without messages. -/
def empty : AmqpState :=
  ⟨[], [], [], [], fun _ => none, [], fun _ => 0, .nil, fun _ he => nomatch he⟩

/-- A text is published: queues are bound to both exchanges under their names, and a
text for no queue is dropped. -/
def publish (b : AmqpBroker) (s : AmqpState) (request : PublishRequest) : AmqpState :=
  if request.routingKey ∈ b.queues then
    if request.exchange = b.delayedExchange then
      { s with delayed := s.delayed ++ [(request.routingKey, request.body)] }
    else if request.exchange = b.exchange then
      { s with ready := s.ready ++ [(request.routingKey, request.body)] }
    else s
  else s

/-- Whether this text was delivered so. -/
def isAt (delivery : Delivery) (e : Delivery × String) : Bool := e.1 = delivery

/-- A delivered text is settled. -/
def settle (s : AmqpState) (delivery : Delivery) : AmqpState :=
  { s with
    unacked := s.unacked.eraseP (isAt delivery)
    nodup := s.nodup.sublist (List.eraseP_sublist.map _)
    bound := fun e he => s.bound e (List.eraseP_sublist.subset he) }

/-- A delivered text is rejected: it goes back to its queue, or to the dead-letter
queue of it. -/
def reject (s : AmqpState) (delivery : Delivery) (requeue : Bool) : AmqpState :=
  match s.unacked.find? (isAt delivery) with
  | some e =>
      if requeue then { s.settle delivery with ready := s.ready ++ [(e.1.1, e.2)] }
      else { s.settle delivery with dlq := s.dlq ++ [(e.1.1, e.2)] }
  | none => s

/-- The next tag on the channel of a queue. -/
def nextTag (s : AmqpState) (queue : String) : Delivery := (queue, s.issued queue + 1)

/-- The text at this place is delivered under the next tag of its channel. -/
def deliver (s : AmqpState) (pick : Nat) (queue body : String) : AmqpState where
  ready := s.ready.eraseIdx pick
  delayed := s.delayed
  unacked := s.unacked ++ [(s.nextTag queue, body)]
  dlq := s.dlq
  deliveries := s.deliveries
  channel := s.channel
  issued := Function.update s.issued queue (s.issued queue + 1)
  nodup := by
    rw [List.map_append, List.nodup_append]
    refine ⟨s.nodup, List.nodup_singleton _, ?_⟩
    intro d hd d' hd' heq
    obtain ⟨e, he, rfl⟩ := List.mem_map.mp hd
    obtain rfl := List.mem_singleton.mp hd'
    have hbound := s.bound e he
    rw [heq] at hbound
    exact absurd hbound (Nat.not_succ_le_self _)
  bound e he := by
    have hle : ∀ q, s.issued q ≤ Function.update s.issued queue (s.issued queue + 1) q := by
      intro q
      by_cases hq : q = queue
      · subst hq
        simp
      · simp [hq]
    rcases List.mem_append.mp he with he | he
    · exact (s.bound e he).trans (hle e.1.1)
    · obtain rfl := List.mem_singleton.mp he
      simp [nextTag]

end AmqpState

/-- The server.  A request that fails does not reach it. -/
def server (b : AmqpBroker) : Service requests where
  State := AmqpState
  Oracle := AmqpOracle
  respond o s
    | .utcNow => some (o.now, s)
    | .removeDelivery id =>
        some (s.deliveries id, { s with deliveries := Function.update s.deliveries id none })
    | .basicPublish request =>
        match o.failure with
        | some e => some (.error e, s)
        | none => some (.ok (), s.publish b request)
    | .basicAck delivery =>
        match o.failure with
        | some e => some (.error e, s)
        | none => some (.ok (), s.settle delivery)
    | .basicNack delivery requeue =>
        match o.failure with
        | some e => some (.error e, s)
        | none => some (.ok (), s.reject delivery requeue)

/-- A publication fails, and nothing has happened, or the text is published. -/
theorem server_publish {b : AmqpBroker} {o : AmqpOracle} {s s' : AmqpState}
    {request : PublishRequest} {ans : Except RequestError Unit}
    (h : (server b).respond o s (.basicPublish request) = some (ans, s')) :
    s' = s ∨ s' = s.publish b request := by
  simp only [server] at h
  cases hfail : o.failure <;> rw [hfail] at h <;> cases h
  · exact .inr rfl
  · exact .inl rfl

theorem server_ack {b : AmqpBroker} {o : AmqpOracle} {s s' : AmqpState} {delivery : Delivery}
    {ans : Except RequestError Unit}
    (h : (server b).respond o s (.basicAck delivery) = some (ans, s')) :
    s' = s ∨ s' = s.settle delivery := by
  simp only [server] at h
  cases hfail : o.failure <;> rw [hfail] at h <;> cases h
  · exact .inr rfl
  · exact .inl rfl

theorem server_nack {b : AmqpBroker} {o : AmqpOracle} {s s' : AmqpState} {delivery : Delivery}
    {requeue : Bool} {ans : Except RequestError Unit}
    (h : (server b).respond o s (.basicNack delivery requeue) = some (ans, s')) :
    s' = s ∨ s' = s.reject delivery requeue := by
  simp only [server] at h
  cases hfail : o.failure <;> rw [hfail] at h <;> cases h
  · exact .inr rfl
  · exact .inl rfl

/-! ## The broker -/

/-- What the broker uses of the JSON library. -/
structure AmqpCodec where
  rfc3339 : DateTime → String
  decodeMessage : String → Except String TaskMessage

namespace AmqpBroker

variable (b : AmqpBroker) (codec : AmqpCodec)

/-- `broker_err`. -/
def brokerErr (e : RequestError) : KojinError := .broker e

/-- A publication that ends a call. -/
def publishLast (request : PublishRequest) : Prog requests (TaskResult Unit) := do
  let answer ← Prog.perform (I := requests) (.basicPublish request)
  pure (answer.mapError brokerErr)

/-- The request of `AmqpBroker::enqueue`. -/
def direct (m : TaskMessage) : PublishRequest :=
  ⟨b.exchange, m.queue, m.encode codec.rfc3339, m.priority, none⟩

/-- `AmqpBroker::enqueue`. -/
def enqueue (m : TaskMessage) : Prog requests (TaskResult Unit) := publishLast (b.direct codec m)

/-- `(eta - now).num_milliseconds().max(0)`. -/
def delayMs (eta now : DateTime) : Int := max ((eta.nanos - now.nanos).tdiv 1000000) 0

/-- `AmqpBroker::schedule`; `as i32` wraps. -/
def schedule (m : TaskMessage) (eta : DateTime) : Prog requests (TaskResult Unit) := do
  let now ← Prog.perform (I := requests) .utcNow
  publishLast ⟨b.delayedExchange, m.queue, m.encode codec.rfc3339, none,
    some (Int32.ofInt (delayMs eta now))⟩

/-- `AmqpBroker::ack`. -/
def ack (id : TaskId) : Prog requests (TaskResult Unit) := do
  match ← Prog.perform (I := requests) (.removeDelivery id) with
  | none => pure (.ok ())
  | some delivery => do
      let answer ← Prog.perform (I := requests) (.basicAck delivery)
      pure (answer.mapError brokerErr)

/-- The common body of `AmqpBroker::nack` and `AmqpBroker::dead_letter`. -/
def rejectMessage (id : TaskId) (requeue : Bool) : Prog requests (TaskResult Unit) := do
  match ← Prog.perform (I := requests) (.removeDelivery id) with
  | none => pure (.ok ())
  | some delivery => do
      let answer ← Prog.perform (I := requests) (.basicNack delivery requeue)
      pure (answer.mapError brokerErr)

/-- `AmqpBroker::nack`. -/
def nack (m : TaskMessage) : Prog requests (TaskResult Unit) := rejectMessage m.id true

/-- `AmqpBroker::dead_letter`. -/
def deadLetter (m : TaskMessage) : Prog requests (TaskResult Unit) := rejectMessage m.id false

/-- `impl Broker for AmqpBroker`. -/
def driver : BrokerDriver requests
  | .enqueue m => b.enqueue codec m
  | .ack id => ack id
  | .nack m => nack m
  | .deadLetter m => deadLetter m
  | .schedule m eta => b.schedule codec m eta

/-! ## What makes messages arrive -/

/-- A delayed text becomes ready, a consumer is handed a ready one, or a worker polls
the channel.  The rejection of an unreadable text may be lost. -/
inductive Arrival where
  | mature (pick : Nat)
  | consume (pick : Nat) (lost : Bool)
  | poll

/-- The delayed text at this place becomes ready. -/
def mature (s : AmqpState) (pick : Nat) : Option AmqpState :=
  s.delayed[pick]?.map fun e =>
    { s with ready := s.ready ++ [e], delayed := s.delayed.eraseIdx pick }

/-- One round of the consumer loop: the delivered text is decoded, its tag remembered
and the message handed to the channel, or the text is rejected. -/
def consume (s : AmqpState) (pick : Nat) (lost : Bool) : Option AmqpState :=
  s.ready[pick]?.map fun e =>
    let tag := s.nextTag e.1
    let s' := s.deliver pick e.1 e.2
    match codec.decodeMessage e.2 with
    | .ok m =>
        { s' with
          deliveries := Function.update s'.deliveries m.id (some tag)
          channel := s'.channel ++ [m] }
    | .error _ => if lost then s' else s'.reject tag false

/-- `AmqpBroker::dequeue`: the next message of the channel. -/
def dequeue (s : AmqpState) : AmqpState × Option TaskMessage :=
  match s.channel with
  | [] => (s, none)
  | m :: rest => ({ s with channel := rest }, some m)

/-- What an arrival does. -/
def arrive (a : Arrival) (s : AmqpState) : Option (AmqpState × Option TaskMessage) :=
  match a with
  | .mature pick => (mature s pick).map fun s' => (s', none)
  | .consume pick lost => (consume codec s pick lost).map fun s' => (s', none)
  | .poll => some (dequeue s)

end AmqpBroker

end Kojin.Amqp
