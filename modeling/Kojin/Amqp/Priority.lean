/-
  Amqp/Priority.lean --- the priority property of messages in RabbitMQ (`kojin-amqp`:
  `AmqpBroker::enqueue`, `AmqpBroker::schedule`).

  A publication carries a body and properties, and the server keeps both: through the
  delayed exchange, a delivery, a rejection with requeue and dead-lettering.  `enqueue`
  sets the property to the priority of the message, `schedule` sets none.

  The server below is that of `Amqp.Broker` with the property beside each text;
  `texts` forgets it again, and what the one server does the other does.
-/
import Kojin.Core.Redelivery
import Kojin.Amqp.Redelivery

set_option autoImplicit false

namespace Kojin.Amqp

open Kojin.Foundation Kojin.Core

/-! ## The server -/

/-- A body, and the priority property. -/
structure Content where
  body : String
  priority : Option UInt8
  deriving DecidableEq

/-- `AmqpState`, with the property beside each text. -/
structure PropertyState where
  ready : List (String × Content)
  delayed : List (String × Content)
  unacked : List (Delivery × Content)
  dlq : List (String × Content)
  deliveries : TaskId → Option Delivery
  channel : List TaskMessage
  issued : String → Nat
  nodup : (unacked.map Prod.fst).Nodup
  bound : ∀ e ∈ unacked, e.1.2 ≤ issued e.1.1

/-- The body and the property of a request. -/
def PublishRequest.content (request : PublishRequest) : Content :=
  ⟨request.body, request.priority⟩

namespace PropertyState

/-- A server without messages. -/
def empty : PropertyState :=
  ⟨[], [], [], [], fun _ => none, [], fun _ => 0, List.nodup_nil, fun _ he => absurd he List.not_mem_nil⟩

/-- A publication, routed as in `AmqpState.publish`. -/
def publish (b : AmqpBroker) (s : PropertyState) (request : PublishRequest) : PropertyState :=
  if request.routingKey ∈ b.queues then
    if request.exchange = b.delayedExchange then
      { s with delayed := s.delayed ++ [(request.routingKey, request.content)] }
    else if request.exchange = b.exchange then
      { s with ready := s.ready ++ [(request.routingKey, request.content)] }
    else s
  else s

/-- Whether this was delivered so. -/
def isAt (delivery : Delivery) (e : Delivery × Content) : Bool := e.1 = delivery

/-- A delivery is settled. -/
def settle (s : PropertyState) (delivery : Delivery) : PropertyState :=
  { s with
    unacked := s.unacked.eraseP (isAt delivery)
    nodup := s.nodup.sublist (List.eraseP_sublist.map _)
    bound := fun e he => s.bound e (List.eraseP_sublist.subset he) }

/-- A delivery is rejected; what goes back or is dead-lettered keeps its property. -/
def reject (s : PropertyState) (delivery : Delivery) (requeue : Bool) : PropertyState :=
  match s.unacked.find? (isAt delivery) with
  | some e =>
      if requeue then { s.settle delivery with ready := s.ready ++ [(e.1.1, e.2)] }
      else { s.settle delivery with dlq := s.dlq ++ [(e.1.1, e.2)] }
  | none => s

/-- The next tag on the channel of a queue. -/
def nextTag (s : PropertyState) (queue : String) : Delivery := (queue, s.issued queue + 1)

/-- The content at this place is delivered under the next tag of its channel. -/
def deliver (s : PropertyState) (pick : Nat) (queue : String) (content : Content) :
    PropertyState where
  ready := s.ready.eraseIdx pick
  delayed := s.delayed
  unacked := s.unacked ++ [(s.nextTag queue, content)]
  dlq := s.dlq
  deliveries := s.deliveries
  channel := s.channel
  issued := Function.update s.issued queue (s.issued queue + 1)
  nodup := by
    rw [List.map_append, List.nodup_append]
    refine ⟨s.nodup, List.nodup_singleton _, ?_⟩
    intro d hd d' hd' heq
    obtain ⟨e, he, rfl⟩ := List.mem_map.mp hd
    obtain rfl := List.mem_singleton.mp hd'
    have hbound := s.bound e he
    rw [heq] at hbound
    exact absurd hbound (Nat.not_succ_le_self _)
  bound e he := by
    rcases List.mem_append.mp he with he | he
    · refine (s.bound e he).trans ?_
      by_cases hq : e.1.1 = queue
      · simp [hq]
      · simp [hq]
    · obtain rfl := List.mem_singleton.mp he
      simp [nextTag]

end PropertyState

/-- The server.  A request that fails does not reach it. -/
def propertyServer (b : AmqpBroker) : Service requests where
  State := PropertyState
  Oracle := AmqpOracle
  respond o s
    | .utcNow => some (o.now, s)
    | .removeDelivery id =>
        some (s.deliveries id, { s with deliveries := Function.update s.deliveries id none })
    | .basicPublish request =>
        match o.failure with
        | some e => some (.error e, s)
        | none => some (.ok (), s.publish b request)
    | .basicAck delivery =>
        match o.failure with
        | some e => some (.error e, s)
        | none => some (.ok (), s.settle delivery)
    | .basicNack delivery requeue =>
        match o.failure with
        | some e => some (.error e, s)
        | none => some (.ok (), s.reject delivery requeue)

namespace PropertyState

/-- The delayed content at this place becomes ready. -/
def mature (s : PropertyState) (pick : Nat) : Option PropertyState :=
  s.delayed[pick]?.map fun e =>
    { s with ready := s.ready ++ [e], delayed := s.delayed.eraseIdx pick }

/-- One round of the consumer loop, as in `AmqpBroker.consume`. -/
def consume (codec : AmqpCodec) (s : PropertyState) (pick : Nat) (lost : Bool) :
    Option PropertyState :=
  s.ready[pick]?.map fun e =>
    let tag := s.nextTag e.1
    let s' := s.deliver pick e.1 e.2
    match codec.decodeMessage e.2.body with
    | .ok m =>
        { s' with
          deliveries := Function.update s'.deliveries m.id (some tag)
          channel := s'.channel ++ [m] }
    | .error _ => if lost then s' else s'.reject tag false

/-- `AmqpBroker::dequeue`. -/
def dequeue (s : PropertyState) : PropertyState × Option TaskMessage :=
  match s.channel with
  | [] => (s, none)
  | m :: rest => ({ s with channel := rest }, some m)

/-- What an arrival does. -/
def arrive (codec : AmqpCodec) (a : AmqpBroker.Arrival) (s : PropertyState) :
    Option (PropertyState × Option TaskMessage) :=
  match a with
  | .mature pick => (s.mature pick).map fun s' => (s', none)
  | .consume pick lost => (s.consume codec pick lost).map fun s' => (s', none)
  | .poll => some s.dequeue

end PropertyState

/-- Workers over RabbitMQ. -/
def AmqpBroker.propertyCarrier (b : AmqpBroker) (codec : AmqpCodec) : Carrier where
  broker := wholeMethods (b.driver codec) (propertyServer b)
  Arrival := AmqpBroker.Arrival
  arrive := PropertyState.arrive codec

/-! ## Forgetting the property -/

/-- The bodies. -/
def bodies {α : Type} (contents : List (α × Content)) : List (α × String) :=
  contents.map fun e => (e.1, e.2.body)

theorem map_fst_bodies {α : Type} (contents : List (α × Content)) :
    (bodies contents).map Prod.fst = contents.map Prod.fst := by
  rw [bodies, List.map_map]
  rfl

namespace PropertyState

/-- The server without the properties. -/
def texts (s : PropertyState) : AmqpState where
  ready := bodies s.ready
  delayed := bodies s.delayed
  unacked := bodies s.unacked
  dlq := bodies s.dlq
  deliveries := s.deliveries
  channel := s.channel
  issued := s.issued
  nodup := by
    rw [map_fst_bodies]
    exact s.nodup
  bound := by
    intro e he
    obtain ⟨e', he', rfl⟩ := List.mem_map.mp he
    exact s.bound e' he'

section Texts

variable {b : AmqpBroker} {codec : AmqpCodec} {s s' : PropertyState}

/-- States with the same data are the same. -/
theorem amqpState_eq {t t' : AmqpState} (hready : t.ready = t'.ready)
    (hdelayed : t.delayed = t'.delayed) (hunacked : t.unacked = t'.unacked) (hdlq : t.dlq = t'.dlq)
    (hdeliveries : t.deliveries = t'.deliveries) (hchannel : t.channel = t'.channel)
    (hissued : t.issued = t'.issued) : t = t' := by
  cases t
  cases t'
  subst hready hdelayed hunacked hdlq hdeliveries hchannel hissued
  rfl

theorem texts_publish (request : PublishRequest) :
    (s.publish b request).texts = s.texts.publish b request := by
  unfold publish AmqpState.publish
  split
  · split
    · refine amqpState_eq rfl ?_ rfl rfl rfl rfl rfl
      exact List.map_append
    · split
      · refine amqpState_eq ?_ rfl rfl rfl rfl rfl rfl
        exact List.map_append
      · rfl
  · rfl

theorem texts_settle (delivery : Delivery) :
    (s.settle delivery).texts = s.texts.settle delivery := by
  refine amqpState_eq rfl rfl ?_ rfl rfl rfl rfl
  show bodies (s.unacked.eraseP (isAt delivery)) = (bodies s.unacked).eraseP _
  rw [bodies, bodies, List.eraseP_map]
  rfl

theorem texts_reject (delivery : Delivery) (requeue : Bool) :
    (s.reject delivery requeue).texts = s.texts.reject delivery requeue := by
  have hfind : s.texts.unacked.find? (AmqpState.isAt delivery) =
      (s.unacked.find? (isAt delivery)).map fun e => (e.1, e.2.body) := by
    show (bodies s.unacked).find? _ = _
    rw [bodies, List.find?_map]
    rfl
  have hunacked : (s.settle delivery).texts.unacked = (s.texts.settle delivery).unacked := by
    rw [texts_settle]
  unfold reject AmqpState.reject
  rw [hfind]
  cases s.unacked.find? (isAt delivery) with
  | none => rfl
  | some e =>
      cases requeue with
      | true => exact amqpState_eq List.map_append rfl hunacked rfl rfl rfl rfl
      | false => exact amqpState_eq rfl rfl hunacked List.map_append rfl rfl rfl

theorem texts_deliver (pick : Nat) (queue : String) (content : Content) :
    (s.deliver pick queue content).texts = s.texts.deliver pick queue content.body := by
  refine amqpState_eq ?_ rfl List.map_append rfl rfl rfl rfl
  exact (List.eraseIdx_map _ _ _).symm

/-- What the server answers and does, it does without the properties. -/
theorem respond_texts {o : AmqpOracle} {op : AmqpOp} {r : op.Res}
    (h : (propertyServer b).respond o s op = some (r, s')) :
    (server b).respond o s.texts op = some (r, s'.texts) := by
  cases op with
  | utcNow =>
      cases h
      rfl
  | removeDelivery id =>
      cases h
      rfl
  | basicPublish request =>
      simp only [propertyServer] at h
      simp only [server]
      cases hfail : o.failure <;> rw [hfail] at h <;> cases h
      · rw [texts_publish]
      · rfl
  | basicAck delivery =>
      simp only [propertyServer] at h
      simp only [server]
      cases hfail : o.failure <;> rw [hfail] at h <;> cases h
      · rw [texts_settle]
      · rfl
  | basicNack delivery requeue =>
      simp only [propertyServer] at h
      simp only [server]
      cases hfail : o.failure <;> rw [hfail] at h <;> cases h
      · rw [texts_reject]
      · rfl

theorem texts_mature {pick : Nat} (h : s.mature pick = some s') :
    AmqpBroker.mature s.texts pick = some s'.texts := by
  obtain ⟨e, he, rfl⟩ := Option.map_eq_some_iff.mp h
  have hpick : (bodies s.delayed)[pick]? = some (e.1, e.2.body) := by
    rw [bodies, List.getElem?_map, he]
    rfl
  have hready : bodies s.ready ++ [(e.1, e.2.body)] = bodies (s.ready ++ [e]) := by
    rw [bodies, bodies, List.map_append]
    rfl
  show (bodies s.delayed)[pick]?.map _ = _
  rw [hpick, Option.map_some]
  exact congrArg some (amqpState_eq hready (List.eraseIdx_map _ _ _) rfl rfl rfl rfl rfl)

theorem texts_consume {pick : Nat} {lost : Bool} (h : s.consume codec pick lost = some s') :
    AmqpBroker.consume codec s.texts pick lost = some s'.texts := by
  obtain ⟨e, he, rfl⟩ := Option.map_eq_some_iff.mp h
  have hpick : (bodies s.ready)[pick]? = some (e.1, e.2.body) := by
    rw [bodies, List.getElem?_map, he]
    rfl
  have hdeliver := texts_deliver (s := s) pick e.1 e.2
  show (bodies s.ready)[pick]?.map _ = _
  rw [hpick, Option.map_some]
  refine congrArg some ?_
  dsimp only
  cases codec.decodeMessage e.2.body with
  | ok m => rw [← hdeliver]; rfl
  | error _ =>
      cases lost with
      | true => exact hdeliver.symm
      | false =>
          show (s.texts.deliver pick e.1 e.2.body).reject _ false = _
          rw [← hdeliver]
          exact (texts_reject _ _).symm

/-- An arrival does to the texts what it does without the properties. -/
theorem arrive_texts {a : AmqpBroker.Arrival} {m : Option TaskMessage}
    (h : s.arrive codec a = some (s', m)) :
    AmqpBroker.arrive codec a s.texts = some (s'.texts, m) := by
  cases a with
  | mature pick =>
      obtain ⟨s₁, hmature, heq⟩ := Option.map_eq_some_iff.mp h
      cases heq
      exact Option.map_eq_some_iff.mpr ⟨s'.texts, texts_mature hmature, rfl⟩
  | consume pick lost =>
      obtain ⟨s₁, hconsume, heq⟩ := Option.map_eq_some_iff.mp h
      cases heq
      exact Option.map_eq_some_iff.mpr ⟨s'.texts, texts_consume hconsume, rfl⟩
  | poll =>
      have hpoll : s.dequeue = (s', m) := Option.some.inj h
      show some (AmqpBroker.dequeue s.texts) = _
      unfold dequeue at hpoll
      unfold AmqpBroker.dequeue
      show some (match s.channel with | [] => _ | m :: rest => _) = _
      cases hchannel : s.channel with
      | nil =>
          rw [hchannel] at hpoll
          cases hpoll
          rfl
      | cons x rest =>
          rw [hchannel] at hpoll
          cases hpoll
          rfl

end Texts

end PropertyState

/-- A method of the broker, without the properties. -/
theorem broker_texts {b : AmqpBroker} {codec : AmqpCodec} {s s' : PropertyState}
    {os : List AmqpOracle} {op : BrokerOp} {r : TaskResult Unit}
    (h : (b.propertyCarrier codec).broker.respond os s op = some (r, s')) :
    (b.carrier codec).broker.respond os s.texts op = some (r, s'.texts) := by
  obtain ⟨⟨tr, a, s₁⟩, hrun, heq⟩ := Option.map_eq_some_iff.mp h
  cases heq
  have hmap := Service.run_map (S := propertyServer b) (server b) PropertyState.texts id
    (fun _ _ _ _ _ hr => PropertyState.respond_texts hr) hrun
  have hos : os.map (id : AmqpOracle → AmqpOracle) = os := List.map_id os
  exact Option.map_eq_some_iff.mpr ⟨(tr, a, s₁.texts), hos ▸ hmap, rfl⟩

/-! ## The invariant -/

/-- The property is the priority of the message in the body. -/
def Labelled (codec : AmqpCodec) (c : Content) : Prop :=
  ∀ m, codec.decodeMessage c.body = .ok m → c.priority = m.priority

/-- The property of every message in a queue, ready or delivered, is the priority in its body. -/
def QueuesLabelled (codec : AmqpCodec) (s : PropertyState) : Prop :=
  (∀ e ∈ s.ready, Labelled codec e.2) ∧ ∀ e ∈ s.unacked, Labelled codec e.2

/-- The property of every message the server has is the priority in its body. -/
structure AllLabelled (codec : AmqpCodec) (s : PropertyState) : Prop where
  ready : ∀ e ∈ s.ready, Labelled codec e.2
  delayed : ∀ e ∈ s.delayed, Labelled codec e.2
  unacked : ∀ e ∈ s.unacked, Labelled codec e.2

/-- A publication with the right property. -/
def Labels (codec : AmqpCodec) : AmqpOp → Prop
  | .basicPublish request => Labelled codec request.content
  | _ => True

section Invariant

variable {b : AmqpBroker} {codec : AmqpCodec} {s s' : PropertyState} {m : TaskMessage}

/-- A new one among labelled ones. -/
theorem labelled_snoc {α : Type} {contents : List (α × Content)} {e : α × Content}
    (h : ∀ e ∈ contents, Labelled codec e.2) (he : Labelled codec e.2) :
    ∀ e' ∈ contents ++ [e], Labelled codec e'.2 := by
  intro e' he'
  rcases List.mem_append.mp he' with he' | he'
  · exact h e' he'
  · obtain rfl := List.mem_singleton.mp he'
    exact he

namespace AllLabelled

theorem publish (h : AllLabelled codec s) {request : PublishRequest}
    (hrequest : Labelled codec request.content) : AllLabelled codec (s.publish b request) := by
  unfold PropertyState.publish
  split
  · split
    · exact ⟨h.ready, labelled_snoc h.delayed hrequest, h.unacked⟩
    · split
      · exact ⟨labelled_snoc h.ready hrequest, h.delayed, h.unacked⟩
      · exact h
  · exact h

theorem settle (h : AllLabelled codec s) (delivery : Delivery) :
    AllLabelled codec (s.settle delivery) :=
  ⟨h.ready, h.delayed, fun e he => h.unacked e (List.eraseP_sublist.subset he)⟩

theorem reject (h : AllLabelled codec s) (delivery : Delivery) (requeue : Bool) :
    AllLabelled codec (s.reject delivery requeue) := by
  unfold PropertyState.reject
  split
  · rename_i e hfind
    have he := h.unacked e (List.mem_of_find?_eq_some hfind)
    have hsettle := h.settle delivery
    cases requeue with
    | true => exact ⟨labelled_snoc h.ready he, h.delayed, hsettle.unacked⟩
    | false => exact ⟨hsettle.ready, hsettle.delayed, hsettle.unacked⟩
  · exact h

theorem deliver (h : AllLabelled codec s) (pick : Nat) (queue : String) {content : Content}
    (hcontent : Labelled codec content) : AllLabelled codec (s.deliver pick queue content) :=
  ⟨fun e he => h.ready e (List.mem_of_mem_eraseIdx he), h.delayed,
    labelled_snoc h.unacked hcontent⟩

/-- A request that labels what it publishes. -/
theorem respond (h : AllLabelled codec s) {o : AmqpOracle} {op : AmqpOp} {r : op.Res}
    (hop : Labels codec op) (hrespond : (propertyServer b).respond o s op = some (r, s')) :
    AllLabelled codec s' := by
  cases op with
  | utcNow =>
      cases hrespond
      exact h
  | removeDelivery id =>
      cases hrespond
      exact ⟨h.ready, h.delayed, h.unacked⟩
  | basicPublish request =>
      simp only [propertyServer] at hrespond
      cases hfail : o.failure <;> rw [hfail] at hrespond <;> cases hrespond
      · exact h.publish hop
      · exact h
  | basicAck delivery =>
      simp only [propertyServer] at hrespond
      cases hfail : o.failure <;> rw [hfail] at hrespond <;> cases hrespond
      · exact h.settle delivery
      · exact h
  | basicNack delivery requeue =>
      simp only [propertyServer] at hrespond
      cases hfail : o.failure <;> rw [hfail] at hrespond <;> cases hrespond
      · exact h.reject delivery requeue
      · exact h

theorem mature (h : AllLabelled codec s) {pick : Nat} (hmature : s.mature pick = some s') :
    AllLabelled codec s' := by
  obtain ⟨e, he, rfl⟩ := Option.map_eq_some_iff.mp hmature
  exact ⟨labelled_snoc h.ready (h.delayed e (List.mem_of_getElem? he)),
    fun e' he' => h.delayed e' (List.mem_of_mem_eraseIdx he'), h.unacked⟩

theorem consume (h : AllLabelled codec s) {pick : Nat} {lost : Bool}
    (hconsume : s.consume codec pick lost = some s') : AllLabelled codec s' := by
  obtain ⟨e, he, rfl⟩ := Option.map_eq_some_iff.mp hconsume
  have hdeliver := h.deliver pick e.1 (h.ready e (List.mem_of_getElem? he))
  dsimp only
  split
  · exact ⟨hdeliver.ready, hdeliver.delayed, hdeliver.unacked⟩
  · split
    · exact hdeliver
    · exact hdeliver.reject _ false

theorem arrive (h : AllLabelled codec s) {a : AmqpBroker.Arrival} {x : Option TaskMessage}
    (harrive : s.arrive codec a = some (s', x)) : AllLabelled codec s' := by
  cases a with
  | mature pick =>
      obtain ⟨s₁, hmature, heq⟩ := Option.map_eq_some_iff.mp harrive
      cases heq
      exact h.mature hmature
  | consume pick lost =>
      obtain ⟨s₁, hconsume, heq⟩ := Option.map_eq_some_iff.mp harrive
      cases heq
      exact h.consume hconsume
  | poll =>
      have hpoll : s.dequeue = (s', x) := Option.some.inj harrive
      unfold PropertyState.dequeue at hpoll
      split at hpoll
      · cases hpoll
        exact h
      · cases hpoll
        exact ⟨h.ready, h.delayed, h.unacked⟩

end AllLabelled

/-- `schedule` sends messages without a priority only. -/
def BrokerOp.SchedulesPlain : BrokerOp → Prop
  | .schedule m _ => m.priority = none
  | _ => True

/-- The message that a call sends. -/
def BrokerOp.sent : BrokerOp → Option TaskMessage
  | .enqueue m => some m
  | .schedule m _ => some m
  | _ => none

/-- The text of a legible message, with its priority. -/
theorem labelled_encode (h : codec.Legible m) :
    Labelled codec ⟨m.encode codec.rfc3339, m.priority⟩ := by
  intro m' hm'
  have heq : (Except.ok m : Except String TaskMessage) = .ok m' := h.symm.trans hm'
  cases heq
  rfl

/-- The requests of a method that sends a legible message, and schedules it only without
a priority. -/
theorem calls_driver (op : BrokerOp) (hplain : BrokerOp.SchedulesPlain op)
    (hlegible : ∀ m, BrokerOp.sent op = some m → codec.Legible m) :
    (b.driver codec op).Calls (Labels codec) := by
  have hreject : ∀ id requeue, (AmqpBroker.rejectMessage id requeue).Calls (Labels codec) := by
    intro id requeue
    refine ⟨trivial, fun found => ?_⟩
    cases found with
    | none => trivial
    | some delivery => exact ⟨trivial, fun _ => trivial⟩
  cases op with
  | enqueue m => exact ⟨labelled_encode (hlegible m rfl), fun _ => trivial⟩
  | schedule m eta =>
      have hlabelled := labelled_encode (hlegible m rfl)
      rw [show m.priority = none from hplain] at hlabelled
      exact ⟨trivial, fun _ => ⟨hlabelled, fun _ => trivial⟩⟩
  | ack id =>
      refine ⟨trivial, fun found => ?_⟩
      cases found with
      | none => trivial
      | some delivery => exact ⟨trivial, fun _ => trivial⟩
  | nack m => exact hreject m.id true
  | deadLetter m => exact hreject m.id false

/-- A method of the broker. -/
theorem AllLabelled.method (h : AllLabelled codec s) {os : List AmqpOracle} {op : BrokerOp}
    {r : TaskResult Unit} (hplain : BrokerOp.SchedulesPlain op)
    (hlegible : ∀ m, BrokerOp.sent op = some m → codec.Legible m)
    (hmethod : (b.propertyCarrier codec).broker.respond os s op = some (r, s')) :
    AllLabelled codec s' := by
  obtain ⟨⟨tr, a, s₁⟩, hrun, heq⟩ := Option.map_eq_some_iff.mp hmethod
  cases heq
  exact Service.run_keeps (fun o s op r s' hs hop hr => hs.respond hop hr)
    (calls_driver op hplain hlegible) hrun h

end Invariant

/-! ## Runs -/

/-- A step schedules messages without a priority only. -/
def SchedulesPlain {C : Carrier} {S : Service resultBackendTrait} {workerCodec : Codec}
    (_ : (deployment C S workerCodec).Config) : (deployment C S workerCodec).Label → Prop
  | .call ⟨.broker op, _⟩ => BrokerOp.SchedulesPlain op
  | _ => True

/-- The priority property along a run.  Clients are programs of their own beside the
executions.  In a run in which no message with a priority is scheduled, neither by a
client nor by the eta guard, every message in a queue has its priority as its property. -/
theorem priority_kept {b : AmqpBroker} {codec : AmqpCodec} {S : Service resultBackendTrait}
    {workerCodec : Codec} {backends : S.State} {clients : List (Prog traits Unit)}
    {history : List (deployment (b.propertyCarrier codec) S workerCodec).Label}
    {c : (deployment (b.propertyCarrier codec) S workerCodec).Config}
    (h : Machine.ReachIf SchedulesPlain ⟨(PropertyState.empty, backends), clients⟩ history c)
    (hlegible : ∀ l ∈ history, ∀ m, sentBy l = some m → codec.Legible m) :
    QueuesLabelled codec c.state.1 := by
  have hall : AllLabelled codec c.state.1 := by
    induction h with
    | start => exact ⟨nofun, nofun, nofun⟩
    | @step history c c' l _ hplain hstep ih =>
        have hbefore := ih fun l hl => hlegible l (List.mem_append_left _ hl)
        have hlast : ∀ m, sentBy l = some m → codec.Legible m :=
          hlegible l (List.mem_append_right _ List.mem_cons_self)
        cases hstep with
        | @call o s s' op r k before after hrespond =>
            cases op with
            | runtime op =>
                cases hrespond
                exact hbefore
            | backend op =>
                obtain ⟨p, -, heq⟩ := Option.map_eq_some_iff.mp hrespond
                cases heq
                exact hbefore
            | broker op =>
                obtain ⟨p, hmethod, heq⟩ := Option.map_eq_some_iff.mp hrespond
                cases heq
                refine hbefore.method hplain (fun m hm => hlast m ?_) hmethod
                cases op <;> exact hm
        | env x threads haccept =>
            cases x with
            | enqueue o m =>
                obtain ⟨p, hmethod, heq⟩ := Option.map_eq_some_iff.mp haccept
                cases heq
                have hplain' : BrokerOp.SchedulesPlain (.enqueue m) := trivial
                exact hbefore.method hplain' hlast hmethod
            | arrive w a =>
                obtain ⟨p, harrive, heq⟩ := Option.map_eq_some_iff.mp haccept
                cases heq
                exact hbefore.arrive harrive
  exact ⟨hall.ready, hall.unacked⟩

/-! ## An urgent message -/

/-- A message with a priority, and one that is to wait besides. -/
def urgentTask : TaskMessage := { plainMessage ⟨7⟩ with priority := some 5 }
def urgentLater : TaskMessage := { urgentTask with eta := some ⟨1⟩ }

/-- A codec that reads this message only. -/
def codecFor (m : TaskMessage) : AmqpCodec :=
  ⟨fun _ => "", fun text => if text = m.encode fun _ => "" then .ok m else .error "unreadable"⟩

theorem codecFor_legible (m : TaskMessage) : (codecFor m).Legible m := by
  simp [AmqpCodec.Legible, codecFor]

/-- Workers over one queue, with the in-memory result backend. -/
abbrev urgentPair (m : TaskMessage) : Machine traits :=
  deployment (AmqpBroker.oneQueue.propertyCarrier (codecFor m)) MemoryResultBackend.service
    blankCodec

/-- Nothing has been sent yet. -/
def urgentOrigin (m : TaskMessage) : (urgentPair m).Config :=
  ⟨(PropertyState.empty, MemoryResultBackend.new), []⟩

/-- The message is enqueued and delivered, a worker polls it, and its execution makes `n`
calls. -/
def deliveredRun (m : TaskMessage) (n : Nat) (runtime : RuntimeOracle) : List (urgentPair m).Move :=
  let w : Worker := ⟨["t"], [], false⟩
  [.env (.enqueue [AmqpBroker.arrives] m), .env (.arrive w (.consume 0 false)),
    .env (.arrive w .poll)] ++
    List.replicate n (.run 0 ⟨runtime, [AmqpBroker.arrives, AmqpBroker.arrives], ()⟩)

/-- The execution fails and the message is put back. -/
def requeued : List (urgentPair urgentTask).Move := deliveredRun urgentTask 7 failingRuntime

theorem requeued_plays : ((urgentOrigin urgentTask).playAll requeued).isSome = true := by
  decide +kernel

/-- How that ends. -/
def requeuedEnd : List (urgentPair urgentTask).Label × (urgentPair urgentTask).Config :=
  ((urgentOrigin urgentTask).playAll requeued).get requeued_plays

/-- What can be tested of a step that schedules no priority. -/
def schedulesPlain {m : TaskMessage} (_ : (urgentPair m).Config) : (urgentPair m).Label → Bool
  | .call ⟨.broker (.schedule m _), _⟩ => m.priority.isNone
  | _ => true

theorem schedulesPlain_of_test {m : TaskMessage} (c : (urgentPair m).Config)
    (l : (urgentPair m).Label) (h : schedulesPlain c l = true) : SchedulesPlain c l := by
  cases l with
  | env x => trivial
  | call e =>
      obtain ⟨op, r⟩ := e
      cases op with
      | broker op => cases op <;> first | trivial | exact Option.isNone_iff_eq_none.mp h
      | _ => trivial

set_option maxRecDepth 100000 in
theorem requeued_history : requeuedEnd.1.filterMap sentBy = [urgentTask] := rfl

/-- The message is back with its priority. -/
theorem priority_kept_requeued :
    (requeuedEnd.2.state.1.ready.map fun e => e.2.priority) = [some 5] ∧
      QueuesLabelled (codecFor urgentTask) requeuedEnd.2.state.1 := by
  have hplays : (urgentOrigin urgentTask).playAll requeued =
      some (requeuedEnd.1, requeuedEnd.2) := by
    rw [Prod.mk.eta, requeuedEnd, Option.some_get]
  have hkeeps : (urgentOrigin urgentTask).keeps schedulesPlain requeued = true := by
    decide +kernel
  have hreach : Machine.ReachIf SchedulesPlain (urgentOrigin urgentTask) requeuedEnd.1
      requeuedEnd.2 := Machine.Config.reachIf_of_keeps schedulesPlain_of_test hplays hkeeps
  have hkept : ∀ {history : List (urgentPair urgentTask).Label}
      {c : (urgentPair urgentTask).Config},
      Machine.ReachIf SchedulesPlain (urgentOrigin urgentTask) history c →
        history.filterMap sentBy = [urgentTask] →
          QueuesLabelled (codecFor urgentTask) c.state.1 :=
    fun hreach hsent =>
      priority_kept hreach (legible_of_sent (codecFor_legible urgentTask) hsent)
  exact ⟨by decide +kernel, hkept hreach requeued_history⟩

/-- The eta guard sends the message to the delayed exchange, and it is delivered again. -/
def rescheduled : List (urgentPair urgentLater).Move :=
  deliveredRun urgentLater 4 stillRuntime ++ [.env (.arrive ⟨["t"], [], false⟩ (.mature 0))]

theorem rescheduled_plays : ((urgentOrigin urgentLater).playAll rescheduled).isSome = true := by
  decide +kernel

/-- How that ends. -/
def rescheduledEnd : List (urgentPair urgentLater).Label × (urgentPair urgentLater).Config :=
  ((urgentOrigin urgentLater).playAll rescheduled).get rescheduled_plays

/-- One message is in its queue, and it has no priority property. -/
def PropertyState.singleBare (s : PropertyState) (text : String) : Bool :=
  match s.ready with
  | [(_, e)] => decide (e.body = text) && e.priority.isNone
  | _ => false

theorem PropertyState.singleBare_ready {s : PropertyState} {text : String}
    (h : s.singleBare text = true) : ∃ name, s.ready = [(name, ⟨text, none⟩)] := by
  unfold singleBare at h
  split at h
  next name e hready =>
    obtain ⟨body, priority⟩ := e
    simp only [Bool.and_eq_true, decide_eq_true_eq, Option.isNone_iff_eq_none] at h
    exact ⟨name, by rw [hready, h.1, h.2]⟩
  next => cases h

theorem rescheduled_bare :
    rescheduledEnd.2.state.1.singleBare (urgentLater.encode fun _ => "") = true := by
  decide +kernel

/-- The eta guard loses the priority: the message is in its queue without the property. -/
theorem priority_lost :
    (urgentPair urgentLater).Reach (urgentOrigin urgentLater) rescheduledEnd.1 rescheduledEnd.2 ∧
      (∃ name, rescheduledEnd.2.state.1.ready =
        [(name, ⟨urgentLater.encode fun _ => "", none⟩)]) ∧
      ¬ QueuesLabelled (codecFor urgentLater) rescheduledEnd.2.state.1 := by
  obtain ⟨name, hready⟩ := PropertyState.singleBare_ready rescheduled_bare
  refine ⟨Machine.Config.reach_of_get rescheduled_plays, ⟨name, hready⟩, fun hkept => ?_⟩
  have hmem : (name, ⟨urgentLater.encode fun _ => "", none⟩) ∈ rescheduledEnd.2.state.1.ready := by
    rw [hready]
    exact List.mem_cons_self
  have hlabelled := hkept.1 _ hmem
  have hnone := hlabelled urgentLater (codecFor_legible urgentLater)
  cases hnone

end Kojin.Amqp
