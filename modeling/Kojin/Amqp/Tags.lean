/-
  Amqp/Tags.lean --- delivery tags, with the consumer tasks and the callers step by step
  (`kojin-amqp`: `broker.rs`).

  A delivery has one owner at a time and is handed on:

      buffered     the client library
      received     the consumer task of the queue, which is to decode it
      recorded     the same task, with the tag in the map and the message to be sent
      sent         the channel
      dequeued     a worker
      settling     a call of `ack`, `nack` or `dead_letter`
      refused      nobody; the consumer task has rejected it

  The map is shared by all of them.  Between any two steps of one task or call come any
  steps of the others, of the server and of the outside; the lock that a call holds over
  its request only removes interleavings.
-/
import Kojin.Amqp.Redelivery

set_option autoImplicit false

namespace Kojin.Amqp

open Kojin.Foundation Kojin.Core

/-! ## Settling a message -/

/-- The calls that settle a message. -/
inductive Settlement where
  | ack
  | nack
  | deadLetter
  deriving DecidableEq, Repr

namespace Settlement

/-- The method. -/
def method : Settlement → TaskMessage → Prog requests (TaskResult Unit)
  | ack, m => AmqpBroker.ack m.id
  | nack, m => AmqpBroker.nack m
  | deadLetter, m => AmqpBroker.deadLetter m

/-- What is left of it once the tag is known. -/
def request : Settlement → Delivery → Prog requests (TaskResult Unit)
  | ack, d => .call (.basicAck d) fun answer => .ret (answer.mapError AmqpBroker.brokerErr)
  | nack, d => .call (.basicNack d true) fun answer => .ret (answer.mapError AmqpBroker.brokerErr)
  | deadLetter, d =>
      .call (.basicNack d false) fun answer => .ret (answer.mapError AmqpBroker.brokerErr)

/-- What is left of it once the map has answered. -/
def afterRemoval (k : Settlement) : Option Delivery → Prog requests (TaskResult Unit)
  | none => .ret (.ok ())
  | some d => k.request d

/-- The method takes the tag out of the map and makes its request. -/
theorem method_eq (k : Settlement) (m : TaskMessage) :
    k.method m = .call (.removeDelivery m.id) k.afterRemoval := by
  have hcall : ∀ f : Option Delivery → Prog requests (TaskResult Unit), f = k.afterRemoval →
      Prog.call (I := requests) (.removeDelivery m.id) f =
        .call (.removeDelivery m.id) k.afterRemoval := fun f hf => by rw [hf]
  cases k with
  | ack =>
      refine hcall _ (funext fun answer => ?_)
      cases answer <;> rfl
  | nack =>
      refine hcall _ (funext fun answer => ?_)
      cases answer <;> rfl
  | deadLetter =>
      refine hcall _ (funext fun answer => ?_)
      cases answer <;> rfl

end Settlement

/-! ## Deliveries and their owners -/

/-- Who has a delivery, and what he knows of it. -/
inductive Owner where
  | buffered
  | received
  | recorded (m : TaskMessage)
  | sent (m : TaskMessage)
  | dequeued (m : TaskMessage)
  | settling (id : TaskId) (rest : Prog requests (TaskResult Unit))
  | refused

namespace Owner

/-- The consumer task of the queue is at work. -/
def busy : Owner → Bool
  | received => true
  | recorded _ => true
  | _ => false

/-- The identifier, from when the tag is recorded until it is taken out of the map. -/
def held : Owner → Option TaskId
  | recorded m => some m.id
  | sent m => some m.id
  | dequeued m => some m.id
  | settling id (.call (.removeDelivery _) _) => some id
  | _ => none

/-- The server has not been told what becomes of the text. -/
def isOpen : Owner → Bool
  | settling _ (.ret _) => false
  | refused => false
  | _ => true

/-- The tag has been taken out of the map. -/
def begun : Owner → Bool
  | settling _ (.call (.removeDelivery _) _) => false
  | settling _ _ => true
  | _ => false

/-- The message in the channel. -/
def inChannel : Owner → Option TaskMessage
  | sent m => some m
  | _ => none

theorem isOpen_of_held {o : Owner} {i : TaskId} (h : o.held = some i) : o.isOpen = true := by
  cases o with
  | settling j rest =>
      cases rest with
      | ret out => cases h
      | call op next => rfl
  | refused => cases h
  | _ => rfl

theorem begun_of_held {o : Owner} {i : TaskId} (h : o.held = some i) : o.begun = false := by
  cases o with
  | settling j rest =>
      cases rest with
      | ret out => cases h
      | call op next =>
          cases op with
          | removeDelivery _ => rfl
          | _ => cases h
  | _ => rfl

end Owner

/-- A delivery, its text and its owner. -/
structure Parcel where
  delivery : Delivery
  body : String
  owner : Owner

/-- The server with the map and the channel, the deliveries there have been, and the
consumer tasks that have stopped.  The rest is history: the tags that were recorded,
what the calls did for the delivery their caller dequeued, and the tags that were
rejected. -/
structure Net where
  server : AmqpState
  parcels : Multiset Parcel
  stopped : List String
  recorded : List (TaskId × Delivery)
  calls : List (Delivery × Event requests)
  refusals : List Delivery

namespace Net

variable (b : AmqpBroker) (codec : AmqpCodec)

/-- The texts the server has. -/
def texts (s : AmqpState) : Multiset String :=
  Multiset.ofList (s.ready.map Prod.snd) + Multiset.ofList (s.delayed.map Prod.snd) +
    Multiset.ofList (s.unacked.map Prod.snd)

/-- The identifier of a text. -/
def idOf (text : String) : Option TaskId := (AmqpBroker.readable codec text).map TaskMessage.id

/-- The identifiers of the messages that are alive. -/
def alive (s : AmqpState) : Multiset TaskId := (texts s).filterMap (idOf codec)

/-- The consumer task of this queue waits for a delivery. -/
def Waits (s : Net) (queue : String) : Prop :=
  queue ∉ s.stopped ∧ ∀ p ∈ s.parcels, p.delivery.1 = queue → p.owner.busy = false

/-- One step. -/
inductive Step : Net → Net → Prop where
  /-- a text arrives at a queue; its identifier is not that of a message alive -/
  | publish {s : Net} {queue body : String} :
      (∀ i, idOf codec body = some i → i ∉ alive codec s.server) →
      Step s { s with server := { s.server with ready := s.server.ready ++ [(queue, body)] } }
  /-- so does one in the delayed exchange -/
  | delay {s : Net} {queue body : String} :
      (∀ i, idOf codec body = some i → i ∉ alive codec s.server) →
      Step s { s with server := { s.server with delayed := s.server.delayed ++ [(queue, body)] } }
  | mature {s : Net} {server' : AmqpState} (pick : Nat) :
      AmqpBroker.mature s.server pick = some server' → Step s { s with server := server' }
  /-- another consumer of the queue takes a text, or it expires -/
  | vanish {s : Net} (pick : Nat) :
      Step s { s with server := { s.server with ready := s.server.ready.eraseIdx pick } }
  | deliver {s : Net} {queue body : String} (pick : Nat) :
      s.server.ready[pick]? = some (queue, body) →
      Step s { s with
        server := s.server.deliver pick queue body
        parcels := ⟨s.server.nextTag queue, body, .buffered⟩ ::ₘ s.parcels }
  /-- `consumer.next()` -/
  | receive {s : Net} {d : Delivery} {body : String} {others : Multiset Parcel} :
      s.parcels = ⟨d, body, .buffered⟩ ::ₘ others → s.Waits d.1 →
      Step s { s with parcels := ⟨d, body, .received⟩ ::ₘ others }
  /-- `deliveries.lock().await.insert(task_id, entry)` -/
  | record {s : Net} {d : Delivery} {body : String} {others : Multiset Parcel} {m : TaskMessage} :
      s.parcels = ⟨d, body, .received⟩ ::ₘ others → codec.decodeMessage body = .ok m →
      Step s { s with
        server := { s.server with deliveries := Function.update s.server.deliveries m.id (some d) }
        parcels := ⟨d, body, .recorded m⟩ ::ₘ others
        recorded := s.recorded ++ [(m.id, d)] }
  /-- `ch.basic_nack` of a text that cannot be read -/
  | refuse {s : Net} {d : Delivery} {body e : String} {others : Multiset Parcel}
      {server' : AmqpState} {answer : Except RequestError Unit} (o : AmqpOracle) :
      s.parcels = ⟨d, body, .received⟩ ::ₘ others → codec.decodeMessage body = .error e →
      (Kojin.Amqp.server b).respond o s.server (.basicNack d false) = some (answer, server') →
      Step s { s with
        server := server'
        parcels := ⟨d, body, .refused⟩ ::ₘ others
        refusals := s.refusals ++ [d] }
  /-- `tx.send(msg)` -/
  | send {s : Net} {d : Delivery} {body : String} {others : Multiset Parcel} {m : TaskMessage} :
      s.parcels = ⟨d, body, .recorded m⟩ ::ₘ others →
      Step s { s with
        server := { s.server with channel := s.server.channel ++ [m] }
        parcels := ⟨d, body, .sent m⟩ ::ₘ others }
  /-- the consumer task ends -/
  | stop {s : Net} {queue : String} : s.Waits queue →
      Step s { s with stopped := queue :: s.stopped }
  /-- `AmqpBroker::dequeue` -/
  | dequeue {s : Net} {d : Delivery} {body : String} {others : Multiset Parcel} {m : TaskMessage}
      {server' : AmqpState} :
      AmqpBroker.dequeue s.server = (server', some m) →
      s.parcels = ⟨d, body, .sent m⟩ ::ₘ others →
      Step s { s with server := server', parcels := ⟨d, body, .dequeued m⟩ ::ₘ others }
  /-- a call is made for a dequeued message, or for a copy in which its fields are changed -/
  | settle {s : Net} {d : Delivery} {body : String} {others : Multiset Parcel}
      {m m' : TaskMessage} (k : Settlement) :
      s.parcels = ⟨d, body, .dequeued m⟩ ::ₘ others → m'.id = m.id →
      Step s { s with parcels := ⟨d, body, .settling m.id (k.method m')⟩ ::ₘ others }
  /-- the next call of such a call -/
  | call {s : Net} {d : Delivery} {body : String} {others : Multiset Parcel} {i : TaskId}
      {op : AmqpOp} {next : op.Res → Prog requests (TaskResult Unit)} {r : op.Res}
      {server' : AmqpState} (o : AmqpOracle) :
      s.parcels = ⟨d, body, .settling i (.call op next)⟩ ::ₘ others →
      (Kojin.Amqp.server b).respond o s.server op = some (r, server') →
      Step s { s with
        server := server'
        parcels := ⟨d, body, .settling i (next r)⟩ ::ₘ others
        calls := s.calls ++ [(d, ⟨op, r⟩)] }

/-- A server whose messages have distinct identifiers, and a broker that has just
connected. -/
structure IsStart (s : Net) : Prop where
  alive : (alive codec s.server).Nodup
  unacked : s.server.unacked = []
  deliveries : ∀ i, s.server.deliveries i = none
  channel : s.server.channel = []
  parcels : s.parcels = 0
  recorded : s.recorded = []
  calls : s.calls = []
  refusals : s.refusals = []

/-- What can come about. -/
inductive Reachable : Net → Prop where
  | start {s : Net} : IsStart codec s → Reachable s
  | step {s s' : Net} : Reachable s → Step b codec s s' → Reachable s'

/-- The tag a call asks the server to settle. -/
def tagOf : Delivery × Event requests → Option Delivery
  | (_, ⟨.basicAck d, _⟩) => some d
  | (_, ⟨.basicNack d _, _⟩) => some d
  | _ => none

/-- The tags that the server was asked to settle. -/
def resolved (s : Net) : List Delivery := s.calls.filterMap tagOf ++ s.refusals

/-- The call of the caller who dequeued this delivery has taken a tag out of the map. -/
def Begun (s : Net) (d : Delivery) : Prop := ∃ i r, (d, ⟨.removeDelivery i, r⟩) ∈ s.calls

/-- What a call does concerns the delivery that its caller dequeued. -/
def Own (d : Delivery) : Event requests → Prop
  | ⟨.removeDelivery _, r⟩ => r = some d
  | ⟨.basicAck d', _⟩ => d' = d
  | ⟨.basicNack d' _, _⟩ => d' = d
  | _ => False

/-! ## The invariant -/

/-- How far a call is. -/
inductive Form (i : TaskId) (d : Delivery) : Prog requests (TaskResult Unit) → Prop where
  | start (k : Settlement) : Form i d (.call (.removeDelivery i) k.afterRemoval)
  | request (k : Settlement) : Form i d (k.request d)
  | finished (out : TaskResult Unit) : Form i d (.ret out)

/-- What holds all along. -/
structure Inv (s : Net) : Prop where
  nodup : (s.parcels.map Parcel.delivery).Nodup
  bound : ∀ p ∈ s.parcels, p.delivery.2 ≤ s.server.issued p.delivery.1
  unacked : ∀ p ∈ s.parcels, p.owner.isOpen = true → (p.delivery, p.body) ∈ s.server.unacked
  reads : ∀ p ∈ s.parcels, ∀ i, p.owner.held = some i → idOf codec p.body = some i
  alive : (alive codec s.server).Nodup
  holders : ∀ i d, s.server.deliveries i = some d ↔
    ∃ p ∈ s.parcels, p.delivery = d ∧ p.owner.held = some i
  form : ∀ p ∈ s.parcels, ∀ i rest, p.owner = .settling i rest → Form i p.delivery rest
  channel : Multiset.ofList s.server.channel = s.parcels.filterMap fun p => p.owner.inChannel
  noted : ∀ p ∈ s.parcels, ∀ i, p.owner.held = some i → (i, p.delivery) ∈ s.recorded
  recorded : ∀ i d, (i, d) ∈ s.recorded → s.Begun d ∨
    ∃ p ∈ s.parcels, p.delivery = d ∧ p.owner.held = some i
  begun : ∀ d, s.Begun d → ∃ p ∈ s.parcels, p.delivery = d ∧ p.owner.begun = true
  own : ∀ d e, (d, e) ∈ s.calls → Own d e
  once : s.resolved.Nodup
  resolved : ∀ d ∈ s.resolved, ∃ p ∈ s.parcels, p.delivery = d ∧ p.owner.isOpen = false

variable {b codec} {s s' : Net}

/-! ## Texts -/

/-- Elements with one image that occurs once are one. -/
theorem eq_of_nodup_filterMap {α β : Type} {f : α → Option β} {l : List α} {a a' : α} {c : β}
    (h : (l.filterMap f).Nodup) (ha : a ∈ l) (ha' : a' ∈ l) (hf : f a = some c)
    (hf' : f a' = some c) : a = a' := by
  induction l with
  | nil => cases ha
  | cons x l ih =>
      have hlater : ∀ y ∈ l, f y = some c → f x ≠ some c := by
        intro y hy hfy hfx
        rw [List.filterMap_cons_some hfx, List.nodup_cons] at h
        exact h.1 (List.mem_filterMap.mpr ⟨y, hy, hfy⟩)
      rcases List.mem_cons.mp ha with hax | ha
      · rcases List.mem_cons.mp ha' with hax' | ha'
        · rw [hax, hax']
        · exact absurd (hax ▸ hf) (hlater a' ha' hf')
      · rcases List.mem_cons.mp ha' with hax' | ha'
        · exact absurd (hax' ▸ hf') (hlater a ha hf)
        · refine ih ?_ ha ha'
          cases hx : f x with
          | none => rwa [List.filterMap_cons_none hx] at h
          | some y =>
              rw [List.filterMap_cons_some hx, List.nodup_cons] at h
              exact h.2

/-- Of the texts that are delivered and not settled, one has an identifier. -/
theorem eq_of_id {server : AmqpState} {e e' : Delivery × String} {i : TaskId}
    (halive : (Net.alive codec server).Nodup) (he : e ∈ server.unacked) (he' : e' ∈ server.unacked)
    (hi : idOf codec e.2 = some i) (hi' : idOf codec e'.2 = some i) : e = e' := by
  have hle : Multiset.ofList (server.unacked.filterMap fun e => idOf codec e.2) ≤
      Net.alive codec server := by
    rw [Net.alive, texts, Multiset.filterMap_add]
    refine le_trans (le_of_eq ?_) (Multiset.le_add_left _ _)
    rw [Multiset.filterMap_coe, List.filterMap_map]
    rfl
  have hnodup : (server.unacked.filterMap fun e => idOf codec e.2).Nodup :=
    Multiset.coe_nodup.mp (Multiset.nodup_of_le hle halive)
  exact eq_of_nodup_filterMap hnodup he he' hi hi'

/-- Fewer texts are alive. -/
theorem alive_mono {server server' : AmqpState} (h : texts server' ≤ texts server)
    (halive : (Net.alive codec server).Nodup) : (Net.alive codec server').Nodup :=
  Multiset.nodup_of_le (Multiset.filterMap_le_filterMap _ h) halive

/-- A text with an identifier of its own is added. -/
theorem alive_cons {server server' : AmqpState} {body : String}
    (h : texts server' = body ::ₘ texts server)
    (hnew : ∀ i, idOf codec body = some i → i ∉ Net.alive codec server)
    (halive : (Net.alive codec server).Nodup) : (Net.alive codec server').Nodup := by
  rw [Net.alive, h]
  cases hid : idOf codec body with
  | none => rwa [Multiset.filterMap_cons_none _ _ hid]
  | some i =>
      rw [Multiset.filterMap_cons_some _ _ _ hid, Multiset.nodup_cons]
      exact ⟨hnew i hid, halive⟩

/-- A text that is moved to the end of a list. -/
theorem coe_eraseIdx {α : Type} {l : List (α × String)} {e : α × String} {pick : Nat}
    (h : l[pick]? = some e) : Multiset.ofList (l.map Prod.snd) =
      e.2 ::ₘ Multiset.ofList ((l.eraseIdx pick).map Prod.snd) := by
  obtain ⟨hlt, rfl⟩ := List.getElem?_eq_some_iff.mp h
  have hperm := (List.getElem_cons_eraseIdx_perm hlt).map Prod.snd
  exact (Multiset.coe_eq_coe.mpr hperm).symm

theorem coe_map_snoc {α : Type} (l : List (α × String)) (a : α) (body : String) :
    Multiset.ofList ((l ++ [(a, body)]).map Prod.snd) =
      body ::ₘ Multiset.ofList (l.map Prod.snd) := by
  rw [List.map_append, ← Multiset.coe_add, Multiset.cons_coe, add_comm]
  rfl

theorem texts_publish (server : AmqpState) (queue body : String) :
    texts { server with ready := server.ready ++ [(queue, body)] } = body ::ₘ texts server := by
  rw [texts, coe_map_snoc, texts, Multiset.cons_add, Multiset.cons_add]

theorem texts_delay (server : AmqpState) (queue body : String) :
    texts { server with delayed := server.delayed ++ [(queue, body)] } = body ::ₘ texts server := by
  rw [texts, coe_map_snoc, texts, Multiset.add_cons, Multiset.cons_add]

theorem texts_mature {server server' : AmqpState} {pick : Nat}
    (h : AmqpBroker.mature server pick = some server') : texts server' = texts server := by
  obtain ⟨e, hpick, rfl⟩ := Option.map_eq_some_iff.mp h
  rw [texts, texts, coe_map_snoc, coe_eraseIdx hpick, Multiset.add_cons, Multiset.cons_add]

theorem texts_vanish (server : AmqpState) (pick : Nat) :
    texts { server with ready := server.ready.eraseIdx pick } ≤ texts server := by
  have hsublist := (List.eraseIdx_sublist server.ready pick).map Prod.snd
  exact add_le_add_left (add_le_add_left (Multiset.coe_le.mpr hsublist.subperm) _) _

theorem texts_deliver {server : AmqpState} {pick : Nat} {queue body : String}
    (h : server.ready[pick]? = some (queue, body)) :
    texts (server.deliver pick queue body) = texts server := by
  rw [texts, texts, coe_eraseIdx h, AmqpState.deliver, coe_map_snoc, Multiset.add_cons,
    Multiset.cons_add, Multiset.cons_add]

theorem texts_settle (server : AmqpState) (d : Delivery) :
    texts (server.settle d) ≤ texts server := by
  have hsublist := (List.eraseP_sublist (p := AmqpState.isAt d) (l := server.unacked)).map Prod.snd
  exact add_le_add_right (Multiset.coe_le.mpr hsublist.subperm) _

/-- The first element of a kind is the one that is erased. -/
theorem perm_eraseP {α : Type} {p : α → Bool} {l : List α} {a : α} (h : l.find? p = some a) :
    l.Perm (a :: l.eraseP p) := by
  obtain ⟨hpos, before, after, rfl, hbefore⟩ := List.find?_eq_some_iff_append.mp h
  have hnot : ∀ x ∈ before, ¬ p x = true := by
    intro x hx hpx
    have hno := hbefore x hx
    rw [hpx] at hno
    cases hno
  rw [List.eraseP_append_right _ hnot, List.eraseP_cons_of_pos hpos]
  exact List.perm_middle

theorem texts_reject (server : AmqpState) (d : Delivery) (requeue : Bool) :
    texts (server.reject d requeue) ≤ texts server := by
  unfold AmqpState.reject
  split
  · rename_i e hfind
    cases requeue with
    | false => exact texts_settle server d
    | true =>
        have hperm : Multiset.ofList (server.unacked.map Prod.snd) =
            e.2 ::ₘ Multiset.ofList ((server.settle d).unacked.map Prod.snd) :=
          Multiset.coe_eq_coe.mpr ((perm_eraseP hfind).map Prod.snd)
        refine le_of_eq ?_
        calc texts { server.settle d with ready := server.ready ++ [(e.1.1, e.2)] }
            = e.2 ::ₘ texts (server.settle d) := texts_publish (server.settle d) e.1.1 e.2
          _ = texts server := by
              rw [texts, texts, hperm, Multiset.add_cons]
              rfl
  · exact le_rfl

/-! ## Settled texts -/

/-- Settling a text leaves the others. -/
theorem mem_settle {server : AmqpState} {d : Delivery} {e : Delivery × String}
    (he : e ∈ server.unacked) (hne : e.1 ≠ d) : e ∈ (server.settle d).unacked := by
  have hnot : ¬ AmqpState.isAt d e = true := by
    simpa [AmqpState.isAt] using hne
  exact (List.mem_eraseP_of_neg hnot).mpr he

/-- What a request to settle a text may do to the server. -/
structure Resolves (d : Delivery) (server server' : AmqpState) : Prop where
  deliveries : server'.deliveries = server.deliveries
  channel : server'.channel = server.channel
  issued : server'.issued = server.issued
  texts : texts server' ≤ texts server
  unacked : ∀ e ∈ server.unacked, e.1 ≠ d → e ∈ server'.unacked

theorem Resolves.refl (d : Delivery) (server : AmqpState) : Resolves d server server :=
  ⟨rfl, rfl, rfl, le_rfl, fun _ he _ => he⟩

theorem resolves_settle (server : AmqpState) (d : Delivery) : Resolves d server (server.settle d) :=
  ⟨rfl, rfl, rfl, texts_settle server d, fun _ he hne => mem_settle he hne⟩

theorem resolves_reject (server : AmqpState) (d : Delivery) (requeue : Bool) :
    Resolves d server (server.reject d requeue) := by
  have htexts := texts_reject server d requeue
  rcases server.reject_cases d requeue with heq | ⟨text, -, heq⟩
  · rw [heq]
    exact .refl d server
  · rw [heq] at htexts ⊢
    cases requeue with
    | true => exact ⟨rfl, rfl, rfl, htexts, fun _ he hne => mem_settle he hne⟩
    | false => exact ⟨rfl, rfl, rfl, htexts, fun _ he hne => mem_settle he hne⟩

theorem resolves_basicAck {o : AmqpOracle} {server server' : AmqpState} {d : Delivery}
    {answer : Except RequestError Unit}
    (h : (Kojin.Amqp.server b).respond o server (.basicAck d) = some (answer, server')) :
    Resolves d server server' := by
  rcases server_ack h with rfl | rfl
  · exact .refl d _
  · exact resolves_settle _ d

theorem resolves_basicNack {o : AmqpOracle} {server server' : AmqpState} {d : Delivery}
    {requeue : Bool} {answer : Except RequestError Unit}
    (h : (Kojin.Amqp.server b).respond o server (.basicNack d requeue) = some (answer, server')) :
    Resolves d server server' := by
  rcases server_nack h with rfl | rfl
  · exact .refl d _
  · exact resolves_reject _ d requeue

/-! ## Steps -/

variable {d : Delivery} {body : String} {owner owner' : Owner} {others : Multiset Parcel}

theorem mem_split (hsplit : s.parcels = ⟨d, body, owner⟩ ::ₘ others) :
    ⟨d, body, owner⟩ ∈ s.parcels := by
  rw [hsplit]
  exact Multiset.mem_cons_self _ _

theorem mem_others (hsplit : s.parcels = ⟨d, body, owner⟩ ::ₘ others) {p : Parcel}
    (hp : p ∈ others) : p ∈ s.parcels := by
  rw [hsplit]
  exact Multiset.mem_cons_of_mem hp

/-- No two parcels have the same delivery. -/
theorem Inv.ne_of_mem_others (hi : Inv codec s)
    (hsplit : s.parcels = ⟨d, body, owner⟩ ::ₘ others) {p : Parcel} (hp : p ∈ others) :
    p.delivery ≠ d := by
  have hnodup := hi.nodup
  rw [hsplit, Multiset.map_cons, Multiset.nodup_cons] at hnodup
  intro heq
  have hmem := Multiset.mem_map_of_mem Parcel.delivery hp
  rw [heq] at hmem
  exact hnodup.1 hmem

/-- What holds of the parcel that changes its owner and of the others, holds of all. -/
theorem forall_move {P : Parcel → Prop} (hnew : P ⟨d, body, owner'⟩)
    (hothers : ∀ p ∈ others, P p) : ∀ p ∈ (⟨d, body, owner'⟩ ::ₘ others : Multiset Parcel), P p := by
  intro p hp
  rcases Multiset.mem_cons.mp hp with rfl | hp
  · exact hnew
  · exact hothers p hp

/-- Some parcel of this delivery is there, whoever owns it now. -/
theorem exists_move {e : Delivery} {P : Owner → Prop} (hP : P owner → P owner')
    (h : ∃ p ∈ (⟨d, body, owner⟩ ::ₘ others : Multiset Parcel), p.delivery = e ∧ P p.owner) :
    ∃ p ∈ (⟨d, body, owner'⟩ ::ₘ others : Multiset Parcel), p.delivery = e ∧ P p.owner := by
  obtain ⟨p, hp, he, hown⟩ := h
  rcases Multiset.mem_cons.mp hp with rfl | hp
  · exact ⟨_, Multiset.mem_cons_self _ _, he, hP hown⟩
  · exact ⟨p, Multiset.mem_cons_of_mem hp, he, hown⟩

/-- The tags of the deliveries do not depend on their owners. -/
theorem map_move (hsplit : s.parcels = ⟨d, body, owner⟩ ::ₘ others) :
    (⟨d, body, owner'⟩ ::ₘ others : Multiset Parcel).map Parcel.delivery =
      s.parcels.map Parcel.delivery := by
  rw [hsplit, Multiset.map_cons, Multiset.map_cons]

/-- A delivery that is not in the channel. -/
theorem filterMap_skip (h : owner.inChannel = none) :
    (⟨d, body, owner⟩ ::ₘ others : Multiset Parcel).filterMap (fun p => p.owner.inChannel) =
      others.filterMap fun p => p.owner.inChannel :=
  Multiset.filterMap_cons_none _ _ h

/-- A delivery that is in the channel. -/
theorem filterMap_sent {m : TaskMessage} :
    (⟨d, body, .sent m⟩ ::ₘ others : Multiset Parcel).filterMap (fun p => p.owner.inChannel) =
      m ::ₘ others.filterMap fun p => p.owner.inChannel :=
  Multiset.filterMap_cons_some _ _ _ rfl

/-- A delivery is handed on, and the map stays. -/
theorem Inv.move (hi : Inv codec s) (hsplit : s.parcels = ⟨d, body, owner⟩ ::ₘ others)
    {channel : List TaskMessage} (hheld : owner'.held = owner.held) (hopen : owner.isOpen = true)
    (hbegun : owner.begun = false)
    (hform : ∀ i rest, owner' = .settling i rest → Form i d rest)
    (hchannel : Multiset.ofList channel =
      (⟨d, body, owner'⟩ ::ₘ others : Multiset Parcel).filterMap fun p => p.owner.inChannel) :
    Inv codec { s with
      server := { s.server with channel := channel }
      parcels := ⟨d, body, owner'⟩ ::ₘ others } where
  nodup := by
    rw [map_move hsplit]
    exact hi.nodup
  bound := forall_move (hi.bound ⟨d, body, owner⟩ (mem_split hsplit)) fun p hp =>
    hi.bound p (mem_others hsplit hp)
  unacked := forall_move (fun _ => hi.unacked ⟨d, body, owner⟩ (mem_split hsplit) hopen) fun p hp =>
    hi.unacked p (mem_others hsplit hp)
  reads := forall_move (fun i h => hi.reads ⟨d, body, owner⟩ (mem_split hsplit) i (hheld ▸ h))
    fun p hp => hi.reads p (mem_others hsplit hp)
  alive := hi.alive
  holders i e := by
    rw [hi.holders, hsplit]
    constructor
    · exact exists_move (P := fun o => o.held = some i) fun h => hheld.trans h
    · exact exists_move (P := fun o => o.held = some i) fun h => hheld.symm.trans h
  form := forall_move hform fun p hp => hi.form p (mem_others hsplit hp)
  channel := hchannel
  noted := forall_move (fun i h => hi.noted ⟨d, body, owner⟩ (mem_split hsplit) i (hheld ▸ h))
    fun p hp => hi.noted p (mem_others hsplit hp)
  recorded i e he := (hi.recorded i e he).imp_right fun h =>
    exists_move (P := fun o => o.held = some i) (fun h => hheld.trans h) (hsplit ▸ h)
  begun e he := exists_move (P := fun o => o.begun = true)
    (fun h => by rw [hbegun] at h; cases h) (hsplit ▸ hi.begun e he)
  own := hi.own
  once := hi.once
  resolved e he := exists_move (P := fun o => o.isOpen = false)
    (fun h => by rw [hopen] at h; cases h) (hsplit ▸ hi.resolved e he)

/-- The server's texts change, and those that are delivered do not. -/
theorem Inv.outside (hi : Inv codec s) {server' : AmqpState} {stopped' : List String}
    (hunacked : server'.unacked = s.server.unacked)
    (hdeliveries : server'.deliveries = s.server.deliveries)
    (hchannel : server'.channel = s.server.channel) (hissued : server'.issued = s.server.issued)
    (halive : (Net.alive codec server').Nodup) :
    Inv codec { s with server := server', stopped := stopped' } where
  nodup := hi.nodup
  bound := by
    rw [hissued]
    exact hi.bound
  unacked := by
    rw [hunacked]
    exact hi.unacked
  reads := hi.reads
  alive := halive
  holders := by
    rw [hdeliveries]
    exact hi.holders
  form := hi.form
  channel := by
    rw [hchannel]
    exact hi.channel
  noted := hi.noted
  recorded := hi.recorded
  begun := hi.begun
  own := hi.own
  once := hi.once
  resolved := hi.resolved

/-- A delivery under a new tag. -/
theorem Inv.deliver (hi : Inv codec s) {queue : String} {pick : Nat}
    (hpick : s.server.ready[pick]? = some (queue, body)) :
    Inv codec { s with
      server := s.server.deliver pick queue body
      parcels := ⟨s.server.nextTag queue, body, .buffered⟩ ::ₘ s.parcels } where
  nodup := by
    rw [Multiset.map_cons, Multiset.nodup_cons]
    refine ⟨fun hmem => ?_, hi.nodup⟩
    obtain ⟨p, hp, heq⟩ := Multiset.mem_map.mp hmem
    have hle := hi.bound p hp
    rw [heq] at hle
    exact absurd hle (Nat.not_succ_le_self _)
  bound := by
    have hle : ∀ q, s.server.issued q ≤ (s.server.deliver pick queue body).issued q := by
      intro q
      by_cases hq : q = queue
      · subst hq
        simp [AmqpState.deliver]
      · simp [AmqpState.deliver, hq]
    refine forall_move ?_ fun p hp => (hi.bound p hp).trans (hle _)
    simp [AmqpState.nextTag, AmqpState.deliver]
  unacked := forall_move
    (fun _ => List.mem_append.mpr (.inr (List.mem_singleton.mpr rfl))) fun p hp h =>
      List.mem_append.mpr (.inl (hi.unacked p hp h))
  reads := forall_move (fun i h => by cases h) hi.reads
  alive := by
    rw [Net.alive, texts_deliver hpick]
    exact hi.alive
  holders i e := by
    refine (hi.holders i e).trans ⟨?_, ?_⟩
    · rintro ⟨p, hp, h⟩
      exact ⟨p, Multiset.mem_cons_of_mem hp, h⟩
    · rintro ⟨p, hp, he, hheld⟩
      rcases Multiset.mem_cons.mp hp with rfl | hp
      · cases hheld
      · exact ⟨p, hp, he, hheld⟩
  form := forall_move (fun i rest h => by cases h) hi.form
  channel := by
    rw [filterMap_skip rfl]
    exact hi.channel
  noted := forall_move (fun i h => by cases h) hi.noted
  recorded i e he := (hi.recorded i e he).imp_right fun ⟨p, hp, h⟩ =>
    ⟨p, Multiset.mem_cons_of_mem hp, h⟩
  begun e he := by
    obtain ⟨p, hp, h⟩ := hi.begun e he
    exact ⟨p, Multiset.mem_cons_of_mem hp, h⟩
  own := hi.own
  once := hi.once
  resolved e he := by
    obtain ⟨p, hp, h⟩ := hi.resolved e he
    exact ⟨p, Multiset.mem_cons_of_mem hp, h⟩

/-- One delivery is held for an identifier. -/
theorem Inv.eq_of_held (hi : Inv codec s) {p p' : Parcel} {i : TaskId} (hp : p ∈ s.parcels)
    (hp' : p' ∈ s.parcels) (hopen : p.owner.isOpen = true) (hopen' : p'.owner.isOpen = true)
    (hid : idOf codec p.body = some i) (hid' : idOf codec p'.body = some i) :
    p.delivery = p'.delivery :=
  congrArg Prod.fst
    (eq_of_id hi.alive (hi.unacked p hp hopen) (hi.unacked p' hp' hopen') hid hid')

/-- The consumer task records a tag. -/
theorem Inv.record (hi : Inv codec s) {m : TaskMessage}
    (hsplit : s.parcels = ⟨d, body, .received⟩ ::ₘ others)
    (hdecode : codec.decodeMessage body = .ok m) :
    Inv codec { s with
      server := { s.server with deliveries := Function.update s.server.deliveries m.id (some d) }
      parcels := ⟨d, body, .recorded m⟩ ::ₘ others
      recorded := s.recorded ++ [(m.id, d)] } := by
  have hid : idOf codec body = some m.id := by
    rw [idOf, AmqpBroker.readable, hdecode]
    rfl
  -- no other delivery is held for the identifier
  have hfree : ∀ p ∈ others, p.owner.held ≠ some m.id := by
    intro p hp hheld
    have hsame := hi.eq_of_held (mem_others hsplit hp) (mem_split hsplit)
      (Owner.isOpen_of_held hheld) rfl (hi.reads p (mem_others hsplit hp) _ hheld) hid
    exact hi.ne_of_mem_others hsplit hp hsame
  constructor
  · rw [map_move hsplit]
    exact hi.nodup
  · exact forall_move (hi.bound ⟨d, body, .received⟩ (mem_split hsplit)) fun p hp =>
      hi.bound p (mem_others hsplit hp)
  · exact forall_move (fun _ => hi.unacked ⟨d, body, .received⟩ (mem_split hsplit) rfl) fun p hp =>
      hi.unacked p (mem_others hsplit hp)
  · refine forall_move (fun i h => ?_) fun p hp => hi.reads p (mem_others hsplit hp)
    cases h
    exact hid
  · exact hi.alive
  · intro i e
    by_cases hsame : i = m.id
    · subst hsame
      simp only [Function.update_self, Option.some.injEq]
      constructor
      · rintro rfl
        exact ⟨_, Multiset.mem_cons_self _ _, rfl, rfl⟩
      · rintro ⟨p, hp, rfl, hheld⟩
        rcases Multiset.mem_cons.mp hp with rfl | hp
        · rfl
        · exact absurd hheld (hfree p hp)
    · have hother : ∀ o : Owner, o = .received ∨ o = .recorded m → o.held ≠ some i := by
        rintro o (rfl | rfl) h
        · cases h
        · cases h
          exact hsame rfl
      simp only [Function.update_of_ne hsame]
      rw [hi.holders, hsplit]
      constructor
      · exact exists_move (P := fun o => o.held = some i) fun h => absurd h (hother _ (.inl rfl))
      · exact exists_move (P := fun o => o.held = some i) fun h => absurd h (hother _ (.inr rfl))
  · exact forall_move (fun i rest h => by cases h) fun p hp => hi.form p (mem_others hsplit hp)
  · have hchannel := hi.channel
    rw [hsplit, filterMap_skip rfl] at hchannel
    rw [filterMap_skip rfl]
    exact hchannel
  · refine forall_move (fun i h => ?_) fun p hp i h =>
      List.mem_append.mpr (.inl (hi.noted p (mem_others hsplit hp) i h))
    cases h
    exact List.mem_append.mpr (.inr (List.mem_singleton.mpr rfl))
  · intro i e he
    rcases List.mem_append.mp he with he | he
    · refine (hi.recorded i e he).imp_right fun h => ?_
      exact exists_move (P := fun o => o.held = some i) (fun h => by cases h) (hsplit ▸ h)
    · cases List.mem_singleton.mp he
      exact .inr ⟨_, Multiset.mem_cons_self _ _, rfl, rfl⟩
  · intro e he
    exact exists_move (P := fun o => o.begun = true) (fun h => by cases h) (hsplit ▸ hi.begun e he)
  · exact hi.own
  · exact hi.once
  · intro e he
    exact exists_move (P := fun o => o.isOpen = false) (fun h => by cases h)
      (hsplit ▸ hi.resolved e he)

/-- The server is asked to settle a text, and its delivery is over. -/
theorem Inv.resolve (hi : Inv codec s) (hsplit : s.parcels = ⟨d, body, owner⟩ ::ₘ others)
    {server' : AmqpState} {calls' : List (Delivery × Event requests)} {refusals' : List Delivery}
    (hopen : owner.isOpen = true) (hclosed : owner'.isOpen = false)
    (hheld : owner.held = none) (hheld' : owner'.held = none)
    (hbegun : owner.begun = true → owner'.begun = true)
    (hform : ∀ i rest, owner' = .settling i rest → Form i d rest)
    (hchannel : owner.inChannel = none) (hchannel' : owner'.inChannel = none)
    (hserver : Resolves d s.server server')
    (hcalls : ∀ e, Begun ⟨server', ⟨d, body, owner'⟩ ::ₘ others, s.stopped, s.recorded, calls',
      refusals'⟩ e ↔ s.Begun e)
    (hown : ∀ e ev, (e, ev) ∈ calls' → Own e ev)
    (hresolved : (calls'.filterMap tagOf ++ refusals').Perm (d :: s.resolved)) :
    Inv codec ⟨server', ⟨d, body, owner'⟩ ::ₘ others, s.stopped, s.recorded, calls', refusals'⟩ where
  nodup := by
    rw [map_move hsplit]
    exact hi.nodup
  bound := by
    rw [hserver.issued]
    exact forall_move (hi.bound ⟨d, body, owner⟩ (mem_split hsplit)) fun p hp =>
      hi.bound p (mem_others hsplit hp)
  unacked := by
    refine forall_move (fun h => ?_) fun p hp h => ?_
    · rw [hclosed] at h
      cases h
    · exact hserver.unacked _ (hi.unacked p (mem_others hsplit hp) h)
        (hi.ne_of_mem_others hsplit hp)
  reads := by
    refine forall_move (fun i h => ?_) fun p hp => hi.reads p (mem_others hsplit hp)
    rw [hheld'] at h
    cases h
  alive := alive_mono hserver.texts hi.alive
  holders i e := by
    rw [hserver.deliveries, hi.holders, hsplit]
    constructor
    · exact exists_move (P := fun o => o.held = some i) fun h => by
        rw [hheld] at h
        cases h
    · exact exists_move (P := fun o => o.held = some i) fun h => by
        rw [hheld'] at h
        cases h
  form := forall_move hform fun p hp => hi.form p (mem_others hsplit hp)
  channel := by
    have hbefore := hi.channel
    rw [hsplit, filterMap_skip hchannel] at hbefore
    rw [hserver.channel, filterMap_skip hchannel']
    exact hbefore
  noted := by
    refine forall_move (fun i h => ?_) fun p hp => hi.noted p (mem_others hsplit hp)
    rw [hheld'] at h
    cases h
  recorded i e he := by
    rw [hcalls]
    refine (hi.recorded i e he).imp_right fun h => ?_
    refine exists_move (P := fun o => o.held = some i) (fun h => ?_) (hsplit ▸ h)
    rw [hheld] at h
    cases h
  begun e he := exists_move (P := fun o => o.begun = true) hbegun
    (hsplit ▸ hi.begun e ((hcalls e).mp he))
  own := hown
  once := by
    refine hresolved.nodup_iff.mpr (List.nodup_cons.mpr ?_)
    refine ⟨fun hmem => ?_, hi.once⟩
    -- a tag that was asked for belongs to a delivery that is over
    obtain ⟨p, hp, hd, hover⟩ := hi.resolved d hmem
    rw [hsplit] at hp
    rcases Multiset.mem_cons.mp hp with rfl | hp
    · rw [hopen] at hover
      cases hover
    · exact hi.ne_of_mem_others hsplit hp hd
  resolved e he := by
    rcases List.mem_cons.mp (hresolved.mem_iff.mp he) with rfl | he
    · exact ⟨_, Multiset.mem_cons_self _ _, rfl, hclosed⟩
    · exact exists_move (P := fun o => o.isOpen = false) (fun _ => hclosed)
        (hsplit ▸ hi.resolved e he)

/-- A call takes the tag out of the map: it is that of the delivery its caller has
dequeued. -/
theorem Inv.removal (hi : Inv codec s) {i : TaskId} (k : Settlement)
    {next : Option Delivery → Prog requests (TaskResult Unit)} (hnext : next = k.afterRemoval)
    (hsplit : s.parcels =
      ⟨d, body, .settling i (.call (.removeDelivery i) next)⟩ ::ₘ others) :
    s.server.deliveries i = some d ∧ Inv codec { s with
      server := { s.server with deliveries := Function.update s.server.deliveries i none }
      parcels := ⟨d, body, .settling i (next (some d))⟩ ::ₘ others
      calls := s.calls ++ [(d, ⟨.removeDelivery i, some d⟩)] } := by
  have hmem := mem_split hsplit
  have hbound := hi.bound _ hmem
  have hunacked := hi.unacked _ hmem rfl
  have hremoved : s.server.deliveries i = some d := (hi.holders i d).mpr ⟨_, hmem, rfl, rfl⟩
  refine ⟨hremoved, ?_⟩
  subst hnext
  -- the owner after the removal
  obtain ⟨hheld', hbegun', hopen'⟩ : (Owner.settling i (k.request d)).held = none ∧
      (Owner.settling i (k.request d)).begun = true ∧
      (Owner.settling i (k.request d)).isOpen = true := by
    cases k <;> exact ⟨rfl, rfl, rfl⟩
  have hbegun : ∀ e, Begun { s with
      calls := s.calls ++ [(d, ⟨.removeDelivery i, some d⟩)] } e ↔ s.Begun e ∨ e = d := by
    intro e
    constructor
    · rintro ⟨j, r, hcall⟩
      rcases List.mem_append.mp hcall with hcall | hcall
      · exact .inl ⟨j, r, hcall⟩
      · exact .inr (Prod.mk.inj (List.mem_singleton.mp hcall)).1
    · rintro (⟨j, r, hcall⟩ | rfl)
      · exact ⟨j, r, List.mem_append.mpr (.inl hcall)⟩
      · exact ⟨i, some e, List.mem_append.mpr (.inr (List.mem_singleton.mpr rfl))⟩
  have hresolved : Net.resolved { s with
      calls := s.calls ++ [(d, ⟨.removeDelivery i, some d⟩)] } = s.resolved := by
    rw [Net.resolved, List.filterMap_append, Net.resolved]
    exact congrArg (· ++ s.refusals) (List.append_nil _)
  constructor
  · rw [map_move hsplit]
    exact hi.nodup
  · exact forall_move hbound fun p hp => hi.bound p (mem_others hsplit hp)
  · exact forall_move (fun _ => hunacked) fun p hp => hi.unacked p (mem_others hsplit hp)
  · refine forall_move (fun j h => ?_) fun p hp => hi.reads p (mem_others hsplit hp)
    cases hheld'.symm.trans h
  · exact hi.alive
  · intro j e
    by_cases hj : j = i
    · subst hj
      simp only [Function.update_self]
      refine iff_of_false (fun h => by cases h) ?_
      rintro ⟨p, hp, -, hheld⟩
      rcases Multiset.mem_cons.mp hp with rfl | hp
      · cases hheld'.symm.trans hheld
      · have hp' := mem_others hsplit hp
        have hsame := hi.eq_of_held hp' hmem (Owner.isOpen_of_held hheld) rfl
          (hi.reads p hp' _ hheld) (hi.reads _ hmem j rfl)
        exact hi.ne_of_mem_others hsplit hp hsame
    · simp only [Function.update_of_ne hj]
      rw [hi.holders, hsplit]
      constructor
      · exact exists_move (P := fun o => o.held = some j) fun h => by
          cases h
          exact absurd rfl hj
      · exact exists_move (P := fun o => o.held = some j) fun h => by
          cases hheld'.symm.trans h
  · refine forall_move (fun j rest h => ?_) fun p hp => hi.form p (mem_others hsplit hp)
    cases h
    exact .request k
  · have hbefore := hi.channel
    rw [hsplit, filterMap_skip rfl] at hbefore
    rw [filterMap_skip rfl]
    exact hbefore
  · refine forall_move (fun j h => ?_) fun p hp => hi.noted p (mem_others hsplit hp)
    cases hheld'.symm.trans h
  · intro j e he
    by_cases hed : e = d
    · exact .inl ((hbegun e).mpr (.inr hed))
    · rcases hi.recorded j e he with hbefore | ⟨p, hp, hpe, hheld⟩
      · exact .inl ((hbegun e).mpr (.inl hbefore))
      · rw [hsplit] at hp
        rcases Multiset.mem_cons.mp hp with rfl | hp
        · exact absurd hpe.symm hed
        · exact .inr ⟨p, Multiset.mem_cons_of_mem hp, hpe, hheld⟩
  · intro e he
    rcases (hbegun e).mp he with he | rfl
    · exact exists_move (P := fun o => o.begun = true) (fun _ => hbegun') (hsplit ▸ hi.begun e he)
    · exact ⟨_, Multiset.mem_cons_self _ _, rfl, hbegun'⟩
  · intro e ev he
    rcases List.mem_append.mp he with he | he
    · exact hi.own e ev he
    · cases List.mem_singleton.mp he
      exact rfl
  · exact hresolved ▸ hi.once
  · intro e he
    exact exists_move (P := fun o => o.isOpen = false) (fun h => by cases h)
      (hsplit ▸ hi.resolved e (hresolved ▸ he))

/-- A call makes its request. -/
theorem Inv.request (hi : Inv codec s) {i : TaskId} {op : AmqpOp} {r : op.Res}
    {next : op.Res → Prog requests (TaskResult Unit)} {server' : AmqpState}
    {out : TaskResult Unit}
    (hsplit : s.parcels = ⟨d, body, .settling i (.call op next)⟩ ::ₘ others)
    (hheld : (Owner.settling i (.call op next)).held = none)
    (htag : tagOf (d, ⟨op, r⟩) = some d) (hown : Own d ⟨op, r⟩)
    (hremoval : ∀ j, op ≠ .removeDelivery j) (hnext : next r = .ret out)
    (hserver : Resolves d s.server server') :
    Inv codec { s with
      server := server'
      parcels := ⟨d, body, .settling i (next r)⟩ ::ₘ others
      calls := s.calls ++ [(d, ⟨op, r⟩)] } := by
  rw [hnext]
  refine hi.resolve hsplit rfl rfl hheld rfl (fun _ => rfl) (fun j rest h => ?_) rfl rfl hserver
    (fun e => ?_) (fun e ev he => ?_) ?_
  · cases h
    exact .finished out
  · constructor
    · rintro ⟨j, answer, hcall⟩
      rcases List.mem_append.mp hcall with hcall | hcall
      · exact ⟨j, answer, hcall⟩
      · have hevent := (Prod.mk.inj (List.mem_singleton.mp hcall)).2
        exact absurd (congrArg Event.op hevent).symm (hremoval j)
    · rintro ⟨j, answer, hcall⟩
      exact ⟨j, answer, List.mem_append.mpr (.inl hcall)⟩
  · rcases List.mem_append.mp he with he | he
    · exact hi.own e ev he
    · cases List.mem_singleton.mp he
      exact hown
  · have hone : [(d, (⟨op, r⟩ : Event requests))].filterMap tagOf = [d] := by
      rw [List.filterMap_cons_some htag, List.filterMap_nil]
    rw [List.filterMap_append, hone, Net.resolved, List.append_assoc]
    exact List.perm_middle

/-- Every step keeps the invariant. -/
theorem Step.inv (hstep : Step b codec s s') (hi : Inv codec s) : Inv codec s' := by
  cases hstep with
  | @publish queue body hnew =>
      exact hi.outside rfl rfl rfl rfl (alive_cons (texts_publish s.server queue body) hnew hi.alive)
  | @delay queue body hnew =>
      exact hi.outside rfl rfl rfl rfl (alive_cons (texts_delay s.server queue body) hnew hi.alive)
  | mature pick hmature =>
      have halive : (Net.alive codec _).Nodup :=
        alive_mono (le_of_eq (texts_mature hmature)) hi.alive
      obtain ⟨e, -, rfl⟩ := Option.map_eq_some_iff.mp hmature
      exact hi.outside rfl rfl rfl rfl halive
  | vanish pick =>
      exact hi.outside rfl rfl rfl rfl (alive_mono (texts_vanish s.server pick) hi.alive)
  | deliver pick hpick => exact hi.deliver hpick
  | @receive d body others hsplit _ =>
      have hchannel := hi.channel
      rw [hsplit, filterMap_skip rfl] at hchannel
      refine hi.move hsplit rfl rfl rfl (fun i rest h => by cases h) ?_
      rw [filterMap_skip rfl]
      exact hchannel
  | record hsplit hdecode => exact hi.record hsplit hdecode
  | @refuse d body e others server' answer o hsplit hdecode hrespond =>
      refine hi.resolve hsplit rfl rfl rfl rfl (fun h => by cases h) (fun i rest h => by cases h)
        rfl rfl (resolves_basicNack hrespond) (fun _ => Iff.rfl) hi.own ?_
      rw [← List.append_assoc]
      exact List.perm_append_singleton _ _
  | @send d body others m hsplit =>
      have hchannel := hi.channel
      rw [hsplit, filterMap_skip rfl] at hchannel
      refine hi.move hsplit rfl rfl rfl (fun i rest h => by cases h) ?_
      rw [filterMap_sent, ← hchannel, ← Multiset.coe_add, add_comm]
      rfl
  | stop _ => exact hi.outside rfl rfl rfl rfl hi.alive
  | @dequeue d body others m server' hdequeue hsplit =>
      have hchannel := hi.channel
      rw [hsplit, filterMap_sent] at hchannel
      unfold AmqpBroker.dequeue at hdequeue
      split at hdequeue
      · cases hdequeue
      · rename_i m' rest hqueue
        cases hdequeue
        rw [hqueue, ← Multiset.cons_coe, Multiset.cons_inj_right] at hchannel
        refine hi.move hsplit rfl rfl rfl (fun i rest h => by cases h) ?_
        rw [filterMap_skip rfl]
        exact hchannel
  | @settle d body others m m' k hsplit hid =>
      have hchannel := hi.channel
      rw [hsplit, filterMap_skip rfl] at hchannel
      rw [k.method_eq, hid]
      refine hi.move hsplit rfl rfl rfl (fun i rest h => ?_) ?_
      · cases h
        exact .start k
      · rw [filterMap_skip rfl]
        exact hchannel
  | @call d body others i op next r server' o hsplit hrespond =>
      have hform : Form i d (.call op next) := hi.form _ (mem_split hsplit) i _ rfl
      generalize hrest : Prog.call (I := requests) op next = rest at hform
      cases hform with
      | start k =>
          cases hrest
          cases hrespond
          obtain ⟨hremoved, hinv⟩ := hi.removal k rfl hsplit
          rw [hremoved]
          exact hinv
      | request k =>
          cases k with
          | ack =>
              cases hrest
              exact hi.request hsplit rfl rfl rfl (fun j h => by cases h) rfl
                (resolves_basicAck hrespond)
          | nack =>
              cases hrest
              exact hi.request hsplit rfl rfl rfl (fun j h => by cases h) rfl
                (resolves_basicNack hrespond)
          | deadLetter =>
              cases hrest
              exact hi.request hsplit rfl rfl rfl (fun j h => by cases h) rfl
                (resolves_basicNack hrespond)
      | finished out => cases hrest

theorem IsStart.inv (h : IsStart codec s) : Inv codec s := by
  have hnone : ∀ p, p ∉ s.parcels := fun p hp => by
    rw [h.parcels] at hp
    exact Multiset.notMem_zero p hp
  constructor
  · rw [h.parcels]
    exact Multiset.nodup_zero
  · exact fun p hp => absurd hp (hnone p)
  · exact fun p hp => absurd hp (hnone p)
  · exact fun p hp => absurd hp (hnone p)
  · exact h.alive
  · intro i d
    rw [h.deliveries]
    exact iff_of_false (fun h => by cases h) fun ⟨p, hp, _⟩ => hnone p hp
  · exact fun p hp => absurd hp (hnone p)
  · rw [h.channel, h.parcels]
    rfl
  · exact fun p hp => absurd hp (hnone p)
  · intro i d hd
    rw [h.recorded] at hd
    cases hd
  · rintro d ⟨i, r, hcall⟩
    rw [h.calls] at hcall
    cases hcall
  · intro d e he
    rw [h.calls] at he
    cases he
  · rw [Net.resolved, h.calls, h.refusals]
    exact List.nodup_nil
  · intro d hd
    rw [Net.resolved, h.calls, h.refusals] at hd
    cases hd

/-- The invariant holds in every state that can come about. -/
theorem Reachable.inv (h : Reachable b codec s) : Inv codec s := by
  induction h with
  | start hstart => exact hstart.inv
  | step _ hstep ih => exact hstep.inv ih

/-! ## Tags -/

/-- Tags are resolved once: the map has those that were recorded and not taken out by a
call, one entry each; no tag is settled twice; a call takes out and settles the tag of
the delivery that its caller dequeued; and the tag of a message in the channel is in the
map. -/
structure ResolvedOnce (s : Net) : Prop where
  entries : ∀ i d, s.server.deliveries i = some d ↔ (i, d) ∈ s.recorded ∧ ¬ s.Begun d
  injective : ∀ i j d, s.server.deliveries i = some d → s.server.deliveries j = some d → i = j
  once : s.resolved.Nodup
  own : ∀ d e, (d, e) ∈ s.calls → Own d e
  visible : ∀ m ∈ s.server.channel, ∃ d, (m.id, d) ∈ s.recorded ∧
    s.server.deliveries m.id = some d

/-- A parcel is known by its delivery. -/
theorem Inv.eq_of_delivery (hi : Inv codec s) {p p' : Parcel} (hp : p ∈ s.parcels)
    (hp' : p' ∈ s.parcels) (h : p.delivery = p'.delivery) : p = p' :=
  Multiset.inj_on_of_nodup_map hi.nodup p hp p' hp' h

/-- Delivery tags are resolved exactly once, in every interleaving of the consumer
tasks, the callers, the server and the outside. -/
theorem tags_resolved_once (h : Reachable b codec s) : s.ResolvedOnce := by
  have hi := h.inv
  constructor
  · intro i d
    constructor
    · intro hentry
      obtain ⟨p, hp, rfl, hheld⟩ := (hi.holders i d).mp hentry
      refine ⟨hi.noted p hp i hheld, fun hbegun => ?_⟩
      obtain ⟨p', hp', hsame, howner⟩ := hi.begun _ hbegun
      rw [hi.eq_of_delivery hp' hp hsame, Owner.begun_of_held hheld] at howner
      cases howner
    · rintro ⟨hrecorded, hnot⟩
      exact (hi.holders i d).mpr ((hi.recorded i d hrecorded).resolve_left hnot)
  · intro i j d hentry hentry'
    obtain ⟨p, hp, hd, hheld⟩ := (hi.holders i d).mp hentry
    obtain ⟨p', hp', hd', hheld'⟩ := (hi.holders j d).mp hentry'
    obtain rfl := hi.eq_of_delivery hp hp' (hd.trans hd'.symm)
    exact Option.some.inj (hheld.symm.trans hheld')
  · exact hi.once
  · exact hi.own
  · intro m hm
    have hmem : m ∈ s.parcels.filterMap fun p => p.owner.inChannel := by
      rw [← hi.channel]
      exact hm
    obtain ⟨p, hp, howner⟩ := (Multiset.mem_filterMap _ _).mp hmem
    have hheld : p.owner.held = some m.id := by
      cases h : p.owner with
      | sent m' =>
          rw [h] at howner
          cases howner
          rfl
      | _ =>
          rw [h] at howner
          cases howner
    exact ⟨p.delivery, hi.noted p hp _ hheld, (hi.holders _ _).mpr ⟨p, hp, rfl, hheld⟩⟩

/-! ## A whole round of a consumer task -/

/-- A round of the consumer loop in one piece is one in steps, with nothing in
between. -/
theorem consume_steps {pick : Nat} {lost : Bool} {server' : AmqpState}
    (hconsume : AmqpBroker.consume codec s.server pick lost = some server')
    (hstopped : s.stopped = []) (hidle : ∀ p ∈ s.parcels, p.owner.busy = false) :
    ∃ s', Relation.ReflTransGen (Step b codec) s s' ∧ s'.server = server' := by
  obtain ⟨⟨queue, body⟩, hpick, rfl⟩ := Option.map_eq_some_iff.mp hconsume
  have hdeliver : Step b codec s _ := .deliver pick hpick
  have hwaits : Waits { s with
      server := s.server.deliver pick queue body
      parcels := ⟨s.server.nextTag queue, body, .buffered⟩ ::ₘ s.parcels } queue :=
    ⟨by rw [hstopped]; exact List.not_mem_nil, forall_move (fun _ => rfl) fun p hp _ => hidle p hp⟩
  have hbefore := (Relation.ReflTransGen.single hdeliver).tail
    (.receive (d := s.server.nextTag queue) rfl hwaits)
  cases hdecode : codec.decodeMessage body with
  | ok m => exact ⟨_, (hbefore.tail (.record rfl hdecode)).tail (.send rfl), rfl⟩
  | error e =>
      cases lost with
      | true =>
          exact ⟨_, hbefore.tail (.refuse ⟨⟨0⟩, some "lost"⟩ rfl hdecode rfl), rfl⟩
      | false => exact ⟨_, hbefore.tail (.refuse ⟨⟨0⟩, none⟩ rfl hdecode rfl), rfl⟩

/-! ## A message that is put back -/

/-- Every text is this message. -/
def oneMessage : AmqpCodec := ⟨fun _ => "", fun _ => .ok (plainMessage ⟨7⟩)⟩

/-- A text waits in a queue. -/
def waiting : Net :=
  ⟨{ AmqpState.empty with ready := [("q", "text")] }, 0, [], [], [], []⟩

theorem waiting_isStart : IsStart oneMessage waiting := by
  refine ⟨?_, rfl, fun _ => rfl, rfl, rfl, rfl, rfl, rfl⟩
  exact Multiset.nodup_singleton (⟨7⟩ : TaskId)

/-- The text is delivered, its tag recorded, and the message sent and dequeued. -/
theorem Reachable.taken {s : Net} (h : Reachable b oneMessage s)
    (hready : s.server.ready = [("q", "text")]) (hchannel : s.server.channel = [])
    (hwaits : s.Waits "q") :
    Reachable b oneMessage { s with
      server := { s.server.deliver 0 "q" "text" with
        deliveries := Function.update s.server.deliveries ⟨7⟩ (some (s.server.nextTag "q")) }
      parcels := ⟨s.server.nextTag "q", "text", .dequeued (plainMessage ⟨7⟩)⟩ ::ₘ s.parcels
      recorded := s.recorded ++ [(⟨7⟩, s.server.nextTag "q")] } := by
  obtain ⟨⟨ready, delayed, unacked, dlq, deliveries, channel, issued, nodup, bound⟩, parcels,
    stopped, recorded, calls, refusals⟩ := s
  obtain ⟨hstopped, hidle⟩ := hwaits
  subst hready hchannel
  have hdelivered := h.step (.deliver 0 rfl)
  have hreceived := hdelivered.step
    (.receive rfl ⟨hstopped, forall_move (fun _ => rfl) fun p hp => hidle p hp⟩)
  have hrecorded := hreceived.step (.record rfl rfl)
  exact (hrecorded.step (.send rfl)).step (.dequeue rfl rfl)

/-- A call that takes out the tag and makes one request. -/
theorem Reachable.settled {s : Net} {d : Delivery} {body : String} {others : Multiset Parcel}
    {m : TaskMessage} (k : Settlement) (h : Reachable b codec s)
    (hparcels : s.parcels = ⟨d, body, .dequeued m⟩ ::ₘ others) {o : AmqpOracle}
    {tag : Option Delivery} {server₁ server₂ : AmqpState} {op : AmqpOp} {r : op.Res}
    {next : op.Res → Prog requests (TaskResult Unit)}
    (hremove : (Kojin.Amqp.server b).respond o s.server (.removeDelivery m.id) = some (tag, server₁))
    (hnext : k.afterRemoval tag = .call op next)
    (hrequest : (Kojin.Amqp.server b).respond o server₁ op = some (r, server₂)) :
    Reachable b codec { s with
      server := server₂
      parcels := ⟨d, body, .settling m.id (next r)⟩ ::ₘ others
      calls := s.calls ++ [(d, ⟨.removeDelivery m.id, tag⟩)] ++ [(d, ⟨op, r⟩)] } := by
  have hsettle := h.step (.settle k hparcels (rfl : m.id = m.id))
  rw [Settlement.method_eq] at hsettle
  have hremoved := hsettle.step (.call o rfl hremove)
  rw [hnext] at hremoved
  exact hremoved.step (.call o rfl hrequest)

/-- A delivery of the text. -/
def parcel (tag : Nat) (owner : Owner) : Parcel := ⟨("q", tag), "text", owner⟩

theorem cons_parcel (tag : Nat) (owner : Owner) (others : Multiset Parcel) :
    parcel tag owner ::ₘ others = ⟨("q", tag), "text", owner⟩ ::ₘ others := rfl

/-- The delivery that was put back. -/
def putBack : Multiset Parcel := parcel 1 (.settling ⟨7⟩ (.ret (.ok ()))) ::ₘ 0

theorem idle_putBack : ∀ p ∈ putBack, p.delivery.1 = "q" → p.owner.busy = false := by
  simp [putBack, parcel, Owner.busy]

/-- The text is delivered and dequeued, and `nack` has the server put it back; it is delivered
under a second tag and dequeued again, and `ack` settles it for good. -/
theorem tags_resolved_once_redelivered :
    ∃ s, Reachable ⟨"direct", "delayed", ["q"]⟩ oneMessage s ∧
      s.recorded = [(⟨7⟩, ("q", 1)), (⟨7⟩, ("q", 2))] ∧ s.resolved = [("q", 1), ("q", 2)] ∧
      s.server.ready = [] ∧ s.server.unacked = [] ∧ s.server.deliveries ⟨7⟩ = none ∧
      s.ResolvedOnce := by
  have hstart : Reachable ⟨"direct", "delayed", ["q"]⟩ oneMessage waiting := .start waiting_isStart
  have hfirst := hstart.taken rfl rfl ⟨List.not_mem_nil, nofun⟩
  have hnack := hfirst.settled (o := ⟨⟨0⟩, none⟩) .nack (cons_parcel 1 _ 0) rfl rfl rfl
  have hsecond := hnack.taken rfl rfl ⟨List.not_mem_nil, idle_putBack⟩
  have hack := hsecond.settled (o := ⟨⟨0⟩, none⟩) .ack
    (cons_parcel 2 (.dequeued (plainMessage ⟨7⟩)) putBack) rfl rfl rfl
  exact ⟨_, hack, rfl, rfl, rfl, rfl, rfl, tags_resolved_once hack⟩

end Net

end Kojin.Amqp
