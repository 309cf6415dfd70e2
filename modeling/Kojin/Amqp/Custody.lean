/-
  Amqp/Custody.lean --- what becomes of a text in RabbitMQ (`kojin-amqp`: `broker.rs`).

  Several processes consume the queues of a server.  Each has a broker with consumer tasks,
  a map from identifiers to delivery tags, and a channel from which `dequeue` takes; all of
  this runs at a time, and connections are lost.  The texts are lent to the processes:

      basic_publish                   put
      delivery to a consumer          lend, under a new tag
      basic_nack with requeue,
      a connection that is lost       giveBack
      basic_ack, basic_nack without   settle

  A text is acknowledged only for an `ack` of the message it is of, and it is dead-lettered
  only for a `dead_letter` of this message, or because it is of no message.  Two messages
  alive may have one identifier: the map then forgets one of the tags, but what it has is
  always the tag of a text with this identifier.
-/
import Kojin.Amqp.Redelivery
import Kojin.Foundation.Leases
import Kojin.Foundation.Observed
import Kojin.Foundation.Tenants

set_option autoImplicit false

namespace Kojin.Amqp

open Kojin.Foundation Kojin.Core

/-! ## Processes -/

/-- The calls in a process: those of the methods, and what the consumer tasks and `dequeue`
do. -/
inductive ProcessOp where
  | base (op : AmqpOp)
  | next (queue : String)
  | record (id : TaskId) (delivery : Delivery)
  | send (m : TaskMessage)
  | recv

/-- What each call in a process answers. -/
abbrev ProcessOp.Res : ProcessOp → Type
  | .base op => op.Res
  | .next _ => Option (Delivery × String)
  | .record _ _ => Unit
  | .send _ => Bool
  | .recv => Option TaskMessage

/-- The interface of a process. -/
abbrev processCalls : Interface := ⟨ProcessOp, ProcessOp.Res⟩

/-- The server, and what each process has: its map, what has been delivered to its
consumer tasks and not been looked at, and its channel. -/
structure FleetState (ι : Type) where
  cloud : AmqpState
  deliveries : ι → TaskId → Option Delivery
  buffered : ι → String → List (Delivery × String)
  channel : ι → List TaskMessage

/-- What the outside decides: about a request, and whether a stream, a channel or a
timeout has ended. -/
structure ProcessOracle where
  request : AmqpOracle
  ended : Bool

/-- What comes from outside: a delay ends, a text is delivered to a process, a delivery is
taken back because its connection is lost, a consumer task goes once around its loop, and a
process calls a method of its broker. -/
inductive FleetStimulus (ι : Type) where
  | mature (pick : Nat)
  | deliver (i : ι) (pick : Nat)
  | lose (delivery : Delivery)
  | consume (i : ι) (queue : String)
  | dequeue (i : ι)
  | call (i : ι) (op : BrokerOp)

namespace FleetState

variable {ι : Type}

/-- A server without texts, and processes that have just started. -/
def fresh : FleetState ι := ⟨.empty, fun _ _ => none, fun _ _ => [], fun _ => []⟩

/-- What the methods of a process have before them. -/
def seenBy (s : FleetState ι) (i : ι) : AmqpState := { s.cloud with deliveries := s.deliveries i }

/-- What the methods of a process leave behind. -/
def leave [DecidableEq ι] (s : FleetState ι) (i : ι) (t : AmqpState) : FleetState ι :=
  { s with cloud := t, deliveries := Function.update s.deliveries i t.deliveries }

end FleetState

section Fleet

variable {ι : Type} [DecidableEq ι]

/-- One server for all. -/
def fleetServer (ι : Type) [DecidableEq ι] (b : AmqpBroker) : Service (tagged ι processCalls) where
  State := FleetState ι
  Oracle := ProcessOracle
  respond o s op :=
    match op with
    | (i, .base op) =>
        ((server b).respond o.request (s.seenBy i) op).map fun p => (p.1, s.leave i p.2)
    | (i, .next queue) =>
        if o.ended then some (none, s)
        else match s.buffered i queue with
          | [] => none
          | e :: rest => some (some e, { s with
              buffered := Function.update s.buffered i
                (Function.update (s.buffered i) queue rest) })
    | (i, .record id delivery) =>
        some ((), { s with
          deliveries := Function.update s.deliveries i
            (Function.update (s.deliveries i) id (some delivery)) })
    | (i, .send m) =>
        if o.ended then some (false, s)
        else some (true, { s with channel := Function.update s.channel i (s.channel i ++ [m]) })
    | (i, .recv) =>
        if o.ended then some (none, s)
        else match s.channel i with
          | [] => none
          | m :: rest => some (some m, { s with channel := Function.update s.channel i rest })

/-- One turn of a consumer task. -/
def consumeOnce (codec : AmqpCodec) (queue : String) : Prog processCalls Unit := do
  match ← Prog.perform (I := processCalls) (.next queue) with
  | none => pure ()
  | some (delivery, body) =>
      match codec.decodeMessage body with
      | .ok m => do
          Prog.perform (I := processCalls) (.record m.id delivery)
          let _ ← Prog.perform (I := processCalls) (.send m)
          pure ()
      | .error _ => do
          let _ ← Prog.perform (I := processCalls) (.base (.basicNack delivery false))
          pure ()

/-- A call of `dequeue`. -/
def dequeueOnce : Prog processCalls Unit := do
  let _ ← Prog.perform (I := processCalls) .recv
  pure ()

/-- A call of another method, whatever it returns. -/
def methodCall (b : AmqpBroker) (codec : AmqpCodec) (op : BrokerOp) : Prog processCalls Unit := do
  let _ ← (b.driver codec op).interp fun op => Prog.perform (I := processCalls) (.base op)
  pure ()

/-- A text that is delivered to a process. -/
def FleetState.deliver (s : FleetState ι) (i : ι) (pick : Nat) (queue body : String) :
    FleetState ι :=
  { s with
    cloud := s.cloud.deliver pick queue body
    buffered := Function.update s.buffered i
      (Function.update (s.buffered i) queue
        (s.buffered i queue ++ [(s.cloud.nextTag queue, body)])) }

/-- The processes, each with a broker for the exchanges and queues of the deployment. -/
def fleet (ι : Type) [DecidableEq ι] (b : AmqpBroker) (codec : AmqpCodec) :
    Machine (tagged ι processCalls) where
  toService := fleetServer ι b
  Stimulus := FleetStimulus ι
  accept x s :=
    match x with
    | .mature pick => (AmqpBroker.mature s.cloud pick).map fun t => ({ s with cloud := t }, [])
    | .deliver i pick => s.cloud.ready[pick]?.map fun e => (s.deliver i pick e.1 e.2, [])
    | .lose delivery => some ({ s with cloud := s.cloud.reject delivery true }, [])
    | .consume i queue => some (s, [(consumeOnce codec queue).tag i])
    | .dequeue i => some (s, [dequeueOnce.tag i])
    | .call i op => some (s, [(methodCall b codec op).tag i])

end Fleet

/-! ## What happens to texts -/

/-- A text, with the queue it is in. -/
abbrev Text : Type := String × String

/-- The ways to settle a delivery for good. -/
inductive Verdict where
  | acked
  | buried
  deriving DecidableEq

/-- What is noted: a call that asks for a verdict on a message, what happened to texts, and
the messages that `dequeue` returned. -/
inductive Note where
  | asked (verdict : Verdict) (id : TaskId)
  | dealt (d : Dealing Delivery Text)
  | settled (verdict : Verdict) (delivery : Delivery) (x : Text)
  | handed (m : TaskMessage)

/-- What happened to texts, of all that was noted. -/
def Note.dealing? : Note → Option (Dealing Delivery Text)
  | .dealt d => some d
  | .settled _ delivery x => some (.settle delivery x)
  | _ => none

/-- The text that was settled so. -/
def Note.settled? (verdict : Verdict) : Note → Option Text
  | .settled verdict' _ x => if verdict' = verdict then some x else none
  | _ => none

/-- The dealings that were noted. -/
def dealings (ns : List Note) : List (Dealing Delivery Text) := ns.filterMap Note.dealing?

/-- The texts that were sent to a queue. -/
def sent (ns : List Note) : Multiset Text := Dealing.tally Dealing.put? (dealings ns)

/-- The texts that were delivered, under their tags. -/
def delivered (ns : List Note) : Multiset (Delivery × Text) :=
  Dealing.tally Dealing.lent? (dealings ns)

/-- The texts that came back, under the tags they had been delivered with. -/
def returned (ns : List Note) : Multiset (Delivery × Text) :=
  Dealing.tally Dealing.returned? (dealings ns)

/-- The texts that were acknowledged or dead-lettered, under their tags. -/
def disposed (ns : List Note) : Multiset (Delivery × Text) :=
  Dealing.tally Dealing.settled? (dealings ns)

/-- The texts that were dead-lettered, in order. -/
def buriedTexts (ns : List Note) : List Text := ns.filterMap (Note.settled? .buried)

/-- A delivered text, with its queue. -/
def heldText (e : Delivery × String) : Delivery × Text := (e.1, (e.1.1, e.2))

/-- What has been delivered under this tag and is not settled. -/
def AmqpState.held (s : AmqpState) (delivery : Delivery) : List (Delivery × Text) :=
  ((s.unacked.find? (AmqpState.isAt delivery)).map heldText).toList

/-- Whether the server has a queue for the text. -/
def AmqpBroker.routes (b : AmqpBroker) (request : PublishRequest) : Bool :=
  request.routingKey ∈ b.queues &&
    (request.exchange = b.delayedExchange || request.exchange = b.exchange)

/-- What is noted of an answered request, from the state before it. -/
def AmqpState.notes (b : AmqpBroker) (s : AmqpState) : Event requests → List Note
  | ⟨.basicPublish request, .ok _⟩ =>
      if b.routes request then [.dealt (.put (request.routingKey, request.body))] else []
  | ⟨.basicAck delivery, .ok _⟩ => (s.held delivery).map fun e => .settled .acked e.1 e.2
  | ⟨.basicNack delivery true, .ok _⟩ =>
      (s.held delivery).map fun e => .dealt (.giveBack e.1 e.2)
  | ⟨.basicNack delivery false, .ok _⟩ => (s.held delivery).map fun e => .settled .buried e.1 e.2
  | _ => []

/-- The verdict that a call asks for. -/
def asks : BrokerOp → Option (Verdict × TaskId)
  | .ack id => some (.acked, id)
  | .deadLetter m => some (.buried, m.id)
  | _ => none

/-- What is noted of a step of the processes. -/
def moves {ι : Type} [DecidableEq ι] {b : AmqpBroker} {codec : AmqpCodec}
    (s : (fleet ι b codec).State) (l : (fleet ι b codec).Label) (_ : (fleet ι b codec).State) :
    List Note :=
  match l with
  | .call ⟨(_, .base op), r⟩ => AmqpState.notes b s.cloud ⟨op, r⟩
  | .call ⟨(_, .recv), some m⟩ => [.handed m]
  | .env (.deliver _ pick) =>
      (s.cloud.ready[pick]?.map fun e =>
        .dealt (.lend (AmqpState.nextTag s.cloud e.1) e)).toList
  | .env (.lose delivery) =>
      (AmqpState.held s.cloud delivery).map fun e => .dealt (.giveBack e.1 e.2)
  | .env (.call _ op) => ((asks op).map fun e => .asked e.1 e.2).toList
  | _ => []

@[simp] theorem dealings_append (ns ms : List Note) :
    dealings (ns ++ ms) = dealings ns ++ dealings ms := List.filterMap_append

@[simp] theorem buriedTexts_append (ns ms : List Note) :
    buriedTexts (ns ++ ms) = buriedTexts ns ++ buriedTexts ms := List.filterMap_append

theorem lend_mem_dealings {ns : List Note} {delivery : Delivery} {x : Text} :
    .lend delivery x ∈ dealings ns ↔ .dealt (.lend delivery x) ∈ ns := by
  unfold dealings
  rw [List.mem_filterMap]
  constructor
  · rintro ⟨n, hn, heq⟩
    cases n with
    | dealt d => exact Option.some.inj heq ▸ hn
    | _ => cases heq
  · exact fun h => ⟨_, h, rfl⟩

theorem dealings_settled (verdict : Verdict) (l : List (Delivery × Text)) :
    dealings (l.map fun e => .settled verdict e.1 e.2) = l.map fun e => .settle e.1 e.2 := by
  simp [dealings, List.filterMap_map, Function.comp_def, Note.dealing?]

theorem dealings_giveBack (l : List (Delivery × Text)) :
    dealings (l.map fun e => .dealt (.giveBack e.1 e.2)) = l.map fun e => .giveBack e.1 e.2 := by
  simp [dealings, List.filterMap_map, Function.comp_def, Note.dealing?]

theorem buriedTexts_settled (l : List (Delivery × Text)) :
    buriedTexts (l.map fun e => .settled .buried e.1 e.2) = l.map Prod.snd := by
  simp [buriedTexts, List.filterMap_map, Function.comp_def, Note.settled?]

theorem buriedTexts_other {ns : List Note} (h : ∀ delivery x, .settled .buried delivery x ∉ ns) :
    buriedTexts ns = [] := by
  apply List.filterMap_eq_nil_iff.mpr
  intro n hn
  cases n with
  | settled verdict delivery x =>
      cases verdict with
      | acked => rfl
      | buried => exact absurd hn (h delivery x)
  | _ => rfl

/-! ## The server lends texts -/

namespace AmqpState

variable {b : AmqpBroker} {s s' : AmqpState} {ds : List (Dealing Delivery Text)}

/-- The texts that wait in the queues and behind the delayed exchange, and those that are
delivered. -/
def leases (s : AmqpState) : Leases Delivery Text where
  free := s.ready + s.delayed
  lent := s.unacked.map heldText

/-- The dealings led to what the server has, and it has issued every tag that was used. -/
def Accounts (ds : List (Dealing Delivery Text)) (s : AmqpState) : Prop :=
  Leases.Book (fun delivery => s.issued delivery.1 < delivery.2) ds s.leases

/-- Nothing happened to texts. -/
theorem Accounts.same (h : Accounts ds s) (hleases : s'.leases = s.leases)
    (hissued : s'.issued = s.issued) : Accounts (ds ++ []) s' := by
  rw [List.append_nil, Accounts, hleases, hissued]
  exact h

/-- What is delivered under a tag is there, or it is not. -/
theorem held_cases (s : AmqpState) (delivery : Delivery) :
    (s.held delivery = [] ∧ s.unacked.find? (isAt delivery) = none ∧
        (s.settle delivery).unacked = s.unacked) ∨
      ∃ body, s.held delivery = [(delivery, (delivery.1, body))] ∧
        s.unacked.find? (isAt delivery) = some (delivery, body) ∧
        (s.unacked.map heldText).Perm
          ((delivery, (delivery.1, body)) :: (s.settle delivery).unacked.map heldText) := by
  unfold held
  rcases find?_eraseP_cases (isAt delivery) s.unacked with
    ⟨hnone, herase⟩ | ⟨e, hsome, hat, hperm⟩
  · rw [hnone]
    exact .inl ⟨rfl, rfl, herase⟩
  · obtain ⟨delivery', body⟩ := e
    obtain rfl : delivery' = delivery := by simpa [isAt] using hat
    rw [hsome]
    exact .inr ⟨body, rfl, rfl, hperm.map heldText⟩

theorem mem_held {delivery : Delivery} {e : Delivery × Text} (h : e ∈ s.held delivery) :
    e.1 = delivery ∧ e ∈ s.leases.lent := by
  rcases s.held_cases delivery with ⟨hnone, -, -⟩ | ⟨body, hsome, hfind, -⟩
  · rw [hnone] at h
    cases h
  · rw [hsome] at h
    obtain rfl := List.mem_singleton.mp h
    exact ⟨rfl, Multiset.mem_coe.mpr
      (List.mem_map.mpr ⟨_, List.mem_of_find?_eq_some hfind, rfl⟩)⟩

/-- A text that is published. -/
theorem Accounts.publish (h : Accounts ds s) (request : PublishRequest) :
    Accounts (ds ++ if b.routes request then [.put (request.routingKey, request.body)] else [])
      (s.publish b request) := by
  unfold AmqpState.publish
  by_cases hkey : request.routingKey ∈ b.queues
  · by_cases hdelayed : request.exchange = b.delayedExchange
    · have hroutes : b.routes request = true := by simp [AmqpBroker.routes, hkey, hdelayed]
      rw [if_pos hkey, if_pos hdelayed, if_pos hroutes]
      have hput := h.put (request.routingKey, request.body)
      rw [leases, ← Multiset.add_cons, ← coe_snoc] at hput
      exact hput
    by_cases hdirect : request.exchange = b.exchange
    · have hroutes : b.routes request = true := by simp [AmqpBroker.routes, hkey, hdirect]
      rw [if_pos hkey, if_neg hdelayed, if_pos hdirect, if_pos hroutes]
      have hput := h.put (request.routingKey, request.body)
      rw [leases, ← Multiset.cons_add, ← coe_snoc] at hput
      exact hput
    · simpa [AmqpBroker.routes, hkey, hdelayed, hdirect] using h.same rfl rfl
  · simpa [AmqpBroker.routes, hkey] using h.same rfl rfl

/-- A delivery that is acknowledged. -/
theorem Accounts.settle (h : Accounts ds s) (delivery : Delivery) :
    Accounts (ds ++ (s.held delivery).map fun e => .settle e.1 e.2) (s.settle delivery) := by
  rcases s.held_cases delivery with ⟨hnone, -, hunacked⟩ | ⟨body, hsome, -, hperm⟩
  · rw [hnone]
    refine h.same ?_ rfl
    simp only [leases, hunacked]
    rfl
  · rw [hsome]
    rw [Accounts, leases, Multiset.coe_eq_coe.mpr hperm] at h
    exact h.settle

/-- A delivery that comes back. -/
theorem Accounts.requeue (h : Accounts ds s) (delivery : Delivery) :
    Accounts (ds ++ (s.held delivery).map fun e => .giveBack e.1 e.2) (s.reject delivery true) := by
  rcases s.held_cases delivery with ⟨hnone, hfind, -⟩ | ⟨body, hsome, hfind, hperm⟩
  · rw [hnone, AmqpState.reject, hfind]
    exact h.same rfl rfl
  · rw [hsome, AmqpState.reject, hfind]
    rw [Accounts, leases, Multiset.coe_eq_coe.mpr hperm, ← Multiset.cons_coe] at h
    have hback := h.giveBack
    rw [← Multiset.cons_add, ← coe_snoc] at hback
    exact hback

/-- A delivery that goes to the dead-letter queue. -/
theorem Accounts.bury (h : Accounts ds s) (delivery : Delivery) :
    Accounts (ds ++ (s.held delivery).map fun e => .settle e.1 e.2) (s.reject delivery false) := by
  rcases s.held_cases delivery with ⟨hnone, hfind, -⟩ | ⟨body, hsome, hfind, hperm⟩
  · rw [hnone, AmqpState.reject, hfind]
    exact h.same rfl rfl
  · rw [hsome, AmqpState.reject, hfind]
    rw [Accounts, leases, Multiset.coe_eq_coe.mpr hperm] at h
    exact h.settle

/-- A text that is delivered. -/
theorem Accounts.deliver (h : Accounts ds s) {pick : Nat} {e : String × String}
    (hpick : s.ready[pick]? = some e) :
    Accounts (ds ++ [.lend (s.nextTag e.1) e]) (s.deliver pick e.1 e.2) := by
  obtain ⟨hlt, hget⟩ := List.getElem?_eq_some_iff.mp hpick
  have hfree : (s.ready : Multiset Text) = e ::ₘ (s.ready.eraseIdx pick : Multiset Text) := by
    rw [← hget]
    exact Multiset.coe_eq_coe.mpr (List.getElem_cons_eraseIdx_perm hlt).symm
  have hheld : (s.deliver pick e.1 e.2).unacked.map heldText =
      s.unacked.map heldText ++ [(s.nextTag e.1, e)] := List.map_append
  have hunused : ∀ d : Delivery, (s.deliver pick e.1 e.2).issued d.1 < d.2 →
      s.issued d.1 < d.2 ∧ d ≠ s.nextTag e.1 := by
    intro d hd
    simp only [AmqpState.deliver, Function.update_apply] at hd
    split at hd
    · rename_i heq
      rw [← heq] at hd
      exact ⟨Nat.lt_of_succ_lt hd, fun htag => by simp [htag, nextTag] at hd⟩
    · rename_i hne
      exact ⟨hd, fun htag => hne (congrArg Prod.fst htag)⟩
  rw [Accounts, leases, hfree, Multiset.cons_add] at h
  have hlend := h.lend (Nat.lt_succ_self (s.issued e.1) : s.issued (s.nextTag e.1).1 < _) hunused
  rw [← coe_snoc] at hlend
  rw [Accounts, leases, hheld]
  exact hlend

/-- A delay that is over. -/
theorem leases_mature {pick : Nat} (h : AmqpBroker.mature s pick = some s') :
    s'.leases = s.leases ∧ s'.issued = s.issued ∧ s'.dlq = s.dlq := by
  obtain ⟨e, he, rfl⟩ := Option.map_eq_some_iff.mp h
  obtain ⟨hlt, hget⟩ := List.getElem?_eq_some_iff.mp he
  have hdelayed : (s.delayed : Multiset Text) =
      e ::ₘ (s.delayed.eraseIdx pick : Multiset Text) := by
    rw [← hget]
    exact Multiset.coe_eq_coe.mpr (List.getElem_cons_eraseIdx_perm hlt).symm
  refine ⟨?_, rfl, rfl⟩
  simp only [leases, coe_snoc, hdelayed, Multiset.cons_add, Multiset.add_cons]

/-- One request, answered. -/
theorem Accounts.respond (h : Accounts ds s) {o : AmqpOracle} {op : AmqpOp} {r : op.Res}
    (hrespond : (server b).respond o s op = some (r, s')) :
    Accounts (ds ++ dealings (notes b s ⟨op, r⟩)) s' ∧
      s'.dlq = s.dlq ++ buriedTexts (notes b s ⟨op, r⟩) := by
  have hsame : Accounts (ds ++ []) s ∧ s.dlq = s.dlq ++ [] :=
    ⟨h.same rfl rfl, (List.append_nil _).symm⟩
  cases op with
  | utcNow =>
      cases hrespond
      exact hsame
  | removeDelivery id =>
      cases hrespond
      exact ⟨h.same rfl rfl, (List.append_nil _).symm⟩
  | basicPublish request =>
      simp only [server] at hrespond
      rcases hfail : o.failure with _ | e <;> rw [hfail] at hrespond <;> cases hrespond
      · have hdlq : (s.publish b request).dlq = s.dlq := by
          unfold AmqpState.publish
          split_ifs <;> rfl
        have hpublish := h.publish (b := b) request
        simp only [notes]
        rw [hdlq]
        cases hroutes : b.routes request <;> rw [hroutes] at hpublish
        · exact ⟨hpublish, (List.append_nil _).symm⟩
        · exact ⟨hpublish, (List.append_nil _).symm⟩
      · exact hsame
  | basicAck delivery =>
      simp only [server] at hrespond
      rcases hfail : o.failure with _ | e <;> rw [hfail] at hrespond <;> cases hrespond
      · simp only [notes, dealings_settled]
        refine ⟨h.settle delivery, ?_⟩
        rw [buriedTexts_other fun _ _ hmem => ?_]
        · exact (List.append_nil _).symm
        · obtain ⟨_, -, heq⟩ := List.mem_map.mp hmem
          cases heq
      · exact hsame
  | basicNack delivery requeue =>
      simp only [server] at hrespond
      rcases hfail : o.failure with _ | e <;> rw [hfail] at hrespond <;> cases hrespond
      · cases requeue with
        | true =>
            simp only [notes, dealings_giveBack]
            refine ⟨h.requeue delivery, ?_⟩
            rw [buriedTexts_other fun _ _ hmem => ?_]
            · unfold AmqpState.reject
              split <;> exact (List.append_nil _).symm
            · obtain ⟨_, -, heq⟩ := List.mem_map.mp hmem
              cases heq
        | false =>
            simp only [notes, dealings_settled, buriedTexts_settled]
            refine ⟨h.bury delivery, ?_⟩
            rcases s.held_cases delivery with ⟨hnone, hfind, -⟩ | ⟨body, hsome, hfind, -⟩
            · rw [hnone, AmqpState.reject, hfind]
              exact (List.append_nil _).symm
            · rw [hsome, AmqpState.reject, hfind]
              rfl
      · cases requeue <;> exact hsame

end AmqpState

/-! ## What a process does with tags -/

/-- How far a program of a process has come: it knows of no tag, it was given a text, it has
recorded the tag of a message, it is to ask for a verdict on a message, or it has taken the
tag of this message out of the map. -/
inductive Duty where
  | idle
  | got (delivery : Delivery) (body : String)
  | ready (m : TaskMessage)
  | asking (verdict : Verdict) (id : TaskId)
  | holding (verdict : Verdict) (id : TaskId) (delivery : Delivery)

namespace Duty

/-- After the stream was asked for a text. -/
def given : Option (Delivery × String) → Duty
  | some (delivery, body) => .got delivery body
  | none => .idle

/-- After the map was asked for the tag of a message. -/
def claimed (verdict : Verdict) (id : TaskId) : Option Delivery → Duty
  | some delivery => .holding verdict id delivery
  | none => .idle

/-- What the programs do: they record a tag under the identifier of the message whose text
came with it, reject it if there is none, and settle with a tag from the map. -/
inductive Step (codec : AmqpCodec) : Duty → (op : ProcessOp) → op.Res → Duty → Prop where
  | clock (now : DateTime) : Step codec .idle (.base .utcNow) now .idle
  | publish (request : PublishRequest) (r : Except RequestError Unit) :
      Step codec .idle (.base (.basicPublish request)) r .idle
  | next (queue : String) (r : Option (Delivery × String)) :
      Step codec .idle (.next queue) r (given r)
  | record {delivery : Delivery} {body : String} {m : TaskMessage} :
      codec.decodeMessage body = .ok m →
      Step codec (.got delivery body) (.record m.id delivery) () (.ready m)
  | refuse {delivery : Delivery} {body e : String} (r : Except RequestError Unit) :
      codec.decodeMessage body = .error e →
      Step codec (.got delivery body) (.base (.basicNack delivery false)) r .idle
  | send (m : TaskMessage) (r : Bool) : Step codec (.ready m) (.send m) r .idle
  | recv (r : Option TaskMessage) : Step codec .idle .recv r .idle
  | forget (id : TaskId) (r : Option Delivery) :
      Step codec .idle (.base (.removeDelivery id)) r .idle
  | restore (delivery : Delivery) (r : Except RequestError Unit) :
      Step codec .idle (.base (.basicNack delivery true)) r .idle
  | claim (verdict : Verdict) (id : TaskId) (r : Option Delivery) :
      Step codec (.asking verdict id) (.base (.removeDelivery id)) r (claimed verdict id r)
  | ack (id : TaskId) (delivery : Delivery) (r : Except RequestError Unit) :
      Step codec (.holding .acked id delivery) (.base (.basicAck delivery)) r .idle
  | bury (id : TaskId) (delivery : Delivery) (r : Except RequestError Unit) :
      Step codec (.holding .buried id delivery) (.base (.basicNack delivery false)) r .idle

/-- A program may stop anywhere. -/
abbrev protocol (codec : AmqpCodec) : Protocol processCalls := ⟨Duty, Step codec, fun _ => True⟩

/-- Where a call of a method starts. -/
def ofCall (op : BrokerOp) : Duty :=
  match asks op with
  | some (verdict, id) => .asking verdict id
  | none => .idle

end Duty

variable {b : AmqpBroker} {codec : AmqpCodec}

/-- A consumer task keeps to the protocol. -/
theorem follows_consumeOnce (queue : String) :
    (consumeOnce codec queue).Follows (Duty.protocol codec) .idle := by
  refine fun answer => ⟨_, .next queue answer, ?_⟩
  rcases answer with _ | ⟨delivery, body⟩
  · trivial
  · simp only [Prog.bind]
    split
    · rename_i m hm
      exact fun _ => ⟨_, .record hm, fun r => ⟨_, .send m r, trivial⟩⟩
    · rename_i e he
      exact fun r => ⟨_, .refuse r he, trivial⟩

/-- A call of `dequeue` keeps to the protocol. -/
theorem follows_dequeueOnce : dequeueOnce.Follows (Duty.protocol codec) .idle :=
  fun r => ⟨_, .recv r, trivial⟩

/-- The methods keep to the protocol. -/
theorem follows_methodCall (op : BrokerOp) :
    (methodCall b codec op).Follows (Duty.protocol codec) (.ofCall op) := by
  cases op with
  | enqueue m => exact fun r => ⟨_, .publish _ r, trivial⟩
  | schedule m eta => exact fun now => ⟨_, .clock now, fun r => ⟨_, .publish _ r, trivial⟩⟩
  | ack id =>
      refine fun answer => ⟨_, .claim .acked id answer, ?_⟩
      cases answer with
      | none => trivial
      | some delivery => exact fun r => ⟨_, .ack id delivery r, trivial⟩
  | deadLetter m =>
      refine fun answer => ⟨_, .claim .buried m.id answer, ?_⟩
      cases answer with
      | none => trivial
      | some delivery => exact fun r => ⟨_, .bury m.id delivery r, trivial⟩
  | nack m =>
      refine fun answer => ⟨_, .forget m.id answer, ?_⟩
      cases answer with
      | none => trivial
      | some delivery => exact fun r => ⟨_, .restore delivery r, trivial⟩

/-! ## What an answer says -/

/-- What the map has after a request it had before it. -/
theorem respond_deliveries {o : AmqpOracle} {s s' : AmqpState} {op : AmqpOp} {r : op.Res}
    (h : (server b).respond o s op = some (r, s')) {id : TaskId} {delivery : Delivery}
    (hd : s'.deliveries id = some delivery) : s.deliveries id = some delivery := by
  cases op with
  | utcNow =>
      cases h
      exact hd
  | removeDelivery id' =>
      cases h
      simp only [Function.update_apply] at hd
      split at hd
      · cases hd
      · exact hd
  | basicPublish request =>
      rcases server_publish h with rfl | rfl
      · exact hd
      · unfold AmqpState.publish at hd
        split_ifs at hd <;> exact hd
  | basicAck delivery' =>
      rcases server_ack h with rfl | rfl <;> exact hd
  | basicNack delivery' requeue =>
      rcases server_nack h with rfl | rfl
      · exact hd
      · unfold AmqpState.reject at hd
        split at hd
        · split at hd <;> exact hd
        · exact hd

/-- The map is asked for what it has. -/
theorem respond_claimed {o : AmqpOracle} {s s' : AmqpState} {id : TaskId} {r : Option Delivery}
    (h : (server b).respond o s (.removeDelivery id) = some (r, s')) : r = s.deliveries id := by
  cases h
  rfl

/-- Only two requests settle for good, what is delivered under their tag. -/
theorem settled_of_notes {s : AmqpState} {e : Event requests} {verdict : Verdict}
    {delivery : Delivery} {x : Text} (h : .settled verdict delivery x ∈ AmqpState.notes b s e) :
    (delivery, x) ∈ s.leases.lent ∧
      ((verdict = .acked ∧ e.op = .basicAck delivery) ∨
        (verdict = .buried ∧ e.op = .basicNack delivery false)) := by
  unfold AmqpState.notes at h
  split at h
  · split at h
    · cases List.mem_singleton.mp h
    · cases h
  · obtain ⟨_, he, heq⟩ := List.mem_map.mp h
    cases heq
    obtain ⟨rfl, hlent⟩ := AmqpState.mem_held he
    exact ⟨hlent, .inl ⟨rfl, rfl⟩⟩
  · obtain ⟨_, -, heq⟩ := List.mem_map.mp h
    cases heq
  · obtain ⟨_, he, heq⟩ := List.mem_map.mp h
    cases heq
    obtain ⟨rfl, hlent⟩ := AmqpState.mem_held he
    exact ⟨hlent, .inr ⟨rfl, rfl⟩⟩
  · cases h

theorem handed_not_mem_notes {s : AmqpState} {e : Event requests} {m : TaskMessage} :
    .handed m ∉ AmqpState.notes b s e := by
  intro h
  unfold AmqpState.notes at h
  split at h
  · split at h
    · cases List.mem_singleton.mp h
    · cases h
  · obtain ⟨_, -, heq⟩ := List.mem_map.mp h
    cases heq
  · obtain ⟨_, -, heq⟩ := List.mem_map.mp h
    cases heq
  · obtain ⟨_, -, heq⟩ := List.mem_map.mp h
    cases heq
  · cases h

/-! ## Every run -/

/-- What is under two keys after one change. -/
theorem mem_update₂ {α β γ : Type} [DecidableEq α] [DecidableEq β] {f : α → β → List γ} {a a' : α}
    {b b' : β} {l : List γ} {c : γ}
    (h : c ∈ Function.update f a (Function.update (f a) b l) a' b') :
    c ∈ f a' b' ∨ (a' = a ∧ b' = b ∧ c ∈ l) := by
  by_cases ha : a' = a
  · subst ha
    by_cases hb : b' = b
    · subst hb
      exact .inr ⟨rfl, rfl, by simpa using h⟩
    · exact .inl (by simpa [hb] using h)
  · exact .inl (by simpa [ha] using h)

section Runs

variable {ι : Type} {ns ms : List Note} {s : FleetState ι}

/-- The texts that wait in the queues and behind the delayed exchange. -/
def FleetState.waiting (s : FleetState ι) : Multiset Text := s.cloud.leases.free

/-- The texts that are delivered, under their tags. -/
def FleetState.unsettled (s : FleetState ι) : Multiset (Delivery × Text) := s.cloud.leases.lent

/-- The texts in the dead-letter queues. -/
def FleetState.deadLetters (s : FleetState ι) : List Text := s.cloud.dlq

/-- The text was delivered under this tag. -/
def Given (ns : List Note) (delivery : Delivery) (body : String) : Prop :=
  .dealt (.lend delivery (delivery.1, body)) ∈ ns

/-- The message is that of a text which was delivered. -/
def Arrived (codec : AmqpCodec) (ns : List Note) (m : TaskMessage) : Prop :=
  ∃ delivery body, Given ns delivery body ∧ codec.decodeMessage body = .ok m

/-- The tag is that of a text of a message with this identifier. -/
def Stands (codec : AmqpCodec) (ns : List Note) (id : TaskId) (delivery : Delivery) : Prop :=
  ∃ body m, Given ns delivery body ∧ codec.decodeMessage body = .ok m ∧ m.id = id

/-- Somebody asked for this verdict on the message of the text, or it has none. -/
def Justified (codec : AmqpCodec) (ns : List Note) (verdict : Verdict) (x : Text) : Prop :=
  (∃ m, codec.decodeMessage x.2 = .ok m ∧ .asked verdict m.id ∈ ns) ∨
    (verdict = .buried ∧ ∃ e, codec.decodeMessage x.2 = .error e)

theorem Given.mono {delivery : Delivery} {body : String} (h : Given ns delivery body)
    (ms : List Note) : Given (ns ++ ms) delivery body :=
  List.mem_append.mpr (.inl h)

theorem Arrived.mono {m : TaskMessage} (h : Arrived codec ns m) (ms : List Note) :
    Arrived codec (ns ++ ms) m := by
  obtain ⟨delivery, body, hgiven, hm⟩ := h
  exact ⟨delivery, body, hgiven.mono ms, hm⟩

theorem Stands.mono {id : TaskId} {delivery : Delivery} (h : Stands codec ns id delivery)
    (ms : List Note) : Stands codec (ns ++ ms) id delivery := by
  obtain ⟨body, m, hgiven, hm, hid⟩ := h
  exact ⟨body, m, hgiven.mono ms, hm, hid⟩

theorem Justified.mono {verdict : Verdict} {x : Text} (h : Justified codec ns verdict x)
    (ms : List Note) : Justified codec (ns ++ ms) verdict x := by
  rcases h with ⟨m, hm, hasked⟩ | hnone
  · exact .inl ⟨m, hm, List.mem_append.mpr (.inl hasked)⟩
  · exact .inr hnone

/-- What has been noted by the time a program has come this far. -/
def Duty.Shown (codec : AmqpCodec) (ns : List Note) : Duty → Prop
  | .idle => True
  | .got delivery body => Given ns delivery body
  | .ready m => Arrived codec ns m
  | .asking verdict id => .asked verdict id ∈ ns
  | .holding verdict id delivery => .asked verdict id ∈ ns ∧ Stands codec ns id delivery

theorem Duty.Shown.mono {t : Duty} (h : t.Shown codec ns) (ms : List Note) :
    t.Shown codec (ns ++ ms) := by
  cases t with
  | idle => trivial
  | got delivery body => exact Given.mono h ms
  | ready m => exact Arrived.mono h ms
  | asking verdict id => exact List.mem_append.mpr (.inl h)
  | holding verdict id delivery => exact ⟨List.mem_append.mpr (.inl h.1), h.2.mono ms⟩

/-- The texts are accounted for; what a process knows it knows of a text that was
delivered; and what was settled for good was to be. -/
structure Secured (codec : AmqpCodec) (ns : List Note) (s : FleetState ι) : Prop where
  accounts : AmqpState.Accounts (dealings ns) s.cloud
  dlq : s.cloud.dlq = buriedTexts ns
  remembered : ∀ i id delivery, s.deliveries i id = some delivery → Stands codec ns id delivery
  buffered : ∀ i queue, ∀ e ∈ s.buffered i queue, Given ns e.1 e.2
  channel : ∀ i, ∀ m ∈ s.channel i, Arrived codec ns m
  settled : ∀ verdict delivery x, .settled verdict delivery x ∈ ns → Justified codec ns verdict x
  handed : ∀ m, .handed m ∈ ns → Arrived codec ns m

/-- One step: it is enough to look at what is new. -/
theorem Secured.more (h : Secured codec ns s) {s' : FleetState ι}
    (haccounts : AmqpState.Accounts (dealings ns ++ dealings ms) s'.cloud)
    (hdlq : s'.cloud.dlq = s.cloud.dlq ++ buriedTexts ms)
    (hremembered : ∀ i id delivery, s'.deliveries i id = some delivery →
      s.deliveries i id = some delivery ∨ Stands codec ns id delivery)
    (hbuffered : ∀ i queue, ∀ e ∈ s'.buffered i queue, e ∈ s.buffered i queue ∨ Given ms e.1 e.2)
    (hchannel : ∀ i, ∀ m ∈ s'.channel i, m ∈ s.channel i ∨ Arrived codec ns m)
    (hsettled : ∀ verdict delivery x, .settled verdict delivery x ∈ ms →
      Justified codec ns verdict x)
    (hhanded : ∀ m, .handed m ∈ ms → Arrived codec ns m) : Secured codec (ns ++ ms) s' where
  accounts := by
    rw [dealings_append]
    exact haccounts
  dlq := by rw [hdlq, h.dlq, buriedTexts_append]
  remembered i id delivery hd := by
    rcases hremembered i id delivery hd with hd | hstands
    · exact (h.remembered i id delivery hd).mono ms
    · exact hstands.mono ms
  buffered i queue e he := by
    rcases hbuffered i queue e he with he | hgiven
    · exact (h.buffered i queue e he).mono ms
    · exact List.mem_append.mpr (.inr hgiven)
  channel i m hm := by
    rcases hchannel i m hm with hm | harrived
    · exact (h.channel i m hm).mono ms
    · exact harrived.mono ms
  settled verdict delivery x hx := by
    rcases List.mem_append.mp hx with hx | hx
    · exact (h.settled verdict delivery x hx).mono ms
    · exact (hsettled verdict delivery x hx).mono ms
  handed m hm := by
    rcases List.mem_append.mp hm with hm | hm
    · exact (h.handed m hm).mono ms
    · exact (hhanded m hm).mono ms

/-- Nothing is noted, and only what a process has changes. -/
theorem Secured.quiet (h : Secured codec ns s) {s' : FleetState ι}
    (hleases : s'.cloud.leases = s.cloud.leases) (hissued : s'.cloud.issued = s.cloud.issued)
    (hdlq : s'.cloud.dlq = s.cloud.dlq)
    (hremembered : ∀ i id delivery, s'.deliveries i id = some delivery →
      s.deliveries i id = some delivery ∨ Stands codec ns id delivery)
    (hbuffered : ∀ i queue, ∀ e ∈ s'.buffered i queue, e ∈ s.buffered i queue)
    (hchannel : ∀ i, ∀ m ∈ s'.channel i, m ∈ s.channel i ∨ Arrived codec ns m) :
    Secured codec (ns ++ []) s' := by
  refine h.more (h.accounts.same hleases hissued) (hdlq.trans (List.append_nil _).symm) hremembered
    (fun i queue e he => .inl (hbuffered i queue e he)) hchannel ?_ ?_
  · exact fun _ _ _ hx => (List.not_mem_nil hx).elim
  · exact fun _ hx => (List.not_mem_nil hx).elim

/-- What is under a tag was delivered under it, and nothing else was. -/
theorem Secured.body_eq (h : Secured codec ns s) {delivery : Delivery} {body : String} {x : Text}
    (hgiven : Given ns delivery body) (hx : (delivery, x) ∈ s.cloud.leases.lent) : x.2 = body := by
  have hlent : .lend delivery x ∈ dealings ns := h.accounts.run.lend_of_lent hx
  rw [h.accounts.run.lend_unique hlent (lend_mem_dealings.mpr hgiven)]

variable [DecidableEq ι]

/-- One request of a program. -/
theorem Secured.request (h : Secured codec ns s) {o : ProcessOracle} {i : ι} {op : AmqpOp}
    {r : op.Res} {s' : FleetState ι} {t t' : Duty} (hshown : t.Shown codec ns)
    (hrespond : (fleetServer ι b).respond o s (i, .base op) = some (r, s'))
    (hstep : Duty.Step codec t (.base op) r t') :
    Secured codec (ns ++ AmqpState.notes b s.cloud ⟨op, r⟩) s' ∧
      t'.Shown codec (ns ++ AmqpState.notes b s.cloud ⟨op, r⟩) := by
  obtain ⟨⟨answer, u⟩, hu, heq⟩ := Option.map_eq_some_iff.mp hrespond
  obtain ⟨rfl, rfl⟩ := Prod.mk.inj heq
  have hseen : AmqpState.Accounts (dealings ns) (s.seenBy i) := h.accounts
  obtain ⟨haccounts, hdlq⟩ := hseen.respond hu
  refine ⟨h.more haccounts hdlq ?_ (fun _ _ _ he => .inl he) (fun _ _ hm => .inl hm) ?_ ?_, ?_⟩
  · intro j id delivery hd
    by_cases hj : j = i
    · subst hj
      have hd' : u.deliveries id = some delivery := by simpa [FleetState.leave] using hd
      exact .inl (respond_deliveries hu hd')
    · exact .inl (by simpa [FleetState.leave, hj] using hd)
  · intro verdict delivery x hx
    obtain ⟨hlent, ⟨rfl, hop⟩ | ⟨rfl, hop⟩⟩ := settled_of_notes hx
    · cases hop
      cases hstep with
      | ack id =>
          obtain ⟨hasked, body, m, hgiven, hm, rfl⟩ := hshown
          exact .inl ⟨m, h.body_eq hgiven hlent ▸ hm, hasked⟩
    · cases hop
      cases hstep with
      | refuse _ he => exact .inr ⟨rfl, _, h.body_eq hshown hlent ▸ he⟩
      | bury id =>
          obtain ⟨hasked, body, m, hgiven, hm, rfl⟩ := hshown
          exact .inl ⟨m, h.body_eq hgiven hlent ▸ hm, hasked⟩
  · exact fun _ hm => (handed_not_mem_notes hm).elim
  · cases hstep with
    | claim verdict id =>
        have hanswer : answer = s.deliveries i id := respond_claimed hu
        rcases answer with _ | delivery
        · trivial
        · exact ⟨List.mem_append.mpr (.inl hshown),
            (h.remembered i id delivery hanswer.symm).mono _⟩
    | _ => trivial

/-- One call of a program. -/
theorem Secured.call (h : Secured codec ns s) {o : ProcessOracle} {i : ι} {op : ProcessOp}
    {r : op.Res} {s' : FleetState ι} {t t' : Duty} (hshown : t.Shown codec ns)
    (hrespond : (fleetServer ι b).respond o s (i, op) = some (r, s'))
    (hstep : Duty.Step codec t op r t') :
    Secured codec (ns ++ @moves ι _ b codec s (.call ⟨(i, op), r⟩) s') s' ∧
      t'.Shown codec (ns ++ @moves ι _ b codec s (.call ⟨(i, op), r⟩) s') := by
  have hsame : Secured codec (ns ++ []) s :=
    h.quiet rfl rfl rfl (fun _ _ _ hd => .inl hd) (fun _ _ _ he => he) fun _ _ hm => .inl hm
  cases op with
  | base op => exact h.request hshown hrespond hstep
  | next queue =>
      cases hstep
      simp only [fleetServer] at hrespond
      split at hrespond
      · cases hrespond
        exact ⟨hsame, trivial⟩
      · split at hrespond
        · cases hrespond
        · rename_i e rest hbuffered
          cases hrespond
          refine ⟨h.quiet rfl rfl rfl (fun _ _ _ hd => .inl hd) ?_ fun _ _ hm => .inl hm, ?_⟩
          · intro j queue' e' he'
            rcases mem_update₂ he' with hold | ⟨rfl, rfl, hrest⟩
            · exact hold
            · rw [hbuffered]
              exact List.mem_cons_of_mem _ hrest
          · have hgiven := h.buffered i queue e (hbuffered ▸ List.mem_cons_self)
            exact Given.mono hgiven _
  | record id delivery =>
      cases hstep with
      | @record _ body m hm =>
          cases hrespond
          refine ⟨h.quiet rfl rfl rfl ?_ (fun _ _ _ he => he) fun _ _ hm => .inl hm, ?_⟩
          · intro j id' delivery' hd
            by_cases hj : j = i
            · subst hj
              by_cases hid : id' = m.id
              · subst hid
                obtain rfl : delivery = delivery' := by simpa using hd
                exact .inr ⟨body, m, hshown, hm, rfl⟩
              · exact .inl (by simpa [hid] using hd)
            · exact .inl (by simpa [hj] using hd)
          · exact Arrived.mono ⟨delivery, body, hshown, hm⟩ _
  | send m =>
      cases hstep
      simp only [fleetServer] at hrespond
      split at hrespond
      · cases hrespond
        exact ⟨hsame, trivial⟩
      · cases hrespond
        refine ⟨h.quiet rfl rfl rfl (fun _ _ _ hd => .inl hd) (fun _ _ _ he => he) ?_, trivial⟩
        intro j m' hm'
        by_cases hj : j = i
        · subst hj
          rcases List.mem_append.mp (by simpa using hm' : m' ∈ s.channel j ++ [m]) with hm' | hm'
          · exact .inl hm'
          · exact .inr (List.mem_singleton.mp hm' ▸ hshown)
        · exact .inl (by simpa [hj] using hm')
  | recv =>
      cases hstep
      simp only [fleetServer] at hrespond
      split at hrespond
      · cases hrespond
        exact ⟨hsame, trivial⟩
      · split at hrespond
        · cases hrespond
        · rename_i m rest hchannel
          cases hrespond
          have hm : Arrived codec ns m := h.channel i m (hchannel ▸ List.mem_cons_self)
          refine ⟨h.more (h.accounts.same rfl rfl) (List.append_nil _).symm
            (fun _ _ _ hd => .inl hd) (fun _ _ _ he => .inl he) ?_ ?_ ?_, trivial⟩
          · intro j m' hm'
            by_cases hj : j = i
            · subst hj
              refine .inl ?_
              rw [hchannel]
              exact List.mem_cons_of_mem _ (by simpa using hm')
            · exact .inl (by simpa [hj] using hm')
          · intro verdict delivery x hx
            cases List.mem_singleton.mp hx
          · intro m' hm'
            cases List.mem_singleton.mp hm'
            exact hm

/-- A stimulus. -/
theorem Secured.env (h : Secured codec ns s) {x : FleetStimulus ι} {s' : FleetState ι}
    {new : List (Prog (tagged ι processCalls) Unit)}
    (haccept : (fleet ι b codec).accept x s = some (s', new)) :
    Secured codec (ns ++ @moves ι _ b codec s (.env x) s') s' := by
  have hsame : Secured codec (ns ++ []) s :=
    h.quiet rfl rfl rfl (fun _ _ _ hd => .inl hd) (fun _ _ _ he => he) fun _ _ hm => .inl hm
  cases x with
  | mature pick =>
      obtain ⟨t, ht, heq⟩ := Option.map_eq_some_iff.mp haccept
      cases heq
      obtain ⟨hleases, hissued, hdlq⟩ := AmqpState.leases_mature ht
      exact h.quiet hleases hissued hdlq (fun _ _ _ hd => .inl hd) (fun _ _ _ he => he)
        fun _ _ hm => .inl hm
  | deliver i pick =>
      obtain ⟨e, he, heq⟩ := Option.map_eq_some_iff.mp haccept
      cases heq
      have hnotes : @moves ι _ b codec s (.env (.deliver i pick)) (s.deliver i pick e.1 e.2) =
          [.dealt (.lend (s.cloud.nextTag e.1) e)] := by
        simp only [moves, he]
        rfl
      rw [hnotes]
      refine h.more (h.accounts.deliver he) (List.append_nil _).symm (fun _ _ _ hd => .inl hd) ?_
        (fun _ _ hm => .inl hm) ?_ ?_
      · intro j queue e' he'
        rcases mem_update₂ he' with hold | ⟨rfl, rfl, hmem⟩
        · exact .inl hold
        · rcases List.mem_append.mp hmem with hold | hnew
          · exact .inl hold
          · obtain rfl := List.mem_singleton.mp hnew
            exact .inr List.mem_cons_self
      · intro verdict delivery x hx
        cases List.mem_singleton.mp hx
      · intro m hm
        cases List.mem_singleton.mp hm
  | lose delivery =>
      cases haccept
      have hdlq : (s.cloud.reject delivery true).dlq = s.cloud.dlq := by
        unfold AmqpState.reject
        split <;> rfl
      have hnone : ∀ n ∈ (s.cloud.held delivery).map fun e => Note.dealt (.giveBack e.1 e.2),
          ∃ d, n = .dealt d := by
        intro n hn
        obtain ⟨e, -, rfl⟩ := List.mem_map.mp hn
        exact ⟨_, rfl⟩
      refine h.more ?_ ?_ ?_ (fun _ _ _ he => .inl he) (fun _ _ hm => .inl hm) ?_ ?_
      · simp only [moves, dealings_giveBack]
        exact h.accounts.requeue delivery
      · simp only [moves]
        rw [buriedTexts_other fun delivery x hx => ?_, hdlq, List.append_nil]
        obtain ⟨d, heq⟩ := hnone _ hx
        cases heq
      · exact fun _ _ _ hd => .inl hd
      · intro verdict delivery x hx
        obtain ⟨d, heq⟩ := hnone _ hx
        cases heq
      · intro m hm
        obtain ⟨d, heq⟩ := hnone _ hm
        cases heq
  | consume i queue =>
      cases haccept
      exact hsame
  | dequeue i =>
      cases haccept
      exact hsame
  | call i op =>
      cases haccept
      cases hasks : asks op with
      | none =>
          simp only [moves, hasks]
          exact hsame
      | some e =>
          simp only [moves, hasks]
          refine h.more (h.accounts.same rfl rfl) (List.append_nil _).symm
            (fun _ _ _ hd => .inl hd) (fun _ _ _ he => .inl he) (fun _ _ hm => .inl hm) ?_ ?_
          · intro verdict delivery x hx
            cases List.mem_singleton.mp hx
          · intro m hm
            cases List.mem_singleton.mp hm

/-- The programs that a stimulus starts keep to the protocol, from what it shows. -/
theorem fleet_entry {x : FleetStimulus ι} {s' : FleetState ι}
    {new : List (Prog (tagged ι processCalls) Unit)}
    (haccept : (fleet ι b codec).accept x s = some (s', new)) :
    ∃ stages : List Duty,
      List.Forall₂ (Prog.Follows ((Duty.protocol codec).ofAll ι)) new stages ∧
      ∀ t ∈ stages, t.Shown codec (ns ++ @moves ι _ b codec s (.env x) s') := by
  have hidle : ∀ t ∈ [Duty.idle], t.Shown codec (ns ++ @moves ι _ b codec s (.env x) s') := by
    intro t ht
    obtain rfl := List.mem_singleton.mp ht
    trivial
  cases x with
  | mature pick =>
      obtain ⟨t, -, heq⟩ := Option.map_eq_some_iff.mp haccept
      cases heq
      exact ⟨[], .nil, fun t ht => (List.not_mem_nil ht).elim⟩
  | deliver i pick =>
      obtain ⟨e, -, heq⟩ := Option.map_eq_some_iff.mp haccept
      cases heq
      exact ⟨[], .nil, fun t ht => (List.not_mem_nil ht).elim⟩
  | lose delivery =>
      cases haccept
      exact ⟨[], .nil, fun t ht => (List.not_mem_nil ht).elim⟩
  | consume i queue =>
      cases haccept
      exact ⟨[.idle], .cons ((follows_consumeOnce queue).tag i) .nil, hidle⟩
  | dequeue i =>
      cases haccept
      exact ⟨[.idle], .cons (follows_dequeueOnce.tag i) .nil, hidle⟩
  | call i op =>
      cases haccept
      refine ⟨[.ofCall op], .cons ((follows_methodCall op).tag i) .nil, fun t ht => ?_⟩
      obtain rfl := List.mem_singleton.mp ht
      cases hasks : asks op with
      | none => simp [Duty.ofCall, hasks, Duty.Shown]
      | some e => simp [Duty.ofCall, hasks, Duty.Shown, moves]

/-- Custody.  In every run of any number of processes, whatever their methods are
called with, however requests fail and connections are lost: every text that was sent to a
queue waits, is delivered, or was settled for good; whatever was delivered is still
unsettled, came back or was settled for good, under a tag of its own; the dead-letter
queues have what was dead-lettered, in order; what was settled for good is of a message for
which somebody asked for this verdict, or it is of no message and was dead-lettered; and
`dequeue` returns messages of texts that were delivered. -/
theorem deliveries_accounted {c : (fleet ι b codec).Config}
    (h : Machine.Observed moves ⟨FleetState.fresh, []⟩ ns c) :
    sent ns = FleetState.waiting c.state + (FleetState.unsettled c.state).map Prod.snd +
      (disposed ns).map Prod.snd ∧
    delivered ns = FleetState.unsettled c.state + returned ns + disposed ns ∧
    ((delivered ns).map Prod.fst).Nodup ∧
    FleetState.deadLetters c.state = buriedTexts ns ∧
    (∀ verdict delivery x, .settled verdict delivery x ∈ ns → Justified codec ns verdict x) ∧
    ∀ m, .handed m ∈ ns → Arrived codec ns m := by
  have hstart : Secured codec [] (FleetState.fresh : FleetState ι) := by
    refine ⟨⟨.start, fun _ _ hx => (List.not_mem_nil hx).elim⟩, rfl, fun _ _ _ hd => ?_,
      fun _ _ _ he => (List.not_mem_nil he).elim, fun _ _ hm => (List.not_mem_nil hm).elim,
      fun _ _ _ hx => (List.not_mem_nil hx).elim, fun _ hm => (List.not_mem_nil hm).elim⟩
    cases hd
  have hsecured : Secured codec ns c.state := by
    refine (h.promises (P := (Duty.protocol codec).ofAll ι) (J := Secured codec)
      (G := fun ns t => Duty.Shown codec ns t) (fun ns ms t ht => Duty.Shown.mono ht ms) ?_ ?_ rfl
      hstart).1
    · exact fun ns x s s' new hs haccept => ⟨hs.env haccept, fleet_entry haccept⟩
    · intro ns o s op r s' t t' hs ht hrespond hstep
      exact hs.call ht hrespond hstep
  have hrun := hsecured.accounts.run
  exact ⟨hrun.put_eq, hrun.lent_eq, hrun.receipts_nodup, hsecured.dlq, hsecured.settled,
    hsecured.handed⟩

end Runs

/-! ## A connection that is lost -/

/-- Two processes and one queue. -/
abbrev twoProcesses : Machine (tagged Bool processCalls) :=
  fleet Bool ⟨"direct", "delayed", ["q"]⟩ AmqpBroker.oneRetryCodec

/-- The text of the message. -/
def oneRetryText : Text := ("q", oneRetry.encode AmqpBroker.oneRetryCodec.rfc3339)

/-- A process is handed the message and loses its connection; the other one is handed it as
well.  The first acknowledges it, the second gives it up. -/
def lostConnection : List twoProcesses.Move :=
  let turn (k : Nat) : twoProcesses.Move := .run k ⟨⟨⟨0⟩, none⟩, false⟩
  [.env (.call false (.enqueue oneRetry)), turn 0, .env (.deliver true 0),
    .env (.consume true "q"), turn 1, turn 1, turn 1, .env (.dequeue true), turn 2,
    .env (.lose ("q", 1)), .env (.deliver false 0),
    .env (.consume false "q"), turn 3, turn 3, turn 3, .env (.dequeue false), turn 4,
    .env (.call true (.ack oneRetry.id)), turn 5, turn 5,
    .env (.call false (.deadLetter oneRetry)), turn 6, turn 6]

theorem lostConnection_notes :
    (Machine.Config.notesOf (M := twoProcesses) moves ⟨FleetState.fresh, []⟩
      lostConnection).isSome = true := by
  decide +kernel

/-- What the lost connection leads to. -/
def lostConnectionEnd : List Note × twoProcesses.Config :=
  (Machine.Config.notesOf (M := twoProcesses) moves ⟨FleetState.fresh, []⟩ lostConnection).get
    lostConnection_notes

/-- The tag of the lost connection settles nothing; the text is dead-lettered. -/
theorem deliveries_accounted_lost : ∃ (ns : List Note) (c : twoProcesses.Config),
    returned ns = {(("q", 1), oneRetryText)} ∧ disposed ns = {(("q", 2), oneRetryText)} ∧
    delivered ns = FleetState.unsettled c.state + returned ns + disposed ns ∧
    FleetState.deadLetters c.state = [oneRetryText] := by
  have hobserved : Machine.Observed moves ⟨FleetState.fresh, []⟩ lostConnectionEnd.1
      lostConnectionEnd.2 := Machine.Config.observed_of_get lostConnection_notes
  obtain ⟨-, hdelivered, -, hdlq, -⟩ := deliveries_accounted hobserved
  have hnotes : dealings lostConnectionEnd.1 =
      [.put oneRetryText, .lend ("q", 1) oneRetryText, .giveBack ("q", 1) oneRetryText,
        .lend ("q", 2) oneRetryText, .settle ("q", 2) oneRetryText] := by
    decide +kernel
  have hburied : buriedTexts lostConnectionEnd.1 = [oneRetryText] := by
    decide +kernel
  rw [hburied] at hdlq
  refine ⟨lostConnectionEnd.1, lostConnectionEnd.2, ?_, ?_, hdelivered, hdlq⟩
  · rw [returned, hnotes]
    rfl
  · rw [disposed, hnotes]
    rfl

end Kojin.Amqp
