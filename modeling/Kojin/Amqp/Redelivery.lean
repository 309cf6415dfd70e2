/-
  Amqp/Redelivery.lean --- what a failing message comes back as over RabbitMQ
  (`kojin-amqp`: `AmqpBroker::nack`, `AmqpBroker::dead_letter`).

  Both reject the delivery.  The server has kept the text as it was enqueued, and
  puts that text back or routes it to the dead-letter queue; the copy in which the
  worker has counted a retry, or which it has marked as dead-lettered, is dropped.
-/
import Kojin.Core.MemoryResultBackend
import Kojin.Core.Redelivery
import Kojin.Amqp.Broker

set_option autoImplicit false

namespace Kojin.Amqp

open Kojin.Foundation Kojin.Core

/-- The JSON library reads the text of this message as the message. -/
def AmqpCodec.Legible (codec : AmqpCodec) (m : TaskMessage) : Prop :=
  codec.decodeMessage (m.encode codec.rfc3339) = .ok m

namespace AmqpBroker

variable (b : AmqpBroker) (codec : AmqpCodec)

/-- Workers over RabbitMQ. -/
def carrier : Carrier where
  broker := wholeMethods (b.driver codec) (server b)
  Arrival := Arrival
  arrive := arrive codec

/-- A text, as the message it is. -/
def readable (text : String) : Option TaskMessage := (codec.decodeMessage text).toOption

/-- The readable ones of these texts. -/
def messages {α : Type} (texts : List (α × String)) : List TaskMessage :=
  texts.filterMap fun e => readable codec e.2

/-- A remembered tag is that of a text of the same message. -/
def InOrder (s : AmqpState) : Prop :=
  ∀ id delivery, s.deliveries id = some delivery → delivery.2 ≤ s.issued delivery.1 ∧
    ∀ text x, (delivery, text) ∈ s.unacked → readable codec text = some x → x.id = id

/-- The messages that may still arrive: those whose texts are ready or delayed, and
those in the channel.  The server also has the delivered texts, and those in the
dead-letter queues. -/
def stock : Stock AmqpState where
  good := InOrder codec
  ready s := Multiset.ofList (messages codec s.ready) + Multiset.ofList (messages codec s.delayed) +
    Multiset.ofList s.channel
  kept s x := x ∈ messages codec s.ready ∨ x ∈ messages codec s.delayed ∨
    x ∈ messages codec s.unacked ∨ x ∈ messages codec s.dlq ∨ x ∈ s.channel
  dead s x := x ∈ messages codec s.dlq

variable {codec}

@[simp] theorem messages_append {α : Type} (texts texts' : List (α × String)) :
    messages codec (texts ++ texts') = messages codec texts ++ messages codec texts' :=
  List.filterMap_append

@[simp] theorem messages_single {α : Type} (a : α) (text : String) :
    messages codec [(a, text)] = (readable codec text).toList := by
  cases h : readable codec text <;> simp [messages, h]

theorem mem_messages {α : Type} {texts : List (α × String)} {x : TaskMessage} :
    x ∈ messages codec texts ↔ ∃ e ∈ texts, readable codec e.2 = some x :=
  List.mem_filterMap

end AmqpBroker

namespace AmqpState

variable {s : AmqpState} {queue body : String} {pick : Nat}

/-- Tags are not issued twice on a channel. -/
theorem eq_of_delivery {e e' : Delivery × String} (he : e ∈ s.unacked) (he' : e' ∈ s.unacked)
    (h : e.1 = e'.1) : e = e' :=
  List.inj_on_of_nodup_map s.nodup he he' h

/-- A rejection finds nothing, or the text delivered under this tag. -/
theorem reject_cases (s : AmqpState) (delivery : Delivery) (requeue : Bool) :
    s.reject delivery requeue = s ∨
      ∃ text, (delivery, text) ∈ s.unacked ∧ s.reject delivery requeue =
        if requeue then { s.settle delivery with ready := s.ready ++ [(delivery.1, text)] }
        else { s.settle delivery with dlq := s.dlq ++ [(delivery.1, text)] } := by
  unfold reject
  split
  · rename_i e hfind
    obtain ⟨d, text⟩ := e
    have hat := List.find?_some hfind
    simp only [isAt, decide_eq_true_eq] at hat
    subst hat
    exact .inr ⟨text, List.mem_of_find?_eq_some hfind, rfl⟩
  · exact .inl rfl

theorem mem_of_mem_settle {delivery : Delivery} {e : Delivery × String}
    (h : e ∈ (s.settle delivery).unacked) : e ∈ s.unacked :=
  List.eraseP_sublist.subset h

end AmqpState

namespace AmqpBroker

/-! ## What a request moves -/

variable {b : AmqpBroker} {codec : AmqpCodec} {s s' : AmqpState} {m : TaskMessage}

/-- A legible message that is published. -/
theorem moves_publish {request : PublishRequest} {x : TaskMessage}
    (h : (stock codec).good s) (hx : readable codec request.body = some x) :
    (stock codec).Moves s (s.publish b request) {x} none := by
  have hstay : (stock codec).Moves s s {x} none := by
    have hrefl := Stock.Moves.refl h
    exact ⟨hrefl.good, hrefl.ready.trans (add_le_add_right (Multiset.zero_le _) _),
      fun y hy => .inl hy, fun y hy => .inl hy⟩
  unfold AmqpState.publish
  split
  · split
    · constructor
      · exact h
      · simp only [stock, messages_append, messages_single, hx, Option.toList_some,
          ← Multiset.coe_add, Multiset.coe_singleton]
        exact le_of_eq (by abel)
      · intro y hy
        simp only [stock, messages_append, messages_single, hx, Option.toList_some,
          List.mem_append, List.mem_singleton, Multiset.mem_singleton] at hy ⊢
        tauto
      · exact fun y hy => .inl hy
    · split
      · constructor
        · exact h
        · simp only [stock, messages_append, messages_single, hx, Option.toList_some,
            ← Multiset.coe_add, Multiset.coe_singleton]
          exact le_of_eq (by abel)
        · intro y hy
          simp only [stock, messages_append, messages_single, hx, Option.toList_some,
            List.mem_append, List.mem_singleton, Multiset.mem_singleton] at hy ⊢
          tauto
        · exact fun y hy => .inl hy
      · exact hstay
  · exact hstay

/-- A delivered text that is settled. -/
theorem moves_settle {delivery : Delivery} (h : (stock codec).good s) :
    (stock codec).Moves s (s.settle delivery) 0 none := by
  constructor
  · intro id d hd
    obtain ⟨hle, hown⟩ := h id d hd
    exact ⟨hle, fun text x hmem => hown text x (AmqpState.mem_of_mem_settle hmem)⟩
  · simp [stock, AmqpState.settle]
  · intro x hx
    refine .inl ?_
    have hunacked : x ∈ messages codec (s.settle delivery).unacked →
        x ∈ messages codec s.unacked := by
      rw [mem_messages, mem_messages]
      rintro ⟨e, he, hx⟩
      exact ⟨e, AmqpState.mem_of_mem_settle he, hx⟩
    simp only [stock] at hx ⊢
    exact hx.imp_right (Or.imp_right (Or.imp_left hunacked))
  · exact fun x hx => .inl hx

/-- A tag that is forgotten. -/
theorem moves_forget {id : TaskId} (h : (stock codec).good s) :
    (stock codec).Moves s
      { s with deliveries := Function.update s.deliveries id none } 0 none := by
  have hrefl := Stock.Moves.refl h
  constructor
  · intro id' d hd
    by_cases hid : id' = id
    · simp [hid] at hd
    · exact h id' d (by simpa [hid] using hd)
  · exact hrefl.ready
  · exact hrefl.kept
  · exact hrefl.dead

/-- A delivered text that is put back. -/
theorem moves_requeue {delivery : Delivery} {id : TaskId} (h : (stock codec).good s)
    (hown : ∀ text x, (delivery, text) ∈ s.unacked → readable codec text = some x → x.id = id) :
    ∃ more, more.card ≤ 1 ∧ (∀ x ∈ more, (stock codec).kept s x ∧ x.id = id) ∧
      (stock codec).Moves s (s.reject delivery true) more none := by
  rcases s.reject_cases delivery true with heq | ⟨text, hmem, heq⟩
  · rw [heq]
    exact ⟨0, by simp, by simp, .refl h⟩
  · rw [heq, if_pos rfl]
    have hsettle : (stock codec).Moves s (s.settle delivery) 0 none := moves_settle h
    refine ⟨Multiset.ofList (readable codec text).toList, ?_, ?_, ?_⟩
    · cases readable codec text <;> simp
    · intro x hx
      have hread : readable codec text = some x := by simpa using hx
      refine ⟨.inr (.inr (.inl ?_)), hown text x hmem hread⟩
      exact mem_messages.mpr ⟨_, hmem, hread⟩
    · constructor
      · exact hsettle.good
      · simp only [stock, messages_append, messages_single, AmqpState.settle, ← Multiset.coe_add]
        exact le_of_eq (by abel)
      · intro x hx
        have hkept := hsettle.kept x
        simp only [stock, messages_append, messages_single, AmqpState.settle, List.mem_append,
          Multiset.mem_coe, Multiset.notMem_zero, or_false] at hkept hx ⊢
        tauto
      · exact hsettle.dead

/-- A delivered text that goes to the dead-letter queue. -/
theorem moves_bury {delivery : Delivery} {bury : Option TaskId} (h : (stock codec).good s)
    (hown : ∀ text x, (delivery, text) ∈ s.unacked → readable codec text = some x →
      bury = some x.id) :
    (stock codec).Moves s (s.reject delivery false) 0 bury := by
  rcases s.reject_cases delivery false with heq | ⟨text, hmem, heq⟩
  · rw [heq]
    have hrefl := Stock.Moves.refl h
    exact ⟨hrefl.good, hrefl.ready, hrefl.kept, fun x hx => .inl hx⟩
  · rw [heq, if_neg Bool.false_ne_true]
    have hsettle : (stock codec).Moves s (s.settle delivery) 0 none := moves_settle h
    constructor
    · exact hsettle.good
    · exact hsettle.ready
    · intro x hx
      have hkept := hsettle.kept x
      have hbefore : readable codec text = some x → x ∈ messages codec s.unacked :=
        fun hread => mem_messages.mpr ⟨_, hmem, hread⟩
      simp only [stock, messages_append, messages_single, AmqpState.settle, List.mem_append,
        Multiset.notMem_zero, or_false, Option.mem_toList] at hkept hx ⊢
      tauto
    · intro x hx
      simp only [stock, messages_append, messages_single, List.mem_append,
        Option.mem_toList] at hx ⊢
      exact hx.imp_right (hown text x hmem)

/-- A text that becomes ready. -/
theorem moves_mature {pick : Nat} (h : (stock codec).good s) (hmature : mature s pick = some s') :
    (stock codec).Moves s s' 0 none := by
  obtain ⟨e, hpick, rfl⟩ := Option.map_eq_some_iff.mp hmature
  obtain ⟨hlt, hget⟩ := List.getElem?_eq_some_iff.mp hpick
  have hperm : (s.delayed.eraseIdx pick ++ [e]).Perm s.delayed := by
    rw [← hget]
    exact (List.perm_append_comm).trans (List.getElem_cons_eraseIdx_perm hlt)
  have hmessages := hperm.filterMap fun e => readable codec e.2
  have hmem : ∀ x, x ∈ messages codec (s.delayed.eraseIdx pick) ∨ x ∈ messages codec [e] ↔
      x ∈ messages codec s.delayed := by
    intro x
    rw [← List.mem_append, ← messages_append]
    exact hmessages.mem_iff
  constructor
  · exact h
  · have hcoe : (Multiset.ofList (messages codec (s.delayed.eraseIdx pick)) +
        Multiset.ofList (messages codec [e]) : Multiset TaskMessage) =
          Multiset.ofList (messages codec s.delayed) := by
      rw [Multiset.coe_add, ← messages_append]
      exact Multiset.coe_eq_coe.mpr hmessages
    simp only [stock, messages_append, ← hcoe, ← Multiset.coe_add, add_zero]
    exact le_of_eq (by abel)
  · intro x hx
    have hx' := hmem x
    simp only [stock, messages_append, List.mem_append, Multiset.notMem_zero, or_false] at hx ⊢
    tauto
  · exact fun x hx => .inl hx

/-- A text that is delivered. -/
theorem moves_deliver {pick : Nat} {queue body : String} (h : (stock codec).good s)
    (hpick : s.ready[pick]? = some (queue, body)) :
    (stock codec).Moves s (s.deliver pick queue body) 0 none ∧
      (stock codec).ready (s.deliver pick queue body) +
          Multiset.ofList (readable codec body).toList = (stock codec).ready s ∧
      ∀ text, (s.nextTag queue, text) ∈ (s.deliver pick queue body).unacked → text = body := by
  obtain ⟨hlt, hget⟩ := List.getElem?_eq_some_iff.mp hpick
  have hperm : (s.ready.eraseIdx pick ++ [(queue, body)]).Perm s.ready := by
    rw [← hget]
    exact (List.perm_append_comm).trans (List.getElem_cons_eraseIdx_perm hlt)
  have hmessages := hperm.filterMap fun e => readable codec e.2
  have hcoe : (Multiset.ofList (messages codec (s.ready.eraseIdx pick)) +
      Multiset.ofList (readable codec body).toList : Multiset TaskMessage) =
        Multiset.ofList (messages codec s.ready) := by
    rw [← messages_single queue, Multiset.coe_add, ← messages_append]
    exact Multiset.coe_eq_coe.mpr hmessages
  have hready : (stock codec).ready (s.deliver pick queue body) +
      Multiset.ofList (readable codec body).toList = (stock codec).ready s := by
    simp only [stock, AmqpState.deliver, ← hcoe]
    abel
  have hmem : ∀ x, x ∈ messages codec (s.ready.eraseIdx pick) ∨ x ∈ (readable codec body).toList ↔
      x ∈ messages codec s.ready := by
    intro x
    rw [← messages_single queue, ← List.mem_append, ← messages_append]
    exact hmessages.mem_iff
  refine ⟨⟨?_, ?_, ?_, fun x hx => .inl hx⟩, hready, ?_⟩
  · intro id d hd
    obtain ⟨hle, hown⟩ := h id d hd
    have hissued : d.2 ≤ (s.deliver pick queue body).issued d.1 := by
      by_cases hq : d.1 = queue
      · rw [hq] at hle
        simp only [AmqpState.deliver, hq, Function.update_self]
        omega
      · simpa [AmqpState.deliver, hq] using hle
    refine ⟨hissued, fun text x hmem => hown text x ?_⟩
    rcases List.mem_append.mp hmem with hmem | hmem
    · exact hmem
    · -- a remembered tag is older than the one just issued
      have htag : d = s.nextTag queue := (Prod.mk.inj (List.mem_singleton.mp hmem)).1
      rw [htag] at hle
      exact absurd hle (Nat.not_succ_le_self _)
  · rw [add_zero, ← hready]
    exact Multiset.le_add_right _ _
  · intro x hx
    have hx' := hmem x
    simp only [stock, AmqpState.deliver, messages_append, messages_single, List.mem_append,
      Multiset.notMem_zero, or_false] at hx ⊢
    tauto
  · intro text hmem
    have hnew : (s.nextTag queue, body) ∈ (s.deliver pick queue body).unacked :=
      List.mem_append.mpr (.inr (List.mem_singleton.mpr rfl))
    exact (Prod.mk.inj (AmqpState.eq_of_delivery hmem hnew rfl)).2

/-- A round of the consumer loop. -/
theorem moves_consume {pick : Nat} {lost : Bool} (h : (stock codec).good s)
    (hconsume : consume codec s pick lost = some s') :
    (stock codec).Moves s s' 0 none := by
  obtain ⟨⟨queue, body⟩, hpick, rfl⟩ := Option.map_eq_some_iff.mp hconsume
  obtain ⟨hmoves, hready, hbody⟩ := moves_deliver h hpick
  cases hdecode : codec.decodeMessage body with
  | error e =>
      have hnone : readable codec body = none := by simp [readable, hdecode, Except.toOption]
      show (stock codec).Moves s (if lost then _ else _) 0 none
      split
      · exact hmoves
      · refine hmoves.trans (moves_bury hmoves.good fun text x hmem hread => ?_)
        rw [hbody text hmem, hnone] at hread
        cases hread
  | ok m =>
      have hsome : readable codec body = some m := by simp [readable, hdecode, Except.toOption]
      rw [hsome] at hready
      constructor
      · intro id d hd
        by_cases hid : id = m.id
        · obtain rfl : s.nextTag queue = d := by simpa [hid] using hd
          refine ⟨?_, fun text x hmem hread => ?_⟩
          · simp [AmqpState.nextTag, AmqpState.deliver]
          · rw [hbody text hmem, hsome] at hread
            cases hread
            exact hid.symm
        · exact hmoves.good id d (by simpa [hid] using hd)
      · rw [add_zero, ← hready]
        simp only [stock, ← Multiset.coe_add, Option.toList_some, Multiset.coe_singleton]
        exact le_of_eq (by abel)
      · intro x hx
        have hkept := hmoves.kept x
        have hbefore : m ∈ messages codec s.ready :=
          mem_messages.mpr ⟨_, List.mem_of_getElem? hpick, hsome⟩
        simp only [stock, List.mem_append, List.mem_singleton, Multiset.notMem_zero,
          or_false] at hkept hx ⊢
        rcases hx with hx | hx | hx | hx | hx | rfl
        · exact hkept (.inl hx)
        · exact hkept (.inr (.inl hx))
        · exact hkept (.inr (.inr (.inl hx)))
        · exact hkept (.inr (.inr (.inr (.inl hx))))
        · exact hkept (.inr (.inr (.inr (.inr hx))))
        · exact .inl hbefore
      · exact hmoves.dead

/-! ## What a method moves -/

section Methods

variable {os : List AmqpOracle} {tr : List (Event requests)} {out : TaskResult Unit}

theorem moves_last {request : PublishRequest} {x : TaskMessage} (h : (stock codec).good s)
    (hx : readable codec request.body = some x)
    (hrun : (server b).run os (publishLast request) s = some (tr, out, s')) :
    (stock codec).Moves s s' {x} none := by
  obtain ⟨o, rest, ans, s₁, tail, rfl, hrespond, rfl, hret⟩ := Service.run_call_iff.mp hrun
  obtain ⟨-, -, rfl⟩ := Service.run_ret_iff.mp hret
  rcases server_publish hrespond with rfl | rfl
  · have hrefl := Stock.Moves.refl h
    exact ⟨hrefl.good, hrefl.ready.trans (add_le_add_right (Multiset.zero_le _) _),
      fun y hy => .inl hy, fun y hy => .inl hy⟩
  · exact moves_publish h hx

theorem moves_ack {id : TaskId} (h : (stock codec).good s)
    (hrun : (server b).run os (ack id) s = some (tr, out, s')) :
    (stock codec).Moves s s' 0 none := by
  obtain ⟨o, rest, known, s₁, tail, rfl, hremove, rfl, hrest⟩ := Service.run_call_iff.mp hrun
  cases hremove
  have hforget : (stock codec).Moves s
      { s with deliveries := Function.update s.deliveries id none } 0 none := moves_forget h
  cases hdelivery : s.deliveries id with
  | none =>
      rw [hdelivery] at hrest
      obtain ⟨-, -, rfl⟩ := Service.run_ret_iff.mp hrest
      exact hforget
  | some delivery =>
      rw [hdelivery] at hrest
      obtain ⟨o₁, rest₁, ans, s₂, tail₁, rfl, hack, rfl, hret⟩ := Service.run_call_iff.mp hrest
      obtain ⟨-, -, rfl⟩ := Service.run_ret_iff.mp hret
      rcases server_ack hack with rfl | rfl
      · exact hforget
      · exact hforget.trans (moves_settle hforget.good)

/-- A rejection finds no tag, or does what the server does with the one it finds. -/
theorem run_reject {id : TaskId} {requeue : Bool} (h : (stock codec).good s)
    (hrun : (server b).run os (rejectMessage id requeue) s = some (tr, out, s')) :
    ∃ s₁, (stock codec).Moves s s₁ 0 none ∧ (s' = s₁ ∨
      ∃ delivery, s' = s₁.reject delivery requeue ∧
        ∀ text x, (delivery, text) ∈ s₁.unacked → readable codec text = some x → x.id = id) := by
  obtain ⟨o, rest, known, s₁, tail, rfl, hremove, rfl, hrest⟩ := Service.run_call_iff.mp hrun
  cases hremove
  have hforget : (stock codec).Moves s
      { s with deliveries := Function.update s.deliveries id none } 0 none := moves_forget h
  refine ⟨_, hforget, ?_⟩
  cases hdelivery : s.deliveries id with
  | none =>
      rw [hdelivery] at hrest
      obtain ⟨-, -, rfl⟩ := Service.run_ret_iff.mp hrest
      exact .inl rfl
  | some delivery =>
      rw [hdelivery] at hrest
      obtain ⟨o₁, rest₁, ans, s₂, tail₁, rfl, hnack, rfl, hret⟩ := Service.run_call_iff.mp hrest
      obtain ⟨-, -, rfl⟩ := Service.run_ret_iff.mp hret
      rcases server_nack hnack with rfl | rfl
      · exact .inl rfl
      · exact .inr ⟨delivery, rfl, (h id delivery hdelivery).2⟩

end Methods

/-- RabbitMQ delivers the text it has kept: over this broker a message that is
given back, or dead-lettered, is as it was enqueued. -/
theorem redelivers :
    (b.carrier codec).Redelivers (stock codec) codec.Legible := by
  have hrun : ∀ {os : List AmqpOracle} {s s' : AmqpState} {op : BrokerOp} {r : TaskResult Unit},
      (b.carrier codec).broker.respond os s op = some (r, s') →
        ∃ tr, (server b).run os (b.driver codec op) s = some (tr, r, s') := by
    intro os s s' op r h
    obtain ⟨⟨tr, r', s''⟩, hrun, heq⟩ := Option.map_eq_some_iff.mp h
    cases heq
    exact ⟨tr, hrun⟩
  have hread : ∀ m, codec.Legible m → readable codec (m.encode codec.rfc3339) = some m := by
    intro m hm
    rw [readable, show codec.decodeMessage (m.encode codec.rfc3339) = .ok m from hm]
    rfl
  constructor
  · intro os s m r s' hgood hm h
    obtain ⟨tr, h⟩ := hrun h
    exact moves_last (x := m) hgood (hread m hm) h
  · intro os s m eta r s' hgood hm heta h
    obtain ⟨tr, h⟩ := hrun h
    obtain ⟨o, rest, now, s₁, tail, rfl, hnow, rfl, hlast⟩ := Service.run_call_iff.mp h
    cases hnow
    exact moves_last (x := m) hgood (hread m hm) hlast
  · intro os s id r s' hgood h
    obtain ⟨tr, h⟩ := hrun h
    exact moves_ack hgood h
  · intro os s m r s' hgood h
    obtain ⟨tr, h⟩ := hrun h
    obtain ⟨s₁, hforget, rfl | ⟨delivery, rfl, hown⟩⟩ := run_reject hgood h
    · exact ⟨hforget.good, hforget.ready, hforget.kept, fun x hx => .inl (by simpa using hforget.dead x hx)⟩
    · refine hforget.trans (moves_bury hforget.good fun text x hmem hx => ?_)
      rw [hown text x hmem hx]
  · intro os s m r s' hgood h
    obtain ⟨tr, h⟩ := hrun h
    obtain ⟨s₁, hforget, rfl | ⟨delivery, rfl, hown⟩⟩ := run_reject hgood h
    · exact ⟨0, by simp, by simp, hforget⟩
    · obtain ⟨more, hcard, hmore, hmoves⟩ := moves_requeue hforget.good hown
      refine ⟨more, hcard, fun x hx => ⟨?_, (hmore x hx).2⟩, hforget.trans hmoves⟩
      simpa using hforget.kept x (hmore x hx).1
  · intro a s s' m hgood h
    cases a with
    | mature pick =>
        obtain ⟨s₁, hmature, heq⟩ := Option.map_eq_some_iff.mp h
        cases heq
        have hmoves := moves_mature hgood hmature
        exact ⟨hmoves, by simpa using hmoves.ready, by simp⟩
    | consume pick lost =>
        obtain ⟨s₁, hconsume, heq⟩ := Option.map_eq_some_iff.mp h
        cases heq
        have hmoves := moves_consume hgood hconsume
        exact ⟨hmoves, by simpa using hmoves.ready, by simp⟩
    | poll =>
        have hdequeue : dequeue s = (s', m) := Option.some.inj h
        unfold dequeue at hdequeue
        cases hchannel : s.channel with
        | nil =>
            rw [hchannel] at hdequeue
            cases hdequeue
            exact ⟨.refl hgood, by simp, by simp⟩
        | cons x rest =>
            rw [hchannel] at hdequeue
            cases hdequeue
            have hready : (stock codec).ready { s with channel := rest } + {x} =
                (stock codec).ready s := by
              simp only [stock, hchannel, ← Multiset.cons_coe, ← Multiset.singleton_add]
              abel
            refine ⟨⟨hgood, ?_, ?_, fun y hy => .inl hy⟩, hready.le, ?_⟩
            · rw [add_zero, ← hready]
              exact Multiset.le_add_right _ _
            · intro y hy
              simp only [stock, hchannel, List.mem_cons, Multiset.notMem_zero, or_false] at hy ⊢
              tauto
            · intro y hy
              obtain rfl : y = x := by simpa using hy
              simp [stock, hchannel]

/-! ## Every run -/

section Runs

variable {S : Service resultBackendTrait} {workerCodec : Codec} {backends : S.State}
  {history : List (deployment (b.carrier codec) S workerCodec).Label}
  {c : (deployment (b.carrier codec) S workerCodec).Config} {m₀ : TaskMessage}

/-- What the retries of a message should be: its handler is invoked at most once more
than it may be retried, the `k`-th copy that comes back has `k` retries counted, and a
copy in a dead-letter queue is marked so. -/
structure Retried (m₀ : TaskMessage)
    (history : List (deployment (b.carrier codec) S workerCodec).Label)
    (c : (deployment (b.carrier codec) S workerCodec).Config) : Prop where
  invoked : calls (invocationOf m₀.id) history ≤ m₀.maxRetries.toNat + 1
  redelivered : ∀ (k : Nat) (m : TaskMessage), (executed m₀.id history)[k]? = some m → 0 < k →
    m.retries.toNat = k ∧ m.state = .retry
  buried : ∀ x ∈ messages codec c.state.1.dlq, x.id = m₀.id → x.state = .deadLettered

/-- When retries are right over RabbitMQ.  For a message that is enqueued once, with
no retries: in every run in which no execution of it fails they are.  In every run at
all, every copy that is executed or dead-lettered is the message as it was enqueued, so
they are right exactly as long as no second copy is executed and none is dead-lettered
(unless it was marked as dead-lettered from the start). -/
theorem amqp_retries_bounded
    (h : (deployment (b.carrier codec) S workerCodec).Reach ⟨(AmqpState.empty, backends), []⟩
      history c)
    (hlegible : ∀ l ∈ history, ∀ m, sentBy l = some m → codec.Legible m)
    (honce : enqueued m₀.id history = [m₀]) (hfresh : m₀.retries = 0) :
    (calls (failureOf m₀.id) history = 0 → Retried m₀ history c) ∧
      (m₀.state ≠ .deadLettered → (Retried m₀ history c ↔
        (executed m₀.id history).length ≤ 1 ∧
          ∀ x ∈ messages codec c.state.1.dlq, x.id ≠ m₀.id)) := by
  have hempty : (stock codec).Empty AmqpState.empty := by
    constructor
    · exact fun id delivery hd => nomatch hd
    · intro x hx
      simp [stock, AmqpState.empty, messages] at hx
    · rfl
    · intro x hx
      simp [stock, AmqpState.empty, messages] at hx
  obtain ⟨stages, hbalance, -⟩ := account_of_reach redelivers hempty h hlegible m₀.id
  obtain ⟨hhandled, hrounds⟩ := hbalance.once honce
  have hfailed := hbalance.failed
  have hcopies : ∀ m ∈ executed m₀.id history, m = m₀ := by
    intro m hm
    simpa [honce] using hbalance.executed m hm
  have hdead : ∀ x ∈ messages codec c.state.1.dlq, x.id = m₀.id →
      x = m₀ ∧ 0 < calls (burialOf m₀.id) history := by
    intro x hx hid
    have hkept := hbalance.kept x (.inr (.inr (.inr (.inl hx)))) hid
    exact ⟨by simpa [honce] using hkept, hbalance.dead x hx hid⟩
  have hright : (executed m₀.id history).length ≤ 1 →
      (∀ x ∈ messages codec c.state.1.dlq, x.id ≠ m₀.id) → Retried m₀ history c := by
    intro hlength hnone
    constructor
    · omega
    · intro k m hm hk
      obtain ⟨hlt, -⟩ := List.getElem?_eq_some_iff.mp hm
      omega
    · exact fun x hx hid => absurd hid (hnone x hx)
  refine ⟨fun hzero => ?_, fun hstate => ⟨fun hretried => ⟨?_, ?_⟩, fun h => hright h.1 h.2⟩⟩
  · refine hright (by omega) fun x hx hid => ?_
    have hpos := (hdead x hx hid).2
    omega
  · refine Nat.le_of_not_lt fun hlt => ?_
    -- the second copy would have a retry counted
    obtain ⟨hretries, -⟩ := hretried.redelivered 1 _ (List.getElem?_eq_getElem hlt) one_pos
    rw [hcopies _ (List.getElem_mem hlt), hfresh] at hretries
    cases hretries
  · intro x hx hid
    have hmarked := hretried.buried x hx hid
    rw [(hdead x hx hid).1] at hmarked
    exact hstate hmarked

end Runs

/-! ## A message with one retry -/

/-- A broker with one queue. -/
def oneQueue : AmqpBroker := ⟨"kojin.direct", "kojin.delayed", ["q"]⟩

/-- A codec that reads this message. -/
def oneRetryCodec : AmqpCodec := ⟨fun _ => "", readOneRetry⟩

theorem oneRetryCodec_legible : oneRetryCodec.Legible oneRetry := by
  simp [AmqpCodec.Legible, oneRetryCodec, readOneRetry]

/-- Workers over one queue, with the in-memory result backend. -/
abbrev amqpPair : Machine traits :=
  deployment (oneQueue.carrier oneRetryCodec) MemoryResultBackend.service blankCodec

/-- Nothing has been sent yet. -/
def amqpOrigin : amqpPair.Config := ⟨(AmqpState.empty, MemoryResultBackend.new), []⟩

/-- A request that arrives. -/
def arrives : AmqpOracle := ⟨⟨0⟩, none⟩

/-- The message is enqueued. -/
def sendOneRetry : amqpPair.Move := .env (.enqueue [arrives] oneRetry)

/-- A consumer is handed the message and a worker polls it; as the `i`-th execution it
makes `n` calls.  A poll that finds nothing starts no execution. -/
def round (i n : Nat) (runtime : RuntimeOracle) : List amqpPair.Move :=
  let w : Worker := ⟨["t"], [], false⟩
  .env (.arrive w (.consume 0 false)) :: .env (.arrive w .poll) ::
    List.replicate n (.run i ⟨runtime, [arrives, arrives], ()⟩)

/-- A success. -/
def noFailure : List amqpPair.Move := sendOneRetry :: round 0 4 stillRuntime

theorem noFailure_plays : (amqpOrigin.playAll noFailure).isSome = true := by
  decide +kernel

/-- How it ends. -/
def noFailureEnd : List amqpPair.Label × amqpPair.Config :=
  (amqpOrigin.playAll noFailure).get noFailure_plays

set_option maxRecDepth 100000 in
theorem noFailure_history :
    noFailureEnd.1.filterMap sentBy = [oneRetry] ∧
      enqueued oneRetry.id noFailureEnd.1 = [oneRetry] := ⟨rfl, rfl⟩

/-- A message that does not fail is executed once. -/
theorem amqp_retries_bounded_noFailure :
    amqpPair.Reach amqpOrigin noFailureEnd.1 noFailureEnd.2 ∧
      calls (invocationOf oneRetry.id) noFailureEnd.1 = 1 ∧
      Retried oneRetry noFailureEnd.1 noFailureEnd.2 := by
  have hreach : amqpPair.Reach amqpOrigin noFailureEnd.1 noFailureEnd.2 :=
    Machine.Config.reach_of_get noFailure_plays
  have hlegible : ∀ l ∈ noFailureEnd.1, ∀ m, sentBy l = some m → oneRetryCodec.Legible m :=
    legible_of_sent oneRetryCodec_legible noFailure_history.1
  have hnone : calls (failureOf oneRetry.id) noFailureEnd.1 = 0 := by decide +kernel
  have hbounds := amqp_retries_bounded hreach hlegible noFailure_history.2 rfl
  exact ⟨hreach, by decide +kernel, hbounds.1 hnone⟩

/-- Three failures. -/
def threeFailures : List amqpPair.Move :=
  sendOneRetry ::
    (round 0 7 failingRuntime ++ round 1 7 failingRuntime ++ round 2 7 failingRuntime)

theorem threeFailures_plays : (amqpOrigin.playAll threeFailures).isSome = true := by
  decide +kernel

/-- How they end. -/
def threeFailuresEnd : List amqpPair.Label × amqpPair.Config :=
  (amqpOrigin.playAll threeFailures).get threeFailures_plays

set_option maxRecDepth 100000 in
theorem threeFailures_history :
    threeFailuresEnd.1.filterMap sentBy = [oneRetry] ∧
      enqueued oneRetry.id threeFailuresEnd.1 = [oneRetry] := ⟨rfl, rfl⟩

/-- The message comes back as it was enqueued: it may be retried once, and its
handler is invoked a third time. -/
theorem retries_lost :
    amqpPair.Reach amqpOrigin threeFailuresEnd.1 threeFailuresEnd.2 ∧
      (∀ l ∈ threeFailuresEnd.1, ∀ m, sentBy l = some m → oneRetryCodec.Legible m) ∧
      enqueued oneRetry.id threeFailuresEnd.1 = [oneRetry] ∧ oneRetry.retries = 0 ∧
      calls (invocationOf oneRetry.id) threeFailuresEnd.1 = 3 ∧
      ¬ Retried oneRetry threeFailuresEnd.1 threeFailuresEnd.2 := by
  have hreach : amqpPair.Reach amqpOrigin threeFailuresEnd.1 threeFailuresEnd.2 :=
    Machine.Config.reach_of_get threeFailures_plays
  have hinvoked : calls (invocationOf oneRetry.id) threeFailuresEnd.1 = 3 := by decide +kernel
  refine ⟨hreach, legible_of_sent oneRetryCodec_legible threeFailures_history.1,
    threeFailures_history.2, rfl, hinvoked, fun hretried => ?_⟩
  have hle := hretried.invoked
  have hlt : oneRetry.maxRetries.toNat + 1 < calls (invocationOf oneRetry.id) threeFailuresEnd.1 := by
    rw [hinvoked]
    decide +kernel
  exact Nat.not_le_of_lt hlt hle

end AmqpBroker

end Kojin.Amqp
