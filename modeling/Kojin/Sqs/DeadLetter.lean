/-
  Sqs/DeadLetter.lean --- where a dead-lettered message is afterwards
  (`kojin-sqs`: `SqsBroker::dead_letter`).

  The call deletes the text from its queue and then, if a dead-letter queue is
  configured, sends the message there.  `dead_letter_safe_iff` says when the
  message is in one of the two queues after the call.  A deletion that was carried
  out and whose answer is lost ends the call, before anything is sent.
-/
import Kojin.Sqs.Broker

set_option autoImplicit false

namespace Kojin.Sqs

open Kojin.Foundation Kojin.Core

namespace SqsState

variable {s : SqsState} {url : String} {receipt : Receipt}

/-- The text with this receipt is in flight. -/
def Held (s : SqsState) (url : String) (receipt : Receipt) : Prop :=
  ∃ text, (receipt, url, text) ∈ s.flight

/-- Receipts are not issued twice. -/
theorem eq_of_receipt {e e' : Receipt × String × String} (he : e ∈ s.flight)
    (he' : e' ∈ s.flight) (h : e.1 = e'.1) : e = e' :=
  List.inj_on_of_nodup_map s.nodup he he' h

/-- A deleted text is gone. -/
theorem not_held_delete : ¬ (s.delete url receipt).Held url receipt := by
  rintro ⟨text, hmem⟩
  have hbefore : (receipt, url, text) ∈ s.flight := List.eraseP_sublist.subset hmem
  obtain ⟨e, l₁, l₂, -, hat, hsplit, herase⟩ :=
    List.exists_of_eraseP (p := isAt url receipt) hbefore (by simp [isAt])
  have hfirst : e.1 = receipt := by
    simp only [isAt, Bool.and_eq_true, decide_eq_true_eq] at hat
    exact hat.1
  have hnodup := s.nodup
  have hrest : receipt ∈ (l₁ ++ l₂).map Prod.fst := by
    rw [← herase]
    exact List.mem_map.mpr ⟨_, hmem, rfl⟩
  rw [hsplit, List.map_append, List.map_cons, hfirst, List.nodup_middle, List.nodup_cons,
    ← List.map_append] at hnodup
  exact hnodup.1 hrest

end SqsState

namespace SqsBroker

variable {b : SqsBroker} {codec : SqsCodec}

/-- The message is still in flight in its queue, or its text is in the configured
dead-letter queue. -/
def Safe (b : SqsBroker) (codec : SqsCodec) (m : TaskMessage) (url : String) (receipt : Receipt)
    (s : SqsState) : Prop :=
  s.Held url receipt ∨
    ∃ dlq, b.config.dlqUrl = some dlq ∧ (dlq, m.encode codec.rfc3339) ∈ s.visible

/-- The dead-letter queue takes the message. -/
def Takes (dlq : String) (o : SqsOracle) : Prop :=
  arrives o.failure = true ∧ (o.duplicate && isFifo dlq) = false

variable {m : TaskMessage} {url : String} {receipt : Receipt} {os : List SqsOracle}
  {s s' : SqsState} {tr : List (Event requests)} {out : TaskResult Unit}

/-- What a request does to the texts: none leaves the flight, and the text is in its
queue afterwards if the queue took it or had it before. -/
theorem run_sendLast {dlq dedupId : String}
    (h : server.run os (sendLast (request codec m dlq dedupId none)) s = some (tr, out, s')) :
    ∃ o rest, os = o :: rest ∧ s'.flight = s.flight ∧
      ((dlq, m.encode codec.rfc3339) ∈ s'.visible ↔
        Takes dlq o ∨ (dlq, m.encode codec.rfc3339) ∈ s.visible) := by
  obtain ⟨o, rest, ans, s₁, tail, rfl, hrespond, rfl, hrun⟩ := Service.run_call_iff.mp h
  obtain ⟨-, -, rfl⟩ := Service.run_ret_iff.mp hrun
  refine ⟨o, rest, rfl, ?_⟩
  have hsent : arrives o.failure = true →
      (s.send (request codec m dlq dedupId none) o.duplicate).flight = s.flight ∧
        ((dlq, m.encode codec.rfc3339) ∈
            (s.send (request codec m dlq dedupId none) o.duplicate).visible ↔
          Takes dlq o ∨ (dlq, m.encode codec.rfc3339) ∈ s.visible) := by
    intro harrives
    cases hdup : o.duplicate <;> cases hfifo : isFifo dlq <;>
      simp [Takes, harrives, hdup, hfifo, SqsState.send, request]
  rcases server_send hrespond with ⟨e, -, -, ⟨hlost, rfl⟩ | ⟨harrives, rfl⟩⟩ | ⟨-, hnone, rfl⟩
  · simp [Takes, hlost]
  · exact hsent harrives
  · exact hsent (by simp [hnone])

/-- What an acknowledgement does to a message in flight: the text is deleted if the
request arrives, and the call succeeds if it is answered as well. -/
theorem run_ack {id : TaskId} (hreceipt : s.receipts id = some (url, receipt))
    (h : server.run os (ack id) s = some (tr, out, s')) :
    ∃ o₀ o rest, os = o₀ :: o :: rest ∧ tr.length = 2 ∧ s'.visible = s.visible ∧
      s'.flight = (if arrives o.failure then s.delete url receipt else s).flight ∧
      ((out = .ok () ∧ o.failure = none) ∨ ((∃ e, out = .error e) ∧ o.failure ≠ none)) := by
  obtain ⟨o₀, os₁, ans, s₁, tail, rfl, hremove, rfl, hrun⟩ := Service.run_call_iff.mp h
  cases hremove
  rw [hreceipt] at hrun
  obtain ⟨o, rest, ans, s₂, tail₁, rfl, hdelete, rfl, hrun₁⟩ := Service.run_call_iff.mp hrun
  obtain ⟨rfl, rfl, rfl⟩ := Service.run_ret_iff.mp hrun₁
  refine ⟨o₀, o, rest, rfl, rfl, ?_⟩
  rcases server_delete hdelete with ⟨e, rfl, hsome, ⟨hlost, rfl⟩ | ⟨harrives, rfl⟩⟩ |
    ⟨rfl, hnone, rfl⟩
  · exact ⟨rfl, by simp [hlost], .inr ⟨⟨_, rfl⟩, hsome⟩⟩
  · exact ⟨rfl, by simp [harrives, SqsState.delete], .inr ⟨⟨_, rfl⟩, hsome⟩⟩
  · exact ⟨rfl, by simp [hnone, SqsState.delete], .inl ⟨rfl, hnone⟩⟩

/-- When a dead-lettered message is safe.  Called for a message that was received and is
in flight, whatever is lost of its requests: afterwards the message is still in flight or
in the dead-letter queue exactly if the request to delete it did not arrive, or a
dead-letter queue is configured that had the text before or, the deletion being answered,
took it. -/
theorem dead_letter_safe_iff (hreceipt : s.receipts m.id = some (url, receipt))
    (hheld : s.Held url receipt)
    (h : server.run os (b.deadLetter codec m) s = some (tr, out, s')) :
    b.Safe codec m url receipt s' ↔
      (∃ o, os[1]? = some o ∧ arrives o.failure = false) ∨
        ∃ dlq, b.config.dlqUrl = some dlq ∧ ((dlq, m.encode codec.rfc3339) ∈ s.visible ∨
          ∃ o o', os[1]? = some o ∧ o.failure = none ∧ os[2]? = some o' ∧ Takes dlq o') := by
  obtain ⟨tr₁, tr₂, out₁, s₁, rfl, hack, hrest⟩ := Service.run_bind h
  obtain ⟨o₀, o, rest, rfl, hlength, hvisible, hflight, hout⟩ := run_ack hreceipt hack
  have hkept : s₁.Held url receipt ↔ arrives o.failure = false := by
    cases harrives : arrives o.failure with
    | false =>
        rw [harrives] at hflight
        exact iff_of_true (hheld.imp fun _ hmem => hflight ▸ hmem) rfl
    | true =>
        rw [harrives] at hflight
        refine iff_of_false ?_ Bool.noConfusion
        rintro ⟨text, hmem⟩
        rw [hflight] at hmem
        exact SqsState.not_held_delete ⟨text, hmem⟩
  have hdelete : (∃ o', (o₀ :: o :: rest)[1]? = some o' ∧ arrives o'.failure = false) ↔
      arrives o.failure = false := by simp
  rw [hdelete]
  rcases hout with ⟨rfl, hnone⟩ | ⟨⟨e, rfl⟩, hsome⟩
  · -- the text is deleted, and the call goes on
    have hdeleted : ¬ arrives o.failure = false := by simp [hnone]
    rw [hlength] at hrest
    cases hdlq : b.config.dlqUrl with
    | none =>
        rw [hdlq] at hrest
        obtain ⟨-, -, rfl⟩ := Service.run_ret_iff.mp hrest
        simp [Safe, hdlq, hkept]
    | some dlq =>
        rw [hdlq] at hrest
        obtain ⟨o₂, rest₂, hos, hsame, hiff⟩ := run_sendLast hrest
        obtain rfl : rest = o₂ :: rest₂ := hos
        rw [hvisible] at hiff
        have hheld' : s'.Held url receipt ↔ s₁.Held url receipt := by
          simp [SqsState.Held, hsame]
        simp [Safe, hdlq, hheld', hkept, hiff, hnone, or_comm]
  · obtain ⟨-, -, rfl⟩ := Service.run_ret_iff.mp hrest
    simp [Safe, hkept, hvisible, hsome]

/-! ## With and without a dead-letter queue -/

/-- A broker with one queue. -/
def oneQueue (dlqUrl : Option String) : SqsBroker where
  config := ⟨["http://sqs/q"], dlqUrl, 30, 20⟩
  queueNames := [("http://sqs/q", "q")]
  names := by simp

/-- A request of which nothing is lost. -/
def prompt : SqsOracle := ⟨⟨0⟩, none, false, 0⟩

/-- The message is in flight under receipt 0. -/
def inFlight (text : String) : SqsState where
  visible := []
  flight := [(0, "http://sqs/q", text)]
  receipts := fun id => if id = ⟨1⟩ then some ("http://sqs/q", 0) else none
  issued := 1
  nodup := List.nodup_singleton 0
  bound e he := by
    obtain rfl := List.mem_singleton.mp he
    exact Nat.zero_lt_one

/-- A codec that prints no timestamps and reads no message. -/
def blankCodec : SqsCodec := ⟨fun _ => "", fun _ => .error "not a message"⟩

/-- With a dead-letter queue and no failure the message is safe. -/
theorem dead_letter_safe_configured :
    ∃ tr s', server.run [prompt, prompt, prompt]
        ((oneQueue (some "http://sqs/dlq")).deadLetter blankCodec (plainMessage ⟨1⟩))
          (inFlight "text") = some (tr, .ok (), s') ∧
      (oneQueue (some "http://sqs/dlq")).Safe blankCodec (plainMessage ⟨1⟩) "http://sqs/q" 0 s' := by
  obtain ⟨tr, s', hrun⟩ : ∃ tr s', server.run [prompt, prompt, prompt]
      ((oneQueue (some "http://sqs/dlq")).deadLetter blankCodec (plainMessage ⟨1⟩))
        (inFlight "text") = some (tr, .ok (), s') := ⟨_, _, rfl⟩
  refine ⟨tr, s', hrun, ?_⟩
  refine (dead_letter_safe_iff rfl ⟨"text", List.mem_singleton.mpr rfl⟩ hrun).mpr ?_
  exact .inr ⟨"http://sqs/dlq", rfl, .inr ⟨prompt, prompt, rfl, rfl, rfl, rfl, rfl⟩⟩

/-- Without a dead-letter queue the message is destroyed: no request fails, the call
returns `Ok`, and the server has no text any more. -/
theorem dead_letter_destroys :
    ∃ tr s', server.run [prompt, prompt, prompt]
        ((oneQueue none).deadLetter blankCodec (plainMessage ⟨1⟩)) (inFlight "text") =
          some (tr, .ok (), s') ∧
      s'.visible = [] ∧ s'.flight = [] := ⟨_, _, rfl, rfl, rfl⟩

end SqsBroker

end Kojin.Sqs
