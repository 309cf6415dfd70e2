/-
  Core/MemoryCalls.lean --- a broker that one worker calls (`kojin-core`: the trait
  methods of `memory_broker.rs` as they are answered when nobody else is there).

  The methods of the trait and the two lengths, one after the other.  A `dequeue` that
  finds nothing waits until its time is up; alone, it waits for nothing.

      alone     the calls as the code makes them: sections, and a future that is polled
      answer    what they come to when nothing happens in between

  `alone_respond` says that the first does the second, up to who is notified.
-/
import Kojin.Core.MemoryDequeue
import Kojin.Foundation.History

set_option autoImplicit false

namespace Kojin.Core

open Kojin.Foundation

/-- The calls of a worker, and the questions about lengths. -/
inductive WorkerCall where
  | enqueue (m : TaskMessage)
  | dequeue (queues : List String) (timeout : Nat)
  | ack (id : TaskId)
  | nack (m : TaskMessage)
  | deadLetter (m : TaskMessage)
  | queueLen (queue : String)
  | dlqLen (queue : String)

namespace WorkerCall

/-- What a call returns when it succeeds. -/
abbrev Ans : WorkerCall → Type
  | .enqueue _ => Unit
  | .dequeue _ _ => Option TaskMessage
  | .ack _ => Unit
  | .nack _ => Unit
  | .deadLetter _ => Unit
  | .queueLen _ => Nat
  | .dlqLen _ => Nat

/-- The message a call hands to the broker. -/
def message : WorkerCall → Option TaskMessage
  | .enqueue m => some m
  | .nack m => some m
  | .deadLetter m => some m
  | _ => none

/-- The message a call brings in. -/
def enqueued : WorkerCall → Option TaskMessage
  | .enqueue m => some m
  | _ => none

/-- The identifier of the message a call settles. -/
def settles : WorkerCall → Option TaskId
  | .ack id => some id
  | .nack m => some m.id
  | .deadLetter m => some m.id
  | _ => none

end WorkerCall

/-- The interface of these calls. -/
abbrev workerCalls : Interface := ⟨WorkerCall, fun c => TaskResult c.Ans⟩

/-- The message a `dequeue` has returned. -/
def handedOut : Event workerCalls → Option TaskMessage
  | ⟨.dequeue _ _, .ok m⟩ => m
  | _ => none

/-- The worker holds the message with this identifier: a `dequeue` has returned it, and
it has not been settled since. -/
def InHand (history : List (Event workerCalls)) (id : TaskId) : Prop :=
  ∃ before e after m, history = before ++ e :: after ∧ handedOut e = some m ∧ m.id = id ∧
    ∀ e' ∈ after, e'.op.settles ≠ some id

/-- One more call: it hands the message out, or the message was held and is not settled. -/
theorem inHand_snoc {history : List (Event workerCalls)} {e : Event workerCalls} {id : TaskId}
    (h : InHand (history ++ [e]) id) :
    (∃ m, handedOut e = some m ∧ m.id = id) ∨ (InHand history id ∧ e.op.settles ≠ some id) := by
  obtain ⟨before, e', after, m, hsplit, hout, hid, hkept⟩ := h
  rcases List.eq_nil_or_concat after with rfl | ⟨after', last, rfl⟩
  · obtain ⟨-, heq⟩ := List.append_inj' hsplit rfl
    obtain rfl : e = e' := List.singleton_inj.mp heq
    exact .inl ⟨m, hout, hid⟩
  · have hassoc : before ++ e' :: (after' ++ [last]) = (before ++ e' :: after') ++ [last] := by
      simp
    rw [List.concat_eq_append, hassoc] at hsplit
    obtain ⟨rfl, heq⟩ := List.append_inj' hsplit rfl
    obtain rfl : e = last := List.singleton_inj.mp heq
    refine .inr ⟨⟨before, e', after', m, rfl, hout, hid, fun x hx => hkept x ?_⟩, hkept e ?_⟩
    · simp [hx]
    · simp

namespace MemoryBroker

variable {b b' : MemoryBroker} {m : TaskMessage} {queues : List String} {i : TaskId}

/-- What a call returns, and what it leaves behind. -/
def answer (b : MemoryBroker) : (c : WorkerCall) → c.Ans × MemoryBroker
  | .enqueue m => ((), b.enqueue m)
  | .dequeue queues _ =>
      match b.tryDequeue queues with
      | some (m, b') => (some m, b')
      | none => (none, b)
  | .ack id => ((), b.removeProcessing id)
  | .nack m => ((), (b.removeProcessing m.id).enqueue m)
  | .deadLetter m => ((), (b.removeProcessing m.id).pushDlq m)
  | .queueLen queue => (b.queueLen queue, b)
  | .dlqLen queue => (b.dlqLen queue, b)

/-- Poll a `dequeue` until it returns, with its time up or not, as it comes. -/
def pollAll (queues : List String) : List Bool → MemoryFuture → LockedBroker →
    Option (TaskResult (Option TaskMessage) × LockedBroker)
  | [], _, _ => none
  | timedOut :: polls, future, s =>
      match LockedBroker.pollDequeue queues 0 timedOut future s with
      | none => none
      | some (.ready out, s') => some (out, s')
      | some (.pending future', s') => pollAll queues polls future' s'

/-- A method that is made of sections, with nothing in between. -/
def sections (b : MemoryBroker) (op : BrokerOp) : Option (TaskResult Unit × MemoryBroker) :=
  service.eval () (driver op) b

/-- The broker, called by one worker.  For a `dequeue` comes along what its polls are told
about its time. -/
abbrev alone : Service workerCalls where
  State := MemoryBroker
  Oracle := List Bool
  respond polls b
    | .enqueue m => b.sections (.enqueue m)
    | .dequeue queues _ =>
        (pollAll queues polls .locking (.free b)).map fun p => (p.1, p.2.broker)
    | .ack id => b.sections (.ack id)
    | .nack m => b.sections (.nack m)
    | .deadLetter m => b.sections (.deadLetter m)
    | .queueLen queue => some (.ok (b.queueLen queue), b)
    | .dlqLen queue => some (.ok (b.dlqLen queue), b)

/-! ## What the broker knows -/

/-- Every message in the broker is a good one, and the map has it under its identifier. -/
structure Knows (P : TaskMessage → Prop) (b : MemoryBroker) : Prop where
  queued : ∀ name ms, b.queues.lookup name = some ms → ∀ m ∈ ms, P m
  held : ∀ i m, b.processing.lookup i = some m → P m ∧ m.id = i
  dead : ∀ name ms, b.dlq.lookup name = some ms → ∀ m ∈ ms, P m

variable {P : TaskMessage → Prop} {used : TaskId → Prop}

theorem knows_new : Knows P new where
  queued _ _ h := by cases h
  held _ _ h := by cases h
  dead _ _ h := by cases h

/-- A push to one of the queues of a table. -/
theorem mem_pushed {t : Table String (List TaskMessage)}
    (h : ∀ name ms, t.lookup name = some ms → ∀ m ∈ ms, P m) (hm : P m) (queue : String) :
    ∀ name ms, (t.insert queue ((t.lookup queue).getD [] ++ [m])).lookup name = some ms →
      ∀ x ∈ ms, P x := by
  intro name ms hlookup x hx
  by_cases hname : name = queue
  · subst hname
    rw [AList.lookup_insert] at hlookup
    cases hlookup
    rcases List.mem_append.mp hx with hx | hx
    · cases hold : t.lookup name with
      | none =>
          rw [hold] at hx
          cases hx
      | some ms =>
          rw [hold] at hx
          exact h name ms hold x hx
    · obtain rfl := List.mem_singleton.mp hx
      exact hm
  · rw [AList.lookup_insert_ne hname] at hlookup
    exact h name ms hlookup x hx

theorem Knows.enqueue (h : Knows P b) (hm : P m) : Knows P (b.enqueue m) where
  queued := mem_pushed h.queued hm m.queue
  held := h.held
  dead := h.dead

theorem Knows.pushDlq (h : Knows P b) (hm : P m) : Knows P (b.pushDlq m) where
  queued := h.queued
  held := h.held
  dead := mem_pushed h.dead hm m.queue

theorem Knows.removeProcessing (h : Knows P b) (id : TaskId) : Knows P (b.removeProcessing id) where
  queued := h.queued
  held i m hlookup := by
    by_cases hid : i = id
    · subst hid
      have hnone : (b.processing.erase i).lookup i = none := AList.lookup_erase i b.processing
      rw [show (b.removeProcessing i).processing = b.processing.erase i from rfl, hnone] at hlookup
      cases hlookup
    · exact h.held i m ((AList.lookup_erase_ne hid).symm.trans hlookup)
  dead := h.dead

theorem Knows.tryDequeue (h : Knows P b) (hscan : b.tryDequeue queues = some (m, b')) :
    Knows P b' := by
  obtain ⟨name, -, ms, hlookup, rfl⟩ := tryDequeue_cases hscan
  have hgood := h.queued name (m :: ms) hlookup
  refine ⟨fun name' ms' hlookup' x hx => ?_, fun i x hlookup' => ?_, h.dead⟩
  · by_cases hname : name' = name
    · subst hname
      rw [AList.lookup_insert] at hlookup'
      cases hlookup'
      exact hgood x (List.mem_cons_of_mem m hx)
    · rw [AList.lookup_insert_ne hname] at hlookup'
      exact h.queued name' ms' hlookup' x hx
  · by_cases hid : i = m.id
    · subst hid
      rw [AList.lookup_insert] at hlookup'
      cases hlookup'
      exact ⟨hgood m List.mem_cons_self, rfl⟩
    · rw [AList.lookup_insert_ne hid] at hlookup'
      exact h.held i x hlookup'

/-- A call brings in no other messages than its own. -/
theorem Knows.answer (h : Knows P b) (c : WorkerCall) (hc : ∀ m, c.message = some m → P m) :
    Knows P (b.answer c).2 := by
  cases c with
  | enqueue m => exact h.enqueue (hc m rfl)
  | dequeue queues timeout =>
      cases hscan : b.tryDequeue queues with
      | none => simpa only [MemoryBroker.answer, hscan] using h
      | some p =>
          simp only [MemoryBroker.answer, hscan]
          exact h.tryDequeue hscan
  | ack id => exact h.removeProcessing id
  | nack m => exact (h.removeProcessing m.id).enqueue (hc m rfl)
  | deadLetter m => exact (h.removeProcessing m.id).pushDlq (hc m rfl)
  | queueLen queue => exact h
  | dlqLen queue => exact h

/-- A message is in one place at most, and only those that were enqueued are there. -/
structure Sole (used : TaskId → Prop) (b : MemoryBroker) : Prop where
  sole : ∀ i, b.queued i + b.processed i ≤ 1
  used : ∀ i, 0 < b.queued i + b.processed i → used i

theorem sole_new : Sole used new where
  sole i := by simp
  used i h := by simp at h

/-- What is at the front of a queue is not being processed. -/
theorem Sole.front (h : Sole used b) {name : String} {ms : List TaskMessage}
    (hlookup : b.queues.lookup name = some (m :: ms)) : m.id ∉ b.processing := by
  intro hmem
  have hscan : b.tryDequeue [name] = some (m, { b with
      queues := b.queues.insert name ms
      processing := b.processing.insert m.id m }) := by
    simp only [tryDequeue, hlookup]
  have hqueued := queued_pos_of_tryDequeue hscan
  have hsole := h.sole m.id
  rw [processed, if_pos hmem] at hsole
  omega

/-- A call that puts nothing in keeps a message in one place. -/
theorem Sole.shrink {used' : TaskId → Prop} (h : Sole used b) (hused : ∀ i, used i → used' i)
    (hle : ∀ i, b'.queued i + b'.processed i ≤ b.queued i + b.processed i) : Sole used' b' where
  sole i := (hle i).trans (h.sole i)
  used i hpos := hused i (h.used i (Nat.lt_of_lt_of_le hpos (hle i)))

theorem places_removeProcessing_le (b : MemoryBroker) (id i : TaskId) :
    (b.removeProcessing id).queued i + (b.removeProcessing id).processed i ≤
      b.queued i + b.processed i := by
  rw [queued_removeProcessing]
  by_cases hid : id = i
  · subst hid
    rw [processed_removeProcessing_self]
    omega
  · rw [processed_removeProcessing_of_ne b hid]

theorem places_tryDequeue_le (h : b.tryDequeue queues = some (m, b')) (i : TaskId) :
    b'.queued i + b'.processed i ≤ b.queued i + b.processed i := by
  have hqueued := queued_of_tryDequeue h i
  by_cases hid : m.id = i
  · subst hid
    rw [unit_self] at hqueued
    rw [processed_of_tryDequeue_self h]
    omega
  · rw [unit_of_ne hid] at hqueued
    rw [processed_of_tryDequeue_of_ne h hid]
    omega

theorem places_nack_le (hheld : m.id ∈ b.processing) (i : TaskId) :
    ((b.removeProcessing m.id).enqueue m).queued i +
        ((b.removeProcessing m.id).enqueue m).processed i ≤ b.queued i + b.processed i := by
  rw [queued_enqueue, processed_enqueue, queued_removeProcessing]
  by_cases hid : m.id = i
  · subst hid
    have hone : b.processed m.id = 1 := if_pos hheld
    rw [processed_removeProcessing_self, unit_self, hone]
  · rw [processed_removeProcessing_of_ne b hid, unit_of_ne hid]
    omega

/-- If only fresh identifiers are enqueued and only held messages are put back, a message
stays in one place. -/
theorem Sole.answer (h : Sole used b) (c : WorkerCall)
    (hnew : ∀ m, c.enqueued = some m → ¬ used m.id)
    (hheld : ∀ m, c = .nack m → m.id ∈ b.processing) :
    Sole (fun i => used i ∨ ∃ m, c.enqueued = some m ∧ m.id = i) (b.answer c).2 := by
  cases c with
  | enqueue m =>
      have hplaces : ∀ i, (b.enqueue m).queued i + (b.enqueue m).processed i =
          b.queued i + b.processed i + unit m.id i := by
        intro i
        rw [queued_enqueue, processed_enqueue]
        omega
      have hfresh := mt (h.used m.id) (hnew m rfl)
      refine ⟨fun i => ?_, fun i hpos => ?_⟩
      · rw [show (b.answer (.enqueue m)).2 = b.enqueue m from rfl, hplaces]
        by_cases hid : m.id = i
        · subst hid
          rw [unit_self]
          omega
        · rw [unit_of_ne hid]
          exact h.sole i
      · rw [show (b.answer (.enqueue m)).2 = b.enqueue m from rfl, hplaces] at hpos
        by_cases hid : m.id = i
        · exact .inr ⟨m, rfl, hid⟩
        · rw [unit_of_ne hid] at hpos
          exact .inl (h.used i hpos)
  | dequeue queues timeout =>
      refine h.shrink (fun i hi => .inl hi) fun i => ?_
      cases hscan : b.tryDequeue queues with
      | none => simp only [MemoryBroker.answer, hscan, le_refl]
      | some p =>
          simp only [MemoryBroker.answer, hscan]
          exact places_tryDequeue_le hscan i
  | ack id => exact h.shrink (fun i hi => .inl hi) (places_removeProcessing_le b id)
  | nack m => exact h.shrink (fun i hi => .inl hi) (places_nack_le (hheld m rfl))
  | deadLetter m => exact h.shrink (fun i hi => .inl hi) (places_removeProcessing_le b m.id)
  | queueLen queue => exact h.shrink (fun i hi => .inl hi) fun i => le_refl _
  | dlqLen queue => exact h.shrink (fun i hi => .inl hi) fun i => le_refl _

/-! ## Held messages -/

/-- What a call of the broker leaves in the map. -/
theorem mem_processing_answer (c : WorkerCall) {id : TaskId} (hid : id ∈ b.processing)
    (hc : c.settles ≠ some id) : id ∈ (b.answer c).2.processing := by
  have hkeep : ∀ x, x ≠ id → id ∈ (b.removeProcessing x).processing := by
    intro x hx
    exact AList.mem_erase.mpr ⟨Ne.symm hx, hid⟩
  cases c with
  | enqueue m => exact hid
  | dequeue queues timeout =>
      cases hscan : b.tryDequeue queues with
      | none => simpa only [MemoryBroker.answer, hscan] using hid
      | some p =>
          obtain ⟨name, -, ms, -, hstate⟩ := tryDequeue_cases hscan
          simp only [MemoryBroker.answer, hscan, hstate]
          exact AList.mem_insert _ |>.mpr (.inr hid)
  | ack x => exact hkeep x fun heq => hc (congrArg some heq)
  | nack m => exact hkeep m.id fun heq => hc (congrArg some heq)
  | deadLetter m => exact hkeep m.id fun heq => hc (congrArg some heq)
  | queueLen queue => exact hid
  | dlqLen queue => exact hid

/-- A message that is handed out is in the map. -/
theorem mem_processing_of_handedOut {c : WorkerCall}
    (h : handedOut ⟨c, .ok (b.answer c).1⟩ = some m) : m.id ∈ (b.answer c).2.processing := by
  cases c with
  | dequeue queues timeout =>
      cases hscan : b.tryDequeue queues with
      | none =>
          simp only [handedOut, MemoryBroker.answer, hscan] at h
          cases h
      | some p =>
          obtain ⟨name, -, ms, -, hstate⟩ := tryDequeue_cases hscan
          simp only [handedOut, MemoryBroker.answer, hscan] at h
          cases h
          simp only [MemoryBroker.answer, hscan, hstate]
          exact AList.mem_insert _ |>.mpr (.inl rfl)
  | _ => cases h

theorem Knows.notify (h : Knows P b) (n : Notify) : Knows P { b with notify := n } :=
  ⟨h.queued, h.held, h.dead⟩

theorem Sole.notify (h : Sole used b) (n : Notify) : Sole used { b with notify := n } :=
  ⟨h.sole, h.used⟩

/-! ## A call that is alone -/

/-- Who is notified is no matter to a scan. -/
theorem tryDequeue_notify (b : MemoryBroker) (n : Notify) (queues : List String) :
    ({ b with notify := n } : MemoryBroker).tryDequeue queues =
      (b.tryDequeue queues).map fun p => (p.1, { p.2 with notify := n }) := by
  induction queues with
  | nil => rfl
  | cons name rest ih =>
      unfold tryDequeue
      cases b.queues.lookup name with
      | none => exact ih
      | some ms =>
          cases ms with
          | nil => exact ih
          | cons m ms => rfl

/-- Who is notified is no matter to the answer. -/
theorem answer_notify (b : MemoryBroker) (n : Notify) (queues : List String) (timeout : Nat) :
    ({ b with notify := n } : MemoryBroker).answer (.dequeue queues timeout) =
      ((b.answer (.dequeue queues timeout)).1,
        { (b.answer (.dequeue queues timeout)).2 with notify := n }) := by
  simp only [answer, tryDequeue_notify]
  cases b.tryDequeue queues with
  | none => rfl
  | some p => rfl

/-- A future that is not looking has found nothing. -/
def Found (queues : List String) (b : MemoryBroker) : MemoryFuture → Prop
  | .locking => True
  | .tracking _ => False
  | .checked => b.tryDequeue queues = none
  | .parked => b.tryDequeue queues = none

theorem found_notify {future : MemoryFuture} (n : Notify) (h : Found queues b future) :
    Found queues { b with notify := n } future := by
  have hnone : b.tryDequeue queues = none →
      ({ b with notify := n } : MemoryBroker).tryDequeue queues = none := by
    intro hnone
    rw [tryDequeue_notify, hnone]
    rfl
  cases future with
  | locking => trivial
  | tracking m => exact h.elim
  | checked => exact hnone h
  | parked => exact hnone h

/-- What a poll does when all the locks are free. -/
theorem pollDequeue_free {w : Nat} {timedOut : Bool} {future : MemoryFuture} (timeout : Nat)
    {p : Poll MemoryFuture} {s s' : LockedBroker} (hfree : ∀ l, s.held l = false)
    (hfound : Found queues s.broker future)
    (h : LockedBroker.pollDequeue queues w timedOut future s = some (p, s')) :
    (∃ n, p = .ready (.ok (s.broker.answer (.dequeue queues timeout)).1) ∧
        s'.broker = { (s.broker.answer (.dequeue queues timeout)).2 with notify := n }) ∨
      ∃ future' n, p = .pending future' ∧ s' = s.setNotify n ∧
        Found queues s.broker future' := by
  cases future with
  | locking =>
      simp only [LockedBroker.pollDequeue, hfree] at h
      cases hpop : s.broker.popFront queues with
      | none =>
          rw [hpop] at h
          cases h
          have hnone : s.broker.tryDequeue queues = none := by
            rw [tryDequeue_eq, hpop]
            rfl
          exact .inr ⟨.checked, s.broker.notify, rfl, rfl, hnone⟩
      | some q =>
          obtain ⟨m, b⟩ := q
          rw [hpop] at h
          cases h
          have hsome := tryDequeue_of_popFront hpop
          refine .inl ⟨(b.track m).notify, ?_, ?_⟩
          · simp only [answer, hsome]
          · simp only [answer, hsome]
  | tracking m => exact hfound.elim
  | checked =>
      have hanswer : s.broker.answer (.dequeue queues timeout) = (none, s.broker) := by
        simp only [answer, show s.broker.tryDequeue queues = none from hfound]
      rw [hanswer]
      simp only [LockedBroker.pollDequeue] at h
      split at h
      · cases h
        exact .inl ⟨s.broker.notify, rfl, rfl⟩
      · split at h
        · cases h
          exact .inr ⟨.locking, _, rfl, rfl, trivial⟩
        · cases h
          exact .inr ⟨.parked, _, rfl, rfl, hfound⟩
  | parked =>
      have hanswer : s.broker.answer (.dequeue queues timeout) = (none, s.broker) := by
        simp only [answer, show s.broker.tryDequeue queues = none from hfound]
      rw [hanswer]
      simp only [LockedBroker.pollDequeue] at h
      split at h
      · cases h
        exact .inl ⟨s.broker.notify.leave w, rfl, rfl⟩
      · split at h
        · cases h
          exact .inr ⟨.locking, _, rfl, rfl, trivial⟩
        · cases h

/-- A `dequeue` that is alone returns what the scan finds, and leaves behind what the scan
leaves, up to who is notified. -/
theorem pollAll_free {polls : List Bool} {future : MemoryFuture} (timeout : Nat)
    {out : TaskResult (Option TaskMessage)} {s s' : LockedBroker} (hfree : ∀ l, s.held l = false)
    (hfound : Found queues s.broker future) (h : pollAll queues polls future s = some (out, s')) :
    out = .ok (s.broker.answer (.dequeue queues timeout)).1 ∧
      ∃ n, s'.broker = { (s.broker.answer (.dequeue queues timeout)).2 with notify := n } := by
  induction polls generalizing future s with
  | nil => cases h
  | cons timedOut polls ih =>
      unfold pollAll at h
      split at h
      · cases h
      · rename_i out' s₁ hpoll
        cases h
        rcases pollDequeue_free timeout hfree hfound hpoll with ⟨n, heq, hbroker⟩ | ⟨_, _, heq, -⟩
        · cases heq
          exact ⟨rfl, n, hbroker⟩
        · cases heq
      · rename_i future' s₁ hpoll
        rcases pollDequeue_free timeout hfree hfound hpoll with ⟨_, heq, -⟩ | ⟨next, n, heq, rfl, hnext⟩
        · cases heq
        · obtain rfl : future' = next := Poll.pending.inj heq
          obtain ⟨hout, n', hbroker⟩ := ih (s := s.setNotify n) hfree (found_notify n hnext) h
          refine ⟨hout.trans ?_, n', hbroker.trans ?_⟩
          · exact congrArg (fun p => Except.ok p.1) (answer_notify s.broker n queues timeout)
          · exact congrArg (fun p => ({ p.2 with notify := n' } : MemoryBroker))
              (answer_notify s.broker n queues timeout)

/-- A call that is alone comes to its answer. -/
theorem alone_respond {polls : List Bool} {c : WorkerCall} {res : TaskResult c.Ans}
    (h : alone.respond polls b c = some (res, b')) :
    res = .ok (b.answer c).1 ∧ ∃ n, b' = { (b.answer c).2 with notify := n } := by
  have hsections : ∀ {res' : TaskResult Unit} {b₁ : MemoryBroker},
      some (.ok (), b₁) = some (res', b') → res' = .ok () ∧ ∃ n, b' = { b₁ with notify := n } := by
    intro res' b₁ heq
    obtain ⟨rfl, rfl⟩ := Prod.mk.inj (Option.some.inj heq)
    exact ⟨rfl, _, rfl⟩
  cases c with
  | enqueue m => exact hsections h
  | dequeue queues timeout =>
      obtain ⟨⟨out, s'⟩, hpolls, hout⟩ := Option.map_eq_some_iff.mp h
      obtain ⟨rfl, rfl⟩ := Prod.mk.inj hout
      have hfound : Found queues b .locking := trivial
      exact pollAll_free (s := .free b) timeout (fun _ => rfl) hfound hpolls
  | ack id => exact hsections h
  | nack m => exact hsections h
  | deadLetter m => exact hsections h
  | queueLen queue =>
      obtain ⟨rfl, rfl⟩ := Prod.mk.inj (Option.some.inj h)
      exact ⟨rfl, _, rfl⟩
  | dlqLen queue =>
      obtain ⟨rfl, rfl⟩ := Prod.mk.inj (Option.some.inj h)
      exact ⟨rfl, _, rfl⟩

end MemoryBroker

end Kojin.Core
