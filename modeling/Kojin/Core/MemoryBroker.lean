/-
  Core/MemoryBroker.lean --- the in-memory broker (`kojin-core`:
  `memory_broker.rs`).

  The broker is three maps behind three locks and a notification.  Each
  definition below is one lock-protected section of the source:

      enqueue            `queues` locked: push back, then notify
      tryDequeue         `queues` locked, with `processing` locked inside it:
                         the scan over the requested queues
      removeProcessing   `processing` locked: the first section of `ack`,
                         `nack` and `dead_letter`
      pushDlq            `dlq` locked: the second section of `dead_letter`

  `nack` and `dead_letter` are two sections one after the other, and other
  clients may run in between; they are put together where the interleaving is.
  `dequeue` repeats `tryDequeue` until it finds a message or its time is up.

  The lemmas say what each section does to the number of copies of a message in
  the queues, in the dead-letter queues and in the processing map.
-/
import Kojin.Core.Message

set_option autoImplicit false

namespace Kojin.Core

open Kojin.Foundation

/-- `tokio::sync::Notify`: the parked waiters in order, those already woken, and
at most one stored permit. -/
structure Notify where
  permit : Bool
  waiters : List Nat
  woken : List Nat

/-- `Notify::notify_one`: wake the oldest waiter, or store the permit. -/
def Notify.notifyOne (n : Notify) : Notify :=
  match n.waiters with
  | [] => { n with permit := true }
  | w :: ws => { n with waiters := ws, woken := n.woken ++ [w] }

/-- `MemoryBrokerInner`. -/
structure MemoryBroker where
  queues : Table String (List TaskMessage)
  dlq : Table String (List TaskMessage)
  processing : Table TaskId TaskMessage
  notify : Notify

/-- A settling call that has left the processing map and not yet reached its
second section, with the copy it carries. -/
inductive Settling where
  | nack (m : TaskMessage)
  | deadLetter (m : TaskMessage)

/-- The copy a settling call carries. -/
def Settling.message : Settling → TaskMessage
  | .nack m => m
  | .deadLetter m => m

@[simp] theorem Settling.message_nack (m : TaskMessage) : (Settling.nack m).message = m := rfl

@[simp] theorem Settling.message_deadLetter (m : TaskMessage) :
    (Settling.deadLetter m).message = m := rfl

namespace MemoryBroker

/-- `MemoryBroker::new`. -/
def new : MemoryBroker where
  queues := ∅
  dlq := ∅
  processing := ∅
  notify := ⟨false, [], []⟩

/-! ## Sections -/

/-- The section of `enqueue`: `entry(queue).or_default().push_back(message)` and
`notify_one()`. -/
def enqueue (b : MemoryBroker) (m : TaskMessage) : MemoryBroker :=
  { b with
    queues := b.queues.insert m.queue ((b.queues.lookup m.queue).getD [] ++ [m])
    notify := b.notify.notifyOne }

/-- `schedule`: there is no scheduled queue, the message is enqueued at once. -/
def schedule (b : MemoryBroker) (m : TaskMessage) (_eta : DateTime) : MemoryBroker :=
  b.enqueue m

/-- The scan of `dequeue`: the first requested queue that is not empty gives up
its front message, which is recorded as being processed. -/
def tryDequeue (b : MemoryBroker) : List String → Option (TaskMessage × MemoryBroker)
  | [] => none
  | name :: rest =>
      match b.queues.lookup name with
      | some (m :: ms) =>
          some (m, { b with
            queues := b.queues.insert name ms
            processing := b.processing.insert m.id m })
      | _ => b.tryDequeue rest

/-- `processing.lock().await.remove(id)`. -/
def removeProcessing (b : MemoryBroker) (id : TaskId) : MemoryBroker :=
  { b with processing := b.processing.erase id }

/-- The second section of `dead_letter`. -/
def pushDlq (b : MemoryBroker) (m : TaskMessage) : MemoryBroker :=
  { b with dlq := b.dlq.insert m.queue ((b.dlq.lookup m.queue).getD [] ++ [m]) }

/-- `queue_len`. -/
def queueLen (b : MemoryBroker) (queue : String) : Nat :=
  ((b.queues.lookup queue).map List.length).getD 0

/-- `dlq_len`. -/
def dlqLen (b : MemoryBroker) (queue : String) : Nat :=
  ((b.dlq.lookup queue).map List.length).getD 0

/-! ## Copies of a message -/

/-- The message has this identifier. -/
def hasId (i : TaskId) (m : TaskMessage) : Bool := m.id == i

@[simp] theorem hasId_iff {i : TaskId} {m : TaskMessage} : hasId i m = true ↔ m.id = i := by
  simp [hasId]

/-- How many copies of message `i` the queues hold. -/
def queued (b : MemoryBroker) (i : TaskId) : Nat := b.queues.tally (List.countP (hasId i))

/-- How many copies of message `i` the dead-letter queues hold. -/
def dead (b : MemoryBroker) (i : TaskId) : Nat := b.dlq.tally (List.countP (hasId i))

/-- How many copies of message `i` the processing map holds. -/
def processed (b : MemoryBroker) (i : TaskId) : Nat := if i ∈ b.processing then 1 else 0

/-- One for the message with the identifier, zero for every other. -/
def unit (i j : TaskId) : Nat := if i = j then 1 else 0

@[simp] theorem unit_self (i : TaskId) : unit i i = 1 := if_pos rfl

theorem unit_of_ne {i j : TaskId} (h : i ≠ j) : unit i j = 0 := if_neg h

@[simp] theorem queued_new (i : TaskId) : new.queued i = 0 := rfl

@[simp] theorem dead_new (i : TaskId) : new.dead i = 0 := rfl

@[simp] theorem processed_new (i : TaskId) : new.processed i = 0 := rfl

theorem countP_hasId_append (i : TaskId) (ms : List TaskMessage) (m : TaskMessage) :
    (ms ++ [m]).countP (hasId i) = ms.countP (hasId i) + unit m.id i := by
  rw [List.countP_append, List.countP_singleton]
  simp [hasId, unit]

/-- Pushing back onto one entry of a table of queues adds one copy. -/
theorem tally_push (i : TaskId) (t : Table String (List TaskMessage)) (name : String)
    (m : TaskMessage) :
    (Table.tally (List.countP (hasId i)) (t.insert name ((t.lookup name).getD [] ++ [m]))) =
      Table.tally (List.countP (hasId i)) t + unit m.id i := by
  have h := Table.tally_insert (List.countP (hasId i)) name
    ((t.lookup name).getD [] ++ [m]) t
  rw [countP_hasId_append] at h
  cases hlookup : t.lookup name with
  | none =>
      rw [hlookup] at h
      simp only [Option.elim_none, Option.getD_none, List.countP_nil] at h
      simp only [Option.getD_none]
      omega
  | some ms =>
      rw [hlookup] at h
      simp only [Option.elim_some, Option.getD_some] at h
      simp only [Option.getD_some]
      omega

@[simp] theorem queued_enqueue (b : MemoryBroker) (m : TaskMessage) (i : TaskId) :
    (b.enqueue m).queued i = b.queued i + unit m.id i :=
  tally_push i b.queues m.queue m

@[simp] theorem dead_enqueue (b : MemoryBroker) (m : TaskMessage) (i : TaskId) :
    (b.enqueue m).dead i = b.dead i := rfl

@[simp] theorem processed_enqueue (b : MemoryBroker) (m : TaskMessage) (i : TaskId) :
    (b.enqueue m).processed i = b.processed i := rfl

@[simp] theorem queued_removeProcessing (b : MemoryBroker) (id i : TaskId) :
    (b.removeProcessing id).queued i = b.queued i := rfl

@[simp] theorem dead_removeProcessing (b : MemoryBroker) (id i : TaskId) :
    (b.removeProcessing id).dead i = b.dead i := rfl

theorem processed_removeProcessing_self (b : MemoryBroker) (i : TaskId) :
    (b.removeProcessing i).processed i = 0 := by
  simp [processed, removeProcessing, AList.mem_erase]

theorem processed_removeProcessing_of_ne (b : MemoryBroker) {id i : TaskId} (h : id ≠ i) :
    (b.removeProcessing id).processed i = b.processed i := by
  simp [processed, removeProcessing, AList.mem_erase, Ne.symm h]

@[simp] theorem queued_pushDlq (b : MemoryBroker) (m : TaskMessage) (i : TaskId) :
    (b.pushDlq m).queued i = b.queued i := rfl

@[simp] theorem dead_pushDlq (b : MemoryBroker) (m : TaskMessage) (i : TaskId) :
    (b.pushDlq m).dead i = b.dead i + unit m.id i :=
  tally_push i b.dlq m.queue m

@[simp] theorem processed_pushDlq (b : MemoryBroker) (m : TaskMessage) (i : TaskId) :
    (b.pushDlq m).processed i = b.processed i := rfl

/-! ## What a successful scan did -/

/-- Everything a successful scan can have done: it took the front message of some
requested queue and recorded it as being processed. -/
theorem tryDequeue_cases {b b' : MemoryBroker} {m : TaskMessage} {names : List String}
    (h : b.tryDequeue names = some (m, b')) :
    ∃ name ∈ names, ∃ ms, b.queues.lookup name = some (m :: ms) ∧
      b' = { b with
        queues := b.queues.insert name ms
        processing := b.processing.insert m.id m } := by
  induction names with
  | nil => simp [tryDequeue] at h
  | cons name rest ih =>
      unfold tryDequeue at h
      split at h
      · rename_i m' ms hlookup
        simp only [Option.some.injEq, Prod.mk.injEq] at h
        obtain ⟨rfl, rfl⟩ := h
        exact ⟨name, List.mem_cons_self, ms, hlookup, rfl⟩
      · obtain ⟨name', hmem, rest'⟩ := ih h
        exact ⟨name', List.mem_cons_of_mem _ hmem, rest'⟩

theorem queued_of_tryDequeue {b b' : MemoryBroker} {m : TaskMessage} {names : List String}
    (h : b.tryDequeue names = some (m, b')) (i : TaskId) :
    b.queued i = b'.queued i + unit m.id i := by
  obtain ⟨name, _, ms, hlookup, rfl⟩ := tryDequeue_cases h
  have ht := Table.tally_insert (List.countP (hasId i)) name ms b.queues
  rw [hlookup] at ht
  simp only [Option.elim_some, List.countP_cons, hasId_iff] at ht
  show Table.tally _ b.queues = Table.tally _ (b.queues.insert name ms) + _
  unfold unit
  omega

theorem dead_of_tryDequeue {b b' : MemoryBroker} {m : TaskMessage} {names : List String}
    (h : b.tryDequeue names = some (m, b')) (i : TaskId) : b'.dead i = b.dead i := by
  obtain ⟨name, _, ms, _, rfl⟩ := tryDequeue_cases h
  rfl

theorem processed_of_tryDequeue_self {b b' : MemoryBroker} {m : TaskMessage}
    {names : List String} (h : b.tryDequeue names = some (m, b')) : b'.processed m.id = 1 := by
  obtain ⟨name, _, ms, _, rfl⟩ := tryDequeue_cases h
  simp [processed, AList.mem_insert]

theorem processed_of_tryDequeue_of_ne {b b' : MemoryBroker} {m : TaskMessage}
    {names : List String} (h : b.tryDequeue names = some (m, b')) {i : TaskId}
    (hne : m.id ≠ i) : b'.processed i = b.processed i := by
  obtain ⟨name, _, ms, _, rfl⟩ := tryDequeue_cases h
  simp [processed, AList.mem_insert, Ne.symm hne]

/-- A message the scan returns was in a queue. -/
theorem queued_pos_of_tryDequeue {b b' : MemoryBroker} {m : TaskMessage}
    {names : List String} (h : b.tryDequeue names = some (m, b')) : 0 < b.queued m.id := by
  have hq := queued_of_tryDequeue h m.id
  rw [unit_self] at hq
  omega

end MemoryBroker

end Kojin.Core
