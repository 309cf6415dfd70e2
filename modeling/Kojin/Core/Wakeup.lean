/-
  Core/Wakeup.lean --- whether a consumer that waits is woken (`kojin-core`:
  `MemoryBroker::enqueue`, `MemoryBroker::dequeue`).

  Any number of consumers call `dequeue` on one broker, beside programs that run its
  sections.  All queues share one `Notify`: an arrival wakes the consumer that has
  waited longest, whatever queues it polls, and without a waiter at most one permit is
  kept.

  WHAT IS LOST.  The consumer an arrival wakes may not poll the queue of the message,
  and with one permit for two arrivals a consumer may wait before a queue that has
  filled since it looked.

  WHO MATTERS.  A consumer takes a message from the first of its queues that has one.  It
  serves a queue, within a group of queues, if it polls the queue and every message in
  the queues it polls before lies in the group: when it looks, it takes a message from
  the group, or the queue is empty.

  THE INVARIANT.  A permit is stored, or every queue of a consumer that has found its queues
  empty, and waits or is about to wait, is covered: it is in a group that holds no more
  messages than consumers that serve the queue within it have been woken and have not
  looked since (`Attended`).  Only a step that wakes somebody can end this: an arrival
  before which a consumer waits, a permit that is taken, and a woken consumer that leaves.
-/
import Kojin.Core.MemoryDequeue
import Mathlib.Algebra.BigOperators.Group.Finset.Piecewise
import Mathlib.Algebra.Order.BigOperators.Group.Finset

set_option autoImplicit false

namespace Kojin.Core

open Kojin.Foundation

/-! ## The consumers -/

/-- A consumer: the queues of its call of `dequeue`, and where that call is. -/
structure Consumer where
  queues : List String
  future : Option MemoryFuture

/-- The queues it polls before this one. -/
def Consumer.ahead (c : Consumer) (q : String) : List String := c.queues.takeWhile (· ≠ q)

/-- The broker, the consumers by their numbers as waiters, and those that have been
woken and have not looked into the queues since. -/
structure Consumers where
  shared : LockedBroker
  consumers : Nat → Consumer
  rechecking : List Nat

/-- The message that arrives with a call. -/
def LockedOp.arrival : LockedOp → Option TaskMessage
  | .run (.enqueue m) => some m
  | .run (.schedule m _) => some m
  | .run (.deliver (.nack m)) => some m
  | _ => none

/-- What a consumer does: call `dequeue`, or poll its future. -/
inductive ConsumerMove where
  | call (k : Nat) (queues : List String)
  | poll (k : Nat) (timedOut : Bool)

/-- The future after a poll. -/
def Poll.future {φ : Type} : Poll φ → Option φ
  | .pending future => some future
  | .ready _ => none

@[simp] theorem Poll.future_pending {φ : Type} (future : φ) :
    (Poll.pending future).future = some future := rfl

@[simp] theorem Poll.future_ready {φ : Type} (answer : TaskResult (Option TaskMessage)) :
    (Poll.ready answer : Poll φ).future = none := rfl

namespace Consumers

/-- No consumer has called `dequeue`. -/
def idle : Consumers := ⟨.free .new, fun _ => ⟨[], none⟩, []⟩

/-- A consumer calls `dequeue`. -/
def call (s : Consumers) (k : Nat) (queues : List String) : Option Consumers :=
  match (s.consumers k).future with
  | some _ => none
  | none => some { s with consumers := Function.update s.consumers k ⟨queues, some .locking⟩ }

/-- Who has yet to look after this poll. -/
def recheck (s : Consumers) (k : Nat) : MemoryFuture → Poll MemoryFuture → List Nat
  | .locking, _ => s.rechecking.erase k
  | _, .pending .locking => s.rechecking ++ [k]
  | _, _ => s.rechecking

/-- A consumer's future has been polled. -/
def polled (s : Consumers) (k : Nat) (future : MemoryFuture) (out : Poll MemoryFuture)
    (shared : LockedBroker) : Consumers where
  shared := shared
  consumers := Function.update s.consumers k ⟨(s.consumers k).queues, out.future⟩
  rechecking := s.recheck k future out

/-- A consumer's future is polled. -/
def poll (s : Consumers) (k : Nat) (timedOut : Bool) : Option Consumers :=
  match (s.consumers k).future with
  | none => none
  | some future =>
      (LockedBroker.pollDequeue (s.consumers k).queues k timedOut future s.shared).map fun p =>
        s.polled k future p.1 p.2

end Consumers

/-- The consumers, beside programs that run the broker's sections. -/
def dequeuers : Machine lockedSections where
  State := Consumers
  Oracle := Unit
  respond _ s op := (LockedBroker.service.respond () s.shared op).map fun p =>
    (p.1, { s with shared := p.2 })
  Stimulus := ConsumerMove
  accept x s :=
    match x with
    | .call k queues => (s.call k queues).map fun s' => (s', [])
    | .poll k timedOut => (s.poll k timedOut).map fun s' => (s', [])

/-! ## The backlog -/

namespace MemoryBroker

variable {b b' : MemoryBroker}

/-- How many messages these queues hold. -/
def backlog (b : MemoryBroker) (queues : Finset String) : Nat := ∑ q ∈ queues, b.queueLen q

theorem queueLen_enqueue (b : MemoryBroker) (m : TaskMessage) (q : String) :
    (b.enqueue m).queueLen q = b.queueLen q + if q = m.queue then 1 else 0 := by
  unfold queueLen enqueue
  by_cases hq : q = m.queue
  · subst hq
    simp only [AList.lookup_insert, Option.map_some, Option.getD_some, if_true]
    cases b.queues.lookup m.queue <;> simp
  · rw [if_neg hq]
    simp [AList.lookup_insert_ne hq]

/-- An arrival adds to the backlog of the queues it is for, and of no others. -/
theorem backlog_enqueue (b : MemoryBroker) (m : TaskMessage) (queues : Finset String) :
    (b.enqueue m).backlog queues = b.backlog queues + if m.queue ∈ queues then 1 else 0 := by
  unfold backlog
  rw [Finset.sum_congr rfl fun q _ => queueLen_enqueue b m q, Finset.sum_add_distrib,
    Finset.sum_ite_eq' queues m.queue fun _ => 1]

/-- A pop takes from the first queue that is not empty. -/
theorem first_of_popFront {names : List String} {m : TaskMessage}
    (h : b.popFront names = some (m, b')) :
    ∃ name ms, (∀ x ∈ names.takeWhile (· ≠ name), b.queueLen x = 0) ∧ name ∈ names ∧
      b.queues.lookup name = some (m :: ms) ∧ b'.queues = b.queues.insert name ms := by
  induction names with
  | nil => cases h
  | cons first rest ih =>
      unfold popFront at h
      split at h
      · rename_i m' ms hlookup
        cases h
        refine ⟨first, ms, ?_, List.mem_cons_self, hlookup, rfl⟩
        simp
      · rename_i hempty
        obtain ⟨name, ms, hahead, hname, hlookup, hqueues⟩ := ih h
        refine ⟨name, ms, fun x hx => ?_, List.mem_cons_of_mem _ hname, hlookup, hqueues⟩
        have hfirst : b.queueLen first = 0 := by
          unfold queueLen
          cases hfound : b.queues.lookup first with
          | none => rfl
          | some waiting =>
              cases waiting with
              | nil => rfl
              | cons m' ms' => exact absurd hfound (hempty m' ms')
        rw [List.takeWhile_cons] at hx
        split at hx
        · rcases List.mem_cons.mp hx with rfl | hx
          · exact hfirst
          · exact hahead x hx
        · cases hx

/-- A message that is popped leaves the backlog of the queues that were asked for. -/
theorem backlog_of_popFront {names : List String} {m : TaskMessage}
    (h : b.popFront names = some (m, b')) :
    ∃ name ∈ names, (∀ x ∈ names.takeWhile (· ≠ name), b.queueLen x = 0) ∧
      ∀ queues : Finset String,
        b.backlog queues = b'.backlog queues + if name ∈ queues then 1 else 0 := by
  obtain ⟨name, ms, hahead, hname, hlookup, hqueues⟩ := first_of_popFront h
  have hlen : ∀ q, b.queueLen q = b'.queueLen q + if q = name then 1 else 0 := by
    intro q
    unfold queueLen
    rw [hqueues]
    by_cases hq : q = name
    · subst hq
      simp [hlookup]
    · simp [AList.lookup_insert_ne hq, hq]
  refine ⟨name, hname, hahead, fun queues => ?_⟩
  unfold backlog
  rw [Finset.sum_congr rfl fun q _ => hlen q, Finset.sum_add_distrib,
    Finset.sum_ite_eq' queues name fun _ => 1]

/-- A scan that finds nothing has found every queue empty. -/
theorem queueLen_of_popFront {names : List String} (h : b.popFront names = none) :
    ∀ q ∈ names, b.queueLen q = 0 := by
  induction names with
  | nil => exact fun q hq => nomatch hq
  | cons name rest ih =>
      unfold popFront at h
      cases hlookup : b.queues.lookup name with
      | none =>
          rw [hlookup] at h
          intro q hq
          rcases List.mem_cons.mp hq with rfl | hq
          · simp [queueLen, hlookup]
          · exact ih h q hq
      | some ms =>
          cases ms with
          | nil =>
              rw [hlookup] at h
              intro q hq
              rcases List.mem_cons.mp hq with rfl | hq
              · simp [queueLen, hlookup]
              · exact ih h q hq
          | cons m ms =>
              rw [hlookup] at h
              cases h

@[simp] theorem backlog_singleton (b : MemoryBroker) (q : String) :
    b.backlog {q} = b.queueLen q := Finset.sum_singleton ..

/-- A queue that is not empty is part of the backlog. -/
theorem backlog_pos {queues : Finset String} {q : String} (hq : q ∈ queues)
    (hlen : 0 < b.queueLen q) : 0 < b.backlog queues :=
  Finset.sum_pos_iff.mpr ⟨q, hq, hlen⟩

theorem backlog_congr (h : b'.queues = b.queues) (queues : Finset String) :
    b'.backlog queues = b.backlog queues := by
  unfold backlog queueLen
  rw [h]

end MemoryBroker

/-! ## Who is present at the notification -/

namespace Notify

variable {n : Notify} {w : Nat}

/-- The waiters that are parked, woken or not. -/
def present (n : Notify) : List Nat := n.waiters ++ n.woken

@[simp] theorem present_takePermit : n.takePermit.present = n.present := rfl

theorem present_park : (n.park w).present.Perm (w :: n.present) := by
  simp only [present, park, List.append_assoc, List.singleton_append]
  exact List.perm_middle

/-- A notification changes nobody's presence. -/
theorem present_notifyOne : n.notifyOne.present.Perm n.present := by
  unfold present notifyOne
  cases n.waiters with
  | nil => exact .refl _
  | cons w ws =>
      rw [← List.append_assoc, List.cons_append]
      exact List.perm_append_singleton w (ws ++ n.woken)

theorem present_resume (hw : w ∉ n.waiters) :
    (n.resume w).present = n.present.erase w := by
  simp only [present, resume]
  rw [List.erase_append_right _ hw]

/-- A waiter that leaves is not present any more. -/
theorem present_leave (h : w ∈ n.present) (hnodup : n.present.Nodup) :
    (n.leave w).present.Perm (n.present.erase w) := by
  have hdisjoint := List.disjoint_of_nodup_append hnodup
  unfold leave
  split
  · rename_i hw
    have hnot : w ∉ n.waiters := fun hwaits => hdisjoint hwaits hw
    exact present_notifyOne.trans (.of_eq (present_resume hnot))
  · rename_i hw
    have hwaits : w ∈ n.waiters := (List.mem_append.mp h).resolve_right hw
    unfold present
    rw [List.erase_append_left _ hwaits]

end Notify

/-! ## The invariant -/

namespace Consumers

/-- A consumer polls this queue, and messages in the queues it polls before, one that is to
arrive included, lie in the group. -/
def Serves (s : Consumers) (arriving : Option String) (k : Nat) (q : String)
    (group : Finset String) : Prop :=
  q ∈ (s.consumers k).queues ∧ ∀ x ∈ (s.consumers k).ahead q, x ∉ group →
    s.shared.broker.queueLen x = 0 ∧ x ∉ arriving

instance (s : Consumers) (arriving : Option String) (k : Nat) (q : String)
    (group : Finset String) : Decidable (s.Serves arriving k q group) := by
  unfold Serves
  infer_instance

/-- How many of these consumers serve this queue within the group. -/
def serving (s : Consumers) (arriving : Option String) (ks : List Nat) (q : String)
    (group : Finset String) : Nat :=
  ks.countP fun k => s.Serves arriving k q group

/-- A queue is in a group that holds, with what is to arrive, no more messages than these
consumers are that serve the queue within it. -/
def Covered (s : Consumers) (arriving : Option String) (ks : List Nat) (q : String) : Prop :=
  ∃ group : Finset String, q ∈ group ∧
    s.shared.broker.backlog group + (if ∃ a ∈ arriving, a ∈ group then 1 else 0) ≤
      s.serving arriving ks q group

/-- The consumers that have been woken and have not looked since. -/
def pending (s : Consumers) : List Nat := s.shared.broker.notify.woken ++ s.rechecking

/-- A consumer has found its queues empty, and waits or is about to wait. -/
def Idle (s : Consumers) (k : Nat) : Prop :=
  (s.consumers k).future = some .checked ∨ k ∈ s.shared.broker.notify.waiters

/-- The notification that wakes the first waiter leaves every queue of everyone else who is idle
covered by the consumers that have yet to look, the waiter included. -/
def NotifiesRightly (s : Consumers) (arriving : Option String) (ks : List Nat) : Prop :=
  ∀ w ∈ s.shared.broker.notify.waiters.head?, ∀ k, k ≠ w → s.Idle k →
    ∀ q ∈ (s.consumers k).queues, s.Covered arriving (ks ++ [w]) q

/-- The consumer that takes the permit leaves every queue of everyone else who is idle
covered. -/
def TakesRightly (s : Consumers) (k : Nat) : Prop :=
  ∀ j, j ≠ k → s.Idle j → ∀ q ∈ (s.consumers j).queues, s.Covered none (s.pending ++ [k]) q

/-- What a poll must not do: take the permit, or pass a notification on, and leave somebody
without. -/
def PollsRightly (s : Consumers) (k : Nat) (timedOut : Bool) : Prop :=
  ((s.consumers k).future = some .checked → timedOut = false →
      s.shared.broker.notify.permit = true → s.TakesRightly k) ∧
    ((s.consumers k).future = some .parked → timedOut = true →
      k ∈ s.shared.broker.notify.woken → s.NotifiesRightly none (s.pending.erase k))

end Consumers

/-- A permit is stored, or every queue of everyone who is idle is covered by the consumers that
have been woken and have not looked since. -/
structure Attended (s : Consumers) : Prop where
  parked : ∀ k, (s.consumers k).future = some .parked ↔ k ∈ s.shared.broker.notify.present
  nodup : s.shared.broker.notify.present.Nodup
  rechecks : ∀ k ∈ s.rechecking, (s.consumers k).future = some .locking
  distinct : s.rechecking.Nodup
  covered : s.shared.broker.notify.permit = false → ∀ k, s.Idle k →
    ∀ q ∈ (s.consumers k).queues, s.Covered none s.pending q

theorem attended_idle : Attended .idle where
  parked _ := ⟨fun h => (nomatch h), fun h => (nomatch h)⟩
  nodup := .nil
  rechecks _ h := nomatch h
  distinct := .nil
  covered _ _ h := h.elim (fun h => nomatch h) fun h => nomatch h

section Invariant

variable {s s' : Consumers} {k : Nat}

/-- A waiter is a consumer that has called `dequeue`. -/
theorem Attended.live_of_present (h : Attended s) (hk : k ∈ s.shared.broker.notify.present) :
    (s.consumers k).future ≠ none := by
  rw [(h.parked k).mpr hk]
  exact nofun

/-- A consumer that has yet to look has called `dequeue`. -/
theorem Attended.live_of_pending (h : Attended s) (hk : k ∈ s.pending) :
    (s.consumers k).future ≠ none := by
  rcases List.mem_append.mp hk with hk | hk
  · exact h.live_of_present (List.mem_append_right _ hk)
  · rw [h.rechecks k hk]
    exact nofun

theorem Attended.live_of_idle (h : Attended s) (hk : s.Idle k) :
    (s.consumers k).future ≠ none := by
  rcases hk with hk | hk
  · rw [hk]
    exact nofun
  · exact h.live_of_present (List.mem_append_left _ hk)

theorem covered_none_iff {ks : List Nat} {q : String} :
    s.Covered none ks q ↔ ∃ group : Finset String, q ∈ group ∧
      s.shared.broker.backlog group ≤ s.serving none ks q group := by
  simp [Consumers.Covered]

/-- Who serves which queue depends on what is polled and where messages are. -/
theorem covered_congr {arriving : Option String} {ks : List Nat} {q : String}
    (hqueues : s'.shared.broker.queues = s.shared.broker.queues)
    (hpolls : ∀ k ∈ ks, (s'.consumers k).queues = (s.consumers k).queues) :
    s'.Covered arriving ks q ↔ s.Covered arriving ks q := by
  have hlen : ∀ x, s'.shared.broker.queueLen x = s.shared.broker.queueLen x := by
    intro x
    unfold MemoryBroker.queueLen
    rw [hqueues]
  have hserves : ∀ k ∈ ks, ∀ group, s'.Serves arriving k q group ↔ s.Serves arriving k q group := by
    intro k hk group
    simp only [Consumers.Serves, Consumer.ahead, hpolls k hk, hlen]
  have hserving : ∀ group, s'.serving arriving ks q group = s.serving arriving ks q group := by
    intro group
    refine List.countP_congr fun k hk => ?_
    rw [decide_eq_true_iff, decide_eq_true_iff]
    exact hserves k hk group
  unfold Consumers.Covered
  simp only [hserving, MemoryBroker.backlog_congr hqueues]

theorem covered_of_perm {arriving : Option String} {ks ks' : List Nat} {q : String}
    (h : s.Covered arriving ks q) (hperm : ks.Perm ks') : s.Covered arriving ks' q := by
  obtain ⟨group, hq, hle⟩ := h
  refine ⟨group, hq, hle.trans (le_of_eq ?_)⟩
  exact hperm.countP_eq _

theorem serving_append (s : Consumers) (arriving : Option String) (ks ks' : List Nat) (q : String)
    (group : Finset String) :
    s.serving arriving (ks ++ ks') q group =
      s.serving arriving ks q group + s.serving arriving ks' q group :=
  List.countP_append

/-- Where fewer messages are, more consumers serve. -/
theorem serves_of_le {q : String} {group : Finset String}
    (hpolls : (s'.consumers k).queues = (s.consumers k).queues)
    (hless : ∀ x, s'.shared.broker.queueLen x ≤ s.shared.broker.queueLen x)
    (h : s.Serves none k q group) : s'.Serves none k q group := by
  obtain ⟨hq, hahead⟩ := h
  rw [Consumers.Serves, Consumer.ahead, hpolls]
  exact ⟨hq, fun x hx hgroup => ⟨Nat.le_zero.mp ((hahead x hx hgroup).1 ▸ hless x), nofun⟩⟩

/-! ### A program beside the consumers -/

/-- The broker runs a section that leaves queues and notification as they are. -/
theorem Attended.quiet (h : Attended s) {shared : LockedBroker}
    (hqueues : shared.broker.queues = s.shared.broker.queues)
    (hnotify : shared.broker.notify = s.shared.broker.notify) :
    Attended { s with shared := shared } := by
  refine ⟨fun k => ?_, ?_, h.rechecks, h.distinct, fun hpermit k hk => ?_⟩
  · rw [hnotify]
    exact h.parked k
  · rw [hnotify]
    exact h.nodup
  · have hidle : s.Idle k := by
      unfold Consumers.Idle at hk ⊢
      rwa [hnotify] at hk
    rw [hnotify] at hpermit
    intro q hq
    have hcovered := h.covered hpermit k hidle q hq
    unfold Consumers.pending at hcovered ⊢
    rw [hnotify]
    have hsame : Consumers.Covered { s with shared := shared } none
        (s.shared.broker.notify.woken ++ s.rechecking) q ↔
          s.Covered none (s.shared.broker.notify.woken ++ s.rechecking) q :=
      covered_congr hqueues fun _ _ => rfl
    exact hsame.mpr hcovered

/-- After a notification without a permit, whoever is idle was idle before, and the first waiter
has been woken. -/
theorem Attended.notifyOne_cases (h : Attended s) {n : Notify}
    (hwaiters : n.waiters = s.shared.broker.notify.waiters)
    (hpermit : n.notifyOne.permit = false)
    (hk : (s.consumers k).future = some .checked ∨ k ∈ n.notifyOne.waiters) :
    ∃ w ∈ s.shared.broker.notify.waiters.head?, k ≠ w ∧ s.Idle k ∧
      n.notifyOne.woken = n.woken ++ [w] := by
  have hnodup : n.waiters.Nodup := by
    rw [hwaiters]
    exact (List.nodup_append.mp h.nodup).1
  unfold Consumers.Idle
  rw [← hwaiters]
  unfold Notify.notifyOne at hk hpermit ⊢
  cases hfirst : n.waiters with
  | nil =>
      rw [hfirst] at hpermit
      cases hpermit
  | cons w ws =>
      rw [hfirst] at hk hnodup
      refine ⟨w, rfl, ?_, hk.imp_right fun hrest => List.mem_cons_of_mem _ hrest, rfl⟩
      rintro rfl
      rcases hk with hchecked | hrest
      · have hwaits : k ∈ s.shared.broker.notify.waiters := by
          rw [← hwaiters, hfirst]
          exact List.mem_cons_self
        have hparked := (h.parked k).mpr (List.mem_append_left _ hwaits)
        rw [hchecked] at hparked
        cases hparked
      · exact (List.nodup_cons.mp hnodup).1 hrest

/-- Where a message has arrived, a queue is covered that was while it was to arrive. -/
theorem covered_enqueue_iff {shared : LockedBroker} {m : TaskMessage} {ks : List Nat} {q : String}
    (hbroker : shared.broker = s.shared.broker.enqueue m) :
    Consumers.Covered { s with shared := shared } none ks q ↔
      s.Covered (some m.queue) ks q := by
  have hserves : ∀ k group, Consumers.Serves { s with shared := shared } none k q group ↔
      s.Serves (some m.queue) k q group := by
    intro k group
    unfold Consumers.Serves
    show _ ∧ (∀ x ∈ _, _ → shared.broker.queueLen x = 0 ∧ _) ↔ _
    simp [hbroker, MemoryBroker.queueLen_enqueue, eq_comm]
  have hserving : ∀ group, Consumers.serving { s with shared := shared } none ks q group =
      s.serving (some m.queue) ks q group := fun group =>
    List.countP_congr fun k _ => by simp only [hserves]
  rw [covered_none_iff]
  show (∃ group, _ ∧ shared.broker.backlog group ≤ _) ↔ _
  simp [Consumers.Covered, hserving, hbroker, MemoryBroker.backlog_enqueue]

/-- A message arrives. -/
theorem Attended.arrival (h : Attended s) {shared : LockedBroker} {m : TaskMessage}
    (hbroker : shared.broker = s.shared.broker.enqueue m)
    (hnotifies : s.NotifiesRightly (some m.queue) s.pending) :
    Attended { s with shared := shared } := by
  have hnotify : shared.broker.notify = s.shared.broker.notify.notifyOne :=
    congrArg MemoryBroker.notify hbroker
  refine ⟨fun k => ?_, ?_, h.rechecks, h.distinct, fun hpermit k hk => ?_⟩
  · rw [hnotify, Notify.present_notifyOne.mem_iff]
    exact h.parked k
  · rw [hnotify]
    exact Notify.present_notifyOne.nodup_iff.mpr h.nodup
  · unfold Consumers.Idle at hk
    rw [hnotify] at hk hpermit
    obtain ⟨w, hw, hne, hidle, hwoken⟩ := h.notifyOne_cases rfl hpermit hk
    intro q hq
    rw [covered_enqueue_iff hbroker]
    refine covered_of_perm (hnotifies w hw k hne hidle q hq) ?_
    unfold Consumers.pending
    rw [hnotify, hwoken, List.append_assoc, List.append_assoc]
    exact List.perm_append_comm.append_left _

/-- A call of a program beside the consumers leaves the queues and the notification as
they are, or is an arrival. -/
theorem shared_cases {op : LockedOp} (h : dequeuers.respond () s op = some ((), s')) :
    s' = { s with shared := s'.shared } ∧
      ((s'.shared.broker.queues = s.shared.broker.queues ∧
          s'.shared.broker.notify = s.shared.broker.notify) ∨
        ∃ m, op.arrival = some m ∧ s'.shared.broker = s.shared.broker.enqueue m) := by
  obtain ⟨p, hp, heq⟩ := Option.map_eq_some_iff.mp h
  cases heq
  refine ⟨rfl, ?_⟩
  cases op with
  | acquire l =>
      obtain ⟨-, heq⟩ := (Option.ite_none_left_eq_some).mp hp
      cases heq
      exact .inl ⟨rfl, rfl⟩
  | run sec =>
      cases hp
      cases sec with
      | enqueue m => exact .inr ⟨m, rfl, rfl⟩
      | schedule m eta => exact .inr ⟨m, rfl, rfl⟩
      | ack id => exact .inl ⟨rfl, rfl⟩
      | release st => exact .inl ⟨rfl, rfl⟩
      | deliver st =>
          cases st with
          | nack m => exact .inr ⟨m, rfl, rfl⟩
          | deadLetter m => exact .inl ⟨rfl, rfl⟩

/-! ### A consumer -/

/-- A consumer that calls `dequeue` was idle; nobody else is concerned. -/
theorem call_cases {queues : List String} (h : s.call k queues = some s') :
    (s.consumers k).future = none ∧ s'.shared = s.shared ∧ s'.rechecking = s.rechecking ∧
      s'.consumers k = ⟨queues, some .locking⟩ ∧ ∀ j, j ≠ k → s'.consumers j = s.consumers j := by
  unfold Consumers.call at h
  split at h
  · cases h
  · rename_i hidle
    cases h
    exact ⟨hidle, rfl, rfl, Function.update_self .., fun j hj => Function.update_of_ne hj ..⟩

/-- A consumer calls `dequeue`. -/
theorem Attended.call (h : Attended s) {queues : List String}
    (hcall : s.call k queues = some s') : Attended s' := by
  obtain ⟨hidle, hshared, hrechecking, hself, hother⟩ := call_cases hcall
  have hlive : ∀ j, (s.consumers j).future ≠ none → s'.consumers j = s.consumers j := by
    intro j hj
    refine hother j ?_
    rintro rfl
    exact hj hidle
  refine ⟨fun j => ?_, ?_, fun j hj => ?_, ?_, fun hpermit j hj => ?_⟩
  · rw [hshared]
    by_cases hjk : j = k
    · subst hjk
      rw [hself]
      refine ⟨fun hparked => (nomatch hparked), fun hpresent => ?_⟩
      exact absurd hidle (h.live_of_present hpresent)
    · rw [hother j hjk]
      exact h.parked j
  · rw [hshared]
    exact h.nodup
  · rw [hrechecking] at hj
    rw [hlive j (h.live_of_pending (List.mem_append_right _ hj))]
    exact h.rechecks j hj
  · rw [hrechecking]
    exact h.distinct
  · have hwas : s.Idle j := by
      unfold Consumers.Idle at hj ⊢
      rw [hshared] at hj
      by_cases hjk : j = k
      · subst hjk
        rw [hself] at hj
        exact .inr (hj.resolve_left nofun)
      · rwa [hother j hjk] at hj
    rw [hshared] at hpermit
    have hpending : s'.pending = s.pending := by
      rw [Consumers.pending, hshared, hrechecking]
      rfl
    intro q hq
    rw [hlive j (h.live_of_idle hwas)] at hq
    rw [hpending, covered_congr (by rw [hshared]) fun i hi =>
      congrArg Consumer.queues (hlive i (h.live_of_pending hi))]
    exact h.covered hpermit j hwas q hq

section Polled

variable {future : MemoryFuture} {out : Poll MemoryFuture} {shared : LockedBroker}

/-- A poll does not change what a consumer polls for. -/
@[simp] theorem polled_queues (j : Nat) :
    ((s.polled k future out shared).consumers j).queues = (s.consumers j).queues := by
  by_cases hj : j = k
  · subst hj
    simp [Consumers.polled]
  · simp [Consumers.polled, Function.update_of_ne hj]

theorem polled_future_self :
    ((s.polled k future out shared).consumers k).future = out.future := by
  simp [Consumers.polled]

theorem polled_future_of_ne {j : Nat} (hj : j ≠ k) :
    ((s.polled k future out shared).consumers j).future = (s.consumers j).future := by
  simp [Consumers.polled, Function.update_of_ne hj]

/-- Who has yet to look is at the lock of the queues. -/
theorem Attended.rechecks_polled (h : Attended s) (out : Poll MemoryFuture)
    (shared : LockedBroker) (hk : (s.consumers k).future = some future) :
    (∀ j ∈ s.recheck k future out,
        ((s.polled k future out shared).consumers j).future = some .locking) ∧
      (s.recheck k future out).Nodup := by
  have hother : ∀ j ∈ s.rechecking, j ≠ k →
      ((s.polled k future out shared).consumers j).future = some .locking := by
    intro j hj hne
    rw [polled_future_of_ne hne]
    exact h.rechecks j hj
  have hnot : future ≠ .locking → k ∉ s.rechecking := by
    intro hne hmem
    have hlocking := h.rechecks k hmem
    rw [hk] at hlocking
    exact hne (Option.some.inj hlocking)
  unfold Consumers.recheck
  split
  · refine ⟨fun j hj => ?_, h.distinct.erase k⟩
    obtain ⟨hne, hmem⟩ := h.distinct.mem_erase_iff.mp hj
    exact hother j hmem hne
  · rename_i hne
    refine ⟨fun j hj => ?_, ?_⟩
    · rcases List.mem_append.mp hj with hmem | hmem
      · refine hother j hmem ?_
        rintro rfl
        exact hnot hne hmem
      · cases List.mem_singleton.mp hmem
        exact polled_future_self
    · refine List.nodup_append.mpr ⟨h.distinct, List.nodup_singleton k, fun i hi l hl heq => ?_⟩
      rw [List.mem_singleton.mp hl] at heq
      exact hnot hne (heq ▸ hi)
  · rename_i hne _
    refine ⟨fun j hj => hother j hj ?_, h.distinct⟩
    rintro rfl
    exact hnot hne hj

/-- Who is idle after a poll: the consumer that has just found nothing, or one that was not
polled, or one that waits. -/
theorem idle_polled {j : Nat} (hj : (s.polled k future out shared).Idle j) :
    (j = k ∧ out.future = some .checked) ∨
      (s.consumers j).future = some .checked ∧ j ≠ k ∨ j ∈ shared.broker.notify.waiters := by
  rcases hj with hchecked | hwaits
  · by_cases hjk : j = k
    · subst hjk
      rw [polled_future_self] at hchecked
      exact .inl ⟨rfl, hchecked⟩
    · rw [polled_future_of_ne hjk] at hchecked
      exact .inr (.inl ⟨hchecked, hjk⟩)
  · exact .inr (.inr hwaits)

/-- What is left to prove of a poll: who is present after it, and who is covered. -/
theorem Attended.polled (h : Attended s) (hk : (s.consumers k).future = some future)
    (hpresent : (out.future = some .parked ∧ shared.broker.notify.present.Perm
          (k :: s.shared.broker.notify.present.erase k)) ∨
        (out.future ≠ some .parked ∧ shared.broker.notify.present.Perm
          (s.shared.broker.notify.present.erase k)))
    (hcovered : shared.broker.notify.permit = false → ∀ j, (s.polled k future out shared).Idle j →
      ∀ q ∈ (s.consumers j).queues, (s.polled k future out shared).Covered none
        (shared.broker.notify.woken ++ s.recheck k future out) q) :
    Attended (s.polled k future out shared) := by
  have hgone : k ∉ s.shared.broker.notify.present.erase k := h.nodup.not_mem_erase
  have hothers : ∀ j, j ≠ k → (j ∈ s.shared.broker.notify.present.erase k ↔
      j ∈ s.shared.broker.notify.present) := fun j hj => List.mem_erase_of_ne hj
  obtain ⟨hrechecks, hdistinct⟩ := h.rechecks_polled out shared hk
  refine ⟨fun j => ?_, ?_, hrechecks, hdistinct, fun hpermit j hj => ?_⟩
  · show _ ↔ j ∈ shared.broker.notify.present
    by_cases hjk : j = k
    · subst hjk
      rw [polled_future_self]
      rcases hpresent with ⟨hparked, hperm⟩ | ⟨hnot, hperm⟩
      · exact ⟨fun _ => hperm.mem_iff.mpr List.mem_cons_self, fun _ => hparked⟩
      · exact ⟨fun hparked => absurd hparked hnot,
          fun hmem => absurd (hperm.mem_iff.mp hmem) hgone⟩
    · rw [polled_future_of_ne hjk, h.parked j]
      rcases hpresent with ⟨-, hperm⟩ | ⟨-, hperm⟩
      · rw [hperm.mem_iff, List.mem_cons, or_iff_right hjk, hothers j hjk]
      · rw [hperm.mem_iff, hothers j hjk]
  · show shared.broker.notify.present.Nodup
    rcases hpresent with ⟨-, hperm⟩ | ⟨-, hperm⟩
    · exact hperm.nodup_iff.mpr (List.nodup_cons.mpr ⟨hgone, h.nodup.erase k⟩)
    · exact hperm.nodup_iff.mpr (h.nodup.erase k)
  · rw [polled_queues]
    exact hcovered hpermit j hj

/-- What is left to prove of a poll that leaves the queues as they were. -/
theorem Attended.polled_same (h : Attended s) (hk : (s.consumers k).future = some future)
    (hqueues : shared.broker.queues = s.shared.broker.queues)
    (hpresent : (out.future = some .parked ∧ shared.broker.notify.present.Perm
          (k :: s.shared.broker.notify.present.erase k)) ∨
        (out.future ≠ some .parked ∧ shared.broker.notify.present.Perm
          (s.shared.broker.notify.present.erase k)))
    (hcovered : shared.broker.notify.permit = false → ∀ j, (s.polled k future out shared).Idle j →
      ∀ q ∈ (s.consumers j).queues,
        s.Covered none (shared.broker.notify.woken ++ s.recheck k future out) q) :
    Attended (s.polled k future out shared) := by
  refine h.polled hk hpresent fun hpermit j hj q hq => ?_
  exact (covered_congr hqueues fun i _ => polled_queues i).mpr (hcovered hpermit j hj q hq)

/-- A consumer that is not parked is not present at the notification. -/
theorem Attended.absent (h : Attended s) (hk : (s.consumers k).future = some future)
    (hne : future ≠ .parked) : k ∉ s.shared.broker.notify.present := by
  intro hmem
  rw [(h.parked k).mpr hmem] at hk
  exact hne (Option.some.inj hk).symm

theorem Attended.erase_of_absent (h : Attended s) (hk : (s.consumers k).future = some future)
    (hne : future ≠ .parked) :
    s.shared.broker.notify.present.erase k = s.shared.broker.notify.present :=
  List.erase_of_not_mem (h.absent hk hne)

/-- Without one of them, those that serve are one less at most. -/
theorem serving_le_erase (s : Consumers) (ks : List Nat) (k : Nat) (q : String)
    (group : Finset String) :
    s.serving none ks q group ≤
      s.serving none (ks.erase k) q group + if s.Serves none k q group then 1 else 0 := by
  unfold Consumers.serving
  rw [List.countP_erase]
  split
  · rename_i hboth
    rw [if_pos (of_decide_eq_true hboth.2)]
    omega
  · omega

/-- What a look finds: a message of the first queue that has one, which is taken away, or that
the queues are empty. -/
def LookFinds (s : Consumers) (k : Nat) (out : Poll MemoryFuture) (shared : LockedBroker) : Prop :=
  (out.future ≠ some .checked ∧ ∃ name ∈ (s.consumers k).queues,
    (∀ x ∈ (s.consumers k).ahead name, s.shared.broker.queueLen x = 0) ∧
    ∀ queues : Finset String, s.shared.broker.backlog queues =
      shared.broker.backlog queues + if name ∈ queues then 1 else 0) ∨
  shared.broker.queues = s.shared.broker.queues ∧
    ∀ q ∈ (s.consumers k).queues, s.shared.broker.queueLen q = 0

theorem LookFinds.backlog_le (h : LookFinds s k out shared) (queues : Finset String) :
    shared.broker.backlog queues ≤ s.shared.broker.backlog queues := by
  rcases h with ⟨-, name, -, -, hbacklog⟩ | ⟨hqueues, -⟩
  · rw [hbacklog]
    exact Nat.le_add_right _ _
  · rw [MemoryBroker.backlog_congr hqueues]

theorem LookFinds.queueLen_le (h : LookFinds s k out shared) (q : String) :
    shared.broker.queueLen q ≤ s.shared.broker.queueLen q := by
  rw [← MemoryBroker.backlog_singleton, ← MemoryBroker.backlog_singleton]
  exact h.backlog_le {q}

/-- Of two queues that are polled one is polled before the other. -/
theorem ahead_or_ahead {queues : List String} {q q' : String} (hq : q ∈ queues)
    (hq' : q' ∈ queues) (hne : q ≠ q') :
    q ∈ queues.takeWhile (· ≠ q') ∨ q' ∈ queues.takeWhile (· ≠ q) := by
  induction queues with
  | nil => cases hq
  | cons first rest ih =>
      by_cases hfirst : first = q
      · subst hfirst
        exact .inl (by simp [hne])
      by_cases hfirst' : first = q'
      · subst hfirst'
        exact .inr (by simp [hfirst])
      have hq := List.mem_of_ne_of_mem (Ne.symm hfirst) hq
      have hq' := List.mem_of_ne_of_mem (Ne.symm hfirst') hq'
      rw [List.takeWhile_cons_of_pos (by simp [hfirst']),
        List.takeWhile_cons_of_pos (by simp [hfirst])]
      exact (ih hq hq').imp (List.mem_cons_of_mem _) (List.mem_cons_of_mem _)

/-- A consumer that serves a queue within a group takes a message from the group, or the queue
is empty. -/
theorem LookFinds.backlog_of_serves (h : LookFinds s k out shared) {q : String}
    {group : Finset String} (hq : q ∈ group) (hserves : s.Serves none k q group) :
    shared.broker.queueLen q = 0 ∨
      shared.broker.backlog group + 1 ≤ s.shared.broker.backlog group := by
  obtain ⟨hpolls, hahead⟩ := hserves
  have hless := h.queueLen_le q
  rcases h with ⟨-, name, hname, hfirst, hbacklog⟩ | ⟨-, hnone⟩
  · by_cases hgroup : name ∈ group
    · right
      rw [hbacklog group, if_pos hgroup]
    · left
      have hne : q ≠ name := fun heq => hgroup (heq ▸ hq)
      rcases ahead_or_ahead hpolls hname hne with hbefore | hbefore
      · exact Nat.le_zero.mp (hfirst q hbefore ▸ hless)
      · -- the message would have come from a queue without any
        have hempty := (hahead name hbefore hgroup).1
        rw [← MemoryBroker.backlog_singleton, hbacklog, if_pos (Finset.mem_singleton_self name)]
          at hempty
        cases hempty
  · left
    exact Nat.le_zero.mp (hnone q hpolls ▸ hless)

/-- An empty queue is covered, whoever has been woken. -/
theorem covered_of_empty {ks : List Nat} {q : String} (h : s.shared.broker.queueLen q = 0) :
    s.Covered none ks q := by
  refine covered_none_iff.mpr ⟨{q}, Finset.mem_singleton_self q, ?_⟩
  rw [MemoryBroker.backlog_singleton, h]
  exact Nat.zero_le _

/-- A queue that is covered before a look is covered after it. -/
theorem LookFinds.covered (hlook : LookFinds s k out shared) {q : String}
    (h : s.Covered none s.pending q) :
    (s.polled k .locking out shared).Covered none
      (s.shared.broker.notify.woken ++ s.rechecking.erase k) q := by
  obtain ⟨group, hq, hle⟩ := covered_none_iff.mp h
  have hmore : s.serving none (s.shared.broker.notify.woken ++ s.rechecking.erase k) q group ≤
      (s.polled k .locking out shared).serving none
        (s.shared.broker.notify.woken ++ s.rechecking.erase k) q group := by
    refine List.countP_mono_left fun i _ hi => ?_
    rw [decide_eq_true_eq] at hi ⊢
    exact serves_of_le (polled_queues i) hlook.queueLen_le hi
  have herased := serving_le_erase s s.rechecking k q group
  have hless := hlook.backlog_le group
  unfold Consumers.pending at hle
  rw [serving_append] at hle hmore
  have hgroup : shared.broker.backlog group ≤ (s.polled k .locking out shared).serving none
      (s.shared.broker.notify.woken ++ s.rechecking.erase k) q group →
      (s.polled k .locking out shared).Covered none
        (s.shared.broker.notify.woken ++ s.rechecking.erase k) q := fun hle =>
    covered_none_iff.mpr ⟨group, hq, hle⟩
  by_cases hserves : s.Serves none k q group
  · rw [if_pos hserves] at herased
    rcases hlook.backlog_of_serves hq hserves with hempty | htaken
    · exact covered_of_empty hempty
    · exact hgroup (by omega)
  · rw [if_neg hserves] at herased
    exact hgroup (by omega)

/-- A consumer looks into the queues. -/
theorem Attended.look (h : Attended s) (hk : (s.consumers k).future = some .locking)
    (hnotify : shared.broker.notify = s.shared.broker.notify)
    (hout : out.future ≠ some .parked) (hlook : LookFinds s k out shared) :
    Attended (s.polled k .locking out shared) := by
  refine h.polled hk (.inr ⟨hout, ?_⟩) fun hpermit j hj q hq => ?_
  · rw [hnotify, h.erase_of_absent hk nofun]
  rw [hnotify] at hpermit ⊢
  rcases idle_polled hj with ⟨rfl, hchecked⟩ | ⟨hchecked, -⟩ | hwaits
  · rcases hlook with ⟨hfound, -⟩ | ⟨hqueues, hnone⟩
    · exact absurd hchecked hfound
    · refine covered_of_empty ?_
      show shared.broker.queueLen q = 0
      rw [MemoryBroker.queueLen, hqueues]
      exact hnone q hq
  · exact hlook.covered (h.covered hpermit j (.inl hchecked) q hq)
  · rw [hnotify] at hwaits
    exact hlook.covered (h.covered hpermit j (.inr hwaits) q hq)

/-- The notification is as it was, and so are the queues. -/
theorem Attended.rest (h : Attended s) (hk : (s.consumers k).future = some future)
    (hne : future ≠ .parked) (hout : out.future = none)
    (hrecheck : s.recheck k future out = s.rechecking)
    (hnotify : shared.broker.notify = s.shared.broker.notify)
    (hqueues : shared.broker.queues = s.shared.broker.queues) :
    Attended (s.polled k future out shared) := by
  refine h.polled_same hk hqueues (.inr ⟨by rw [hout]; exact nofun, ?_⟩) fun hpermit j hj => ?_
  · rw [hnotify, h.erase_of_absent hk hne]
  · have hidle : s.Idle j := by
      rcases idle_polled hj with ⟨-, hchecked⟩ | ⟨hchecked, -⟩ | hwaits
      · rw [hout] at hchecked
        cases hchecked
      · exact .inl hchecked
      · exact .inr (hnotify ▸ hwaits)
    rw [hnotify] at hpermit
    rw [hrecheck, hnotify]
    exact h.covered hpermit j hidle

/-- A consumer takes the stored permit. -/
theorem Attended.takePermit (h : Attended s) (hk : (s.consumers k).future = some .checked)
    (htakes : s.TakesRightly k) :
    Attended (s.polled k .checked (.pending .locking)
      (s.shared.setNotify s.shared.broker.notify.takePermit)) := by
  refine h.polled_same hk rfl (.inr ⟨nofun, ?_⟩) fun _ j hj => ?_
  · rw [h.erase_of_absent hk nofun]
    exact .refl _
  · have hidle : j ≠ k ∧ s.Idle j := by
      rcases idle_polled hj with ⟨-, hchecked⟩ | ⟨hchecked, hjk⟩ | hwaits
      · cases hchecked
      · exact ⟨hjk, .inl hchecked⟩
      · refine ⟨?_, .inr hwaits⟩
        rintro rfl
        exact h.absent hk nofun (List.mem_append_left _ hwaits)
    intro q hq
    refine covered_of_perm (htakes j hidle.1 hidle.2 q hq) (.of_eq ?_)
    exact List.append_assoc ..

/-- A consumer parks. -/
theorem Attended.park (h : Attended s) (hk : (s.consumers k).future = some .checked) :
    Attended (s.polled k .checked (.pending .parked)
      (s.shared.setNotify (s.shared.broker.notify.park k))) := by
  refine h.polled_same hk rfl (.inl ⟨rfl, ?_⟩) fun hpermit j hj => ?_
  · rw [h.erase_of_absent hk nofun]
    exact Notify.present_park
  · refine h.covered hpermit j ?_
    rcases idle_polled hj with ⟨rfl, -⟩ | ⟨hchecked, -⟩ | hwaits
    · exact .inl hk
    · exact .inl hchecked
    · rcases List.mem_append.mp hwaits with hwaits | hwaits
      · exact .inr hwaits
      · rw [List.mem_singleton.mp hwaits]
        exact .inl hk

/-- A consumer that has been woken goes on: it has yet to look. -/
theorem Attended.resume (h : Attended s) (hk : (s.consumers k).future = some .parked)
    (hwoken : k ∈ s.shared.broker.notify.woken) :
    Attended (s.polled k .parked (.pending .locking)
      (s.shared.setNotify (s.shared.broker.notify.resume k))) := by
  have hnot : k ∉ s.shared.broker.notify.waiters := fun hwaits =>
    List.disjoint_of_nodup_append h.nodup hwaits hwoken
  refine h.polled_same hk rfl (.inr ⟨nofun, .of_eq (Notify.present_resume hnot)⟩)
    fun hpermit j hj => ?_
  have hidle : s.Idle j := by
    rcases idle_polled hj with ⟨-, hchecked⟩ | ⟨hchecked, -⟩ | hwaits
    · cases hchecked
    · exact .inl hchecked
    · exact .inr hwaits
  have hsame : (s.shared.broker.notify.woken ++ s.rechecking).Perm
      (s.shared.broker.notify.woken.erase k ++ (s.rechecking ++ [k])) := by
    rw [← List.append_assoc]
    refine .trans ?_ (List.perm_append_singleton k _).symm
    rw [← List.cons_append]
    exact (List.perm_cons_erase hwoken).append_right _
  exact fun q hq => covered_of_perm (h.covered hpermit j hidle q hq) hsame

/-- A consumer leaves whose time is up before it was woken. -/
theorem Attended.leave (h : Attended s) (hk : (s.consumers k).future = some .parked)
    (hwoken : k ∉ s.shared.broker.notify.woken) :
    Attended (s.polled k .parked (.ready (.ok none))
      (s.shared.setNotify (s.shared.broker.notify.leave k))) := by
  have hleave : s.shared.broker.notify.leave k
      = { s.shared.broker.notify with waiters := s.shared.broker.notify.waiters.erase k } :=
    if_neg hwoken
  refine h.polled_same hk rfl (.inr ⟨nofun, ?_⟩) fun hpermit j hj => ?_
  · exact Notify.present_leave ((h.parked k).mp hk) h.nodup
  · have hidle : s.Idle j := by
      rcases idle_polled hj with ⟨-, hchecked⟩ | ⟨hchecked, -⟩ | hwaits
      · cases hchecked
      · exact .inl hchecked
      · rw [LockedBroker.setNotify, hleave] at hwaits
        exact .inr (List.mem_of_mem_erase hwaits)
    rw [LockedBroker.setNotify, hleave] at hpermit
    rw [LockedBroker.setNotify, hleave]
    exact h.covered hpermit j hidle

/-- A consumer leaves that had been woken: the next waiter is, in its place. -/
theorem Attended.passOn (h : Attended s) (hk : (s.consumers k).future = some .parked)
    (hwoken : k ∈ s.shared.broker.notify.woken)
    (hnotifies : s.NotifiesRightly none (s.pending.erase k)) :
    Attended (s.polled k .parked (.ready (.ok none))
      (s.shared.setNotify (s.shared.broker.notify.leave k))) := by
  have hleave : s.shared.broker.notify.leave k = (s.shared.broker.notify.resume k).notifyOne :=
    if_pos hwoken
  refine h.polled_same hk rfl (.inr ⟨nofun, ?_⟩) fun hpermit j hj => ?_
  · exact Notify.present_leave ((h.parked k).mp hk) h.nodup
  · rw [LockedBroker.setNotify, hleave] at hpermit
    have hnow : (s.consumers j).future = some .checked ∨
        j ∈ (s.shared.broker.notify.resume k).notifyOne.waiters := by
      rcases idle_polled hj with ⟨-, hchecked⟩ | ⟨hchecked, -⟩ | hwaits
      · cases hchecked
      · exact .inl hchecked
      · rw [LockedBroker.setNotify, hleave] at hwaits
        exact .inr hwaits
    obtain ⟨w, hw, hne, hidle, hnext⟩ :=
      h.notifyOne_cases (n := s.shared.broker.notify.resume k) rfl hpermit hnow
    have hrest : s.pending.erase k =
        (s.shared.broker.notify.resume k).woken ++ s.rechecking :=
      List.erase_append_left _ hwoken
    intro q hq
    refine covered_of_perm (hnotifies w hw j hne hidle q hq) ?_
    rw [LockedBroker.setNotify, hleave, hnext, hrest, List.append_assoc, List.append_assoc]
    exact List.perm_append_comm.append_left _

end Polled

/-- A poll that notifies rightly leaves everyone covered who is idle. -/
theorem Attended.poll (h : Attended s) {timedOut : Bool} (hrightly : s.PollsRightly k timedOut)
    (hpoll : s.poll k timedOut = some s') : Attended s' := by
  unfold Consumers.poll at hpoll
  split at hpoll
  · cases hpoll
  rename_i future hk
  obtain ⟨⟨out, shared⟩, hp, heq⟩ := Option.map_eq_some_iff.mp hpoll
  cases heq
  cases future with
  | locking =>
      simp only [LockedBroker.pollDequeue] at hp
      split at hp
      · cases hp
      split at hp
      · rename_i hnone
        cases hp
        exact h.look hk rfl (by simp) (.inr ⟨rfl, MemoryBroker.queueLen_of_popFront hnone⟩)
      · rename_i m b hpop
        obtain ⟨-, -, hnotify⟩ := MemoryBroker.popFront_frame hpop
        have hfound := MemoryBroker.backlog_of_popFront hpop
        split at hp
        · cases hp
          exact h.look hk hnotify (by simp) (.inl ⟨by simp, hfound⟩)
        · cases hp
          exact h.look hk hnotify (by simp) (.inl ⟨by simp, hfound⟩)
  | tracking m =>
      obtain ⟨-, heq⟩ := (Option.ite_none_left_eq_some).mp hp
      cases heq
      exact h.rest hk (by simp) rfl rfl rfl rfl
  | checked =>
      simp only [LockedBroker.pollDequeue] at hp
      split at hp
      · cases hp
        exact h.rest hk (by simp) rfl rfl rfl rfl
      rename_i htime
      split at hp
      · rename_i hpermit
        cases hp
        exact h.takePermit hk (hrightly.1 hk (by simpa using htime) hpermit)
      · cases hp
        exact h.park hk
  | parked =>
      simp only [LockedBroker.pollDequeue] at hp
      split at hp
      · rename_i htimedOut
        cases hp
        by_cases hwoken : k ∈ s.shared.broker.notify.woken
        · exact h.passOn hk hwoken (hrightly.2 hk htimedOut hwoken)
        · exact h.leave hk hwoken
      split at hp
      · rename_i hwoken
        cases hp
        exact h.resume hk hwoken
      · cases hp

/-- A call of a program that notifies rightly leaves everyone covered who is idle. -/
theorem Attended.respond (h : Attended s) {op : LockedOp}
    (hrightly : ∀ m, op.arrival = some m → s.NotifiesRightly (some m.queue) s.pending)
    (hrespond : dequeuers.respond () s op = some ((), s')) : Attended s' := by
  obtain ⟨hframe, ⟨hqueues, hnotify⟩ | ⟨m, harrival, hbroker⟩⟩ := shared_cases hrespond
  · rw [hframe]
    exact h.quiet hqueues hnotify
  · rw [hframe]
    exact h.arrival hbroker (hrightly m harrival)

end Invariant

/-! ## Whole runs -/

/-- Whoever gets the notification of this step, if there is one, nobody else who is idle is left
with more messages than wakeups. -/
def WakesRightly (c : dequeuers.Config) : dequeuers.Label → Prop
  | .call e => ∀ m, e.op.arrival = some m → c.state.NotifiesRightly (some m.queue) c.state.pending
  | .env (.call _ _) => True
  | .env (.poll k timedOut) => c.state.PollsRightly k timedOut

/-- A consumer of this queue has been woken and has not looked since, or a permit is
stored. -/
def WakeupPending (s : Consumers) (q : String) : Prop :=
  s.shared.broker.notify.permit = true ∨
    ∃ k, q ∈ (s.consumers k).queues ∧
      (k ∈ s.shared.broker.notify.woken ∨ k ∈ s.rechecking)

/-- A consumer of a queue that is not empty waits only while a wakeup is pending. -/
def NoLostWakeup (s : Consumers) : Prop :=
  ∀ q k, 0 < s.shared.broker.queueLen q → q ∈ (s.consumers k).queues →
    (s.consumers k).future = some .parked → WakeupPending s q

/-- `dequeue` returns without a message only if its queues are empty or a wakeup is
pending. -/
def TimesOutRightly (s : Consumers) : dequeuers.Label → Prop
  | .env (.poll k timedOut) => ∀ future shared, (s.consumers k).future = some future →
      LockedBroker.pollDequeue (s.consumers k).queues k timedOut future s.shared
        = some (.ready (.ok none), shared) →
        ∀ q ∈ (s.consumers k).queues, 0 < s.shared.broker.queueLen q → WakeupPending s q
  | _ => True

section Runs

variable {s : Consumers} {k : Nat}

/-- Before a queue that is not empty nobody is idle without a wakeup that is pending. -/
theorem Attended.wakeupPending (h : Attended s) (hk : s.Idle k) {q : String}
    (hq : q ∈ (s.consumers k).queues) (hlen : 0 < s.shared.broker.queueLen q) :
    WakeupPending s q := by
  by_cases hpermit : s.shared.broker.notify.permit = true
  · exact .inl hpermit
  · obtain ⟨group, hgroup, hle⟩ :=
      covered_none_iff.mp (h.covered (Bool.eq_false_iff.mpr hpermit) k hk q hq)
    have hserving : 0 < s.serving none s.pending q group :=
      lt_of_lt_of_le (MemoryBroker.backlog_pos hgroup hlen) hle
    obtain ⟨j, hj, hserves⟩ := List.countP_pos_iff.mp hserving
    exact .inr ⟨j, (of_decide_eq_true hserves).1, List.mem_append.mp hj⟩

/-- Whoever waits before a queue that is not empty has been woken, or is covered. -/
theorem Attended.noLostWakeup (h : Attended s) : NoLostWakeup s := by
  intro q k hlen hq hparked
  rcases List.mem_append.mp ((h.parked k).mp hparked) with hwaits | hwoken
  · exact h.wakeupPending (.inr hwaits) hq hlen
  · exact .inr ⟨k, hq, .inl hwoken⟩

/-- Nobody's time is up before a queue that is not empty, unless a wakeup is pending. -/
theorem Attended.timesOutRightly (h : Attended s) (l : dequeuers.Label) : TimesOutRightly s l := by
  cases l with
  | call e => trivial
  | env x =>
      cases x with
      | call k queues => trivial
      | poll k timedOut =>
          intro future shared hk hpoll q hq hlen
          cases future with
          | locking =>
              simp only [LockedBroker.pollDequeue] at hpoll
              split at hpoll
              · cases hpoll
              split at hpoll
              · cases hpoll
              split at hpoll <;> cases hpoll
          | tracking m =>
              obtain ⟨-, heq⟩ := (Option.ite_none_left_eq_some).mp hpoll
              cases heq
          | checked => exact h.wakeupPending (.inl hk) hq hlen
          | parked => exact h.noLostWakeup q k hlen hq hk

/-- Where every step wakes rightly, everyone is covered who is idle. -/
theorem attended_of_reachIf {threads : List (Prog lockedSections Unit)} {c : dequeuers.Config}
    {tr : List dequeuers.Label}
    (h : Machine.ReachIf WakesRightly (⟨.idle, threads⟩ : dequeuers.Config) tr c) :
    Attended c.state := by
  induction h with
  | start => exact attended_idle
  | step _ hgood hstep ih =>
      cases hstep with
      | call o k before after hrespond => exact ih.respond hgood hrespond
      | env x threads haccept =>
          cases x with
          | call k queues =>
              obtain ⟨s', hcall, heq⟩ := Option.map_eq_some_iff.mp haccept
              cases heq
              exact ih.call hcall
          | poll k timedOut =>
              obtain ⟨s', hpoll, heq⟩ := Option.map_eq_some_iff.mp haccept
              cases heq
              exact ih.poll hgood hpoll

end Runs

/-- In a run that wakes rightly no wakeup is lost, and no consumer times out before a
queue that is not empty without one pending. -/
theorem wakeups_kept {threads : List (Prog lockedSections Unit)} {c : dequeuers.Config}
    {tr : List dequeuers.Label}
    (h : Machine.ReachIf WakesRightly (⟨.idle, threads⟩ : dequeuers.Config) tr c) :
    NoLostWakeup c.state ∧ ∀ l, TimesOutRightly c.state l :=
  ⟨(attended_of_reachIf h).noLostWakeup, (attended_of_reachIf h).timesOutRightly⟩

/-! ## Two runs -/

/-- A call of `enqueue`. -/
def arrive (m : TaskMessage) : Prog lockedSections Unit := do
  Prog.perform (I := lockedSections) (.acquire .queues)
  Prog.perform (I := lockedSections) (.run (.enqueue m))

/-- A message for queue `q` is about to arrive. -/
def beforeArrival : dequeuers.Config := ⟨.idle, [arrive (plainMessage ⟨7⟩)]⟩

/-- A consumer calls `dequeue`, finds nothing and parks. -/
def parks (k : Nat) (queues : List String) : List dequeuers.Move :=
  [.env (.call k queues), .env (.poll k false), .env (.poll k false)]

/-- The message arrives. -/
def arrivalSteps : List dequeuers.Move := [.run 0 (), .run 0 ()]

/-- What can be tested of a step that wakes nobody, or wakes rightly for want of a waiter. -/
def wakesNobody (c : dequeuers.Config) : dequeuers.Label → Bool
  | .call e => e.op.arrival.isNone || c.state.shared.broker.notify.waiters.isEmpty
  | .env (.call _ _) => true
  | .env (.poll _ timedOut) => !timedOut && !c.state.shared.broker.notify.permit

theorem wakesRightly_of_test (c : dequeuers.Config) (l : dequeuers.Label)
    (h : wakesNobody c l = true) : WakesRightly c l := by
  cases l with
  | call e =>
      intro m hm w hw
      simp only [wakesNobody, hm, Option.isNone_some, Bool.false_or, List.isEmpty_iff] at h
      rw [h] at hw
      cases hw
  | env x =>
      cases x with
      | call k queues => trivial
      | poll k timedOut =>
          obtain ⟨htime, hpermit⟩ := Bool.and_eq_true_iff.mp h
          refine ⟨fun _ _ hstored => ?_, fun _ htimedOut => ?_⟩
          · rw [hstored] at hpermit
            cases hpermit
          · rw [htimedOut] at htime
            cases htime

/-- Two consumers of the queue have looked and not yet parked when the message arrives. -/
def looksTwice : List dequeuers.Move :=
  [.env (.call 0 ["q"]), .env (.poll 0 false), .env (.call 1 ["q"]), .env (.poll 1 false)] ++
    arrivalSteps

theorem looksTwice_plays : (beforeArrival.playAll looksTwice).isSome = true := by
  decide +kernel

/-- The permit is stored, and nobody has parked. -/
def stored : List dequeuers.Label × dequeuers.Config :=
  (beforeArrival.playAll looksTwice).get looksTwice_plays

theorem takes_plays : (stored.2.play (.env (.poll 0 false))).isSome = true := by
  decide +kernel

/-- The first consumer has taken it. -/
def taken : dequeuers.Label × dequeuers.Config :=
  (stored.2.play (.env (.poll 0 false))).get takes_plays

theorem parks_plays : (taken.2.playAll [.env (.poll 1 false)]).isSome = true := by
  decide +kernel

/-- The second has parked before the queue with the message. -/
def parkedEnd : List dequeuers.Label × dequeuers.Config :=
  (taken.2.playAll [.env (.poll 1 false)]).get parks_plays

/-- The permit leaves nobody without: the first consumer looks where the second does. -/
theorem takesRightly_stored : stored.2.state.TakesRightly 0 := by
  intro j hj _ q hq
  match j with
  | 0 => exact absurd rfl hj
  | 1 =>
      obtain rfl : q = "q" := List.mem_singleton.mp hq
      exact ⟨{"q"}, Finset.mem_singleton_self _, by decide +kernel⟩
  | j + 2 => cases hq

/-- The second consumer waits before a queue that is not empty, and the first has yet to look. -/
theorem wakeups_kept_shared :
    (parkedEnd.2.state.shared.broker.queueLen "q" = 1 ∧
      parkedEnd.2.state.shared.broker.notify.waiters = [1] ∧
      parkedEnd.2.state.rechecking = [0]) ∧
    NoLostWakeup parkedEnd.2.state ∧ ∀ l, TimesOutRightly parkedEnd.2.state l := by
  have hstored : Machine.ReachIf WakesRightly beforeArrival stored.1 stored.2 :=
    Machine.Config.reachIf_of_keeps wakesRightly_of_test (Option.some_get looksTwice_plays).symm
      (by decide +kernel)
  have htaken : Machine.ReachIf WakesRightly stored.2 [taken.1] taken.2 := by
    have hstart : Machine.ReachIf WakesRightly stored.2 [] stored.2 := .start
    refine hstart.step ?_ (Machine.Config.step_of_get takes_plays)
    exact ⟨fun _ _ _ => takesRightly_stored, fun _ htimedOut => nomatch htimedOut⟩
  have hparked : Machine.ReachIf WakesRightly taken.2 parkedEnd.1 parkedEnd.2 :=
    Machine.Config.reachIf_of_keeps wakesRightly_of_test (Option.some_get parks_plays).symm
      (by decide +kernel)
  refine ⟨⟨by decide +kernel, by decide +kernel, by decide +kernel⟩, ?_⟩
  exact wakeups_kept ((hstored.trans htaken).trans hparked)

/-- A consumer of another queue has waited longer. -/
def wakesOther : List dequeuers.Move := parks 0 ["other"] ++ parks 1 ["q"] ++ arrivalSteps

theorem wakesOther_plays : (beforeArrival.playAll wakesOther).isSome = true := by
  decide +kernel

/-- How that ends. -/
def wakesOtherEnd : List dequeuers.Label × dequeuers.Config :=
  (beforeArrival.playAll wakesOther).get wakesOther_plays

/-- An arrival wakes a consumer of another queue: the one that waits for the message is not woken,
and no permit is stored. -/
theorem wakeup_lost :
    dequeuers.Reach beforeArrival wakesOtherEnd.1 wakesOtherEnd.2 ∧
      ¬ NoLostWakeup wakesOtherEnd.2.state := by
  refine ⟨Machine.Config.reach_of_get wakesOther_plays, fun hkept => ?_⟩
  have hlen : 0 < wakesOtherEnd.2.state.shared.broker.queueLen "q" := by decide +kernel
  have hqueues : "q" ∈ (wakesOtherEnd.2.state.consumers 1).queues := by decide +kernel
  have hwoken : wakesOtherEnd.2.state.shared.broker.notify.woken = [0] := by decide +kernel
  have hrechecking : wakesOtherEnd.2.state.rechecking = [] := by decide +kernel
  rcases hkept "q" 1 hlen hqueues rfl with hpermit | ⟨k, hk, hpending⟩
  · exact absurd hpermit (by decide +kernel)
  · rw [hwoken, hrechecking] at hpending
    have hzero : k = 0 := by simpa using hpending
    subst hzero
    exact absurd hk (by decide +kernel)

end Kojin.Core
