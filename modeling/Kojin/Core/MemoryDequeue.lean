/-
  Core/MemoryDequeue.lean --- `MemoryBroker::dequeue` as a future (`kojin-core`:
  `memory_broker.rs`).

  The future suspends at three places: at the lock of the queues, at the lock of the
  processing map with the queues locked and a message popped, and in the wait for a
  notification.

      locking ─ tracking ─ ready (some m)        a message was found
      locking ─ checked ─ parked ─ locking       none was found; woken
                checked ─ ready none             the time is up
                parked  ─ ready none

  Between the look into the queues and the registration with `notify` (`checked`) the
  future holds nothing, and others may run.
-/
import Kojin.Core.Locks

set_option autoImplicit false

namespace Kojin.Core

open Kojin.Foundation

/-! ## The notification -/

namespace Notify

/-- The first poll of `notified()`: the stored permit is taken, if there is one. -/
def takePermit (n : Notify) : Notify := { n with permit := false }

/-- Without a permit the waiter is parked. -/
def park (n : Notify) (w : Nat) : Notify := { n with waiters := n.waiters ++ [w] }

/-- A woken waiter goes on. -/
def resume (n : Notify) (w : Nat) : Notify := { n with woken := n.woken.erase w }

/-- `notified()` is dropped: a waiter that has been woken passes its notification on. -/
def leave (n : Notify) (w : Nat) : Notify :=
  if w ∈ n.woken then (n.resume w).notifyOne else { n with waiters := n.waiters.erase w }

end Notify

namespace MemoryBroker

/-- The scan of `dequeue`: the first requested queue that is not empty gives up its
front message. -/
def popFront (b : MemoryBroker) : List String → Option (TaskMessage × MemoryBroker)
  | [] => none
  | name :: rest =>
      match b.queues.lookup name with
      | some (m :: ms) => some (m, { b with queues := b.queues.insert name ms })
      | _ => b.popFront rest

/-- `processing.lock().await.insert(msg.id, msg.clone())`. -/
def track (b : MemoryBroker) (m : TaskMessage) : MemoryBroker :=
  { b with processing := b.processing.insert m.id m }

/-- `tryDequeue` is both sections in one. -/
theorem tryDequeue_eq (b : MemoryBroker) (names : List String) :
    b.tryDequeue names = (b.popFront names).map fun p => (p.1, p.2.track p.1) := by
  induction names with
  | nil => rfl
  | cons name rest ih =>
      unfold tryDequeue popFront
      cases hlookup : b.queues.lookup name with
      | none => exact ih
      | some ms =>
          cases ms with
          | nil => exact ih
          | cons m ms => rfl

theorem tryDequeue_of_popFront {b b' : MemoryBroker} {names : List String} {m : TaskMessage}
    (h : b.popFront names = some (m, b')) : b.tryDequeue names = some (m, b'.track m) := by
  rw [tryDequeue_eq, h]
  rfl

/-- What a pop does to the copies of a message. -/
theorem queued_of_popFront {b b' : MemoryBroker} {names : List String} {m : TaskMessage}
    (h : b.popFront names = some (m, b')) (i : TaskId) :
    b.queued i = b'.queued i + unit m.id i :=
  queued_of_tryDequeue (tryDequeue_of_popFront h) i

/-- A pop touches nothing but the queues. -/
theorem popFront_frame {b b' : MemoryBroker} {names : List String} {m : TaskMessage}
    (h : b.popFront names = some (m, b')) :
    b'.dlq = b.dlq ∧ b'.processing = b.processing ∧ b'.notify = b.notify := by
  induction names with
  | nil => cases h
  | cons name rest ih =>
      unfold popFront at h
      split at h
      · cases h
        exact ⟨rfl, rfl, rfl⟩
      · exact ih h

theorem mem_track {b : MemoryBroker} {m : TaskMessage} {i : TaskId} :
    i ∈ (b.track m).processing ↔ i = m.id ∨ i ∈ b.processing :=
  AList.mem_insert b.processing

end MemoryBroker

/-! ## The future -/

/-- Where a call of `dequeue` is. -/
inductive MemoryFuture where
  | locking
  | tracking (m : TaskMessage)
  | checked
  | parked

namespace LockedBroker

/-- Change the notification. -/
def setNotify (s : LockedBroker) (n : Notify) : LockedBroker :=
  { s with broker := { s.broker with notify := n } }

/-- One poll by waiter `w`, whose time may be up.  It has no answer where it stays
pending. -/
def pollDequeue (queues : List String) (w : Nat) (timedOut : Bool) :
    MemoryFuture → LockedBroker → Option (Poll MemoryFuture × LockedBroker)
  | .locking, s =>
      if s.held .queues then none
      else match s.broker.popFront queues with
        | none => some (.pending .checked, s)
        | some (m, b) =>
            if s.held .processing then
              some (.pending (.tracking m), { s with broker := b }.setLock .queues true)
            else some (.ready (.ok (some m)), { s with broker := b.track m })
  | .tracking m, s =>
      if s.held .processing then none
      else some (.ready (.ok (some m)),
        { s with broker := s.broker.track m }.setLock .queues false)
  | .checked, s =>
      if timedOut then some (.ready (.ok none), s)
      else if s.broker.notify.permit then
        some (.pending .locking, s.setNotify s.broker.notify.takePermit)
      else some (.pending .parked, s.setNotify (s.broker.notify.park w))
  | .parked, s =>
      if timedOut then some (.ready (.ok none), s.setNotify (s.broker.notify.leave w))
      else if w ∈ s.broker.notify.woken then
        some (.pending .locking, s.setNotify (s.broker.notify.resume w))
      else none

/-- The future is dropped: the lock it holds is free again, and a waiter leaves. -/
def dropDequeue (w : Nat) : MemoryFuture → LockedBroker → LockedBroker
  | .locking, s => s
  | .tracking _, s => s.setLock .queues false
  | .checked, s => s
  | .parked, s => s.setNotify (s.broker.notify.leave w)

@[simp] theorem setNotify_queued (s : LockedBroker) (n : Notify) (i : TaskId) :
    (s.setNotify n).broker.queued i = s.broker.queued i := rfl

@[simp] theorem setNotify_dead (s : LockedBroker) (n : Notify) (i : TaskId) :
    (s.setNotify n).broker.dead i = s.broker.dead i := rfl

@[simp] theorem setNotify_processing (s : LockedBroker) (n : Notify) :
    (s.setNotify n).broker.processing = s.broker.processing := rfl

end LockedBroker

/-! ## What a poll does -/

namespace LockedBroker

variable {queues : List String} {w : Nat} {timedOut : Bool} {future : MemoryFuture}
  {s s' : LockedBroker}

/-- Everything a poll can have done: nothing to the messages, popped one and kept it in
hand, or returned one it has tracked. -/
inductive Polled (queues : List String) (s : LockedBroker) : MemoryFuture → Poll MemoryFuture →
    LockedBroker → Prop where
  | quiet {future : MemoryFuture} {next : MemoryFuture} (n : Notify) :
      (∀ m, future ≠ .tracking m) → (∀ m, next ≠ .tracking m) →
      Polled queues s future (.pending next) (s.setNotify n)
  | timeout {future : MemoryFuture} (n : Notify) :
      (∀ m, future ≠ .tracking m) → Polled queues s future (.ready (.ok none)) (s.setNotify n)
  | pop {m : TaskMessage} {b : MemoryBroker} :
      s.broker.popFront queues = some (m, b) → s.held .processing = true →
      Polled queues s .locking (.pending (.tracking m))
        ({ s with broker := b }.setLock .queues true)
  | found {m : TaskMessage} {b : MemoryBroker} :
      s.broker.popFront queues = some (m, b) →
      Polled queues s .locking (.ready (.ok (some m))) { s with broker := b.track m }
  | tracked (m : TaskMessage) :
      Polled queues s (.tracking m) (.ready (.ok (some m)))
        ({ s with broker := s.broker.track m }.setLock .queues false)

theorem pollDequeue_cases {out : Poll MemoryFuture}
    (h : pollDequeue queues w timedOut future s = some (out, s')) :
    Polled queues s future out s' := by
  cases future with
  | locking =>
      simp only [pollDequeue] at h
      split at h
      · cases h
      · split at h
        · cases h
          exact .quiet s.broker.notify nofun nofun
        · rename_i m b hpop
          split at h
          · rename_i hheld
            cases h
            exact .pop hpop hheld
          · cases h
            exact .found hpop
  | tracking m =>
      obtain ⟨-, heq⟩ := (Option.ite_none_left_eq_some).mp h
      cases heq
      exact .tracked m
  | checked =>
      simp only [pollDequeue] at h
      split at h
      · cases h
        exact .timeout s.broker.notify nofun
      · split at h
        · cases h
          exact .quiet _ nofun nofun
        · cases h
          exact .quiet _ nofun nofun
  | parked =>
      simp only [pollDequeue] at h
      split at h
      · cases h
        exact .timeout _ nofun
      · split at h
        · cases h
          exact .quiet _ nofun nofun
        · cases h

/-- A dropped future changes nothing but the notification and its lock. -/
theorem dropDequeue_frame (w : Nat) (future : MemoryFuture) (s : LockedBroker) :
    (dropDequeue w future s).broker.queues = s.broker.queues ∧
      (dropDequeue w future s).broker.processing = s.broker.processing ∧
      (dropDequeue w future s).broker.dlq = s.broker.dlq := by
  cases future <;> exact ⟨rfl, rfl, rfl⟩

end LockedBroker

/-! ## What the loop does -/

/-- The loop neither awaits `dequeue` nor has a message. -/
def LoopPhase.calm {φ : Type} : LoopPhase φ → Bool
  | .dequeuing _ => false
  | .spawning _ => false
  | _ => true

/-- Everything a step of the loop can do to its phase, to the broker and to the tasks;
`start`, `poll` and `drop` are those of its `dequeue`. -/
inductive LoopStep {σ φ ι : Type} (start : φ) (poll : ι → φ → σ → Option (Poll φ × σ))
    (drop : φ → σ → σ) :
    LoopPhase φ → σ → LoopMove ι → LoopPhase φ → σ → Option TaskMessage → Prop where
  | stay (phase : LoopPhase φ) (s : σ) {x : LoopMove ι} :
      x.gets = 0 → LoopStep start poll drop phase s x phase s none
  | move {phase phase' : LoopPhase φ} (s : σ) {x : LoopMove ι} :
      x.gets = 0 → phase.calm = true → phase'.calm = true →
      LoopStep start poll drop phase s x phase' s none
  | take (s : σ) : LoopStep start poll drop .granted s .take (.dequeuing start) s none
  | quit (future : φ) (s : σ) :
      LoopStep start poll drop (.dequeuing future) s .quit .draining (drop future s) none
  | pending {x : ι} {future future' : φ} {s s' : σ} :
      poll x future s = some (.pending future', s') →
      LoopStep start poll drop (.dequeuing future) s (.poll x) (.dequeuing future') s' none
  | nothing {x : ι} {future : φ} {s s' : σ} {out : TaskResult (Option TaskMessage)}
      {phase' : LoopPhase φ} :
      poll x future s = some (.ready out, s') → (∀ m, out ≠ .ok (some m)) →
      phase'.calm = true →
      LoopStep start poll drop (.dequeuing future) s (.poll x) phase' s' none
  | receive {x : ι} {future : φ} {s s' : σ} {m : TaskMessage} :
      poll x future s = some (.ready (.ok (some m)), s') →
      LoopStep start poll drop (.dequeuing future) s (.receive x m.id) (.spawning m) s' none
  | spawn (m : TaskMessage) (s : σ) :
      LoopStep start poll drop (.spawning m) s .spawn .checking s (some m)

section LoopStep

variable {σ : Type} {D : Dequeue σ} {concurrency : Nat} {l l' : WorkerRun D.Future} {s s' : σ}

/-- A step that leaves the broker alone, from one phase to another. -/
theorem LoopStep.moved {x : LoopMove D.Input} {phase phase' : LoopPhase D.Future}
    (hphase : l.phase = phase) (hx : x.gets = 0) (hcalm : phase.calm = true)
    (hcalm' : phase'.calm = true) :
    LoopStep D.start D.poll D.drop l.phase s x phase' s none :=
  .move s hx (by rw [hphase, hcalm]) hcalm'

theorem loopStep_quit (h : l.quit s = some (s', l')) :
    LoopStep D.start D.poll D.drop l.phase s .quit l'.phase s' none := by
  unfold WorkerRun.quit at h
  split at h
  · split at h
    · rename_i hphase
      cases h
      exact .moved hphase rfl rfl rfl
    · rename_i hphase
      cases h
      exact .moved hphase rfl rfl rfl
    · rename_i future hphase
      cases h
      rw [hphase]
      exact .quit future s
    · cases h
  · cases h

theorem loopStep_poll {x : D.Input} (h : l.poll x s = some (s', l')) :
    LoopStep D.start D.poll D.drop l.phase s (.poll x) l'.phase s' none := by
  unfold WorkerRun.poll at h
  split at h
  · rename_i future hphase
    rw [hphase]
    split at h
    · rename_i hpoll
      cases h
      exact .pending hpoll
    · rename_i hpoll
      cases h
      exact .nothing hpoll nofun rfl
    · rename_i hpoll
      cases h
      exact .nothing hpoll nofun rfl
    · cases h
  · cases h

theorem loopStep_receive {x : D.Input} {id : TaskId} (h : l.receive x id s = some (s', l')) :
    LoopStep D.start D.poll D.drop l.phase s (.receive x id) l'.phase s' none := by
  unfold WorkerRun.receive at h
  split at h
  · rename_i future hphase
    rw [hphase]
    split at h
    · rename_i hpoll
      split at h
      · rename_i hid
        cases h
        rw [← hid]
        exact .receive hpoll
      · cases h
    · cases h
  · cases h

theorem loopStep_inspect {timeout : Bool} (h : l.inspect concurrency timeout = some l') :
    LoopStep D.start D.poll D.drop l.phase s (.inspect timeout) l'.phase s none := by
  unfold WorkerRun.inspect at h
  split at h
  · rename_i hphase
    split at h
    · cases h
      exact .moved hphase rfl rfl rfl
    · split at h
      · cases h
        exact .moved hphase rfl rfl rfl
      · cases h
        exact .stay _ s rfl
  · cases h

/-- Every step of the loop is one of these. -/
theorem loopStep {x : LoopMove D.Input} {task : Option TaskMessage}
    (h : l.step concurrency s x = some ((s', l'), task)) :
    LoopStep D.start D.poll D.drop l.phase s x l'.phase s' task := by
  cases x with
  | cancel =>
      cases h
      exact .stay l.phase s rfl
  | check =>
      simp only [WorkerRun.step] at h
      split at h
      · rename_i hphase
        cases h
        refine .moved hphase rfl rfl ?_
        dsimp only
        split <;> rfl
      · cases h
  | acquire =>
      simp only [WorkerRun.step] at h
      split at h
      · rename_i hphase _
        cases h
        exact .moved hphase rfl rfl rfl
      · cases h
  | take =>
      simp only [WorkerRun.step] at h
      split at h
      · rename_i hphase
        cases h
        rw [hphase]
        exact .take s
      · cases h
  | quit =>
      obtain ⟨p, hp, heq⟩ := Option.map_eq_some_iff.mp h
      cases heq
      exact loopStep_quit hp
  | poll x =>
      obtain ⟨p, hp, heq⟩ := Option.map_eq_some_iff.mp h
      cases heq
      exact loopStep_poll hp
  | receive x id =>
      obtain ⟨p, hp, heq⟩ := Option.map_eq_some_iff.mp h
      cases heq
      exact loopStep_receive hp
  | spawn =>
      simp only [WorkerRun.step] at h
      split at h
      · rename_i m hphase
        cases h
        rw [hphase]
        exact .spawn m s
      · cases h
  | wake =>
      simp only [WorkerRun.step] at h
      split at h
      · rename_i hphase
        cases h
        exact .moved hphase rfl rfl rfl
      · cases h
  | inspect timeout =>
      obtain ⟨p, hp, heq⟩ := Option.map_eq_some_iff.mp h
      cases heq
      exact loopStep_inspect hp

end LoopStep

section Calls

variable {B R : Interface} {service : Service (system B R)} {D : Dequeue service.State}
  {program : TaskMessage → Prog (system B R) Unit} {concurrency : Nat}
  {o : service.Oracle × Bool} {s s' : (workerLoop service D program concurrency).State}

/-- A call of a task that returns is answered by the system. -/
theorem loop_respond {op : (system B R).Op} {r : (system B R).Res op}
    (h : (workerLoop service D program concurrency).respond o s (.call op) = some (some r, s')) :
    service.respond o.1 s.1 op = some (r, s'.1) ∧ s'.2 = s.2 := by
  simp only [workerLoop] at h
  split at h
  · cases h
  · obtain ⟨p, hp, heq⟩ := Option.map_eq_some_iff.mp h
    cases heq
    exact ⟨hp, rfl⟩

/-- Only a call that may panic does. -/
theorem loop_panic {op : (system B R).Op}
    (h : (workerLoop service D program concurrency).respond o s (.call op) = some (none, s')) :
    s' = s ∧ op.mayPanic = true := by
  simp only [workerLoop] at h
  split at h
  · rename_i hpanic
    cases h
    exact ⟨rfl, (Bool.and_eq_true_iff.mp hpanic).2⟩
  · obtain ⟨p, -, heq⟩ := Option.map_eq_some_iff.mp h
    cases heq

/-- The drop of a permit leaves the system as it is. -/
theorem loop_dropPermit
    (h : (workerLoop service D program concurrency).respond o s .dropPermit = some ((), s')) :
    s'.1 = s.1 ∧ s'.2.phase = s.2.phase := by
  cases h
  exact ⟨rfl, rfl⟩

end Calls

end Kojin.Core
