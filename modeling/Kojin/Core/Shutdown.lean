/-
  Core/Shutdown.lean --- what a worker that is cancelled does to messages
  (`kojin-core`: `Worker::run`, `MemoryBroker::dequeue`).

  On cancellation the future of `dequeue` is dropped where it is suspended.  At the
  lock of the queues and in the wait it holds nothing.  At the lock of the processing
  map it holds a message that it has popped and not yet recorded, and the message goes
  with it.

  THE INVARIANT.  A message that was enqueued waits in a queue, is in the processing
  map or in a dead-letter queue, was acknowledged, is between the two sections of a
  settling call, or is in the hands of `dequeue` (`Kept`).
-/
import Kojin.Core.Settled

set_option autoImplicit false

namespace Kojin.Core

open Kojin.Foundation
open MemoryBroker (unit unit_self unit_of_ne)

/-! ## The places of a message -/

/-- The message a settling call has between its two sections. -/
def CrewStage.settling : CrewStage → Option TaskId
  | .live (.free (some (.settling s))) => some s.message.id
  | .live (.inside (some (.settling s)) _) => some s.message.id
  | _ => none

/-- Message `i` is somewhere. -/
inductive Kept (i : TaskId) (acked : Prop) (b : MemoryBroker) (phase : LoopPhase MemoryFuture)
    (stages : List CrewStage) : Prop where
  | queued : 0 < b.queued i → Kept i acked b phase stages
  | processing : i ∈ b.processing → Kept i acked b phase stages
  | dead : 0 < b.dead i → Kept i acked b phase stages
  | acked : acked → Kept i acked b phase stages
  | settling (u : CrewStage) : u ∈ stages → u.settling = some i → Kept i acked b phase stages
  | inHand (m : TaskMessage) : phase = .dequeuing (.tracking m) → m.id = i →
      Kept i acked b phase stages

section Places

variable {b : MemoryBroker} {i : TaskId} {codec : Codec}

theorem queued_run_le (sec : Section) : b.queued i ≤ (b.run sec).queued i := by
  cases sec with
  | enqueue m | schedule m eta =>
      show b.queued i ≤ (b.enqueue m).queued i
      rw [MemoryBroker.queued_enqueue]
      exact Nat.le_add_right _ _
  | ack id => exact le_refl _
  | release s => exact le_refl _
  | deliver s =>
      cases s with
      | nack m =>
          show b.queued i ≤ (b.enqueue m).queued i
          rw [MemoryBroker.queued_enqueue]
          exact Nat.le_add_right _ _
      | deadLetter m => exact le_refl _

theorem dead_run_le (sec : Section) : b.dead i ≤ (b.run sec).dead i := by
  cases sec with
  | deliver s =>
      cases s with
      | nack m => exact le_refl _
      | deadLetter m =>
          show b.dead i ≤ (b.pushDlq m).dead i
          rw [MemoryBroker.dead_pushDlq]
          exact Nat.le_add_right _ _
  | _ => exact le_refl _

/-- A delivered copy is in a queue or in a dead-letter queue. -/
theorem delivered (s : Settling) :
    0 < (b.run (.deliver s)).queued s.message.id ∨ 0 < (b.run (.deliver s)).dead s.message.id := by
  cases s with
  | nack m =>
      left
      show 0 < (b.enqueue m).queued m.id
      rw [MemoryBroker.queued_enqueue, unit_self]
      omega
  | deadLetter m =>
      right
      show 0 < (b.pushDlq m).dead m.id
      rw [MemoryBroker.dead_pushDlq, unit_self]
      omega

theorem CrewStage.messageId_of_settling {u : CrewStage} (h : u.settling = some i) :
    u.messageId = some i := by
  unfold CrewStage.settling at h
  split at h
  · exact h
  · exact h
  · cases h

theorem not_final_of_settling {u : CrewStage} (h : u.settling = some i) :
    ¬ TaskStage.Final (LockedStage.Final CrewFinal) u := by
  unfold CrewStage.settling at h
  split at h
  · rename_i s
    exact fun hfinal => (hfinal (.settling s) rfl).elim
  · exact fun hfinal => hfinal.elim
  · cases h

/-- Between its two sections a settling call does nothing else. -/
theorem Role.Step.of_settling {s : Settling} {u' : Role} {op : memoryInterface.Op}
    {r : memoryInterface.Res op} (h : Role.Step codec (.settling s) op r u') :
    op = .broker (.deliver s) := by
  cases h
  rfl

/-- A settling call is the same inside its section and before it. -/
theorem CrewStage.settling_inside (v : Option Role) (sec : Section) :
    CrewStage.settling (.live (.inside v sec)) = CrewStage.settling (.live (.free v)) := by
  cases v with
  | none => rfl
  | some v => cases v <;> rfl

/-- The only call that a settling call still makes is its second section. -/
theorem CrewStep.of_settling {v v' : Option Role} {op : memoryInterface.Op}
    {r : memoryInterface.Res op} (h : CrewStep codec v op r v')
    (hv : CrewStage.settling (.live (.free v)) = some i) :
    ∃ st : Settling, st.message.id = i ∧ op = .broker (.deliver st) := by
  cases h with
  | client _ _ => cases hv
  | @role v _ _ _ hrole =>
      cases v with
      | settling st => exact ⟨st, Option.some.inj hv, hrole.of_settling⟩
      | exec _ => cases hv
      | client _ => cases hv

/-- A section that removes a message from the processing map acknowledges it, or begins to
settle it. -/
theorem Role.Step.of_forgets {u u' : Role} {sec : Section}
    (h : Role.Step codec u (.broker sec) () u') (hi : sec.forgets = some i) :
    sec = .ack i ∨ ∃ s, u' = .settling s ∧ s.message.id = i := by
  cases h with
  | ack _ =>
      cases hi
      exact .inl rfl
  | @release _ _ s _ => exact .inr ⟨s, rfl, Option.some.inj hi⟩
  | enqueue _ | schedule _ | clientEnqueue _ => cases hi
  | deliver s => cases hi

/-- What moves a message on moves it to another place. -/
theorem Kept.mono {acked acked' : Prop} {b b' : MemoryBroker}
    {phase phase' : LoopPhase MemoryFuture} {stages stages' : List CrewStage}
    (h : Kept i acked b phase stages)
    (hqueued : b.queued i ≤ b'.queued i)
    (hprocessing : i ∈ b.processing → Kept i acked' b' phase' stages')
    (hdead : b.dead i ≤ b'.dead i) (hacked : acked → acked')
    (hsettling : ∀ u ∈ stages, u.settling = some i → Kept i acked' b' phase' stages')
    (hhand : ∀ m, phase = .dequeuing (.tracking m) → m.id = i → Kept i acked' b' phase' stages') :
    Kept i acked' b' phase' stages' := by
  cases h with
  | queued h => exact .queued (Nat.lt_of_lt_of_le h hqueued)
  | processing h => exact hprocessing h
  | dead h => exact .dead (Nat.lt_of_lt_of_le h hdead)
  | acked h => exact .acked (hacked h)
  | settling u hu h => exact hsettling u hu h
  | inHand m hm h => exact hhand m hm h

/-- One thread has moved on: it was this one, or one that is still there. -/
theorem mem_replaced {before after : List CrewStage} {u u' v : CrewStage}
    (h : v ∈ before ++ u :: after) : v = u ∨ v ∈ before ++ u' :: after := by
  simp only [List.mem_append, List.mem_cons] at h ⊢
  tauto

/-- A call that leaves the broker as it is, and a settling call where it is. -/
theorem Kept.quiet {acked acked' : Prop} {phase : LoopPhase MemoryFuture}
    {before after : List CrewStage} {u u' : CrewStage}
    (h : Kept i acked b phase (before ++ u :: after)) (hacked : acked → acked')
    (hsettling : u.settling = some i → u'.settling = some i) :
    Kept i acked' b phase (before ++ u' :: after) := by
  refine h.mono (le_refl _) .processing (le_refl _) hacked (fun v hv hvi => ?_) fun m => .inHand m
  rcases mem_replaced hv with rfl | hv
  · exact .settling u' (by simp) (hsettling hvi)
  · exact .settling v hv hvi

/-- A section of the broker: what it takes out of the processing map it acknowledges or begins to
settle, and a settling call ends with the message in a queue. -/
theorem Kept.section {acked : Prop} {phase : LoopPhase MemoryFuture}
    {before after : List CrewStage} {v v' : Option Role} {sec : Section}
    (h : Kept i acked b phase (before ++ .live (.inside v sec) :: after))
    (hstep : CrewStep codec v (.broker sec) () v') :
    Kept i (acked ∨ sec = .ack i) (b.run sec) phase (before ++ .live (.free v') :: after) := by
  refine h.mono (queued_run_le sec) (fun hi => ?_) (dead_run_le sec) .inl (fun u hu hui => ?_)
    fun m => .inHand m
  · by_cases hforgets : sec.forgets = some i
    · cases hstep with
      | client _ hproduces => cases sec <;> first | exact hproduces.elim | cases hforgets
      | role hrole =>
          rcases hrole.of_forgets hforgets with rfl | ⟨st, rfl, hid⟩
          · exact .acked (.inr rfl)
          · exact .settling (.live (.free (some (.settling st)))) (by simp) (congrArg some hid)
    · exact .processing (mem_run_processing.mpr ⟨hi, hforgets⟩)
  · rcases mem_replaced hu with rfl | hu
    · rw [CrewStage.settling_inside] at hui
      obtain ⟨st, rfl, hop⟩ := hstep.of_settling hui
      cases hop
      rcases delivered (b := b) st with hin | hin
      · exact .queued hin
      · exact .dead hin
    · exact .settling u hu hui

end Places

section Runs

variable {S : Service resultBackendTrait} {codec : Codec} {w : Worker} {queues : List String}
  {concurrency : Nat} {i : TaskId}

/-- The message is acknowledged in this step. -/
def acksIn (i : TaskId) (l : (memoryWorker S codec w queues concurrency).Label) : Prop :=
  l = .call ⟨.call (.broker (.run (.ack i))), some ()⟩

/-- A message with this identifier is enqueued in this step. -/
def enqueuesIn (i : TaskId) (l : (memoryWorker S codec w queues concurrency).Label) : Prop :=
  ∃ m : TaskMessage, m.id = i ∧ l = .call ⟨.call (.broker (.run (.enqueue m))), some ()⟩

/-- A call of a thread keeps every message somewhere. -/
theorem Kept.call {acked : Prop} {s s' : (memoryWorker S codec w queues concurrency).State}
    {o : (lockedMemory S).Oracle × Bool} {op : (spawned lockedInterface).Op}
    {r : (spawned lockedInterface).Res op} {before after : List CrewStage} {u u' : CrewStage}
    (h : Kept i acked s.1.1.broker s.2.phase (before ++ u :: after))
    (hr : (memoryWorker S codec w queues concurrency).respond o s op = some (r, s'))
    (hstep : CrewTaskStep codec u op r u') :
    Kept i (acked ∨ acksIn i
      (.call ⟨op, r⟩ : (memoryWorker S codec w queues concurrency).Label))
      s'.1.1.broker s'.2.phase (before ++ u' :: after) := by
  cases hstep with
  | call hstep =>
      obtain ⟨hservice, hloop⟩ := loop_respond hr
      have hphase : s'.2.phase = s.2.phase := congrArg _ hloop
      rw [hphase]
      rcases locked_respond hservice with ⟨sec, hsec, hbroker⟩ | ⟨hne, hbroker⟩
      · rw [hbroker]
        cases hstep with
        | runtime hcrew | backend hcrew => cases hsec
        | acquire hcrew => cases hsec
        | run hcrew =>
            cases hsec
            refine (h.section hcrew).mono le_rfl .processing le_rfl (fun hacked => ?_)
              (fun u hu => .settling u hu) fun m => .inHand m
            exact hacked.imp_right fun hack => by rw [hack]; rfl
      · rw [hbroker]
        refine h.quiet .inl fun hu => ?_
        cases hstep with
        | runtime hcrew | backend hcrew =>
            obtain ⟨st, -, hop⟩ := hcrew.of_settling hu
            cases hop
        | acquire hcrew => rwa [CrewStage.settling_inside]
        | run hcrew => exact absurd rfl (hne _)
  | @panic t op hsteps =>
      obtain ⟨rfl, hpanics⟩ := loop_panic hr
      refine h.quiet .inl fun hu => ?_
      -- a hook or a handler is not called between the two sections
      cases op with
      | broker _ => cases hpanics
      | backend _ => cases hpanics
      | runtime op =>
          obtain ⟨t', hstep⟩ := hsteps (stillRuntime op)
          cases hstep with
          | runtime hcrew =>
              obtain ⟨st, -, hop⟩ := hcrew.of_settling hu
              cases hop
  | finish hfinal =>
      obtain ⟨hstate, hphase⟩ := loop_dropPermit hr
      rw [hphase, hstate]
      exact h.quiet .inl fun hu => absurd hfinal (not_final_of_settling hu)
  | unwound =>
      obtain ⟨hstate, hphase⟩ := loop_dropPermit hr
      rw [hphase, hstate]
      exact h.quiet .inl nofun

/-- `dequeue` is dropped in this step with a message in its hands. -/
def DropsMessage (c : (memoryWorker S codec w queues concurrency).Config)
    (l : (memoryWorker S codec w queues concurrency).Label) : Prop :=
  l = .env .quit ∧ ∃ m, c.state.2.phase = .dequeuing (.tracking m)

/-- A poll that returns no message keeps every message somewhere. -/
theorem Kept.polled {acked : Prop} {s s' : LockedBroker} {future : MemoryFuture}
    {out : Poll MemoryFuture} {phase' : LoopPhase MemoryFuture} {stages : List CrewStage}
    (h : Kept i acked s.broker (.dequeuing future) stages)
    (hpoll : LockedBroker.Polled queues s future out s')
    (hout : ∀ m, out ≠ .ready (.ok (some m)))
    (hnext : ∀ next, out = .pending next → phase' = .dequeuing next) :
    Kept i acked s'.broker phase' stages := by
  cases hpoll with
  | quiet _ hnot _ | timeout _ hnot =>
      refine h.mono (le_refl _) (fun hi => .processing hi) (le_refl _) id
        (fun u hu => .settling u hu) ?_
      intro m hm
      cases hm
      exact absurd rfl (hnot m)
  | @pop m b hpop _ =>
      have hqueued := MemoryBroker.queued_of_popFront hpop i
      obtain ⟨hdlq, hprocessing, -⟩ := MemoryBroker.popFront_frame hpop
      rw [hnext _ rfl]
      by_cases hid : m.id = i
      · exact .inHand m rfl hid
      · rw [unit_of_ne hid] at hqueued
        refine h.mono hqueued.le (fun hi => .processing (hprocessing ▸ hi)) ?_ id
          (fun u hu => .settling u hu) nofun
        show s.broker.dead i ≤ MemoryBroker.dead b i
        rw [MemoryBroker.dead, MemoryBroker.dead, hdlq]
  | found _ | tracked _ => exact absurd rfl (hout _)

/-- A message that `dequeue` returns is recorded. -/
theorem Kept.received {acked : Prop} {s s' : LockedBroker} {future : MemoryFuture}
    {m : TaskMessage} {phase' : LoopPhase MemoryFuture} {stages : List CrewStage}
    (h : Kept i acked s.broker (.dequeuing future) stages)
    (hpoll : LockedBroker.Polled queues s future (.ready (.ok (some m))) s') :
    Kept i acked s'.broker phase' stages := by
  cases hpoll with
  | @found _ b hpop =>
      have hqueued := MemoryBroker.queued_of_popFront hpop i
      obtain ⟨hdlq, hprocessing, -⟩ := MemoryBroker.popFront_frame hpop
      by_cases hid : m.id = i
      · exact .processing (MemoryBroker.mem_track.mpr (.inl hid.symm))
      · rw [unit_of_ne hid] at hqueued
        refine h.mono hqueued.le (fun hi => .processing ?_) ?_ id (fun u hu => .settling u hu) nofun
        · exact MemoryBroker.mem_track.mpr (.inr (hprocessing ▸ hi))
        · show s.broker.dead i ≤ MemoryBroker.dead b i
          rw [MemoryBroker.dead, MemoryBroker.dead, hdlq]
  | tracked _ =>
      refine h.mono (le_refl _) (fun hi => .processing ?_) (le_refl _) id
        (fun u hu => .settling u hu) ?_
      · exact MemoryBroker.mem_track.mpr (.inr hi)
      · intro m' hm hid
        cases hm
        exact .processing (MemoryBroker.mem_track.mpr (.inl hid.symm))

/-- A move of the loop keeps every message somewhere, unless it drops one. -/
theorem Kept.move {acked : Prop} {s s' : LockedBroker × S.State}
    {phase phase' : LoopPhase MemoryFuture} {stages : List CrewStage} {x : LoopMove Bool}
    {task : Option TaskMessage} (h : Kept i acked s.1.broker phase stages)
    (hstep : MemoryLoopStep S queues phase s x phase' s' task)
    (hgood : ¬ (x = .quit ∧ ∃ m, phase = .dequeuing (.tracking m))) :
    Kept i acked s'.1.broker phase' (stages ++ (task.map (spawnedStage w)).toList) := by
  have hmore : ∀ u ∈ stages, u ∈ stages ++ (task.map (spawnedStage w)).toList :=
    fun u hu => List.mem_append.mpr (.inl hu)
  have hstages : ∀ {b : MemoryBroker}, Kept i acked b phase' stages →
      Kept i acked b phase' (stages ++ (task.map (spawnedStage w)).toList) := fun hkept =>
    hkept.mono (le_refl _) .processing (le_refl _) id (fun u hu => .settling u (hmore u hu))
      fun m => .inHand m
  have hquiet : s'.1.broker.queues = s.1.broker.queues →
      s'.1.broker.processing = s.1.broker.processing → s'.1.broker.dlq = s.1.broker.dlq →
      (∀ m, phase ≠ .dequeuing (.tracking m)) → Kept i acked s'.1.broker phase' stages := by
    intro hqueues hprocessing hdlq hnot
    refine h.mono ?_ (fun hi => .processing (hprocessing ▸ hi)) ?_ id (fun u hu => .settling u hu)
      fun m hm => absurd hm (hnot m)
    · rw [MemoryBroker.queued, MemoryBroker.queued, hqueues]
    · rw [MemoryBroker.dead, MemoryBroker.dead, hdlq]
  cases hstep with
  | stay _ _ _ => exact hstages h
  | move _ _ hcalm _ =>
      refine hstages (hquiet rfl rfl rfl ?_)
      rintro m rfl
      cases hcalm
  | take _ => exact hstages (hquiet rfl rfl rfl nofun)
  | quit future _ =>
      obtain ⟨hqueues, hprocessing, hdlq⟩ := LockedBroker.dropDequeue_frame 0 future s.1
      refine hstages (hquiet hqueues hprocessing hdlq ?_)
      intro m hm
      exact hgood ⟨rfl, m, hm⟩
  | pending hpoll =>
      refine hstages (h.polled (memory_poll hpoll) nofun ?_)
      rintro next heq
      cases heq
      rfl
  | nothing hpoll hout _ =>
      refine hstages (h.polled (memory_poll hpoll) ?_ nofun)
      rintro m heq
      cases heq
      exact hout m rfl
  | receive hpoll => exact hstages (h.received (memory_poll hpoll))
  | spawn m _ => exact hstages (hquiet rfl rfl rfl nofun)

/-- A message that is enqueued waits in its queue. -/
theorem queued_of_enqueues {s s' : (memoryWorker S codec w queues concurrency).State}
    {o : (lockedMemory S).Oracle × Bool} {op : (spawned lockedInterface).Op}
    {r : (spawned lockedInterface).Res op}
    (hr : (memoryWorker S codec w queues concurrency).respond o s op = some (r, s'))
    (h : enqueuesIn i (.call ⟨op, r⟩ : (memoryWorker S codec w queues concurrency).Label)) :
    0 < s'.1.1.broker.queued i := by
  obtain ⟨m, rfl, heq⟩ := h
  cases heq
  rcases locked_respond (loop_respond hr).1 with ⟨sec, hsec, hbroker⟩ | ⟨hne, -⟩
  · cases hsec
    rw [hbroker]
    show 0 < (s.1.1.broker.enqueue m).queued m.id
    rw [MemoryBroker.queued_enqueue, unit_self]
    omega
  · exact absurd rfl (hne _)

/-- The condition on a step, where threads are stages. -/
def StagedKeeps (c : Machine.Staged (memoryWorker S codec w queues concurrency) (crewTasks codec))
    (l : (memoryWorker S codec w queues concurrency).Label) : Prop :=
  ¬ (l = .env .quit ∧ ∃ m, c.state.2.phase = .dequeuing (.tracking m))

/-- What holds along the runs of the staged worker in which no message is dropped. -/
theorem kept_of_reach {s₀ : S.State} {clients : List CrewStage}
    {tr : List (memoryWorker S codec w queues concurrency).Label}
    {c : Machine.Staged (memoryWorker S codec w queues concurrency) (crewTasks codec)}
    (h : Machine.StagedReachIf (P := crewTasks codec) StagedKeeps (workerEntry w queues concurrency)
      ⟨((LockedBroker.free .new, s₀), .new (memoryDequeue S queues) concurrency), clients⟩ tr c)
    (henqueued : ∃ l ∈ tr, enqueuesIn i l) :
    Kept i (∃ l ∈ tr, acksIn i l) c.state.1.1.broker c.state.2.phase c.stages := by
  induction h with
  | start =>
      obtain ⟨l, hl, -⟩ := henqueued
      cases hl
  | @step tr c c' l _ hgood hstep ih =>
      have hlater : ∀ {f : (memoryWorker S codec w queues concurrency).Label → Prop},
          (∃ l ∈ tr, f l) → ∃ l' ∈ tr ++ [l], f l' := by
        rintro f ⟨l', hl', hf⟩
        exact ⟨l', List.mem_append.mpr (.inl hl'), hf⟩
      have hlast : ∃ l' ∈ tr ++ [l], l' = l :=
        ⟨l, List.mem_append.mpr (.inr (List.mem_singleton.mpr rfl)), rfl⟩
      by_cases hbefore : ∃ l ∈ tr, enqueuesIn i l
      · have hkept := ih hbefore
        cases hstep with
        | @call o s s' op r u u' before after hr hp =>
            refine (hkept.call hr hp).mono (le_refl _) .processing (le_refl _) ?_
              (fun v hv => .settling v hv) fun m => .inHand m
            rintro (hacked | hacked)
            · exact hlater hacked
            · obtain ⟨l', hl', rfl⟩ := hlast
              exact ⟨_, hl', hacked⟩
        | @env x s s' stages new haccept =>
            obtain ⟨task, hmove, hentry⟩ := worker_accept haccept
            rw [hentry]
            refine (hkept.move hmove ?_).mono (le_refl _) .processing (le_refl _) hlater
              (fun v hv => .settling v hv) fun m => .inHand m
            rintro ⟨rfl, hhand⟩
            exact hgood ⟨rfl, hhand⟩
      · obtain ⟨l', hl', henqueues⟩ := henqueued
        rcases List.mem_append.mp hl' with hl' | hl'
        · exact absurd ⟨l', hl', henqueues⟩ hbefore
        · obtain rfl := List.mem_singleton.mp hl'
          cases hstep with
          | call o before after hr hp => exact .queued (queued_of_enqueues hr henqueues)
          | env x stages haccept =>
              obtain ⟨m, -, heq⟩ := henqueues
              cases heq

/-- Message `i` is in a queue, in the processing map, in a dead-letter queue,
acknowledged, or executed. -/
def Somewhere (n : Nat) (i : TaskId) (tr : List (memoryWorker S codec w queues concurrency).Label)
    (c : (memoryWorker S codec w queues concurrency).Config) : Prop :=
  0 < c.state.1.1.broker.queued i ∨ i ∈ c.state.1.1.broker.processing ∨
    0 < c.state.1.1.broker.dead i ∨ (∃ l ∈ tr, acksIn i l) ∨ Executing n i tr c

/-- Every message that was enqueued is somewhere, or in the hands of a `dequeue` that
has not returned. -/
def NothingLost (n : Nat) (tr : List (memoryWorker S codec w queues concurrency).Label)
    (c : (memoryWorker S codec w queues concurrency).Config) : Prop :=
  ∀ i, (∃ l ∈ tr, enqueuesIn i l) → Somewhere n i tr c ∨
    ∃ m, c.state.2.phase = .dequeuing (.tracking m) ∧ m.id = i

/-- Shutdown loses no message in a run in which `dequeue` is never dropped while it
waits, with a message popped, for the lock of the processing map. -/
theorem nothing_lost {s₀ : S.State} {clients : List (Prog memoryInterface Unit)}
    (hclients : ∀ p ∈ clients, p.Calls Produces)
    {tr : List (memoryWorker S codec w queues concurrency).Label}
    {c : (memoryWorker S codec w queues concurrency).Config}
    (h : Machine.ReachIf (fun c l => ¬ DropsMessage c l)
      (memoryWorkerStart S codec w queues concurrency s₀ clients) tr c) :
    NothingLost clients.length tr c := by
  obtain ⟨stages, hstaged, hall⟩ : ∃ stages, Machine.StagedReachIf (P := crewTasks codec)
      StagedKeeps (workerEntry w queues concurrency)
      ⟨((LockedBroker.free .new, s₀), .new (memoryDequeue S queues) concurrency),
        clients.map fun _ => .live (.free none)⟩ tr ⟨c.state, stages⟩ ∧
      List.Forall₂ (Prog.Follows (crewTasks codec)) c.threads stages :=
    h.staged worker_entry (fun _ _ _ _ hgood => hgood) (clients_beside hclients)
  have howned := owned_of_reach (clientStages_messageId clients) hstaged.reach
  rw [List.length_map] at howned
  intro i henqueued
  cases kept_of_reach hstaged henqueued with
  | queued h => exact .inl (.inl h)
  | processing h => exact .inl (.inr (.inl h))
  | dead h => exact .inl (.inr (.inr (.inl h)))
  | acked h => exact .inl (.inr (.inr (.inr (.inl h))))
  | settling u hu hi =>
      refine .inl (.inr (.inr (.inr (.inr ?_))))
      exact executing_of_stage hall howned hu (CrewStage.messageId_of_settling hi)
        (not_final_of_settling hi)
  | inHand m hm hid => exact .inr ⟨m, hm, hid⟩

end Runs

/-! ## A shutdown while a task acknowledges -/

/-- Two messages are enqueued; the first is dequeued, and its task comes to the
acknowledgement: it has the lock of the processing map.  The loop comes to `dequeue`
again. -/
def contended : List smallWorker.Move :=
  turns 0 2 false ++ turns 1 2 false ++ intoDequeue ++
    [.env (.receive false ⟨7⟩), .env .spawn] ++ turns 2 3 false ++ intoDequeue

/-- The task runs to its end, and the worker stops. -/
def taskEnds : List smallWorker.Move := turns 2 3 false ++ [.env (.inspect false)]

/-- The worker is cancelled before `dequeue` has looked into the queues. -/
def cancelsEarly : List smallWorker.Move := contended ++ [.env .cancel, .env .quit] ++ taskEnds

theorem cancelsEarly_plays : ((smallOrigin [⟨7⟩, ⟨8⟩]).playAll cancelsEarly).isSome = true := by
  decide +kernel

/-- How that ends. -/
def cancelsEarlyEnd : List smallWorker.Label × smallWorker.Config :=
  ((smallOrigin [⟨7⟩, ⟨8⟩]).playAll cancelsEarly).get cancelsEarly_plays

/-- The step drops `dequeue`. -/
def quits : smallWorker.Label → Bool
  | .env .quit => true
  | _ => false

/-- Message `i` is enqueued in this step. -/
def enqueuesId (i : TaskId) : smallWorker.Label → Bool
  | .call ⟨.call (.broker (.run (.enqueue m))), some _⟩ => m.id = i
  | _ => false

theorem enqueuesIn_of_enqueuesId {i : TaskId} {l : smallWorker.Label}
    (h : enqueuesId i l = true) : enqueuesIn i l := by
  unfold enqueuesId at h
  split at h
  · rename_i m _
    exact ⟨m, of_decide_eq_true h, rfl⟩
  · cases h

theorem exists_enqueuesIn {i : TaskId} {tr : List smallWorker.Label}
    (h : tr.any (enqueuesId i) = true) : ∃ l ∈ tr, enqueuesIn i l := by
  obtain ⟨l, hl, hi⟩ := List.any_eq_true.mp h
  exact ⟨l, hl, enqueuesIn_of_enqueuesId hi⟩

/-- `dequeue` has a message in its hands. -/
def hasInHand (c : smallWorker.Config) : Bool :=
  match c.state.2.phase with
  | .dequeuing (.tracking _) => true
  | _ => false

/-- The step does not drop a message. -/
def keepsHand (c : smallWorker.Config) (l : smallWorker.Label) : Bool :=
  !(quits l && hasInHand c)

theorem not_dropsMessage {c : smallWorker.Config} {l : smallWorker.Label}
    (h : keepsHand c l = true) : ¬ DropsMessage c l := by
  rintro ⟨rfl, m, hm⟩
  simp [keepsHand, quits, hasInHand, hm] at h

/-- The second message is still in its queue. -/
theorem nothing_lost_cancelsEarly :
    smallWorker.Reach (smallOrigin [⟨7⟩, ⟨8⟩]) cancelsEarlyEnd.1 cancelsEarlyEnd.2 ∧
      cancelsEarlyEnd.1.any (enqueuesId ⟨8⟩) = true ∧
      0 < cancelsEarlyEnd.2.state.1.1.broker.queued ⟨8⟩ ∧
      NothingLost 2 cancelsEarlyEnd.1 cancelsEarlyEnd.2 := by
  have hreach : smallWorker.Reach (smallOrigin [⟨7⟩, ⟨8⟩]) cancelsEarlyEnd.1 cancelsEarlyEnd.2 :=
    Machine.Config.reach_of_get cancelsEarly_plays
  have hplays : (smallOrigin [⟨7⟩, ⟨8⟩]).playAll cancelsEarly =
      some (cancelsEarlyEnd.1, cancelsEarlyEnd.2) := (Option.some_get cancelsEarly_plays).symm
  have hkeeps : (smallOrigin [⟨7⟩, ⟨8⟩]).keeps keepsHand cancelsEarly = true := by decide +kernel
  have hif : Machine.ReachIf (fun c l => ¬ DropsMessage c l) (smallOrigin [⟨7⟩, ⟨8⟩])
      cancelsEarlyEnd.1 cancelsEarlyEnd.2 :=
    Machine.Config.reachIf_of_keeps (fun _ _ => not_dropsMessage) hplays hkeeps
  have hlost := nothing_lost (@oneClient_produces [⟨7⟩, ⟨8⟩]) hif
  exact ⟨hreach, by decide +kernel, by decide +kernel, hlost⟩

/-- The worker is cancelled while `dequeue` waits for the lock of the processing map. -/
def cancelsLate : List smallWorker.Move :=
  contended ++ [.env (.poll false), .env .cancel, .env .quit] ++ taskEnds

theorem cancelsLate_plays : ((smallOrigin [⟨7⟩, ⟨8⟩]).playAll cancelsLate).isSome = true := by
  decide +kernel

/-- How that ends. -/
def cancelsLateEnd : List smallWorker.Label × smallWorker.Config :=
  ((smallOrigin [⟨7⟩, ⟨8⟩]).playAll cancelsLate).get cancelsLate_plays

/-- Message `i` is acknowledged in this step. -/
def acksId (i : TaskId) : smallWorker.Label → Bool
  | .call ⟨.call (.broker (.run (.ack j))), some _⟩ => j = i
  | _ => false

/-- A message that was popped is dropped with the future: the second message was
enqueued, and it is in no queue, not in the processing map, not in a dead-letter queue,
not acknowledged, and no task executes. -/
theorem message_lost :
    smallWorker.Reach (smallOrigin [⟨7⟩, ⟨8⟩]) cancelsLateEnd.1 cancelsLateEnd.2 ∧
      ¬ NothingLost 2 cancelsLateEnd.1 cancelsLateEnd.2 := by
  have hreach : smallWorker.Reach (smallOrigin [⟨7⟩, ⟨8⟩]) cancelsLateEnd.1 cancelsLateEnd.2 :=
    Machine.Config.reach_of_get cancelsLate_plays
  have henqueued : cancelsLateEnd.1.any (enqueuesId ⟨8⟩) = true := by decide +kernel
  have hqueued : cancelsLateEnd.2.state.1.1.broker.queued ⟨8⟩ = 0 := by decide +kernel
  have hmap : (cancelsLateEnd.2.state.1.1.broker.processing.lookup ⟨8⟩).isSome = false := by
    decide +kernel
  have hdead : cancelsLateEnd.2.state.1.1.broker.dead ⟨8⟩ = 0 := by decide +kernel
  have hacked : cancelsLateEnd.1.any (acksId ⟨8⟩) = false := by decide +kernel
  have hidle : cancelsLateEnd.2.threads.all (fun p => !running p) = true := by decide +kernel
  have hhand : hasInHand cancelsLateEnd.2 = false := by decide +kernel
  refine ⟨hreach, fun hall => ?_⟩
  rcases hall ⟨8⟩ (exists_enqueuesIn henqueued) with
    (hin | hin | hin | ⟨l, hl, hack⟩ | ⟨j, p, hp, hrunning, -⟩) | ⟨m, hm, -⟩
  · omega
  · rw [AList.lookup_isSome.mpr hin] at hmap
    cases hmap
  · omega
  · have hnot := List.any_eq_false.mp hacked l hl
    rw [hack] at hnot
    exact hnot (by simp [acksId])
  · have hstopped := List.all_eq_true.mp hidle p (List.mem_of_getElem? hp)
    rw [hrunning] at hstopped
    cases hstopped
  · rw [hasInHand, hm] at hhand
    cases hhand

end Kojin.Core
