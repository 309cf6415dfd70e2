/-
  Core/MemoryWorker.lean --- a worker over the in-memory broker (`kojin-core`:
  `worker.rs`, `memory_broker.rs`).

  The loop of `Worker::run` awaits the future of `MemoryBroker::dequeue` and spawns the
  executions; beside it run clients that enqueue.  The broker has its locks, and a call
  of a hook or a handler may panic.

  A task is known by its place: the messages that the loop has received, in order, are
  those of the tasks behind the clients (`Owned`).
-/
import Kojin.Core.MemoryDequeue

set_option autoImplicit false

namespace Kojin.Core

open Kojin.Foundation

/-! ## A worker over the in-memory broker -/

section Worker

variable (S : Service resultBackendTrait) (codec : Codec) (w : Worker) (queues : List String)
  (concurrency : Nat)

/-- The broker with its locks, and a result backend. -/
abbrev lockedMemory : Service lockedInterface := systemService LockedBroker.service S

/-- The worker's `dequeue`.  A poll is told whether the time is up. -/
def memoryDequeue : Dequeue (lockedMemory S).State where
  Future := MemoryFuture
  Input := Bool
  start := .locking
  poll timedOut future s :=
    (LockedBroker.pollDequeue queues 0 timedOut future s.1).map fun p => (p.1, (p.2, s.2))
  drop future s := (LockedBroker.dropDequeue 0 future s.1, s.2)

/-- The steps of the loop with that `dequeue`. -/
abbrev MemoryLoopStep (S : Service resultBackendTrait) (queues : List String) :
    LoopPhase MemoryFuture → LockedBroker × S.State → LoopMove Bool → LoopPhase MemoryFuture →
      LockedBroker × S.State → Option TaskMessage → Prop :=
  LoopStep .locking (memoryDequeue S queues).poll (memoryDequeue S queues).drop

/-- The execution of a message, on the broker with its locks. -/
def memoryTask (m : TaskMessage) : Prog lockedInterface Unit :=
  onLocks (onMemory (executeTask w codec m))

/-- `Worker::run` over the in-memory broker. -/
abbrev memoryWorker : Machine (spawned lockedInterface) :=
  workerLoop (lockedMemory S) (memoryDequeue S queues) (memoryTask codec w) concurrency

/-- The worker at its start: the broker is empty, and clients run beside it. -/
def memoryWorkerStart (s₀ : S.State) (clients : List (Prog memoryInterface Unit)) :
    (memoryWorker S codec w queues concurrency).Config :=
  ⟨((LockedBroker.free .new, s₀), .new (memoryDequeue S queues) concurrency),
    clients.map fun p => beside (onLocks p)⟩

end Worker

/-! ## Whose message a task executes -/

/-- The message an execution has, until it has given it back. -/
def Stage.messageId : Stage → Option TaskId
  | .received _ m => some m.id
  | .cleared _ m => some m.id
  | .postponed m _ => some m.id
  | .released m _ => some m.id
  | .running _ m => some m.id
  | .erred m => some m.id
  | .failed m => some m.id
  | .toRetry m => some m.id
  | .toBury m => some m.id
  | .succeeded _ m _ => some m.id
  | .acked _ m _ => some m.id
  | .stored m _ => some m.id
  | .calling m _ _ => some m.id
  | .collected m _ _ => some m.id
  | .wrapping m _ => some m.id
  | .minting m _ _ => some m.id
  | .continuing m _ _ => some m.id
  | .chained m _ => some m.id
  | .finished m _ => some m.id
  | .gone => none

/-- An execution goes on with the same message until it has given it back. -/
theorem Stage.Step.messageId_eq {codec : Codec} {t t' : Stage} {op : traits.Op}
    {r : traits.Res op} (h : Stage.Step codec t op r t') :
    t'.messageId = t.messageId ∨ t'.messageId = none := by
  cases h with
  | reschedule | nack | deadLetter => exact .inr rfl
  | _ => exact .inl rfl

namespace Role

/-- The message a thread executes. -/
def messageId : Role → Option TaskId
  | .exec t => t.messageId
  | .settling s => some s.message.id
  | .client _ => none

/-- A thread goes on with the same message until it has given it back. -/
theorem Step.messageId_eq {codec : Codec} {u u' : Role} {op : memoryInterface.Op}
    {r : memoryInterface.Res op} (h : Role.Step codec u op r u') :
    u'.messageId = u.messageId ∨ u'.messageId = none := by
  cases h with
  | runtime hp | backend hp | enqueue hp | ack hp | schedule hp => exact hp.messageId_eq
  | @release t t' s hp =>
      left
      cases s with
      | nack m =>
          cases hp
          rfl
      | deadLetter m =>
          cases hp
          rfl
  | deliver s => exact .inr rfl
  | clientRuntime _ | clientBackend _ | clientEnqueue _ => exact .inl rfl

end Role

/-! ## The threads of the worker -/

/-- A client only enqueues. -/
def Produces : memoryInterface.Op → Prop
  | .broker (.enqueue _) => True
  | .broker (.schedule _ _) => True
  | .broker _ => False
  | _ => True

/-- The calls of a client, or of an execution. -/
inductive CrewStep (codec : Codec) : Option Role → (op : memoryInterface.Op) →
    memoryInterface.Res op → Option Role → Prop where
  | client {op : memoryInterface.Op} (r : memoryInterface.Res op) :
      Produces op → CrewStep codec none op r none
  | role {u u' : Role} {op : memoryInterface.Op} {r : memoryInterface.Res op} :
      Role.Step codec u op r u' → CrewStep codec (some u) op r (some u')

/-- A client may stop anywhere, an execution where it may. -/
def CrewFinal (u : Option Role) : Prop := ∀ v, u = some v → v.Final

/-- The protocol of the threads. -/
abbrev crew (codec : Codec) : Protocol memoryInterface :=
  ⟨Option Role, CrewStep codec, CrewFinal⟩

/-- The stages of the threads of a worker. -/
abbrev CrewStage : Type := TaskStage (LockedStage (Option Role))

/-- The calls of the threads, with locks, as tasks. -/
abbrev CrewTaskStep (codec : Codec) : CrewStage → (op : (spawned lockedInterface).Op) →
    (spawned lockedInterface).Res op → CrewStage → Prop :=
  TaskStep (LockedStep (CrewStep codec)) (LockedStage.Final CrewFinal)

/-- The protocol of the tasks. -/
abbrev crewTasks (codec : Codec) : Protocol (spawned lockedInterface) :=
  tasks (withLock (crew codec))

theorem follows_client {codec : Codec} {p : Prog memoryInterface Unit} (h : p.Calls Produces) :
    p.Follows (crew codec) none := by
  induction p with
  | ret a => exact fun v hv => nomatch hv
  | call op k ih => exact fun r => ⟨none, .client r h.1, ih r (h.2 r)⟩

/-- An execution of a message, as a task. -/
theorem follows_task {codec : Codec} (w : Worker) (m : TaskMessage) :
    (spawn (memoryTask codec w m)).Follows (crewTasks codec)
      (.live (.free (some (.exec (.received w.hasBackend m))))) := by
  refine follows_spawn (follows_onLocks (P := crew codec) ?_)
  refine Prog.Follows.simulated (fun (t : Role) u => u = some t) ?_ ?_ rfl (executeTask_role w m)
  · rintro t u op r t' rfl h
    exact ⟨some t', .role h, rfl⟩
  · rintro t u rfl h v hv
    cases hv
    exact h

/-- The message a task has in hand. -/
def CrewStage.messageId : CrewStage → Option TaskId
  | .live (.free (some u)) => u.messageId
  | .live (.inside (some u) _) => u.messageId
  | _ => none

/-- A task goes on with the same message until it has given it back. -/
theorem CrewStage.messageId_eq {codec : Codec} {u u' : CrewStage}
    {op : (spawned lockedInterface).Op} {r : (spawned lockedInterface).Res op}
    (h : CrewTaskStep codec u op r u') :
    CrewStage.messageId u' = CrewStage.messageId u ∨ CrewStage.messageId u' = none := by
  cases h with
  | call hstep =>
      cases hstep with
      | runtime hcrew | backend hcrew | run hcrew =>
          cases hcrew with
          | client _ _ => exact .inr rfl
          | role hrole => exact hrole.messageId_eq
      | acquire hcrew => cases hcrew <;> exact .inl rfl
  | panic _ => exact .inr rfl
  | finish _ => exact .inr rfl
  | unwound => exact .inr rfl

/-! ## The tasks are those of the messages received -/

section Runs

variable {S : Service resultBackendTrait} {codec : Codec} {w : Worker} {queues : List String}
  {concurrency : Nat}

/-- What a call does to the messages: nothing, or what its section does. -/
theorem locked_respond {o : (lockedMemory S).Oracle} {s s' : (lockedMemory S).State}
    {op : lockedInterface.Op} {r : lockedInterface.Res op}
    (h : (lockedMemory S).respond o s op = some (r, s')) :
    (∃ sec, op = .broker (.run sec) ∧ s'.1.broker = s.1.broker.run sec) ∨
      (∀ sec, op ≠ .broker (.run sec)) ∧ s'.1.broker = s.1.broker := by
  cases op with
  | runtime op =>
      cases h
      exact .inr ⟨nofun, rfl⟩
  | backend op =>
      obtain ⟨p, -, heq⟩ := Option.map_eq_some_iff.mp h
      cases heq
      exact .inr ⟨nofun, rfl⟩
  | broker op =>
      obtain ⟨p, hp, heq⟩ := Option.map_eq_some_iff.mp h
      cases heq
      cases op with
      | acquire l =>
          obtain ⟨-, heq⟩ := (Option.ite_none_left_eq_some).mp hp
          cases heq
          exact .inr ⟨nofun, rfl⟩
      | run sec =>
          cases hp
          exact .inl ⟨sec, rfl, rfl⟩

/-- A poll of the worker's `dequeue`. -/
theorem memory_poll {timedOut : Bool} {future : MemoryFuture} {out : Poll MemoryFuture}
    {s s' : LockedBroker × S.State}
    (h : (memoryDequeue S queues).poll timedOut future s = some (out, s')) :
    LockedBroker.Polled queues s.1 future out s'.1 := by
  obtain ⟨⟨out', t⟩, hpoll, heq⟩ := Option.map_eq_some_iff.mp h
  cases heq
  exact LockedBroker.pollDequeue_cases hpoll

/-- A task that is spawned begins with its message. -/
def spawnedStage (w : Worker) (m : TaskMessage) : CrewStage :=
  .live (.free (some (.exec (.received w.hasBackend m))))

/-- The stages of the tasks that a move of the loop spawns. -/
def workerEntry (w : Worker) (queues : List String) (concurrency : Nat) (x : LoopMove Bool)
    (s : (lockedMemory S).State × WorkerRun MemoryFuture) : List CrewStage :=
  match WorkerRun.step (D := memoryDequeue S queues) concurrency s.2 s.1 x with
  | some (_, some m) => [spawnedStage w m]
  | _ => []

theorem worker_entry (x : LoopMove Bool) (s s' : (memoryWorker S codec w queues concurrency).State)
    (new : List (Prog (spawned lockedInterface) Unit))
    (h : (memoryWorker S codec w queues concurrency).accept x s = some (s', new)) :
    List.Forall₂ (Prog.Follows (crewTasks codec)) new (workerEntry w queues concurrency x s) := by
  obtain ⟨⟨s₁, task⟩, hp, heq⟩ := Option.map_eq_some_iff.mp h
  cases heq
  simp only [workerEntry, hp]
  cases task with
  | none => exact .nil
  | some m => exact .cons (follows_task w m) .nil

/-- What a move of the loop does, and the tasks that it spawns. -/
theorem worker_accept {x : LoopMove Bool}
    {s s' : (memoryWorker S codec w queues concurrency).State}
    {new : List (Prog (spawned lockedInterface) Unit)}
    (h : (memoryWorker S codec w queues concurrency).accept x s = some (s', new)) :
    ∃ task, MemoryLoopStep S queues s.2.phase s.1 x s'.2.phase s'.1 task ∧
      workerEntry w queues concurrency x s = (task.map (spawnedStage w)).toList := by
  obtain ⟨⟨⟨s₁, l₁⟩, task⟩, hp, heq⟩ := Option.map_eq_some_iff.mp h
  cases heq
  refine ⟨task, loopStep hp, ?_⟩
  simp only [workerEntry, hp]
  cases task <;> rfl

/-- A thread replaced by another: every place holds what it held, or is the one. -/
theorem getElem?_replace {α : Type} {before after : List α} {a b c : α} {k : Nat}
    (h : (before ++ b :: after)[k]? = some c) :
    (before ++ a :: after)[k]? = some c ∨
      k = before.length ∧ c = b ∧ (before ++ a :: after)[k]? = some a := by
  rcases Nat.lt_trichotomy k before.length with hlt | heq | hgt
  · rw [List.getElem?_append_left hlt] at h ⊢
    exact .inl h
  · subst heq
    rw [List.getElem?_append_right (le_refl _), Nat.sub_self] at h ⊢
    cases h
    exact .inr ⟨rfl, rfl, rfl⟩
  · obtain ⟨j, rfl⟩ : ∃ j, k = before.length + (j + 1) := ⟨k - before.length - 1, by omega⟩
    rw [List.getElem?_append_right (by omega), Nat.add_sub_cancel_left] at h ⊢
    exact .inl h

/-- The tasks behind the `n` clients are those of the messages received. -/
structure Owned (n : Nat) (phase : LoopPhase MemoryFuture) (stages : List CrewStage)
    (got : List TaskId) : Prop where
  length : stages.length + phase.pending = n + got.length
  owns : ∀ k u i, stages[k]? = some u → u.messageId = some i → ∃ j, k = n + j ∧ got[j]? = some i
  spawning : ∀ m, phase = .spawning m → ∃ j, stages.length = n + j ∧ got[j]? = some m.id

theorem LoopPhase.pending_of_calm {φ : Type} {phase : LoopPhase φ} (h : phase.calm = true) :
    phase.pending = 0 := by
  cases phase <;> first | rfl | cases h

/-- A call of a thread. -/
theorem Owned.call {n : Nat} {phase : LoopPhase MemoryFuture} {before after : List CrewStage}
    {u u' : CrewStage} {got : List TaskId} (h : Owned n phase (before ++ u :: after) got)
    {op : (spawned lockedInterface).Op} {r : (spawned lockedInterface).Res op}
    (hstep : CrewTaskStep codec u op r u') : Owned n phase (before ++ u' :: after) got := by
  have hlength : (before ++ u' :: after).length = (before ++ u :: after).length := by simp
  refine ⟨hlength ▸ h.length, fun k v i hk hi => ?_, fun m hm => hlength ▸ h.spawning m hm⟩
  rcases getElem?_replace (a := u) hk with hk | ⟨rfl, rfl, hu⟩
  · exact h.owns k v i hk hi
  · rcases CrewStage.messageId_eq hstep with heq | hnone
    · exact h.owns _ u i hu (heq.symm.trans hi)
    · rw [hnone] at hi
      cases hi

/-- A move of the loop. -/
theorem Owned.move {n : Nat} {phase phase' : LoopPhase MemoryFuture} {stages : List CrewStage}
    {got : List TaskId} {x : LoopMove Bool} {s s' : LockedBroker × S.State}
    {task : Option TaskMessage} (h : Owned n phase stages got)
    (hstep : MemoryLoopStep S queues phase s x phase' s' task) :
    Owned n phase' (stages ++ (task.map (spawnedStage w)).toList)
      (got ++ (received (.env x : (memoryWorker S codec w queues concurrency).Label)).toList) := by
  have hquiet : ∀ {phase'' : LoopPhase MemoryFuture}, phase''.pending = phase.pending →
      (∀ m, phase'' ≠ .spawning m) → x.gets = 0 →
      Owned n phase'' (stages ++ [])
        (got ++ (received (.env x : (memoryWorker S codec w queues concurrency).Label)).toList) := by
    intro phase'' hpending hnot hx
    have hnone : received (.env x : (memoryWorker S codec w queues concurrency).Label) = none := by
      cases x <;> first | rfl | cases hx
    rw [hnone, Option.toList_none, List.append_nil, List.append_nil]
    exact ⟨hpending ▸ h.length, h.owns, fun m hm => absurd hm (hnot m)⟩
  cases hstep with
  | stay _ _ hx =>
      have hnone : received (.env x : (memoryWorker S codec w queues concurrency).Label) = none := by
        cases x <;> first | rfl | cases hx
      simpa [hnone] using h
  | move _ hx hcalm hcalm' =>
      refine hquiet ?_ ?_ hx
      · rw [LoopPhase.pending_of_calm hcalm, LoopPhase.pending_of_calm hcalm']
      · rintro m rfl
        cases hcalm'
  | take _ => exact hquiet rfl nofun rfl
  | quit _ _ => exact hquiet rfl nofun rfl
  | pending _ => exact hquiet rfl nofun rfl
  | nothing _ _ hcalm' =>
      refine hquiet (LoopPhase.pending_of_calm hcalm') ?_ rfl
      rintro m rfl
      cases hcalm'
  | @receive _ _ _ _ m _ =>
      have hlength : stages.length = n + got.length := h.length
      have hgot : (got ++ [m.id])[got.length]? = some m.id := by simp
      show Owned n _ (stages ++ []) (got ++ [m.id])
      rw [List.append_nil]
      refine ⟨?_, fun k v i hk hi => ?_, ?_⟩
      · rw [List.length_append, hlength]
        rfl
      · obtain ⟨j, rfl, hj⟩ := h.owns k v i hk hi
        have hlt := (List.getElem?_eq_some_iff.mp hj).1
        exact ⟨j, rfl, by rw [List.getElem?_append_left hlt, hj]⟩
      · intro m' hm
        cases hm
        exact ⟨got.length, hlength, hgot⟩
  | spawn m _ =>
      obtain ⟨j, hj, hgot⟩ := h.spawning m rfl
      have hlength : stages.length + 1 = n + got.length := h.length
      show Owned n _ (stages ++ [spawnedStage w m]) (got ++ [])
      rw [List.append_nil]
      refine ⟨?_, fun k v i hk hi => ?_, nofun⟩
      · rw [List.length_append]
        exact hlength
      · rcases Nat.lt_or_ge k stages.length with hlt | hge
        · rw [List.getElem?_append_left hlt] at hk
          exact h.owns k v i hk hi
        · have hk' : k = stages.length := by
            have hlt := (List.getElem?_eq_some_iff.mp hk).1
            rw [List.length_append, List.length_singleton] at hlt
            omega
          subst hk'
          rw [List.getElem?_append_right (le_refl _), Nat.sub_self] at hk
          cases hk
          cases hi
          exact ⟨j, hj, hgot⟩

/-- A task behind the `n` clients executes message `i`, and has not ended. -/
def Executing (n : Nat) (i : TaskId)
    (tr : List (memoryWorker S codec w queues concurrency).Label)
    (c : (memoryWorker S codec w queues concurrency).Config) : Prop :=
  ∃ j p, c.threads[n + j]? = some p ∧ running p = true ∧ (tr.filterMap received)[j]? = some i

/-- The clients have no messages of the loop. -/
theorem clientStages_messageId (clients : List (Prog memoryInterface Unit)) :
    ∀ u ∈ clients.map fun _ => (.live (.free none) : CrewStage), CrewStage.messageId u = none := by
  intro u hu
  obtain ⟨p, -, rfl⟩ := List.mem_map.mp hu
  rfl

/-- The tasks are those of the messages received, in every run. -/
theorem owned_of_reach {s₀ : S.State} {clients : List CrewStage}
    {tr : List (memoryWorker S codec w queues concurrency).Label}
    {c : Machine.Staged (memoryWorker S codec w queues concurrency) (crewTasks codec)}
    (hclients : ∀ u ∈ clients, CrewStage.messageId u = none)
    (h : Machine.StagedReach (crewTasks codec) (workerEntry w queues concurrency)
      ⟨((LockedBroker.free .new, s₀), .new (memoryDequeue S queues) concurrency), clients⟩ tr c) :
    Owned clients.length c.state.2.phase c.stages (tr.filterMap received) := by
  induction h with
  | start =>
      refine ⟨rfl, fun k u i hk hi => ?_, nofun⟩
      rw [hclients u (List.mem_of_getElem? hk)] at hi
      cases hi
  | step _ hstep ih =>
      rw [Machine.filterMap_snoc]
      cases hstep with
      | @call o s s' op r u u' before after hr hp =>
          have hphase : s'.2.phase = s.2.phase := by
            cases op with
            | dropPermit => exact (loop_dropPermit hr).2
            | call op =>
                cases r with
                | some r => rw [(loop_respond hr).2]
                | none => rw [(loop_panic hr).1]
          have hcall := ih.call hp
          rw [← hphase] at hcall
          simpa [received] using hcall
      | env x stages haccept =>
          obtain ⟨task, hmove, hentry⟩ := worker_accept haccept
          rw [hentry]
          exact ih.move hmove

/-- A task that has a message in hand, and at a stage where it does not stop, executes
it. -/
theorem executing_of_stage {n : Nat} {tr : List (memoryWorker S codec w queues concurrency).Label}
    {c : (memoryWorker S codec w queues concurrency).Config} {stages : List CrewStage}
    (hall : List.Forall₂ (Prog.Follows (crewTasks codec)) c.threads stages)
    (howned : Owned n c.state.2.phase stages (tr.filterMap received)) {u : CrewStage}
    {i : TaskId} (hu : u ∈ stages) (hi : u.messageId = some i)
    (hlive : ¬ TaskStage.Final (LockedStage.Final CrewFinal) u) : Executing n i tr c := by
  obtain ⟨k, hlt, hget⟩ := List.mem_iff_getElem.mp hu
  have hk : stages[k]? = some u := List.getElem?_eq_some_iff.mpr ⟨hlt, hget⟩
  obtain ⟨j, rfl, hj⟩ := howned.owns k u i hk hi
  have hlt' : n + j < c.threads.length := hall.length_eq ▸ hlt
  refine ⟨j, c.threads[n + j], List.getElem?_eq_getElem hlt', ?_, hj⟩
  have hfollows : Prog.Follows (crewTasks codec) c.threads[n + j] u := by
    have hat := hall.get hlt' hlt
    rw [List.get_eq_getElem, List.get_eq_getElem, hget] at hat
    exact hat
  cases hp : c.threads[n + j] with
  | ret a =>
      rw [hp] at hfollows
      exact absurd hfollows hlive
  | call op k => rfl

/-- The clients are beside the worker. -/
theorem clients_beside {clients : List (Prog memoryInterface Unit)}
    (hclients : ∀ p ∈ clients, p.Calls Produces) :
    List.Forall₂ (Prog.Follows (crewTasks codec)) (clients.map fun p => beside (onLocks p))
      (clients.map fun _ => .live (.free none)) := by
  induction clients with
  | nil => exact .nil
  | cons p clients ih =>
      have hp : p.Follows (crew codec) none := follows_client (hclients p List.mem_cons_self)
      exact .cons (follows_beside (follows_onLocks hp))
        (ih fun q hq => hclients q (List.mem_cons_of_mem p hq))

end Runs

/-! ## A small worker -/

/-- A worker without middlewares, with two permits, over the in-memory backend. -/
abbrev smallWorker : Machine (spawned lockedInterface) :=
  memoryWorker MemoryResultBackend.service blankCodec ⟨["t"], [], false⟩ ["q"] 2

/-- A client that enqueues one message. -/
def oneClient (id : TaskId) : Prog memoryInterface Unit :=
  Prog.perform (I := memoryInterface) (.broker (.enqueue (plainMessage id)))

theorem oneClient_produces {ids : List TaskId} :
    ∀ p ∈ ids.map oneClient, p.Calls Produces := by
  intro p hp
  obtain ⟨id, -, rfl⟩ := List.mem_map.mp hp
  exact ⟨trivial, fun _ => trivial⟩

/-- The clients are about to enqueue. -/
def smallOrigin (ids : List TaskId) : smallWorker.Config :=
  memoryWorkerStart MemoryResultBackend.service blankCodec ⟨["t"], [], false⟩ ["q"] 2
    MemoryResultBackend.new (ids.map oneClient)

/-- The `i`-th thread makes `n` calls, the last of which may panic. -/
def turns (i n : Nat) (panics : Bool) : List smallWorker.Move :=
  List.replicate n (.run i (⟨stillRuntime, (), ()⟩, panics))

/-- The loop comes to `dequeue`. -/
def intoDequeue : List smallWorker.Move := [.env .check, .env .acquire, .env .take]

end Kojin.Core
