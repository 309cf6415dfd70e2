/-
  Core/Settled.lean --- whether every dequeued message is settled (`kojin-core`:
  `worker.rs`, `memory_broker.rs`).

  `dequeue` records the message in the processing map; `ack`, `nack` and `dead_letter`
  remove it.  Every way through `execute_task` and `handle_failure` comes to one of
  these.  A panic of a hook or a handler comes to none: the task ends, its permit is
  dropped, and the message stays in the map.
-/
import Kojin.Core.MemoryWorker

set_option autoImplicit false

namespace Kojin.Core

open Kojin.Foundation

/-! ## Messages that have not been settled -/

/-- The message of an execution that has not come to the section which removes it from
the processing map. -/
def Stage.tracked : Stage → Option TaskId
  | .received _ m => some m.id
  | .cleared _ m => some m.id
  | .postponed m _ => some m.id
  | .running _ m => some m.id
  | .erred m => some m.id
  | .failed m => some m.id
  | .toRetry m => some m.id
  | .toBury m => some m.id
  | .succeeded _ m _ => some m.id
  | _ => none

/-- The message of such a thread. -/
def Role.tracked : Role → Option TaskId
  | .exec t => t.tracked
  | _ => none

/-- The message of such a task. -/
def CrewStage.tracked : CrewStage → Option TaskId
  | .live (.free (some u)) => u.tracked
  | .live (.inside (some u) _) => u.tracked
  | _ => none

/-- The message that a section removes from the processing map. -/
def Section.forgets : Section → Option TaskId
  | .ack id => some id
  | .release s => some s.message.id
  | _ => none

theorem mem_run_processing {b : MemoryBroker} {sec : Section} {i : TaskId} :
    i ∈ (b.run sec).processing ↔ i ∈ b.processing ∧ sec.forgets ≠ some i := by
  cases sec with
  | ack id =>
      simp only [MemoryBroker.run, MemoryBroker.removeProcessing, AList.mem_erase,
        Section.forgets, ne_eq, Option.some.injEq]
      tauto
  | release s =>
      simp only [MemoryBroker.run, MemoryBroker.removeProcessing, AList.mem_erase,
        Section.forgets, ne_eq, Option.some.injEq]
      tauto
  | enqueue m => simp [MemoryBroker.run, MemoryBroker.enqueue, Section.forgets]
  | schedule m eta =>
      simp [MemoryBroker.run, MemoryBroker.schedule, MemoryBroker.enqueue, Section.forgets]
  | deliver s =>
      cases s <;>
        simp [MemoryBroker.run, MemoryBroker.enqueue, MemoryBroker.pushDlq, Section.forgets]

section Steps

variable {codec : Codec} {i : TaskId}

theorem Stage.messageId_of_tracked {t : Stage} (h : t.tracked = some i) : t.messageId = some i := by
  cases t <;> first | exact h | cases h

theorem CrewStage.messageId_of_tracked {u : CrewStage} (h : u.tracked = some i) :
    u.messageId = some i := by
  unfold CrewStage.tracked at h
  split at h
  · rename_i u
    cases u with
    | exec t => exact Stage.messageId_of_tracked h
    | settling s => cases h
    | client s => cases h
  · rename_i u sec
    cases u with
    | exec t => exact Stage.messageId_of_tracked h
    | settling s => cases h
    | client s => cases h
  · cases h

/-- An execution keeps its message until a section removes it from the map. -/
theorem Role.Step.tracked {u u' : Role} {op : memoryInterface.Op} {r : memoryInterface.Res op}
    (h : Role.Step codec u op r u') (hi : u.tracked = some i) :
    u'.tracked = some i ∨ ∃ sec, op = .broker sec ∧ sec.forgets = some i := by
  cases h with
  | runtime hp =>
      left
      cases hp with
      | mint | name => cases hi
      | completeWithoutBackend | complete | completeChained => cases hi
      | _ => exact hi
  | backend hp => cases hp <;> cases hi
  | enqueue hp => cases hp <;> cases hi
  | schedule hp =>
      cases hp
      cases hi
  | ack hp => cases hp <;> exact .inr ⟨_, rfl, hi⟩
  | @release t t' s hp =>
      refine .inr ⟨_, rfl, ?_⟩
      cases s with
      | nack m =>
          cases hp
          exact hi
      | deadLetter m =>
          cases hp
          exact hi
  | deliver s => cases hi
  | clientRuntime _ | clientBackend _ | clientEnqueue _ => cases hi

/-- An execution that has a message in the map does not stop. -/
theorem not_final_of_tracked {u : CrewStage} (h : u.tracked = some i) :
    ¬ TaskStage.Final (LockedStage.Final CrewFinal) u := by
  unfold CrewStage.tracked at h
  split at h
  · rename_i u
    intro hfinal
    have hrole : u.Final := hfinal u rfl
    cases u with
    | exec t => cases t <;> first | exact hrole.elim | cases h
    | settling s => cases h
    | client s => cases h
  · exact fun hfinal => hfinal.elim
  · cases h

end Steps

section Runs

variable {S : Service resultBackendTrait} {codec : Codec} {w : Worker} {queues : List String}
  {concurrency : Nat}

/-- No call of a hook or a handler panics in this step. -/
def NoPanic (_ : (memoryWorker S codec w queues concurrency).Config)
    (l : (memoryWorker S codec w queues concurrency).Label) : Prop :=
  ∀ op, l ≠ .call ⟨.call op, none⟩

/-- Every message in the processing map is executed, or has just been dequeued and is
about to be. -/
def ProcessingExecutes (n : Nat) (tr : List (memoryWorker S codec w queues concurrency).Label)
    (c : (memoryWorker S codec w queues concurrency).Config) : Prop :=
  ∀ i ∈ c.state.1.1.broker.processing,
    Executing n i tr c ∨ ∃ m, c.state.2.phase = .spawning m ∧ m.id = i

/-- Every message in the processing map is that of a task which has not come to its
settling section, or of the loop. -/
def Accounted (b : MemoryBroker) (phase : LoopPhase MemoryFuture) (stages : List CrewStage) :
    Prop :=
  ∀ i ∈ b.processing, (∃ u ∈ stages, u.tracked = some i) ∨ ∃ m, phase = .spawning m ∧ m.id = i

/-- A call that does not panic. -/
theorem Accounted.call {s s' : (memoryWorker S codec w queues concurrency).State}
    {o : (lockedMemory S).Oracle × Bool} {op : (spawned lockedInterface).Op}
    {r : (spawned lockedInterface).Res op} {before after : List CrewStage} {u u' : CrewStage}
    (h : Accounted s.1.1.broker s.2.phase (before ++ u :: after))
    (hr : (memoryWorker S codec w queues concurrency).respond o s op = some (r, s'))
    (hstep : CrewTaskStep codec u op r u')
    (hgood : ∀ op', (⟨op, r⟩ : Event (spawned lockedInterface)) ≠ ⟨.call op', none⟩) :
    Accounted s'.1.1.broker s'.2.phase (before ++ u' :: after) := by
  -- it is enough that the map loses the message the thread gives up
  have hkeep : s'.2.phase = s.2.phase →
      (∀ i ∈ s'.1.1.broker.processing, i ∈ s.1.1.broker.processing ∧
        (u.tracked = some i → u'.tracked = some i)) →
      Accounted s'.1.1.broker s'.2.phase (before ++ u' :: after) := by
    intro hphase hmap i hi
    obtain ⟨hbefore, hkept⟩ := hmap i hi
    rw [hphase]
    rcases h i hbefore with ⟨v, hv, htracked⟩ | hloop
    · left
      rcases List.mem_append.mp hv with hv | hv
      · exact ⟨v, List.mem_append.mpr (.inl hv), htracked⟩
      · rcases List.mem_cons.mp hv with rfl | hv
        · exact ⟨u', List.mem_append.mpr (.inr List.mem_cons_self), hkept htracked⟩
        · exact ⟨v, List.mem_append.mpr (.inr (List.mem_cons_of_mem u' hv)), htracked⟩
    · exact .inr hloop
  cases hstep with
  | @call t t' op r hstep =>
      obtain ⟨hservice, hloop⟩ := loop_respond hr
      refine hkeep (congrArg _ hloop) fun i hi => ?_
      cases hstep with
      | runtime hcrew | backend hcrew =>
          rcases locked_respond hservice with ⟨_, hne, -⟩ | ⟨-, hbroker⟩
          · cases hne
          · rw [hbroker] at hi
            refine ⟨hi, fun hu => ?_⟩
            cases hcrew with
            | client _ _ => cases hu
            | role hrole =>
                rcases hrole.tracked hu with hu' | ⟨_, hne, -⟩
                · exact hu'
                · cases hne
      | acquire hcrew =>
          rcases locked_respond hservice with ⟨_, hne, -⟩ | ⟨-, hbroker⟩
          · cases hne
          · rw [hbroker] at hi
            refine ⟨hi, fun hu => ?_⟩
            cases hcrew with
            | client _ _ => cases hu
            | role _ => exact hu
      | run hcrew =>
          rcases locked_respond hservice with ⟨sec, hsec, hbroker⟩ | ⟨hne, -⟩
          · cases hsec
            rw [hbroker] at hi
            obtain ⟨hbefore, hforgets⟩ := mem_run_processing.mp hi
            refine ⟨hbefore, fun hu => ?_⟩
            cases hcrew with
            | client _ _ => cases hu
            | role hrole =>
                rcases hrole.tracked hu with hu' | ⟨sec', heq, hforget⟩
                · exact hu'
                · cases heq
                  exact absurd hforget hforgets
          · exact absurd rfl (hne _)
  | panic _ => exact absurd rfl (hgood _)
  | @finish t hfinal =>
      obtain ⟨hstate, hphase⟩ := loop_dropPermit hr
      refine hkeep hphase fun i hi => ⟨hstate ▸ hi, fun hu => ?_⟩
      exact absurd hfinal (not_final_of_tracked hu)
  | unwound =>
      obtain ⟨hstate, hphase⟩ := loop_dropPermit hr
      exact hkeep hphase fun i hi => ⟨hstate ▸ hi, nofun⟩

/-- A poll that returns no message leaves the map as it is. -/
theorem processing_of_polled {s s' : LockedBroker} {future : MemoryFuture}
    {out : Poll MemoryFuture} (h : LockedBroker.Polled queues s future out s')
    (hout : ∀ m, out ≠ .ready (.ok (some m))) :
    s'.broker.processing = s.broker.processing := by
  cases h with
  | quiet _ _ _ | timeout _ _ => rfl
  | pop hpop _ => exact (MemoryBroker.popFront_frame hpop).2.1
  | found _ | tracked _ => exact absurd rfl (hout _)

/-- A poll that returns a message has recorded it. -/
theorem processing_of_received {s s' : LockedBroker} {future : MemoryFuture} {m : TaskMessage}
    (h : LockedBroker.Polled queues s future (.ready (.ok (some m))) s') {i : TaskId}
    (hi : i ∈ s'.broker.processing) : i = m.id ∨ i ∈ s.broker.processing := by
  cases h with
  | found hpop =>
      rcases MemoryBroker.mem_track.mp hi with rfl | hi
      · exact .inl rfl
      · rw [(MemoryBroker.popFront_frame hpop).2.1] at hi
        exact .inr hi
  | tracked _ => exact MemoryBroker.mem_track.mp hi

/-- A move of the loop. -/
theorem Accounted.move {s s' : LockedBroker × S.State} {phase phase' : LoopPhase MemoryFuture}
    {stages : List CrewStage} {x : LoopMove Bool} {task : Option TaskMessage}
    (h : Accounted s.1.broker phase stages) (hstep : MemoryLoopStep S queues phase s x phase' s' task) :
    Accounted s'.1.broker phase' (stages ++ (task.map (spawnedStage w)).toList) := by
  have hquiet : (∀ m, phase ≠ .spawning m) → s'.1.broker.processing = s.1.broker.processing →
      Accounted s'.1.broker phase' (stages ++ []) := by
    intro hnot hmap i hi
    rw [hmap] at hi
    rw [List.append_nil]
    rcases h i hi with htask | ⟨m, hm, -⟩
    · exact .inl htask
    · exact absurd hm (hnot m)
  cases hstep with
  | stay _ _ _ => simpa using h
  | move _ _ hcalm _ =>
      refine hquiet ?_ rfl
      rintro m rfl
      cases hcalm
  | take _ => exact hquiet nofun rfl
  | quit future _ => exact hquiet nofun (LockedBroker.dropDequeue_frame 0 future s.1).2.1
  | pending hpoll => exact hquiet nofun (processing_of_polled (memory_poll hpoll) nofun)
  | nothing hpoll hout _ =>
      refine hquiet nofun (processing_of_polled (memory_poll hpoll) ?_)
      rintro m heq
      cases heq
      exact hout m rfl
  | @receive _ _ _ _ m hpoll =>
      intro i hi
      rcases processing_of_received (memory_poll hpoll) hi with rfl | hi
      · exact .inr ⟨m, rfl, rfl⟩
      · rcases h i hi with ⟨u, hu, htracked⟩ | ⟨m', hm', -⟩
        · exact .inl ⟨u, List.mem_append.mpr (.inl hu), htracked⟩
        · cases hm'
  | spawn m _ =>
      intro i hi
      rcases h i hi with ⟨u, hu, htracked⟩ | ⟨m', hm', rfl⟩
      · exact .inl ⟨u, List.mem_append.mpr (.inl hu), htracked⟩
      · cases hm'
        exact .inl ⟨spawnedStage w m, List.mem_append.mpr (.inr (List.mem_singleton.mpr rfl)), rfl⟩

/-- No execution panics, where threads are stages. -/
def StagedNoPanic (_ : Machine.Staged (memoryWorker S codec w queues concurrency) (crewTasks codec))
    (l : (memoryWorker S codec w queues concurrency).Label) : Prop :=
  ∀ op, l ≠ .call ⟨.call op, none⟩

/-- What holds along the runs of the staged worker in which nothing panics. -/
theorem accounted_of_reach {s₀ : S.State} {clients : List CrewStage}
    {tr : List (memoryWorker S codec w queues concurrency).Label}
    {c : Machine.Staged (memoryWorker S codec w queues concurrency) (crewTasks codec)}
    (h : Machine.StagedReachIf (P := crewTasks codec) StagedNoPanic
      (workerEntry w queues concurrency)
      ⟨((LockedBroker.free .new, s₀), .new (memoryDequeue S queues) concurrency), clients⟩ tr c) :
    Accounted c.state.1.1.broker c.state.2.phase c.stages := by
  induction h with
  | start =>
      intro i hi
      cases hi
  | step _ hgood hstep ih =>
      cases hstep with
      | call o before after hr hp =>
          refine ih.call hr hp fun op' heq => hgood op' ?_
          rw [heq]
      | env x stages haccept =>
          obtain ⟨task, hmove, hentry⟩ := worker_accept haccept
          rw [hentry]
          exact ih.move hmove

/-- Every dequeued message is settled in a run in which no hook and no handler
panics: what is in the processing map is executed by a task that has not ended, or has
just been dequeued. -/
theorem dequeued_settled {s₀ : S.State} {clients : List (Prog memoryInterface Unit)}
    (hclients : ∀ p ∈ clients, p.Calls Produces)
    {tr : List (memoryWorker S codec w queues concurrency).Label}
    {c : (memoryWorker S codec w queues concurrency).Config}
    (h : Machine.ReachIf NoPanic (memoryWorkerStart S codec w queues concurrency s₀ clients) tr c) :
    ProcessingExecutes clients.length tr c := by
  obtain ⟨stages, hstaged, hall⟩ : ∃ stages, Machine.StagedReachIf (P := crewTasks codec)
      StagedNoPanic (workerEntry w queues concurrency)
      ⟨((LockedBroker.free .new, s₀), .new (memoryDequeue S queues) concurrency),
        clients.map fun _ => .live (.free none)⟩ tr ⟨c.state, stages⟩ ∧
      List.Forall₂ (Prog.Follows (crewTasks codec)) c.threads stages :=
    h.staged worker_entry (fun _ _ _ _ hgood => hgood) (clients_beside hclients)
  have howned := owned_of_reach (clientStages_messageId clients) hstaged.reach
  rw [List.length_map] at howned
  intro i hi
  rcases accounted_of_reach hstaged i hi with ⟨u, hu, htracked⟩ | hloop
  · left
    exact executing_of_stage hall howned hu (CrewStage.messageId_of_tracked htracked)
      (not_final_of_tracked htracked)
  · exact .inr hloop

end Runs

/-! ## A handler that panics -/

/-- The message is dequeued and its execution begins. -/
def startsTask : List smallWorker.Move :=
  turns 0 2 false ++ intoDequeue ++ [.env (.receive false ⟨7⟩), .env .spawn] ++ turns 1 1 false

theorem underway_plays : ((smallOrigin [⟨7⟩]).playAll startsTask).isSome = true := by
  decide +kernel

/-- Where that leads. -/
def underwayEnd : List smallWorker.Label × smallWorker.Config :=
  ((smallOrigin [⟨7⟩]).playAll startsTask).get underway_plays

/-- The call of this step has panicked. -/
def panicked : smallWorker.Label → Bool
  | .call ⟨.call _, none⟩ => true
  | _ => false

theorem noPanic_of_panicked {c : smallWorker.Config} {l : smallWorker.Label}
    (h : panicked l = false) : NoPanic c l := by
  rintro op rfl
  cases h

/-- The message that is executed is in the processing map. -/
theorem dequeued_settled_underway :
    smallWorker.Reach (smallOrigin [⟨7⟩]) underwayEnd.1 underwayEnd.2 ∧
      (underwayEnd.2.state.1.1.broker.processing.lookup ⟨7⟩).isSome = true ∧
      ProcessingExecutes 1 underwayEnd.1 underwayEnd.2 := by
  have hreach : smallWorker.Reach (smallOrigin [⟨7⟩]) underwayEnd.1 underwayEnd.2 :=
    Machine.Config.reach_of_get underway_plays
  have hgood : ∀ l ∈ underwayEnd.1, panicked l = false := by
    have hall : underwayEnd.1.all (fun l => !panicked l) = true := by decide +kernel
    intro l hl
    simpa using List.all_eq_true.mp hall l hl
  refine ⟨hreach, by decide +kernel, dequeued_settled oneClient_produces (hreach.reachIf ?_)⟩
  exact fun l hl _ => noPanic_of_panicked (hgood l hl)

/-- The handler panics, and the task drops its permit. -/
def panics : List smallWorker.Move := startsTask ++ turns 1 1 true ++ turns 1 1 false

theorem panics_plays : ((smallOrigin [⟨7⟩]).playAll panics).isSome = true := by
  decide +kernel

/-- How that ends. -/
def panicsEnd : List smallWorker.Label × smallWorker.Config :=
  ((smallOrigin [⟨7⟩]).playAll panics).get panics_plays

/-- A message whose handler panicked stays in the processing map: its task has
ended, and no other executes. -/
theorem panic_unsettled :
    smallWorker.Reach (smallOrigin [⟨7⟩]) panicsEnd.1 panicsEnd.2 ∧
      ¬ ProcessingExecutes 1 panicsEnd.1 panicsEnd.2 := by
  have hreach : smallWorker.Reach (smallOrigin [⟨7⟩]) panicsEnd.1 panicsEnd.2 :=
    Machine.Config.reach_of_get panics_plays
  have hmap : (panicsEnd.2.state.1.1.broker.processing.lookup ⟨7⟩).isSome = true := by
    decide +kernel
  have hidle : panicsEnd.2.threads.all (fun p => !running p) = true := by decide +kernel
  have hcalm : panicsEnd.2.state.2.phase.calm = true := by decide +kernel
  refine ⟨hreach, fun hall => ?_⟩
  rcases hall ⟨7⟩ (AList.lookup_isSome.mp hmap) with ⟨j, p, hp, hrunning, -⟩ | ⟨m, hm, -⟩
  · have hstopped := List.all_eq_true.mp hidle p (List.mem_of_getElem? hp)
    rw [hrunning] at hstopped
    cases hstopped
  · rw [hm] at hcalm
    cases hcalm

end Kojin.Core
