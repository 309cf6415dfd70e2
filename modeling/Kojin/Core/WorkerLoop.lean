/-
  Core/WorkerLoop.lean --- the loop of a worker and its permits (`kojin-core`:
  `worker.rs`, `Worker::run`).

  The loop acquires a permit of a semaphore, dequeues a message with the permit in
  hand, and hands both to a spawned task; the task drops the permit when its
  execution ends, also when that end is a panic.  On cancellation the loop stops and
  waits until all permits are back or a deadline has passed.

      checking ─ acquiring ─ granted ─ dequeuing ─ spawning ─ checking
      dequeuing ─ checking | backingOff               timeout, error
      any select ─ draining ─ stopped                 cancellation

  The steps of the loop are stimuli of a machine whose threads are the spawned tasks.
  `dequeue` is a future that is polled until it is ready and may be dropped before:
  any broker, and any sequence of outcomes.
-/
import Kojin.Core.MemorySystem
import Kojin.Core.MemoryResultBackend

set_option autoImplicit false

namespace Kojin.Core

open Kojin.Foundation

/-! ## Spawned tasks -/

/-- The calls of a spawned task: those of its execution, and the drop of its permit. -/
inductive TaskOp (I : Interface) where
  | call (op : I.Op)
  | dropPermit

/-- A call may panic instead of returning. -/
abbrev TaskOp.Res {I : Interface} : TaskOp I → Type
  | .call op => Option (I.Res op)
  | .dropPermit => Unit

/-- The interface of spawned tasks. -/
abbrev spawned (I : Interface) : Interface := ⟨TaskOp I, TaskOp.Res⟩

/-- The future given to `tokio::spawn`: a panic ends the execution, and the permit is
dropped either way. -/
def spawn {I : Interface} : Prog I Unit → Prog (spawned I) Unit
  | .ret _ => Prog.perform (I := spawned I) .dropPermit
  | .call op k =>
      .call (.call op) fun
        | some r => spawn (k r)
        | none => Prog.perform (I := spawned I) .dropPermit

/-- Only handlers and hooks panic. -/
def SystemOp.mayPanic {B R : Interface} : SystemOp B R → Bool
  | .runtime (.before _ _) => true
  | .runtime (.after _ _ _) => true
  | .runtime (.onError _ _ _) => true
  | .runtime (.handle _ _ _) => true
  | _ => false

/-! ## The future of `dequeue` -/

/-- What a poll of the future comes to. -/
inductive Poll (φ : Type) where
  | pending (future : φ)
  | ready (result : TaskResult (Option TaskMessage))

/-- A future that dequeues a message from a broker with states in `σ`: `poll` runs it to
its next suspension point, if it can run at all, and `drop` gives up what it holds. -/
structure Dequeue (σ : Type) where
  Future : Type
  Input : Type
  start : Future
  poll : Input → Future → σ → Option (Poll Future × σ)
  drop : Future → σ → σ

/-! ## The loop -/

/-- Where the loop is. -/
inductive LoopPhase (φ : Type) where
  | checking
  | acquiring
  | granted
  | dequeuing (future : φ)
  | spawning (message : TaskMessage)
  | backingOff
  | draining
  | stopped (drained : Bool)

/-- The permits the loop itself holds. -/
def LoopPhase.held {φ : Type} : LoopPhase φ → Nat
  | .granted => 1
  | .dequeuing _ => 1
  | .spawning _ => 1
  | _ => 0

/-- The main loop has been left. -/
def LoopPhase.exited {φ : Type} : LoopPhase φ → Bool
  | .draining => true
  | .stopped _ => true
  | _ => false

/-- The drain loop has found all permits available. -/
def LoopPhase.drained {φ : Type} : LoopPhase φ → Bool
  | .stopped drained => drained
  | _ => false

/-- The semaphore, the cancellation token and the loop. -/
structure WorkerRun (φ : Type) where
  available : Nat
  cancelled : Bool
  phase : LoopPhase φ

/-- The steps of the loop, and the cancellation.  `receive` names the message that
`dequeue` returns; every other poll of it is a `poll`. -/
inductive LoopMove (ι : Type) where
  | cancel
  | check
  | acquire
  | take
  | quit
  | poll (x : ι)
  | receive (x : ι) (id : TaskId)
  | spawn
  | wake
  | inspect (timeout : Bool)

namespace WorkerRun

variable {σ : Type} (D : Dequeue σ) (concurrency : Nat)

/-- `Worker::run` at its start. -/
def new : WorkerRun D.Future := ⟨concurrency, false, .checking⟩

variable {D}

/-- Give a permit back and go on in this phase. -/
def release (l : WorkerRun D.Future) (phase : LoopPhase D.Future) : WorkerRun D.Future :=
  { l with available := l.available + 1, phase := phase }

/-- A branch of one of the two `select!` is the cancellation: the other future is
dropped, and with it a permit it has been given. -/
def quit (l : WorkerRun D.Future) (s : σ) : Option (σ × WorkerRun D.Future) :=
  if l.cancelled then
    match l.phase with
    | .acquiring => some (s, { l with phase := .draining })
    | .granted => some (s, l.release .draining)
    | .dequeuing future => some (D.drop future s, l.release .draining)
    | _ => none
  else none

/-- A poll of `dequeue` that returns no message. -/
def poll (l : WorkerRun D.Future) (x : D.Input) (s : σ) : Option (σ × WorkerRun D.Future) :=
  match l.phase with
  | .dequeuing future =>
      match D.poll x future s with
      | some (.pending future', s') => some (s', { l with phase := .dequeuing future' })
      | some (.ready (.ok none), s') => some (s', l.release .checking)
      | some (.ready (.error _), s') => some (s', l.release .backingOff)
      | _ => none
  | _ => none

/-- A poll of `dequeue` that returns the message with this identifier. -/
def receive (l : WorkerRun D.Future) (x : D.Input) (id : TaskId) (s : σ) :
    Option (σ × WorkerRun D.Future) :=
  match l.phase with
  | .dequeuing future =>
      match D.poll x future s with
      | some (.ready (.ok (some m)), s') =>
          if m.id = id then some (s', { l with phase := .spawning m }) else none
      | _ => none
  | _ => none

/-- One round of the drain loop. -/
def inspect (l : WorkerRun D.Future) (timeout : Bool) : Option (WorkerRun D.Future) :=
  match l.phase with
  | .draining =>
      if l.available = concurrency then some { l with phase := .stopped true }
      else if timeout then some { l with phase := .stopped false }
      else some l
  | _ => none

/-- One step of the loop, with the task it spawns. -/
def step (l : WorkerRun D.Future) (s : σ) :
    LoopMove D.Input → Option ((σ × WorkerRun D.Future) × Option TaskMessage)
  | .cancel => some ((s, { l with cancelled := true }), none)
  | .check =>
      match l.phase with
      | .checking =>
          some ((s, { l with phase := if l.cancelled then .draining else .acquiring }), none)
      | _ => none
  | .acquire =>
      match l.phase, l.available with
      | .acquiring, n + 1 => some ((s, { l with available := n, phase := .granted }), none)
      | _, _ => none
  | .take =>
      match l.phase with
      | .granted => some ((s, { l with phase := .dequeuing D.start }), none)
      | _ => none
  | .quit => (l.quit s).map fun p => (p, none)
  | .poll x => (l.poll x s).map fun p => (p, none)
  | .receive x id => (l.receive x id s).map fun p => (p, none)
  | .spawn =>
      match l.phase with
      | .spawning m => some ((s, { l with phase := .checking }), some m)
      | _ => none
  | .wake =>
      match l.phase with
      | .backingOff => some ((s, { l with phase := .checking }), none)
      | _ => none
  | .inspect timeout => (l.inspect concurrency timeout).map fun l' => ((s, l'), none)

end WorkerRun

/-! ## The machine -/

section Machine

variable {B R : Interface} (service : Service (system B R)) (D : Dequeue service.State)
  (program : TaskMessage → Prog (system B R) Unit) (concurrency : Nat)

/-- A worker that runs, over any broker and backend; `program` is the execution of a
message. -/
def workerLoop : Machine (spawned (system B R)) where
  State := service.State × WorkerRun D.Future
  Oracle := service.Oracle × Bool
  respond o s
    | .dropPermit => some ((), (s.1, { s.2 with available := s.2.available + 1 }))
    | .call op =>
        if o.2 && op.mayPanic then some (none, s)
        else (service.respond o.1 s.1 op).map fun p => (some p.1, (p.2, s.2))
  Stimulus := LoopMove D.Input
  accept x s :=
    (s.2.step concurrency s.1 x).map fun p =>
      (p.1, (p.2.map fun m => spawn (program m)).toList)

/-- The worker at its start. -/
def loopStart (s₀ : service.State) : (workerLoop service D program concurrency).Config :=
  ⟨(s₀, .new D concurrency), []⟩

end Machine

/-! ## Permits of tasks -/

/-- What a task may still do: call, or drop its permit and end. -/
inductive PermitStep (I : Interface) :
    Bool → (op : (spawned I).Op) → (spawned I).Res op → Bool → Prop where
  | call (op : I.Op) (r : Option (I.Res op)) : PermitStep I true (.call op) r true
  | dropPermit : PermitStep I true .dropPermit () false

/-- A task holds its permit until it ends. -/
abbrev permits (I : Interface) : Protocol (spawned I) :=
  ⟨Bool, PermitStep I, fun holding => holding = false⟩

/-- Every spawned execution holds a permit until it ends. -/
theorem spawn_follows {I : Interface} (p : Prog I Unit) : (spawn p).Follows (permits I) true := by
  induction p with
  | ret a => exact fun _ => ⟨false, .dropPermit, rfl⟩
  | call op k ih =>
      rw [spawn]
      intro r
      refine ⟨true, .call op r, ?_⟩
      cases r with
      | some r => exact ih r
      | none => exact fun _ => ⟨false, .dropPermit, rfl⟩

/-- The task has not ended. -/
def running {I : Interface} : Prog I Unit → Bool
  | .ret _ => false
  | .call _ _ => true

/-- A task that has not ended holds its permit, and one that has ended does not. -/
theorem running_eq {I : Interface} {p : Prog (spawned I) Unit} {holding : Bool}
    (h : p.Follows (permits I) holding) : running p = holding := by
  cases p with
  | ret a =>
      have hfinal : holding = false := h
      rw [hfinal]
      rfl
  | call op k =>
      have hstep : ∀ r, ∃ t', PermitStep I holding op r t' ∧ _ := h
      cases op with
      | call op =>
          obtain ⟨t', hp, -⟩ := hstep none
          cases hp
          rfl
      | dropPermit =>
          obtain ⟨t', hp, -⟩ := hstep ()
          cases hp
          rfl

/-- As many tasks run as hold a permit. -/
theorem countP_running {I : Interface} {threads : List (Prog (spawned I) Unit)}
    {stages : List Bool} (h : List.Forall₂ (Prog.Follows (permits I)) threads stages) :
    threads.countP running = stages.count true := by
  induction h with
  | nil => rfl
  | @cons p t threads stages hp _ ih =>
      have hrunning : running p = t := running_eq hp
      rw [List.countP_cons, List.count_cons, ih, hrunning]
      cases t <;> rfl

section Accounts

variable {B R : Interface} {service : Service (system B R)} {D : Dequeue service.State}
  {program : TaskMessage → Prog (system B R) Unit} {concurrency : Nat}

/-- The tasks that execute. -/
def executing (c : (workerLoop service D program concurrency).Config) : Nat :=
  c.threads.countP running

/-- The message that `dequeue` returns in this step. -/
def received : (workerLoop service D program concurrency).Label → Option TaskId
  | .env (.receive _ id) => some id
  | _ => none

/-- A message that has been returned and not yet been handed to a task. -/
def LoopPhase.pending {φ : Type} : LoopPhase φ → Nat
  | .spawning _ => 1
  | _ => 0

/-- The tasks a stimulus starts hold a permit each. -/
def loopEntry (concurrency : Nat) (x : LoopMove D.Input) (s : service.State × WorkerRun D.Future) : List Bool :=
  match s.2.step concurrency s.1 x with
  | some (_, some _) => [true]
  | _ => []

theorem loop_entry (x : LoopMove D.Input) (s s' : (workerLoop service D program concurrency).State)
    (new : List (Prog (spawned (system B R)) Unit))
    (h : (workerLoop service D program concurrency).accept x s = some (s', new)) :
    List.Forall₂ (Prog.Follows (permits (system B R))) new
      (loopEntry concurrency x s) := by
  obtain ⟨p, hp, heq⟩ := Option.map_eq_some_iff.mp h
  obtain ⟨s₁, task⟩ := p
  cases heq
  simp only [loopEntry, hp]
  cases task with
  | none => exact .nil
  | some m => exact .cons (spawn_follows _) .nil

/-- What the loop and its tasks have of the permits, and what has become of the messages
it was given. -/
structure Permitted {φ : Type} (l : WorkerRun φ) (stages : List Bool) (concurrency got : Nat) :
    Prop where
  balance : l.available + l.phase.held + stages.count true = concurrency
  handed : got = stages.length + l.phase.pending
  drained : l.phase.drained = true → l.available = concurrency

/-- Giving back the permit the loop holds. -/
theorem Permitted.release {l : WorkerRun D.Future} {stages : List Bool} {got : Nat}
    (h : Permitted l stages concurrency got) (hheld : l.phase.held = 1)
    (hpending : l.phase.pending = 0) {phase : LoopPhase D.Future} (hheld' : phase.held = 0)
    (hpending' : phase.pending = 0) (hrunning : phase.drained = false) :
    Permitted (l.release phase) stages concurrency got := by
  have hbalance := h.balance
  have hhanded := h.handed
  refine ⟨?_, ?_, fun heq => absurd (hrunning.symm.trans heq) Bool.false_ne_true⟩
  · simp only [WorkerRun.release]
    omega
  · simp only [WorkerRun.release]
    omega

/-- Going on without giving anything back. -/
theorem Permitted.goOn {l : WorkerRun D.Future} {stages : List Bool} {got : Nat}
    (h : Permitted l stages concurrency got) {phase : LoopPhase D.Future}
    (hheld : phase.held = l.phase.held) (hpending : phase.pending = l.phase.pending)
    (hrunning : phase.drained = false) :
    Permitted { l with phase := phase } stages concurrency got := by
  refine ⟨?_, ?_, fun heq => absurd (hrunning.symm.trans heq) Bool.false_ne_true⟩
  · rw [hheld]
    exact h.balance
  · rw [hpending]
    exact h.handed

theorem Permitted.quit {l l' : WorkerRun D.Future} {s s' : service.State} {stages : List Bool}
    {got : Nat} (h : Permitted l stages concurrency got) (hquit : l.quit s = some (s', l')) :
    Permitted l' stages concurrency got := by
  simp only [WorkerRun.quit] at hquit
  split at hquit
  · split at hquit
    · rename_i hphase
      cases hquit
      exact h.goOn (by rw [hphase]; rfl) (by rw [hphase]; rfl) rfl
    · rename_i hphase
      cases hquit
      exact h.release (by rw [hphase]; rfl) (by rw [hphase]; rfl) rfl rfl rfl
    · rename_i future hphase
      cases hquit
      exact h.release (by rw [hphase]; rfl) (by rw [hphase]; rfl) rfl rfl rfl
    · cases hquit
  · cases hquit

theorem Permitted.poll {l l' : WorkerRun D.Future} {s s' : service.State} {stages : List Bool}
    {got : Nat} {x : D.Input} (h : Permitted l stages concurrency got)
    (hpoll : l.poll x s = some (s', l')) : Permitted l' stages concurrency got := by
  simp only [WorkerRun.poll] at hpoll
  split at hpoll
  · rename_i future hphase
    split at hpoll
    · cases hpoll
      exact h.goOn (by rw [hphase]; rfl) (by rw [hphase]; rfl) rfl
    · cases hpoll
      exact h.release (by rw [hphase]; rfl) (by rw [hphase]; rfl) rfl rfl rfl
    · cases hpoll
      exact h.release (by rw [hphase]; rfl) (by rw [hphase]; rfl) rfl rfl rfl
    · cases hpoll
  · cases hpoll

theorem Permitted.receive {l l' : WorkerRun D.Future} {s s' : service.State}
    {stages : List Bool} {got : Nat} {x : D.Input} {id : TaskId}
    (h : Permitted l stages concurrency got) (hreceive : l.receive x id s = some (s', l')) :
    Permitted l' stages concurrency (got + 1) := by
  simp only [WorkerRun.receive] at hreceive
  split at hreceive
  · rename_i future hphase
    split at hreceive
    · split at hreceive
      · cases hreceive
        have hbalance := h.balance
        have hhanded := h.handed
        rw [hphase] at hbalance hhanded
        exact ⟨hbalance, by rw [hhanded]; rfl, nofun⟩
      · cases hreceive
    · cases hreceive
  · cases hreceive

theorem Permitted.inspect {l l' : WorkerRun D.Future} {stages : List Bool} {got : Nat}
    {timeout : Bool} (h : Permitted l stages concurrency got)
    (hinspect : l.inspect concurrency timeout = some l') :
    Permitted l' stages concurrency got := by
  simp only [WorkerRun.inspect] at hinspect
  split at hinspect
  · rename_i hphase
    have hbalance := h.balance
    have hhanded := h.handed
    rw [hphase] at hbalance hhanded
    split at hinspect
    · rename_i hall
      cases hinspect
      exact ⟨hbalance, hhanded, fun _ => hall⟩
    · split at hinspect
      · cases hinspect
        exact ⟨hbalance, hhanded, nofun⟩
      · cases hinspect
        exact h
  · cases hinspect

/-- The messages a move of the loop is given. -/
def LoopMove.gets {ι : Type} : LoopMove ι → Nat
  | .receive _ _ => 1
  | _ => 0

/-- One step of the loop keeps the account of the permits. -/
theorem Permitted.step {l l' : WorkerRun D.Future} {s s' : service.State} {x : LoopMove D.Input}
    {task : Option TaskMessage} {stages : List Bool} {got : Nat}
    (h : Permitted l stages concurrency got)
    (hstep : l.step concurrency s x = some ((s', l'), task)) :
    Permitted l' (stages ++ (task.map fun _ => true).toList) concurrency (got + x.gets) := by
  have hbalance := h.balance
  have hhanded := h.handed
  cases x with
  | cancel =>
      cases hstep
      exact ⟨by simpa using hbalance, by simpa [LoopMove.gets] using hhanded, h.drained⟩
  | check =>
      simp only [WorkerRun.step] at hstep
      split at hstep
      · rename_i hphase
        cases hstep
        have hgo : ∀ cancelled : Bool, Permitted
            ({ l with phase := if cancelled then .draining else .acquiring } :
              WorkerRun D.Future) stages concurrency got := by
          intro cancelled
          split
          · exact h.goOn (by rw [hphase]; rfl) (by rw [hphase]; rfl) rfl
          · exact h.goOn (by rw [hphase]; rfl) (by rw [hphase]; rfl) rfl
        simpa [LoopMove.gets] using hgo l.cancelled
      · cases hstep
  | acquire =>
      simp only [WorkerRun.step] at hstep
      split at hstep
      · rename_i n hphase havailable
        cases hstep
        rw [hphase] at hbalance hhanded
        rw [havailable] at hbalance
        refine ⟨?_, ?_, nofun⟩
        · simp only [LoopPhase.held, Option.map_none, Option.toList_none, List.append_nil]
            at hbalance ⊢
          omega
        · simpa [LoopPhase.pending, LoopMove.gets] using hhanded
      · cases hstep
  | take =>
      simp only [WorkerRun.step] at hstep
      split at hstep
      · rename_i hphase
        cases hstep
        have hgo : Permitted { l with phase := .dequeuing D.start } stages concurrency got :=
          h.goOn (by rw [hphase]; rfl) (by rw [hphase]; rfl) rfl
        simpa [LoopMove.gets] using hgo
      · cases hstep
  | quit =>
      obtain ⟨p, hp, heq⟩ := Option.map_eq_some_iff.mp hstep
      cases heq
      simpa [LoopMove.gets] using h.quit hp
  | poll x =>
      obtain ⟨p, hp, heq⟩ := Option.map_eq_some_iff.mp hstep
      cases heq
      simpa [LoopMove.gets] using h.poll hp
  | receive x id =>
      obtain ⟨p, hp, heq⟩ := Option.map_eq_some_iff.mp hstep
      cases heq
      simpa [LoopMove.gets] using h.receive hp
  | spawn =>
      simp only [WorkerRun.step] at hstep
      split at hstep
      · rename_i m hphase
        cases hstep
        rw [hphase] at hbalance hhanded
        refine ⟨?_, ?_, nofun⟩
        · simp only [LoopPhase.held, Option.map_some, Option.toList_some, List.count_append,
            List.count_singleton_self] at hbalance ⊢
          omega
        · simpa [LoopPhase.pending, LoopMove.gets] using hhanded
      · cases hstep
  | wake =>
      simp only [WorkerRun.step] at hstep
      split at hstep
      · rename_i hphase
        cases hstep
        have hgo : Permitted { l with phase := .checking } stages concurrency got :=
          h.goOn (by rw [hphase]; rfl) (by rw [hphase]; rfl) rfl
        simpa [LoopMove.gets] using hgo
      · cases hstep
  | inspect timeout =>
      obtain ⟨p, hp, heq⟩ := Option.map_eq_some_iff.mp hstep
      cases heq
      simpa [LoopMove.gets] using h.inspect hp

/-- A call of a task keeps the account, and so does the drop of its permit. -/
theorem Permitted.call {l l' : WorkerRun D.Future} {s s' : service.State} {got : Nat}
    {before after : List Bool} {t t' : Bool} {o : service.Oracle × Bool}
    {op : (spawned (system B R)).Op} {r : (spawned (system B R)).Res op}
    (h : Permitted l (before ++ t :: after) concurrency got)
    (hr : (workerLoop service D program concurrency).respond o (s, l) op = some (r, (s', l')))
    (hp : PermitStep (system B R) t op r t') :
    Permitted l' (before ++ t' :: after) concurrency got := by
  cases hp with
  | call op r =>
      have hsame : l' = l := by
        simp only [workerLoop] at hr
        split at hr
        · cases hr
          rfl
        · obtain ⟨p, -, heq⟩ := Option.map_eq_some_iff.mp hr
          cases heq
          rfl
      rw [hsame]
      exact h
  | dropPermit =>
      cases hr
      have hbalance := h.balance
      have hhanded := h.handed
      refine ⟨?_, ?_, ?_⟩
      · simp only [List.count_append, List.count_cons, beq_self_eq_true, if_pos] at hbalance ⊢
        simp only [reduceCtorEq, beq_iff_eq, if_false] 
        omega
      · simpa using hhanded
      · intro hphase
        have hall := h.drained hphase
        simp only [List.count_append, List.count_cons, beq_self_eq_true, if_pos] at hbalance
        omega

/-- The account along every run of the worker. -/
theorem permitted_of_reach {s₀ : service.State}
    {tr : List (workerLoop service D program concurrency).Label}
    {c : Machine.Staged (workerLoop service D program concurrency) (permits (system B R))}
    (h : Machine.StagedReach (permits (system B R)) (loopEntry concurrency)
      ⟨(s₀, .new D concurrency), []⟩ tr c) :
    Permitted c.state.2 c.stages concurrency (tr.filterMap received).length := by
  induction h with
  | start => exact ⟨rfl, rfl, nofun⟩
  | step _ hstep ih =>
      rw [Machine.filterMap_snoc, List.length_append]
      cases hstep with
      | call o before after hr hp => exact ih.call hr hp
      | @env x s s' stages new haccept =>
          obtain ⟨⟨⟨s₁, l₁⟩, task⟩, hmove, heq⟩ := Option.map_eq_some_iff.mp haccept
          cases heq
          have hgets : ((received (.env x : (workerLoop service D program concurrency).Label)).toList
              ).length = x.gets := by cases x <;> rfl
          have hentry : loopEntry concurrency x s = (task.map fun _ => true).toList := by
            simp only [loopEntry, hmove]
            cases task <;> rfl
          rw [hgets, hentry]
          exact ih.step hmove

/-- A step after the main loop starts no task, and does not lead back. -/
theorem step_exited {c c' : (workerLoop service D program concurrency).Config}
    {l : (workerLoop service D program concurrency).Label}
    (h : (workerLoop service D program concurrency).Step c l c')
    (hexited : c.state.2.phase.exited = true) :
    c'.threads.length = c.threads.length ∧ c'.state.2.phase.exited = true := by
  cases h with
  | @call o s s' op r k before after hr =>
      refine ⟨by simp, ?_⟩
      cases op with
      | dropPermit =>
          cases hr
          exact hexited
      | call op =>
          simp only [workerLoop] at hr
          split at hr
          · cases hr
            exact hexited
          · obtain ⟨p, -, heq⟩ := Option.map_eq_some_iff.mp hr
            cases heq
            exact hexited
  | @env x s s' threads new haccept =>
      obtain ⟨⟨⟨s₁, l₁⟩, task⟩, hmove, heq⟩ := Option.map_eq_some_iff.mp haccept
      cases heq
      rcases s with ⟨s, available, cancelled, phase⟩
      cases phase with
      | draining =>
          cases x with
          | cancel =>
              cases hmove
              exact ⟨by simp, rfl⟩
          | inspect timeout =>
              simp only [WorkerRun.step, WorkerRun.inspect] at hmove
              split at hmove
              · cases hmove
                exact ⟨by simp, rfl⟩
              · split at hmove
                · cases hmove
                  exact ⟨by simp, rfl⟩
                · cases hmove
                  exact ⟨by simp, rfl⟩
          | quit => cases cancelled <;> cases hmove
          | _ => cases hmove
      | stopped drained =>
          cases x with
          | cancel =>
              cases hmove
              exact ⟨by simp, rfl⟩
          | quit => cases cancelled <;> cases hmove
          | _ => cases hmove
      | _ => cases hexited

/-- What a run of the worker says about its permits and its tasks. -/
structure PermitsKept (concurrency : Nat) (tr : List (workerLoop service D program concurrency).Label)
    (c : (workerLoop service D program concurrency).Config) : Prop where
  /-- Every permit is available, held by the loop, or held by a task that executes. -/
  balance : c.state.2.available + c.state.2.phase.held + executing c = concurrency
  bounded : executing c ≤ concurrency
  /-- Once the main loop is left no task is started. -/
  exited : c.state.2.phase.exited = true →
    ∀ tr' c', (workerLoop service D program concurrency).Reach c tr' c' →
      c'.threads.length = c.threads.length
  /-- If the drain loop finds all permits available, no task executes, and every
  message that was dequeued has had its execution end. -/
  drained : c.state.2.phase.drained = true →
    executing c = 0 ∧ (tr.filterMap received).length = c.threads.length ∧
      ∀ p ∈ c.threads, p = .ret ()

/-- Permits are kept in every run of a worker: over any broker and backend, for any
concurrency, any outcomes of `dequeue`, any order in which tasks end or panic, and
cancellation at any moment. -/
theorem permits_kept {s₀ : service.State}
    {tr : List (workerLoop service D program concurrency).Label}
    {c : (workerLoop service D program concurrency).Config}
    (h : (workerLoop service D program concurrency).Reach
      (loopStart service D program concurrency s₀) tr c) : PermitsKept concurrency tr c := by
  obtain ⟨stages, hstaged, hfollows⟩ := h.staged loop_entry .nil
  have hpermitted := permitted_of_reach hstaged
  have hbalance : c.state.2.available + c.state.2.phase.held + stages.count true = concurrency :=
    hpermitted.balance
  have hexecuting : executing c = stages.count true := countP_running hfollows
  rw [← hexecuting] at hbalance
  refine ⟨hbalance, by omega, ?_, ?_⟩
  · intro hexited tr' c' hreach
    have hboth : c'.threads.length = c.threads.length ∧ c'.state.2.phase.exited = true := by
      induction hreach with
      | start => exact ⟨rfl, hexited⟩
      | step _ hstep ih =>
          obtain ⟨hlength, hexited'⟩ := step_exited hstep ih.2
          exact ⟨hlength.trans ih.1, hexited'⟩
    exact hboth.1
  · intro hstopped
    have hall : c.state.2.available = concurrency := hpermitted.drained hstopped
    have hzero : executing c = 0 := by omega
    refine ⟨hzero, ?_, ?_⟩
    · have hhanded : (tr.filterMap received).length = stages.length + c.state.2.phase.pending :=
        hpermitted.handed
      have hnone : c.state.2.phase.pending = 0 := by
        cases hphase : c.state.2.phase with
        | spawning m => simp [hphase, LoopPhase.drained] at hstopped
        | _ => rfl
      rw [hhanded, hnone, hfollows.length_eq, Nat.add_zero]
    · intro p hp
      cases p with
      | ret a => rfl
      | call op k =>
          have hnone := List.countP_eq_zero.mp hzero _ hp
          exact absurd rfl hnone

end Accounts

/-! ## A run -/

/-- The in-memory broker and backend, method by method. -/
abbrev memoryMethods : Service traits :=
  systemService (wholeMethods MemoryBroker.driver MemoryBroker.service) MemoryResultBackend.service

/-- A `dequeue` of the in-memory broker that runs through at its first poll. -/
def dequeueAtOnce (queues : List String) : Dequeue memoryMethods.State where
  Future := Unit
  Input := Unit
  start := ()
  poll _ _ s :=
    match s.1.tryDequeue queues with
    | some (m, b) => some (.ready (.ok (some m)), (b, s.2))
    | none => some (.ready (.ok none), s)
  drop _ s := s

/-- A worker with one permit and no middlewares. -/
abbrev loneWorker : Machine (spawned traits) :=
  workerLoop memoryMethods (dequeueAtOnce ["q"]) (executeTask ⟨["t"], [], false⟩ blankCodec) 1

/-- One message is waiting. -/
def loneOrigin : loneWorker.Config :=
  loopStart memoryMethods (dequeueAtOnce ["q"]) (executeTask ⟨["t"], [], false⟩ blankCodec) 1
    (MemoryBroker.new.enqueue (plainMessage ⟨7⟩), MemoryResultBackend.new)

/-- The message is executed, the worker is cancelled, and its task ends. -/
def lastMessage : List loneWorker.Move :=
  [.env .check, .env .acquire, .env .take, .env (.receive () ⟨7⟩), .env .spawn, .env .cancel,
    .env .check] ++
    List.replicate 5 (.run 0 (⟨stillRuntime, [(), ()], ()⟩, false)) ++ [.env (.inspect false)]

theorem lastMessage_plays : (loneOrigin.playAll lastMessage).isSome = true := by
  decide +kernel

/-- How that ends. -/
def lastMessageEnd : List loneWorker.Label × loneWorker.Config :=
  (loneOrigin.playAll lastMessage).get lastMessage_plays

/-- The worker drains: its one message has been executed to the end. -/
theorem permits_kept_lastMessage :
    loneWorker.Reach loneOrigin lastMessageEnd.1 lastMessageEnd.2 ∧
      executing lastMessageEnd.2 = 0 ∧ (lastMessageEnd.1.filterMap received).length = 1 := by
  have hreach : loneWorker.Reach loneOrigin lastMessageEnd.1 lastMessageEnd.2 :=
    Machine.Config.reach_of_get lastMessage_plays
  obtain ⟨hzero, hlength, -⟩ := (permits_kept hreach).drained (by decide +kernel)
  have hone : lastMessageEnd.2.threads.length = 1 := by decide +kernel
  exact ⟨hreach, hzero, hlength.trans hone⟩

end Kojin.Core
