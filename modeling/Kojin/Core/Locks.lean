/-
  Core/Locks.lean --- the locks of the in-memory broker, and tasks that may panic
  (`kojin-core`: `memory_broker.rs`, `worker.rs`).

  Each section of the broker first acquires its lock; while the lock is held by
  another, it waits.  `onLocks` puts the acquisition in front of every section.  A
  protocol of programs over sections carries over: between its two calls a program is
  inside its section.

  A spawned task makes the calls of its execution until one of them panics.
-/
import Kojin.Core.WorkerLoop

set_option autoImplicit false

namespace Kojin.Core

open Kojin.Foundation

/-! ## The locks -/

/-- The mutexes of `MemoryBrokerInner`. -/
inductive Lock where
  | queues
  | dlq
  | processing
  deriving DecidableEq

/-- The lock a section runs under. -/
def Section.lock : Section → Lock
  | .enqueue _ => .queues
  | .schedule _ _ => .queues
  | .ack _ => .processing
  | .release _ => .processing
  | .deliver (.nack _) => .queues
  | .deliver (.deadLetter _) => .dlq

/-- The calls of a program on the broker: `lock().await`, and the section itself, at
whose end the lock is free again. -/
inductive LockedOp where
  | acquire (l : Lock)
  | run (s : Section)

/-- The interface of locks and sections, which only return. -/
abbrev lockedSections : Interface := ⟨LockedOp, fun _ => Unit⟩

/-- The broker, and which locks are held. -/
structure LockedBroker where
  broker : MemoryBroker
  held : Lock → Bool

namespace LockedBroker

/-- All locks are free. -/
def free (b : MemoryBroker) : LockedBroker := ⟨b, fun _ => false⟩

/-- Take a lock, or give it back. -/
def setLock (s : LockedBroker) (l : Lock) (taken : Bool) : LockedBroker :=
  { s with held := Function.update s.held l taken }

/-- A section, and the end of its lock. -/
def run (s : LockedBroker) (sec : Section) : LockedBroker :=
  { s.setLock sec.lock false with broker := s.broker.run sec }

/-- Whoever wants a lock that is held waits. -/
def service : Service lockedSections where
  State := LockedBroker
  Oracle := Unit
  respond _ s
    | .acquire l => if s.held l then none else some ((), s.setLock l true)
    | .run sec => some ((), s.run sec)

@[simp] theorem setLock_broker (s : LockedBroker) (l : Lock) (taken : Bool) :
    (s.setLock l taken).broker = s.broker := rfl

@[simp] theorem run_broker (s : LockedBroker) (sec : Section) :
    (s.run sec).broker = s.broker.run sec := rfl

end LockedBroker

/-- The calls of a thread on the broker with its locks. -/
abbrev lockedInterface : Interface := system lockedSections resultBackendTrait

/-- A section acquires its lock; every other call is as it is. -/
def withLocks : (op : memoryInterface.Op) → Prog lockedInterface (memoryInterface.Res op)
  | .runtime op => Prog.perform (I := lockedInterface) (.runtime op)
  | .backend op => Prog.perform (I := lockedInterface) (.backend op)
  | .broker s => do
      Prog.perform (I := lockedInterface) (.broker (.acquire s.lock))
      Prog.perform (I := lockedInterface) (.broker (.run s))

/-- A program over the broker's sections, on the broker with its locks. -/
def onLocks {α : Type} (p : Prog memoryInterface α) : Prog lockedInterface α :=
  p.interp withLocks

/-- A program is between two calls, or has the lock of this section. -/
inductive LockedStage (σ : Type) where
  | free (t : σ)
  | inside (t : σ) (s : Section)

/-- The calls of a program with its locks, where `step` is its protocol without them. -/
inductive LockedStep {σ : Type}
    (step : σ → (op : memoryInterface.Op) → memoryInterface.Res op → σ → Prop) :
    LockedStage σ → (op : lockedInterface.Op) → lockedInterface.Res op → LockedStage σ → Prop where
  | runtime {t t' : σ} {op : RuntimeOp} {r : op.Res} :
      step t (.runtime op) r t' → LockedStep step (.free t) (.runtime op) r (.free t')
  | backend {t t' : σ} {op : ResultBackendOp} {r : op.Res} :
      step t (.backend op) r t' → LockedStep step (.free t) (.backend op) r (.free t')
  | acquire {t t' : σ} {s : Section} :
      step t (.broker s) () t' →
      LockedStep step (.free t) (.broker (.acquire s.lock)) () (.inside t s)
  | run {t t' : σ} {s : Section} :
      step t (.broker s) () t' → LockedStep step (.inside t s) (.broker (.run s)) () (.free t')

/-- A program does not stop inside a section. -/
def LockedStage.Final {σ : Type} (final : σ → Prop) : LockedStage σ → Prop
  | .free t => final t
  | .inside _ _ => False

/-- The protocol of a program with its locks. -/
abbrev withLock (P : Protocol memoryInterface) : Protocol lockedInterface :=
  ⟨LockedStage P.Stage, LockedStep P.Step, LockedStage.Final P.Final⟩

/-- A program that follows a protocol follows it with its locks. -/
theorem follows_onLocks {P : Protocol memoryInterface} {p : Prog memoryInterface Unit}
    {t : P.Stage} (h : p.Follows P t) : (onLocks p).Follows (withLock P) (.free t) := by
  refine Prog.Follows.interp (P := P) (R := withLock P) LockedStage.free ?_ (fun _ hf => hf) h
  intro t op f hstep
  cases op with
  | runtime op => exact fun r => ⟨.free (f r), .runtime (hstep r), rfl⟩
  | backend op => exact fun r => ⟨.free (f r), .backend (hstep r), rfl⟩
  | broker s =>
      intro _
      refine ⟨.inside t s, .acquire (hstep ()), fun _ => ?_⟩
      exact ⟨.free (f ()), .run (hstep ()), rfl⟩

/-! ## Tasks -/

section Tasks

variable {I : Interface}

/-- A program that runs beside the worker: it has no permit. -/
def beside : Prog I Unit → Prog (spawned I) Unit
  | .ret _ => .ret ()
  | .call op k =>
      .call (.call op) fun
        | some r => beside (k r)
        | none => .ret ()

/-- A task executes, or a call of it has panicked, or it has dropped its permit. -/
inductive TaskStage (σ : Type) where
  | live (t : σ)
  | unwinding
  | over

/-- The calls of a task, where `step` and `final` are the protocol of its execution. -/
inductive TaskStep {σ : Type} (step : σ → (op : I.Op) → I.Res op → σ → Prop) (final : σ → Prop) :
    TaskStage σ → (op : (spawned I).Op) → (spawned I).Res op → TaskStage σ → Prop where
  | call {t t' : σ} {op : I.Op} {r : I.Res op} :
      step t op r t' → TaskStep step final (.live t) (.call op) (some r) (.live t')
  | panic {t : σ} {op : I.Op} :
      (∀ r, ∃ t', step t op r t') → TaskStep step final (.live t) (.call op) none .unwinding
  | finish {t : σ} : final t → TaskStep step final (.live t) .dropPermit () .over
  | unwound : TaskStep step final .unwinding .dropPermit () .over

/-- A task stops where its execution may, or after a panic. -/
def TaskStage.Final {σ : Type} (final : σ → Prop) : TaskStage σ → Prop
  | .live t => final t
  | _ => True

/-- The protocol of a task. -/
abbrev tasks (P : Protocol I) : Protocol (spawned I) :=
  ⟨TaskStage P.Stage, TaskStep P.Step P.Final, TaskStage.Final P.Final⟩

variable {P : Protocol I} {p : Prog I Unit} {t : P.Stage}

/-- A spawned execution. -/
theorem follows_spawn (h : p.Follows P t) : (spawn p).Follows (tasks P) (.live t) := by
  induction p generalizing t with
  | ret a => exact fun _ => ⟨.over, .finish h, trivial⟩
  | call op k ih =>
      rw [spawn]
      intro r
      cases r with
      | none =>
          refine ⟨.unwinding, .panic fun r => ?_, fun _ => ⟨.over, .unwound, trivial⟩⟩
          obtain ⟨t', hstep, -⟩ := h r
          exact ⟨t', hstep⟩
      | some r =>
          obtain ⟨t', hstep, hk⟩ := h r
          exact ⟨.live t', .call hstep, ih r hk⟩

/-- A program beside the worker. -/
theorem follows_beside (h : p.Follows P t) : (beside p).Follows (tasks P) (.live t) := by
  induction p generalizing t with
  | ret a => exact h
  | call op k ih =>
      rw [beside]
      intro r
      cases r with
      | none =>
          refine ⟨.unwinding, .panic fun r => ?_, trivial⟩
          obtain ⟨t', hstep, -⟩ := h r
          exact ⟨t', hstep⟩
      | some r =>
          obtain ⟨t', hstep, hk⟩ := h r
          exact ⟨.live t', .call hstep, ih r hk⟩

end Tasks

end Kojin.Core
