/-
  Core/MemorySystem.lean --- workers and clients over the in-memory broker.

  The broker's primitives are its lock-protected sections, so `nack` and
  `dead_letter` are two primitives each and anything may happen in between.  The
  result backend answers method by method; which backend it is, is left open.

  Workers and clients are the threads of a pool.  From outside come messages of
  other producers, calls of other users of the backend, and the polls of workers:
  a poll that finds a message starts an execution of it.  A worker's own
  concurrency limit only removes interleavings, so it is not needed here.

  `Role` is the protocol of a thread on this system, and `reach_roles` the
  statement that every history of threads is a history of roles.
-/
import Kojin.Core.Canvas
import Kojin.Core.Lifecycle
import Kojin.Core.MemoryBroker

set_option autoImplicit false

namespace Kojin.Core

open Kojin.Foundation

/-! ## The broker's sections -/

/-- The lock-protected sections a trait method is made of. -/
inductive Section where
  | enqueue (m : TaskMessage)
  | schedule (m : TaskMessage) (eta : DateTime)
  | ack (id : TaskId)
  | release (s : Settling)
  | deliver (s : Settling)

/-- A section only returns. -/
def sections : Interface := ⟨Section, fun _ => Unit⟩

/-- The trait method a settling call belongs to. -/
def Settling.method : Settling → BrokerOp
  | .nack m => .nack m
  | .deadLetter m => .deadLetter m

namespace MemoryBroker

/-- Two sections one after the other. -/
def settle (s : Settling) : Prog sections (TaskResult Unit) := do
  Prog.perform (I := sections) (.release s)
  Prog.perform (I := sections) (.deliver s)
  pure (.ok ())

/-- One section. -/
def once (s : Section) : Prog sections (TaskResult Unit) := do
  Prog.perform (I := sections) s
  pure (.ok ())

/-- `impl Broker for MemoryBroker`. -/
def driver : BrokerDriver sections
  | .enqueue m => once (.enqueue m)
  | .ack id => once (.ack id)
  | .nack m => settle (.nack m)
  | .deadLetter m => settle (.deadLetter m)
  | .schedule m eta => once (.schedule m eta)

/-- What a section does to the broker. -/
def run (b : MemoryBroker) : Section → MemoryBroker
  | .enqueue m => b.enqueue m
  | .schedule m eta => b.schedule m eta
  | .ack id => b.removeProcessing id
  | .release s => b.removeProcessing s.message.id
  | .deliver (.nack m) => b.enqueue m
  | .deliver (.deadLetter m) => b.pushDlq m

/-- The broker answers every section at once. -/
def service : Service sections := ⟨MemoryBroker, Unit, fun _ b s => some ((), b.run s)⟩

end MemoryBroker

/-! ## The system -/

/-- The calls of a thread on this system. -/
abbrev memoryInterface : Interface := system sections resultBackendTrait

/-- A program over the traits, on the in-memory broker. -/
def onMemory {α : Type} (p : Prog traits α) : Prog memoryInterface α :=
  link MemoryBroker.driver directBackend p

section System

variable (S : Service resultBackendTrait) (codec : Codec)

/-- What arrives from outside: a message of another producer, a call of another
user of the backend, or the poll of a worker. -/
inductive MemoryStimulus where
  | enqueue (m : TaskMessage)
  | backend (o : S.Oracle) (op : ResultBackendOp)
  | poll (w : Worker) (queues : List String)

/-- Workers and clients over the in-memory broker and the backend `S`. -/
def memorySystem : Machine memoryInterface where
  toService := systemService MemoryBroker.service S
  Stimulus := MemoryStimulus S
  accept
    | .enqueue m, (b, s) => some ((b.enqueue m, s), [])
    | .backend o op, (b, s) => (S.respond o s op).map fun p => ((b, p.2), [])
    | .poll w queues, (b, s) =>
        (b.tryDequeue queues).map fun p => ((p.2, s), [onMemory (executeTask w codec p.1)])

/-- The system at its start: an empty broker and clients about to submit their
workflows. -/
def memoryStart (s₀ : S.State) (canvases : List Canvas) : (memorySystem S codec).Config :=
  ⟨(MemoryBroker.new, s₀), canvases.map fun c => onMemory (c.submit codec)⟩

end System

/-! ## The roles of its threads -/

/-- A thread is an execution, an execution between the two sections of a settling
call, or a client submitting a workflow. -/
inductive Role where
  | exec (t : Stage)
  | settling (s : Settling)
  | client (s : Canvas.Submission)

/-- Which section or call leads from which role to which. -/
inductive Role.Step (codec : Codec) :
    Role → (op : memoryInterface.Op) → memoryInterface.Res op → Role → Prop where
  | runtime {t t' : Stage} {op : RuntimeOp} {r : op.Res} :
      Stage.Step codec t (.runtime op) r t' →
      Step codec (.exec t) (.runtime op) r (.exec t')
  | backend {t t' : Stage} {op : ResultBackendOp} {r : op.Res} :
      Stage.Step codec t (.backend op) r t' →
      Step codec (.exec t) (.backend op) r (.exec t')
  | enqueue {t t' : Stage} {m : TaskMessage} :
      Stage.Step codec t (.broker (.enqueue m)) (.ok ()) t' →
      Step codec (.exec t) (.broker (.enqueue m)) () (.exec t')
  | ack {t t' : Stage} {id : TaskId} :
      Stage.Step codec t (.broker (.ack id)) (.ok ()) t' →
      Step codec (.exec t) (.broker (.ack id)) () (.exec t')
  | schedule {t t' : Stage} {m : TaskMessage} {eta : DateTime} :
      Stage.Step codec t (.broker (.schedule m eta)) (.ok ()) t' →
      Step codec (.exec t) (.broker (.schedule m eta)) () (.exec t')
  | release {t t' : Stage} {s : Settling} :
      Stage.Step codec t (.broker s.method) (.ok ()) t' →
      Step codec (.exec t) (.broker (.release s)) () (.settling s)
  | deliver (s : Settling) :
      Step codec (.settling s) (.broker (.deliver s)) () (.exec .gone)
  | clientRuntime {s s' : Canvas.Submission} {op : RuntimeOp} {r : op.Res} :
      Canvas.Submission.Step codec s (.runtime op) r s' →
      Step codec (.client s) (.runtime op) r (.client s')
  | clientBackend {s s' : Canvas.Submission} {op : ResultBackendOp} {r : op.Res} :
      Canvas.Submission.Step codec s (.backend op) r s' →
      Step codec (.client s) (.backend op) r (.client s')
  | clientEnqueue {s s' : Canvas.Submission} {m : TaskMessage} :
      Canvas.Submission.Step codec s (.broker (.enqueue m)) (.ok ()) s' →
      Step codec (.client s) (.broker (.enqueue m)) () (.client s')

/-- A thread may stop where its execution or its submission may. -/
def Role.Final : Role → Prop
  | .exec t => t.Final
  | .settling _ => False
  | .client s => s.Final

/-- The protocol of the threads of this system. -/
abbrev roles (codec : Codec) : Protocol memoryInterface := ⟨Role, Role.Step codec, Role.Final⟩

variable {codec : Codec}

/-- A settling call, in its two sections. -/
theorem settle_wp {t t' : Stage} {s : Settling}
    (h : Stage.Step codec t (.broker s.method) (.ok ()) t') (hgone : t' = .gone) :
    (onBroker (MemoryBroker.settle s)).wp (roles codec) (.exec t)
      fun (r : TaskResult Unit) u => r = .ok () ∧ u = .exec t' := by
  intro _
  refine ⟨.settling s, .release h, ?_⟩
  intro _
  refine ⟨.exec .gone, .deliver s, rfl, ?_⟩
  rw [hgone]

/-- Only an execution that is about to settle its message calls `nack` or
`dead_letter`, and with that it is done. -/
theorem Stage.Step.gone_of_settle {t t' : Stage} {s : Settling} {r : TaskResult Unit}
    (h : Stage.Step codec t (.broker s.method) r t') : t' = .gone := by
  cases s with
  | nack m => cases h; rfl
  | deadLetter m => cases h; rfl

/-- Every call of an execution is implemented in line with its role. -/
theorem drive_exec_wp (t : Stage) (op : traits.Op) (f : traits.Res op → Stage)
    (h : ∀ r, Stage.Step codec t op r (f r)) :
    (drive MemoryBroker.driver directBackend op).wp (roles codec) (.exec t)
      fun r u => u = .exec (f r) := by
  cases op with
  | runtime op => exact fun r => ⟨_, .runtime (h r), rfl⟩
  | backend op => exact fun r => ⟨_, .backend (h r), rfl⟩
  | broker op =>
      cases op with
      | enqueue m => exact fun _ => ⟨_, .enqueue (h (.ok ())), rfl⟩
      | ack id => exact fun _ => ⟨_, .ack (h (.ok ())), rfl⟩
      | schedule m eta => exact fun _ => ⟨_, .schedule (h (.ok ())), rfl⟩
      | nack m =>
          have hstep := h (.ok ())
          refine Prog.wp_mono (settle_wp (s := .nack m) hstep
            (Stage.Step.gone_of_settle (s := .nack m) hstep)) ?_
          rintro r u ⟨rfl, hu⟩
          exact hu
      | deadLetter m =>
          have hstep := h (.ok ())
          refine Prog.wp_mono (settle_wp (s := .deadLetter m) hstep
            (Stage.Step.gone_of_settle (s := .deadLetter m) hstep)) ?_
          rintro r u ⟨rfl, hu⟩
          exact hu

/-- Every call of a submission is implemented in line with its role. -/
theorem drive_client_wp (s : Canvas.Submission) (op : traits.Op)
    (f : traits.Res op → Canvas.Submission)
    (h : ∀ r, Canvas.Submission.Step codec s op r (f r)) :
    (drive MemoryBroker.driver directBackend op).wp (roles codec) (.client s)
      fun r u => u = .client (f r) := by
  cases op with
  | runtime op => exact fun r => ⟨_, .clientRuntime (h r), rfl⟩
  | backend op => exact fun r => ⟨_, .clientBackend (h r), rfl⟩
  | broker op =>
      cases op with
      | enqueue m => exact fun _ => ⟨_, .clientEnqueue (h (.ok ())), rfl⟩
      | ack id => exact nomatch h (.ok ())
      | schedule m eta => exact nomatch h (.ok ())
      | nack m => exact nomatch h (.ok ())
      | deadLetter m => exact nomatch h (.ok ())

/-- An execution on this system plays its role. -/
theorem executeTask_role (w : Worker) (m : TaskMessage) :
    (onMemory (executeTask w codec m)).Follows (roles codec)
      (.exec (.received w.hasBackend m)) :=
  Prog.Follows.interp (P := lifecycle codec) (R := roles codec) Role.exec
    (fun t op f h => drive_exec_wp t op f h) (fun _ h => h) (executeTask_follows w m)

/-- A submission on this system plays its role. -/
theorem submit_role (c : Canvas) :
    (onMemory (c.submit codec)).Follows (roles codec) (.client (.fresh c)) :=
  Prog.Follows.interp (P := Canvas.submission codec) (R := roles codec) Role.client
    (fun s op f h => drive_client_wp s op f h) (fun _ h => h) (Canvas.submit_follows c)

/-- The role a stimulus starts. -/
def MemoryStimulus.roles {S : Service resultBackendTrait} :
    MemoryStimulus S → MemoryBroker × S.State → List Role
  | .enqueue _, _ => []
  | .backend _ _, _ => []
  | .poll w queues, s =>
      ((s.1.tryDequeue queues).map fun p => Role.exec (.received w.hasBackend p.1)).toList

/-- The pool with roles in place of threads. -/
abbrev RoleConfig (S : Service resultBackendTrait) (codec : Codec) : Type :=
  (memorySystem S codec).Staged (roles codec)

/-- Histories of the pool of roles. -/
abbrev RoleReach {S : Service resultBackendTrait} (c₀ : RoleConfig S codec)
    (tr : List (memorySystem S codec).Label) (c : RoleConfig S codec) : Prop :=
  Machine.StagedReach (M := memorySystem S codec) (roles codec) MemoryStimulus.roles c₀ tr c

/-- One step of the pool of roles. -/
abbrev RoleStep {S : Service resultBackendTrait} (c : RoleConfig S codec)
    (l : (memorySystem S codec).Label) (c' : RoleConfig S codec) : Prop :=
  Machine.StagedStep (M := memorySystem S codec) (roles codec) MemoryStimulus.roles c l c'

/-- The clients play their roles from the start. -/
theorem clients_follow (canvases : List Canvas) :
    List.Forall₂ (Prog.Follows (roles codec))
      (canvases.map fun c => onMemory (c.submit codec))
      (canvases.map fun c => Role.client (.fresh c)) := by
  induction canvases with
  | nil => exact .nil
  | cons c canvases ih => exact .cons (submit_role c) ih

/-- Every history from the start is a history of roles, over the same broker and
the same backend; each thread has come as far as its role says. -/
theorem reach_roles {S : Service resultBackendTrait} {s₀ : S.State} {canvases : List Canvas}
    {c : (memorySystem S codec).Config} {tr : List (memorySystem S codec).Label}
    (h : (memorySystem S codec).Reach (memoryStart S codec s₀ canvases) tr c) :
    ∃ rs : List Role,
      RoleReach ⟨(MemoryBroker.new, s₀), canvases.map fun c => .client (.fresh c)⟩ tr
        ⟨c.state, rs⟩ ∧
      List.Forall₂ (Prog.Follows (roles codec)) c.threads rs := by
  refine Machine.Reach.staged (P := roles codec) ?_ (clients_follow canvases) h
  intro x s s' new haccept
  rcases s with ⟨b, s⟩
  cases x with
  | enqueue m =>
      cases haccept
      exact .nil
  | backend o op =>
      obtain ⟨p, -, heq⟩ := Option.map_eq_some_iff.mp haccept
      cases heq
      exact .nil
  | poll w queues =>
      obtain ⟨p, hp, heq⟩ := Option.map_eq_some_iff.mp haccept
      cases heq
      simp only [MemoryStimulus.roles, hp, Option.map_some, Option.toList_some]
      exact .cons (executeTask_role w p.1) .nil

end Kojin.Core
