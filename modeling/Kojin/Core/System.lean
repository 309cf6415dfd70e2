/-
  Core/System.lean --- the calls a worker makes, and how a deployment answers
  them (`kojin-core`: `broker.rs`, `result_backend.rs`, `middleware.rs`,
  `registry.rs`).

  The worker and the workflow code are written against traits: a broker, a result
  backend, middlewares and handlers, and against the clock and the random source
  of their runtime.  Here every trait method is an operation of an interface, so
  the code is a `Prog` that leaves all of them open.

  A deployment closes the broker and the backend.  Its broker comes as a driver,
  one program over the broker's own primitives for each trait method, and so does
  its backend; `link` puts the drivers in place of the calls.  The primitives are
  the unit of interleaving: a lock-protected section, a command, a statement.
-/
import Kojin.Core.Message
import Kojin.Foundation.Machine

set_option autoImplicit false

namespace Kojin.Core

open Kojin.Foundation

/-! ## The runtime -/

/-- The lines the worker logs.  `executing` and `completed` name the task in the
source; here they keep the copy that is executed, so that a history shows it. -/
inductive TraceEvent where
  | etaInFuture (task : TaskId) (eta : DateTime)
  | ackBeforeRescheduleFailed (task : TaskId) (error : KojinError)
  | rescheduleFailed (task : TaskId) (error : KojinError)
  | executing (message : TaskMessage)
  | beforeFailed (task : TaskId) (error : KojinError)
  | afterFailed (task : TaskId) (error : KojinError)
  | ackFailed (task : TaskId) (error : KojinError)
  | storeFailed (task : TaskId) (error : KojinError)
  | groupMemberCompleted (task : TaskId) (group : String) (completed total : UInt32)
  | enqueueCallbackFailed (group : String) (error : KojinError)
  | callbackEnqueued (group : String)
  | completeMemberFailed (task : TaskId) (group : String) (error : KojinError)
  | enqueueContinuationFailed (task : TaskId) (error : KojinError)
  | continuationEnqueued (task : TaskId) (remaining : Nat)
  | deserializeChainFailed (task : TaskId) (error : String)
  | completed (message : TaskMessage)
  | taskFailed (task : TaskId) (taskName : String) (error : KojinError)
  | onErrorFailed (task : TaskId) (error : KojinError)
  | retrying (task : TaskId) (retry maxRetries : UInt32) (backoff : UInt64)
  | nackFailed (task : TaskId) (error : KojinError)
  | maxRetriesExceeded (task : TaskId)
  | deadLetterFailed (task : TaskId) (error : KojinError)

/-- What the worker asks of its runtime, its middlewares and its handlers.  A
middleware is known by its number.  A handler is given a task name and a payload;
`execution` is the copy of the message it is called for, which it does not see. -/
inductive RuntimeOp where
  | utcNow
  | newTaskId
  | newUuid
  | sleep (secs : UInt64)
  | trace (event : TraceEvent)
  | before (middleware : Nat) (message : TaskMessage)
  | after (middleware : Nat) (message : TaskMessage) (result : Json)
  | onError (middleware : Nat) (message : TaskMessage) (error : KojinError)
  | handle (execution : TaskMessage) (taskName : String) (payload : Json)

/-- The answers of the runtime. -/
abbrev RuntimeOp.Res : RuntimeOp → Type
  | .utcNow => DateTime
  | .newTaskId => TaskId
  | .newUuid => TaskId
  | .sleep _ => Unit
  | .trace _ => Unit
  | .before _ _ => TaskResult Unit
  | .after _ _ _ => TaskResult Unit
  | .onError _ _ _ => TaskResult Unit
  | .handle _ _ _ => TaskResult Json

/-- Any answer of the right type: the clock, the handlers and the hooks are not
determined by the program. -/
abbrev RuntimeOracle : Type := (op : RuntimeOp) → op.Res

/-! ## The traits -/

/-- The methods of `trait Broker` that the worker and the workflows call. -/
inductive BrokerOp where
  | enqueue (message : TaskMessage)
  | ack (id : TaskId)
  | nack (message : TaskMessage)
  | deadLetter (message : TaskMessage)
  | schedule (message : TaskMessage) (eta : DateTime)

/-- Every one of them returns `TaskResult<()>`. -/
def brokerTrait : Interface := ⟨BrokerOp, fun _ => TaskResult Unit⟩

/-- The methods of `trait ResultBackend` that the worker and the workflows call. -/
inductive ResultBackendOp where
  | store (id : TaskId) (result : Json)
  | initGroup (group : String) (total : UInt32)
  | completeGroupMember (group : String) (task : TaskId) (result : Json)
  | getGroupResults (group : String)

/-- What the backend methods return. -/
abbrev ResultBackendOp.Res : ResultBackendOp → Type
  | .store _ _ => TaskResult Unit
  | .initGroup _ _ => TaskResult Unit
  | .completeGroupMember _ _ _ => TaskResult UInt32
  | .getGroupResults _ => TaskResult (List Json)

/-- `trait ResultBackend`. -/
def resultBackendTrait : Interface := ⟨ResultBackendOp, ResultBackendOp.Res⟩

/-! ## Systems -/

/-- The calls of a program over a broker with the primitives `B` and a backend
with the primitives `R`. -/
inductive SystemOp (B R : Interface) where
  | runtime (op : RuntimeOp)
  | broker (op : B.Op)
  | backend (op : R.Op)

/-- Each part answers for itself. -/
abbrev SystemOp.Res {B R : Interface} : SystemOp B R → Type
  | .runtime op => op.Res
  | .broker op => B.Res op
  | .backend op => R.Res op

/-- The interface of a system. -/
abbrev system (B R : Interface) : Interface := ⟨SystemOp B R, SystemOp.Res⟩

/-- The interface the source is written against: the traits themselves. -/
abbrev traits : Interface := system brokerTrait resultBackendTrait

/-- Every execution of the pool has returned. -/
def AtRest (threads : List (Prog traits Unit)) : Prop := ∀ p ∈ threads, p = .ret ()

/-- A program over the broker's primitives, as a program of the system. -/
def onBroker {B R : Interface} {α : Type} (p : Prog B α) : Prog (system B R) α :=
  p.interp fun op => Prog.perform (I := system B R) (.broker op)

/-- A program over the backend's primitives, as a program of the system. -/
def onBackend {B R : Interface} {α : Type} (p : Prog R α) : Prog (system B R) α :=
  p.interp fun op => Prog.perform (I := system B R) (.backend op)

/-- A call of the broker's primitives, as an event of the system. -/
def brokerEvent {B R : Interface} (e : Event B) : Event (system B R) := ⟨.broker e.op, e.res⟩

/-- A call of the backend's primitives, as an event of the system. -/
def backendEvent {B R : Interface} (e : Event R) : Event (system B R) := ⟨.backend e.op, e.res⟩

/-- What a program on the broker's primitives does in a system. -/
theorem trace_onBroker {B R : Interface} {α : Type} {p : Prog B α}
    {part : List (Event (system B R))} {a : α}
    (h : Prog.Trace (onBroker p : Prog (system B R) α) part a) :
    ∃ tr, Prog.Trace p tr a ∧ part = tr.map brokerEvent := by
  induction p generalizing part with
  | ret b =>
      obtain ⟨rfl, rfl⟩ := Prog.trace_ret_iff.mp h
      exact ⟨[], .ret _, rfl⟩
  | call op k ih =>
      obtain ⟨r, rest, rfl, hrest⟩ := Prog.trace_call_iff.mp h
      obtain ⟨tr, htr, rfl⟩ := ih r hrest
      exact ⟨⟨op, r⟩ :: tr, .call htr, rfl⟩

/-- What a program on the backend's primitives does in a system. -/
theorem trace_onBackend {B R : Interface} {α : Type} {p : Prog R α}
    {part : List (Event (system B R))} {a : α}
    (h : Prog.Trace (onBackend p : Prog (system B R) α) part a) :
    ∃ tr, Prog.Trace p tr a ∧ part = tr.map backendEvent := by
  induction p generalizing part with
  | ret b =>
      obtain ⟨rfl, rfl⟩ := Prog.trace_ret_iff.mp h
      exact ⟨[], .ret _, rfl⟩
  | call op k ih =>
      obtain ⟨r, rest, rfl, hrest⟩ := Prog.trace_call_iff.mp h
      obtain ⟨tr, htr, rfl⟩ := ih r hrest
      exact ⟨⟨op, r⟩ :: tr, .call htr, rfl⟩

/-- The calls of a system whose calls to the broker satisfy `C`. -/
def BrokerCalls {B R : Interface} (C : B.Op → Prop) : (system B R).Op → Prop
  | .broker op => C op
  | _ => True

/-- A program on the broker's primitives makes their calls in a system. -/
theorem calls_onBroker {B R : Interface} {α : Type} {C : B.Op → Prop} {p : Prog B α}
    (h : p.Calls C) : (onBroker p : Prog (system B R) α).Calls (BrokerCalls C) := by
  induction p with
  | ret a => trivial
  | call op k ih => exact ⟨h.1, fun r => ih r (h.2 r)⟩

/-- A program on the backend's primitives makes none of the broker's. -/
theorem calls_onBackend {B R : Interface} {α : Type} (C : B.Op → Prop) (p : Prog R α) :
    (onBackend p : Prog (system B R) α).Calls (BrokerCalls C) := by
  induction p with
  | ret a => trivial
  | call op k ih => exact ⟨trivial, ih⟩

/-- A broker implementation: one program per trait method. -/
abbrev BrokerDriver (B : Interface) : Type := (op : BrokerOp) → Prog B (TaskResult Unit)

/-- A backend implementation. -/
abbrev BackendDriver (R : Interface) : Type := (op : ResultBackendOp) → Prog R op.Res

/-- The driver of a broker whose methods are its primitives. -/
def directBroker : BrokerDriver brokerTrait := fun op => Prog.perform (I := brokerTrait) op

/-- The driver of a backend whose methods are its primitives. -/
def directBackend : BackendDriver resultBackendTrait :=
  fun op => Prog.perform (I := resultBackendTrait) op

section Link

variable {B R : Interface} (broker : BrokerDriver B) (backend : BackendDriver R)

/-- A broker whose methods are answered in one piece: the primitives of a call run one
after the other, each with an oracle of its own, and nothing comes in between. -/
def wholeMethods (server : Service B) : Service brokerTrait where
  State := server.State
  Oracle := List server.Oracle
  respond os s op := (server.run os (broker op) s).map fun p => (p.2.1, p.2.2)

/-- The program that stands for one call of the traits. -/
def drive : (op : traits.Op) → Prog (system B R) (traits.Res op)
  | .runtime op => Prog.perform (I := system B R) (.runtime op)
  | .broker op => onBroker (broker op)
  | .backend op => onBackend (backend op)

/-- A program over the traits, on the given broker and backend. -/
def link {α : Type} (p : Prog traits α) : Prog (system B R) α := p.interp (drive broker backend)

/-- When the driver only makes calls of one kind, so does every program on it. -/
theorem calls_link {C : B.Op → Prop} (hdriver : ∀ op, (broker op).Calls C) {α : Type}
    (p : Prog traits α) : (link broker backend p).Calls (BrokerCalls C) := by
  induction p with
  | ret a => trivial
  | call op k ih =>
      cases op with
      | runtime op => exact ⟨trivial, ih⟩
      | broker op => exact (calls_onBroker (hdriver op)).bind ih
      | backend op => exact (calls_onBackend C (backend op)).bind ih

end Link

/-- The answers a whole system takes from outside. -/
structure SystemOracle {B R : Interface} (brokers : Service B) (backends : Service R) where
  runtime : RuntimeOracle
  broker : brokers.Oracle
  backend : backends.Oracle

/-- Broker and backend side by side, with the runtime answered by the oracle. -/
def systemService {B R : Interface} (brokers : Service B) (backends : Service R) :
    Service (system B R) where
  State := brokers.State × backends.State
  Oracle := SystemOracle brokers backends
  respond o s
    | .runtime op => some (o.runtime op, s)
    | .broker op => (brokers.respond o.broker s.1 op).map fun p => (p.1, (p.2, s.2))
    | .backend op => (backends.respond o.backend s.2 op).map fun p => (p.1, (s.1, p.2))

end Kojin.Core
