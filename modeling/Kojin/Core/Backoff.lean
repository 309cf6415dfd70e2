/-
  Core/Backoff.lean --- how long a worker waits before a retry (`kojin-core`: `task.rs`,
  `registry.rs` and `handle_failure` of `worker.rs`).

  A task type declares its backoff strategy.  The registry keeps the handler of a type
  and nothing else of it, and the failure path asks the default strategy.

  `Retried T m delays m'`: executed again and again, the message `m` of the task `T` has
  come to be `m'`, and before each retry the worker waited as `delays` says.
-/
import Kojin.Core.Hooks

set_option autoImplicit false

namespace Kojin.Core

open Kojin.Foundation

/-! ## Task types -/

/-- `Task`: what the trait declares of a type. -/
structure Task where
  name : String
  queue : String
  maxRetries : UInt32
  backoff : BackoffStrategy

/-- `Task::signature`. -/
def Task.signature (T : Task) (payload : Json) : Signature :=
  ⟨T.name, T.queue, payload, T.maxRetries, none, ∅, none, none⟩

/-- `TaskRegistry::register`: the handler is inserted under the name of the task. -/
def register (registry : List String) (T : Task) : List String :=
  if T.name ∈ registry then registry else registry ++ [T.name]

/-! ## The waits and retries of one execution -/

/-- The worker waits, or sends a message back. -/
def retryOf : Event traits → Option (UInt64 ⊕ TaskMessage)
  | ⟨.runtime (.sleep delay), _⟩ => some (.inl delay)
  | ⟨.broker (.nack m), _⟩ => some (.inr m)
  | _ => none

/-- The waits and retries of an execution, in order. -/
def retriesOf (tr : List (Event traits)) : List (UInt64 ⊕ TaskMessage) := tr.filterMap retryOf

/-- How long the worker waits. -/
def waits (tr : List (Event traits)) : List UInt64 := (retriesOf tr).filterMap Sum.getLeft?

/-- The call is neither a wait nor a retry. -/
def Steady (op : traits.Op) : Prop := ∀ r, retryOf ⟨op, r⟩ = none

section Execution

variable {tr tr' : List (Event traits)}

@[simp] theorem retriesOf_append : retriesOf (tr ++ tr') = retriesOf tr ++ retriesOf tr' :=
  List.filterMap_append

/-- A call that is neither a wait nor a retry, before the others. -/
theorem retriesOf_cons {op : traits.Op} {r : traits.Res op} (h : Steady op) :
    retriesOf (⟨op, r⟩ :: tr) = retriesOf tr := List.filterMap_cons_none (h r)

theorem retriesOf_of_calls {α : Type} {p : Prog traits α} {a : α} (h : p.Calls Steady)
    (htr : p.Trace tr a) : retriesOf tr = [] := Prog.filterMap_of_hidden retryOf h htr

theorem steady_logError (r : TaskResult Unit) (event : KojinError → TraceEvent) :
    (logError r event).Calls Steady := by
  cases r with
  | ok _ => trivial
  | error e => exact ⟨fun _ => rfl, fun _ => trivial⟩

theorem steady_runBefore (m : TaskMessage) (mws : List Nat) : (runBefore m mws).Calls Steady := by
  induction mws with
  | nil => trivial
  | cons mw rest ih =>
      refine ⟨fun _ => rfl, fun r => ?_⟩
      cases r with
      | ok _ => exact ih
      | error e => trivial

theorem steady_runAfter (m : TaskMessage) (result : Json) (mws : List Nat) :
    (runAfter m result mws).Calls Steady := by
  induction mws with
  | nil => trivial
  | cons mw rest ih =>
      exact Prog.Calls.bind (calls_runtime fun _ => rfl) fun answer =>
        Prog.Calls.bind (steady_logError answer _) fun _ => ih

theorem steady_runOnError (m : TaskMessage) (e : KojinError) (mws : List Nat) :
    (runOnError m e mws).Calls Steady := by
  induction mws with
  | nil => trivial
  | cons mw rest ih =>
      exact Prog.Calls.bind (calls_runtime fun _ => rfl) fun answer =>
        Prog.Calls.bind (steady_logError answer _) fun _ => ih

theorem steady_dispatch (w : Worker) (m : TaskMessage) : (dispatch w m).Calls Steady := by
  unfold dispatch
  split
  · exact ⟨fun _ => rfl, fun _ => trivial⟩
  · trivial

theorem steady_of_quiet (op : traits.Op) (h : QuietOp op) : Steady op := by
  intro r
  rcases h with h | ⟨e, rfl, -⟩
  · cases op with
    | backend op => rfl
    | broker op => cases op <;> first | rfl | exact h.elim
    | runtime op => cases op <;> first | rfl | exact h.elim
  · rfl

theorem steady_onSuccess (w : Worker) (codec : Codec) (m : TaskMessage) (result : Json) :
    (onSuccess w codec m result).Calls Steady := by
  refine Prog.Calls.bind (steady_runAfter _ _ _) fun _ => ?_
  refine Prog.Calls.bind (calls_broker fun _ => rfl) fun acked => ?_
  refine Prog.Calls.bind (steady_logError acked _) fun _ => ?_
  refine Prog.Calls.bind (Prog.Calls.mono steady_of_quiet (calls_followUp w codec _ result)) ?_
  exact fun _ => calls_runtime fun _ => rfl

theorem steady_reschedule (m : TaskMessage) (eta : DateTime) :
    (reschedule m eta).Calls Steady := by
  refine Prog.Calls.bind (calls_runtime fun _ => rfl) fun _ => ?_
  refine Prog.Calls.bind (calls_broker fun _ => rfl) fun acked => ?_
  refine Prog.Calls.bind (steady_logError acked _) fun _ => ?_
  exact Prog.Calls.bind (calls_broker fun _ => rfl) fun scheduled => steady_logError scheduled _

/-- The default strategy is asked, for the number of retries made before. -/
theorem delay_retryCopy (m : TaskMessage) (now : DateTime) :
    BackoffStrategy.default.delayFor ((m.retryCopy now).retries - 1) =
      BackoffStrategy.default.delayFor m.retries := by
  show BackoffStrategy.default.delayFor (m.retries + 1 - 1) = _
  rw [UInt32.add_sub_cancel]

theorem retriesOf_retry {m : TaskMessage} {u : Unit} (h : (retry m).Trace tr u) :
    ∃ now, retriesOf tr =
      [.inl (BackoffStrategy.default.delayFor m.retries), .inr (m.retryCopy now)] := by
  obtain ⟨now, _, rfl, hlog⟩ := trace_runtime h
  obtain ⟨_, _, rfl, hsleep⟩ := trace_runtime hlog
  obtain ⟨_, _, rfl, hnack⟩ := trace_runtime hsleep
  obtain ⟨result, rest, rfl, hend⟩ := trace_broker hnack
  have hrest : retriesOf rest = [] := retriesOf_of_calls (steady_logError result _) hend
  refine ⟨now, ?_⟩
  show [_, _] ++ retriesOf rest = _
  rw [hrest, delay_retryCopy]
  rfl

theorem retriesOf_handleFailure {w : Worker} {m : TaskMessage} {e : KojinError} {u : Unit}
    (h : (handleFailure w m e).Trace tr u) :
    retriesOf tr = [] ∨ m.retries < m.maxRetries ∧ ∃ now, retriesOf tr =
      [.inl (BackoffStrategy.default.delayFor m.retries), .inr (m.retryCopy now)] := by
  obtain ⟨tr₁, tr₂, v, rfl, hhooks, hsettle⟩ := Prog.trace_bind_iff.mp h
  rw [retriesOf_append, retriesOf_of_calls (steady_runOnError m e _) hhooks, List.nil_append]
  split at hsettle
  · exact .inr ⟨‹_›, retriesOf_retry hsettle⟩
  · refine .inl (retriesOf_of_calls ?_ hsettle)
    exact ⟨fun _ => rfl, fun _ => ⟨fun _ => rfl, fun _ => ⟨fun _ => rfl, fun r =>
      steady_logError r _⟩⟩⟩

theorem retriesOf_runTask {w : Worker} {codec : Codec} {m : TaskMessage} {u : Unit}
    (h : (runTask w codec m).Trace tr u) :
    retriesOf tr = [] ∨ m.retries < m.maxRetries ∧ ∃ now, retriesOf tr =
      [.inl (BackoffStrategy.default.delayFor m.retries), .inr (m.start.retryCopy now)] := by
  obtain ⟨_, _, rfl, hrun⟩ := trace_runtime h
  obtain ⟨tr₁, tr₂, outcome, rfl, hbefore, hnext⟩ := Prog.trace_bind_iff.mp hrun
  rw [retriesOf_cons fun _ => rfl, retriesOf_append,
    retriesOf_of_calls (steady_runBefore m.start _) hbefore, List.nil_append]
  cases outcome with
  | error e =>
      obtain ⟨_, rest, rfl, hfailure⟩ := trace_runtime hnext
      rw [retriesOf_cons fun _ => rfl]
      exact retriesOf_handleFailure (m := m.start) hfailure
  | ok _ =>
      obtain ⟨tr₃, tr₄, r, rfl, hdispatch, hend⟩ := Prog.trace_bind_iff.mp hnext
      rw [retriesOf_append, retriesOf_of_calls (steady_dispatch w m.start) hdispatch,
        List.nil_append]
      cases r with
      | ok result => exact .inl (retriesOf_of_calls (steady_onSuccess w codec _ result) hend)
      | error e =>
          obtain ⟨_, rest, rfl, hfailure⟩ := trace_runtime hend
          rw [retriesOf_cons fun _ => rfl]
          exact retriesOf_handleFailure (m := m.start) hfailure

/-- One execution: no retry, or one wait of the default strategy and one retry. -/
theorem retriesOf_executeTask {w : Worker} {codec : Codec} {m : TaskMessage} {u : Unit}
    (h : (executeTask w codec m).Trace tr u) :
    retriesOf tr = [] ∨ m.retries < m.maxRetries ∧ ∃ now, retriesOf tr =
      [.inl (BackoffStrategy.default.delayFor m.retries), .inr (m.start.retryCopy now)] := by
  unfold executeTask at h
  split at h
  · exact retriesOf_runTask h
  · obtain ⟨now, rest, rfl, hnext⟩ := trace_runtime h
    rw [retriesOf_cons fun _ => rfl]
    split at hnext
    · exact .inl (retriesOf_of_calls (steady_reschedule m _) hnext)
    · exact retriesOf_runTask hnext

/-- An execution that sends a message back. -/
theorem waits_of_nack {w : Worker} {codec : Codec} {m m' : TaskMessage} {u : Unit}
    {r : TaskResult Unit} (h : (executeTask w codec m).Trace tr u)
    (hm : (⟨.broker (.nack m'), r⟩ : Event traits) ∈ tr) :
    waits tr = [BackoffStrategy.default.delayFor m.retries] ∧ m'.retries = m.retries + 1 := by
  have hmem : .inr m' ∈ retriesOf tr := List.mem_filterMap.mpr ⟨_, hm, rfl⟩
  rcases retriesOf_executeTask h with hnone | ⟨-, now, hone⟩
  · rw [hnone] at hmem
    cases hmem
  · rw [hone] at hmem
    obtain rfl : m' = m.start.retryCopy now := by simpa using hmem
    exact ⟨by rw [waits, hone]; rfl, rfl⟩

end Execution

/-! ## The retries of a message -/

/-- The message `m` of the task `T` after some retries, and the waits before them.  Each
execution is that of a worker that knows the task, and the broker hands it the copy that was
given to `nack` by the one before. -/
inductive Retried (T : Task) (m : TaskMessage) : List UInt64 → TaskMessage → Prop where
  | submitted : m.taskName = T.name → Retried T m [] m
  | again {delays : List UInt64} {m' m'' : TaskMessage} {w : Worker} {codec : Codec}
      {registry : List String} {tr : List (Event traits)} {r : TaskResult Unit} :
      Retried T m delays m' → w.registry = register registry T →
      (executeTask w codec m').Trace tr () → ⟨.broker (.nack m''), r⟩ ∈ tr →
      Retried T m (delays ++ waits tr) m''

/-- The first `n` waits of a strategy, for a message that was retried `start` times. -/
def BackoffStrategy.delays (strategy : BackoffStrategy) (start : UInt32) (n : Nat) : List UInt64 :=
  (List.range n).map fun k => strategy.delayFor (start + UInt32.ofNat k)

theorem BackoffStrategy.delays_succ (strategy : BackoffStrategy) (start : UInt32) (n : Nat) :
    strategy.delays start (n + 1) =
      strategy.delays start n ++ [strategy.delayFor (start + UInt32.ofNat n)] := by
  rw [delays, List.range_succ, List.map_append]
  rfl

/-- The waits are those of the default strategy. -/
theorem delays_default {T : Task} {m m' : TaskMessage} {delays : List UInt64}
    (h : Retried T m delays m') :
    delays = BackoffStrategy.default.delays m.retries delays.length ∧
      m'.retries = m.retries + UInt32.ofNat delays.length := by
  induction h with
  | submitted _ => exact ⟨rfl, by simp⟩
  | @again delays m' m'' _ _ _ tr _ _ _ htr hnack ih =>
      obtain ⟨hdelays, hretries⟩ := ih
      obtain ⟨hwaits, hcount⟩ := waits_of_nack htr hnack
      rw [hwaits, List.length_append, List.length_singleton, BackoffStrategy.delays_succ, ← hdelays,
        hretries, hcount, hretries]
      refine ⟨rfl, ?_⟩
      rw [UInt32.ofNat_add, ← UInt32.add_assoc]
      rfl

/-- The waits before the retries of a message are those of its task's own strategy just
when that strategy agrees with the default one on these retries. -/
theorem own_backoff_iff (T : Task) {m m' : TaskMessage} {delays : List UInt64}
    (h : Retried T m delays m') :
    delays = T.backoff.delays m.retries delays.length ↔
      ∀ k < delays.length, T.backoff.delayFor (m.retries + UInt32.ofNat k) =
        BackoffStrategy.default.delayFor (m.retries + UInt32.ofNat k) := by
  have hdefault := (delays_default h).1
  constructor
  · intro hown k hk
    have heq := hown.symm.trans hdefault
    exact List.map_inj_left.mp heq k (List.mem_range.mpr hk)
  · intro hagree
    refine hdefault.trans (List.map_congr_left fun k hk => ?_)
    exact (hagree k (List.mem_range.mp hk)).symm

/-- A task with a strategy of its own. -/
def ownTask (strategy : BackoffStrategy) : Task := ⟨"own", "default", 3, strategy⟩

/-- A message of the task with a strategy of its own. -/
def ownMessage : TaskMessage := ((ownTask .default).signature .null).intoMessage ⟨0⟩ ⟨1⟩

/-- A worker that knows the task. -/
def ownWorker : Worker := ⟨["own"], [], false⟩

/-- The first retry of the message, after one second. -/
theorem own_retried (strategy : BackoffStrategy) :
    Retried (ownTask strategy) ownMessage [1] (ownMessage.start.retryCopy ⟨0⟩) := by
  have htr : (executeTask ownWorker blankCodec ownMessage).Trace
      (execution ownWorker ownMessage failingRuntime) () := Prog.trace_answered _ _
  have hnack : (⟨.broker (.nack (ownMessage.start.retryCopy ⟨0⟩)), .ok ()⟩ : Event traits) ∈
      execution ownWorker ownMessage failingRuntime :=
    List.mem_iff_get.mpr ⟨⟨6, by decide⟩, rfl⟩
  have hregistry : ownWorker.registry = register [] (ownTask strategy) := rfl
  exact .again (.submitted rfl) hregistry htr hnack

/-- A strategy that agrees with the default one on the first retry. -/
theorem own_backoff_iff_doubling :
    [1] = (BackoffStrategy.exponential 1 60).delays ownMessage.retries 1 :=
  (own_backoff_iff (ownTask (.exponential 1 60)) (own_retried _)).mpr (by decide)

/-- A task that is to be retried after five seconds is retried after one. -/
theorem own_backoff_ignored :
    ∃ m delays m', Retried (ownTask (.fixed 5)) m delays m' ∧
      delays ≠ (BackoffStrategy.fixed 5).delays m.retries delays.length :=
  ⟨ownMessage, [1], _, own_retried _, by decide⟩

end Kojin.Core
