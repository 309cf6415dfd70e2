/-
  Core/Pipeline.lean --- the hooks of one execution (`kojin-core`: `middleware/mod.rs`,
  `worker.rs`).

  `Core/Lifecycle.lean` names the stages of an execution by what it owes the broker.
  The protocol of this file follows the hooks instead: which `before` hooks are left,
  which `on_error` or `after` hooks, and with which error or result.

      entering ─ leaving ─ over                             eta guard
      entering ─ checking ─ rejected | erred ─ failing      failure
                 failing ─ retrying | burying ─ over
                 checking ─ succeeding ─ closing            success

  A `before` hook that fails leads to `failing` with all `on_error` hooks still to
  run, whichever hooks were left.

  `pool` is the machine whose threads are executions, over any broker and any
  backend, method by method.
-/
import Kojin.Core.Worker

set_option autoImplicit false

namespace Kojin.Core

open Kojin.Foundation

/-- What the workers of a deployment have in common: their middlewares in order, and
tasks that every one of them has a handler for. -/
structure Fleet where
  middlewares : List Nat
  tasks : List String

/-- The worker is one of them. -/
def Fleet.Has (crew : Fleet) (w : Worker) : Prop :=
  w.middlewares = crew.middlewares ∧ crew.tasks ⊆ w.registry

instance (crew : Fleet) (w : Worker) : Decidable (crew.Has w) :=
  inferInstanceAs (Decidable (_ ∧ _))

/-! ## Phases -/

/-- How far the hooks of an execution have come. -/
inductive Phase where
  | entering (m : TaskMessage)
  | leaving (m : TaskMessage)
  | checking (m : TaskMessage) (rest : List Nat)
  | rejected (m : TaskMessage) (error : KojinError)
  | erred (m : TaskMessage) (error : KojinError)
  | failing (m : TaskMessage) (error : KojinError) (rest : List Nat)
  | retrying (m : TaskMessage)
  | burying (m : TaskMessage)
  | succeeding (m : TaskMessage) (result : Json) (rest : List Nat)
  | closing (m : TaskMessage) (result : Json)
  | over
  deriving Inhabited

/-- The calls after the acknowledgement: the backend, and messages that are made and
enqueued. -/
def FollowsUp : traits.Op → Prop
  | .backend _ => True
  | .broker (.enqueue _) => True
  | .runtime .utcNow => True
  | .runtime .newTaskId => True
  | _ => False

/-- The log lines that move an execution from one phase to the next: it begins, or it
has failed. -/
def TraceEvent.turns : TraceEvent → Bool
  | .executing _ => true
  | .beforeFailed _ _ => true
  | .taskFailed _ _ _ => true
  | _ => false

section Pipeline

variable (crew : Fleet)

/-- Which call leads from which phase to which. -/
inductive Phase.Step : Phase → (op : traits.Op) → traits.Res op → Phase → Prop where
  | note (t : Phase) {e : TraceEvent} :
      e.turns = false → Step t (.runtime (.trace e)) () t
  -- the eta guard
  | clock {m : TaskMessage} {eta now : DateTime} :
      m.eta = some eta → ¬ now.nanos < eta.nanos →
      Step (.entering m) (.runtime .utcNow) now (.entering m)
  | postpone {m : TaskMessage} {eta now : DateTime} :
      m.eta = some eta → now.nanos < eta.nanos →
      Step (.entering m) (.runtime .utcNow) now (.leaving m)
  | release (m : TaskMessage) (r : TaskResult Unit) :
      Step (.leaving m) (.broker (.ack m.id)) r (.leaving m)
  | reschedule {m : TaskMessage} {eta : DateTime} (r : TaskResult Unit) :
      m.eta = some eta → Step (.leaving m) (.broker (.schedule m eta)) r .over
  | enter (m : TaskMessage) :
      Step (.entering m) (.runtime (.trace (.executing m))) () (.checking m.start crew.middlewares)
  -- the hooks and the handler
  | pass (m : TaskMessage) (mw : Nat) (rest : List Nat) :
      Step (.checking m (mw :: rest)) (.runtime (.before mw m)) (.ok ()) (.checking m rest)
  | reject (m : TaskMessage) (mw : Nat) (rest : List Nat) (e : KojinError) :
      Step (.checking m (mw :: rest)) (.runtime (.before mw m)) (.error e) (.rejected m e)
  | rejection (m : TaskMessage) (e : KojinError) :
      Step (.rejected m e) (.runtime (.trace (.beforeFailed m.id e))) ()
        (.failing m e crew.middlewares)
  | handled (m : TaskMessage) (result : Json) :
      Step (.checking m []) (.runtime (.handle m m.taskName m.payload)) (.ok result)
        (.succeeding m result crew.middlewares)
  | err (m : TaskMessage) (e : KojinError) :
      Step (.checking m []) (.runtime (.handle m m.taskName m.payload)) (.error e) (.erred m e)
  | failure (m : TaskMessage) (e : KojinError) :
      Step (.erred m e) (.runtime (.trace (.taskFailed m.id m.taskName e))) ()
        (.failing m e crew.middlewares)
  | unknown {m : TaskMessage} (e : KojinError) :
      m.taskName ∉ crew.tasks →
      Step (.checking m []) (.runtime (.trace (.taskFailed m.id m.taskName e))) ()
        (.failing m e crew.middlewares)
  | onError (m : TaskMessage) (e : KojinError) (mw : Nat) (rest : List Nat) (r : TaskResult Unit) :
      Step (.failing m e (mw :: rest)) (.runtime (.onError mw m e)) r (.failing m e rest)
  | retry {m : TaskMessage} (e : KojinError) (now : DateTime) :
      m.retries < m.maxRetries →
      Step (.failing m e []) (.runtime .utcNow) now (.retrying (m.retryCopy now))
  | sleep (m : TaskMessage) (secs : UInt64) :
      Step (.retrying m) (.runtime (.sleep secs)) () (.retrying m)
  | nack (m : TaskMessage) (r : TaskResult Unit) : Step (.retrying m) (.broker (.nack m)) r .over
  | bury {m : TaskMessage} (e : KojinError) (now : DateTime) :
      ¬ m.retries < m.maxRetries →
      Step (.failing m e []) (.runtime .utcNow) now (.burying (m.buriedCopy now))
  | deadLetter (m : TaskMessage) (r : TaskResult Unit) :
      Step (.burying m) (.broker (.deadLetter m)) r .over
  | after (m : TaskMessage) (result : Json) (mw : Nat) (rest : List Nat) (r : TaskResult Unit) :
      Step (.succeeding m result (mw :: rest)) (.runtime (.after mw m result)) r
        (.succeeding m result rest)
  | ack (m : TaskMessage) (result : Json) (r : TaskResult Unit) :
      Step (.succeeding m result []) (.broker (.ack m.id)) r (.closing m result)
  | followUp (m : TaskMessage) (result : Json) {op : traits.Op} (r : traits.Res op) :
      FollowsUp op → Step (.closing m result) op r (.closing m result)

/-- Where an execution may stop. -/
def Phase.Final : Phase → Prop
  | .closing _ _ => True
  | .over => True
  | _ => False

/-- The protocol of the hooks. -/
abbrev pipeline : Protocol traits := ⟨Phase, Phase.Step crew, Phase.Final⟩

end Pipeline

/-! ## The code follows the protocol -/

section Hooks

variable {crew : Fleet}

theorem hooks_runtime {α : Type} {op : RuntimeOp} {f : op.Res → Prog traits α} {t : Phase}
    {Q : α → Phase → Prop}
    (h : ∀ r : op.Res, ∃ t', Phase.Step crew t (.runtime op) r t' ∧ (f r).wp (pipeline crew) t' Q) :
    (runtime op >>= f).wp (pipeline crew) t Q := h

theorem hooks_broker {α : Type} {op : BrokerOp} {f : TaskResult Unit → Prog traits α} {t : Phase}
    {Q : α → Phase → Prop}
    (h : ∀ r : TaskResult Unit, ∃ t', Phase.Step crew t (.broker op) r t' ∧
      (f r).wp (pipeline crew) t' Q) :
    (broker op >>= f).wp (pipeline crew) t Q := h

theorem hooks_log {t : Phase} {e : TraceEvent} (h : e.turns = false)
    {Q : Unit → Phase → Prop} (hQ : Q () t) : (log e).wp (pipeline crew) t Q :=
  fun _ => ⟨t, .note t h, hQ⟩

theorem hooks_log_bind {α : Type} {t : Phase} {e : TraceEvent} (h : e.turns = false)
    {f : Unit → Prog traits α} {Q : α → Phase → Prop} (hf : (f ()).wp (pipeline crew) t Q) :
    (log e >>= f).wp (pipeline crew) t Q :=
  (Prog.wp_bind _ _ _ _).mpr (hooks_log h hf)

theorem hooks_logError {t : Phase} {r : TaskResult Unit} {event : KojinError → TraceEvent}
    (h : ∀ e, (event e).turns = false) {Q : Unit → Phase → Prop} (hQ : Q () t) :
    (logError r event).wp (pipeline crew) t Q := by
  cases r with
  | ok _ => exact hQ
  | error e => exact hooks_log (h e) hQ

theorem hooks_logError_bind {α : Type} {t : Phase} {r : TaskResult Unit}
    {event : KojinError → TraceEvent} (h : ∀ e, (event e).turns = false)
    {f : Unit → Prog traits α} {Q : α → Phase → Prop} (hf : (f ()).wp (pipeline crew) t Q) :
    (logError r event >>= f).wp (pipeline crew) t Q :=
  (Prog.wp_bind _ _ _ _).mpr (hooks_logError h hf)

/-- The `on_error` hooks are run to the last. -/
theorem runOnError_hooks (m : TaskMessage) (e : KojinError) (rest : List Nat) :
    (runOnError m e rest).wp (pipeline crew) (.failing m e rest)
      fun _ u => u = .failing m e [] := by
  induction rest with
  | nil => rfl
  | cons mw rest ih =>
      apply hooks_runtime
      intro r
      exact ⟨.failing m e rest, .onError m e mw rest r, hooks_logError_bind (fun _ => rfl) ih⟩

/-- A failed execution runs the `on_error` hooks and settles its message. -/
theorem handleFailure_hooks (w : Worker) (m : TaskMessage) (e : KojinError) :
    (handleFailure w m e).wp (pipeline crew) (.failing m e w.middlewares)
      fun _ u => u = .over := by
  refine Prog.wp_seq (runOnError_hooks m e w.middlewares) ?_
  rintro _ _ rfl
  by_cases h : m.retries < m.maxRetries
  · rw [if_pos h]
    apply hooks_runtime
    intro now
    refine ⟨.retrying (m.retryCopy now), .retry e now h, hooks_log_bind rfl ?_⟩
    apply hooks_runtime
    intro _
    refine ⟨.retrying (m.retryCopy now), .sleep _ _, ?_⟩
    apply hooks_broker
    intro r
    exact ⟨.over, .nack _ r, hooks_logError (fun _ => rfl) rfl⟩
  · rw [if_neg h]
    apply hooks_runtime
    intro now
    refine ⟨.burying (m.buriedCopy now), .bury e now h, hooks_log_bind rfl ?_⟩
    apply hooks_broker
    intro r
    exact ⟨.over, .deadLetter _ r, hooks_logError (fun _ => rfl) rfl⟩

/-- The `after` hooks are run to the last. -/
theorem runAfter_hooks (m : TaskMessage) (result : Json) (rest : List Nat) :
    (runAfter m result rest).wp (pipeline crew) (.succeeding m result rest)
      fun _ u => u = .succeeding m result [] := by
  induction rest with
  | nil => rfl
  | cons mw rest ih =>
      apply hooks_runtime
      intro r
      exact ⟨.succeeding m result rest, .after m result mw rest r,
        hooks_logError_bind (fun _ => rfl) ih⟩

/-- The calls of a program are log lines and calls after the acknowledgement. -/
def QuietOp (op : traits.Op) : Prop :=
  FollowsUp op ∨ ∃ e : TraceEvent, op = .runtime (.trace e) ∧ e.turns = false

/-- A quiet program ends where it began, after the acknowledgement. -/
theorem wp_closing {α : Type} {p : Prog traits α} (h : p.Calls QuietOp) (m : TaskMessage)
    (result : Json) : p.wp (pipeline crew) (.closing m result) fun _ u => u = .closing m result := by
  induction p with
  | ret a => rfl
  | call op k ih =>
      intro r
      refine ⟨.closing m result, ?_, ih r (h.2 r)⟩
      rcases h.1 with hop | ⟨e, rfl, hturns⟩
      · exact .followUp m result r hop
      · exact .note _ hturns

theorem calls_logError {r : TaskResult Unit} {event : KojinError → TraceEvent}
    (h : ∀ e, (event e).turns = false) : (logError r event).Calls QuietOp := by
  cases r with
  | ok _ => trivial
  | error e => exact ⟨.inr ⟨_, rfl, h e⟩, fun _ => trivial⟩

theorem calls_onMemberCompleted (m : TaskMessage) (group : String) (r : TaskResult UInt32) :
    (onMemberCompleted m group r).Calls QuietOp := by
  cases r with
  | error e => exact ⟨.inr ⟨_, rfl, rfl⟩, fun _ => trivial⟩
  | ok completed =>
      refine ⟨.inr ⟨_, rfl, rfl⟩, fun _ => ?_⟩
      show Prog.Calls QuietOp (if _ then _ else _)
      split
      · cases m.chordCallback with
        | none => trivial
        | some callback =>
            refine ⟨.inl trivial, fun results => ⟨.inl trivial, fun r => ?_⟩⟩
            cases r with
            | error e => exact ⟨.inr ⟨_, rfl, rfl⟩, fun _ => trivial⟩
            | ok _ => exact ⟨.inr ⟨_, rfl, rfl⟩, fun _ => trivial⟩
      · trivial

theorem calls_continueChain (codec : Codec) (m : TaskMessage) (result : Json) :
    (continueChain codec m result).Calls QuietOp := by
  unfold continueChain
  split
  · trivial
  · split
    · refine ⟨.inl trivial, fun now => ⟨.inl trivial, fun id => ⟨.inl trivial, fun r => ?_⟩⟩⟩
      cases r with
      | error e => exact ⟨.inr ⟨_, rfl, rfl⟩, fun _ => trivial⟩
      | ok _ => exact ⟨.inr ⟨_, rfl, rfl⟩, fun _ => trivial⟩
    · trivial
    · exact ⟨.inr ⟨_, rfl, rfl⟩, fun _ => trivial⟩

/-- What follows the acknowledgement is quiet. -/
theorem calls_followUp (w : Worker) (codec : Codec) (m : TaskMessage) (result : Json) :
    (followUp w codec m result).Calls QuietOp := by
  unfold followUp
  split
  · refine ⟨.inl trivial, fun stored => ?_⟩
    show Prog.Calls QuietOp (logError stored _ >>= fun _ => completeGroup m result >>= fun _ =>
      continueChain codec m result)
    refine Prog.Calls.bind (calls_logError fun _ => rfl) fun _ => ?_
    refine Prog.Calls.bind ?_ fun _ => calls_continueChain codec m result
    unfold completeGroup
    split
    · trivial
    · exact ⟨.inl trivial, fun completed => calls_onMemberCompleted m _ completed⟩
  · trivial

theorem onSuccess_hooks (w : Worker) (codec : Codec) (m : TaskMessage) (result : Json) :
    (onSuccess w codec m result).wp (pipeline crew) (.succeeding m result w.middlewares)
      fun _ u => Phase.Final u := by
  refine Prog.wp_seq (runAfter_hooks m result w.middlewares) ?_
  rintro _ _ rfl
  apply hooks_broker
  intro r
  refine ⟨.closing m result, .ack m result r, hooks_logError_bind (fun _ => rfl) ?_⟩
  refine Prog.wp_seq (wp_closing (calls_followUp w codec _ result) m result) ?_
  rintro _ _ rfl
  exact hooks_log rfl trivial

/-- The `before` hooks are run up to the first that fails. -/
theorem runBefore_hooks (m : TaskMessage) (rest : List Nat) :
    (runBefore m rest).wp (pipeline crew) (.checking m rest) fun outcome u =>
      match outcome with
      | .ok _ => u = .checking m []
      | .error e => u = .rejected m e := by
  induction rest with
  | nil => rfl
  | cons mw rest ih =>
      apply hooks_runtime
      intro r
      cases r with
      | ok _ => exact ⟨.checking m rest, .pass m mw rest, ih⟩
      | error e => exact ⟨.rejected m e, .reject m mw rest e, rfl⟩

/-- The handler of a registered task, or the error for an unknown one. -/
theorem dispatch_hooks {w : Worker} (hw : crew.Has w) (m : TaskMessage) :
    (dispatch w m).wp (pipeline crew) (.checking m []) fun r u =>
      match r with
      | .ok result => u = .succeeding m result crew.middlewares
      | .error e => u = .erred m e ∨ m.taskName ∉ crew.tasks ∧ u = .checking m [] := by
  unfold dispatch
  split
  · intro r
    cases r with
    | ok result => exact ⟨_, .handled m result, rfl⟩
    | error e => exact ⟨_, .err m e, .inl rfl⟩
  · rename_i hunknown
    exact .inr ⟨fun h => hunknown (hw.2 h), rfl⟩

theorem runTask_hooks {w : Worker} (hw : crew.Has w) (codec : Codec) (m : TaskMessage) :
    (runTask w codec m).wp (pipeline crew) (.entering m) fun _ u => Phase.Final u := by
  apply hooks_runtime
  intro _
  refine ⟨.checking m.start crew.middlewares, .enter m, ?_⟩
  rw [← hw.1]
  refine Prog.wp_seq (runBefore_hooks m.start w.middlewares) ?_
  intro outcome u hu
  have hover : ∀ e, (handleFailure w m.start e).wp (pipeline crew)
      (.failing m.start e crew.middlewares) fun _ u => Phase.Final u := by
    intro e
    rw [← hw.1]
    refine Prog.wp_mono (handleFailure_hooks w m.start e) ?_
    rintro _ _ rfl
    trivial
  cases outcome with
  | error e =>
      obtain rfl : u = .rejected m.start e := hu
      apply hooks_runtime
      intro _
      exact ⟨_, .rejection m.start e, hover e⟩
  | ok _ =>
      obtain rfl : u = .checking m.start [] := hu
      refine Prog.wp_seq (dispatch_hooks hw m.start) ?_
      intro r u hu
      cases r with
      | ok result =>
          obtain rfl : u = .succeeding m.start result crew.middlewares := hu
          rw [← hw.1]
          exact onSuccess_hooks w codec m.start result
      | error e =>
          rcases hu with rfl | ⟨hunknown, rfl⟩
          · apply hooks_runtime
            intro _
            exact ⟨_, .failure m.start e, hover e⟩
          · apply hooks_runtime
            intro _
            exact ⟨_, .unknown e hunknown, hover e⟩

/-- The execution follows the protocol of its hooks, whatever they answer. -/
theorem executeTask_hooks {w : Worker} (hw : crew.Has w) (codec : Codec) (m : TaskMessage) :
    (executeTask w codec m).Follows (pipeline crew) (.entering m) := by
  unfold executeTask
  cases heta : m.eta with
  | none => exact runTask_hooks hw codec m
  | some eta =>
      apply hooks_runtime
      intro now
      by_cases hnow : now.nanos < eta.nanos
      · rw [if_pos hnow]
        refine ⟨.leaving m, .postpone heta hnow, hooks_log_bind rfl ?_⟩
        apply hooks_broker
        intro acked
        refine ⟨.leaving m, .release m acked, hooks_logError_bind (fun _ => rfl) ?_⟩
        apply hooks_broker
        intro scheduled
        exact ⟨.over, .reschedule scheduled heta, hooks_logError (fun _ => rfl) trivial⟩
      · rw [if_neg hnow]
        exact ⟨.entering m, .clock heta hnow, runTask_hooks hw codec m⟩

end Hooks

/-! ## Executions side by side -/

/-- A worker starts an execution. -/
structure Execution where
  worker : Worker
  message : TaskMessage

section Pool

variable (service : Service traits) (codec : Codec)

/-- Executions of any messages by workers of the fleet. -/
def pool (crew : Fleet) : Machine traits where
  toService := service
  Stimulus := Execution
  accept x s :=
    if crew.Has x.worker then some (s, [executeTask x.worker codec x.message]) else none

variable {service codec} {crew : Fleet}

/-- The phase an execution starts in. -/
def Execution.phases {State : Type} (x : Execution) (_ : State) : List Phase :=
  [.entering x.message]

theorem pool_entry (x : Execution) (s s' : (pool service codec crew).State)
    (new : List (Prog traits Unit)) (h : (pool service codec crew).accept x s = some (s', new)) :
    List.Forall₂ (Prog.Follows (pipeline crew)) new (x.phases s) := by
  simp only [pool] at h
  split at h
  · rename_i hw
    cases h
    exact .cons (executeTask_hooks hw codec x.message) .nil
  · cases h

/-- No stimulus changes the shared state. -/
theorem pool_accept {x : Execution} {s s' : (pool service codec crew).State}
    {new : List (Prog traits Unit)} (h : (pool service codec crew).accept x s = some (s', new)) :
    s' = s := by
  simp only [pool] at h
  split at h
  · cases h
    rfl
  · cases h

end Pool

end Kojin.Core
