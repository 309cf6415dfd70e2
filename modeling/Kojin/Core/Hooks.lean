/-
  Core/Hooks.lean --- in which order an execution calls its hooks, and what their answers
  can change (`kojin-core`: `worker.rs`).

  `hookCalls` keeps of an execution its hooks and the handler.  `seenOf` keeps the calls
  that `after` and `on_error` hooks must not influence: everything but these hooks, the
  log and the clock.  Messages are seen without their timestamps.
-/
import Kojin.Core.Pipeline
import Kojin.Foundation.Twin

set_option autoImplicit false

namespace Kojin.Core

open Kojin.Foundation

/-! ## Single calls -/

theorem calls_runtime {C : traits.Op → Prop} {op : RuntimeOp} (h : C (.runtime op)) :
    (runtime op).Calls C := ⟨h, fun _ => trivial⟩

theorem calls_broker {C : traits.Op → Prop} {op : BrokerOp} (h : C (.broker op)) :
    (broker op).Calls C := ⟨h, fun _ => trivial⟩

/-! ## The order of the hooks -/

/-- A call of a hook or of the handler; of `before` and the handler also how it ended. -/
inductive HookCall where
  | before (middleware : Nat) (message : TaskMessage) (ok : Bool)
  | handler (message : TaskMessage) (ok : Bool)
  | after (middleware : Nat) (message : TaskMessage) (result : Json)
  | onError (middleware : Nat) (message : TaskMessage) (error : KojinError)

/-- The answer is not an error. -/
def succeeded {α : Type} : TaskResult α → Bool
  | .ok _ => true
  | .error _ => false

/-- The hook that is called. -/
def hookOf : Event traits → Option HookCall
  | ⟨.runtime (.before mw m), r⟩ => some (.before mw m (succeeded r))
  | ⟨.runtime (.handle m _ _), r⟩ => some (.handler m (succeeded r))
  | ⟨.runtime (.after mw m result), _⟩ => some (.after mw m result)
  | ⟨.runtime (.onError mw m e), _⟩ => some (.onError mw m e)
  | _ => none

/-- The hooks of an execution. -/
def hookCalls (tr : List (Event traits)) : List HookCall := tr.filterMap hookOf

/-- The hooks as they are to be called: `before` in order up to the first that fails;
then, if none did, the handler, and all `after` or all `on_error` hooks.  For a task
without a handler the dispatch fails by itself. -/
inductive HooksInOrder (w : Worker) (m : TaskMessage) : List HookCall → Prop where
  | refused {passed rest : List Nat} {mw : Nat} (e : KojinError) :
      w.middlewares = passed ++ mw :: rest →
      HooksInOrder w m (passed.map (HookCall.before · m true) ++ .before mw m false ::
        w.middlewares.map (HookCall.onError · m e))
  | handled (result : Json) :
      m.taskName ∈ w.registry →
      HooksInOrder w m (w.middlewares.map (HookCall.before · m true) ++ .handler m true ::
        w.middlewares.map (HookCall.after · m result))
  | failed (e : KojinError) :
      m.taskName ∈ w.registry →
      HooksInOrder w m (w.middlewares.map (HookCall.before · m true) ++ .handler m false ::
        w.middlewares.map (HookCall.onError · m e))
  | unknown :
      m.taskName ∉ w.registry →
      HooksInOrder w m (w.middlewares.map (HookCall.before · m true) ++
        w.middlewares.map (HookCall.onError · m (.taskNotFound m.taskName)))

/-- The call is no hook. -/
def Hookless (op : traits.Op) : Prop := ∀ r, hookOf ⟨op, r⟩ = none

section Order

variable {tr tr' : List (Event traits)}

@[simp] theorem hookCalls_append : hookCalls (tr ++ tr') = hookCalls tr ++ hookCalls tr' :=
  List.filterMap_append

/-- A program without hooks. -/
theorem hookCalls_of_calls {α : Type} {p : Prog traits α} {a : α} (h : p.Calls Hookless)
    (htr : p.Trace tr a) : hookCalls tr = [] := Prog.filterMap_of_hidden hookOf h htr

theorem hookless_log (event : TraceEvent) : (log event).Calls Hookless :=
  ⟨fun _ => rfl, fun _ => trivial⟩

theorem hookless_logError (r : TaskResult Unit) (event : KojinError → TraceEvent) :
    (logError r event).Calls Hookless := by
  cases r with
  | ok _ => trivial
  | error e => exact hookless_log (event e)

theorem hookless_of_quiet (op : traits.Op) (h : QuietOp op) : Hookless op := by
  intro r
  rcases h with h | ⟨e, rfl, -⟩
  · cases op with
    | backend op => rfl
    | broker op => rfl
    | runtime op => cases op <;> first | rfl | exact h.elim
  · rfl

/-- The `before` hooks. -/
theorem hookCalls_runBefore {m : TaskMessage} {mws : List Nat} {r : TaskResult Unit}
    (h : (runBefore m mws).Trace tr r) :
    (r = .ok () ∧ hookCalls tr = mws.map (HookCall.before · m true)) ∨
      ∃ e passed mw rest, r = .error e ∧ mws = passed ++ mw :: rest ∧
        hookCalls tr = passed.map (HookCall.before · m true) ++ [.before mw m false] := by
  induction mws generalizing tr with
  | nil =>
      obtain ⟨rfl, rfl⟩ := Prog.trace_ret_iff.mp h
      exact .inl ⟨rfl, rfl⟩
  | cons mw rest ih =>
      obtain ⟨answer, tail, rfl, hnext⟩ := trace_runtime h
      cases answer with
      | error e =>
          obtain ⟨rfl, rfl⟩ := Prog.trace_ret_iff.mp hnext
          exact .inr ⟨e, [], mw, rest, rfl, rfl, rfl⟩
      | ok u =>
          rcases ih hnext with ⟨hr, hcalls⟩ | ⟨e, passed, mw', rest', hr, hsplit, hcalls⟩
          · refine .inl ⟨hr, ?_⟩
            exact congrArg (HookCall.before mw m true :: ·) hcalls
          · refine .inr ⟨e, mw :: passed, mw', rest', hr, by rw [hsplit]; rfl, ?_⟩
            exact congrArg (HookCall.before mw m true :: ·) hcalls

/-- The `on_error` hooks. -/
theorem hookCalls_runOnError {m : TaskMessage} {e : KojinError} {mws : List Nat} {u : Unit}
    (h : (runOnError m e mws).Trace tr u) :
    hookCalls tr = mws.map (HookCall.onError · m e) := by
  induction mws generalizing tr with
  | nil =>
      obtain ⟨rfl, -⟩ := Prog.trace_ret_iff.mp h
      rfl
  | cons mw rest ih =>
      obtain ⟨answer, tail, rfl, hnext⟩ := trace_runtime h
      obtain ⟨tr₁, tr₂, v, rfl, hlog, hrest⟩ := Prog.trace_bind_iff.mp hnext
      show HookCall.onError mw m e :: hookCalls (tr₁ ++ tr₂) = _
      rw [hookCalls_append, hookCalls_of_calls (hookless_logError _ _) hlog, ih hrest]
      rfl

/-- The `after` hooks. -/
theorem hookCalls_runAfter {m : TaskMessage} {result : Json} {mws : List Nat} {u : Unit}
    (h : (runAfter m result mws).Trace tr u) :
    hookCalls tr = mws.map (HookCall.after · m result) := by
  induction mws generalizing tr with
  | nil =>
      obtain ⟨rfl, -⟩ := Prog.trace_ret_iff.mp h
      rfl
  | cons mw rest ih =>
      obtain ⟨answer, tail, rfl, hnext⟩ := trace_runtime h
      obtain ⟨tr₁, tr₂, v, rfl, hlog, hrest⟩ := Prog.trace_bind_iff.mp hnext
      show HookCall.after mw m result :: hookCalls (tr₁ ++ tr₂) = _
      rw [hookCalls_append, hookCalls_of_calls (hookless_logError _ _) hlog, ih hrest]
      rfl

/-- A failed execution: all `on_error` hooks, and no others. -/
theorem hookCalls_handleFailure {w : Worker} {m : TaskMessage} {e : KojinError} {u : Unit}
    (h : (handleFailure w m e).Trace tr u) :
    hookCalls tr = w.middlewares.map (HookCall.onError · m e) := by
  obtain ⟨tr₁, tr₂, v, rfl, hhooks, hsettle⟩ := Prog.trace_bind_iff.mp h
  rw [hookCalls_append, hookCalls_runOnError hhooks]
  have hquiet : hookCalls tr₂ = [] := by
    refine hookCalls_of_calls ?_ hsettle
    split
    · refine ⟨fun _ => rfl, fun now => ⟨fun _ => rfl, fun _ => ⟨fun _ => rfl, fun _ =>
        ⟨fun _ => rfl, fun r => hookless_logError r _⟩⟩⟩⟩
    · exact ⟨fun _ => rfl, fun now => ⟨fun _ => rfl, fun _ => ⟨fun _ => rfl, fun r =>
        hookless_logError r _⟩⟩⟩
  rw [hquiet, List.append_nil]

/-- A successful execution: all `after` hooks, and no others. -/
theorem hookCalls_onSuccess {w : Worker} {codec : Codec} {m : TaskMessage} {result : Json}
    {u : Unit} (h : (onSuccess w codec m result).Trace tr u) :
    hookCalls tr = w.middlewares.map (HookCall.after · m result) := by
  obtain ⟨tr₁, tr₂, v, rfl, hhooks, hrest⟩ := Prog.trace_bind_iff.mp h
  rw [hookCalls_append, hookCalls_runAfter hhooks]
  have hquiet : hookCalls tr₂ = [] := by
    refine hookCalls_of_calls ?_ hrest
    refine Prog.Calls.bind ⟨fun _ => rfl, fun _ => trivial⟩ fun acked => ?_
    refine Prog.Calls.bind (hookless_logError acked _) fun _ => ?_
    refine Prog.Calls.bind ?_ fun _ => hookless_log _
    exact Prog.Calls.mono hookless_of_quiet (calls_followUp w codec _ result)
  rw [hquiet, List.append_nil]

/-- Past the eta guard. -/
theorem hookCalls_runTask {w : Worker} {codec : Codec} {m : TaskMessage} {u : Unit}
    (h : (runTask w codec m).Trace tr u) : HooksInOrder w m.start (hookCalls tr) := by
  obtain ⟨_, rest, rfl, hrun⟩ := trace_runtime h
  show HooksInOrder w m.start (hookCalls rest)
  obtain ⟨tr₁, tr₂, outcome, rfl, hbefore, hnext⟩ := Prog.trace_bind_iff.mp hrun
  rw [hookCalls_append]
  rcases hookCalls_runBefore hbefore with ⟨rfl, hcalls⟩ | ⟨e, passed, mw, rest, rfl, hsplit, hcalls⟩
  · rw [hcalls]
    obtain ⟨tr₃, tr₄, r, rfl, hdispatch, hend⟩ := Prog.trace_bind_iff.mp hnext
    rw [hookCalls_append]
    unfold dispatch at hdispatch
    split at hdispatch
    · rename_i hknown
      obtain ⟨answer, tail, rfl, hret⟩ := Prog.trace_call_iff.mp hdispatch
      obtain ⟨rfl, rfl⟩ := Prog.trace_ret_iff.mp hret
      cases r with
      | ok result =>
          rw [hookCalls_onSuccess hend]
          exact .handled result hknown
      | error e =>
          obtain ⟨_, last, rfl, hfailure⟩ := trace_runtime hend
          show HooksInOrder w m.start (_ ++ (_ ++ hookCalls last))
          rw [hookCalls_handleFailure hfailure]
          exact .failed e hknown
    · rename_i hunknown
      obtain ⟨rfl, rfl⟩ := Prog.trace_ret_iff.mp hdispatch
      obtain ⟨_, last, rfl, hfailure⟩ := trace_runtime hend
      show HooksInOrder w m.start (_ ++ (_ ++ hookCalls last))
      rw [hookCalls_handleFailure hfailure]
      exact .unknown hunknown
  · obtain ⟨_, last, rfl, hfailure⟩ := trace_runtime hnext
    show HooksInOrder w m.start (_ ++ hookCalls last)
    rw [hcalls, hookCalls_handleFailure hfailure, List.append_assoc]
    exact .refused e hsplit

end Order

/-- The eta guard does not hold the message back. -/
def NotPostponed (m : TaskMessage) (tr : List (Event traits)) : Prop :=
  ∀ eta, m.eta = some eta →
    ∃ now rest, tr = ⟨.runtime .utcNow, now⟩ :: rest ∧ ¬ now.nanos < eta.nanos

/-- Such an execution runs the task, after at most a look at the clock. -/
theorem trace_executeTask {w : Worker} {codec : Codec} {m : TaskMessage}
    {tr : List (Event traits)} {u : Unit} (hm : NotPostponed m tr)
    (h : (executeTask w codec m).Trace tr u) :
    ∃ rest, (runTask w codec m).Trace rest u ∧
      (tr = rest ∨ ∃ now, tr = ⟨.runtime .utcNow, now⟩ :: rest) := by
  unfold executeTask at h
  cases heta : m.eta with
  | none =>
      rw [heta] at h
      exact ⟨tr, h, .inl rfl⟩
  | some eta =>
      rw [heta] at h
      obtain ⟨now, rest, rfl, hnow⟩ := hm eta heta
      obtain ⟨now', rest', heq, hrun⟩ := trace_runtime h
      cases heq
      rw [if_neg hnow] at hrun
      exact ⟨rest, hrun, .inr ⟨now, rfl⟩⟩

/-! ## What the hooks cannot change -/

/-- An answer, whatever was asked. -/
inductive Answer where
  | unit (r : TaskResult Unit)
  | json (r : TaskResult Json)
  | count (r : TaskResult UInt32)
  | results (r : TaskResult (List Json))
  | id (id : TaskId)

/-- A message without its timestamps. -/
def TaskMessage.timeless (m : TaskMessage) : TaskMessage :=
  { m with createdAt := ⟨0⟩, updatedAt := ⟨0⟩ }

/-- A call of the broker without the timestamps of its message. -/
def BrokerOp.timeless : BrokerOp → BrokerOp
  | .enqueue m => .enqueue m.timeless
  | .ack id => .ack id
  | .nack m => .nack m.timeless
  | .deadLetter m => .deadLetter m.timeless
  | .schedule m eta => .schedule m.timeless eta

/-- The calls that `after` and `on_error` hooks must not influence, with their answers:
all but these hooks, the log, the sleep and the clock. -/
def seenOf : Event traits → Option (traits.Op × Answer)
  | ⟨.runtime (.before mw m), r⟩ => some (.runtime (.before mw m), .unit r)
  | ⟨.runtime (.handle m name payload), r⟩ => some (.runtime (.handle m name payload), .json r)
  | ⟨.runtime .newTaskId, r⟩ => some (.runtime .newTaskId, .id r)
  | ⟨.runtime .newUuid, r⟩ => some (.runtime .newUuid, .id r)
  | ⟨.runtime _, _⟩ => none
  | ⟨.broker op, r⟩ => some (.broker op.timeless, .unit r)
  | ⟨.backend (.store i result), r⟩ => some (.backend (.store i result), .unit r)
  | ⟨.backend (.initGroup group total), r⟩ => some (.backend (.initGroup group total), .unit r)
  | ⟨.backend (.completeGroupMember group i result), r⟩ =>
      some (.backend (.completeGroupMember group i result), .count r)
  | ⟨.backend (.getGroupResults group), r⟩ => some (.backend (.getGroupResults group), .results r)

/-- The call is not seen. -/
def Hidden (op : traits.Op) : Prop := ∀ r, seenOf ⟨op, r⟩ = none

/-- Two programs show the same, and return what is equal. -/
abbrev Twins {α : Type} (p q : Prog traits α) : Prop := Prog.Twin seenOf p q Eq

section Twins

variable {α β : Type} {codec : Codec} {w : Worker} {m : TaskMessage}

/-! ### Timestamps -/

theorem timeless_retryCopy (m : TaskMessage) (now now' : DateTime) :
    (m.retryCopy now).timeless = (m.retryCopy now').timeless := rfl

theorem timeless_buriedCopy (m : TaskMessage) (now now' : DateTime) :
    (m.buriedCopy now).timeless = (m.buriedCopy now').timeless := rfl

theorem timeless_chainStep (result : Json) (sig : Signature) (rest : List Signature)
    (id : TaskId) (now now' : DateTime) :
    (m.chainStep codec result sig rest now id).timeless =
      (m.chainStep codec result sig rest now' id).timeless := by
  unfold TaskMessage.chainStep
  cases m.correlationId with
  | none => cases rest.isEmpty <;> rfl
  | some corr => cases rest.isEmpty <;> rfl

/-! ### Calls that are seen, and hidden ones -/

/-- Programs without a call that is seen, each before the rest. -/
theorem twins_skip {p q : Prog traits α} {f g : α → Prog traits β} (hp : p.Calls Hidden)
    (hq : q.Calls Hidden) (h : ∀ a b, Twins (f a) (g b)) : Twins (p >>= f) (q >>= g) :=
  Prog.Twin.skip_left (fun _ hop => hop) hp fun a =>
    Prog.Twin.skip_right (fun _ hop => hop) hq fun b => h a b

/-- Programs without a call that is seen. -/
theorem twins_hidden {p q : Prog traits Unit} (hp : p.Calls Hidden) (hq : q.Calls Hidden) :
    Twins p q := by
  induction p with
  | call op k ih => exact Prog.twin_hidden_left hp.1 fun r => ih r (hp.2 r)
  | ret a =>
      induction q with
      | call op k ih => exact Prog.twin_hidden_right hq.1 fun r => ih r (hq.2 r)
      | ret b => exact Prog.twin_ret rfl

theorem hidden_log (event : TraceEvent) : (log event).Calls Hidden :=
  calls_runtime fun _ => rfl

theorem hidden_logError (r : TaskResult Unit) (event : KojinError → TraceEvent) :
    (logError r event).Calls Hidden := by
  cases r with
  | ok _ => trivial
  | error e => exact hidden_log (event e)

/-- Broker calls that differ in timestamps. -/
theorem twins_broker {op op' : BrokerOp} (h : op.timeless = op'.timeless) :
    Twins (broker op) (broker op') := by
  refine Prog.twin_seen (c := .broker op.timeless) (fun _ => rfl) (fun _ => by rw [h]; rfl) ?_
  intro r r' hanswer
  exact Prog.twin_ret (Answer.unit.inj hanswer)

theorem twins_backend (op : ResultBackendOp) : Twins (backend op) (backend op) := by
  cases op with
  | store i result =>
      refine Prog.twin_seen (fun _ => rfl) (fun _ => rfl) fun r r' hanswer => ?_
      exact Prog.twin_ret (Answer.unit.inj hanswer)
  | initGroup group total =>
      refine Prog.twin_seen (fun _ => rfl) (fun _ => rfl) fun r r' hanswer => ?_
      exact Prog.twin_ret (Answer.unit.inj hanswer)
  | completeGroupMember group i result =>
      refine Prog.twin_seen (fun _ => rfl) (fun _ => rfl) fun r r' hanswer => ?_
      exact Prog.twin_ret (Answer.count.inj hanswer)
  | getGroupResults group =>
      refine Prog.twin_seen (fun _ => rfl) (fun _ => rfl) fun r r' hanswer => ?_
      exact Prog.twin_ret (Answer.results.inj hanswer)

theorem twins_before (mw : Nat) : Twins (runtime (.before mw m)) (runtime (.before mw m)) := by
  refine Prog.twin_seen (fun _ => rfl) (fun _ => rfl) fun r r' hanswer => ?_
  exact Prog.twin_ret (Answer.unit.inj hanswer)

theorem twins_newTaskId : Twins (runtime .newTaskId) (runtime .newTaskId) := by
  refine Prog.twin_seen (fun _ => rfl) (fun _ => rfl) fun r r' hanswer => ?_
  exact Prog.twin_ret (Answer.id.inj hanswer)

theorem twins_dispatch : Twins (dispatch w m) (dispatch w m) := by
  unfold dispatch
  split
  · refine Prog.twin_seen (fun _ => rfl) (fun _ => rfl) fun r r' hanswer => ?_
    exact Prog.twin_ret (Answer.json.inj hanswer)
  · exact Prog.twin_ret rfl

/-! ### The pieces -/

theorem hidden_runOnError (m : TaskMessage) (e : KojinError) (mws : List Nat) :
    (runOnError m e mws).Calls Hidden := by
  induction mws with
  | nil => trivial
  | cons mw rest ih =>
      exact Prog.Calls.bind (calls_runtime fun _ => rfl) fun answer =>
        Prog.Calls.bind (hidden_logError answer _) fun _ => ih

theorem hidden_runAfter (m : TaskMessage) (result : Json) (mws : List Nat) :
    (runAfter m result mws).Calls Hidden := by
  induction mws with
  | nil => trivial
  | cons mw rest ih =>
      exact Prog.Calls.bind (calls_runtime fun _ => rfl) fun answer =>
        Prog.Calls.bind (hidden_logError answer _) fun _ => ih

/-- A call of the broker whose failure is logged. -/
theorem twins_logged {op op' : BrokerOp} (event : KojinError → TraceEvent)
    (h : op.timeless = op'.timeless) :
    Twins (broker op >>= (logError · event)) (broker op' >>= (logError · event)) := by
  refine Prog.Twin.bind (twins_broker h) fun r r' _ => ?_
  exact twins_hidden (hidden_logError r event) (hidden_logError r' event)

theorem twins_retry : Twins (retry m) (retry m) := by
  refine twins_skip (calls_runtime fun _ => rfl) (calls_runtime fun _ => rfl) fun now now' => ?_
  refine twins_skip (hidden_log _) (hidden_log _) fun _ _ => ?_
  refine twins_skip (calls_runtime fun _ => rfl) (calls_runtime fun _ => rfl) fun _ _ => ?_
  exact twins_logged _ (congrArg BrokerOp.nack (timeless_retryCopy m now now'))

theorem twins_bury : Twins (bury m) (bury m) := by
  refine twins_skip (calls_runtime fun _ => rfl) (calls_runtime fun _ => rfl) fun now now' => ?_
  refine twins_skip (hidden_log _) (hidden_log _) fun _ _ => ?_
  exact twins_logged _ (congrArg BrokerOp.deadLetter (timeless_buriedCopy m now now'))

theorem twins_handleFailure (e : KojinError) : Twins (handleFailure w m e) (handleFailure w m e) := by
  refine twins_skip (hidden_runOnError _ _ _) (hidden_runOnError _ _ _) fun _ _ => ?_
  split
  · exact twins_retry
  · exact twins_bury

theorem twins_enqueueCallback (group : String) (callback : TaskMessage) :
    Twins (enqueueCallback group callback) (enqueueCallback group callback) := by
  refine Prog.Twin.bind (twins_backend _) fun results _ hresults => ?_
  subst hresults
  refine Prog.Twin.bind (twins_broker rfl) fun r _ hr => ?_
  subst hr
  cases r with
  | ok _ => exact twins_hidden (hidden_log _) (hidden_log _)
  | error e => exact twins_hidden (hidden_log _) (hidden_log _)

theorem twins_onMemberCompleted (group : String) (r : TaskResult UInt32) :
    Twins (onMemberCompleted m group r) (onMemberCompleted m group r) := by
  cases r with
  | error e => exact twins_hidden (hidden_log _) (hidden_log _)
  | ok completed =>
      refine twins_skip (hidden_log _) (hidden_log _) fun _ _ => ?_
      split
      · cases m.chordCallback with
        | none => exact Prog.twin_ret rfl
        | some callback => exact twins_enqueueCallback group callback
      · exact Prog.twin_ret rfl

theorem twins_completeGroup (result : Json) :
    Twins (completeGroup m result) (completeGroup m result) := by
  unfold completeGroup
  cases m.groupId with
  | none => exact Prog.twin_ret rfl
  | some group =>
      refine Prog.Twin.bind (twins_backend _) fun completed _ hcompleted => ?_
      subst hcompleted
      exact twins_onMemberCompleted group completed

theorem twins_continueChain (result : Json) :
    Twins (continueChain codec m result) (continueChain codec m result) := by
  unfold continueChain
  cases m.headers.lookup "kojin.chain_next" with
  | none => exact Prog.twin_ret rfl
  | some json =>
      dsimp only
      match codec.decodeSignatures json with
      | .error e => exact twins_hidden (hidden_log _) (hidden_log _)
      | .ok [] => exact Prog.twin_ret rfl
      | .ok (sig :: rest) =>
          refine twins_skip (calls_runtime fun _ => rfl) (calls_runtime fun _ => rfl)
            fun now now' => ?_
          refine Prog.Twin.bind twins_newTaskId fun id _ hid => ?_
          subst hid
          refine Prog.Twin.bind (twins_broker (congrArg BrokerOp.enqueue
            (timeless_chainStep result sig rest id now now'))) fun r _ hr => ?_
          subst hr
          cases r with
          | ok _ => exact twins_hidden (hidden_log _) (hidden_log _)
          | error e => exact twins_hidden (hidden_log _) (hidden_log _)

theorem twins_followUp (result : Json) :
    Twins (followUp w codec m result) (followUp w codec m result) := by
  unfold followUp
  split
  · refine Prog.Twin.bind (twins_backend _) fun stored stored' _ => ?_
    refine twins_skip (hidden_logError _ _) (hidden_logError _ _) fun _ _ => ?_
    exact Prog.Twin.bind (twins_completeGroup result) fun _ _ _ => twins_continueChain result
  · exact Prog.twin_ret rfl

theorem twins_onSuccess (result : Json) :
    Twins (onSuccess w codec m result) (onSuccess w codec m result) := by
  refine twins_skip (hidden_runAfter _ _ _) (hidden_runAfter _ _ _) fun _ _ => ?_
  refine Prog.Twin.bind (twins_broker rfl) fun acked acked' _ => ?_
  refine twins_skip (hidden_logError _ _) (hidden_logError _ _) fun _ _ => ?_
  refine Prog.Twin.bind (twins_followUp result) fun _ _ _ => ?_
  exact twins_hidden (hidden_log _) (hidden_log _)

theorem twins_runBefore (mws : List Nat) : Twins (runBefore m mws) (runBefore m mws) := by
  induction mws with
  | nil => exact Prog.twin_ret rfl
  | cons mw rest ih =>
      refine Prog.Twin.bind (twins_before mw) fun r _ hr => ?_
      subst hr
      cases r with
      | ok _ => exact ih
      | error e => exact Prog.twin_ret rfl

/-- Two executions past the eta guard. -/
theorem twins_runTask : Twins (runTask w codec m) (runTask w codec m) := by
  refine twins_skip (hidden_log _) (hidden_log _) fun _ _ => ?_
  refine Prog.Twin.bind (twins_runBefore w.middlewares) fun outcome _ houtcome => ?_
  subst houtcome
  cases outcome with
  | error e => exact twins_skip (hidden_log _) (hidden_log _) fun _ _ => twins_handleFailure e
  | ok _ =>
      refine Prog.Twin.bind twins_dispatch fun r _ hr => ?_
      subst hr
      cases r with
      | ok result => exact twins_onSuccess result
      | error e => exact twins_skip (hidden_log _) (hidden_log _) fun _ _ => twins_handleFailure e

end Twins

/-! ## Two executions -/

/-- What an execution shows. -/
def seen (tr : List (Event traits)) : List (traits.Op × Answer) := tr.filterMap seenOf

/-- Two executions of a message that the eta guard lets pass: each calls its hooks in
order, and if they are answered alike except by `after` and `on_error` hooks, by the
clock and by the sleep, they make the same calls with the same arguments. -/
theorem hooks_in_order (w : Worker) (codec : Codec) (m : TaskMessage)
    (tr tr' : List (Event traits)) (h : (executeTask w codec m).Trace tr ())
    (h' : (executeTask w codec m).Trace tr' ()) (hm : NotPostponed m tr)
    (hm' : NotPostponed m tr') :
    HooksInOrder w m.start (hookCalls tr) ∧ (Agree (seen tr) (seen tr') → seen tr = seen tr') := by
  obtain ⟨rest, hrun, hrest⟩ := trace_executeTask hm h
  obtain ⟨rest', hrun', hrest'⟩ := trace_executeTask hm' h'
  have hcalls : hookCalls tr = hookCalls rest := by
    obtain rfl | ⟨now, rfl⟩ := hrest <;> rfl
  have hseen : seen tr = seen rest := by
    obtain rfl | ⟨now, rfl⟩ := hrest <;> rfl
  have hseen' : seen tr' = seen rest' := by
    obtain rfl | ⟨now, rfl⟩ := hrest' <;> rfl
  rw [hcalls, hseen, hseen']
  exact ⟨hookCalls_runTask hrun, fun hagree => (twins_runTask rest () rest' () hrun hrun' hagree).1⟩

/-- Broker and backend always succeed; the runtime is given. -/
def obliging (runtime : RuntimeOracle) : (op : traits.Op) → traits.Res op
  | .runtime op => runtime op
  | .broker _ => .ok ()
  | .backend (.store _ _) => .ok ()
  | .backend (.initGroup _ _) => .ok ()
  | .backend (.completeGroupMember _ _ _) => .ok 1
  | .backend (.getGroupResults _) => .ok []

/-- An execution that ends, with the answers of `obliging`. -/
def execution (w : Worker) (m : TaskMessage) (runtime : RuntimeOracle) : List (Event traits) :=
  ((executeTask w blankCodec m).answered (obliging runtime)).1

/-- A runtime whose `after` hooks fail. -/
def failingAfter : RuntimeOracle
  | .after _ _ _ => .error (.other "after")
  | op => stillRuntime op

/-- A message of the task `greet`. -/
def greeting : TaskMessage := TaskMessage.new ⟨0⟩ ⟨7⟩ "greet" "default" .null

/-- A worker with two middlewares that knows `greet`. -/
def greeter : Worker := ⟨["greet"], [0, 1], true⟩

/-- Two executions of one message; the `after` hooks of the second fail. -/
theorem hooks_in_order_greeting :
    HooksInOrder greeter greeting.start (hookCalls (execution greeter greeting stillRuntime)) ∧
      seen (execution greeter greeting stillRuntime) =
        seen (execution greeter greeting failingAfter) := by
  have htwo := hooks_in_order greeter blankCodec greeting (execution greeter greeting stillRuntime)
    (execution greeter greeting failingAfter)
    (Prog.trace_answered (obliging stillRuntime) (executeTask greeter blankCodec greeting))
    (Prog.trace_answered (obliging failingAfter) (executeTask greeter blankCodec greeting))
    nofun nofun
  exact ⟨htwo.1, htwo.2 (Agree.of_eq rfl)⟩

/-- A worker that does not know the task: no `before` hook fails, and yet the handler is
not called. -/
theorem handler_not_called :
    ∃ tr, (executeTask ⟨[], [0], true⟩ blankCodec greeting).Trace tr () ∧
      NotPostponed greeting tr ∧
      hookCalls tr = [.before 0 greeting.start true,
        .onError 0 greeting.start (.taskNotFound "greet")] ∧
      (∀ mw m, .before mw m false ∉ hookCalls tr) ∧ ∀ m ok, .handler m ok ∉ hookCalls tr := by
  have hcalls : hookCalls (execution ⟨[], [0], true⟩ greeting stillRuntime) =
      [.before 0 greeting.start true, .onError 0 greeting.start (.taskNotFound "greet")] := rfl
  refine ⟨execution ⟨[], [0], true⟩ greeting stillRuntime, Prog.trace_answered _ _, nofun, hcalls,
    ?_, ?_⟩
  · simp [hcalls]
  · simp [hcalls]

end Kojin.Core
