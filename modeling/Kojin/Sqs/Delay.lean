/-
  Sqs/Delay.lean --- delayed messages over SQS (`kojin-sqs`: `SqsBroker::enqueue`,
  `SqsBroker::schedule`; `kojin-core`: the eta guard of `execute_task`).

  A message for later is sent with `DelaySeconds`, at most 900.  The server holds it
  back for that long; a worker that receives it before its eta acknowledges it and
  schedules it again:

      schedule ─ held back ─ received ─ guard ─ ack, schedule ─ held back ─ …
                                              └ handler

  THE CLOCK.  The broker, the worker and the server read one clock, which moves
  between any two calls.  A text is released at any time after its delay.

  THE INVARIANT.  Fix a time that the message must not be handled before.  Until then
  the only text there is is the one that was sent, and it is held back until then or
  carries an eta that is not before it (`Waiting`).
-/
import Kojin.Sqs.Redelivery

set_option autoImplicit false

namespace Kojin.Sqs

open Kojin.Foundation Kojin.Core

/-! ## A server with a clock -/

/-- The server, the texts it holds back with the times they are released at, and the
clock. -/
structure DelayState where
  now : DateTime
  delayed : List (DateTime × SendRequest)
  server : SqsState

/-- The time so many nanoseconds later. -/
def later (t : DateTime) (nanos : Int) : DateTime := ⟨t.nanos + nanos⟩

/-- When a text that is sent at this time is released. -/
def SendRequest.releasedAt (request : SendRequest) (sentAt : DateTime) : DateTime :=
  later sentAt (request.delaySeconds.getD 0 * 1000000000)

namespace DelayState

/-- A text is sent. -/
def send (s : DelayState) (request : SendRequest) (duplicate : Bool) : DelayState :=
  if duplicate && request.deduplicationId.isSome then s
  else { s with delayed := s.delayed ++ [(request.releasedAt s.now, request)] }

/-- Time passes. -/
def tick (s : DelayState) (nanos : Nat) : DelayState := { s with now := later s.now nanos }

/-- The delay of this text is over. -/
def release (s : DelayState) (i : Nat) : Option DelayState :=
  match s.delayed[i]? with
  | none => none
  | some (releasedAt, request) =>
      if releasedAt.nanos ≤ s.now.nanos then
        some { s with
          delayed := s.delayed.eraseIdx i
          server := { s.server with
            visible := s.server.visible ++ [(request.queueUrl, request.body)] } }
      else none

/-- The visibility timeout of a text in flight is over. -/
def expire (s : DelayState) (url : String) (receipt : Receipt) : DelayState :=
  { s with server := s.server.changeVisibility url receipt 0 }

end DelayState

/-- The server reads the clock and holds back what is sent with a delay. -/
def delayServer : Service requests where
  State := DelayState
  Oracle := SqsOracle
  respond o s
    | .utcNow => some (s.now, s)
    | .sendMessage request =>
        some (carried o.failure s (.ok (), s.send request o.duplicate))
    | op => (server.respond o s.server op).map fun p => (p.1, { s with server := p.2 })

/-- What comes from outside: time passes, a delay or a visibility timeout ends, and a
worker goes once around its loop. -/
inductive DelayStimulus where
  | tick (nanos : Nat)
  | release (i : Nat)
  | expire (url : String) (receipt : Receipt)
  | work (w : Worker) (queues : List String) (timeoutSecs : Int)

section System

variable {R : Interface} (b : SqsBroker) (codec : SqsCodec) (chain : Codec)
  (backend : BackendDriver R) (S : Service R)

/-- Receive a message and execute it. -/
def iteration (w : Worker) (queues : List String) (timeoutSecs : Int) :
    Prog (system requests R) Unit := do
  match ← onBroker (b.dequeue codec queues timeoutSecs) with
  | .ok (some m) => link (b.driver codec) backend (executeTask w chain m)
  | _ => pure ()

/-- Workers over SQS, with one clock for all. -/
def delaySystem : Machine (system requests R) where
  State := DelayState × S.State
  Oracle := SystemOracle delayServer S
  respond o s
    | .runtime .utcNow => some (s.1.now, s)
    | op => (systemService delayServer S).respond o s op
  Stimulus := DelayStimulus
  accept x s :=
    match x with
    | .tick nanos => some ((s.1.tick nanos, s.2), [])
    | .release i => (s.1.release i).map fun s' => ((s', s.2), [])
    | .expire url receipt => some ((s.1.expire url receipt, s.2), [])
    | .work w queues timeoutSecs => some (s, [iteration b codec chain backend w queues timeoutSecs])

end System

/-! ## Delays are between 0 and 900 seconds -/

/-- A delay the service accepts. -/
def SendRequest.Modest (request : SendRequest) : Prop :=
  ∀ d, request.delaySeconds = some d → 0 ≤ d ∧ d ≤ 900

/-- Only such a delay is asked for. -/
def AsksModestly (op : SqsOp) : Prop := ∀ request, op = .sendMessage request → request.Modest

namespace SqsBroker

variable {b : SqsBroker} {codec : SqsCodec}

theorem calls_sendLast {C : SqsOp → Prop} {request : SendRequest} (h : C (.sendMessage request)) :
    (sendLast request).Calls C := ⟨h, fun _ => trivial⟩

theorem asksModestly_send {m : TaskMessage} {url dedupId : String} {delay : Option Int}
    (h : ∀ d, delay = some d → 0 ≤ d ∧ d ≤ 900) :
    AsksModestly (.sendMessage (request codec m url dedupId delay)) := by
  intro request hrequest
  cases hrequest
  exact h

theorem calls_enqueue (m : TaskMessage) : (b.enqueue codec m).Calls AsksModestly := by
  unfold enqueue
  cases b.resolveQueueUrl m.queue with
  | none => trivial
  | some url =>
      cases m.eta with
      | none => exact calls_sendLast (asksModestly_send fun d hd => by cases hd)
      | some eta =>
          refine ⟨fun request h => (by cases h), fun now => calls_sendLast (asksModestly_send ?_)⟩
          intro d hd
          obtain ⟨-, heq⟩ := Option.ite_none_right_eq_some.mp hd
          cases heq
          omega

/-- The copy `schedule` sends when the clock reads `now`. -/
def scheduledCopy (m : TaskMessage) (eta now : DateTime) : TaskMessage :=
  if 900 < max (secondsUntil eta now) 0 then { m with eta := some eta } else m

/-- What `schedule` does once it has read the clock. -/
def sendScheduled (b : SqsBroker) (codec : SqsCodec) (m : TaskMessage) (eta now : DateTime) :
    Prog requests (TaskResult Unit) :=
  match b.resolveQueueUrl (scheduledCopy m eta now).queue with
  | none => pure (.error (.queueNotFound (scheduledCopy m eta now).queue))
  | some url =>
      sendLast (request codec (scheduledCopy m eta now) url (dedupId (scheduledCopy m eta now))
        (some (min (max (secondsUntil eta now) 0) 900)))

theorem schedule_eq (m : TaskMessage) (eta : DateTime) :
    b.schedule codec m eta = .call .utcNow (b.sendScheduled codec m eta) := rfl

theorem calls_schedule (m : TaskMessage) (eta : DateTime) :
    (b.schedule codec m eta).Calls AsksModestly := by
  rw [schedule_eq]
  refine ⟨fun request h => (by cases h), fun now => ?_⟩
  unfold sendScheduled
  split
  · trivial
  · refine calls_sendLast (asksModestly_send ?_)
    intro d hd
    cases hd
    omega

theorem calls_ack (id : TaskId) : (ack id).Calls AsksModestly := by
  refine ⟨fun request h => (by cases h), fun found => ?_⟩
  cases found with
  | none => trivial
  | some e => exact ⟨fun request h => (by cases h), fun _ => trivial⟩

theorem calls_nack (m : TaskMessage) : (nack m).Calls AsksModestly := by
  refine ⟨fun request h => (by cases h), fun found => ?_⟩
  cases found with
  | none => trivial
  | some e => exact ⟨fun request h => (by cases h), fun _ => trivial⟩

theorem calls_deadLetter (m : TaskMessage) : (b.deadLetter codec m).Calls AsksModestly := by
  refine (calls_ack m.id).bind fun acked => ?_
  cases acked with
  | error e => trivial
  | ok _ =>
      cases b.config.dlqUrl with
      | none => trivial
      | some url => exact calls_sendLast (asksModestly_send fun d hd => by cases hd)

theorem calls_dequeueFrom (wait : Int) (queues : List String) :
    (b.dequeueFrom codec wait queues).Calls AsksModestly := by
  induction queues with
  | nil => trivial
  | cons name names ih =>
      unfold dequeueFrom
      cases b.resolveQueueUrl name with
      | none => exact ih
      | some url =>
          refine ⟨fun request h => (by cases h), fun answer => ?_⟩
          rcases answer with e | _ | received
          · trivial
          · exact ih
          · simp only [Prog.bind]
            split
            · trivial
            · split
              · trivial
              · exact ⟨fun request h => (by cases h), fun _ => trivial⟩

/-- Every request of the broker asks for a delay that SQS accepts. -/
theorem calls_driver (op : BrokerOp) : (b.driver codec op).Calls AsksModestly := by
  cases op with
  | enqueue m => exact calls_enqueue m
  | ack id => exact calls_ack id
  | nack m => exact calls_nack m
  | deadLetter m => exact calls_deadLetter m
  | schedule m eta => exact calls_schedule m eta

end SqsBroker

section System

variable {R : Interface} {b : SqsBroker} {codec : SqsCodec} {chain : Codec}
  {backend : BackendDriver R} {S : Service R}

theorem calls_iteration (w : Worker) (queues : List String) (timeoutSecs : Int) :
    (iteration b codec chain backend w queues timeoutSecs).Calls (BrokerCalls AsksModestly) := by
  refine (calls_onBroker (SqsBroker.calls_dequeueFrom _ queues)).bind fun out => ?_
  match out with
  | .ok (some m) => exact calls_link _ _ SqsBroker.calls_driver _
  | .ok none => trivial
  | .error e => trivial

/-- Whatever is sent during a run of workers is sent with a delay that SQS accepts. -/
theorem modest_of_reach {s₀ : DelayState × S.State} {tr : List (delaySystem b codec chain backend S).Label}
    {c : (delaySystem b codec chain backend S).Config}
    (h : (delaySystem b codec chain backend S).Reach ⟨s₀, []⟩ tr c) {request : SendRequest}
    {answer : Except RequestError Unit}
    (hsent : .call ⟨.broker (.sendMessage request), answer⟩ ∈ tr) : request.Modest := by
  have hentry : ∀ x s s' new, (delaySystem b codec chain backend S).accept x s = some (s', new) →
      ∀ p ∈ new, p.Calls (BrokerCalls AsksModestly) := by
    intro x s s' new haccept p hp
    cases x with
    | tick nanos =>
        cases haccept
        cases hp
    | release i =>
        obtain ⟨s', -, heq⟩ := Option.map_eq_some_iff.mp haccept
        cases heq
        cases hp
    | expire url receipt =>
        cases haccept
        cases hp
    | work w queues timeoutSecs =>
        cases haccept
        obtain rfl := List.mem_singleton.mp hp
        exact calls_iteration w queues timeoutSecs
  have hcalls := (h.calls hentry fun p hp => (List.not_mem_nil hp).elim).1 _ hsent
  exact hcalls request rfl

end System

/-! ## How far an iteration has come -/

/-- An iteration of a worker: before it has received a message, before the guard, when
the guard has turned the message away, and when it has let it pass. -/
inductive DelayRole where
  | seeking
  | fresh (m : TaskMessage)
  | returning (m : TaskMessage)
  | running (m : TaskMessage)

/-- `execute_task` as the guard sees it. -/
inductive GuardStep : DelayRole → (op : traits.Op) → traits.Res op → DelayRole → Prop where
  | note (u : DelayRole) (e : TraceEvent) : GuardStep u (.runtime (.trace e)) () u
  | turnAway {m : TaskMessage} {eta now : DateTime} :
      m.eta = some eta → GuardStep (.fresh m) (.runtime .utcNow) now (.returning m)
  | pass {m : TaskMessage} {now : DateTime} :
      (∀ eta, m.eta = some eta → eta.nanos ≤ now.nanos) →
      GuardStep (.fresh m) (.runtime .utcNow) now (.running m)
  | execute {m : TaskMessage} :
      m.eta = none → GuardStep (.fresh m) (.runtime (.trace (.executing m))) () (.running m)
  | release (m : TaskMessage) (id : TaskId) (r : TaskResult Unit) :
      GuardStep (.returning m) (.broker (.ack id)) r (.returning m)
  | reschedule {m : TaskMessage} {eta : DateTime} (r : TaskResult Unit) :
      m.eta = some eta → GuardStep (.returning m) (.broker (.schedule m eta)) r (.returning m)
  | run (m : TaskMessage) {op : traits.Op} (r : traits.Res op) :
      (∀ x name payload, op = .runtime (.handle x name payload) → x = m.start) →
      GuardStep (.running m) op r (.running m)

/-- The protocol of `execute_task` as the guard sees it. -/
abbrev etaGuard : Protocol traits := ⟨DelayRole, GuardStep, fun _ => True⟩

/-- The stages of an execution that come after the handler, or in its place. -/
def pastHandler : Stage → Bool
  | .received _ _ => false
  | .cleared _ _ => false
  | .running _ _ => false
  | .postponed _ _ => false
  | .released _ _ => false
  | _ => true

/-- How the stages of an execution look to the guard. -/
inductive SeenAs : Stage → DelayRole → Prop where
  | received (b : Bool) (m : TaskMessage) : SeenAs (.received b m) (.fresh m)
  | postponed {m : TaskMessage} {eta : DateTime} :
      m.eta = some eta → SeenAs (.postponed m eta) (.returning m)
  | released {m : TaskMessage} {eta : DateTime} :
      m.eta = some eta → SeenAs (.released m eta) (.returning m)
  | returned (m : TaskMessage) : SeenAs .gone (.returning m)
  | cleared (b : Bool) (m : TaskMessage) : SeenAs (.cleared b m) (.running m)
  | running (b : Bool) (m : TaskMessage) : SeenAs (.running b m) (.running m)
  | past {t : Stage} (m : TaskMessage) : pastHandler t = true → SeenAs t (.running m)

/-- A step past the handler leads further. -/
theorem pastHandler_step {chain : Codec} {t t' : Stage} {op : traits.Op} {r : traits.Res op}
    (h : Stage.Step chain t op r t') (hpast : pastHandler t = true) : pastHandler t' = true := by
  cases h with
  | note => exact hpast
  | _ => first | rfl | cases hpast

/-- No handler is called past the handler. -/
theorem not_handle_of_pastHandler {chain : Codec} {t t' : Stage} {op : traits.Op}
    {r : traits.Res op} (h : Stage.Step chain t op r t') (hpast : pastHandler t = true)
    {x : TaskMessage} {name : String} {payload : Json} :
    op ≠ .runtime (.handle x name payload) := by
  rintro rfl
  cases h <;> cases hpast

/-- The guard sees every step of an execution. -/
theorem SeenAs.step {chain : Codec} {t t' : Stage} {u : DelayRole} {op : traits.Op}
    {r : traits.Res op} (hseen : SeenAs t u) (h : Stage.Step chain t op r t') :
    ∃ u', GuardStep u op r u' ∧ SeenAs t' u' := by
  cases hseen with
  | past m hpast =>
      refine ⟨.running m, .run m r ?_, .past m (pastHandler_step h hpast)⟩
      intro x name payload heq
      exact absurd heq (not_handle_of_pastHandler h hpast)
  | returned m =>
      cases h with
      | note _ _ => exact ⟨.returning m, .note _ _, .returned m⟩
  | received b m =>
      cases h with
      | note _ _ => exact ⟨.fresh m, .note _ _, .received b m⟩
      | postpone _ heta _ => exact ⟨.returning m, .turnAway heta, .postponed heta⟩
      | @clear _ _ eta now heta hle =>
          refine ⟨.running m, .pass fun eta' heta' => ?_, .cleared b m⟩
          cases heta.symm.trans heta'
          exact Int.not_lt.mp hle
      | execute _ hnone => exact ⟨.running m, .execute hnone, .running b m⟩
  | @postponed m eta heta =>
      cases h with
      | note _ _ => exact ⟨.returning m, .note _ _, .postponed heta⟩
      | release _ _ r => exact ⟨.returning m, .release m m.id r, .released heta⟩
  | @released m eta heta =>
      cases h with
      | note _ _ => exact ⟨.returning m, .note _ _, .released heta⟩
      | reschedule _ _ r => exact ⟨.returning m, .reschedule r heta, .returned m⟩
  | cleared b m =>
      cases h with
      | note _ _ => exact ⟨.running m, .note _ _, .cleared b m⟩
      | executeCleared _ _ => exact ⟨.running m, .note _ _, .running b m⟩
  | running b m =>
      cases h with
      | note _ _ => exact ⟨.running m, .note _ _, .running b m⟩
      | before _ _ mw x r =>
          refine ⟨.running m, @GuardStep.run m (.runtime (.before mw x)) r ?_, .running b m⟩
          intro x name payload heq
          cases heq
      | handled _ _ result =>
          refine ⟨.running m, .run m _ ?_, .past m rfl⟩
          intro x name payload heq
          cases heq
          rfl
      | err _ _ e =>
          refine ⟨.running m, .run m _ ?_, .past m rfl⟩
          intro x name payload heq
          cases heq
          rfl
      | beforeFailed _ _ e => exact ⟨.running m, .note _ _, .past m rfl⟩
      | notFound _ _ e => exact ⟨.running m, .note _ _, .past m rfl⟩

/-- An execution, as the guard sees it. -/
theorem executeTask_guarded (w : Worker) (chain : Codec) (m : TaskMessage) :
    (executeTask w chain m).Follows etaGuard (.fresh m) :=
  Prog.Follows.simulated SeenAs (fun hseen h => hseen.step h) (fun _ _ _ _ => trivial)
    (.received w.hasBackend m) (executeTask_follows w m)

/-! ## On the broker -/

section Linked

variable {R : Interface}

/-- An iteration over SQS, as the guard sees it.  A message that was turned away is sent
as it is. -/
inductive RoleStep (codec : SqsCodec) : DelayRole → (op : (system requests R).Op) →
    (system requests R).Res op → DelayRole → Prop where
  | failed (url : String) (wait visibility : Int) (e : RequestError) :
      RoleStep codec .seeking (.broker (.receiveMessage url wait visibility)) (.error e) .seeking
  | nothing (url : String) (wait visibility : Int) :
      RoleStep codec .seeking (.broker (.receiveMessage url wait visibility)) (.ok none) .seeking
  | garbled (url : String) (wait visibility : Int) {received : Received} {e : String} :
      codec.decodeMessage (received.body.getD "{}") = .error e →
      RoleStep codec .seeking (.broker (.receiveMessage url wait visibility))
        (.ok (some received)) .seeking
  | receive (url : String) (wait visibility : Int) {received : Received} {m : TaskMessage} :
      codec.decodeMessage (received.body.getD "{}") = .ok m →
      RoleStep codec .seeking (.broker (.receiveMessage url wait visibility))
        (.ok (some received)) (.fresh m)
  | remember (m : TaskMessage) (id : TaskId) (url : String) (receipt : Receipt) :
      RoleStep codec (.fresh m) (.broker (.insertReceipt id url receipt)) () (.fresh m)
  | runtime {u u' : DelayRole} {op : RuntimeOp} {r : op.Res} :
      GuardStep u (.runtime op) r u' → RoleStep codec u (.runtime op) r u'
  | resend (m : TaskMessage) {op : SqsOp} (r : op.Res) :
      (∀ request, op = .sendMessage request → request.body = m.encode codec.rfc3339) →
      RoleStep codec (.returning m) (.broker op) r (.returning m)
  | broker (m : TaskMessage) (op : SqsOp) (r : op.Res) :
      RoleStep codec (.running m) (.broker op) r (.running m)
  | backend (m : TaskMessage) (op : R.Op) (r : R.Res op) :
      RoleStep codec (.running m) (.backend op) r (.running m)

/-- The protocol of an iteration over SQS. -/
abbrev delayed (codec : SqsCodec) (R : Interface) : Protocol (system requests R) :=
  ⟨DelayRole, RoleStep codec, fun _ => True⟩

variable {b : SqsBroker} {codec : SqsCodec}

/-- A program on the broker whose calls all leave the role as it is. -/
theorem wp_onBroker {C : SqsOp → Prop} {u : DelayRole} {α : Type} {p : Prog requests α}
    (hstep : ∀ op (r : op.Res), C op → RoleStep (R := R) codec u (.broker op) r u)
    (hp : p.Calls C) : (onBroker p).wp (delayed codec R) u fun _ u' => u' = u := by
  induction p with
  | ret a => rfl
  | call op k ih => exact fun r => ⟨u, hstep op r hp.1, ih r (hp.2 r)⟩

/-- A program on the backend leaves the role as it is. -/
theorem wp_onBackend {u : DelayRole} {α : Type} {p : Prog R α}
    (hstep : ∀ op (r : R.Res op), RoleStep codec u (.backend op) r u) :
    (onBackend p).wp (delayed codec R) u fun _ u' => u' = u := by
  induction p with
  | ret a => rfl
  | call op k ih => exact fun r => ⟨u, hstep op r, ih r⟩

/-- Only texts of this message are sent. -/
def Resends (codec : SqsCodec) (m : TaskMessage) (op : SqsOp) : Prop :=
  ∀ request, op = .sendMessage request → request.body = m.encode codec.rfc3339

theorem resends_ack (m : TaskMessage) (id : TaskId) :
    (SqsBroker.ack id).Calls (Resends codec m) := by
  refine ⟨fun request h => (by cases h), fun found => ?_⟩
  cases found with
  | none => trivial
  | some e => exact ⟨fun request h => (by cases h), fun _ => trivial⟩

/-- `schedule` for the eta that the message has sends it as it is. -/
theorem resends_schedule {m : TaskMessage} {eta : DateTime} (heta : m.eta = some eta) :
    (b.schedule codec m eta).Calls (Resends codec m) := by
  have hcopy : ∀ now, SqsBroker.scheduledCopy m eta now = m := by
    intro now
    unfold SqsBroker.scheduledCopy
    split
    · cases m
      cases heta
      rfl
    · rfl
  rw [SqsBroker.schedule_eq]
  refine ⟨fun request h => (by cases h), fun now => ?_⟩
  unfold SqsBroker.sendScheduled
  rw [hcopy]
  split
  · trivial
  · refine SqsBroker.calls_sendLast ?_
    intro request hrequest
    cases hrequest
    rfl

/-- A call of the broker leaves the role as it is. -/
theorem GuardStep.broker_eq {u u' : DelayRole} {op : BrokerOp} {r : TaskResult Unit}
    (h : GuardStep u (.broker op) r u') : u' = u := by
  cases h <;> rfl

/-- A call of the backend leaves the role as it is, and is only made past the guard. -/
theorem GuardStep.backend_eq {u u' : DelayRole} {op : ResultBackendOp} {r : op.Res}
    (h : GuardStep u (.backend op) r u') : u' = u ∧ ∃ m, u = .running m := by
  cases h with
  | run m _ _ => exact ⟨rfl, m, rfl⟩

/-- Every call of an execution, on the broker and the backend, as the guard sees it. -/
theorem drive_guarded {backend : BackendDriver R} (u : DelayRole) (op : traits.Op)
    (f : traits.Res op → DelayRole) (h : ∀ r, GuardStep u op r (f r)) :
    (drive (b.driver codec) backend op).wp (delayed codec R) u fun r u' => u' = f r := by
  cases op with
  | runtime op => exact fun r => ⟨f r, .runtime (h r), rfl⟩
  | broker op =>
      have hwp : (onBroker (b.driver codec op)).wp (delayed codec R) u fun _ u' => u' = u := by
        have hok := h (.ok ())
        rw [(h (.ok ())).broker_eq] at hok
        cases hok with
        | release m id _ => exact wp_onBroker (fun op r h => .resend m r h) (resends_ack m id)
        | reschedule _ heta =>
            exact wp_onBroker (fun op r h => .resend _ r h) (resends_schedule heta)
        | run m _ _ =>
            exact wp_onBroker (fun op r _ => .broker m op r) (SqsBroker.calls_driver op)
      refine Prog.wp_mono hwp fun r u' hu => ?_
      rw [hu, (h r).broker_eq]
  | backend op =>
      have hrunning : ∃ m, u = .running m := by
        cases op with
        | store id result => exact (h (.ok ())).backend_eq.2
        | initGroup group total => exact (h (.ok ())).backend_eq.2
        | completeGroupMember group task result => exact (h (.ok 0)).backend_eq.2
        | getGroupResults group => exact (h (.ok [])).backend_eq.2
      obtain ⟨m, rfl⟩ := hrunning
      refine Prog.wp_mono (wp_onBackend fun op r => .backend m op r) fun r u' hu => ?_
      rw [hu, (h r).backend_eq.1]

/-- `dequeue`, and what follows it. -/
theorem dequeueFrom_wp (wait : Int) (queues : List String) :
    (onBroker (b.dequeueFrom codec wait queues)).wp (delayed codec R) .seeking fun out u =>
      (∃ m, out = .ok (some m) ∧ u = .fresh m) ∨ (∀ m, out ≠ .ok (some m)) := by
  induction queues with
  | nil => exact .inr fun m h => by cases h
  | cons name names ih =>
      unfold SqsBroker.dequeueFrom
      cases b.resolveQueueUrl name with
      | none => exact ih
      | some url =>
          intro answer
          rcases answer with e | _ | received
          · exact ⟨.seeking, .failed url wait _ e, .inr fun m h => by cases h⟩
          · exact ⟨.seeking, .nothing url wait _, ih⟩
          · cases hdecode : codec.decodeMessage (received.body.getD "{}") with
            | error e =>
                refine ⟨.seeking, .garbled url wait _ hdecode, ?_⟩
                simp only [Prog.bind, hdecode]
                exact .inr fun m h => by cases h
            | ok m =>
                refine ⟨.fresh m, .receive url wait _ hdecode, ?_⟩
                simp only [Prog.bind, hdecode]
                cases received.receipt with
                | none => exact .inl ⟨m, rfl, rfl⟩
                | some receipt =>
                    exact fun r => ⟨.fresh m, .remember m m.id url receipt, .inl ⟨m, rfl, rfl⟩⟩

/-- A worker that goes once around its loop. -/
theorem iteration_follows {chain : Codec} {backend : BackendDriver R} (w : Worker)
    (queues : List String) (timeoutSecs : Int) :
    (iteration b codec chain backend w queues timeoutSecs).Follows (delayed codec R) .seeking := by
  refine Prog.wp_seq (dequeueFrom_wp _ queues) ?_
  rintro out u (⟨m, rfl, rfl⟩ | hnone)
  · exact Prog.Follows.interp (P := etaGuard) (R := delayed codec R) id drive_guarded (fun _ _ => trivial)
      (executeTask_guarded w chain m)
  · match out with
    | .ok (some m) => exact absurd rfl (hnone m)
    | .ok none => trivial
    | .error e => trivial

end Linked

/-! ## What the server does to texts -/

/-- A text that can be received, or is in flight. -/
def SqsState.Has (s : SqsState) (e : String × String) : Prop :=
  e ∈ s.visible ∨ ∃ receipt, (receipt, e) ∈ s.flight

namespace SqsState

variable {s : SqsState} {e : String × String}

theorem has_of_delete {url : String} {receipt : Receipt} (h : (s.delete url receipt).Has e) :
    s.Has e := by
  rcases h with h | ⟨receipt', h⟩
  · exact .inl h
  · exact .inr ⟨receipt', List.eraseP_sublist.subset h⟩

theorem has_of_changeVisibility {url : String} {receipt : Receipt} {timeout : Int}
    (h : (s.changeVisibility url receipt timeout).Has e) : s.Has e := by
  unfold changeVisibility at h
  split at h
  · rename_i found hfound
    split at h
    · rcases h with h | ⟨receipt', h⟩
      · rcases List.mem_append.mp h with h | h
        · exact .inl h
        · obtain rfl := List.mem_singleton.mp h
          exact .inr ⟨found.1, List.mem_of_find?_eq_some hfound⟩
      · exact has_of_delete (.inr ⟨receipt', h⟩)
    · exact h
  · exact h

theorem has_of_receive {url : String} {pick : Nat} (h : (s.receive url pick).2.Has e) :
    s.Has e := by
  rcases s.receive_cases url pick with heq | ⟨body, hpick, heq⟩
  · rw [heq] at h
    exact h
  · rw [heq] at h
    rcases h with h | ⟨receipt, h⟩
    · exact .inl (List.mem_of_mem_eraseIdx h)
    · rcases List.mem_append.mp h with h | h
      · exact .inr ⟨receipt, h⟩
      · cases List.mem_singleton.mp h
        exact .inl (List.mem_of_getElem? hpick)

end SqsState

/-- A request that sends nothing brings no text. -/
theorem server_has {o : SqsOracle} {s s' : SqsState} {op : SqsOp} {r : op.Res}
    (h : server.respond o s op = some (r, s')) (hop : ∀ request, op ≠ .sendMessage request)
    {e : String × String} (he : s'.Has e) : s.Has e := by
  cases op with
  | utcNow =>
      cases h
      exact he
  | insertReceipt id url receipt =>
      cases h
      exact he
  | removeReceipt id =>
      cases h
      exact he
  | sendMessage request => exact absurd rfl (hop request)
  | receiveMessage url wait visibility =>
      rcases server_receive h with ⟨_, -, -, ⟨-, rfl⟩ | ⟨-, rfl⟩⟩ | ⟨-, -, rfl⟩
      · exact he
      · exact SqsState.has_of_receive he
      · exact SqsState.has_of_receive he
  | deleteMessage url receipt =>
      rcases server_delete h with ⟨_, -, -, ⟨-, rfl⟩ | ⟨-, rfl⟩⟩ | ⟨-, -, rfl⟩
      · exact he
      · exact SqsState.has_of_delete he
      · exact SqsState.has_of_delete he
  | changeVisibility url receipt timeout =>
      rcases server_visibility h with ⟨_, -, -, ⟨-, rfl⟩ | ⟨-, rfl⟩⟩ | ⟨-, -, rfl⟩
      · exact he
      · exact SqsState.has_of_changeVisibility he
      · exact SqsState.has_of_changeVisibility he

/-- What is received was visible. -/
theorem server_received {o : SqsOracle} {s s' : SqsState} {url : String} {wait visibility : Int}
    {received : Received}
    (h : server.respond o s (.receiveMessage url wait visibility) =
      some (.ok (some received), s')) : s.Has (url, received.body.getD "{}") := by
  rcases server_receive h with ⟨_, hans, -, -⟩ | ⟨hans, -, -⟩
  · cases hans
  · rcases s.receive_cases url o.pick with heq | ⟨body, hpick, heq⟩
    · rw [heq] at hans
      cases hans
    · rw [heq] at hans
      cases hans
      exact .inl (List.mem_of_getElem? hpick)

/-- What is neither the clock nor a send goes to the server behind. -/
theorem delayServer_behind {o : SqsOracle} {s s' : DelayState} {op : SqsOp} {r : op.Res}
    (h : delayServer.respond o s op = some (r, s')) (hclock : op ≠ .utcNow)
    (hsend : ∀ request, op ≠ .sendMessage request) :
    ∃ t, server.respond o s.server op = some (r, t) ∧ s' = { s with server := t } := by
  cases op with
  | utcNow => exact absurd rfl hclock
  | sendMessage request => exact absurd rfl (hsend request)
  | _ =>
      simp only [delayServer, Option.map_eq_some_iff] at h
      obtain ⟨⟨r', t⟩, ht, heq⟩ := h
      cases heq
      exact ⟨t, ht, rfl⟩

/-- The delaying server at a request: the clock stands, and either it is a text that is
held back, or the server behind it answers. -/
theorem delayServer_cases {o : SqsOracle} {s s' : DelayState} {op : SqsOp} {r : op.Res}
    (h : delayServer.respond o s op = some (r, s')) :
    s'.now = s.now ∧
      ((s' = s ∧ ∀ url wait visibility, op ≠ .receiveMessage url wait visibility) ∨
        (∃ request, op = .sendMessage request ∧ s' = s.send request o.duplicate) ∨
        ((∀ request, op ≠ .sendMessage request) ∧ s'.delayed = s.delayed ∧
          server.respond o s.server op = some (r, s'.server))) := by
  cases op with
  | utcNow =>
      cases h
      exact ⟨rfl, .inl ⟨rfl, fun _ _ _ h => by cases h⟩⟩
  | sendMessage request =>
      have hclock : (s.send request o.duplicate).now = s.now := by
        unfold DelayState.send
        split <;> rfl
      rcases done_or_failed h with ⟨e, -, -, ⟨-, rfl⟩ | ⟨-, rfl⟩⟩ | ⟨-, -, rfl⟩
      · exact ⟨rfl, .inl ⟨rfl, fun _ _ _ h => by cases h⟩⟩
      · exact ⟨hclock, .inr (.inl ⟨request, rfl, rfl⟩)⟩
      · exact ⟨hclock, .inr (.inl ⟨request, rfl, rfl⟩)⟩
  | _ =>
      obtain ⟨t, ht, rfl⟩ := delayServer_behind h (by simp) (by simp)
      exact ⟨rfl, .inr (.inr ⟨fun _ h => (by cases h), rfl, ht⟩)⟩

/-! ## Not before its time -/

/-- The message has an eta that is not before `bound`. -/
def LateEta (bound : Int) (m : TaskMessage) : Prop :=
  ∃ eta, m.eta = some eta ∧ bound ≤ eta.nanos

/-- All texts are texts of `m`; those that are not held back until `bound` carry an eta
that is not before it. -/
structure Waiting (codec : SqsCodec) (bound : Int) (m : TaskMessage) (s : DelayState) : Prop where
  delayed : ∀ e ∈ s.delayed, e.2.body = m.encode codec.rfc3339 ∧
    (bound ≤ e.1.nanos ∨ LateEta bound m)
  texts : ∀ e, s.server.Has e → e.2 = m.encode codec.rfc3339 ∧ LateEta bound m

/-- An iteration that has not passed the guard, with `m` if with any message. -/
def DelayRole.Waits (bound : Int) (m : TaskMessage) : DelayRole → Prop
  | .seeking => True
  | .fresh x => x = m ∧ LateEta bound m
  | .returning x => x = m ∧ LateEta bound m
  | .running _ => False

/-- The eta of a message that has passed the guard is over. -/
def DelayRole.Ripe (now : DateTime) : DelayRole → Prop
  | .running m => ∀ eta, m.eta = some eta → eta.nanos ≤ now.nanos
  | _ => True

/-- What holds in every run that begins with one text of `m`. -/
structure OnTime (codec : SqsCodec) (bound : Int) (m : TaskMessage) (s : DelayState)
    (roles : List DelayRole) : Prop where
  ripe : ∀ u ∈ roles, u.Ripe s.now
  due : bound ≤ s.now.nanos ∨ Waiting codec bound m s ∧ ∀ u ∈ roles, u.Waits bound m

section Invariant

variable {codec : SqsCodec} {bound : Int} {m : TaskMessage} {s s' : DelayState}

theorem DelayRole.Ripe.mono {now now' : DateTime} {u : DelayRole} (h : u.Ripe now)
    (hle : now.nanos ≤ now'.nanos) : u.Ripe now' := by
  cases u with
  | running m => exact fun eta heta => (h eta heta).trans hle
  | _ => trivial

/-- A request that sends nothing, or a text of a message that carries its eta. -/
theorem Waiting.respond (hwait : Waiting codec bound m s) {o : SqsOracle} {op : SqsOp}
    {r : op.Res} (h : delayServer.respond o s op = some (r, s'))
    (hop : ∀ request, op = .sendMessage request →
      request.body = m.encode codec.rfc3339 ∧ LateEta bound m) : Waiting codec bound m s' := by
  rcases (delayServer_cases h).2 with ⟨rfl, -⟩ | ⟨request, rfl, rfl⟩ | ⟨hsend, hdelayed, hserver⟩
  · exact hwait
  · obtain ⟨hbody, hlate⟩ := hop request rfl
    unfold DelayState.send
    split
    · exact hwait
    · refine ⟨fun e he => ?_, hwait.texts⟩
      rcases List.mem_append.mp he with he | he
      · exact hwait.delayed e he
      · obtain rfl := List.mem_singleton.mp he
        exact ⟨hbody, .inr hlate⟩
  · refine ⟨fun e he => hwait.delayed e (hdelayed ▸ he), fun e he => ?_⟩
    exact hwait.texts e (server_has hserver hsend he)

/-- A text whose delay is over: if it was held back until `bound`, the time has come. -/
theorem Waiting.release (hwait : Waiting codec bound m s) {i : Nat} (h : s.release i = some s') :
    bound ≤ s'.now.nanos ∨ Waiting codec bound m s' := by
  unfold DelayState.release at h
  split at h
  · cases h
  · rename_i releasedAt request hi
    obtain ⟨hreleased, heq⟩ := Option.ite_none_right_eq_some.mp h
    cases heq
    obtain ⟨hbody, hlate⟩ := hwait.delayed _ (List.mem_of_getElem? hi)
    rcases hlate with hbound | hlate
    · exact .inl (hbound.trans hreleased)
    · refine .inr ⟨fun e he => hwait.delayed e (List.mem_of_mem_eraseIdx he), fun e he => ?_⟩
      rcases he with he | he
      · rcases List.mem_append.mp he with he | he
        · exact hwait.texts e (.inl he)
        · obtain rfl := List.mem_singleton.mp he
          exact ⟨hbody, hlate⟩
      · exact hwait.texts e (.inr he)

theorem release_now {i : Nat} (h : s.release i = some s') : s'.now = s.now := by
  unfold DelayState.release at h
  split at h
  · cases h
  · obtain ⟨-, heq⟩ := Option.ite_none_right_eq_some.mp h
    cases heq
    rfl

variable {R : Interface} {b : SqsBroker} {chain : Codec} {backend : BackendDriver R}
  {S : Service R}

/-- The runtime changes nothing, and reads the clock. -/
theorem respond_runtime {o : SystemOracle delayServer S} {t t' : DelayState × S.State}
    {op : RuntimeOp} {r : op.Res}
    (h : (delaySystem b codec chain backend S).respond o t (.runtime op) = some (r, t')) :
    t' = t := by
  cases op <;> cases h <;> rfl

theorem respond_clock {o : SystemOracle delayServer S} {t t' : DelayState × S.State}
    {now : DateTime}
    (h : (delaySystem b codec chain backend S).respond o t (.runtime .utcNow) = some (now, t')) :
    now = t.1.now := by
  cases h
  rfl

theorem respond_broker {o : SystemOracle delayServer S} {t t' : DelayState × S.State}
    {op : SqsOp} {r : op.Res}
    (h : (delaySystem b codec chain backend S).respond o t (.broker op) = some (r, t')) :
    delayServer.respond o.broker t.1 op = some (r, t'.1) := by
  obtain ⟨⟨r', u⟩, hu, heq⟩ := Option.map_eq_some_iff.mp h
  cases heq
  exact hu

theorem respond_backend {o : SystemOracle delayServer S} {t t' : DelayState × S.State}
    {op : R.Op} {r : R.Res op}
    (h : (delaySystem b codec chain backend S).respond o t (.backend op) = some (r, t')) :
    t'.1 = t.1 := by
  obtain ⟨⟨r', u⟩, hu, heq⟩ := Option.map_eq_some_iff.mp h
  cases heq
  rfl

/-- A call leaves the clock as it is. -/
theorem respond_now {o : SystemOracle delayServer S} {t t' : DelayState × S.State}
    {op : (system requests R).Op} {r : (system requests R).Res op}
    (h : (delaySystem b codec chain backend S).respond o t op = some (r, t')) :
    t'.1.now = t.1.now := by
  cases op with
  | runtime op => rw [respond_runtime h]
  | broker op => exact (delayServer_cases (respond_broker h)).1
  | backend op => rw [respond_backend h]

/-- Whoever passes the guard has an eta that is over. -/
theorem RoleStep.ripe {o : SystemOracle delayServer S} {t t' : DelayState × S.State}
    {op : (system requests R).Op} {r : (system requests R).Res op} {u u' : DelayRole}
    (hstep : RoleStep codec u op r u')
    (h : (delaySystem b codec chain backend S).respond o t op = some (r, t'))
    (hripe : u.Ripe t.1.now) : u'.Ripe t.1.now := by
  cases hstep with
  | runtime hguard =>
      cases hguard with
      | note _ _ => exact hripe
      | turnAway _ => trivial
      | pass hover =>
          rw [← respond_clock h]
          exact hover
      | execute hnone => exact fun eta heta => nomatch hnone.symm.trans heta
      | run _ _ _ => exact hripe
  | broker m op r => exact hripe
  | backend m op r => exact hripe
  | _ => trivial

/-- A call of an iteration that waits: the time has come, or it and the texts wait on. -/
theorem RoleStep.waits {o : SystemOracle delayServer S} {t t' : DelayState × S.State}
    {op : (system requests R).Op} {r : (system requests R).Res op} {u u' : DelayRole}
    (hstep : RoleStep codec u op r u')
    (h : (delaySystem b codec chain backend S).respond o t op = some (r, t'))
    (hlegible : codec.Legible m) (hwait : Waiting codec bound m t.1) (hu : u.Waits bound m) :
    bound ≤ t.1.now.nanos ∨ Waiting codec bound m t'.1 ∧ u'.Waits bound m := by
  cases hstep with
  | failed url wait visibility e | nothing url wait visibility | garbled url wait visibility _ =>
      exact .inr ⟨hwait.respond (respond_broker h) fun _ heq => (by cases heq), trivial⟩
  | @receive url wait visibility received x hdecode =>
      have hserver := respond_broker h
      rcases (delayServer_cases hserver).2 with ⟨-, hne⟩ | ⟨_, heq, -⟩ | ⟨-, -, hreceive⟩
      · exact absurd rfl (hne url wait visibility)
      · cases heq
      · obtain ⟨htext, hlate⟩ := hwait.texts _ (server_received hreceive)
        have hread : codec.decodeMessage (m.encode codec.rfc3339) = .ok x := htext ▸ hdecode
        rw [hlegible] at hread
        cases hread
        exact .inr ⟨hwait.respond hserver fun _ heq => (by cases heq), rfl, hlate⟩
  | remember x id url receipt =>
      exact .inr ⟨hwait.respond (respond_broker h) fun _ heq => (by cases heq), hu⟩
  | runtime hguard =>
      rw [respond_runtime h]
      cases hguard with
      | note _ _ => exact .inr ⟨hwait, hu⟩
      | turnAway _ => exact .inr ⟨hwait, hu⟩
      | pass hover =>
          obtain ⟨rfl, eta, heta, hbound⟩ := hu
          rw [← respond_clock h]
          exact .inl (hbound.trans (hover eta heta))
      | execute hnone =>
          obtain ⟨rfl, eta, heta, -⟩ := hu
          cases hnone.symm.trans heta
      | run _ _ _ => exact hu.elim
  | resend x r hbody =>
      obtain ⟨rfl, hlate⟩ := hu
      refine .inr ⟨hwait.respond (respond_broker h) ?_, rfl, hlate⟩
      exact fun request heq => ⟨hbody request heq, hlate⟩
  | broker _ _ _ => exact hu.elim
  | backend _ _ _ => exact hu.elim

variable {roles : List DelayRole}

/-- Time that passes. -/
theorem OnTime.mono (h : OnTime codec bound m s roles) (hle : s.now.nanos ≤ s'.now.nanos)
    (hwait : Waiting codec bound m s → bound ≤ s'.now.nanos ∨ Waiting codec bound m s') :
    OnTime codec bound m s' roles := by
  refine ⟨fun u hu => (h.ripe u hu).mono hle, ?_⟩
  rcases h.due with hbound | ⟨hs, hroles⟩
  · exact .inl (hbound.trans hle)
  · rcases hwait hs with hbound | hs'
    · exact .inl hbound
    · exact .inr ⟨hs', hroles⟩

/-- The roles of the programs that a stimulus starts. -/
def delayEntry : DelayStimulus → DelayState × S.State → List DelayRole
  | .tick _, _ => []
  | .release _, _ => []
  | .expire _ _, _ => []
  | .work _ _ _, _ => [.seeking]

theorem delayEntry_follows (x : DelayStimulus) (t t' : DelayState × S.State)
    (new : List (Prog (system requests R) Unit))
    (h : (delaySystem b codec chain backend S).accept x t = some (t', new)) :
    List.Forall₂ (Prog.Follows (delayed codec R)) new (delayEntry (S := S) x t) := by
  cases x with
  | tick nanos =>
      cases h
      exact .nil
  | release i =>
      obtain ⟨s', -, heq⟩ := Option.map_eq_some_iff.mp h
      cases heq
      exact .nil
  | expire url receipt =>
      cases h
      exact .nil
  | work w queues timeoutSecs =>
      cases h
      exact .cons (iteration_follows w queues timeoutSecs) .nil

/-- What comes from outside lets time pass, or brings a worker that has nothing yet. -/
theorem OnTime.env {x : DelayStimulus} {t t' : DelayState × S.State}
    {new : List (Prog (system requests R) Unit)}
    (h : (delaySystem b codec chain backend S).accept x t = some (t', new))
    (hon : OnTime codec bound m t.1 roles) :
    OnTime codec bound m t'.1 (roles ++ delayEntry (S := S) x t) := by
  cases x with
  | tick nanos =>
      cases h
      rw [delayEntry, List.append_nil]
      refine hon.mono ?_ fun hwait => .inr ⟨hwait.delayed, hwait.texts⟩
      show t.1.now.nanos ≤ t.1.now.nanos + nanos
      omega
  | release i =>
      obtain ⟨s', hs, heq⟩ := Option.map_eq_some_iff.mp h
      cases heq
      rw [delayEntry, List.append_nil]
      exact hon.mono (le_of_eq (congrArg _ (release_now hs).symm)) fun hwait => hwait.release hs
  | expire url receipt =>
      cases h
      rw [delayEntry, List.append_nil]
      refine hon.mono (le_refl _) fun hwait => .inr ⟨hwait.delayed, fun e he => ?_⟩
      exact hwait.texts e (SqsState.has_of_changeVisibility he)
  | work w queues timeoutSecs =>
      cases h
      refine ⟨fun u hu => ?_, hon.due.imp_right fun hwait => ⟨hwait.1, fun u hu => ?_⟩⟩
      · rcases List.mem_append.mp hu with hu | hu
        · exact hon.ripe u hu
        · obtain rfl := List.mem_singleton.mp hu
          trivial
      · rcases List.mem_append.mp hu with hu | hu
        · exact hwait.2 u hu
        · obtain rfl := List.mem_singleton.mp hu
          trivial

/-- A call of an iteration. -/
theorem OnTime.call {o : SystemOracle delayServer S} {t t' : DelayState × S.State}
    {op : (system requests R).Op} {r : (system requests R).Res op} {u u' : DelayRole}
    {before after : List DelayRole} (hstep : RoleStep codec u op r u')
    (h : (delaySystem b codec chain backend S).respond o t op = some (r, t'))
    (hlegible : codec.Legible m) (hon : OnTime codec bound m t.1 (before ++ u :: after)) :
    OnTime codec bound m t'.1 (before ++ u' :: after) := by
  have hu : u ∈ before ++ u :: after := List.mem_append.mpr (.inr List.mem_cons_self)
  have hothers : ∀ v ∈ before ++ u' :: after, v = u' ∨ v ∈ before ++ u :: after := by
    intro v hv
    simp only [List.mem_append, List.mem_cons] at hv ⊢
    tauto
  refine ⟨fun v hv => ?_, ?_⟩
  · rw [respond_now h]
    rcases hothers v hv with rfl | hv
    · exact hstep.ripe h (hon.ripe u hu)
    · exact hon.ripe v hv
  · rw [respond_now h]
    rcases hon.due with hbound | ⟨hwait, hroles⟩
    · exact .inl hbound
    · refine (hstep.waits h hlegible hwait (hroles u hu)).imp_right fun hnext => ?_
      refine ⟨hnext.1, fun v hv => ?_⟩
      rcases hothers v hv with rfl | hv
      · exact hnext.2
      · exact hroles v hv

/-- The invariant of a run, over the roles of its programs. -/
theorem onTime_of_reach {c₀ c : (delaySystem b codec chain backend S).Staged (delayed codec R)}
    {tr : List (delaySystem b codec chain backend S).Label}
    (h : Machine.StagedReach (delayed codec R) (delayEntry (S := S)) c₀ tr c)
    (hlegible : codec.Legible m) (h₀ : OnTime codec bound m c₀.state.1 c₀.stages) :
    OnTime codec bound m c.state.1 c.stages := by
  induction h with
  | start => exact h₀
  | step _ hstep ih =>
      cases hstep with
      | call o before after hr hp => exact ih.call hp hr hlegible
      | env x stages haccept => exact ih.env haccept

end Invariant

/-! ## Handing a message over -/

/-- How a message for later comes to the broker. -/
inductive Hand where
  | enqueue (m : TaskMessage)
  | schedule (m : TaskMessage) (eta : DateTime)

namespace Hand

/-- The call of the broker. -/
def call (b : SqsBroker) (codec : SqsCodec) : Hand → Prog requests (TaskResult Unit)
  | .enqueue m => b.enqueue codec m
  | .schedule m eta => b.schedule codec m eta

/-- The copies it may send. -/
def copies : Hand → List TaskMessage
  | .enqueue m => [m]
  | .schedule m eta => [m, { m with eta := some eta }]

end Hand

section Handed

variable {b : SqsBroker} {codec : SqsCodec} {sent : List (Event requests)} {request : SendRequest}

theorem sent_of_sendLast {request' : SendRequest} {out : TaskResult Unit}
    (h : (SqsBroker.sendLast request').Trace sent out)
    (hrequest : (⟨.sendMessage request, .ok ()⟩ : Event requests) ∈ sent) :
    request = request' := by
  obtain ⟨answer, rest, rfl, hrest⟩ := Prog.trace_call_iff.mp h
  obtain ⟨rfl, -⟩ := Prog.trace_ret_iff.mp hrest
  cases List.mem_singleton.mp hrequest
  rfl

/-- What `enqueue` sends is the message. -/
theorem enqueue_sends {m : TaskMessage} {out : TaskResult Unit}
    (h : (b.enqueue codec m).Trace sent out)
    (hrequest : (⟨.sendMessage request, .ok ()⟩ : Event requests) ∈ sent) :
    request.body = m.encode codec.rfc3339 := by
  unfold SqsBroker.enqueue at h
  cases hurl : b.resolveQueueUrl m.queue with
  | none =>
      rw [hurl] at h
      obtain ⟨rfl, -⟩ := Prog.trace_ret_iff.mp h
      cases hrequest
  | some url =>
      rw [hurl] at h
      cases heta : m.eta with
      | none =>
          simp only [heta] at h
          rw [sent_of_sendLast h hrequest]
          rfl
      | some eta =>
          simp only [heta] at h
          obtain ⟨now, rest, rfl, hrest⟩ := Prog.trace_call_iff.mp h
          rcases List.mem_cons.mp hrequest with heq | hrequest
          · cases heq
          · rw [sent_of_sendLast hrest hrequest]
            rfl

/-- What `schedule` sends: the copy for the time it has read, for which it reads the
clock once. -/
theorem schedule_sends {m : TaskMessage} {eta : DateTime} {out : TaskResult Unit}
    (h : (b.schedule codec m eta).Trace sent out)
    (hrequest : (⟨.sendMessage request, .ok ()⟩ : Event requests) ∈ sent) :
    ∃ now, (∀ now', (⟨.utcNow, now'⟩ : Event requests) ∈ sent ↔ now' = now) ∧
      request.body = (SqsBroker.scheduledCopy m eta now).encode codec.rfc3339 ∧
      request.delaySeconds = some (min (max (SqsBroker.secondsUntil eta now) 0) 900) := by
  rw [SqsBroker.schedule_eq] at h
  obtain ⟨now, rest, rfl, hrest⟩ := Prog.trace_call_iff.mp h
  unfold SqsBroker.sendScheduled at hrest
  rcases List.mem_cons.mp hrequest with heq | hrequest
  · cases heq
  split at hrest
  · obtain ⟨rfl, -⟩ := Prog.trace_ret_iff.mp hrest
    cases hrequest
  · refine ⟨now, fun now' => ?_, ?_⟩
    · obtain ⟨answer, last, rfl, hlast⟩ := Prog.trace_call_iff.mp hrest
      obtain ⟨rfl, -⟩ := Prog.trace_ret_iff.mp hlast
      constructor
      · intro hnow
        rcases List.mem_cons.mp hnow with heq | hnow
        · cases heq
          rfl
        · cases List.mem_singleton.mp hnow
      · rintro rfl
        exact List.mem_cons_self
    · rw [sent_of_sendLast hrest hrequest]
      exact ⟨rfl, rfl⟩

/-- A text that is sent for less than 900 seconds ahead is held back until the last
second before its eta. -/
theorem held_back {eta now sentAt : DateTime} (hclock : now.nanos ≤ sentAt.nanos)
    (hnear : SqsBroker.secondsUntil eta now ≤ 900) :
    eta.nanos - 999999999 ≤
      sentAt.nanos + min (max (SqsBroker.secondsUntil eta now) 0) 900 * 1000000000 := by
  unfold SqsBroker.secondsUntil at *
  rcases le_or_gt 0 (eta.nanos - now.nanos) with hpos | hneg
  · rw [Int.tdiv_eq_ediv_of_nonneg hpos] at *
    omega
  · omega

end Handed

/-! ## The eta is respected -/

section Respected

variable {R : Interface} {b : SqsBroker} {codec : SqsCodec} {chain : Codec}
  {backend : BackendDriver R} {S : Service R}

variable (b codec chain backend) in
/-- A request has just been sent, and there is nothing else. -/
def sentAlone (request : SendRequest) (sentAt : DateTime) (s₀ : S.State) :
    (delaySystem b codec chain backend S).Config :=
  ⟨(⟨sentAt, [(request.releasedAt sentAt, request)], .empty⟩, s₀), []⟩

/-- What the clock reads. -/
def clock (c : (delaySystem b codec chain backend S).Config) : DateTime := c.state.1.now

/-- The step calls a handler for this copy. -/
def dispatches (x : TaskMessage) (l : (delaySystem b codec chain backend S).Label) : Prop :=
  ∃ name payload answer, l = .call ⟨.runtime (.handle x name payload), answer⟩

/-- No handler is called before `bound` when the one text that was sent is held back
until then or carries an eta that is not before it, nor before the eta of its copy. -/
theorem dispatched_late {request : SendRequest} {sentAt : DateTime} {s₀ : S.State}
    {tr : List (delaySystem b codec chain backend S).Label}
    {c c' : (delaySystem b codec chain backend S).Config}
    {l : (delaySystem b codec chain backend S).Label} {x m : TaskMessage} {bound : Int}
    (hlegible : codec.Legible m) (hbody : request.body = m.encode codec.rfc3339)
    (hheld : bound ≤ (request.releasedAt sentAt).nanos ∨ LateEta bound m)
    (hreach : (delaySystem b codec chain backend S).Reach
      (sentAlone b codec chain backend request sentAt s₀) tr c)
    (hstep : (delaySystem b codec chain backend S).Step c l c') (hx : dispatches x l) :
    bound ≤ (clock c).nanos ∧ ∀ eta, x.eta = some eta → eta.nanos ≤ (clock c).nanos := by
  have h₀ : OnTime codec bound m ⟨sentAt, [(request.releasedAt sentAt, request)], .empty⟩ [] := by
    refine ⟨fun u hu => (List.not_mem_nil hu).elim,
      .inr ⟨⟨fun e he => ?_, fun e he => ?_⟩, fun u hu => (List.not_mem_nil hu).elim⟩⟩
    · obtain rfl := List.mem_singleton.mp he
      exact ⟨hbody, hheld⟩
    · rcases he with he | ⟨receipt, he⟩
      · cases he
      · cases he
  obtain ⟨roles, hroles, hall⟩ := hreach.staged delayEntry_follows .nil
  have hon := onTime_of_reach hroles hlegible h₀
  obtain ⟨roles', hstaged, -⟩ := hstep.staged delayEntry_follows hall
  obtain ⟨name, payload, answer, rfl⟩ := hx
  cases hstaged with
  | @call o s s' op r u u' before after hr hp =>
      have hu : u ∈ before ++ u :: after := List.mem_append.mpr (.inr List.mem_cons_self)
      cases hp with
      | runtime hguard =>
          cases hguard with
          | run m' _ hown =>
              obtain rfl := hown x name payload rfl
              refine ⟨?_, hon.ripe _ hu⟩
              rcases hon.due with hbound | ⟨-, hwaits⟩
              · exact hbound
              · exact (hwaits _ hu).elim

/-- SQS delayed delivery respects the eta.  A message was handed to `enqueue` or to
`schedule`, the request was accepted, and then workers run, with any interleaving of
their calls and through any number of hops.

Every delay asked for is between 0 and 900 seconds.  A handler is only called once the
eta of its copy is over, and, where the text that was sent carries an eta, once that
is.  After `schedule` no handler is called up to a second before its eta, and a text
that is scheduled more than 900 seconds ahead carries it. -/
theorem eta_respected {hand : Hand} {sent : List (Event requests)}
    (hsent : (hand.call b codec).Trace sent (.ok ())) {request : SendRequest}
    (hrequest : ⟨.sendMessage request, .ok ()⟩ ∈ sent) {sentAt : DateTime}
    (hclock : ∀ now, ⟨.utcNow, now⟩ ∈ sent → now.nanos ≤ sentAt.nanos)
    (hlegible : ∀ m ∈ hand.copies, codec.Legible m) {s₀ : S.State}
    {tr : List (delaySystem b codec chain backend S).Label}
    {c : (delaySystem b codec chain backend S).Config}
    (hreach : (delaySystem b codec chain backend S).Reach
      (sentAlone b codec chain backend request sentAt s₀) tr c) :
    (request.Modest ∧
      ∀ request' answer, .call ⟨.broker (.sendMessage request'), answer⟩ ∈ tr → request'.Modest) ∧
    (∀ x l c', (delaySystem b codec chain backend S).Step c l c' → dispatches x l →
      (∀ eta, x.eta = some eta → eta.nanos ≤ (clock c).nanos) ∧
      (∀ m eta, codec.decodeMessage request.body = .ok m → m.eta = some eta →
        eta.nanos ≤ (clock c).nanos) ∧
      ∀ m eta, hand = .schedule m eta → eta.nanos - 1000000000 < (clock c).nanos) ∧
    ∀ m eta, hand = .schedule m eta → ∀ now, ⟨.utcNow, now⟩ ∈ sent →
      900 < SqsBroker.secondsUntil eta now →
      request.body = ({ m with eta := some eta } : TaskMessage).encode codec.rfc3339 := by
  obtain ⟨m₁, hmem, hbody⟩ : ∃ m₁ ∈ hand.copies, request.body = m₁.encode codec.rfc3339 := by
    cases hand with
    | enqueue m => exact ⟨m, List.mem_singleton.mpr rfl, enqueue_sends hsent hrequest⟩
    | schedule m eta =>
        obtain ⟨now, -, hbody, -⟩ := schedule_sends hsent hrequest
        refine ⟨_, ?_, hbody⟩
        unfold SqsBroker.scheduledCopy
        split <;> simp [Hand.copies]
  have hread : codec.decodeMessage request.body = .ok m₁ := hbody ▸ hlegible m₁ hmem
  refine ⟨⟨?_, fun request' answer hin => ?_⟩, fun x l c' hstep hx => ⟨?_, ?_, ?_⟩, ?_⟩
  · have hcalls : (hand.call b codec).Calls AsksModestly := by
      cases hand with
      | enqueue m => exact SqsBroker.calls_enqueue m
      | schedule m eta => exact SqsBroker.calls_schedule m eta
    exact hcalls.trace hsent _ hrequest request rfl
  · exact modest_of_reach hreach hin
  · exact (dispatched_late (hlegible m₁ hmem) hbody (.inl (le_refl _)) hreach hstep hx).2
  · intro m eta hm heta
    cases hread.symm.trans hm
    exact (dispatched_late (hlegible m₁ hmem) hbody (.inr ⟨eta, heta, le_refl _⟩) hreach hstep
      hx).1
  · rintro m eta rfl
    obtain ⟨now, hnow, hcopy, hdelay⟩ := schedule_sends hsent hrequest
    have hheld : eta.nanos - 999999999 ≤ (request.releasedAt sentAt).nanos ∨
        LateEta (eta.nanos - 999999999) (SqsBroker.scheduledCopy m eta now) := by
      by_cases hnear : SqsBroker.secondsUntil eta now ≤ 900
      · refine .inl ?_
        have hback := held_back (hclock now ((hnow now).mpr rfl)) hnear
        simpa [SendRequest.releasedAt, later, hdelay] using hback
      · refine .inr ⟨eta, ?_, by omega⟩
        rw [SqsBroker.scheduledCopy, if_pos (by omega)]
    have hcopies : SqsBroker.scheduledCopy m eta now ∈ (Hand.schedule m eta).copies := by
      unfold SqsBroker.scheduledCopy
      split <;> simp [Hand.copies]
    have hbound := (dispatched_late (hlegible _ hcopies) hcopy hheld hreach hstep hx).1
    omega
  · rintro m eta rfl now hnow hfar
    obtain ⟨now', hnow', hcopy, -⟩ := schedule_sends hsent hrequest
    obtain rfl := (hnow' now).mp hnow
    rw [hcopy, SqsBroker.scheduledCopy, if_pos (by omega)]

end Respected

/-! ## A thousand seconds, in two hops -/

/-- A thousand seconds after the epoch. -/
def thousandSeconds : DateTime := ⟨1000000000000⟩

/-- A message for then. -/
def lateMessage : TaskMessage := { plainMessage ⟨1⟩ with eta := some thousandSeconds }

/-- How the two times of the message are printed. -/
def printLate (t : DateTime) : String :=
  if t = thousandSeconds then "1970-01-01T00:16:40Z" else "1970-01-01T00:00:00Z"

/-- A codec that reads the message. -/
def lateCodec : SqsCodec where
  rfc3339 := printLate
  decodeMessage text := if text = lateMessage.encode printLate then .ok lateMessage
    else .error "not a message"

theorem lateCodec_legible : lateCodec.Legible lateMessage := by
  simp [SqsCodec.Legible, lateCodec]

/-- Workers over one queue, with the in-memory result backend. -/
abbrev lateSystem : Machine (system requests resultBackendTrait) :=
  delaySystem (SqsBroker.oneQueue none) lateCodec Core.blankCodec directBackend MemoryResultBackend.service

/-- The request of `schedule` at the epoch. -/
def lateRequest : SendRequest :=
  SqsBroker.request lateCodec lateMessage "http://sqs/q" (SqsBroker.dedupId lateMessage) (some 900)

/-- The request of `schedule` at the epoch is sent at once. -/
def lateStart : lateSystem.Config :=
  sentAlone (SqsBroker.oneQueue none) lateCodec Core.blankCodec directBackend lateRequest ⟨0⟩
    MemoryResultBackend.new

/-- The delay is over after so many nanoseconds; a worker receives the text, and as the
`i`-th iteration makes `n` calls. -/
def hop (nanos i n : Nat) : List lateSystem.Move :=
  [.env (.tick nanos), .env (.release 0), .env (.work ⟨["t"], [], false⟩ ["q"] 1)] ++
    List.replicate n (.run i ⟨stillRuntime, SqsBroker.prompt, ()⟩)

/-- The guard turns the message away and it is scheduled again; it comes back at its
eta. -/
def twoHops : List lateSystem.Move := hop 900000000000 0 8 ++ hop 100000000000 1 4

theorem twoHops_plays : (lateStart.playAll twoHops).isSome = true := by
  decide +kernel

/-- Where the second hop has come to. -/
def twoHopsEnd : List lateSystem.Label × lateSystem.Config :=
  (lateStart.playAll twoHops).get twoHops_plays

/-- The worker goes on to the handler. -/
theorem twoHops_dispatch : (twoHopsEnd.2.play (.run 1 ⟨stillRuntime, SqsBroker.prompt, ()⟩)).isSome = true := by
  decide +kernel

/-- The next step, and what it leads to. -/
def twoHopsNext : lateSystem.Label × lateSystem.Config :=
  (twoHopsEnd.2.play (.run 1 ⟨stillRuntime, SqsBroker.prompt, ()⟩)).get twoHops_dispatch

/-- Whether a step calls a handler for a copy with this eta. -/
def dispatchesAt (eta : DateTime) : lateSystem.Label → Option TaskMessage
  | .call ⟨.runtime (.handle x _ _), _⟩ => if x.eta = some eta then some x else none
  | _ => none

theorem dispatches_of_isSome {eta : DateTime} {l : lateSystem.Label}
    (h : (dispatchesAt eta l).isSome = true) : ∃ x : TaskMessage, x.eta = some eta ∧ dispatches x l := by
  unfold dispatchesAt at h
  split at h
  · split at h
    · rename_i heta
      exact ⟨_, heta, _, _, _, rfl⟩
    · cases h
  · cases h

theorem twoHopsNext_dispatches : (dispatchesAt thousandSeconds twoHopsNext.1).isSome = true := by
  decide +kernel

/-- `schedule` was called at the epoch. -/
def lateSent : List (Event requests) := [⟨.utcNow, ⟨0⟩⟩, ⟨.sendMessage lateRequest, .ok ()⟩]

theorem lateSent_trace :
    ((Hand.schedule lateMessage thousandSeconds).call (SqsBroker.oneQueue none) lateCodec).Trace
      lateSent (.ok ()) := by
  have hcopy : SqsBroker.scheduledCopy lateMessage thousandSeconds ⟨0⟩ = lateMessage := by
    unfold SqsBroker.scheduledCopy
    split <;> rfl
  have hurl : (SqsBroker.oneQueue none).resolveQueueUrl lateMessage.queue = some "http://sqs/q" := by
    decide
  show (SqsBroker.schedule (SqsBroker.oneQueue none) lateCodec lateMessage thousandSeconds).Trace
    lateSent (.ok ())
  rw [SqsBroker.schedule_eq]
  refine .call ?_
  unfold SqsBroker.sendScheduled
  rw [hcopy, hurl]
  exact .call (.ret _)

/-- The message is dispatched after two hops, not before its eta. -/
theorem eta_respected_twoHops :
    ∃ x, x.eta = some thousandSeconds ∧ lateSystem.Reach lateStart twoHopsEnd.1 twoHopsEnd.2 ∧
      lateSystem.Step twoHopsEnd.2 twoHopsNext.1 twoHopsNext.2 ∧ dispatches x twoHopsNext.1 ∧
      thousandSeconds.nanos ≤ (clock twoHopsEnd.2).nanos := by
  have hreach : lateSystem.Reach lateStart twoHopsEnd.1 twoHopsEnd.2 :=
    Machine.Config.reach_of_get twoHops_plays
  have hstep : lateSystem.Step twoHopsEnd.2 twoHopsNext.1 twoHopsNext.2 :=
    Machine.Config.step_of_get twoHops_dispatch
  obtain ⟨x, heta, hx⟩ := dispatches_of_isSome twoHopsNext_dispatches
  have hclock : ∀ now, (⟨.utcNow, now⟩ : Event requests) ∈ lateSent →
      now.nanos ≤ (⟨0⟩ : DateTime).nanos := by
    intro now hnow
    rcases List.mem_cons.mp hnow with heq | hnow
    · cases heq
      exact le_refl _
    · cases List.mem_singleton.mp hnow
  have hlegible : ∀ m ∈ (Hand.schedule lateMessage thousandSeconds).copies, lateCodec.Legible m := by
    intro m hm
    have heq : m = lateMessage := by simpa [Hand.copies, lateMessage] using hm
    exact heq ▸ lateCodec_legible
  have hrequest : (⟨.sendMessage lateRequest, .ok ()⟩ : Event requests) ∈ lateSent :=
    List.mem_cons_of_mem _ List.mem_cons_self
  have hall := eta_respected lateSent_trace hrequest hclock hlegible hreach
  have hdispatch := hall.2.1 x twoHopsNext.1 twoHopsNext.2 hstep hx
  exact ⟨x, heta, hreach, hstep, hx, hdispatch.1 thousandSeconds heta⟩

end Kojin.Sqs
