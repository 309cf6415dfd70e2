/-
  Core/Redelivery.lean --- workers over a broker that keeps the texts of messages
  and delivers the same text again.

  A broker of this kind (`kojin-amqp`, `kojin-sqs`) settles a delivery by a tag or
  a receipt.  A message that is given back is not sent again: the server puts the
  text it has kept back into the queue, so what the worker changed in its copy is
  gone.

  `Carrier` is a deployment of such a broker: its methods, and what makes a
  message arrive at a worker.  `Carrier.Redelivers` says what the methods do to the
  messages the server may still hand out: `enqueue` and `schedule` add theirs,
  `nack` adds one that it had, and nothing else adds any.

  THE ACCOUNT.  For one identifier, along every history,

      ready + received + executed  ≤  enqueued + nacks
      handled + running            ≤  executed
      failed                       =  nacks + burials + about to be settled

  and every copy in the server or in the hands of a worker is one that was
  enqueued.
-/
import Kojin.Core.Lifecycle
import Mathlib.Data.Multiset.Filter

set_option autoImplicit false

namespace Kojin.Core

open Kojin.Foundation

/-! ## Deployments -/

/-- A broker whose methods are answered in one piece, and what makes messages
arrive: an arrival may hand a message to a worker. -/
structure Carrier where
  broker : Service brokerTrait
  Arrival : Type
  arrive : Arrival → broker.State → Option (broker.State × Option TaskMessage)

section Deployment

variable (C : Carrier) (S : Service resultBackendTrait) (codec : Codec)

/-- What comes from outside: a producer's message, or an arrival for a worker. -/
inductive CarrierStimulus where
  | enqueue (o : C.broker.Oracle) (m : TaskMessage)
  | arrive (w : Worker) (x : C.Arrival)

/-- Workers over the broker `C` and the backend `S`. -/
def deployment : Machine traits where
  toService := systemService C.broker S
  Stimulus := CarrierStimulus C
  accept
    | .enqueue o m, (b, s) => (C.broker.respond o b (.enqueue m)).map fun p => ((p.2, s), [])
    | .arrive w x, (b, s) =>
        (C.arrive x b).map fun p => ((p.1, s), (p.2.map (executeTask w codec)).toList)

end Deployment

/-! ## What the server has -/

/-- A view of a server: whether its state is sound, the messages that may still
arrive, those whose text it has, and those in a dead-letter queue. -/
structure Stock (σ : Type) where
  good : σ → Prop
  ready : σ → Multiset TaskMessage
  kept : σ → TaskMessage → Prop
  dead : σ → TaskMessage → Prop

/-- A step of the server that adds at most the messages `more`, and buries at most
copies with the identifier `bury`. -/
structure Stock.Moves {σ : Type} (K : Stock σ) (s s' : σ) (more : Multiset TaskMessage)
    (bury : Option TaskId) : Prop where
  good : K.good s'
  ready : K.ready s' ≤ K.ready s + more
  kept : ∀ x, K.kept s' x → K.kept s x ∨ x ∈ more
  dead : ∀ x, K.dead s' x → K.dead s x ∨ bury = some x.id

/-- Nothing happens. -/
theorem Stock.Moves.refl {σ : Type} {K : Stock σ} {s : σ} (h : K.good s) : K.Moves s s 0 none :=
  ⟨h, by simp, fun x hx => .inl hx, fun x hx => .inl hx⟩

/-- A step that adds nothing, and another step. -/
theorem Stock.Moves.trans {σ : Type} {K : Stock σ} {s s₁ s₂ : σ} {more : Multiset TaskMessage}
    {bury : Option TaskId} (h₁ : K.Moves s s₁ 0 none) (h₂ : K.Moves s₁ s₂ more bury) :
    K.Moves s s₂ more bury := by
  have hready : K.ready s₁ ≤ K.ready s := by simpa using h₁.ready
  have hkept : ∀ x, K.kept s₁ x → K.kept s x := by
    intro x hx
    simpa using h₁.kept x hx
  have hdead : ∀ x, K.dead s₁ x → K.dead s x := by
    intro x hx
    simpa using h₁.dead x hx
  constructor
  · exact h₂.good
  · exact h₂.ready.trans (add_le_add_left hready more)
  · exact fun x hx => (h₂.kept x hx).imp_left (hkept x)
  · exact fun x hx => (h₂.dead x hx).imp_left (hdead x)

/-- What the methods of a redelivering broker do to the messages in its server; the
messages that are sent are `legible`. -/
structure Carrier.Redelivers (C : Carrier) (K : Stock C.broker.State)
    (legible : TaskMessage → Prop) : Prop where
  enqueue : ∀ o s m r s', K.good s → legible m →
    C.broker.respond o s (.enqueue m) = some (r, s') → K.Moves s s' {m} none
  schedule : ∀ o s m eta r s', K.good s → legible m → m.eta = some eta →
    C.broker.respond o s (.schedule m eta) = some (r, s') → K.Moves s s' {m} none
  ack : ∀ o s id r s', K.good s → C.broker.respond o s (.ack id) = some (r, s') →
    K.Moves s s' 0 none
  deadLetter : ∀ o s m r s', K.good s → C.broker.respond o s (.deadLetter m) = some (r, s') →
    K.Moves s s' 0 (some m.id)
  nack : ∀ o s m r s', K.good s → C.broker.respond o s (.nack m) = some (r, s') →
    ∃ more, more.card ≤ 1 ∧ (∀ x ∈ more, K.kept s x ∧ x.id = m.id) ∧ K.Moves s s' more none
  arrive : ∀ a s s' m, K.good s → C.arrive a s = some (s', m) →
    K.Moves s s' 0 none ∧ K.ready s' + Multiset.ofList m.toList ≤ K.ready s ∧
      ∀ x ∈ m.toList, K.kept s x

/-! ## The history of one message -/

/-- A message is taken past the eta guard. -/
def executionOf (i : TaskId) : Event traits → Option TaskMessage
  | ⟨.runtime (.trace (.executing m)), _⟩ => if m.id = i then some m else none
  | _ => none

/-- The handler of message `i` is invoked. -/
def invocationOf (i : TaskId) : Event traits → Bool
  | ⟨.runtime (.handle m _ _), _⟩ => m.id = i
  | _ => false

/-- The execution of message `i` fails. -/
def failureOf (i : TaskId) : Event traits → Bool
  | ⟨.runtime (.trace (.beforeFailed task _)), _⟩ => task = i
  | ⟨.runtime (.trace (.taskFailed task _ _)), _⟩ => task = i
  | _ => false

/-- Message `i` is given back. -/
def nackOf (i : TaskId) : Event traits → Bool
  | ⟨.broker (.nack m), _⟩ => m.id = i
  | _ => false

/-- Message `i` is sent to the dead-letter queue. -/
def burialOf (i : TaskId) : Event traits → Bool
  | ⟨.broker (.deadLetter m), _⟩ => m.id = i
  | _ => false

/-- Message `i` is sent again by the eta guard. -/
def rescheduleOf (i : TaskId) : Event traits → Option TaskMessage
  | ⟨.broker (.schedule m _), _⟩ => if m.id = i then some m else none
  | _ => none

/-- A message with this identifier is enqueued by a worker. -/
def successorOf (i : TaskId) : Event traits → Option TaskMessage
  | ⟨.broker (.enqueue m), _⟩ => if m.id = i then some m else none
  | _ => none

section History

variable {C : Carrier} {S : Service resultBackendTrait} {codec : Codec}

/-- The message a step sends to the broker. -/
def sentBy : (deployment C S codec).Label → Option TaskMessage
  | .call ⟨.broker (.enqueue m), _⟩ => some m
  | .call ⟨.broker (.schedule m _), _⟩ => some m
  | .env (.enqueue _ m) => some m
  | _ => none

/-- How many calls of a history are of this kind. -/
def calls (f : Event traits → Bool) (tr : List (deployment C S codec).Label) : Nat :=
  tr.countP fun l => match l with
    | .call e => f e
    | .env _ => false

/-- The copies of message `i` that were executed. -/
def executed (i : TaskId) (tr : List (deployment C S codec).Label) : List TaskMessage :=
  tr.filterMap fun l => match l with
    | .call e => executionOf i e
    | .env _ => none

/-- The messages with identifier `i` that were enqueued, by a producer or by a
worker. -/
def enqueued (i : TaskId) (tr : List (deployment C S codec).Label) : List TaskMessage :=
  tr.filterMap fun l => match l with
    | .call e => successorOf i e
    | .env (.enqueue _ m) => if m.id = i then some m else none
    | .env (.arrive _ _) => none

end History

/-! ## What a stage has in hand -/

/-- The copy of an execution that has not come to the handler's side of the eta
guard. -/
def Stage.waiting : Stage → Option TaskMessage
  | .received _ m => some m
  | .cleared _ m => some m
  | .postponed m _ => some m
  | .released m _ => some m
  | _ => none

/-- The copy of an execution that has not come to its handler. -/
def Stage.underway : Stage → Option TaskMessage
  | .running _ m => some m
  | _ => none

/-- The copy of a failed execution that has not been settled. -/
def Stage.unsettled : Stage → Option TaskMessage
  | .failed m => some m
  | .toRetry m => some m
  | .toBury m => some m
  | _ => none

/-- One, for a copy of message `i`. -/
def weight (i : TaskId) (o : Option TaskMessage) : Nat :=
  if (o.map (·.id)) = some i then 1 else 0

/-- How many of the executions have a copy of message `i` in such a place. -/
def holding (i : TaskId) (place : Stage → Option TaskMessage) (stages : List Stage) : Nat :=
  (stages.map fun t => weight i (place t)).sum

@[simp] theorem weight_none (i : TaskId) : weight i none = 0 := rfl

@[simp] theorem weight_some (i : TaskId) (m : TaskMessage) :
    weight i (some m) = if m.id = i then 1 else 0 := by
  simp [weight]

@[simp] theorem weight_own (i : TaskId) (m : TaskMessage) :
    weight i (if m.id = i then some m else none) = if m.id = i then 1 else 0 := by
  split <;> simp [*]

/-- A log line that is no mark is no event of the account. -/
theorem account_of_note {i : TaskId} {e : TraceEvent} (h : e.isMark = false) :
    executionOf i ⟨.runtime (.trace e), ()⟩ = none ∧
      failureOf i ⟨.runtime (.trace e), ()⟩ = false := by
  cases e <;> first | exact ⟨rfl, rfl⟩ | cases h

/-- A yes counts for one. -/
theorem toNat_decide (p : Prop) [Decidable p] : (decide p).toNat = if p then 1 else 0 := by
  by_cases h : p <;> simp [h]

/-- What one call of an execution adds to the account of message `i`. -/
theorem Stage.Step.account {codec : Codec} {t t' : Stage} {op : traits.Op} {r : traits.Res op}
    (h : Stage.Step codec t op r t') (i : TaskId) :
    weight i t'.waiting + weight i (executionOf i ⟨op, r⟩) + weight i (rescheduleOf i ⟨op, r⟩) ≤
        weight i t.waiting ∧
      weight i t'.underway + (invocationOf i ⟨op, r⟩).toNat ≤
        weight i t.underway + weight i (executionOf i ⟨op, r⟩) ∧
      weight i t.unsettled + (failureOf i ⟨op, r⟩).toNat =
        (nackOf i ⟨op, r⟩).toNat + (burialOf i ⟨op, r⟩).toNat + weight i t'.unsettled := by
  cases h with
  | note t hmark =>
      obtain ⟨hexecution, hfailure⟩ := account_of_note (i := i) hmark
      simp [hexecution, hfailure, rescheduleOf, invocationOf, nackOf, burialOf]
  | handled b m result =>
      by_cases hid : m.id = i <;>
        simp [hid, Stage.waiting, Stage.underway, Stage.unsettled, executionOf, rescheduleOf,
          invocationOf, failureOf, nackOf, burialOf, TaskMessage.start]
  | err b m e =>
      by_cases hid : m.id = i <;>
        simp [hid, Stage.waiting, Stage.underway, Stage.unsettled, executionOf, rescheduleOf,
          invocationOf, failureOf, nackOf, burialOf, TaskMessage.start]
  | _ =>
      simp [Stage.waiting, Stage.underway, Stage.unsettled, executionOf, rescheduleOf,
        invocationOf, failureOf, nackOf, burialOf, TaskMessage.retryCopy, TaskMessage.buriedCopy,
        toNat_decide]

/-- What a stage knows of the messages `A` that were enqueued with identifier `i`: a
copy it was given is one of them, and one of them had, or had not, a retry left. -/
def Stage.Known (A : List TaskMessage) (i : TaskId) : Stage → Prop
  | .received _ m => m.id = i → m ∈ A
  | .cleared _ m => m.id = i → m ∈ A
  | .postponed m eta => (m.id = i → m ∈ A) ∧ m.eta = some eta
  | .released m eta => (m.id = i → m ∈ A) ∧ m.eta = some eta
  | .running _ m => m.id = i → m ∈ A
  | .erred m => m.id = i → m ∈ A
  | .failed m => m.id = i → m ∈ A
  | .toRetry m => m.id = i → ∃ x ∈ A, x.retries < x.maxRetries
  | .toBury m => m.id = i → ∃ x ∈ A, ¬ x.retries < x.maxRetries
  | _ => True

/-- What an event shows of them. -/
structure EventKnown (A : List TaskMessage) (i : TaskId) (e : Event traits) : Prop where
  executed : ∀ m, executionOf i e = some m → m ∈ A
  rescheduled : ∀ m, rescheduleOf i e = some m → m ∈ A
  nacked : nackOf i e = true → ∃ x ∈ A, x.retries < x.maxRetries
  buried : burialOf i e = true → ∃ x ∈ A, ¬ x.retries < x.maxRetries

/-- An event that is none of these shows nothing. -/
theorem EventKnown.of_other {A : List TaskMessage} {i : TaskId} {e : Event traits}
    (hexecuted : executionOf i e = none) (hrescheduled : rescheduleOf i e = none)
    (hnacked : nackOf i e = false) (hburied : burialOf i e = false) : EventKnown A i e := by
  constructor
  · simp [hexecuted]
  · simp [hrescheduled]
  · simp [hnacked]
  · simp [hburied]

theorem Stage.Known.mono {A A' : List TaskMessage} {i : TaskId} {t : Stage}
    (h : t.Known A i) (hA : ∀ x ∈ A, x ∈ A') : t.Known A' i := by
  cases t with
  | toRetry m =>
      intro hid
      obtain ⟨x, hx, hlt⟩ := h hid
      exact ⟨x, hA x hx, hlt⟩
  | toBury m =>
      intro hid
      obtain ⟨x, hx, hlt⟩ := h hid
      exact ⟨x, hA x hx, hlt⟩
  | received b m => exact fun hid => hA m (h hid)
  | cleared b m => exact fun hid => hA m (h hid)
  | postponed m eta => exact ⟨fun hid => hA m (h.1 hid), h.2⟩
  | released m eta => exact ⟨fun hid => hA m (h.1 hid), h.2⟩
  | running b m => exact fun hid => hA m (h hid)
  | erred m => exact fun hid => hA m (h hid)
  | failed m => exact fun hid => hA m (h hid)
  | _ => trivial

/-- A call of an execution shows and keeps what its stage knows. -/
theorem Stage.Step.known {codec : Codec} {t t' : Stage} {op : traits.Op} {r : traits.Res op}
    (h : Stage.Step codec t op r t') {A : List TaskMessage} {i : TaskId} (hknown : t.Known A i) :
    t'.Known A i ∧ EventKnown A i ⟨op, r⟩ := by
  have hexecute : ∀ m : TaskMessage, (m.id = i → m ∈ A) →
      EventKnown A i ⟨.runtime (.trace (.executing m)), ()⟩ := by
    intro m hm
    constructor
    · intro m' hm'
      obtain ⟨hid, heq⟩ : m.id = i ∧ m = m' := by simpa [executionOf] using hm'
      exact heq ▸ hm hid
    · simp [rescheduleOf]
    · simp [nackOf]
    · simp [burialOf]
  cases h with
  | note t hmark => exact ⟨hknown, .of_other (account_of_note hmark).1 rfl rfl rfl⟩
  | execute b heta => exact ⟨hknown, hexecute _ hknown⟩
  | executeCleared b m => exact ⟨hknown, hexecute m hknown⟩
  | postpone b heta hlater => exact ⟨⟨hknown, heta⟩, .of_other rfl rfl rfl rfl⟩
  | reschedule m eta r =>
      refine ⟨trivial, ⟨by simp [executionOf], ?_, by simp [nackOf], by simp [burialOf]⟩⟩
      intro m' hm'
      obtain ⟨hid, heq⟩ : m.id = i ∧ m = m' := by simpa [rescheduleOf] using hm'
      exact heq ▸ hknown.1 hid
  | retry now hlt => exact ⟨fun hid => ⟨_, hknown hid, hlt⟩, .of_other rfl rfl rfl rfl⟩
  | bury now hlt => exact ⟨fun hid => ⟨_, hknown hid, hlt⟩, .of_other rfl rfl rfl rfl⟩
  | nack m r =>
      refine ⟨trivial, ⟨by simp [executionOf], by simp [rescheduleOf], ?_, by simp [burialOf]⟩⟩
      intro hnack
      exact hknown (by simpa [nackOf] using hnack)
  | deadLetter m r =>
      refine ⟨trivial, ⟨by simp [executionOf], by simp [rescheduleOf], by simp [nackOf], ?_⟩⟩
      intro hbury
      exact hknown (by simpa [burialOf] using hbury)
  | _ =>
      first
        | exact ⟨hknown, .of_other rfl rfl rfl rfl⟩
        | exact ⟨trivial, .of_other rfl rfl rfl rfl⟩

/-! ## The account -/

section Balance

variable {C : Carrier} {S : Service resultBackendTrait} {codec : Codec} {K : Stock C.broker.State}
  {legible : TaskMessage → Prop} {i : TaskId} {tr : List (deployment C S codec).Label} {s s' : C.broker.State}

/-- How many of these are copies of message `i`. -/
def copies (i : TaskId) (M : Multiset TaskMessage) : Nat := M.countP fun x => x.id = i

@[simp] theorem copies_zero : copies i 0 = 0 := Multiset.countP_zero _

@[simp] theorem copies_singleton (m : TaskMessage) :
    copies i {m} = if m.id = i then 1 else 0 := by
  rw [copies, ← Multiset.cons_zero, Multiset.countP_cons, Multiset.countP_zero, Nat.zero_add]

@[simp] theorem copies_add (M N : Multiset TaskMessage) : copies i (M + N) = copies i M + copies i N :=
  Multiset.countP_add _ _ _

theorem copies_le {M N : Multiset TaskMessage} (h : M ≤ N) : copies i M ≤ copies i N :=
  Multiset.countP_le_of_le _ h

/-- What the server, the executions and the history agree on for message `i`. -/
structure Balance (K : Stock C.broker.State) (i : TaskId) (tr : List (deployment C S codec).Label)
    (s : C.broker.State) (stages : List Stage) : Prop where
  good : K.good s
  kept : ∀ x, K.kept s x → x.id = i → x ∈ enqueued i tr
  known : ∀ t ∈ stages, t.Known (enqueued i tr) i
  executed : ∀ m ∈ executed i tr, m ∈ enqueued i tr
  rounds : copies i (K.ready s) + holding i Stage.waiting stages + (Core.executed i tr).length ≤
    (enqueued i tr).length + calls (nackOf i) tr
  handled : holding i Stage.underway stages + calls (invocationOf i) tr ≤
    (Core.executed i tr).length
  failed : calls (failureOf i) tr =
    calls (nackOf i) tr + calls (burialOf i) tr + holding i Stage.unsettled stages
  nacked : 0 < calls (nackOf i) tr → ∃ x ∈ enqueued i tr, x.retries < x.maxRetries
  buried : 0 < calls (burialOf i) tr → ∃ x ∈ enqueued i tr, ¬ x.retries < x.maxRetries
  dead : ∀ x, K.dead s x → x.id = i → 0 < calls (burialOf i) tr

/-! ### What one more step adds to the history -/

@[simp] theorem calls_call (f : Event traits → Bool) (e : Event traits) :
    calls f (tr ++ [.call e]) = calls f tr + (f e).toNat := by
  cases h : f e <;> simp [calls, h]

@[simp] theorem calls_env (f : Event traits → Bool) (x : CarrierStimulus C) :
    calls f (tr ++ [.env x]) = calls f tr := by
  simp [calls]

@[simp] theorem executed_call (e : Event traits) :
    executed i (tr ++ [.call e]) = executed i tr ++ (executionOf i e).toList := by
  rw [executed, Machine.filterMap_snoc]
  rfl

@[simp] theorem executed_env (x : CarrierStimulus C) :
    executed i (tr ++ [.env x]) = executed i tr := by
  simp [executed]

@[simp] theorem enqueued_call (e : Event traits) :
    enqueued i (tr ++ [.call e]) = enqueued i tr ++ (successorOf i e).toList := by
  rw [enqueued, Machine.filterMap_snoc]
  rfl

@[simp] theorem enqueued_enqueue (o : C.broker.Oracle) (m : TaskMessage) :
    enqueued i (tr ++ [.env (.enqueue o m)]) =
      enqueued i tr ++ (if m.id = i then some m else none).toList := by
  rw [enqueued, Machine.filterMap_snoc]
  rfl

@[simp] theorem enqueued_arrive (w : Worker) (x : C.Arrival) :
    enqueued i (tr ++ [.env (.arrive w x)]) = enqueued i tr := by
  simp [enqueued]

@[simp] theorem holding_append (place : Stage → Option TaskMessage) (us vs : List Stage) :
    holding i place (us ++ vs) = holding i place us + holding i place vs := by
  simp [holding]

@[simp] theorem holding_cons (place : Stage → Option TaskMessage) (t : Stage) (us : List Stage) :
    holding i place (t :: us) = weight i (place t) + holding i place us := by
  simp [holding]

@[simp] theorem holding_nil (place : Stage → Option TaskMessage) : holding i place [] = 0 := rfl

/-- Copies of message `i`, counted. -/
theorem length_own {o : Option TaskMessage} (h : ∀ m, o = some m → m.id = i) :
    o.toList.length = weight i o := by
  cases o with
  | none => rfl
  | some m => simp [h m rfl]

theorem id_of_execution {e : Event traits} (m : TaskMessage) (h : executionOf i e = some m) :
    m.id = i := by
  unfold executionOf at h
  split at h
  · obtain ⟨hid, rfl⟩ : _ ∧ _ = m := by simpa using h
    exact hid
  · cases h

theorem id_of_successor {e : Event traits} (m : TaskMessage) (h : successorOf i e = some m) :
    m.id = i := by
  unfold successorOf at h
  split at h
  · obtain ⟨hid, rfl⟩ : _ ∧ _ = m := by simpa using h
    exact hid
  · cases h

/-- One call of an execution keeps the account, if the server does no more than
the call allows. -/
theorem Balance.call {before after : List Stage} {t t' : Stage} {op : traits.Op}
    {r : traits.Res op} {more : Multiset TaskMessage} {bury : Option TaskId}
    (h : Balance K i tr s (before ++ t :: after)) (hstep : Stage.Step codec t op r t')
    (hmoves : K.Moves s s' more bury)
    (hmore : copies i more ≤ weight i (successorOf i ⟨op, r⟩) +
      weight i (rescheduleOf i ⟨op, r⟩) + (nackOf i ⟨op, r⟩).toNat)
    (hnew : ∀ x ∈ more, x.id = i → x ∈ enqueued i (tr ++ [.call ⟨op, r⟩]))
    (hbury : ∀ x : TaskMessage, bury = some x.id → x.id = i → burialOf i ⟨op, r⟩ = true) :
    Balance K i (tr ++ [.call ⟨op, r⟩]) s' (before ++ t' :: after) := by
  have hsub : ∀ x ∈ enqueued i tr, x ∈ enqueued i (tr ++ [.call ⟨op, r⟩]) := by
    intro x hx
    rw [enqueued_call]
    exact List.mem_append.mpr (.inl hx)
  have ht : t ∈ before ++ t :: after := List.mem_append.mpr (.inr List.mem_cons_self)
  obtain ⟨hknown, hevent⟩ := hstep.known (h.known t ht)
  obtain ⟨hwaiting, hunderway, hunsettled⟩ := hstep.account i
  have hexecuted := length_own (id_of_execution (i := i) (e := ⟨op, r⟩))
  have hsuccessor := length_own (id_of_successor (i := i) (e := ⟨op, r⟩))
  constructor
  · exact hmoves.good
  · intro x hx hid
    rcases hmoves.kept x hx with hx | hx
    · exact hsub x (h.kept x hx hid)
    · exact hnew x hx hid
  · intro u hu
    rcases List.mem_append.mp hu with hu | hu
    · exact (h.known u (List.mem_append.mpr (.inl hu))).mono hsub
    · rcases List.mem_cons.mp hu with rfl | hu
      · exact hknown.mono hsub
      · exact (h.known u (List.mem_append.mpr (.inr (List.mem_cons_of_mem _ hu)))).mono hsub
  · intro m hm
    rw [executed_call, List.mem_append] at hm
    rcases hm with hm | hm
    · exact hsub m (h.executed m hm)
    · exact hsub m (hevent.executed m (Option.mem_toList.mp hm))
  · have hrounds := h.rounds
    have hready := @copies_le i _ _ hmoves.ready
    simp only [copies_add, holding_append, holding_cons, executed_call, enqueued_call,
      List.length_append, calls_call, hexecuted, hsuccessor] at hrounds hready ⊢
    omega
  · have hhandled := h.handled
    simp only [holding_append, holding_cons, executed_call, List.length_append, calls_call,
      hexecuted] at hhandled ⊢
    omega
  · have hfailed := h.failed
    simp only [holding_append, holding_cons, calls_call] at hfailed ⊢
    omega
  · intro hpos
    rw [calls_call] at hpos
    cases hnack : nackOf i ⟨op, r⟩ with
    | true =>
        obtain ⟨x, hx, hlt⟩ := hevent.nacked hnack
        exact ⟨x, hsub x hx, hlt⟩
    | false =>
        obtain ⟨x, hx, hlt⟩ := h.nacked (by simpa [hnack] using hpos)
        exact ⟨x, hsub x hx, hlt⟩
  · intro hpos
    rw [calls_call] at hpos
    cases hburial : burialOf i ⟨op, r⟩ with
    | true =>
        obtain ⟨x, hx, hlt⟩ := hevent.buried hburial
        exact ⟨x, hsub x hx, hlt⟩
    | false =>
        obtain ⟨x, hx, hlt⟩ := h.buried (by simpa [hburial] using hpos)
        exact ⟨x, hsub x hx, hlt⟩
  · intro x hx hid
    rw [calls_call]
    rcases hmoves.dead x hx with hx | hx
    · have hpos := h.dead x hx hid
      omega
    · simp [hbury x hx hid]

/-- A call that does not reach the broker. -/
theorem Balance.call_quiet {before after : List Stage} {t t' : Stage} {op : traits.Op}
    {r : traits.Res op} (h : Balance K i tr s (before ++ t :: after))
    (hstep : Stage.Step codec t op r t') :
    Balance K i (tr ++ [.call ⟨op, r⟩]) s (before ++ t' :: after) := by
  refine h.call hstep (.refl h.good) (by simp) ?_ ?_
  · exact fun x hx => absurd hx (Multiset.notMem_zero x)
  · exact fun x hx => nomatch hx

/-- A call of the broker keeps the account of every message. -/
theorem Balance.call_broker (hC : C.Redelivers K legible) {o : C.broker.Oracle}
    {before after : List Stage} {t t' : Stage} {op : BrokerOp} {r : TaskResult Unit}
    (h : Balance K i tr s (before ++ t :: after))
    (hsent : ∀ m, @sentBy C S codec (.call ⟨.broker op, r⟩) = some m → legible m)
    (hstep : Stage.Step codec t (.broker op) r t')
    (hrespond : C.broker.respond o s op = some (r, s')) :
    Balance K i (tr ++ [.call ⟨.broker op, r⟩]) s' (before ++ t' :: after) := by
  have hnone : ∀ x ∈ (0 : Multiset TaskMessage), x.id = i →
      x ∈ enqueued i (tr ++ [.call (⟨.broker op, r⟩ : Event traits)]) :=
    fun x hx => absurd hx (Multiset.notMem_zero x)
  cases op with
  | enqueue m =>
      refine h.call hstep (hC.enqueue o s m r s' h.good (hsent m rfl) hrespond) ?_ ?_ (fun x hx => nomatch hx)
      · by_cases hid : m.id = i <;> simp [successorOf, rescheduleOf, nackOf, hid]
      · intro x hx hid
        obtain rfl := Multiset.mem_singleton.mp hx
        simp [successorOf, hid]
  | schedule m eta =>
      have hknown := h.known t (List.mem_append.mpr (.inr List.mem_cons_self))
      have hevent := (hstep.known hknown).2
      have heta : m.eta = some eta := by
        cases hstep
        exact hknown.2
      refine h.call hstep (hC.schedule o s m eta r s' h.good (hsent m rfl) heta hrespond) ?_ ?_
        (fun x hx => nomatch hx)
      · by_cases hid : m.id = i <;> simp [successorOf, rescheduleOf, nackOf, hid]
      · intro x hx hid
        obtain rfl := Multiset.mem_singleton.mp hx
        rw [enqueued_call]
        exact List.mem_append.mpr (.inl (hevent.rescheduled x (by simp [rescheduleOf, hid])))
  | ack id =>
      exact h.call hstep (hC.ack o s id r s' h.good hrespond) (by simp) hnone
        (fun x hx => nomatch hx)
  | deadLetter m =>
      refine h.call hstep (hC.deadLetter o s m r s' h.good hrespond) (by simp) hnone ?_
      intro x hx hid
      have hsame : m.id = x.id := Option.some.inj hx
      simp [burialOf, hsame, hid]
  | nack m =>
      obtain ⟨more, hcard, hmore, hmoves⟩ := hC.nack o s m r s' h.good hrespond
      refine h.call hstep hmoves ?_ ?_ (fun x hx => nomatch hx)
      · by_cases hid : m.id = i
        · have hle : copies i more ≤ more.card := Multiset.countP_le_card _ _
          simp only [nackOf, hid, decide_true, Bool.toNat_true]
          omega
        · have hzero : copies i more = 0 := by
            refine Multiset.countP_eq_zero.mpr fun x hx hxid => ?_
            exact hid ((hmore x hx).2.symm.trans hxid)
          rw [hzero]
          exact Nat.zero_le _
      · intro x hx hid
        rw [enqueued_call]
        exact List.mem_append.mpr (.inl (h.kept x (hmore x hx).1 hid))

/-- The stages an arrival starts. -/
def CarrierStimulus.stages {State : Type} :
    CarrierStimulus C → C.broker.State × State → List Stage
  | .enqueue _ _, _ => []
  | .arrive w x, (b, _) =>
      ((C.arrive x b).bind (·.2)).toList.map fun m => Stage.received w.hasBackend m

/-- What comes from outside keeps the account. -/
theorem Balance.env (hC : C.Redelivers K legible) {stages : List Stage} {backends : S.State}
    {x : CarrierStimulus C} {b : C.broker.State × S.State} {new : List (Prog traits Unit)}
    (h : Balance K i tr s stages)
    (hsent : ∀ m, @sentBy C S codec (.env x) = some m → legible m)
    (haccept : (deployment C S codec).accept x (s, backends) = some (b, new)) :
    Balance K i (tr ++ [.env x]) b.1 (stages ++ x.stages (s, backends)) := by
  cases x with
  | enqueue o m =>
      obtain ⟨⟨r, s'⟩, hrespond, heq⟩ := Option.map_eq_some_iff.mp haccept
      cases heq
      have hmoves := hC.enqueue o s m r s' h.good (hsent m rfl) hrespond
      have hsub : ∀ x ∈ enqueued i tr, x ∈ enqueued i (tr ++ [.env (.enqueue o m)]) := by
        intro x hx
        rw [enqueued_enqueue]
        exact List.mem_append.mpr (.inl hx)
      rw [CarrierStimulus.stages, List.append_nil]
      constructor
      · exact hmoves.good
      · intro x hx hid
        rcases hmoves.kept x hx with hx | hx
        · exact hsub x (h.kept x hx hid)
        · obtain rfl := Multiset.mem_singleton.mp hx
          simp [hid]
      · exact fun t ht => (h.known t ht).mono hsub
      · intro m' hm'
        rw [executed_env] at hm'
        exact hsub m' (h.executed m' hm')
      · have hrounds := h.rounds
        have hready := @copies_le i _ _ hmoves.ready
        by_cases hid : m.id = i
        · simp only [copies_add, copies_singleton, hid, if_true, executed_env, enqueued_enqueue,
            Option.toList_some, List.length_append, List.length_singleton, calls_env]
            at hrounds hready ⊢
          omega
        · simp only [copies_add, copies_singleton, hid, if_false, executed_env, enqueued_enqueue,
            Option.toList_none, List.append_nil, calls_env, Nat.add_zero] at hrounds hready ⊢
          omega
      · simpa using h.handled
      · simpa using h.failed
      · intro hpos
        obtain ⟨x, hx, hlt⟩ := h.nacked (by simpa using hpos)
        exact ⟨x, hsub x hx, hlt⟩
      · intro hpos
        obtain ⟨x, hx, hlt⟩ := h.buried (by simpa using hpos)
        exact ⟨x, hsub x hx, hlt⟩
      · intro x hx hid
        rcases hmoves.dead x hx with hx | hx
        · simpa using h.dead x hx hid
        · cases hx
  | arrive w a =>
      obtain ⟨⟨s', m⟩, harrive, heq⟩ := Option.map_eq_some_iff.mp haccept
      cases heq
      obtain ⟨hmoves, hready, hkept⟩ := hC.arrive a s s' m h.good harrive
      have hstages : (CarrierStimulus.arrive w a).stages (s, backends) =
          m.toList.map fun m => Stage.received w.hasBackend m := by
        simp only [CarrierStimulus.stages, harrive, Option.bind_some]
      rw [hstages]
      have hholding : ∀ place : Stage → Option TaskMessage,
          (∀ m, place (.received w.hasBackend m) = none) →
          holding i place (m.toList.map fun m => Stage.received w.hasBackend m) = 0 := by
        intro place hplace
        cases m <;> simp [hplace]
      constructor
      · exact hmoves.good
      · intro x hx hid
        rw [enqueued_arrive]
        rcases hmoves.kept x hx with hx | hx
        · exact h.kept x hx hid
        · exact absurd hx (Multiset.notMem_zero x)
      · intro t ht
        rw [enqueued_arrive]
        rcases List.mem_append.mp ht with ht | ht
        · exact h.known t ht
        · obtain ⟨x, hx, rfl⟩ := List.mem_map.mp ht
          exact fun hid => h.kept x (hkept x hx) hid
      · simpa using h.executed
      · have hrounds := h.rounds
        have hle := @copies_le i _ _ hready
        have hhanded : copies i (Multiset.ofList m.toList) =
            holding i Stage.waiting (m.toList.map fun m => Stage.received w.hasBackend m) := by
          cases m with
          | none => simp
          | some m => simp [Stage.waiting]
        simp only [copies_add, hhanded, holding_append, executed_env, enqueued_arrive, calls_env]
          at hrounds hle ⊢
        omega
      · rw [holding_append, hholding _ fun _ => rfl]
        simpa using h.handled
      · rw [holding_append, hholding _ fun _ => rfl]
        simpa using h.failed
      · simpa using h.nacked
      · simpa using h.buried
      · intro x hx hid
        rcases hmoves.dead x hx with hx | hx
        · simpa using h.dead x hx hid
        · cases hx

/-- One step keeps the account. -/
theorem Balance.step (hC : C.Redelivers K legible)
    {c c' : (deployment C S codec).Staged (lifecycle codec)}
    {l : (deployment C S codec).Label} (h : Balance K i tr c.state.1 c.stages)
    (hsent : ∀ m, sentBy l = some m → legible m)
    (hstep : (deployment C S codec).StagedStep (lifecycle codec) CarrierStimulus.stages c l c') :
    Balance K i (tr ++ [l]) c'.state.1 c'.stages := by
  cases hstep with
  | @call o b b' op r t t' before after hrespond hstage =>
      cases op with
      | runtime op =>
          cases hrespond
          exact h.call_quiet hstage
      | backend op =>
          obtain ⟨p, -, heq⟩ := Option.map_eq_some_iff.mp hrespond
          cases heq
          exact h.call_quiet hstage
      | broker op =>
          obtain ⟨⟨r', s'⟩, hbroker, heq⟩ := Option.map_eq_some_iff.mp hrespond
          cases heq
          exact h.call_broker hC hsent hstage hbroker
  | env x stages haccept => exact h.env hC hsent haccept

end Balance

/-! ## Every run -/

section Run

variable {C : Carrier} {S : Service resultBackendTrait} {codec : Codec} {K : Stock C.broker.State}
  {legible : TaskMessage → Prop}

/-- A server that has nothing yet. -/
structure Stock.Empty {σ : Type} (K : Stock σ) (s : σ) : Prop where
  good : K.good s
  kept : ∀ x, ¬ K.kept s x
  ready : K.ready s = 0
  dead : ∀ x, ¬ K.dead s x

theorem account_of_staged (hC : C.Redelivers K legible) {s₀ : C.broker.State} (hempty : K.Empty s₀)
    {backends : S.State} {tr : List (deployment C S codec).Label}
    {c : (deployment C S codec).Staged (lifecycle codec)}
    (h : Machine.StagedReach (M := deployment C S codec) (lifecycle codec) CarrierStimulus.stages
      ⟨(s₀, backends), []⟩ tr c) (hsent : ∀ l ∈ tr, ∀ m, sentBy l = some m → legible m)
    (i : TaskId) : Balance K i tr c.state.1 c.stages := by
  induction h with
  | start =>
      constructor
      · exact hempty.good
      · exact fun x hx => absurd hx (hempty.kept x)
      · exact fun t ht => nomatch ht
      · exact fun m hm => nomatch hm
      · simp [hempty.ready, executed, enqueued, calls]
      · simp [executed, calls]
      · simp [calls]
      · simp [calls]
      · simp [calls]
      · exact fun x hx => absurd hx (hempty.dead x)
  | step _ hstep ih =>
      have hbefore := ih fun l hl => hsent l (List.mem_append.mpr (.inl hl))
      exact hbefore.step hC (hsent _ (List.mem_append.mpr (.inr List.mem_cons_self))) hstep

/-- The account holds in every reachable state, with the executions at the stages
they have come to. -/
theorem account_of_reach (hC : C.Redelivers K legible) {s₀ : C.broker.State} (hempty : K.Empty s₀)
    {backends : S.State} {tr : List (deployment C S codec).Label}
    {c : (deployment C S codec).Config}
    (h : (deployment C S codec).Reach ⟨(s₀, backends), []⟩ tr c)
    (hsent : ∀ l ∈ tr, ∀ m, sentBy l = some m → legible m) (i : TaskId) :
    ∃ stages, Balance K i tr c.state.1 stages ∧
      List.Forall₂ (Prog.Follows (lifecycle codec)) c.threads stages := by
  have hentry : ∀ x s s' new, (deployment C S codec).accept x s = some (s', new) →
      List.Forall₂ (Prog.Follows (lifecycle codec)) new (CarrierStimulus.stages x s) := by
    rintro x ⟨b, s⟩ s' new haccept
    cases x with
    | enqueue o m =>
        obtain ⟨p, -, heq⟩ := Option.map_eq_some_iff.mp haccept
        cases heq
        exact .nil
    | arrive w a =>
        obtain ⟨⟨b', m⟩, harrive, heq⟩ := Option.map_eq_some_iff.mp haccept
        cases heq
        simp only [CarrierStimulus.stages, harrive, Option.bind_some]
        cases m with
        | none => exact .nil
        | some m => exact .cons (executeTask_follows w m) .nil
  obtain ⟨stages, hstaged, hall⟩ := h.staged hentry .nil
  exact ⟨stages, account_of_staged hC hempty hstaged hsent i, hall⟩

/-- At rest no failed execution is about to be settled. -/
theorem holding_of_atRest {i : TaskId} {threads : List (Prog traits Unit)} {stages : List Stage}
    (hall : List.Forall₂ (Prog.Follows (lifecycle codec)) threads stages)
    (hrest : AtRest threads) : holding i Stage.unsettled stages = 0 := by
  induction hall with
  | nil => rfl
  | @cons p t threads stages hfollows _ ih =>
      have hnone : t.unsettled = none := by
        rw [hrest p List.mem_cons_self] at hfollows
        have hfinal : t.Final := hfollows
        cases t <;> first | rfl | exact hfinal.elim
      rw [holding_cons, hnone, weight_none, Nat.zero_add]
      exact ih fun q hq => hrest q (List.mem_cons_of_mem p hq)

/-- The executions of a message that was enqueued once: at most one more than the
times it was given back, and its handler is invoked no more often. -/
theorem Balance.once {i : TaskId} {m₀ : TaskMessage} {tr : List (deployment C S codec).Label}
    {s : C.broker.State} {stages : List Stage} (h : Balance K i tr s stages)
    (honce : enqueued i tr = [m₀]) :
    calls (invocationOf i) tr ≤ (Core.executed i tr).length ∧
      (Core.executed i tr).length ≤ 1 + calls (nackOf i) tr := by
  have hrounds := h.rounds
  have hhandled := h.handled
  rw [honce, List.length_singleton] at hrounds
  constructor <;> omega

/-- A message that has retries left is never buried, and one that has none is never
given back: the copy that is delivered is always the one that was enqueued. -/
theorem Balance.settled {i : TaskId} {m₀ : TaskMessage} {tr : List (deployment C S codec).Label}
    {s : C.broker.State} {stages : List Stage} (h : Balance K i tr s stages)
    (honce : enqueued i tr = [m₀]) :
    (m₀.retries < m₀.maxRetries → calls (burialOf i) tr = 0) ∧
      (¬ m₀.retries < m₀.maxRetries → calls (nackOf i) tr = 0) := by
  constructor
  · intro hlt
    refine Nat.eq_zero_of_not_pos fun hpos => ?_
    obtain ⟨x, hx, hnot⟩ := h.buried hpos
    rw [honce, List.mem_singleton] at hx
    exact hnot (hx ▸ hlt)
  · intro hnot
    refine Nat.eq_zero_of_not_pos fun hpos => ?_
    obtain ⟨x, hx, hlt⟩ := h.nacked hpos
    rw [honce, List.mem_singleton] at hx
    exact hnot (hx ▸ hlt)

/-- Whether a fresh message has a retry. -/
theorem retry_of_fresh {m₀ : TaskMessage} (hfresh : m₀.retries = 0) :
    m₀.retries < m₀.maxRetries ↔ m₀.maxRetries ≠ 0 := by
  rw [hfresh, UInt32.lt_iff_toNat_lt, UInt32.toNat_zero, Nat.pos_iff_ne_zero, ne_eq, ne_eq,
    ← UInt32.toNat_inj, UInt32.toNat_zero]

end Run

/-! ## For concrete runs -/

/-- A message that may be retried once. -/
def oneRetry : TaskMessage := (plainMessage ⟨7⟩).withMaxRetries 1

/-- A decoder that knows the text of this message. -/
def readOneRetry (text : String) : Except String TaskMessage :=
  if text = oneRetry.encode fun _ => "" then .ok oneRetry else .error "not a message"

/-- Only this message is sent in such a history. -/
theorem legible_of_sent {C : Carrier} {S : Service resultBackendTrait} {codec : Codec}
    {history : List (deployment C S codec).Label} {m₀ : TaskMessage}
    {legible : TaskMessage → Prop} (hm₀ : legible m₀) (h : history.filterMap sentBy = [m₀]) :
    ∀ l ∈ history, ∀ m, sentBy l = some m → legible m := by
  intro l hl m hm
  have hmem : m ∈ history.filterMap sentBy := List.mem_filterMap.mpr ⟨l, hl, hm⟩
  rw [h, List.mem_singleton] at hmem
  exact hmem ▸ hm₀

end Kojin.Core
