/-
  Core/Correlation.lean --- the correlation id of a workflow (`kojin-core`: `canvas.rs`,
  `worker.rs`).

  A workflow draws its id when it is submitted, and its messages are made in four
  places: by the submission, for the callback of a chord, by the worker that continues
  a chain, and by the worker that enqueues the callback.  The first and the third write
  the id into the message; the callback is made from its signature alone and never gets
  one.

  The lineage of a submission are the messages it sends, those sent by the executions of
  such messages, and so on, whatever else is going on.
-/
import Kojin.Core.Canvas
import Kojin.Core.MemoryResultBackend
import Kojin.Core.MemorySystem
import Kojin.Core.Redelivery
import Kojin.Foundation.Lineage

set_option autoImplicit false

namespace Kojin.Core

open Kojin.Foundation

/-! ## The lineage of a workflow -/

/-- The message a call hands to the broker. -/
def sentMessage : traits.Op → Option TaskMessage
  | .broker (.enqueue m) => some m
  | .broker (.nack m) => some m
  | .broker (.deadLetter m) => some m
  | .broker (.schedule m _) => some m
  | _ => none

/-- The message a worker gets. -/
def deliveredMessage {C : Carrier} {S : Service resultBackendTrait} {codec : Codec} :
    (deployment C S codec).Stimulus → (deployment C S codec).State → Option TaskMessage
  | .enqueue _ _, _ => none
  | .arrive _ a, s => (C.arrive a s.1).bind Prod.snd

/-- The message has the id, and so does the callback in it. -/
def TaskMessage.Carries (id : String) (m : TaskMessage) : Prop :=
  m.correlationId = some id ∧
    ∀ callback, m.chordCallback = some callback → callback.correlationId = some id

/-- The workflow makes a callback: it is a chord with a member and a callback that has
a first task. -/
def Canvas.MakesCallback : Canvas → Prop
  | .chord members callback => flattenGroup members ≠ [] ∧ flattenChain [callback] ≠ []
  | _ => False

/-! ## Workflows without a callback -/

/-- The message has the id, and no callback. -/
def TaskMessage.Tagged (id : String) (m : TaskMessage) : Prop :=
  m.correlationId = some id ∧ m.chordCallback = none

theorem TaskMessage.Tagged.carries {id : String} {m : TaskMessage} (h : m.Tagged id) :
    m.Carries id :=
  ⟨h.1, fun callback hc => by rw [h.2] at hc; cases hc⟩

/-- A chain step has the id of the step before it. -/
theorem TaskMessage.Tagged.chainStep {id : String} {m : TaskMessage} (h : m.Tagged id)
    (codec : Codec) (result : Json) (sig : Signature) (rest : List Signature) (now : DateTime)
    (task : TaskId) : (m.chainStep codec result sig rest now task).Tagged id := by
  unfold TaskMessage.chainStep
  rw [h.1]
  cases rest <;> exact ⟨rfl, rfl⟩

/-- An execution of a tagged message, and the chain step it is about to send. -/
def Stage.Tagged (id : String) : Stage → Prop
  | .received _ m => m.Tagged id
  | .cleared _ m => m.Tagged id
  | .postponed m _ => m.Tagged id
  | .released m _ => m.Tagged id
  | .running _ m => m.Tagged id
  | .erred m => m.Tagged id
  | .failed m => m.Tagged id
  | .toRetry m => m.Tagged id
  | .toBury m => m.Tagged id
  | .succeeded _ m _ => m.Tagged id
  | .acked _ m _ => m.Tagged id
  | .stored m _ => m.Tagged id
  | .calling _ _ _ => False
  | .collected _ _ _ => False
  | .wrapping m _ => m.Tagged id
  | .minting m _ _ => m.Tagged id
  | .continuing m _ next => m.Tagged id ∧ next.Tagged id
  | .chained m _ => m.Tagged id
  | .finished m _ => m.Tagged id
  | .gone => True

/-- What such an execution sends is tagged. -/
theorem Stage.Tagged.step {id : String} {codec : Codec} (t : Stage) (op : traits.Op)
    (r : traits.Res op) (t' : Stage) (h : t.Tagged id) (hstep : Stage.Step codec t op r t') :
    Machine.SendsOnly sentMessage (TaskMessage.Tagged id) op ∧ t'.Tagged id := by
  cases hstep with
  | reschedule m eta r => exact ⟨fun x hx => Option.some.inj hx ▸ h, trivial⟩
  | nack m r => exact ⟨fun x hx => Option.some.inj hx ▸ h, trivial⟩
  | deadLetter m r => exact ⟨fun x hx => Option.some.inj hx ▸ h, trivial⟩
  | countLast result hgroup hdue =>
      -- a tagged message owes no callback
      unfold TaskMessage.callbackDue at hdue
      rw [h.2] at hdue
      split at hdue <;> cases hdue
  | callback m result cb r => exact h.elim
  | collect result callback r hgroup => exact h.elim
  | name result now task hnext => exact ⟨nofun, h, h.chainStep codec result _ _ now task⟩
  | chain m result next r => exact ⟨fun x hx => Option.some.inj hx ▸ h.2, h.1⟩
  | _ => exact ⟨nofun, h⟩

/-- Every call has an answer of its type. -/
theorem nonempty_res (op : traits.Op) : Nonempty (traits.Res op) := by
  cases op with
  | runtime op => exact ⟨stillRuntime op⟩
  | broker op => exact ⟨(.ok () : TaskResult Unit)⟩
  | backend op =>
      cases op with
      | store id result => exact ⟨(.ok () : TaskResult Unit)⟩
      | initGroup group total => exact ⟨(.ok () : TaskResult Unit)⟩
      | completeGroupMember group task result => exact ⟨(.ok 0 : TaskResult UInt32)⟩
      | getGroupResults group => exact ⟨(.ok [] : TaskResult (List Json))⟩

theorem executeTask_tagged {id : String} (w : Worker) (codec : Codec) {m : TaskMessage}
    (h : m.Tagged id) :
    (executeTask w codec m).Calls (Machine.SendsOnly sentMessage (TaskMessage.Tagged id)) :=
  (@executeTask_follows codec w m).calls nonempty_res
    (fun t op r t' ht hstep => Stage.Tagged.step t op r t' ht hstep) h

namespace Canvas

/-- A submission that makes tagged messages, as far as it makes any. -/
def Submission.Tagged (id : String) : Submission → Prop
  | .fresh _ => False
  | .grouping correlation sigs callback =>
      correlation = id ∧ (callback = none ∨ callback = some [] ∨ sigs = [])
  | .opening correlation _ sigs callback =>
      correlation = id ∧ (callback = none ∨ callback = some [] ∨ sigs = [])
  | .opened _ _ sigs _ => sigs = []
  | .dated _ _ sigs _ _ => sigs = []
  | .feeding make sigs => sigs = [] ∨ ∀ sig now task, (make sig now task).Tagged id
  | .stamping make _ _ _ => ∀ sig now task, (make sig now task).Tagged id
  | .sending m make _ => m.Tagged id ∧ ∀ sig now task, (make sig now task).Tagged id
  | .over => True

theorem chainHead_tagged (codec : Codec) (id : String) (remaining : List Signature)
    (sig : Signature) (now : DateTime) (task : TaskId) :
    (chainHead codec id remaining sig now task).Tagged id := by
  unfold chainHead
  cases remaining <;> exact ⟨rfl, rfl⟩

/-- Where a submission without a callback starts. -/
theorem begun_tagged (codec : Codec) (id : String) {c : Canvas} (h : ¬ c.MakesCallback) :
    (begun codec id c).Tagged id := by
  cases c with
  | single sig => exact .inr fun _ _ _ => ⟨rfl, rfl⟩
  | chain steps =>
      simp only [begun]
      cases flattenChain steps with
      | nil => trivial
      | cons sig remaining => exact .inr (chainHead_tagged codec id remaining)
  | group members => exact ⟨rfl, .inl rfl⟩
  | chord members callback =>
      refine ⟨rfl, .inr ?_⟩
      rw [MakesCallback, not_and_or, not_not, not_not] at h
      rcases h with hmembers | hcallback
      · exact .inr hmembers
      · exact .inl (congrArg some hcallback)

/-- What such a submission sends is tagged. -/
theorem Submission.Tagged.step {id : String} {codec : Codec} (s : Submission) (op : traits.Op)
    (r : traits.Res op) (s' : Submission) (h : s.Tagged id)
    (hstep : Submission.Step codec s op r s') :
    Machine.SendsOnly sentMessage (TaskMessage.Tagged id) op ∧ s'.Tagged id := by
  cases hstep with
  | tag c u => exact h.elim
  | group correlation sigs callback u => exact ⟨nofun, h⟩
  | announce correlation group sigs callback =>
      refine ⟨nofun, ?_⟩
      obtain ⟨rfl, rfl | rfl | rfl⟩ := h
      · exact .inr fun _ _ _ => ⟨rfl, rfl⟩
      · trivial
      · rcases callback with _ | _ | ⟨first, others⟩
        · exact .inl rfl
        · trivial
        · exact (rfl : ([] : List Signature) = [])
  | refuse correlation group sigs callback e => exact ⟨nofun, trivial⟩
  | date correlation group sigs callback now => exact ⟨nofun, h⟩
  | callback correlation group sigs callback now task => exact ⟨nofun, .inl h⟩
  | stamp make sig rest now => exact ⟨nofun, h.resolve_left (List.cons_ne_nil sig rest)⟩
  | make make sig rest now task => exact ⟨nofun, h sig now task, h⟩
  | send m make rest => exact ⟨fun x hx => Option.some.inj hx ▸ h.1, .inr h.2⟩
  | abort m make rest e => exact ⟨fun x hx => Option.some.inj hx ▸ h.1, trivial⟩

/-- A submission draws its id; what it does then. -/
theorem submit_eq (codec : Codec) (c : Canvas) :
    ∃ k : TaskId → Prog traits Unit, c.submit codec = .call (.runtime .newUuid) k ∧
      ∀ u, (k u).Follows (submission codec) (begun codec u.toText c) := by
  have hfollows := @submit_follows codec c
  refine ⟨_, rfl, fun u => ?_⟩
  obtain ⟨s', hstep, hrest⟩ := hfollows u
  cases hstep
  exact hrest

/-- The handle has the id that was drawn first. -/
theorem apply_trace {codec : Codec} {c : Canvas} {tr : List (Event traits)}
    {handle : WorkflowHandle} (h : Prog.Trace (c.apply codec) tr (.ok handle)) :
    ∃ u rest ids, tr = ⟨.runtime .newUuid, u⟩ :: rest ∧ handle.id = u.toText ∧
      Prog.Trace (c.applyInner codec u.toText) rest (.ok ids) := by
  obtain ⟨u, tr₁, rfl, h₁⟩ := trace_runtime h
  obtain ⟨tr₂, tr₃, out, rfl, h₂, h₃⟩ := Prog.trace_bind_iff.mp h₁
  obtain ⟨rfl, hout⟩ := Prog.trace_ret_iff.mp h₃
  cases out with
  | error e => cases hout
  | ok ids =>
      cases hout
      refine ⟨u, tr₂, ids, by rw [List.append_nil], rfl, h₂⟩

/-- The callback of a chord has no id: each member that is sent carries one that was
made from its signature alone. -/
theorem sends_callback {codec : Codec} {c : Canvas} (hc : c.MakesCallback) {correlation : String}
    {tr : List (Event traits)} {ids : List TaskId}
    (h : Prog.Trace (c.applyInner codec correlation) tr (.ok ids)) :
    ∃ m callback r, ⟨.broker (.enqueue m), r⟩ ∈ tr ∧ m.chordCallback = some callback ∧
      callback.correlationId = none := by
  cases c with
  | chord members callback =>
      obtain ⟨hmembers, hcallback⟩ := hc
      obtain ⟨group, tr₁, rfl, h₁⟩ := trace_runtime h
      obtain ⟨r, tr₂, rfl, h₂⟩ := trace_backend h₁
      cases r with
      | error e =>
          obtain ⟨-, herror⟩ := Prog.trace_ret_iff.mp h₂
          cases herror
      | ok _ =>
          obtain ⟨first, others, hfirst⟩ := List.exists_cons_of_ne_nil hcallback
          obtain ⟨sig, sigs, hsigs⟩ := List.exists_cons_of_ne_nil hmembers
          have h₃ : Prog.Trace (applyChord correlation group.toText (flattenGroup members)
              (flattenChain [callback])) tr₂ (.ok ids) := h₂
          rw [hfirst] at h₃
          obtain ⟨now, tr₃, rfl, h₄⟩ := trace_runtime h₃
          obtain ⟨task, tr₄, rfl, h₅⟩ := trace_runtime h₄
          rw [hsigs] at h₅
          obtain ⟨now', task', r', tail, rfl, -⟩ := enqueueEach_trace h₅
          refine ⟨_, first.intoMessage now task, r', ?_, rfl, rfl⟩
          simp
  | _ => exact hc.elim

end Canvas

/-! ## One id for a workflow -/

/-- When a workflow has one correlation id.  A client submits a workflow over any
broker and any backend, among any other programs, and is given a handle.  All messages
that descend from it, and the callbacks in them, have the id of the handle exactly if the
workflow makes no callback. -/
theorem one_correlation_id_iff {C : Carrier} {S : Service resultBackendTrait}
    {codec workerCodec : Codec} {c : Canvas} {c₀ cfg : (deployment C S workerCodec).Config}
    {i : Nat} {W : Watch traits TaskMessage} (hclient : c₀.threads[i]? = some (c.submit codec))
    (h : Machine.Lineage sentMessage deliveredMessage c₀ i W cfg) {handle : WorkflowHandle}
    (hreturned : Prog.Trace (c.apply codec) W.own (.ok handle)) :
    (∀ m ∈ W.items, m.Carries handle.id) ↔ ¬ c.MakesCallback := by
  obtain ⟨u, rest, ids, hown, hid, hinner⟩ := Canvas.apply_trace hreturned
  constructor
  · intro hcarries hmakes
    obtain ⟨m, callback, r, hmem, hcallback, hnone⟩ := Canvas.sends_callback hmakes hinner
    have hitem : m ∈ W.items := by
      refine h.own_sends.2 ⟨.broker (.enqueue m), r⟩ ?_ m rfl
      rw [hown]
      exact List.mem_cons_of_mem _ hmem
    have hsome := (hcarries m hitem).2 callback hcallback
    rw [hnone] at hsome
    cases hsome
  · intro hmakes m hm
    obtain ⟨k, hsubmit, hk⟩ := Canvas.submit_eq codec c
    rw [hsubmit] at hclient
    have hentry : ∀ (v : TaskId) (x : (deployment C S workerCodec).Stimulus)
        (s s' : (deployment C S workerCodec).State) (new : List (Prog traits Unit))
        (y : TaskMessage), (deployment C S workerCodec).accept x s = some (s', new) →
        deliveredMessage x s = some y → y.Tagged v.toText → ∀ p ∈ new,
          p.Calls (Machine.SendsOnly sentMessage (TaskMessage.Tagged v.toText)) := by
      intro v x s s' new y haccept hdelivered htagged p hp
      cases x with
      | enqueue o m => cases hdelivered
      | arrive w a =>
          obtain ⟨q, harrive, heq⟩ := Option.map_eq_some_iff.mp haccept
          cases heq
          have hy : q.2 = some y := by
            have hbind : (C.arrive a s.1).bind Prod.snd = some y := hdelivered
            rw [harrive] at hbind
            exact hbind
          rw [hy] at hp
          obtain rfl : p = executeTask w workerCodec y := by simpa using hp
          exact executeTask_tagged w workerCodec htagged
    have hrule := h.rule (G := fun v : TaskId => TaskMessage.Tagged v.toText) hclient rfl
      (fun v => (hk v).calls nonempty_res (fun t op r t' ht hstep =>
        Canvas.Submission.Tagged.step t op r t' ht hstep) (Canvas.begun_tagged codec _ hmakes))
      hentry
    rcases hrule with ⟨hempty, -⟩ | ⟨v, rest', hown', hgood⟩
    · rw [hown] at hempty
      cases hempty
    · rw [hown] at hown'
      cases hown'
      rw [hid]
      exact (hgood.items m hm).carries

/-! ## A chain of two, and a chord of one -/

/-- The in-memory broker, with every method answered in one piece. -/
def memoryCarrier : Carrier where
  broker := wholeMethods MemoryBroker.driver MemoryBroker.service
  Arrival := List String
  arrive queues b := some (match b.tryDequeue queues with
    | some (m, b') => (b', some m)
    | none => (b, none))

/-- Workers over the in-memory broker and backend. -/
abbrev wholeMemory : Machine traits :=
  deployment memoryCarrier MemoryResultBackend.service blankCodec

/-- A client that is about to submit this workflow, and nobody else. -/
def aboutToSubmit (c : Canvas) : wholeMemory.Config :=
  ⟨(MemoryBroker.new, MemoryResultBackend.new), [c.submit blankCodec]⟩

/-- Identifier 1 is drawn throughout. -/
def drawsOne : List wholeMemory.Oracle := List.replicate 8 ⟨drawing ⟨1⟩, [(), ()], ()⟩

/-- Two tasks in a chain. -/
def twoSteps : Canvas := .chain [.single plainSignature, .single plainSignature]

/-- One task, and a callback for it. -/
def withCallback : Canvas := .chord [.single plainSignature] (.single plainSignature)

/-- The message of the first step. -/
def headMessage : TaskMessage :=
  Canvas.chainHead blankCodec (TaskId.mk 1).toText [plainSignature] plainSignature ⟨0⟩ ⟨1⟩

/-- The task and, in its message, the callback. -/
def memberMessage : TaskMessage :=
  Canvas.member (TaskId.mk 1).toText (TaskId.mk 1).toText 1
    (some (plainSignature.intoMessage ⟨0⟩ ⟨1⟩)) plainSignature ⟨0⟩ ⟨1⟩

/-- The handle the client is given. -/
def handleOne : WorkflowHandle := ⟨(TaskId.mk 1).toText, [⟨1⟩]⟩

/-- What the client calls to submit the chain. -/
def chainCalls : List (Event traits) :=
  [⟨.runtime .newUuid, ⟨1⟩⟩, ⟨.runtime .utcNow, ⟨0⟩⟩, ⟨.runtime .newTaskId, ⟨1⟩⟩,
    ⟨.broker (.enqueue headMessage), .ok ()⟩]

/-- What the client calls to submit the chord. -/
def chordCalls : List (Event traits) :=
  [⟨.runtime .newUuid, ⟨1⟩⟩, ⟨.runtime .newUuid, ⟨1⟩⟩,
    ⟨.backend (.initGroup (TaskId.mk 1).toText 1), .ok ()⟩, ⟨.runtime .utcNow, ⟨0⟩⟩,
    ⟨.runtime .newTaskId, ⟨1⟩⟩, ⟨.runtime .utcNow, ⟨0⟩⟩, ⟨.runtime .newTaskId, ⟨1⟩⟩,
    ⟨.broker (.enqueue memberMessage), .ok ()⟩]

theorem run_chain : ∃ s', wholeMemory.toService.run (drawsOne.take 4) (twoSteps.submit blankCodec)
    (MemoryBroker.new, MemoryResultBackend.new) = some (chainCalls, (), s') := ⟨_, rfl⟩

theorem run_chord : ∃ s', wholeMemory.toService.run drawsOne (withCallback.submit blankCodec)
    (MemoryBroker.new, MemoryResultBackend.new) = some (chordCalls, (), s') := ⟨_, rfl⟩

theorem apply_chain : Prog.Trace (twoSteps.apply blankCodec) chainCalls (.ok handleOne) :=
  .call (.call (.call (.call (.ret _))))

theorem apply_chord : Prog.Trace (withCallback.apply blankCodec) chordCalls (.ok handleOne) :=
  .call (.call (.call (.call (.call (.call (.call (.call (.ret _))))))))

/-- The step of the chain that is sent has the id of the handle. -/
theorem one_correlation_id_iff_chain :
    ∃ W cfg, Machine.Lineage sentMessage deliveredMessage (aboutToSubmit twoSteps) 0 W cfg ∧
      headMessage ∈ W.items ∧ ∀ m ∈ W.items, m.Carries handleOne.id := by
  obtain ⟨s', hrun⟩ := run_chain
  have hlineage : Machine.Lineage (M := wholeMemory) sentMessage deliveredMessage
      (aboutToSubmit twoSteps) 0 _ _ := Machine.Lineage.alone hrun
  have hmakes : ¬ twoSteps.MakesCallback := id
  refine ⟨_, _, hlineage, ⟨⟨.broker (.enqueue headMessage), .ok ()⟩, ?_, rfl⟩,
    (one_correlation_id_iff rfl hlineage apply_chain).mpr hmakes⟩
  simp [chainCalls]

/-- The callback of a chord has no correlation id: the client is given the handle of
a chord, the message that was sent for it has the id of the handle, and the callback in
that message has none. -/
theorem callback_uncorrelated :
    ∃ W cfg, Machine.Lineage sentMessage deliveredMessage (aboutToSubmit withCallback) 0 W cfg ∧
      Prog.Trace (withCallback.apply blankCodec) W.own (.ok handleOne) ∧
      memberMessage ∈ W.items ∧ memberMessage.correlationId = some handleOne.id ∧
      memberMessage.chordCallback.map (·.correlationId) = some none ∧
      ¬ ∀ m ∈ W.items, m.Carries handleOne.id := by
  obtain ⟨s', hrun⟩ := run_chord
  have hlineage : Machine.Lineage (M := wholeMemory) sentMessage deliveredMessage
      (aboutToSubmit withCallback) 0 _ _ := Machine.Lineage.alone hrun
  have hsent : memberMessage ∈ {x | ∃ e ∈ chordCalls, sentMessage e.op = some x} :=
    ⟨⟨.broker (.enqueue memberMessage), .ok ()⟩, by simp [chordCalls], rfl⟩
  refine ⟨_, _, hlineage, apply_chord, hsent, rfl, rfl, ?_⟩
  intro hcarries
  have hcallback := (hcarries memberMessage hsent).2 _ rfl
  cases hcallback

end Kojin.Core
