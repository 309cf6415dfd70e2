/-
  Core/Results.lean --- what the handler of a successor is given (`kojin-core`:
  `worker.rs`, `registry.rs`, `canvas.rs`).

  The result of a chain step, and the results of a chord's members, are written into
  a header of the successor's message.  `TaskRegistry::dispatch` is called with the
  message's task name and payload, and with the context of the worker, which is the
  same for all messages; no header is among its arguments.

  So in any two runs, whatever the predecessors have returned, the successor's handler
  is invoked with the same arguments.
-/
import Kojin.Core.Retry

set_option autoImplicit false

namespace Kojin.Core

open Kojin.Foundation

/-- How a successor follows: as the next step of a chain or as the callback of a
chord. -/
inductive Link where
  | chain
  | chord

/-- `Successor codec link m values s`: an execution of `m` enqueues `s`, and these are
the values it writes into it. -/
inductive Successor (codec : Codec) : Link → TaskMessage → List Json → TaskMessage → Prop where
  | chain {m : TaskMessage} {sig : Signature} {rest : List Signature} (result : Json)
      (now : DateTime) (id : TaskId) :
      codec.chainNext m = some (sig, rest) →
      Successor codec .chain m [result] (m.chainStep codec result sig rest now id)
  | chord {m callback : TaskMessage} (results : List Json) :
      m.chordCallback = some callback →
      Successor codec .chord m results (callback.withGroupResults (.ok results))

variable {S : Service resultBackendTrait} {codec : Codec}

/-- The arguments of one invocation of a handler, for message `i`. -/
def argumentsOf (i : TaskId) : (memorySystem S codec).Label → Option (String × Json)
  | .call ⟨.runtime (.handle m name payload), _⟩ => if m.id = i then some (name, payload) else none
  | _ => none

/-- The arguments of all of them, in order. -/
def arguments (i : TaskId) (tr : List (memorySystem S codec).Label) : List (String × Json) :=
  tr.filterMap (argumentsOf i)

/-! ## Every invocation is one of an execution -/

/-- The log line with which an execution begins. -/
def beginning (m : TaskMessage) : (memorySystem S codec).Label :=
  .call ⟨.runtime (.trace (.executing m)), ()⟩

/-- Whoever is about to invoke a handler has begun an execution, and whatever a handler
was given was the task name and the payload of a copy that was executed. -/
structure Dispatches (tr : List (memorySystem S codec).Label) (roles : List Role) : Prop where
  begun : ∀ b m, .exec (.running b m) ∈ roles → beginning m ∈ tr
  given : ∀ i a, a ∈ arguments i tr → ∃ m, beginning m ∈ tr ∧ m.id = i ∧ a = (m.taskName, m.payload)

/-- Only the log line that begins an execution leads to the handler. -/
theorem Stage.Step.running_cases {t : Stage} {op : traits.Op} {r : traits.Res op} {b : Bool}
    {m : TaskMessage} (h : Stage.Step codec t op r (.running b m)) :
    t = .running b m ∨ op = .runtime (.trace (.executing m)) := by
  cases h with
  | note | before => exact .inl rfl
  | execute | executeCleared => exact .inr rfl

theorem mem_arguments_snoc {i : TaskId} {a : String × Json}
    {tr : List (memorySystem S codec).Label} {l : (memorySystem S codec).Label} :
    a ∈ arguments i (tr ++ [l]) ↔ a ∈ arguments i tr ∨ argumentsOf i l = some a := by
  rw [arguments, Machine.filterMap_snoc, List.mem_append, Option.mem_toList]
  rfl

/-- A handler is invoked from the stage before it, with what that stage has. -/
theorem Role.Step.arguments_of {u u' : Role} {op : memoryInterface.Op}
    {r : memoryInterface.Res op} (h : Role.Step codec u op r u') {i : TaskId} {a : String × Json}
    (ha : argumentsOf i (.call ⟨op, r⟩ : (memorySystem S codec).Label) = some a) :
    ∃ b m, u = .exec (.running b m) ∧ m.id = i ∧ a = (m.taskName, m.payload) := by
  cases h with
  | runtime hp =>
      cases hp with
      | handled b m result =>
          obtain ⟨hid, heq⟩ := (Option.ite_none_right_eq_some).mp ha
          exact ⟨b, m, rfl, hid, (Option.some.inj heq).symm⟩
      | err b m e =>
          obtain ⟨hid, heq⟩ := (Option.ite_none_right_eq_some).mp ha
          exact ⟨b, m, rfl, hid, (Option.some.inj heq).symm⟩
      | _ => cases ha
  | clientRuntime hp => cases hp <;> cases ha
  | _ => cases ha

/-- Every history invokes handlers with the task name and payload of executed copies. -/
theorem dispatches_of_reach {s₀ : S.State} {canvases : List Canvas}
    {tr : List (memorySystem S codec).Label} {c : RoleConfig S codec}
    (h : RoleReach ⟨(MemoryBroker.new, s₀), canvases.map fun c => .client (.fresh c)⟩ tr c) :
    Dispatches tr c.stages := by
  induction h with
  | start =>
      refine ⟨fun b m hm => ?_, fun i a ha => (List.not_mem_nil ha).elim⟩
      obtain ⟨canvas, -, heq⟩ := List.mem_map.mp hm
      cases heq
  | @step tr c c' l _ hstep ih =>
      have hkeep : ∀ m, beginning m ∈ tr → beginning m ∈ tr ++ [l] :=
        fun m hm => List.mem_append.mpr (.inl hm)
      cases hstep with
      | @call o s s' op r u u' before after hr hp =>
          refine ⟨?_, ?_⟩
          · intro b m hm
            rcases List.mem_append.mp hm with hm | hm
            · exact hkeep m (ih.begun b m (List.mem_append.mpr (.inl hm)))
            rcases List.mem_cons.mp hm with rfl | hm
            · have hfrom : u = .exec (.running b m) ∨ op = .runtime (.trace (.executing m)) := by
                cases hp with
                | runtime hp =>
                    rcases hp.running_cases with rfl | heq
                    · exact .inl rfl
                    · injection heq with heq
                      exact .inr (congrArg SystemOp.runtime heq)
                | backend hp =>
                    rcases hp.running_cases with rfl | heq
                    · exact .inl rfl
                    · cases heq
                | enqueue hp | ack hp | schedule hp =>
                    rcases hp.running_cases with rfl | heq
                    · exact .inl rfl
                    · cases heq
              rcases hfrom with rfl | rfl
              · exact hkeep m (ih.begun b m (List.mem_append.mpr (.inr List.mem_cons_self)))
              · exact List.mem_append.mpr (.inr (List.mem_singleton.mpr rfl))
            · exact hkeep m (ih.begun b m
                (List.mem_append.mpr (.inr (List.mem_cons_of_mem u hm))))
          · intro i a ha
            rcases mem_arguments_snoc.mp ha with ha | ha
            · obtain ⟨m, hm, hid, heq⟩ := ih.given i a ha
              exact ⟨m, hkeep m hm, hid, heq⟩
            · obtain ⟨b, m, rfl, hid, heq⟩ := Role.Step.arguments_of hp ha
              have hm := ih.begun b m (List.mem_append.mpr (.inr List.mem_cons_self))
              exact ⟨m, hkeep m hm, hid, heq⟩
      | @env x s s' stages new haccept =>
          refine ⟨?_, ?_⟩
          · intro b m hm
            rcases List.mem_append.mp hm with hm | hm
            · exact hkeep m (ih.begun b m hm)
            · cases x with
              | poll w queues =>
                  obtain ⟨p, -, heq⟩ := Option.map_eq_some_iff.mp (Option.mem_toList.mp hm)
                  cases heq
              | _ => cases hm
          · intro i a ha
            rcases mem_arguments_snoc.mp ha with ha | ha
            · obtain ⟨m, hm, hid, heq⟩ := ih.given i a ha
              exact ⟨m, hkeep m hm, hid, heq⟩
            · cases ha

/-- The handlers of a message that was enqueued once are given its task name and its
payload, at every attempt. -/
theorem arguments_eq {s₀ : S.State} {canvases : List Canvas}
    {tr : List (memorySystem S codec).Label} {c : (memorySystem S codec).Config}
    (hreach : (memorySystem S codec).Reach (memoryStart S codec s₀ canvases) tr c)
    {s : TaskMessage} (honce : arrivals s.id tr = [s]) :
    ∀ a ∈ arguments s.id tr, a = (s.taskName, s.payload) := by
  intro a ha
  obtain ⟨rs, hroles, -⟩ := reach_roles hreach
  obtain ⟨m, hm, hid, rfl⟩ := (dispatches_of_reach hroles).given s.id a ha
  have hexecuted : m ∈ executions (life s.id tr) := by
    obtain ⟨tr₁, tr₂, rfl⟩ := List.append_of_mem hm
    rw [life_append, executions_append]
    refine List.mem_append.mpr (.inr ?_)
    have hlife : life s.id (beginning m :: tr₂) = .executed m :: life s.id tr₂ :=
      List.filterMap_cons_some (if_pos hid)
    rw [hlife]
    exact List.mem_cons_self
  have hsame := executed_same hreach honce m hexecuted
  rw [hsame.taskName_eq, hsame.payload_eq]

/-! ## Results are not among the arguments -/

/-- The next step of a chain has the task name and the payload of its signature. -/
theorem chainStep_arguments (m : TaskMessage) (result : Json) (sig : Signature)
    (rest : List Signature) (now : DateTime) (id : TaskId) :
    ((m.chainStep codec result sig rest now id).taskName,
      (m.chainStep codec result sig rest now id).payload) = (sig.taskName, sig.payload) := by
  unfold TaskMessage.chainStep
  cases m.correlationId <;> cases rest <;> rfl

/-- What a successor's handler is given does not depend on the values written into its
message. -/
theorem Successor.arguments_eq {link : Link} {m s s' : TaskMessage} {values values' : List Json}
    (h : Successor codec link m values s) (h' : Successor codec link m values' s') :
    (s.taskName, s.payload) = (s'.taskName, s'.payload) := by
  cases h with
  | chain result now id hnext =>
      cases h' with
      | chain result' now' id' hnext' =>
          rw [hnext] at hnext'
          cases hnext'
          rw [chainStep_arguments, chainStep_arguments]
  | chord results hcallback =>
      cases h' with
      | chord results' hcallback' =>
          rw [hcallback] at hcallback'
          cases hcallback'
          rfl

/-- Results do not reach the successor's handler: in any two runs, whatever values
the predecessors have returned, all invocations of the successor's handler have the same
arguments. -/
theorem results_unread {s₀ s₀' : S.State} {canvases canvases' : List Canvas}
    {tr tr' : List (memorySystem S codec).Label} {c c' : (memorySystem S codec).Config}
    (hreach : (memorySystem S codec).Reach (memoryStart S codec s₀ canvases) tr c)
    (hreach' : (memorySystem S codec).Reach (memoryStart S codec s₀' canvases') tr' c')
    {link : Link} {m s s' : TaskMessage} {values values' : List Json}
    (hs : Successor codec link m values s) (hs' : Successor codec link m values' s')
    (honce : arrivals s.id tr = [s]) (honce' : arrivals s'.id tr' = [s']) :
    ∀ a ∈ arguments s.id tr, ∀ a' ∈ arguments s'.id tr', a = a' := by
  intro a ha a' ha'
  rw [arguments_eq hreach honce a ha, arguments_eq hreach' honce' a' ha', hs.arguments_eq hs']

/-! ## One chain, two results -/

/-- A codec that reads back the list of one plain signature. -/
def oneStepCodec : Codec :=
  ⟨fun _ => "", fun text =>
    if text = encodeSignatures (fun _ => "") [plainSignature] then .ok [plainSignature]
    else .error "other signatures"⟩

/-- The in-memory broker and backend, with workers that read that list. -/
abbrev chainPair : Machine memoryInterface := memorySystem MemoryResultBackend.service oneStepCodec

/-- A client is about to submit a chain of two steps. -/
def chainOrigin : chainPair.Config :=
  memoryStart MemoryResultBackend.service oneStepCodec MemoryResultBackend.new
    [.chain [.single plainSignature, .single plainSignature]]

/-- A runtime that draws this identifier and whose handlers return this value. -/
def returning (id : TaskId) (value : Json) : RuntimeOracle
  | .handle _ _ _ => .ok value
  | op => drawing id op

/-- The chain is submitted and its two steps are executed; the first returns `value`. -/
def chainRun (value : Json) : List chainPair.Move :=
  let w : Worker := ⟨["t"], [], true⟩
  List.replicate 4 (.run 0 ⟨drawing ⟨1⟩, (), ()⟩) ++
    .env (.poll w ["q"]) :: List.replicate 9 (.run 1 ⟨returning ⟨2⟩ value, (), ()⟩) ++
    .env (.poll w ["q"]) :: List.replicate 2 (.run 2 ⟨stillRuntime, (), ()⟩)

theorem chainRun_null_plays : (chainOrigin.playAll (chainRun .null)).isSome = true := by
  decide +kernel

theorem chainRun_true_plays : (chainOrigin.playAll (chainRun (.bool true))).isSome = true := by
  decide +kernel

/-- The run in which the first step returns `null`. -/
def chainRunNull : List chainPair.Label × chainPair.Config :=
  (chainOrigin.playAll (chainRun .null)).get chainRun_null_plays

/-- The run in which it returns `true`. -/
def chainRunTrue : List chainPair.Label × chainPair.Config :=
  (chainOrigin.playAll (chainRun (.bool true))).get chainRun_true_plays

/-- The message of the first step, as it is executed. -/
def firstStep : TaskMessage :=
  (Canvas.chainHead oneStepCodec (TaskId.mk 1).toText [plainSignature] plainSignature ⟨0⟩ ⟨1⟩).start

/-- The message of the second step. -/
def secondStep (value : Json) : TaskMessage :=
  firstStep.chainStep oneStepCodec value plainSignature [] ⟨0⟩ ⟨2⟩

theorem secondStep_successor (value : Json) :
    Successor oneStepCodec .chain firstStep [value] (secondStep value) := by
  refine .chain value ⟨0⟩ ⟨2⟩ ?_
  have hheader : firstStep.headers.lookup "kojin.chain_next" =
      some (encodeSignatures (fun _ => "") [plainSignature]) := AList.lookup_insert _
  rw [Codec.chainNext, hheader]
  simp [oneStepCodec]

set_option maxRecDepth 100000 in
theorem chainRun_arrivals :
    arrivals ⟨2⟩ chainRunNull.1 = [secondStep .null] ∧
      arrivals ⟨2⟩ chainRunTrue.1 = [secondStep (.bool true)] := ⟨rfl, rfl⟩

set_option maxRecDepth 100000 in
theorem chainRun_arguments :
    arguments ⟨2⟩ chainRunNull.1 = [("t", .null)] ∧
      arguments ⟨2⟩ chainRunTrue.1 = [("t", .null)] := ⟨rfl, rfl⟩

/-- In these two runs the second handler is given the same arguments. -/
theorem results_unread_chain :
    (arguments ⟨2⟩ chainRunNull.1).length = 1 ∧ (arguments ⟨2⟩ chainRunTrue.1).length = 1 ∧
      ∀ a ∈ arguments ⟨2⟩ chainRunNull.1, ∀ a' ∈ arguments ⟨2⟩ chainRunTrue.1, a = a' := by
  have hreach : chainPair.Reach chainOrigin chainRunNull.1 chainRunNull.2 :=
    Machine.Config.reach_of_get chainRun_null_plays
  have hreach' : chainPair.Reach chainOrigin chainRunTrue.1 chainRunTrue.2 :=
    Machine.Config.reach_of_get chainRun_true_plays
  refine ⟨by rw [chainRun_arguments.1, List.length_singleton],
    by rw [chainRun_arguments.2, List.length_singleton], ?_⟩
  exact results_unread hreach hreach' (secondStep_successor .null)
    (secondStep_successor (.bool true)) chainRun_arrivals.1 chainRun_arrivals.2

/-- Different results, same arguments: two runs of one chain differ in what the
first step returns, and the second handler is invoked alike in both. -/
theorem result_lost :
    chainPair.Reach chainOrigin chainRunNull.1 chainRunNull.2 ∧
      chainPair.Reach chainOrigin chainRunTrue.1 chainRunTrue.2 ∧
      Successor oneStepCodec .chain firstStep [.null] (secondStep .null) ∧
      Successor oneStepCodec .chain firstStep [.bool true] (secondStep (.bool true)) ∧
      arguments ⟨2⟩ chainRunNull.1 = [("t", .null)] ∧
      arguments ⟨2⟩ chainRunTrue.1 = [("t", .null)] :=
  ⟨Machine.Config.reach_of_get chainRun_null_plays, Machine.Config.reach_of_get chainRun_true_plays,
    secondStep_successor .null, secondStep_successor (.bool true), chainRun_arguments⟩

end Kojin.Core
