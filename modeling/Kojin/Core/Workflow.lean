/-
  Core/Workflow.lean --- a workflow run until no message is left (`kojin-core`:
  `canvas.rs`, `worker.rs`).

  A client submits one workflow to the in-memory broker and backend, and workers
  execute its messages until none is left.  The single tasks of the workflow travel in
  three ways: as messages of their own, in the header of a chain, and as the callback in
  every member of a chord.  Each way may lose some of them, and what is dispatched in the
  end shows which.

  THE INVARIANT.  Every token of the ledger stands for tasks still to be dispatched, its
  outlook: a message for its own and those in its header, a client for those it has not
  sent.  What has been dispatched and what the tokens stand for are together the tasks
  that `apply` sends, and a callback for each time the counter of the group has met its
  total.  At rest no token stands for anything.

  The counter and the total are `u32`s: with `n` members they meet once for every `2 ^ 32`
  members begun, so never for an empty group.
-/
import Kojin.Core.ChainRun
import Kojin.Core.GroupAccount
import Kojin.Core.MemoryResultBackend
import Kojin.Core.Retry
import Mathlib.Algebra.Order.Group.Multiset
import Mathlib.Data.Int.CardIntervalMod

set_option autoImplicit false

namespace Kojin.Core

open Kojin.Foundation

/-! ## The tasks of a workflow -/

/-- What a worker dispatches for a signature. -/
def Signature.task (sig : Signature) : String × Json := (sig.taskName, sig.payload)

/-- The tasks of these signatures. -/
def tasksOf (sigs : List Signature) : Multiset (String × Json) := sigs.map Signature.task

theorem tasksOf_cons (sig : Signature) (sigs : List Signature) :
    tasksOf (sig :: sigs) = {sig.task} + tasksOf sigs := rfl

theorem tasksOf_append (sigs sigs' : List Signature) :
    tasksOf (sigs ++ sigs') = tasksOf sigs + tasksOf sigs' := by
  rw [tasksOf, List.map_append]
  rfl

/-- No header of the signature's own names further tasks. -/
def Signature.Sole (codec : Codec) (sig : Signature) : Prop :=
  codec.chainNext (sig.intoMessage ⟨0⟩ ⟨0⟩) = none

namespace Canvas

/-- The workflows that are flattened without a warning: a single task, nested chains, a
group of single tasks, and a chord of single tasks whose callback is a nested chain with
a task in it. -/
def Supported : Canvas → Prop
  | .single _ => True
  | .chain steps => AllLinear steps
  | .group members => ∃ sigs : List Signature, members = sigs.map .single
  | .chord members callback => (∃ sigs : List Signature, members = sigs.map .single) ∧
      callback.Linear ∧ callback.leaves ≠ []

/-- The signatures that `apply` sends, in messages or in headers. -/
def submitted : Canvas → List Signature
  | .single sig => [sig]
  | .chain steps => flattenChain steps
  | .group members => flattenGroup members
  | .chord members _ => flattenGroup members

/-- How many of them are members of a group. -/
def memberCount : Canvas → Nat
  | .single _ => 0
  | .chain _ => 0
  | .group members => (flattenGroup members).length
  | .chord members _ => (flattenGroup members).length

/-- The signature whose message the members carry. -/
def calledBack : Canvas → Option Signature
  | .chord _ callback => (flattenChain [callback]).head?
  | _ => none

end Canvas

/-! ## What is read out of a header -/

section Headers

variable {codec : Codec}

/-- The tasks behind the one of a message. -/
def TaskMessage.owed (codec : Codec) (m : TaskMessage) : List Signature :=
  (codec.chainNext m).elim [] fun p => p.1 :: p.2

theorem TaskMessage.owed_of_next {m : TaskMessage} {sig : Signature} {rest : List Signature}
    (h : codec.chainNext m = some (sig, rest)) : m.owed codec = sig :: rest := by
  rw [owed, h]
  rfl

theorem TaskMessage.owed_of_none {m : TaskMessage} (h : codec.chainNext m = none) :
    m.owed codec = [] := by
  rw [owed, h]
  rfl

theorem TaskMessage.owed_of_peel {m : TaskMessage} {rest : List Signature}
    (h : codec.chainNext m = peel rest) : m.owed codec = rest := by
  cases rest with
  | nil => exact owed_of_none h
  | cons sig rest => exact owed_of_next h

/-- Only one header counts. -/
theorem chainNext_congr {m m' : TaskMessage}
    (h : m'.headers.lookup "kojin.chain_next" = m.headers.lookup "kojin.chain_next") :
    codec.chainNext m' = codec.chainNext m := by
  unfold Codec.chainNext
  rw [h]

theorem TaskMessage.owed_congr {m m' : TaskMessage}
    (h : m'.headers.lookup "kojin.chain_next" = m.headers.lookup "kojin.chain_next") :
    m'.owed codec = m.owed codec := by
  rw [owed, owed, chainNext_congr h]

/-- A message that has the headers of a sole signature is not continued. -/
theorem Signature.Sole.chainNext {sig : Signature} (h : sig.Sole codec) {m : TaskMessage}
    (hm : m.headers.lookup "kojin.chain_next" = sig.headers.lookup "kojin.chain_next") :
    codec.chainNext m = none := (chainNext_congr hm).trans h

/-- The lists of signatures that survive their way through the headers: they can be read
back, and nothing follows the last. -/
structure Lasting (codec : Codec) (sigs : List Signature) : Prop where
  decode : ∀ sig rest, sig :: rest <:+ sigs →
    codec.decodeSignatures (encodeSignatures codec.rfc3339 (sig :: rest)) = .ok (sig :: rest)
  sole : ∀ sig ∈ sigs.getLast?, sig.Sole codec

theorem lasting_nil : Lasting codec [] where
  decode sig rest h := absurd (List.suffix_nil.mp h) (List.cons_ne_nil sig rest)
  sole _ h := by cases h

theorem Lasting.tail {sig : Signature} {rest : List Signature} (h : Lasting codec (sig :: rest)) :
    Lasting codec rest where
  decode next tail htail := h.decode next tail (htail.trans (List.suffix_cons sig rest))
  sole last hlast := by
    cases rest with
    | nil => cases hlast
    | cons next rest => exact h.sole last (by rwa [List.getLast?_cons_cons])

/-- What a message with these tasks behind it owes, if the header says so. -/
theorem Lasting.chainNext {sig : Signature} {rest : List Signature}
    (h : Lasting codec (sig :: rest)) {m : TaskMessage}
    (hm : m.headers.lookup "kojin.chain_next" =
      if rest.isEmpty then sig.headers.lookup "kojin.chain_next"
      else some (encodeSignatures codec.rfc3339 rest)) :
    codec.chainNext m = peel rest := by
  cases rest with
  | nil => exact (h.sole sig rfl).chainNext hm
  | cons next rest =>
      have hdecode := h.decode next rest (List.suffix_cons sig _)
      simp only [List.isEmpty_cons, Bool.false_eq_true, if_false] at hm
      unfold Codec.chainNext
      rw [hm]
      simp only [hdecode]
      rfl

/-- The head of a chain. -/
theorem Lasting.chainHead {sig : Signature} {rest : List Signature}
    (h : Lasting codec (sig :: rest)) (correlation : String) (now : DateTime) (id : TaskId) :
    codec.chainNext (Canvas.chainHead codec correlation rest sig now id) = peel rest := by
  refine h.chainNext ?_
  unfold Canvas.chainHead
  cases rest with
  | nil => rfl
  | cons next rest => exact AList.lookup_insert _

/-- The next step of one. -/
theorem Lasting.chainStep {sig : Signature} {rest : List Signature}
    (h : Lasting codec (sig :: rest)) (m : TaskMessage) (result : Json) (now : DateTime)
    (id : TaskId) :
    codec.chainNext (m.chainStep codec result sig rest now id) = peel rest := by
  refine h.chainNext ?_
  unfold TaskMessage.chainStep
  cases m.correlationId <;> cases rest with
  | nil => exact AList.lookup_insert_ne chainInput_ne.symm
  | cons next rest => exact AList.lookup_insert _

end Headers

/-! ## What a token stands for -/

/-- Tasks still to be dispatched, and members still to be counted. -/
abbrev Outlook : Type := Multiset (String × Json) × Nat

section Outlook

variable (codec : Codec)

/-- What is left once the task of a message itself has been dispatched. -/
def TaskMessage.rest (m : TaskMessage) : Outlook :=
  (tasksOf (m.owed codec), if m.groupId.isSome then 1 else 0)

/-- What a message stands for. -/
def TaskMessage.outlook (m : TaskMessage) : Outlook :=
  ({(m.taskName, m.payload)}, 0) + m.rest codec

/-- What an execution stands for. -/
def Stage.outlook : Stage → Outlook
  | .received _ m => m.outlook codec
  | .cleared _ m => m.outlook codec
  | .postponed m _ => m.outlook codec
  | .released m _ => m.outlook codec
  | .running _ m => m.outlook codec
  | .erred m => m.outlook codec
  | .failed m => m.outlook codec
  | .toRetry m => m.outlook codec
  | .toBury m => m.outlook codec
  | .succeeded _ m _ => m.rest codec
  | .acked _ m _ => m.rest codec
  | .stored m _ => m.rest codec
  | .calling m _ callback => (tasksOf (m.owed codec), 0) + callback.outlook codec
  | .collected m _ callback => (tasksOf (m.owed codec), 0) + callback.outlook codec
  | .wrapping m _ => (tasksOf (m.owed codec), 0)
  | .minting m _ _ => (tasksOf (m.owed codec), 0)
  | .continuing _ _ next => next.outlook codec
  | .chained _ _ => 0
  | .finished _ _ => 0
  | .gone => 0

/-- What the messages of these signatures stand for. -/
def Canvas.Make.outlook (make : Canvas.Make) (sigs : List Signature) : Outlook :=
  (sigs.map fun sig => (make sig ⟨0⟩ ⟨0⟩).outlook codec).sum

/-- What a client stands for that has begun to send. -/
def Canvas.Submission.outlook : Canvas.Submission → Outlook
  | .feeding make sigs => make.outlook codec sigs
  | .stamping make sig rest _ => make.outlook codec (sig :: rest)
  | .sending m make rest => m.outlook codec + make.outlook codec rest
  | _ => 0

/-- What a token stands for. -/
def Token.outlook : Token → Outlook
  | .waiting m => m.outlook codec
  | .buried m => m.outlook codec
  | .held (.exec t) => t.outlook codec
  | .held (.settling s) => s.message.outlook codec
  | .held (.client s) => s.outlook codec

/-- What a whole ledger stands for. -/
def outlook (T : Multiset Token) : Outlook := (T.map (Token.outlook codec)).sum

theorem outlook_add (T T' : Multiset Token) :
    outlook codec (T + T') = outlook codec T + outlook codec T' := by
  rw [outlook, Multiset.map_add, Multiset.sum_add]
  rfl

theorem outlook_singleton (v : Token) : outlook codec {v} = v.outlook codec := by
  rw [outlook, Multiset.map_singleton, Multiset.sum_singleton]

theorem outlook_pair (v w : Token) :
    outlook codec {v, w} = v.outlook codec + w.outlook codec := by
  have h : ({v, w} : Multiset Token) = {v} + {w} := rfl
  rw [h, outlook_add, outlook_singleton, outlook_singleton]

end Outlook

/-! ## The tokens of one workflow -/

/-- What `apply` has fixed once it sends: the tasks it sends, the group and its size, and
the callback. -/
structure Plan where
  base : Multiset (String × Json)
  group : String
  size : Nat
  callback : Option TaskMessage

section Belongs

variable (codec : Codec) (plan : Plan)

/-- A message outside the group. -/
structure TaskMessage.Lone (m : TaskMessage) : Prop where
  lasting : Lasting codec (m.owed codec)
  group : m.groupId = none

/-- A message of the workflow. -/
structure TaskMessage.Belongs (m : TaskMessage) : Prop where
  lasting : Lasting codec (m.owed codec)
  group : ∀ group, m.groupId = some group → group = plan.group ∧
    m.groupTotal = some (UInt32.ofNat plan.size) ∧ m.chordCallback = plan.callback

/-- An execution of one by a worker with a result backend, none of whose handlers has
failed. -/
def Stage.Belongs : Stage → Prop
  | .received b m => b = true ∧ m.Belongs codec plan
  | .cleared b m => b = true ∧ m.Belongs codec plan
  | .postponed m _ => m.Belongs codec plan
  | .released m _ => m.Belongs codec plan
  | .running b m => b = true ∧ m.Belongs codec plan
  | .erred _ => False
  | .failed _ => False
  | .toRetry _ => False
  | .toBury _ => False
  | .succeeded b m _ => b = true ∧ m.Belongs codec plan
  | .acked b m _ => b = true ∧ m.Belongs codec plan
  | .stored m _ => m.Belongs codec plan
  | .calling m _ callback => m.Belongs codec plan ∧ callback.Lone codec
  | .collected m _ callback => m.Belongs codec plan ∧ callback.Lone codec
  | .wrapping m _ => m.Belongs codec plan
  | .minting m _ _ => m.Belongs codec plan
  | .continuing _ _ next => next.Lone codec
  | .chained _ _ => True
  | .finished _ _ => True
  | .gone => True

/-- Whenever these signatures are made into messages, the messages are of the workflow
and stand for the same. -/
def Canvas.Make.Belongs (make : Canvas.Make) (sigs : List Signature) : Prop :=
  ∀ sig ∈ sigs, ∀ now id, (make sig now id).Belongs codec plan ∧
    (make sig now id).outlook codec = (make sig ⟨0⟩ ⟨0⟩).outlook codec

/-- A client that sends the workflow. -/
def Canvas.Submission.Belongs : Canvas.Submission → Prop
  | .feeding make sigs => make.Belongs codec plan sigs
  | .stamping make sig rest _ => make.Belongs codec plan (sig :: rest)
  | .sending m make rest => m.Belongs codec plan ∧ make.Belongs codec plan rest
  | .over => True
  | _ => False

/-- A token of the workflow. -/
def Token.Belongs : Token → Prop
  | .waiting m => m.Belongs codec plan
  | .buried _ => False
  | .held (.exec t) => t.Belongs codec plan
  | .held (.settling _) => False
  | .held (.client s) => s.Belongs codec plan

end Belongs

section Tokens

variable {codec : Codec} {plan : Plan}

theorem TaskMessage.Lone.belongs {m : TaskMessage} (h : m.Lone codec) : m.Belongs codec plan where
  lasting := h.lasting
  group group hg := by
    rw [h.group] at hg
    cases hg

/-- A message outside the group has no member to be counted. -/
theorem TaskMessage.Lone.outlook_snd {m : TaskMessage} (h : m.Lone codec) :
    (m.outlook codec).2 = 0 := by
  simp [TaskMessage.outlook, TaskMessage.rest, h.group]

/-- Without a callback there is none to be in the group. -/
theorem lone_of_none {called : Option TaskMessage} (h : called = none) (callback : TaskMessage)
    (hcallback : called = some callback) : callback.Lone codec := by
  rw [h] at hcallback
  cases hcallback

/-- The header with the results of the group names no tasks. -/
theorem TaskMessage.withGroupResults_lone {callback : TaskMessage} (h : callback.Lone codec)
    (r : TaskResult (List Json)) : (callback.withGroupResults r).Lone codec ∧
      (callback.withGroupResults r).outlook codec = callback.outlook codec := by
  cases r with
  | error e => exact ⟨h, rfl⟩
  | ok results =>
      have howed : (callback.withGroupResults (.ok results)).owed codec = callback.owed codec :=
        TaskMessage.owed_congr (AList.lookup_insert_ne (by decide))
      refine ⟨⟨howed ▸ h.lasting, h.group⟩, ?_⟩
      rw [TaskMessage.outlook, TaskMessage.rest, howed]
      rfl

/-- The next step of a chain, and what it stands for. -/
theorem TaskMessage.Belongs.next {m : TaskMessage} (h : m.Belongs codec plan) {sig : Signature}
    {rest : List Signature} (hnext : codec.chainNext m = some (sig, rest)) (result : Json)
    (now : DateTime) (id : TaskId) :
    (m.chainStep codec result sig rest now id).Lone codec ∧
      (m.chainStep codec result sig rest now id).outlook codec = (tasksOf (m.owed codec), 0) := by
  have hlasting : Lasting codec (sig :: rest) := owed_of_next hnext ▸ h.lasting
  have howed := owed_of_peel (hlasting.chainStep m result now id)
  obtain ⟨hgroup, -, -⟩ := chainStep_plain codec m result sig rest now id
  have htask : ((m.chainStep codec result sig rest now id).taskName,
      (m.chainStep codec result sig rest now id).payload) = sig.task := by
    unfold TaskMessage.chainStep
    cases m.correlationId <;> cases rest <;> rfl
  refine ⟨⟨by rw [howed]; exact hlasting.tail, hgroup⟩, ?_⟩
  rw [TaskMessage.outlook, TaskMessage.rest, htask, howed, hgroup, owed_of_next hnext,
    tasksOf_cons]
  rfl

end Tokens

/-! ## What a history shows -/

section History

variable {codec : Codec}

/-- The in-memory broker with the in-memory result backend. -/
abbrev inMemory (codec : Codec) : Machine memoryInterface :=
  memorySystem MemoryResultBackend.service codec

/-- What a step dispatches. -/
def dispatch? : (inMemory codec).Label → Option (String × Json)
  | .call ⟨.runtime (.handle _ name payload), _⟩ => some (name, payload)
  | _ => none

/-- The tasks dispatched, in order. -/
def dispatched (tr : List (inMemory codec).Label) : List (String × Json) :=
  tr.filterMap dispatch?

theorem dispatched_append (tr tr' : List (inMemory codec).Label) :
    dispatched (tr ++ tr') = dispatched tr ++ dispatched tr' := List.filterMap_append

/-- Nothing comes from outside but the polls of workers with the result backend, and no
execution fails: every `before` hook and every handler succeeds. -/
def smooth : (inMemory codec).Label → Bool
  | .env (.poll w _) => w.hasBackend
  | .env _ => false
  | .call ⟨.runtime (.handle _ _ _), .error _⟩ => false
  | .call ⟨.runtime (.trace (.beforeFailed _ _)), _⟩ => false
  | .call ⟨.runtime (.trace (.taskFailed _ _ _)), _⟩ => false
  | .call _ => true

/-- No message is left, and every thread has returned. -/
structure Exhausted (c : (inMemory codec).Config) : Prop where
  queues : c.state.1.queues.contents = 0
  threads : ∀ q ∈ c.threads, q = .ret ()

end History

/-! ## The counter -/

/-- How often the counter of a group of this size meets the total within `k` completions;
both are `u32`s. -/
def meets (size k : Nat) : Nat := Nat.count (fun j => UInt32.ofNat (j + 1) = UInt32.ofNat size) k

theorem meets_succ (size k : Nat) : meets size (k + 1) =
    meets size k + if UInt32.ofNat (k + 1) = UInt32.ofNat size then 1 else 0 :=
  Nat.count_succ _ k

/-- A whole group: once for every `2 ^ 32` members begun. -/
theorem meets_self (size : Nat) :
    meets size size = (size + (UInt32.size - 1)) / UInt32.size := by
  have hiff : ∀ j, UInt32.ofNat (j + 1) = UInt32.ofNat size ↔
      j + 1 ≡ size [MOD UInt32.size] := by
    intro j
    rw [← UInt32.toNat_inj, UInt32.toNat_ofNat', UInt32.toNat_ofNat']
    rfl
  cases size with
  | zero => rfl
  | succ size =>
      have hcount : meets (size + 1) (size + 1) =
          Nat.count (· ≡ size [MOD UInt32.size]) (size + 1) := by
        unfold meets
        congr 1
        funext j
        rw [hiff]
        exact propext (Nat.ModEq.add_iff_right (Nat.ModEq.refl 1))
      rw [hcount, Nat.count_modEq_card _ (by decide)]
      simp only [UInt32.size]
      split <;> omega

/-! ## The workflow under way -/

section Balanced

variable {codec : Codec} {plan : Plan} {k : Nat} {tr : List (inMemory codec).Label}
  {sb sb' : MemoryResultBackend}

/-- What the callback of the plan stands for. -/
def Plan.called (codec : Codec) (plan : Plan) : Multiset (String × Json) :=
  plan.callback.elim 0 fun callback => (callback.outlook codec).1

/-- What holds once the client sends: `k` members have been counted. -/
structure Balanced (codec : Codec) (plan : Plan) (k : Nat)
    (tr : List (inMemory codec).Label) (T : Multiset Token) (sb : MemoryResultBackend) :
    Prop where
  belongs : ∀ v ∈ T, v.Belongs codec plan
  callback : ∀ callback, plan.callback = some callback → callback.Lone codec
  sums : ((dispatched tr : Multiset (String × Json)), k) + outlook codec T =
    (plan.base + meets plan.size k • plan.called codec, plan.size)
  counter : 0 < plan.size → ∃ g, sb.groups.lookup plan.group = some g ∧
    g.completed = UInt32.ofNat k

/-- A step that counts no member. -/
theorem Balanced.keep {before after rest : Multiset Token} {l : (inMemory codec).Label}
    (h : Balanced codec plan k tr (before + rest) sb)
    (hbelongs : ∀ v ∈ after, v.Belongs codec plan)
    (hsums : ((dispatched [l] : Multiset (String × Json)), 0) + outlook codec after =
      outlook codec before)
    (hgroups : sb'.groups = sb.groups) :
    Balanced codec plan k (tr ++ [l]) (after + rest) sb' where
  belongs v hv := by
    rcases Multiset.mem_add.mp hv with hnew | hold
    · exact hbelongs v hnew
    · exact h.belongs v (Multiset.mem_add.mpr (.inr hold))
  callback := h.callback
  sums := by
    have hsplit : ((dispatched (tr ++ [l]) : Multiset (String × Json)), k) =
        ((dispatched tr : Multiset (String × Json)), k) +
          (((dispatched [l] : Multiset (String × Json)), 0) : Outlook) := by
      rw [dispatched_append, ← Multiset.coe_add]
      rfl
    rw [← h.sums, outlook_add, outlook_add, ← hsums, hsplit]
    abel
  counter hsize := hgroups ▸ h.counter hsize

/-- A call of the runtime dispatches the task of a message, or leaves what an execution
stands for. -/
theorem Stage.Step.outlook_of_runtime {t t' : Stage} {op : RuntimeOp} {r : op.Res}
    (hstep : Stage.Step codec t (.runtime op) r t') (h : t.Belongs codec plan)
    (hsmooth : smooth (.call ⟨.runtime op, r⟩ : (inMemory codec).Label) = true) :
    t'.Belongs codec plan ∧
      ((dispatched [(.call ⟨.runtime op, r⟩ : (inMemory codec).Label)] :
        Multiset (String × Json)), 0) + t'.outlook codec = t.outlook codec := by
  cases hstep with
  | handled b m result => exact ⟨h, rfl⟩
  | postpone b heta hnow => exact ⟨h.2, zero_add _⟩
  | @name m sig rest result now id hnext =>
      obtain ⟨hlone, houtlook⟩ := TaskMessage.Belongs.next h hnext result now id
      refine ⟨hlone, ?_⟩
      show (0 : Outlook) + TaskMessage.outlook codec _ = _
      rw [houtlook]
      exact zero_add _
  | complete result hnext =>
      refine ⟨trivial, ?_⟩
      show (0 : Outlook) + 0 = (tasksOf _, 0)
      rw [TaskMessage.owed_of_none hnext]
      rfl
  | completeWithoutBackend m result => exact absurd h.1 Bool.false_ne_true
  | err b m e => exact absurd hsmooth Bool.false_ne_true
  | beforeFailed b m e => exact absurd hsmooth Bool.false_ne_true
  | notFound b m e => exact absurd hsmooth Bool.false_ne_true
  | completeChained m result => exact ⟨trivial, rfl⟩
  | _ => exact ⟨h, zero_add _⟩

/-- The callback that is due when the next member is counted. -/
theorem TaskMessage.Belongs.due {m : TaskMessage} (h : m.Belongs codec plan) {group : String}
    (hg : m.groupId = some group)
    (hcallback : ∀ callback, plan.callback = some callback → callback.Lone codec) :
    (m.callbackDue (UInt32.ofNat (k + 1))).elim 0 (TaskMessage.outlook codec) =
        (((if UInt32.ofNat (k + 1) = UInt32.ofNat plan.size then 1 else 0) • plan.called codec, 0) :
          Outlook) ∧
      ∀ callback, m.callbackDue (UInt32.ofNat (k + 1)) = some callback → callback.Lone codec := by
  obtain ⟨-, htotal, hcb⟩ := h.group group hg
  unfold TaskMessage.callbackDue Plan.called
  rw [htotal, hcb, Option.getD_some]
  by_cases hdue : UInt32.ofNat (k + 1) = UInt32.ofNat plan.size
  · rw [if_pos hdue, if_pos hdue, one_nsmul]
    refine ⟨?_, hcallback⟩
    cases hplan : plan.callback with
    | none => rfl
    | some callback => exact Prod.ext rfl (hcallback callback hplan).outlook_snd
  · rw [if_neg hdue, if_neg hdue, zero_nsmul]
    exact ⟨rfl, lone_of_none rfl⟩

/-- The answer to the completion of a member of a group that is known. -/
theorem MemoryResultBackend.completeGroupMember_of_lookup {group : String} {g : GroupState}
    (h : sb.groups.lookup group = some g) (result : Json) :
    sb.completeGroupMember group result = (.ok (g.completed + 1), ⟨sb.results,
      sb.groups.insert group ⟨g.total, g.completed + 1, g.results ++ [result]⟩⟩) := by
  rw [MemoryResultBackend.completeGroupMember, h]

/-- A member is counted, and the callback is due if the counter meets the total. -/
theorem Balanced.count {m : TaskMessage} {group : String} {result : Json}
    {r : TaskResult UInt32} {t' : Stage} {rest : Multiset Token}
    (h : Balanced codec plan k tr ({.held (.exec (.stored m result))} + rest) sb)
    (hg : m.groupId = some group)
    (hstep : Stage.Step codec (.stored m result)
      (.backend (.completeGroupMember group m.id result)) r t')
    (hanswer : sb.completeGroupMember group result = (r, sb')) :
    Balanced codec plan (k + 1)
      (tr ++ [.call ⟨.backend (.completeGroupMember group m.id result), r⟩])
      ({.held (.exec t')} + rest) sb' := by
  have hm : m.Belongs codec plan :=
    h.belongs _ (Multiset.mem_add.mpr (.inl (Multiset.mem_singleton_self _)))
  obtain ⟨rfl, -, -⟩ := hm.group group hg
  have hrest : m.rest codec = (tasksOf (m.owed codec), 1) := by
    rw [TaskMessage.rest, hg]
    rfl
  have hsums := h.sums
  rw [outlook_add, outlook_singleton] at hsums
  have hsums' : ((dispatched tr : Multiset (String × Json)), k) + (m.rest codec + outlook codec rest) =
    (plan.base + meets plan.size k • plan.called codec, plan.size) := hsums
  have hsize : 0 < plan.size := by
    have hsnd : k + ((m.rest codec).2 + (outlook codec rest).2) = plan.size :=
      congrArg Prod.snd hsums
    rw [hrest] at hsnd
    omega
  obtain ⟨g, hlookup, hcompleted⟩ := h.counter hsize
  rw [MemoryResultBackend.completeGroupMember_of_lookup hlookup, hcompleted,
    show UInt32.ofNat k + 1 = UInt32.ofNat (k + 1) from (UInt32.ofNat_add k 1).symm] at hanswer
  obtain ⟨rfl, rfl⟩ := Prod.mk.inj hanswer
  obtain ⟨hdue, hlone⟩ := hm.due (k := k) hg h.callback
  have hnext : t'.Belongs codec plan ∧ t'.outlook codec = ((tasksOf (m.owed codec), 0) : Outlook) +
      (m.callbackDue (UInt32.ofNat (k + 1))).elim 0 (TaskMessage.outlook codec) := by
    cases hstep with
    | countLast _ _ hcallback =>
        rw [hcallback]
        exact ⟨⟨hm, hlone _ hcallback⟩, rfl⟩
    | countOther _ _ hnone =>
        rw [hnone]
        exact ⟨hm, (add_zero _).symm⟩
  refine ⟨?_, h.callback, ?_, ?_⟩
  · intro v hv
    rcases Multiset.mem_add.mp hv with hnew | hold
    · obtain rfl := Multiset.mem_singleton.mp hnew
      exact hnext.1
    · exact h.belongs v (Multiset.mem_add.mpr (.inr hold))
  · have hstart : ((dispatched (tr ++ [(.call ⟨.backend (.completeGroupMember plan.group m.id result),
        .ok (UInt32.ofNat (k + 1))⟩ : (inMemory codec).Label)]) : Multiset (String × Json)), k + 1) +
          ((tasksOf (m.owed codec), 0) : Outlook) =
        ((dispatched tr : Multiset (String × Json)), k) + m.rest codec := by
      rw [hrest, dispatched_append]
      refine Prod.ext ?_ rfl
      exact congrArg (fun ts : List (String × Json) => (ts : Multiset (String × Json)) +
        tasksOf (m.owed codec)) (List.append_nil (dispatched tr))
    have houtlook : Token.outlook codec (.held (.exec t')) = t'.outlook codec := rfl
    rw [outlook_add, outlook_singleton, houtlook, hnext.2, hdue, ← add_assoc, ← add_assoc, hstart,
      add_right_comm, add_assoc ((dispatched tr : Multiset (String × Json)), k), hsums', meets_succ,
      add_nsmul, ← add_assoc]
    rfl
  · exact fun _ => ⟨_, AList.lookup_insert _, rfl⟩

variable {rest : Multiset Token} {l : (inMemory codec).Label}

/-- A step of one token that counts no member. -/
theorem Balanced.move {v w : Token} (h : Balanced codec plan k tr ({v} + rest) sb)
    (hbelongs : w.Belongs codec plan)
    (hsums : ((dispatched [l] : Multiset (String × Json)), 0) + w.outlook codec =
      v.outlook codec)
    (hgroups : sb'.groups = sb.groups) : Balanced codec plan k (tr ++ [l]) ({w} + rest) sb' := by
  refine h.keep ?_ ?_ hgroups
  · intro u hu
    obtain rfl := Multiset.mem_singleton.mp hu
    exact hbelongs
  · rw [outlook_singleton, outlook_singleton]
    exact hsums

/-- A step that sends a message. -/
theorem Balanced.send {v w : Token} {m : TaskMessage}
    (h : Balanced codec plan k tr ({v} + rest) sb) (hm : m.Belongs codec plan)
    (hbelongs : w.Belongs codec plan) (hnone : dispatched [l] = [])
    (hsums : m.outlook codec + w.outlook codec = v.outlook codec)
    (hgroups : sb'.groups = sb.groups) :
    Balanced codec plan k (tr ++ [l]) ({.waiting m, w} + rest) sb' := by
  refine h.keep ?_ ?_ hgroups
  · intro u hu
    rcases Multiset.mem_cons.mp hu with rfl | hu
    · exact hm
    · obtain rfl := Multiset.mem_singleton.mp hu
      exact hbelongs
  · rw [hnone, outlook_pair, outlook_singleton, ← hsums]
    exact zero_add _

theorem Balanced.head {v : Token} (h : Balanced codec plan k tr ({v} + rest) sb) :
    v.Belongs codec plan :=
  h.belongs v (Multiset.mem_add.mpr (.inl (Multiset.mem_singleton_self v)))

/-- A call of the backend. -/
theorem Balanced.of_backend {t t' : Stage} {op : ResultBackendOp} {r : op.Res}
    (h : Balanced codec plan k tr ({.held (.exec t)} + rest) sb)
    (hstep : Stage.Step codec t (.backend op) r t')
    (hanswer : ∃ o, MemoryResultBackend.service.respond o sb op = some (r, sb')) :
    ∃ k', Balanced codec plan k' (tr ++ [.call ⟨.backend op, r⟩]) ({.held (.exec t')} + rest)
      sb' := by
  obtain ⟨o, hanswer⟩ := hanswer
  have ht := h.head
  cases hstep with
  | storeMember result r hg =>
      cases hanswer
      exact ⟨k, h.move ht.2 (zero_add _) rfl⟩
  | @storeLone m result r hg =>
      cases hanswer
      refine ⟨k, h.move ht.2 ?_ rfl⟩
      have hrest : m.rest codec = (tasksOf (m.owed codec), 0) := by
        rw [TaskMessage.rest, hg]
        rfl
      exact (zero_add _).trans hrest.symm
  | collect result callback r hg =>
      cases hanswer
      obtain ⟨hlone, houtlook⟩ := TaskMessage.withGroupResults_lone ht.2 (sb.getGroupResults _)
      refine ⟨k, h.move ⟨ht.1, hlone⟩ ?_ rfl⟩
      exact (zero_add _).trans (congrArg (((tasksOf _, 0) : Outlook) + ·) houtlook)
  | countLast result hg hdue =>
      exact ⟨k + 1, h.count hg (.countLast result hg hdue) (Option.some.inj hanswer)⟩
  | countOther result hg hdue =>
      exact ⟨k + 1, h.count hg (.countOther result hg hdue) (Option.some.inj hanswer)⟩
  | countFailed result e hg =>
      exact ⟨k + 1, h.count hg (.countFailed result e hg) (Option.some.inj hanswer)⟩

/-- A rule keeps the balance. -/
theorem Balanced.of_rule {before after : Multiset Token}
    (h : Balanced codec plan k tr (before + rest) sb) (hrule : Rule before l after)
    (hsmooth : smooth l = true) (hback : BackendMove sb l sb') :
    ∃ k', Balanced codec plan k' (tr ++ [l]) (after + rest) sb' := by
  cases hrule with
  | arrive m => exact absurd hsmooth Bool.false_ne_true
  | outside o op => exact absurd hsmooth Bool.false_ne_true
  | poll w queues m =>
      obtain rfl := hback
      exact ⟨k, h.move ⟨hsmooth, h.head⟩ (zero_add _) rfl⟩
  | note hmark =>
      obtain rfl := hback
      exact ⟨k, h.keep (fun v hv => absurd hv (Multiset.notMem_zero v)) (zero_add _) rfl⟩
  | runtime hstep _ =>
      obtain rfl := hback
      obtain ⟨ht', hsums⟩ := hstep.outlook_of_runtime h.head hsmooth
      exact ⟨k, h.move ht' hsums rfl⟩
  | backend hstep => exact h.of_backend hstep hback
  | enqueue hstep =>
      obtain rfl := hback
      have ht := h.head
      cases hstep with
      | callback m result cb r =>
          exact ⟨k, h.send ht.2.belongs ht.1 rfl (add_comm _ _) rfl⟩
      | chain m result next r =>
          exact ⟨k, h.send (TaskMessage.Lone.belongs ht) trivial rfl (add_zero _) rfl⟩
  | ack hstep =>
      obtain rfl := hback
      cases hstep with
      | release m eta r => exact ⟨k, h.move h.head (zero_add _) rfl⟩
      | ack b m result r => exact ⟨k, h.move h.head (zero_add _) rfl⟩
  | schedule m eta =>
      obtain rfl := hback
      exact ⟨k, h.move h.head (zero_add _) rfl⟩
  | @release t s hstep =>
      have ht := h.head
      cases s <;> cases hstep <;> exact ht.elim
  | requeue m => exact h.head.elim
  | bury m => exact h.head.elim
  | clientRuntime hstep =>
      obtain rfl := hback
      have hs := h.head
      cases hstep with
      | stamp make sig rest now => exact ⟨k, h.move hs (zero_add _) rfl⟩
      | make make sig rest now id =>
          obtain ⟨hm, houtlook⟩ := hs sig List.mem_cons_self now id
          refine ⟨k, h.move ⟨hm, fun x hx => hs x (List.mem_cons_of_mem sig hx)⟩ ?_ rfl⟩
          refine (zero_add _).trans ?_
          exact congrArg (· + make.outlook codec rest) houtlook
      | _ => exact hs.elim
  | clientBackend hstep =>
      have hs := h.head
      cases hstep <;> exact hs.elim
  | clientEnqueue hstep =>
      obtain rfl := hback
      have hs := h.head
      cases hstep with
      | send m make rest => exact ⟨k, h.send hs.1 hs.2 rfl rfl rfl⟩

end Balanced

/-! ## Before the first message -/

section Sending

variable {codec : Codec} {sig : Signature}

/-- A message that has nothing behind it. -/
theorem TaskMessage.lasting_of_none {m : TaskMessage} (h : codec.chainNext m = none) :
    Lasting codec (m.owed codec) := by
  rw [TaskMessage.owed_of_none h]
  exact lasting_nil

/-- What it stands for. -/
theorem TaskMessage.outlook_of_none {m : TaskMessage} (h : codec.chainNext m = none) :
    m.outlook codec = ({(m.taskName, m.payload)}, if m.groupId.isSome then 1 else 0) := by
  rw [TaskMessage.outlook, TaskMessage.rest, TaskMessage.owed_of_none h]
  exact Prod.ext (add_zero _) (zero_add _)

/-- The message of a single task. -/
theorem Signature.Sole.lone (h : sig.Sole codec) (correlation : String) (now : DateTime)
    (id : TaskId) : (Canvas.lone correlation sig now id).Lone codec ∧
      (Canvas.lone correlation sig now id).outlook codec = ({sig.task}, 0) := by
  have hnext : codec.chainNext (Canvas.lone correlation sig now id) = none := h.chainNext rfl
  exact ⟨⟨TaskMessage.lasting_of_none hnext, rfl⟩, TaskMessage.outlook_of_none hnext⟩

/-- The message of a callback. -/
theorem Signature.Sole.called (h : sig.Sole codec) (now : DateTime) (id : TaskId) :
    (sig.intoMessage now id).Lone codec ∧
      (sig.intoMessage now id).outlook codec = ({sig.task}, 0) := by
  have hnext : codec.chainNext (sig.intoMessage now id) = none := h.chainNext rfl
  exact ⟨⟨TaskMessage.lasting_of_none hnext, rfl⟩, TaskMessage.outlook_of_none hnext⟩

/-- The first message of a chain. -/
theorem Lasting.head {rest : List Signature} (h : Lasting codec (sig :: rest))
    (correlation : String) (now : DateTime) (id : TaskId) :
    (Canvas.chainHead codec correlation rest sig now id).Lone codec ∧
      (Canvas.chainHead codec correlation rest sig now id).outlook codec =
        (tasksOf (sig :: rest), 0) := by
  have howed := TaskMessage.owed_of_peel (h.chainHead correlation now id)
  have hplain : (Canvas.chainHead codec correlation rest sig now id).groupId = none ∧
      ((Canvas.chainHead codec correlation rest sig now id).taskName,
        (Canvas.chainHead codec correlation rest sig now id).payload) = sig.task := by
    unfold Canvas.chainHead
    cases rest <;> exact ⟨rfl, rfl⟩
  refine ⟨⟨by rw [howed]; exact h.tail, hplain.1⟩, ?_⟩
  rw [TaskMessage.outlook, TaskMessage.rest, howed, hplain.1, hplain.2, tasksOf_cons]
  rfl

/-- The message of a member. -/
theorem Signature.Sole.member (h : sig.Sole codec) (plan : Plan) (correlation : String)
    {total : UInt32} (htotal : total = UInt32.ofNat plan.size) (now : DateTime) (id : TaskId) :
    (Canvas.member correlation plan.group total plan.callback sig now id).Belongs codec plan ∧
      (Canvas.member correlation plan.group total plan.callback sig now id).outlook codec =
        ({sig.task}, 1) := by
  have hnext : codec.chainNext
      (Canvas.member correlation plan.group total plan.callback sig now id) = none :=
    h.chainNext rfl
  refine ⟨⟨TaskMessage.lasting_of_none hnext, ?_⟩, TaskMessage.outlook_of_none hnext⟩
  intro group hg
  cases hg
  exact ⟨rfl, congrArg some htotal, rfl⟩

/-- What the members stand for. -/
theorem member_outlook {sigs : List Signature} (h : ∀ sig ∈ sigs, sig.Sole codec)
    (plan : Plan) (correlation : String) {total : UInt32} (htotal : total = UInt32.ofNat plan.size) :
    (Canvas.member correlation plan.group total plan.callback).outlook codec sigs =
      (tasksOf sigs, sigs.length) := by
  induction sigs with
  | nil => rfl
  | cons sig sigs ih =>
      have hsig := ((h sig List.mem_cons_self).member plan correlation htotal ⟨0⟩ ⟨0⟩).2
      have hrest := ih fun s hs => h s (List.mem_cons_of_mem sig hs)
      unfold Canvas.Make.outlook at hrest ⊢
      rw [List.map_cons, List.sum_cons, hsig, hrest, tasksOf_cons, List.length_cons]
      exact Prod.ext rfl (add_comm 1 sigs.length)

end Sending

namespace Canvas

/-- The members of a group and, of a chord, the callback. -/
def parts : Canvas → Option (List Signature × Option (List Signature))
  | .group members => some (flattenGroup members, none)
  | .chord members callback => some (flattenGroup members, some (flattenChain [callback]))
  | _ => none

/-- What `apply` sends can be read back, and names no other tasks. -/
def Ready (codec : Codec) : Canvas → Prop
  | .single sig => sig.Sole codec
  | .chain steps => Lasting codec (flattenChain steps)
  | .group members => ∀ sig ∈ flattenGroup members, sig.Sole codec
  | .chord members callback => (∀ sig ∈ flattenGroup members, sig.Sole codec) ∧
      ∃ sig ∈ (flattenChain [callback]).head?, sig.Sole codec

/-- The group has been announced, and none of its members has completed. -/
def Announced (u : TaskId) (sigs : List Signature) (sb : MemoryResultBackend) : Prop :=
  sb.groups.lookup u.toText = some ⟨groupTotal sigs, 0, []⟩

/-- A client that has not begun to send. -/
def Submission.Early (c : Canvas) (sb : MemoryResultBackend) : Submission → Prop
  | .fresh c' => c' = c
  | .grouping _ sigs callback => c.parts = some (sigs, callback)
  | .opening _ _ sigs callback => c.parts = some (sigs, callback)
  | .opened _ u sigs callback =>
      (∃ rest, c.parts = some (sigs, some (callback :: rest))) ∧ Announced u sigs sb
  | .dated _ u sigs callback _ =>
      (∃ rest, c.parts = some (sigs, some (callback :: rest))) ∧ Announced u sigs sb
  | _ => False

/-- A plan for a workflow. -/
structure Planned (codec : Codec) (c : Canvas) (plan : Plan) : Prop where
  base : plan.base = tasksOf c.submitted
  size : plan.size = c.memberCount
  called : plan.called codec = tasksOf c.calledBack.toList

end Canvas

/-- The workflow under way: the client has not begun to send, or what it sends is
balanced. -/
inductive Conducted (codec : Codec) (c : Canvas) (tr : List (inMemory codec).Label)
    (T : Multiset Token) (sb : MemoryResultBackend) : Prop where
  | early (s : Canvas.Submission) : dispatched tr = [] → s.Early c sb →
      T = {.held (.client s)} → Conducted codec c tr T sb
  | sent (plan : Plan) (k : Nat) : c.Planned codec plan → Balanced codec plan k tr T sb →
      Conducted codec c tr T sb

section Conducted

variable {codec : Codec} {c : Canvas} {plan : Plan} {tr : List (inMemory codec).Label}
  {sb sb' : MemoryResultBackend} {make : Canvas.Make} {sigs : List Signature}

/-- The client begins to send. -/
theorem Balanced.begin (htr : dispatched tr = []) (hmake : make.Belongs codec plan sigs)
    (hcallback : ∀ callback, plan.callback = some callback → callback.Lone codec)
    (houtlook : make.outlook codec sigs = (plan.base, plan.size))
    (hcounter : 0 < plan.size → ∃ g, sb.groups.lookup plan.group = some g ∧ g.completed = 0) :
    Balanced codec plan 0 tr {.held (.client (.feeding make sigs))} sb where
  belongs v hv := by
    obtain rfl := Multiset.mem_singleton.mp hv
    exact hmake
  callback := hcallback
  sums := by
    have hclient : Token.outlook codec (.held (.client (.feeding make sigs))) =
        make.outlook codec sigs := rfl
    rw [htr, outlook_singleton, hclient, houtlook, meets, Nat.count_zero, zero_nsmul, add_zero]
    exact zero_add _
  counter hsize := hcounter hsize

/-- One message, outside any group. -/
theorem conducted_of_lone {m : DateTime → TaskId → TaskMessage} {sig : Signature}
    {make : Canvas.Make} (hmake : make sig = m) (htr : dispatched tr = [])
    (hm : ∀ now id, (m now id).Lone codec ∧ (m now id).outlook codec = (tasksOf c.submitted, 0))
    (hcount : c.memberCount = 0) (hcalled : c.calledBack = none) :
    Conducted codec c tr {.held (.client (.feeding make [sig]))} sb := by
  subst hmake
  refine .sent ⟨tasksOf c.submitted, "", 0, none⟩ 0 ⟨rfl, hcount.symm, ?_⟩ ?_
  · rw [hcalled]
    rfl
  · refine .begin htr ?_ (lone_of_none rfl) ?_ fun hpos => absurd hpos (Nat.lt_irrefl 0)
    · intro x hx now id
      obtain rfl := List.mem_singleton.mp hx
      exact ⟨(hm now id).1.belongs, (hm now id).2.trans (hm ⟨0⟩ ⟨0⟩).2.symm⟩
    · rw [Canvas.Make.outlook, List.map_singleton, List.sum_singleton]
      exact (hm ⟨0⟩ ⟨0⟩).2

/-- The members of a group. -/
theorem conducted_of_members {correlation : String} {group : TaskId} {callback : Option TaskMessage}
    (htr : dispatched tr = []) (hsigs : ∀ sig ∈ sigs, sig.Sole codec)
    (hopen : Canvas.Announced group sigs sb)
    (hcallback : ∀ m, callback = some m → m.Lone codec)
    (hsubmitted : c.submitted = sigs) (hcount : c.memberCount = sigs.length)
    (hcalled : callback.elim 0 (fun m => (m.outlook codec).1) = tasksOf c.calledBack.toList) :
    Conducted codec c tr
      {.held (.client (.feeding
        (Canvas.member correlation group.toText (Canvas.groupTotal sigs) callback) sigs))} sb := by
  refine .sent ⟨tasksOf c.submitted, group.toText, sigs.length, callback⟩ 0
    ⟨rfl, hcount.symm, hcalled⟩ ?_
  refine .begin htr ?_ hcallback ?_ ?_
  · intro sig hsig now id
    obtain ⟨hbelongs, houtlook⟩ := (hsigs sig hsig).member
      ⟨tasksOf c.submitted, group.toText, sigs.length, callback⟩ correlation rfl now id
    obtain ⟨-, hsame⟩ := (hsigs sig hsig).member
      ⟨tasksOf c.submitted, group.toText, sigs.length, callback⟩ correlation rfl ⟨0⟩ ⟨0⟩
    exact ⟨hbelongs, houtlook.trans hsame.symm⟩
  · rw [hsubmitted]
    exact member_outlook hsigs ⟨tasksOf sigs, group.toText, sigs.length, callback⟩ correlation rfl
  · exact fun _ => ⟨_, hopen, rfl⟩

/-- The client knows its correlation identifier. -/
theorem conducted_begun (hready : c.Ready codec) (htr : dispatched tr = []) (correlation : String) :
    Conducted codec c tr {.held (.client (Canvas.begun codec correlation c))} sb := by
  cases c with
  | single sig =>
      exact conducted_of_lone rfl htr (fun now id => Signature.Sole.lone hready correlation now id)
        rfl rfl
  | chain steps =>
      have hlasting : Lasting codec (Canvas.flattenChain steps) := hready
      cases hflat : Canvas.flattenChain steps with
      | nil =>
          rw [Canvas.begun, hflat]
          refine .sent ⟨0, "", 0, none⟩ 0 ⟨?_, rfl, rfl⟩
            ⟨?_, lone_of_none rfl, ?_, fun hpos => absurd hpos (Nat.lt_irrefl 0)⟩
          · rw [Canvas.submitted, hflat]
            rfl
          · intro v hv
            obtain rfl := Multiset.mem_singleton.mp hv
            trivial
          · rw [htr, outlook_singleton]
            rfl
      | cons sig rest =>
          rw [Canvas.begun, hflat]
          rw [hflat] at hlasting
          refine conducted_of_lone rfl htr (fun now id => ?_) rfl rfl
          rw [Canvas.submitted, hflat]
          exact hlasting.head correlation now id
  | group members => exact .early (.grouping correlation _ none) htr rfl rfl
  | chord members callback => exact .early (.grouping correlation _ (some _)) htr rfl rfl

/-- The group has been announced. -/
theorem conducted_announced (hready : c.Ready codec) (htr : dispatched tr = []) {u : TaskId}
    {callback : Option (List Signature)} (hparts : c.parts = some (sigs, callback))
    (hopen : Canvas.Announced u sigs sb) (correlation : String) :
    Conducted codec c tr {.held (.client (Canvas.announced correlation u sigs callback))} sb := by
  cases c with
  | single sig => cases hparts
  | chain steps => cases hparts
  | group members =>
      cases hparts
      exact conducted_of_members htr hready hopen (lone_of_none rfl) rfl rfl rfl
  | chord members callback =>
      cases hparts
      obtain ⟨-, sig, hhead, -⟩ := hready
      cases hflat : Canvas.flattenChain [callback] with
      | nil =>
          rw [hflat] at hhead
          cases hhead
      | cons first rest =>
          refine .early (.opened correlation u _ first) htr ⟨⟨rest, ?_⟩, hopen⟩ rfl
          rw [Canvas.parts, hflat]

/-- The message of the callback has been made. -/
theorem conducted_called (hready : c.Ready codec) (htr : dispatched tr = []) {u : TaskId}
    {callback : Signature} {rest : List Signature}
    (hparts : c.parts = some (sigs, some (callback :: rest))) (hopen : Canvas.Announced u sigs sb)
    (correlation : String) (now : DateTime) (id : TaskId) :
    Conducted codec c tr {.held (.client (.feeding (Canvas.member correlation u.toText
      (Canvas.groupTotal sigs) (some (callback.intoMessage now id))) sigs))} sb := by
  cases c with
  | single sig => cases hparts
  | chain steps => cases hparts
  | group members => cases hparts
  | chord members c =>
      obtain ⟨rfl, hflat⟩ := Prod.mk.inj (Option.some.inj hparts)
      have hcalled : Canvas.calledBack (.chord members c) = some callback := by
        rw [Canvas.calledBack, Option.some.inj hflat]
        rfl
      obtain ⟨hmembers, sig, hhead, hsole⟩ := hready
      obtain rfl : callback = sig := Option.some.inj (hcalled.symm.trans hhead)
      obtain ⟨hlone, houtlook⟩ := hsole.called now id
      refine conducted_of_members htr hmembers hopen ?_ rfl rfl ?_
      · rintro m hm
        cases hm
        exact hlone
      · rw [hcalled]
        exact congrArg Prod.fst houtlook

/-- A step of a client that has not begun to send. -/
theorem Canvas.Submission.Early.step {s s' : Canvas.Submission} {op : memoryInterface.Op}
    {r : memoryInterface.Res op} (h : s.Early c sb) (hready : c.Ready codec)
    (htr : dispatched (tr ++ [.call ⟨op, r⟩]) = [])
    (hstep : Role.Step codec (.client s) op r (.client s'))
    (hback : BackendMove sb (.call ⟨op, r⟩ : (inMemory codec).Label) sb') :
    Conducted codec c (tr ++ [.call ⟨op, r⟩]) {.held (.client s')} sb' := by
  cases hstep with
  | clientRuntime hstep =>
      obtain rfl := hback
      cases hstep with
      | tag c' u =>
          obtain rfl : c' = c := h
          exact conducted_begun hready htr u.toText
      | group correlation sigs callback u =>
          exact .early (.opening correlation u sigs callback) htr h rfl
      | date correlation u sigs callback now =>
          exact .early (.dated correlation u sigs callback now) htr h rfl
      | callback correlation u sigs callback now id =>
          obtain ⟨⟨rest, hparts⟩, hopen⟩ := h
          exact conducted_called hready htr hparts hopen correlation now id
      | stamp make sig rest now => exact h.elim
      | make make sig rest now id => exact h.elim
  | clientBackend hstep =>
      obtain ⟨o, hanswer⟩ := hback
      cases hstep with
      | announce correlation u sigs callback =>
          cases hanswer
          have hopen : Canvas.Announced u sigs
              (sb.initGroup u.toText (Canvas.groupTotal sigs)) := AList.lookup_insert sb.groups
          exact conducted_announced hready htr h hopen correlation
      | refuse correlation u sigs callback e => cases hanswer
  | clientEnqueue hstep =>
      cases hstep with
      | send m make rest => exact h.elim

/-- A rule keeps the workflow under way. -/
theorem Conducted.of_rule {before after rest : Multiset Token} {l : (inMemory codec).Label}
    (h : Conducted codec c tr (before + rest) sb) (hready : c.Ready codec)
    (hrule : Rule before l after) (hsmooth : smooth l = true) (hback : BackendMove sb l sb') :
    Conducted codec c (tr ++ [l]) (after + rest) sb' := by
  cases h with
  | sent plan k hplan hbalanced =>
      obtain ⟨k', hbalanced'⟩ := hbalanced.of_rule hrule hsmooth hback
      exact .sent plan k' hplan hbalanced'
  | early s htr hearly htokens =>
      -- the only token is the client's
      have hsole : ∀ {v : Token} {rest : Multiset Token}, {v} + rest = {.held (.client s)} →
          v = .held (.client s) ∧ rest = 0 := by
        intro v rest heq
        rw [Multiset.singleton_add, ← Multiset.cons_zero (Token.held (.client s))] at heq
        rcases Multiset.cons_eq_cons.mp heq with hsame | ⟨-, still, -, hzero⟩
        · exact hsame
        · exact absurd hzero.symm (Multiset.cons_ne_zero)
      have hquiet : ∀ {e : Event memoryInterface}, dispatch? (.call e : (inMemory codec).Label) = none →
          dispatched (tr ++ [.call e]) = [] := by
        intro e hnone
        rw [dispatched_append, htr]
        exact List.filterMap_cons_none hnone
      cases hrule with
      | arrive m => exact absurd hsmooth Bool.false_ne_true
      | outside o op => exact absurd hsmooth Bool.false_ne_true
      | note hmark =>
          obtain rfl := hback
          exact .early s (hquiet rfl) hearly htokens
      | clientRuntime hstep =>
          obtain ⟨heq, rfl⟩ := hsole htokens
          cases heq
          refine hearly.step hready (hquiet ?_) (.clientRuntime hstep) hback
          cases hstep <;> rfl
      | clientBackend hstep =>
          obtain ⟨heq, rfl⟩ := hsole htokens
          cases heq
          exact hearly.step hready (hquiet rfl) (.clientBackend hstep) hback
      | clientEnqueue hstep =>
          obtain ⟨heq, rfl⟩ := hsole htokens
          cases heq
          cases hstep with
          | send m make rest => exact hearly.elim
      | _ => cases (hsole htokens).1

/-- Every history leaves the workflow under way. -/
theorem conducted_of_reach (hready : c.Ready codec) {tr : List (inMemory codec).Label}
    {end_ : RoleConfig MemoryResultBackend.service codec}
    (h : RoleReach ⟨(MemoryBroker.new, MemoryResultBackend.new), [.client (.fresh c)]⟩ tr end_)
    (hsmooth : ∀ l ∈ tr, smooth l = true) :
    Conducted codec c tr (ledger end_.state.1 end_.stages) end_.state.2 := by
  induction h with
  | start => exact .early (.fresh c) rfl rfl rfl
  | @step tr c' c'' l _ hstep ih =>
      have hledger := ledgerStep_of_roleStep hstep
      obtain ⟨before, after, rest, hrule, hbefore, hafter, -⟩ := hledger.tokens
      have hkept := ih fun x hx => hsmooth x (List.mem_append.mpr (.inl hx))
      rw [hbefore] at hkept
      rw [hafter]
      exact hkept.of_rule hready hrule
        (hsmooth l (List.mem_append.mpr (.inr (List.mem_singleton_self l)))) hledger.backend

/-! ## When no message is left -/

variable {b : MemoryBroker} {rs : List Role}

/-- A token of the workflow that is no message in a queue and no thread at work stands for
nothing. -/
theorem Token.Belongs.outlook_of_rest {v : Token} (h : v.Belongs codec plan)
    (hv : v ∈ ledger b rs) (hqueues : b.queues.contents = 0) (hfinal : ∀ r ∈ rs, r.Final) :
    v.outlook codec = 0 := by
  rcases mem_ledger hv with ⟨m, hm, rfl⟩ | ⟨m, hm, rfl⟩ | ⟨r, hr, rfl⟩
  · rw [hqueues] at hm
    exact absurd hm (Multiset.notMem_zero m)
  · exact h.elim
  · have hr' := hfinal r hr
    cases r with
    | settling s => exact hr'.elim
    | exec t => cases t <;> first | rfl | exact hr'.elim
    | client s =>
        cases s with
        | feeding make sigs =>
            cases sigs with
            | nil => rfl
            | cons sig sigs => exact hr'.elim
        | _ => first | rfl | exact hr'.elim

/-- What has been dispatched when no message is left. -/
theorem Balanced.at_rest {k : Nat} (h : Balanced codec plan k tr (ledger b rs) sb)
    (hqueues : b.queues.contents = 0) (hfinal : ∀ r ∈ rs, r.Final) :
    (dispatched tr : Multiset (String × Json)) =
      plan.base + meets plan.size plan.size • plan.called codec := by
  have hzero : outlook codec (ledger b rs) = 0 := by
    refine Multiset.sum_eq_zero fun x hx => ?_
    obtain ⟨v, hv, rfl⟩ := Multiset.mem_map.mp hx
    exact (h.belongs v hv).outlook_of_rest hv hqueues hfinal
  have hsums := h.sums
  rw [hzero, add_zero] at hsums
  obtain ⟨hdispatched, rfl⟩ := Prod.mk.inj hsums
  exact hdispatched

/-- What a whole run dispatches: the tasks that are sent, and the callback of the
chord as often as the counter meets the total. -/
theorem Conducted.at_rest (h : Conducted codec c tr (ledger b rs) sb)
    (hqueues : b.queues.contents = 0) (hfinal : ∀ r ∈ rs, r.Final) :
    (dispatched tr : Multiset (String × Json)) = tasksOf c.submitted +
      ((c.memberCount + (UInt32.size - 1)) / UInt32.size) • tasksOf c.calledBack.toList := by
  cases h with
  | early s _ hearly htokens =>
      have hmem : Token.held (.client s) ∈ ledger b rs :=
        htokens ▸ Multiset.mem_singleton_self _
      rcases mem_ledger hmem with ⟨m, -, heq⟩ | ⟨m, -, heq⟩ | ⟨r, hr, heq⟩
      · cases heq
      · cases heq
      · cases heq
        have hs : s.Final := hfinal _ hr
        cases s <;> first | exact hs.elim | exact hearly.elim
  | sent plan k hplan hbalanced =>
      rw [hbalanced.at_rest hqueues hfinal, hplan.base, hplan.size, hplan.called, meets_self]

end Conducted

/-! ## The leaves of a workflow -/

namespace Canvas

/-- The leaves of a list of single tasks. -/
theorem leavesOf_map_single (sigs : List Signature) : leavesOf (sigs.map .single) = sigs := by
  induction sigs with
  | nil => rw [List.map_nil, leavesOf]
  | cons sig sigs ih => rw [List.map_cons, leavesOf, leaves, ih, List.singleton_append]

/-- A nested chain in a list of its own. -/
theorem flattenChain_singleton {c : Canvas} (h : c.Linear) : flattenChain [c] = c.leaves := by
  rw [flattenChain, flattenStep_eq c h, flattenChain, List.append_nil]

/-- What the headers of the workflow are for: they can be read back, and those of the
leaves themselves name no further tasks. -/
structure Plain (codec : Codec) (c : Canvas) : Prop where
  decode : ∀ sig rest, sig :: rest <:+ c.leaves →
    codec.decodeSignatures (encodeSignatures codec.rfc3339 (sig :: rest)) = .ok (sig :: rest)
  sole : ∀ sig ∈ c.leaves, sig.Sole codec

variable {codec : Codec} {c : Canvas}

theorem Plain.ready (h : c.Plain codec) (hc : c.Supported) : c.Ready codec := by
  cases c with
  | single sig => exact h.sole sig (by rw [leaves]; exact List.mem_singleton_self sig)
  | chain steps =>
      have hflat : flattenChain steps = (Canvas.chain steps).leaves := by
        rw [leaves]
        exact flattenChain_eq steps hc
      refine ⟨fun sig rest hsuffix => h.decode sig rest (hflat ▸ hsuffix), fun sig hsig => ?_⟩
      exact h.sole sig (hflat ▸ List.mem_of_getLast? hsig)
  | group members =>
      obtain ⟨sigs, rfl⟩ := hc
      intro sig hsig
      rw [flattenGroup_map_single] at hsig
      refine h.sole sig ?_
      rw [leaves, leavesOf_map_single]
      exact hsig
  | chord members callback =>
      obtain ⟨⟨sigs, rfl⟩, hlinear, hne⟩ := hc
      have hleaves : (Canvas.chord (sigs.map .single) callback).leaves = sigs ++ callback.leaves := by
        rw [leaves, leavesOf_map_single]
      refine ⟨fun sig hsig => h.sole sig ?_, ?_⟩
      · rw [flattenGroup_map_single] at hsig
        rw [hleaves]
        exact List.mem_append.mpr (.inl hsig)
      · obtain ⟨first, rest, hcons⟩ := List.exists_cons_of_ne_nil hne
        refine ⟨first, ?_, h.sole first ?_⟩
        · rw [flattenChain_singleton hlinear, hcons]
          rfl
        · rw [hleaves, hcons]
          exact List.mem_append.mpr (.inr List.mem_cons_self)

/-- The callback of a chord is a task as often as the counter of its members meets their
number. -/
def Answered : Canvas → Prop
  | .chord members callback => ∃ task, callback.leaves.map Signature.task =
      List.replicate ((members.length + (UInt32.size - 1)) / UInt32.size) task
  | _ => True

theorem add_nsmul_uncalled (base : Multiset (String × Json)) (n : Nat) :
    base + n • tasksOf (none : Option Signature).toList = base :=
  (congrArg (base + ·) (nsmul_zero n)).trans (add_zero base)

/-- What a run dispatches of a workflow is its leaves if the callback is answered. -/
theorem Supported.leaves_iff (hc : c.Supported) :
    tasksOf c.submitted + ((c.memberCount + (UInt32.size - 1)) / UInt32.size) •
      tasksOf c.calledBack.toList = tasksOf c.leaves ↔ c.Answered := by
  cases c with
  | single sig =>
      rw [leaves]
      exact iff_of_true (add_nsmul_uncalled _ _) trivial
  | chain steps =>
      rw [leaves, ← flattenChain_eq steps hc]
      exact iff_of_true (add_nsmul_uncalled _ _) trivial
  | group members =>
      obtain ⟨sigs, rfl⟩ := hc
      rw [leaves, leavesOf_map_single, submitted, flattenGroup_map_single]
      exact iff_of_true (add_nsmul_uncalled _ _) trivial
  | chord members callback =>
      obtain ⟨⟨sigs, rfl⟩, hlinear, hne⟩ := hc
      obtain ⟨first, rest, hcons⟩ := List.exists_cons_of_ne_nil hne
      have hcalled : tasksOf (calledBack (.chord (sigs.map .single) callback)).toList =
          {first.task} := by
        rw [calledBack, flattenChain_singleton hlinear, hcons]
        rfl
      rw [hcalled, leaves, leavesOf_map_single, tasksOf_append, memberCount, submitted,
        flattenGroup_map_single, add_right_inj, Multiset.nsmul_singleton, Answered,
        List.length_map, tasksOf, ← Multiset.coe_replicate, Multiset.coe_eq_coe, List.perm_comm,
        List.perm_replicate]
      refine ⟨fun heq => ⟨_, heq⟩, ?_⟩
      rintro ⟨task, heq⟩
      have hfirst : first.task ∈ callback.leaves.map Signature.task := by
        rw [hcons]
        exact List.mem_cons_self
      rw [heq] at hfirst ⊢
      rw [List.eq_of_mem_replicate hfirst]

end Canvas

/-! ## Whole runs -/

section Runs

variable {codec : Codec} {c : Canvas} {tr : List (inMemory codec).Label}
  {final : (inMemory codec).Config}

/-- The leaves of a workflow are dispatched when it is run by workers until no message
is left and everything succeeds, if and only if it is no chord, or a chord whose callback
is answered: for up to `2 ^ 32` members it is a single task and there is a member, and
without members it is never dispatched. -/
theorem leaves_dispatched_iff (hc : c.Supported) (hplain : c.Plain codec)
    (hreach : (inMemory codec).Reach
      (memoryStart MemoryResultBackend.service codec MemoryResultBackend.new [c]) tr final)
    (hsmooth : ∀ l ∈ tr, smooth l = true) (hrest : Exhausted final) :
    (dispatched tr : Multiset (String × Json)) = tasksOf c.leaves ↔ c.Answered := by
  obtain ⟨rs, hroles, hfollows⟩ := reach_roles hreach
  have hconducted := conducted_of_reach (hplain.ready hc) hroles hsmooth
  rw [hconducted.at_rest hrest.queues (final_of_returned hfollows hrest.threads)]
  exact hc.leaves_iff

end Runs

/-- A chord of these members, with the plain task for its callback. -/
def plainChord (members : List Canvas) : Canvas := .chord members (.single plainSignature)

/-- A client is about to submit it. -/
def chordOrigin (members : List Canvas) : (inMemory plainCodec).Config :=
  memoryStart MemoryResultBackend.service plainCodec MemoryResultBackend.new [plainChord members]

/-- A thread makes `n` calls. -/
def chordTurns (i n : Nat) (id : TaskId) : List (inMemory plainCodec).Move :=
  List.replicate n (.run i ⟨drawing id, (), ()⟩)

/-- The only member is executed, then the callback. -/
def chordMoves : List (inMemory plainCodec).Move :=
  let w : Worker := ⟨["t"], [], true⟩
  chordTurns 0 8 ⟨1⟩ ++ .env (.poll w ["q"]) :: chordTurns 1 10 ⟨2⟩ ++
    .env (.poll w ["q"]) :: chordTurns 2 5 ⟨3⟩

theorem chord_plays : ((chordOrigin [.single plainSignature]).playAll chordMoves).isSome = true := by
  decide +kernel

/-- Where that leads. -/
def chordEnd : List (inMemory plainCodec).Label × (inMemory plainCodec).Config :=
  ((chordOrigin [.single plainSignature]).playAll chordMoves).get chord_plays

/-- Without members nothing is left to do once it has been submitted. -/
theorem emptyChord_plays : ((chordOrigin []).playAll (chordTurns 0 5 ⟨1⟩)).isSome = true := by
  decide +kernel

/-- Where that leads. -/
def emptyChordEnd : List (inMemory plainCodec).Label × (inMemory plainCodec).Config :=
  ((chordOrigin []).playAll (chordTurns 0 5 ⟨1⟩)).get emptyChord_plays

theorem plainChord_leaves (sigs : List Signature) :
    (plainChord (sigs.map .single)).leaves = sigs ++ [plainSignature] := by
  rw [plainChord, Canvas.leaves, Canvas.leavesOf_map_single, Canvas.leaves]

theorem plainChord_supported (sigs : List Signature) :
    (plainChord (sigs.map .single)).Supported := by
  refine ⟨⟨sigs, rfl⟩, ?_, ?_⟩
  · rw [Canvas.Linear]
    trivial
  · rw [Canvas.leaves]
    exact List.cons_ne_nil _ _

/-- The headers of the chord with one member. -/
theorem plainChord_plain : (plainChord [.single plainSignature]).Plain plainCodec := by
  have hleaves : (plainChord [.single plainSignature]).leaves = Canvas.leavesOf nestedPair :=
    (plainChord_leaves [plainSignature]).trans nested_leaves.symm
  refine ⟨fun sig rest hsuffix => ?_, fun sig hsig => ?_⟩
  · exact nested_legible.decode (sig :: rest) (hleaves ▸ hsuffix)
  · rw [hleaves, nested_leaves] at hsig
    obtain rfl : sig = plainSignature := by simpa using hsig
    rfl

theorem chord_smooth : ∀ l ∈ chordEnd.1, smooth l = true := by
  have hall : chordEnd.1.all smooth = true := by decide +kernel
  exact List.all_eq_true.mp hall

theorem chord_exhausted : Exhausted chordEnd.2 where
  queues := Multiset.card_eq_zero.mp (by decide +kernel)
  threads q hq := by
    have hthreads : chordEnd.2.threads = [.ret (), .ret (), .ret ()] := rfl
    rw [hthreads] at hq
    simpa using hq

/-- The member and the callback are dispatched, which are the two leaves. -/
theorem leaves_dispatched_iff_chord :
    (dispatched chordEnd.1).map Prod.fst = ["t", "t"] ∧
      ((dispatched chordEnd.1 : Multiset (String × Json)) =
        tasksOf (plainChord [.single plainSignature]).leaves ↔
        (plainChord [.single plainSignature]).Answered) := by
  have hreach : (inMemory plainCodec).Reach (chordOrigin [.single plainSignature]) chordEnd.1
      chordEnd.2 := Machine.Config.reach_of_get chord_plays
  exact ⟨by decide +kernel, leaves_dispatched_iff (plainChord_supported [plainSignature])
    plainChord_plain hreach chord_smooth chord_exhausted⟩

/-- The callback of a chord without members is never dispatched, although nothing
fails and no message is left. -/
theorem emptyChord_not_dispatched :
    (plainChord []).Supported ∧ (plainChord []).Plain plainCodec ∧
      (inMemory plainCodec).Reach (chordOrigin []) emptyChordEnd.1 emptyChordEnd.2 ∧
      (∀ l ∈ emptyChordEnd.1, smooth l = true) ∧ Exhausted emptyChordEnd.2 ∧
      dispatched emptyChordEnd.1 = [] ∧ (plainChord []).leaves = [plainSignature] ∧
      (dispatched emptyChordEnd.1 : Multiset (String × Json)) ≠ tasksOf (plainChord []).leaves := by
  have hleaves : (plainChord []).leaves = [plainSignature] := plainChord_leaves []
  have hnone : dispatched emptyChordEnd.1 = [] := rfl
  have hsmooth : emptyChordEnd.1.all smooth = true := by decide +kernel
  refine ⟨plainChord_supported [], ⟨fun sig rest hsuffix => ?_, fun sig hsig => ?_⟩,
    Machine.Config.reach_of_get emptyChord_plays, List.all_eq_true.mp hsmooth, ⟨?_, ?_⟩, hnone,
    hleaves, ?_⟩
  · refine nested_legible.decode (sig :: rest) ?_
    rw [nested_leaves]
    exact (hleaves ▸ hsuffix).trans (List.suffix_cons _ _)
  · rw [hleaves] at hsig
    obtain rfl := List.mem_singleton.mp hsig
    rfl
  · exact Multiset.card_eq_zero.mp (by decide +kernel)
  · have hthreads : emptyChordEnd.2.threads = [.ret ()] := rfl
    intro q hq
    rw [hthreads] at hq
    simpa using hq
  · rw [hnone, hleaves]
    exact fun heq => absurd (congrArg Multiset.card heq) (by decide)

end Kojin.Core
