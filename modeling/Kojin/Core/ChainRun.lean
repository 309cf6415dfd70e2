/-
  Core/ChainRun.lean --- a chain on the in-memory broker (`kojin-core`: `canvas.rs`,
  `worker.rs`).

  A client submits a chain of nested single tasks and chains, and workers with a result
  backend execute its messages, among those of other workflows and producers.  Whatever
  the handlers answer and however the calls interleave, the messages of the chain are
  made and succeed in the order of its leaves.

  THE INVARIANT.  At most one token of the ledger is at work for the chain: the client
  until the first message is in its queue, a copy of the message that was made last, or
  the execution that has succeeded with it, until that has made the next.  All other
  tokens carry strangers, messages with another correlation id, or have done their part.
-/
import Kojin.Core.ChainSteps
import Kojin.Core.GroupAccount
import Kojin.Core.Results

set_option autoImplicit false

namespace Kojin.Core

open Kojin.Foundation

variable {S : Service resultBackendTrait} {codec : Codec}

/-! ## What a history shows of a workflow -/

/-- What a step shows of the workflow with this correlation id. -/
def chainEvent (id : String) : (memorySystem S codec).Label → Option ChainEvent
  | .call ⟨.broker (.enqueue m), _⟩ =>
      if m.correlationId = some id then some (.created m) else none
  | .call ⟨.broker (.deliver (.deadLetter m)), _⟩ =>
      if m.correlationId = some id then some (.buried m) else none
  | .call ⟨.runtime (.handle m _ _), .ok result⟩ =>
      if m.correlationId = some id then some (.succeeded m result) else none
  | _ => none

/-- What a history shows of it, in order. -/
def chainEvents (id : String) (tr : List (memorySystem S codec).Label) : List ChainEvent :=
  tr.filterMap (chainEvent id)

/-! ## Strangers -/

/-- The message does not have this correlation id, and neither do the callbacks in it. -/
inductive TaskMessage.Stranger (id : String) : TaskMessage → Prop where
  | mk {m : TaskMessage} : m.correlationId ≠ some id →
      (∀ callback, m.chordCallback = some callback → TaskMessage.Stranger id callback) →
      TaskMessage.Stranger id m

namespace TaskMessage.Stranger

variable {id : String} {m m' : TaskMessage}

theorem correlation (h : m.Stranger id) : m.correlationId ≠ some id := by
  cases h with
  | mk hcorrelation _ => exact hcorrelation

theorem callback {x : TaskMessage} (h : m.Stranger id) (hx : m.chordCallback = some x) :
    x.Stranger id := by
  cases h with
  | mk _ hcallback => exact hcallback x hx

/-- Being a stranger is a matter of the correlation id and the callback alone. -/
theorem congr (h : m.Stranger id) (hcorrelation : m'.correlationId = m.correlationId)
    (hcallback : m'.chordCallback = m.chordCallback) : m'.Stranger id :=
  .mk (hcorrelation ▸ h.correlation) fun _ hc => h.callback (hcallback ▸ hc)

/-- The next step of a stranger is one. -/
theorem chainStep (h : m.Stranger id) (codec : Codec) (result : Json) (sig : Signature)
    (rest : List Signature) (now : DateTime) (task : TaskId) :
    (m.chainStep codec result sig rest now task).Stranger id := by
  obtain ⟨-, hcallback, -⟩ := chainStep_plain codec m result sig rest now task
  have hcorrelation : (m.chainStep codec result sig rest now task).correlationId =
      m.correlationId := by
    unfold TaskMessage.chainStep
    cases m.correlationId <;> cases rest <;> rfl
  exact .mk (hcorrelation ▸ h.correlation) fun _ hc => by rw [hcallback] at hc; cases hc

theorem withGroupResults (h : m.Stranger id) (r : TaskResult (List Json)) :
    (m.withGroupResults r).Stranger id := by
  cases r with
  | ok results => exact h.congr rfl rfl
  | error e => exact h

end TaskMessage.Stranger

/-- The profile of strangers. -/
def strangers (id : String) : Profile :=
  ⟨TaskMessage.Stranger id, TaskMessage.Stranger id, TaskMessage.Stranger id,
    TaskMessage.Stranger id⟩

theorem strangers_closed (id : String) : (strangers id).Closed :=
  fun _ _ h => ⟨h.congr rfl rfl, h.congr rfl rfl⟩

/-- An execution that has made its next step, or has run to its end. -/
def Stage.Spent : Stage → Prop
  | .chained _ _ => True
  | .finished _ _ => True
  | _ => False

/-- A token that is not at work for the workflow with this id. -/
def Token.Apart (id : String) : Token → Prop
  | .waiting m => m.Stranger id
  | .buried _ => True
  | .held (.exec t) => t.Kind (strangers id) ∨ t.Spent
  | .held (.settling s) => s.message.Stranger id
  | .held (.client s) => s.Final

/-- A history in which the workflow that is submitted has the given id and no other
message has it, and in which every worker has the result backend. -/
structure Isolated (id : String) (tr : List (memorySystem S codec).Label) : Prop where
  ownId : ∀ u ∈ uuids tr, u.toText = id
  producers : ∀ m, .env (.enqueue m) ∈ tr → m.Stranger id
  equipped : ∀ w queues, .env (.poll w queues) ∈ tr → w.hasBackend = true

theorem Isolated.init {id : String} {tr tr' : List (memorySystem S codec).Label}
    (h : Isolated id (tr ++ tr')) : Isolated id tr where
  ownId u hu := h.ownId u (by rw [uuids_append]; exact List.mem_append.mpr (.inl hu))
  producers m hm := h.producers m (List.mem_append.mpr (.inl hm))
  equipped w queues hw := h.equipped w queues (List.mem_append.mpr (.inl hw))

section Apart

variable {id : String}

/-- A call of the runtime by an execution that is apart. -/
theorem Stage.Step.apart_of_runtime {t t' : Stage} {op : RuntimeOp} {r : op.Res}
    (hstep : Stage.Step codec t (.runtime op) r t')
    (h : (Token.held (.exec t)).Apart id) :
    (Token.held (.exec t')).Apart id ∧
      chainEvent id (.call ⟨.runtime op, r⟩ : (memorySystem S codec).Label) = none := by
  rcases h with hkind | hspent
  · refine ⟨.inl (hstep.kind_of_runtime (strangers_closed id) ?_ hkind), ?_⟩
    · exact fun m result sig rest now task hm _ => hm.chainStep codec result sig rest now task
    · cases hstep with
      | handled b m result => exact if_neg hkind.2.correlation
      | _ => rfl
  · cases hstep with
    | note t hmark => exact ⟨.inr hspent, rfl⟩
    | completeChained m result => exact ⟨.inr trivial, rfl⟩
    | _ => exact hspent.elim

/-- A call of the backend by one. -/
theorem Stage.Step.apart_of_backend {t t' : Stage} {op : ResultBackendOp} {r : op.Res}
    (hstep : Stage.Step codec t (.backend op) r t') (h : (Token.held (.exec t)).Apart id) :
    (Token.held (.exec t')).Apart id := by
  rcases h with hkind | hspent
  · refine .inl ?_
    cases hstep with
    | storeMember result r hg => exact hkind.2
    | storeLone result r hg => exact hkind.2
    | @countLast m callback group result c hg hdue =>
        have hcallback : m.chordCallback = some callback :=
          (Option.ite_none_right_eq_some.mp hdue).2
        exact ⟨hkind, TaskMessage.Stranger.callback hkind hcallback⟩
    | collect result callback r hg => exact ⟨hkind.1, hkind.2.withGroupResults r⟩
    | _ => exact hkind
  · cases hstep <;> exact hspent.elim

/-- A step of tokens that are apart leaves tokens that are, and shows nothing of the
workflow. -/
theorem Rule.apart {before after : Multiset Token} {l : (memorySystem S codec).Label}
    (hrule : Rule before l after) {tr : List (memorySystem S codec).Label}
    (halone : Isolated id (tr ++ [l])) (h : ∀ v ∈ before, v.Apart id) :
    (∀ v ∈ after, v.Apart id) ∧ chainEvent id l = none := by
  have hl : l ∈ tr ++ [l] := List.mem_append.mpr (.inr (List.mem_singleton.mpr rfl))
  have hself : ∀ {v : Token}, v ∈ ({v} : Multiset Token) := Multiset.mem_singleton_self _
  have hone : ∀ {v : Token}, v.Apart id → ∀ u ∈ ({v} : Multiset Token), u.Apart id := by
    intro v hv u hu
    obtain rfl := Multiset.mem_singleton.mp hu
    exact hv
  cases hrule with
  | arrive m => exact ⟨hone (halone.producers m hl), rfl⟩
  | outside o op => exact ⟨nofun, rfl⟩
  | poll w queues m => exact ⟨hone (.inl ⟨halone.equipped w queues hl, h _ hself⟩), rfl⟩
  | note hmark => exact ⟨nofun, rfl⟩
  | runtime hstep _ =>
      obtain ⟨hapart, hevent⟩ := hstep.apart_of_runtime (S := S) (h _ hself)
      exact ⟨hone hapart, hevent⟩
  | backend hstep => exact ⟨hone (hstep.apart_of_backend (h _ hself)), rfl⟩
  | @enqueue t t' m hstep =>
      rcases (h _ hself : t.Kind (strangers id) ∨ t.Spent) with hkind | hspent
      · obtain ⟨hkind', hm⟩ := hstep.kind_of_enqueue hkind
        have hstranger : m.Stranger id := hm.elim (fun h => h) fun h => h
        refine ⟨?_, if_neg hstranger.correlation⟩
        intro v hv
        rcases Multiset.mem_cons.mp hv with rfl | hv
        · exact hstranger
        · obtain rfl := Multiset.mem_singleton.mp hv
          exact .inl hkind'
      · cases hstep <;> exact hspent.elim
  | @ack t t' i hstep =>
      rcases (h _ hself : t.Kind (strangers id) ∨ t.Spent) with hkind | hspent
      · exact ⟨hone (.inl (hstep.kind_of_ack hkind)), rfl⟩
      · cases hstep <;> exact hspent.elim
  | schedule m eta =>
      have hm : (Stage.released m eta).Kind (strangers id) :=
        (h _ hself).resolve_right fun hspent => hspent
      exact ⟨hone hm, rfl⟩
  | @release t s hstep =>
      rcases (h _ hself : t.Kind (strangers id) ∨ t.Spent) with hkind | hspent
      · exact ⟨hone (hstep.kind_of_release hkind), rfl⟩
      · cases s <;> cases hstep <;> exact hspent.elim
  | requeue m =>
      have hm : m.Stranger id := h _ hself
      exact ⟨hone hm, rfl⟩
  | bury m =>
      have hm : m.Stranger id := h _ hself
      exact ⟨hone trivial, if_neg hm.correlation⟩
  | clientRuntime hstep =>
      have hfinal := h _ hself
      cases hstep <;> exact hfinal.elim
  | clientBackend hstep =>
      have hfinal := h _ hself
      cases hstep <;> exact hfinal.elim
  | clientEnqueue hstep =>
      have hfinal := h _ hself
      cases hstep
      exact hfinal.elim

end Apart

/-! ## The token that is at work -/

section Carries

variable (codec : Codec) (id : String)

/-- A copy of the message that was made last. -/
def ChainPhase.Sent (p : ChainPhase) (x : TaskMessage) : Prop :=
  ∃ m sig rest input, p = .running m rest ∧ x.SameTask m ∧ m.StepOf codec id sig rest input

/-- A copy of the message whose handler succeeded last, with this result. -/
def ChainPhase.Won (p : ChainPhase) (x : TaskMessage) (result : Json) : Prop :=
  ∃ sig rest input, p = .next rest (some result) ∧ x.StepOf codec id sig rest input

/-- An execution at work for the chain. -/
def Stage.Carries (p : ChainPhase) : Stage → Prop
  | .received b m => b = true ∧ p.Sent codec id m
  | .cleared b m => b = true ∧ p.Sent codec id m
  | .postponed m _ => p.Sent codec id m
  | .released m _ => p.Sent codec id m
  | .running b m => b = true ∧ p.Sent codec id m
  | .erred m => p.Sent codec id m
  | .failed m => p.Sent codec id m
  | .toRetry m => p.Sent codec id m
  | .toBury m => p.Sent codec id m
  | .succeeded b m result => b = true ∧ p.Won codec id m result
  | .acked b m result => b = true ∧ p.Won codec id m result
  | .wrapping m result => p.Won codec id m result
  | .minting m result _ => p.Won codec id m result
  | .continuing _ result next => ∃ sig rest, p = .next (sig :: rest) (some result) ∧
      next.StepOf codec id sig rest (some result)
  | .stored _ _ => False
  | .calling _ _ _ => False
  | .collected _ _ _ => False
  | .chained _ _ => False
  | .finished _ _ => False
  | .gone => False

/-- The client, until it has enqueued the first message. -/
def Canvas.Submission.Carries (steps : List Canvas) (p : ChainPhase) : Canvas.Submission → Prop
  | .fresh c => c = .chain steps ∧ p = .next (Canvas.flattenChain steps) none
  | .feeding make sigs => ∃ sig rest, sigs = [sig] ∧ make = Canvas.chainHead codec id rest ∧
      p = .next (sig :: rest) none
  | .stamping make sig others _ => others = [] ∧ ∃ rest, make = Canvas.chainHead codec id rest ∧
      p = .next (sig :: rest) none
  | .sending m _ others => others = [] ∧ ∃ sig rest, p = .next (sig :: rest) none ∧
      m.StepOf codec id sig rest none
  | _ => False

/-- A token at work for the chain. -/
def Token.Carries (steps : List Canvas) (p : ChainPhase) : Token → Prop
  | .waiting m => p.Sent codec id m
  | .buried _ => False
  | .held (.exec t) => t.Carries codec id p
  | .held (.settling s) => p.Sent codec id s.message
  | .held (.client s) => s.Carries codec id steps p

/-- The tokens at work: one, unless nothing is left to be made. -/
def AtWork (steps : List Canvas) (p : ChainPhase) (T : Multiset Token) : Prop :=
  (p.Over ∧ T = 0) ∨ ∃ v, T = {v} ∧ v.Carries codec id steps p

/-- The phase before and after a step that shows this of the chain. -/
def ChainPhase.Moves (p : ChainPhase) (e : Option ChainEvent) (p' : ChainPhase) : Prop :=
  match e with
  | none => p' = p
  | some e => ChainMove codec id p e p'

end Carries

/-! ## A step of the token at work -/

section Work

variable {id : String} {steps : List Canvas} {p : ChainPhase}

theorem ChainPhase.Sent.copy {x y : TaskMessage} (h : p.Sent codec id x)
    (hxy : ∀ m : TaskMessage, x.SameTask m → y.SameTask m) : p.Sent codec id y := by
  obtain ⟨m, sig, rest, input, hp, hx, hm⟩ := h
  exact ⟨m, sig, rest, input, hp, hxy m hx, hm⟩

theorem ChainPhase.Sent.correlation {x : TaskMessage} (h : p.Sent codec id x) :
    x.correlationId = some id := by
  obtain ⟨m, sig, rest, input, -, hx, hm⟩ := h
  exact (hm.copy hx).correlation

/-- What a step leaves of the token at work: the chain has moved as the step shows, and
the tokens are one at work, if any, and others that are apart. -/
def LeavesWork (codec : Codec) (id : String) (steps : List Canvas) (p : ChainPhase)
    (e : Option ChainEvent) (after : Multiset Token) : Prop :=
  ∃ p' work others, after = work + others ∧ p.Moves codec id e p' ∧
    AtWork codec id steps p' work ∧ ∀ v ∈ others, v.Apart id

/-- The token moves on. -/
theorem LeavesWork.of_token {e : Option ChainEvent} {p' : ChainPhase} {v : Token}
    (hmove : p.Moves codec id e p') (hv : v.Carries codec id steps p') :
    LeavesWork codec id steps p e {v} :=
  ⟨p', {v}, 0, (add_zero _).symm, hmove, .inr ⟨v, rfl, hv⟩, nofun⟩

/-- The token has done its part, and nothing is left to be made. -/
theorem LeavesWork.of_over {e : Option ChainEvent} {p' : ChainPhase} {v : Token}
    (hmove : p.Moves codec id e p') (hover : p'.Over) (hv : v.Apart id) :
    LeavesWork codec id steps p e {v} := by
  refine ⟨p', 0, {v}, (zero_add _).symm, hmove, .inl ⟨hover, rfl⟩, ?_⟩
  intro u hu
  obtain rfl := Multiset.mem_singleton.mp hu
  exact hv

/-- The token has made the next message. -/
theorem LeavesWork.of_created {m : TaskMessage} {sig : Signature} {rest : List Signature}
    {input : Option Json} {v : Token} (hp : p = .next (sig :: rest) input)
    (hm : m.StepOf codec id sig rest input) (hv : v.Apart id) :
    LeavesWork codec id steps p (some (.created m)) {.waiting m, v} := by
  subst hp
  refine ⟨.running m rest, {.waiting m}, {v}, rfl, .create hm, ?_, ?_⟩
  · exact .inr ⟨.waiting m, rfl, m, sig, rest, input, rfl, .refl m, hm⟩
  · intro u hu
    obtain rfl := Multiset.mem_singleton.mp hu
    exact hv

variable {leaves : List Signature}

/-- What the headers of the chain are for: they can be read back, and nothing else is
in them. -/
structure Legible (codec : Codec) (leaves : List Signature) : Prop where
  decode : ∀ rest, rest <:+ leaves →
    codec.decodeSignatures (encodeSignatures codec.rfc3339 rest) = .ok rest
  unreserved : ∀ sig ∈ leaves, sig.Unreserved

/-- A call of the runtime by the execution at work. -/
theorem Stage.Step.work_of_runtime {t t' : Stage} {op : RuntimeOp} {r : op.Res}
    (hstep : Stage.Step codec t (.runtime op) r t') (h : t.Carries codec id p)
    (hleaves : Legible codec leaves) (hpending : p.pending <:+ leaves) :
    LeavesWork codec id steps p
      (chainEvent id (.call ⟨.runtime op, r⟩ : (memorySystem S codec).Label))
      {.held (.exec t')} := by
  have hread : ∀ {m : TaskMessage} {result : Json}, p.Won codec id m result →
      ∃ rest, p = .next rest (some result) ∧ m.correlationId = some id ∧
        codec.chainNext m = peel rest := by
    rintro m result ⟨sig, rest, input, rfl, hm⟩
    exact ⟨rest, rfl, hm.correlation, hm.chainNext (hleaves.decode rest hpending)⟩
  cases hstep with
  | handled b m result =>
      have hevent : chainEvent id (.call ⟨.runtime (.handle m.start m.taskName m.payload),
          .ok result⟩ : (memorySystem S codec).Label) = some (.succeeded m.start result) :=
        if_pos h.2.correlation
      rw [hevent]
      obtain ⟨hb, m₀, sig, rest, input, rfl, hx, hm⟩ := h
      exact .of_token (.succeed result hx) ⟨hb, sig, rest, input, rfl, hm.copy hx⟩
  | retry now hleft => exact .of_token rfl (h.copy fun _ hx => hx)
  | bury now hleft => exact .of_token rfl (h.copy fun _ hx => hx)
  | postpone b heta hnow => exact .of_token rfl h.2
  | err b m e => exact .of_token rfl h.2
  | beforeFailed b m e => exact .of_token rfl h.2
  | notFound b m e => exact .of_token rfl h.2
  | completeWithoutBackend m result => exact absurd h.1 Bool.false_ne_true
  | @name m sig rest result now task hnext =>
      -- the header of the step that has succeeded names the next one
      obtain ⟨todo, rfl, hcorrelation, hpeel⟩ := hread h
      rw [hpeel] at hnext
      cases todo with
      | nil => cases hnext
      | cons first others =>
          cases hnext
          have hsig := hleaves.unreserved sig (hpending.subset List.mem_cons_self)
          exact .of_token rfl ⟨sig, rest, rfl,
            TaskMessage.chainStep_stepOf hsig hcorrelation result now task⟩
  | complete result hnext =>
      -- no header: the chain has been executed
      obtain ⟨todo, rfl, -, hpeel⟩ := hread h
      rw [hpeel] at hnext
      cases todo with
      | nil => exact .of_over rfl rfl (.inr trivial)
      | cons first others => cases hnext
  | completeChained m result => exact h.elim
  | _ => exact .of_token rfl h

/-- A call of the backend. -/
theorem Stage.Step.work_of_backend {t t' : Stage} {op : ResultBackendOp} {r : op.Res}
    (hstep : Stage.Step codec t (.backend op) r t') (h : t.Carries codec id p) :
    t'.Carries codec id p := by
  cases hstep with
  | storeMember result r hg =>
      obtain ⟨-, sig, rest, input, -, hm⟩ := h
      rw [hm.alone.1] at hg
      cases hg
  | storeLone result r hg => exact h.2
  | _ => exact h.elim

/-- A call of the runtime by the client. -/
theorem Canvas.Submission.Step.work_of_runtime {s s' : Canvas.Submission} {op : RuntimeOp}
    {r : op.Res} (hstep : Canvas.Submission.Step codec s (.runtime op) r s')
    (h : s.Carries codec id steps p) (hleaves : Legible codec leaves)
    (hpending : p.pending <:+ leaves)
    (hid : ∀ u ∈ uuids [(.call ⟨.runtime op, r⟩ : (memorySystem S codec).Label)], u.toText = id) :
    LeavesWork codec id steps p
      (chainEvent id (.call ⟨.runtime op, r⟩ : (memorySystem S codec).Label))
      {.held (.client s')} := by
  cases hstep with
  | tag c u =>
      obtain ⟨rfl, rfl⟩ := h
      have hu : u.toText = id := hid u (List.mem_singleton.mpr rfl)
      rw [hu]
      simp only [Canvas.begun]
      cases Canvas.flattenChain steps with
      | nil => exact .of_over rfl rfl trivial
      | cons sig rest => exact .of_token rfl ⟨sig, rest, rfl, rfl, rfl⟩
  | stamp make sig others now =>
      obtain ⟨first, rest, heq, rfl, rfl⟩ := h
      cases heq
      exact .of_token rfl ⟨rfl, rest, rfl, rfl⟩
  | make make sig others now task =>
      obtain ⟨rfl, rest, rfl, rfl⟩ := h
      have hsig := hleaves.unreserved sig (hpending.subset List.mem_cons_self)
      exact .of_token rfl ⟨rfl, sig, rest, rfl, Canvas.chainHead_stepOf hsig now task⟩
  | _ => exact h.elim

/-- A step of the token at work. -/
theorem Rule.work {before after : Multiset Token} {l : (memorySystem S codec).Label}
    (hrule : Rule before l after) {v : Token} (hbefore : before = {v})
    (h : v.Carries codec id steps p) {tr : List (memorySystem S codec).Label}
    (halone : Isolated id (tr ++ [l])) (hleaves : Legible codec leaves)
    (hpending : p.pending <:+ leaves) :
    LeavesWork codec id steps p (chainEvent id l) after := by
  have hl : l ∈ tr ++ [l] := List.mem_append.mpr (.inr (List.mem_singleton.mpr rfl))
  cases hrule with
  | arrive m => cases Multiset.singleton_ne_zero v hbefore.symm
  | outside o op => cases Multiset.singleton_ne_zero v hbefore.symm
  | note hmark => cases Multiset.singleton_ne_zero v hbefore.symm
  | poll w queues m =>
      obtain rfl := Multiset.singleton_inj.mp hbefore
      exact .of_token rfl ⟨halone.equipped w queues hl, h⟩
  | runtime hstep _ =>
      obtain rfl := Multiset.singleton_inj.mp hbefore
      exact hstep.work_of_runtime h hleaves hpending
  | backend hstep =>
      obtain rfl := Multiset.singleton_inj.mp hbefore
      exact .of_token rfl (hstep.work_of_backend h)
  | @enqueue t t' m hstep =>
      obtain rfl := Multiset.singleton_inj.mp hbefore
      cases hstep with
      | callback => exact h.elim
      | chain x result =>
          obtain ⟨sig, rest, hp, hm⟩ := h
          have hevent : chainEvent id (.call ⟨.broker (.enqueue m), ()⟩ :
              (memorySystem S codec).Label) = some (.created m) := if_pos hm.correlation
          rw [hevent]
          exact .of_created hp hm (.inr trivial)
  | ack hstep =>
      obtain rfl := Multiset.singleton_inj.mp hbefore
      cases hstep <;> exact .of_token rfl h
  | schedule m eta =>
      obtain rfl := Multiset.singleton_inj.mp hbefore
      exact .of_token rfl h
  | @release t s hstep =>
      obtain rfl := Multiset.singleton_inj.mp hbefore
      cases s <;> cases hstep <;> exact .of_token rfl h
  | requeue m =>
      obtain rfl := Multiset.singleton_inj.mp hbefore
      exact .of_token rfl h
  | bury m =>
      obtain rfl := Multiset.singleton_inj.mp hbefore
      have hm : p.Sent codec id m := h
      have hevent : chainEvent id (.call ⟨.broker (.deliver (.deadLetter m)), ()⟩ :
          (memorySystem S codec).Label) = some (.buried m) := if_pos hm.correlation
      rw [hevent]
      obtain ⟨m₀, sig, rest, input, rfl, hx, -⟩ := hm
      exact .of_over (.bury hx) trivial trivial
  | clientRuntime hstep =>
      obtain rfl := Multiset.singleton_inj.mp hbefore
      refine hstep.work_of_runtime h hleaves hpending fun u hu => halone.ownId u ?_
      rw [uuids_append]
      exact List.mem_append.mpr (.inr hu)
  | clientBackend hstep =>
      obtain rfl := Multiset.singleton_inj.mp hbefore
      cases hstep <;> exact h.elim
  | @clientEnqueue s s' m hstep =>
      obtain rfl := Multiset.singleton_inj.mp hbefore
      cases hstep with
      | send m make others =>
          obtain ⟨rfl, sig, rest, hp, hm⟩ := h
          have hevent : chainEvent id (.call ⟨.broker (.enqueue m), ()⟩ :
              (memorySystem S codec).Label) = some (.created m) := if_pos hm.correlation
          rw [hevent]
          exact .of_created hp hm trivial

end Work

/-! ## The run -/

section Run

variable {id : String} {steps : List Canvas} {leaves : List Signature} {es : List ChainEvent}

/-- The history of the chain leads to a phase, and the ledger is what belongs to it. -/
def ChainKept (codec : Codec) (id : String) (steps : List Canvas) (leaves : List Signature)
    (es : List ChainEvent) (T : Multiset Token) : Prop :=
  ∃ p work others, ChainPath codec id leaves es p ∧ T = work + others ∧
    AtWork codec id steps p work ∧ ∀ v ∈ others, v.Apart id

theorem ChainPath.moves {p p' : ChainPhase} {e : Option ChainEvent}
    (h : ChainPath codec id leaves es p) (hmove : p.Moves codec id e p') :
    ChainPath codec id leaves (es ++ e.toList) p' := by
  cases e with
  | none =>
      obtain rfl : p' = p := hmove
      rw [Option.toList_none, List.append_nil]
      exact h
  | some e => exact h.move hmove

theorem forall_mem_add {P : Token → Prop} {T T' : Multiset Token} (h : ∀ v ∈ T, P v)
    (h' : ∀ v ∈ T', P v) : ∀ v ∈ T + T', P v :=
  fun v hv => (Multiset.mem_add.mp hv).elim (h v) (h' v)

/-- A step of the ledger keeps it. -/
theorem ChainKept.step {before after rest : Multiset Token} {l : (memorySystem S codec).Label}
    (h : ChainKept codec id steps leaves es (before + rest)) (hrule : Rule before l after)
    {tr : List (memorySystem S codec).Label} (halone : Isolated id (tr ++ [l]))
    (hleaves : Legible codec leaves) :
    ChainKept codec id steps leaves (es ++ (chainEvent id l).toList) (after + rest) := by
  obtain ⟨p, work, others, hpath, htokens, hwork, hothers⟩ := h
  -- the step replaces tokens that are apart; the rest and those at work stay
  have hkeep : ∀ still : Multiset Token, (∀ v ∈ before, v.Apart id) → (∀ v ∈ still, v.Apart id) →
      rest = work + still →
      ChainKept codec id steps leaves (es ++ (chainEvent id l).toList) (after + rest) := by
    intro still hbefore hstill hrest
    obtain ⟨hafter, hevent⟩ := hrule.apart halone hbefore
    refine ⟨p, work, after + still, hpath.moves ?_, ?_, hwork, forall_mem_add hafter hstill⟩
    · rw [hevent]
      rfl
    · rw [hrest]
      abel
  rcases hrule.sole with rfl | ⟨v, rfl⟩
  · rw [zero_add] at htokens
    exact hkeep others nofun hothers htokens
  have hone : ∀ {u : Token}, u.Apart id → ∀ w ∈ ({u} : Multiset Token), w.Apart id := by
    intro u hu w hw
    obtain rfl := Multiset.mem_singleton.mp hw
    exact hu
  have hwork' := hwork
  rcases hwork' with ⟨-, rfl⟩ | ⟨w, rfl, hw⟩
  · rw [zero_add] at htokens
    have hv : v ∈ others := htokens ▸ Multiset.mem_add.mpr (.inl (Multiset.mem_singleton_self v))
    refine hkeep rest (hone (hothers v hv)) (fun u hu => hothers u ?_) (zero_add rest).symm
    exact htokens ▸ Multiset.mem_add.mpr (.inr hu)
  · rw [Multiset.singleton_add, Multiset.singleton_add] at htokens
    rcases Multiset.cons_eq_cons.mp htokens with ⟨rfl, rfl⟩ | ⟨-, still, rfl, rfl⟩
    · -- the token at work moves
      obtain ⟨p', work', left, rfl, hmove, hwork'', hleft⟩ :=
        hrule.work rfl hw halone hleaves hpath.tracked.pending_suffix
      exact ⟨p', work', left + rest, hpath.moves hmove, add_assoc _ _ _, hwork'',
        forall_mem_add hleft hothers⟩
    · refine hkeep still (hone (hothers v (Multiset.mem_cons_self v still)))
        (fun u hu => hothers u (Multiset.mem_cons_of_mem hu)) ?_
      rw [Multiset.singleton_add]

/-- Every history of the ledger keeps it. -/
theorem chainKept_of_reach {s₀ : S.State} {tr : List (memorySystem S codec).Label}
    {c : RoleConfig S codec} (halone : Isolated id tr)
    (hleaves : Legible codec (Canvas.flattenChain steps))
    (h : RoleReach ⟨(MemoryBroker.new, s₀), [.client (.fresh (.chain steps))]⟩ tr c) :
    ChainKept codec id steps (Canvas.flattenChain steps) (chainEvents id tr)
      (ledger c.state.1 c.stages) := by
  induction h with
  | start =>
      refine ⟨_, {.held (.client (.fresh (.chain steps)))}, 0, .start, rfl, ?_, nofun⟩
      exact .inr ⟨_, rfl, rfl, rfl⟩
  | @step tr c c' l _ hstep ih =>
      obtain ⟨before, after, rest, hrule, hbefore, hafter, -⟩ :=
        (ledgerStep_of_roleStep hstep).tokens
      have hkept := ih halone.init
      rw [hbefore] at hkept
      rw [hafter, chainEvents, Machine.filterMap_snoc]
      exact hkept.step hrule halone hleaves

/-! ## Nobody forgets the next step -/

/-- A step that makes no message leaves the token at work where it was. -/
theorem LeavesWork.carries {sig : Signature} {rest : List Signature} {input : Option Json}
    {e : Option ChainEvent} {v : Token}
    (h : LeavesWork codec id steps (.next (sig :: rest) input) e {v})
    (he : ∀ m, e ≠ some (.created m)) : v.Carries codec id steps (.next (sig :: rest) input) := by
  obtain ⟨p', work, others, hsplit, hmove, hwork, -⟩ := h
  obtain rfl : p' = .next (sig :: rest) input := by
    cases e with
    | none => exact hmove
    | some e =>
        cases hmove with
        | create hm => exact absurd rfl (he _)
  rcases hwork with ⟨hover, -⟩ | ⟨w, rfl, hw⟩
  · cases hover
  · have hmem : w ∈ ({v} : Multiset Token) :=
      hsplit ▸ Multiset.mem_add.mpr (.inl (Multiset.mem_singleton_self w))
    obtain rfl := Multiset.mem_singleton.mp hmem
    exact hw

/-- A call of the runtime makes no message. -/
theorem chainEvent_runtime {op : RuntimeOp} {r : op.Res} (m : TaskMessage) :
    chainEvent id (.call ⟨.runtime op, r⟩ : (memorySystem S codec).Label) ≠
      some (.created m) := by
  intro h
  unfold chainEvent at h
  split at h
  · rename_i heq
    cases heq
  · rename_i heq
    cases heq
  · split at h <;> cases h
  · cases h

/-- An execution at work after a success enqueues the next message before it returns. -/
theorem Stage.makes_next {q : Prog memoryInterface Unit} {tr : List (Event memoryInterface)}
    {a : Unit} (htr : Prog.Trace q tr a) {t : Stage} (hfollows : q.Follows (roles codec) (.exec t))
    {sig : Signature} {rest : List Signature} {input : Option Json}
    (h : t.Carries codec id (.next (sig :: rest) input)) (hleaves : Legible codec leaves)
    (hpending : sig :: rest <:+ leaves) :
    ∃ m, ⟨.broker (.enqueue m), ()⟩ ∈ tr ∧ m.StepOf codec id sig rest input := by
  have hsent : ∀ {m : TaskMessage},
      ¬ (ChainPhase.next (sig :: rest) input).Sent codec id m := by
    rintro m ⟨m₀, sig₀, rest₀, input₀, heq, -⟩
    cases heq
  induction htr generalizing t with
  | ret a =>
      have hfinal : t.Final := hfollows
      cases t with
      | finished m result => exact h.elim
      | gone => exact h.elim
      | _ => exact hfinal.elim
  | @call op k r tr a htr ih =>
      have hlater : ∀ {t' : Stage}, (k r).Follows (roles codec) (.exec t') →
          t'.Carries codec id (.next (sig :: rest) input) →
          ∃ m, ⟨.broker (.enqueue m), ()⟩ ∈ (⟨op, r⟩ : Event memoryInterface) :: tr ∧
            m.StepOf codec id sig rest input := by
        intro t' hk h'
        obtain ⟨m, hm, hstep⟩ := ih hk h'
        exact ⟨m, List.mem_cons_of_mem _ hm, hstep⟩
      obtain ⟨u', hstep, hk⟩ := hfollows r
      cases hstep with
      | @runtime t t' op r hstep =>
          have hwork : LeavesWork codec id [] (.next (sig :: rest) input)
              (chainEvent id (.call ⟨.runtime op, r⟩ :
                (memorySystem MemoryResultBackend.service codec).Label)) {.held (.exec t')} :=
            hstep.work_of_runtime h hleaves hpending
          exact hlater hk (hwork.carries chainEvent_runtime)
      | backend hstep => exact hlater hk (hstep.work_of_backend h)
      | enqueue hstep =>
          cases hstep with
          | callback => exact h.elim
          | chain =>
              obtain ⟨sig₀, rest₀, heq, hm⟩ := h
              cases heq
              exact ⟨_, List.mem_cons_self, hm⟩
      | ack hstep =>
          cases hstep with
          | release m eta => exact absurd h hsent
          | ack b m result => exact hlater hk h
      | schedule hstep =>
          cases hstep with
          | reschedule => exact absurd h hsent
      | @release t t' s hstep =>
          cases s <;> cases hstep <;> exact absurd h hsent

/-- A step that has succeeded and is not the last is being followed up: an execution
among these is under way that enqueues the message of the next before it returns. -/
def ChainOnward (codec : Codec) (id : String) (leaves : List Signature) (es : List ChainEvent)
    (threads : List (Prog memoryInterface Unit)) : Prop :=
  ∀ (i : Nat) (sig : Signature), (succeededSteps es).length = i + 1 →
    (createdSteps es).length = i + 1 → leaves[i + 1]? = some sig →
    ∃ q ∈ threads, ∀ tr, Prog.Trace q tr () → ∃ m, ⟨.broker (.enqueue m), ()⟩ ∈ tr ∧
      m.StepOf codec id sig (leaves.drop (i + 2))
        (inputOf ((succeededSteps es).map Prod.snd) (i + 1))

/-- Who is at work after a success. -/
theorem Token.Carries.execution {v : Token} {sig : Signature} {rest : List Signature}
    {result : Json} (h : v.Carries codec id steps (.next (sig :: rest) (some result))) :
    ∃ t, v = .held (.exec t) ∧ t.Carries codec id (.next (sig :: rest) (some result)) := by
  have hsent : ∀ {m : TaskMessage},
      ¬ (ChainPhase.next (sig :: rest) (some result)).Sent codec id m := by
    rintro m ⟨m₀, sig₀, rest₀, input₀, heq, -⟩
    cases heq
  cases v with
  | waiting m => exact absurd h hsent
  | buried m => exact h.elim
  | held r =>
      cases r with
      | exec t => exact ⟨t, rfl, h⟩
      | settling s => exact absurd h hsent
      | client s =>
          cases s with
          | fresh c => exact absurd (ChainPhase.next.inj h.2).2 (Option.some_ne_none result)
          | feeding make sigs =>
              obtain ⟨sig₀, rest₀, -, -, heq⟩ := h
              cases heq
          | stamping make sig' others now =>
              obtain ⟨-, rest₀, -, heq⟩ := h
              cases heq
          | sending m make others =>
              obtain ⟨-, sig₀, rest₀, heq, -⟩ := h
              cases heq
          | _ => exact h.elim

/-- A client at work has not come to its end. -/
theorem Canvas.Submission.Carries.not_final {s : Canvas.Submission} {p : ChainPhase}
    (h : s.Carries codec id steps p) : ¬ s.Final := by
  intro hfinal
  cases s with
  | feeding make sigs =>
      obtain ⟨sig, rest, rfl, -⟩ := h
      exact hfinal
  | _ => first | exact hfinal | exact h

/-- Whoever is at work has not returned, or its message waits in a queue. -/
theorem Token.Carries.not_still {v : Token} {p : ChainPhase} (h : v.Carries codec id steps p)
    (hstill : ∀ r, v = .held r → r.Final) : ∃ m rest, p = .running m rest := by
  have hsent : ∀ {m : TaskMessage}, p.Sent codec id m → ∃ m rest, p = .running m rest := by
    rintro m ⟨m₀, sig, rest, input, hp, -⟩
    exact ⟨m₀, rest, hp⟩
  cases v with
  | waiting m => exact hsent h
  | buried m => exact h.elim
  | held r =>
      have hfinal := hstill r rfl
      cases r with
      | exec t =>
          cases t with
          | finished m result => exact h.elim
          | gone => exact h.elim
          | _ => exact hfinal.elim
      | settling s => exact hfinal.elim
      | client s => exact absurd hfinal (Canvas.Submission.Carries.not_final h)

theorem ChainKept.onward {b : MemoryBroker} {rs : List Role}
    {threads : List (Prog memoryInterface Unit)}
    (h : ChainKept codec id steps leaves es (ledger b rs)) (hleaves : Legible codec leaves)
    (hfollows : List.Forall₂ (Prog.Follows (roles codec)) threads rs) :
    ChainOnward codec id leaves es threads := by
  intro i sig hsucceeded hcreated hsig
  obtain ⟨p, work, others, hpath, htokens, hwork, -⟩ := h
  have htracked := hpath.tracked
  have hstands := htracked.stands
  -- every message that was made has succeeded, so the next is to be made
  cases p with
  | running m rest => exact absurd hstands.2.1 (by omega)
  | dead =>
      have hcount : (createdSteps es).length = (succeededSteps es).length + 1 := hstands
      omega
  | next todo input =>
      obtain ⟨htodo, -, hinput⟩ := hstands
      obtain ⟨hlt, hget⟩ := List.getElem?_eq_some_iff.mp hsig
      rw [hcreated, List.drop_eq_getElem_cons hlt, hget] at htodo
      subst htodo
      have hlength : i < ((succeededSteps es).map Prod.snd).length := by
        rw [List.length_map]
        omega
      rw [hcreated, inputOf, List.getElem?_eq_getElem hlength] at hinput
      subst hinput
      rcases hwork with ⟨hover, -⟩ | ⟨v, rfl, hv⟩
      · cases hover
      · obtain ⟨t, rfl, ht⟩ := hv.execution
        have hmem : Token.held (.exec t) ∈ ledger b rs :=
          htokens ▸ Multiset.mem_add.mpr (.inl (Multiset.mem_singleton_self _))
        rcases mem_ledger hmem with ⟨m, -, heq⟩ | ⟨m, -, heq⟩ | ⟨r, hr, heq⟩
        · cases heq
        · cases heq
        · cases heq
          obtain ⟨q, hq, hrel⟩ := Machine.exists_of_forall₂ hfollows hr
          refine ⟨q, hq, fun tr htr => ?_⟩
          obtain ⟨m, hm, hstep⟩ :=
            Stage.makes_next htr hrel ht hleaves htracked.pending_suffix
          refine ⟨m, hm, ?_⟩
          rw [inputOf, List.getElem?_eq_getElem hlength]
          exact hstep

theorem ChainKept.at_rest {b : MemoryBroker} {rs : List Role}
    (h : ChainKept codec id steps leaves es (ledger b rs)) (hfinal : ∀ r ∈ rs, r.Final) :
    (createdSteps es).length = min ((succeededSteps es).length + 1) leaves.length := by
  obtain ⟨p, work, others, hpath, htokens, hwork, -⟩ := h
  refine hpath.tracked.created_eq ?_
  rcases hwork with ⟨hover, -⟩ | ⟨v, rfl, hv⟩
  · exact .inl hover
  · refine .inr (hv.not_still fun r heq => ?_)
    subst heq
    have hmem : Token.held r ∈ ledger b rs :=
      htokens ▸ Multiset.mem_add.mpr (.inl (Multiset.mem_singleton_self _))
    rcases mem_ledger hmem with ⟨m, -, heq⟩ | ⟨m, -, heq⟩ | ⟨r', hr', heq⟩
    · cases heq
    · cases heq
    · cases heq
      exact hfinal r hr'

/-- A chain is executed faithfully.  A client submits a chain of nested single tasks
and chains, whose headers leave the reserved keys alone, to the in-memory broker, among
any other producers, workflows and users of the backend.  Whatever the handlers answer:
the messages made are those of its leaves, in order, each once and each with the result
of the step before it; a step is made only after that one has succeeded and never after
one has been buried; and one that has succeeded is followed up, so that when all threads
have returned, the steps made are those that have succeeded and the one behind them. -/
theorem chain_faithful {s₀ : S.State} {tr : List (memorySystem S codec).Label}
    {c : (memorySystem S codec).Config}
    (hreach : (memorySystem S codec).Reach (memoryStart S codec s₀ [.chain steps]) tr c)
    (hsteps : Canvas.AllLinear steps) (hleaves : Legible codec (Canvas.leavesOf steps))
    (halone : Isolated id tr) :
    ChainFaithful codec id (Canvas.leavesOf steps) (chainEvents id tr) ∧
      ChainOnward codec id (Canvas.leavesOf steps) (chainEvents id tr) c.threads ∧
      ((∀ q ∈ c.threads, q = .ret ()) → (createdSteps (chainEvents id tr)).length =
        min ((succeededSteps (chainEvents id tr)).length + 1) (Canvas.leavesOf steps).length) := by
  obtain ⟨rs, hroles, hfollows⟩ := reach_roles hreach
  have hflat := Canvas.flattenChain_eq steps hsteps
  rw [← hflat] at hleaves ⊢
  have hkept := chainKept_of_reach halone hleaves hroles
  refine ⟨?_, hkept.onward hleaves hfollows, fun hrest => hkept.at_rest fun r hr => ?_⟩
  · obtain ⟨p, -, -, hpath, -⟩ := hkept
    exact hpath.tracked.faithful
  · obtain ⟨q, hq, hrel⟩ := Machine.exists_of_forall₂ hfollows hr
    rw [hrest q hq] at hrel
    exact hrel

end Run

/-! ## A chain of two -/

/-- A codec that reads back the lists of at most two plain signatures. -/
def plainCodec : Codec :=
  ⟨fun _ => "", fun text =>
    if text = encodeSignatures (fun _ => "") [plainSignature, plainSignature] then
      .ok [plainSignature, plainSignature]
    else if text = encodeSignatures (fun _ => "") [plainSignature] then .ok [plainSignature]
    else .ok []⟩

/-- A chain in a chain. -/
def nestedPair : List Canvas := [.single plainSignature, .chain [.single plainSignature]]

/-- The in-memory broker and backend, with workers that read those lists. -/
abbrev plainPair : Machine memoryInterface :=
  memorySystem MemoryResultBackend.service plainCodec

/-- The chain is submitted, and both of its steps succeed. -/
def nestedMoves : List plainPair.Move :=
  let w : Worker := ⟨["t"], [], true⟩
  List.replicate 4 (.run 0 ⟨drawing ⟨1⟩, (), ()⟩) ++
    .env (.poll w ["q"]) :: List.replicate 9 (.run 1 ⟨drawing ⟨2⟩, (), ()⟩) ++
    .env (.poll w ["q"]) :: List.replicate 5 (.run 2 ⟨drawing ⟨3⟩, (), ()⟩)

/-- A client is about to submit it. -/
def nestedOrigin : plainPair.Config :=
  memoryStart MemoryResultBackend.service plainCodec MemoryResultBackend.new [.chain nestedPair]

theorem nested_plays : (nestedOrigin.playAll nestedMoves).isSome = true := by
  decide +kernel

/-- Where that leads. -/
def nestedEnd : List plainPair.Label × plainPair.Config :=
  (nestedOrigin.playAll nestedMoves).get nested_plays

/-- Nobody else sends messages, and the workers have the result backend. -/
def isAlone : plainPair.Label → Bool
  | .env (.enqueue _) => false
  | .env (.poll w _) => w.hasBackend
  | _ => true

theorem nested_alone : ∀ l ∈ nestedEnd.1, isAlone l = true := by
  have hall : nestedEnd.1.all isAlone = true := by decide +kernel
  exact List.all_eq_true.mp hall

theorem nested_isolated : Isolated (TaskId.mk 1).toText nestedEnd.1 where
  ownId u hu := by
    have hall : uuids nestedEnd.1 = [⟨1⟩] := by decide +kernel
    rw [hall] at hu
    rw [List.mem_singleton.mp hu]
  producers m hm := absurd (nested_alone _ hm) Bool.false_ne_true
  equipped w queues hw := nested_alone _ hw

theorem nested_leaves : Canvas.leavesOf nestedPair = [plainSignature, plainSignature] := by
  simp [nestedPair, Canvas.leavesOf, Canvas.leaves]

/-- The three lists are printed differently. -/
theorem plainText_ne :
    encodeSignatures (fun _ => "") [plainSignature] ≠
        encodeSignatures (fun _ => "") [plainSignature, plainSignature] ∧
      encodeSignatures (fun _ => "") [] ≠
        encodeSignatures (fun _ => "") [plainSignature, plainSignature] ∧
      encodeSignatures (fun _ => "") [] ≠ encodeSignatures (fun _ => "") [plainSignature] := by
  decide +kernel

theorem nested_legible : Legible plainCodec (Canvas.leavesOf nestedPair) where
  decode rest hrest := by
    obtain ⟨hone, hnone, hempty⟩ := plainText_ne
    rw [nested_leaves] at hrest
    rcases List.suffix_cons_iff.mp hrest with rfl | hrest
    · simp [plainCodec]
    rcases List.suffix_cons_iff.mp hrest with rfl | hrest
    · simp [plainCodec, hone]
    · obtain rfl := List.suffix_nil.mp hrest
      simp [plainCodec, hnone, hempty]
  unreserved sig hsig := by
    rw [nested_leaves] at hsig
    obtain rfl : sig = plainSignature := by simpa using hsig
    exact fun key hkey => absurd hkey (AList.notMem_empty key)

/-- Both steps of the nested chain are made and succeed, in order. -/
theorem chain_faithful_nested :
    (createdSteps (chainEvents (TaskId.mk 1).toText nestedEnd.1)).length = 2 ∧
      (succeededSteps (chainEvents (TaskId.mk 1).toText nestedEnd.1)).length = 2 ∧
      ChainFaithful plainCodec (TaskId.mk 1).toText (Canvas.leavesOf nestedPair)
        (chainEvents (TaskId.mk 1).toText nestedEnd.1) := by
  have hreach : plainPair.Reach nestedOrigin nestedEnd.1 nestedEnd.2 :=
    Machine.Config.reach_of_get nested_plays
  have hsteps : Canvas.AllLinear nestedPair := by
    simp [nestedPair, Canvas.AllLinear, Canvas.Linear]
  exact ⟨by decide +kernel, by decide +kernel,
    (chain_faithful hreach hsteps nested_legible nested_isolated).1⟩

end Kojin.Core
