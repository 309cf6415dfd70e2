/-
  Core/Retry.lean --- how often a failing message is executed over the in-memory
  broker.

  The history of a run is projected to one identifier: the copies that were
  executed, the failures, the successes, the copies that `nack` put back and
  those that `dead_letter` buried.  `life i tr` is that projection.

  THE SHAPE OF A LIFE.  A message goes through rounds; in each round the copy of
  the round before is executed, fails, and the copy with one more retry is put
  back.  After the last complete round the life is at one of five points:

      rounds                                        waiting, or on its way
      rounds, executed m                            running
      rounds, executed m, failed                    about to be put back or buried
      rounds, executed m, failed, buried            in the dead-letter queue
      rounds, executed m, succeeded                 done

  Which of the five it is, is decided by the one token the ledger holds for the
  message.  `Rule.chronicle` says how a rule moves it, `chronicle_of_reach` that
  every run keeps to it, and `bounded_retries` reads off the consequences.
-/
import Kojin.Core.Ledger
import Kojin.Core.MemoryResultBackend

set_option autoImplicit false

namespace Kojin.Core

open Kojin.Foundation

/-! ## The history of one message -/

/-- What can happen to a message. -/
inductive LifeEvent where
  | executed (m : TaskMessage)
  | failed
  | succeeded
  | requeued (m : TaskMessage)
  | buried (m : TaskMessage)

section History

variable {S : Service resultBackendTrait} {codec : Codec}

/-- What a step says about message `i`. -/
def lifeEvent (i : TaskId) : (memorySystem S codec).Label → Option LifeEvent
  | .call ⟨.runtime (.trace (.executing m)), _⟩ => if m.id = i then some (.executed m) else none
  | .call ⟨.runtime (.trace (.beforeFailed task _)), _⟩ => if task = i then some .failed else none
  | .call ⟨.runtime (.trace (.taskFailed task _ _)), _⟩ => if task = i then some .failed else none
  | .call ⟨.runtime (.handle m _ _), .ok _⟩ => if m.id = i then some .succeeded else none
  | .call ⟨.broker (.deliver (.nack m)), _⟩ => if m.id = i then some (.requeued m) else none
  | .call ⟨.broker (.deliver (.deadLetter m)), _⟩ => if m.id = i then some (.buried m) else none
  | _ => none

/-- Everything a history says about message `i`. -/
def life (i : TaskId) (tr : List (memorySystem S codec).Label) : List LifeEvent :=
  tr.filterMap (lifeEvent i)

/-- The message `i` a step brings into the system. -/
def arrival (i : TaskId) : (memorySystem S codec).Label → Option TaskMessage
  | .env (.enqueue m) => if m.id = i then some m else none
  | .call ⟨.broker (.enqueue m), _⟩ => if m.id = i then some m else none
  | _ => none

/-- The messages with identifier `i` that were enqueued. -/
def arrivals (i : TaskId) (tr : List (memorySystem S codec).Label) : List TaskMessage :=
  tr.filterMap (arrival i)

end History

/-- The copies that were executed, in order. -/
def executions : List LifeEvent → List TaskMessage
  | [] => []
  | .executed m :: h => m :: executions h
  | _ :: h => executions h

/-- The copies that `nack` put back, in order. -/
def requeues : List LifeEvent → List TaskMessage
  | [] => []
  | .requeued m :: h => m :: requeues h
  | _ :: h => requeues h

/-- The copies that `dead_letter` buried, in order. -/
def burials : List LifeEvent → List TaskMessage
  | [] => []
  | .buried m :: h => m :: burials h
  | _ :: h => burials h

/-- How many executions failed. -/
def failures : List LifeEvent → Nat
  | [] => 0
  | .failed :: h => failures h + 1
  | _ :: h => failures h

/-- After such an event the message is done. -/
def LifeEvent.Ends : LifeEvent → Prop
  | .succeeded => True
  | .buried _ => True
  | _ => False

theorem executions_append (h h' : List LifeEvent) :
    executions (h ++ h') = executions h ++ executions h' := by
  induction h with
  | nil => rfl
  | cons e h ih => cases e <;> simp [executions, ih]

theorem requeues_append (h h' : List LifeEvent) :
    requeues (h ++ h') = requeues h ++ requeues h' := by
  induction h with
  | nil => rfl
  | cons e h ih => cases e <;> simp [requeues, ih]

theorem burials_append (h h' : List LifeEvent) :
    burials (h ++ h') = burials h ++ burials h' := by
  induction h with
  | nil => rfl
  | cons e h ih => cases e <;> simp [burials, ih]

theorem failures_append (h h' : List LifeEvent) :
    failures (h ++ h') = failures h + failures h' := by
  induction h with
  | nil => simp [failures]
  | cons e h ih =>
      cases e <;> simp only [List.cons_append, failures, ih]
      omega

/-! ## Rounds -/

/-- `Rounds m₀ m h`: starting from `m₀`, the failed rounds of `h` have led to the
copy `m`. -/
inductive Rounds (m₀ : TaskMessage) : TaskMessage → List LifeEvent → Prop where
  | first : Rounds m₀ m₀ []
  | next {m : TaskMessage} {h : List LifeEvent} (now : DateTime) :
      Rounds m₀ m h → m.retries < m.maxRetries →
      Rounds m₀ (m.retryCopy now)
        (h ++ [.executed m, .failed, .requeued (m.retryCopy now)])

/-- A retry counter below a bound does not overflow. -/
theorem toNat_add_one_of_lt {a b : UInt32} (h : a < b) : (a + 1).toNat = a.toNat + 1 := by
  have hlt : a.toNat < b.toNat := UInt32.lt_iff_toNat_lt.mp h
  have hb : b.toNat < 2 ^ 32 := b.toNat_lt
  rw [UInt32.toNat_add]
  have hone : (1 : UInt32).toNat = 1 := rfl
  rw [hone, Nat.mod_eq_of_lt (by omega)]

theorem Rounds.same {m₀ m : TaskMessage} {h : List LifeEvent} (hr : Rounds m₀ m h) :
    m.SameTask m₀ := by
  induction hr with
  | first => exact TaskMessage.SameTask.refl m₀
  | next now _ _ ih => exact ih

/-- What the complete rounds of a message enqueued with no retries come to. -/
structure RoundsSummary (m₀ m : TaskMessage) (h : List LifeEvent) : Prop where
  executed : (executions h).map (·.retries.toNat) = List.range m.retries.toNat
  requeued : (requeues h).map (·.retries.toNat) = (List.range m.retries.toNat).map (· + 1)
  retryState : ∀ m' ∈ requeues h, m'.state = .retry
  failed : failures h = m.retries.toNat
  buried : burials h = []
  open_ : ∀ e ∈ h, ¬ e.Ends
  bound : m.retries.toNat ≤ m₀.maxRetries.toNat

theorem Rounds.summary {m₀ m : TaskMessage} {h : List LifeEvent} (hr : Rounds m₀ m h)
    (h₀ : m₀.retries = 0) : RoundsSummary m₀ m h := by
  induction hr with
  | first =>
      have hzero : m₀.retries.toNat = 0 := by rw [h₀]; rfl
      refine ⟨?_, ?_, ?_, ?_, rfl, ?_, ?_⟩
      · rw [hzero]; rfl
      · rw [hzero]; rfl
      · intro m' hm'; cases hm'
      · rw [hzero]; rfl
      · intro e he; cases he
      · omega
  | @next m h now hr hlt ih =>
      have hstep : (m.retryCopy now).retries.toNat = m.retries.toNat + 1 := toNat_add_one_of_lt hlt
      have hmax : m.maxRetries = m₀.maxRetries := hr.same.maxRetries_eq
      have hlt' : m.retries.toNat < m.maxRetries.toNat := UInt32.lt_iff_toNat_lt.mp hlt
      refine ⟨?_, ?_, ?_, ?_, ?_, ?_, ?_⟩
      · rw [executions_append, List.map_append, ih.executed, hstep, List.range_succ]
        rfl
      · rw [requeues_append, List.map_append, ih.requeued, hstep, List.range_succ,
          List.map_append]
        simp [requeues, hstep]
      · intro m' hm'
        rw [requeues_append] at hm'
        rcases List.mem_append.mp hm' with hold | hnew
        · exact ih.retryState m' hold
        · obtain rfl : m' = m.retryCopy now := by simpa [requeues] using hnew
          rfl
      · rw [failures_append, ih.failed, hstep]
        rfl
      · rw [burials_append, ih.buried]
        rfl
      · intro e he
        rcases List.mem_append.mp he with hold | hnew
        · exact ih.open_ e hold
        · simp only [List.mem_cons, List.not_mem_nil, or_false] at hnew
          rcases hnew with rfl | rfl | rfl <;> exact id
      · rw [hstep, ← hmax]
        omega

/-! ## The token of a message -/

/-- The copy an execution has in hand. -/
def Stage.message : Stage → Option TaskMessage
  | .received _ m => some m
  | .cleared _ m => some m
  | .postponed m _ => some m
  | .released m _ => some m
  | .running _ m => some m
  | .erred m => some m
  | .failed m => some m
  | .toRetry m => some m
  | .toBury m => some m
  | .succeeded _ m _ => some m
  | .acked _ m _ => some m
  | .stored m _ => some m
  | .calling m _ _ => some m
  | .collected m _ _ => some m
  | .wrapping m _ => some m
  | .minting m _ _ => some m
  | .continuing m _ _ => some m
  | .chained m _ => some m
  | .finished m _ => some m
  | .gone => none

/-- The message a token is a copy of. -/
def Token.message : Token → Option TaskMessage
  | .waiting m => some m
  | .buried m => some m
  | .held (.exec t) => t.message
  | .held (.settling s) => some s.message
  | .held (.client _) => none

/-- The identifier of a token's message. -/
def Token.task (v : Token) : Option TaskId := v.message.map (·.id)

/-- The tokens of message `i`. -/
def tokensOf (i : TaskId) (T : Multiset Token) : Multiset Token :=
  T.filter fun v => v.task = some i

theorem tokensOf_add (i : TaskId) (T U : Multiset Token) :
    tokensOf i (T + U) = tokensOf i T + tokensOf i U := Multiset.filter_add _ _ _

theorem tokensOf_self {i : TaskId} {v : Token} (h : v.task = some i) : tokensOf i {v} = {v} := by
  rw [tokensOf, Multiset.filter_singleton, if_pos h]

theorem tokensOf_other {i : TaskId} {v : Token} (h : v.task ≠ some i) : tokensOf i {v} = 0 := by
  rw [tokensOf, Multiset.filter_singleton, if_neg h]
  rfl

theorem tokensOf_pair (i : TaskId) (v w : Token) :
    tokensOf i {v, w} = tokensOf i {v} + tokensOf i {w} := tokensOf_add i {v} {w}

/-- A failed copy with retries left, on its way back to the queue. -/
def Retrying (m₀ m' : TaskMessage) (h : List LifeEvent) : Prop :=
  ∃ m now h', h = h' ++ [.executed m, .failed] ∧ Rounds m₀ m h' ∧ m.retries < m.maxRetries ∧
    m' = m.retryCopy now

/-- A failed copy with no retries left, on its way to the dead-letter queue. -/
def Burying (m₀ m' : TaskMessage) (h : List LifeEvent) : Prop :=
  ∃ m now h', h = h' ++ [.executed m, .failed] ∧ Rounds m₀ m h' ∧ ¬ m.retries < m.maxRetries ∧
    m' = m.buriedCopy now

/-- The copy `m` is being executed. -/
def Running (m₀ m : TaskMessage) (h : List LifeEvent) : Prop :=
  ∃ h', h = h' ++ [.executed m] ∧ Rounds m₀ m h'

/-- The copy `m` has been executed and failed. -/
def Failed (m₀ m : TaskMessage) (h : List LifeEvent) : Prop :=
  ∃ h', h = h' ++ [.executed m, .failed] ∧ Rounds m₀ m h'

/-- The copy `m` has been executed and succeeded. -/
def Won (m₀ m : TaskMessage) (h : List LifeEvent) : Prop :=
  ∃ h', h = h' ++ [.executed m, .succeeded] ∧ Rounds m₀ m h'

/-- The life an execution at this stage has behind it. -/
def Stage.Fits (m₀ : TaskMessage) (h : List LifeEvent) : Stage → Prop
  | .received _ m => Rounds m₀ m h
  | .cleared _ m => Rounds m₀ m h
  | .postponed m _ => Rounds m₀ m h
  | .released m _ => Rounds m₀ m h
  | .running _ m => Running m₀ m h
  | .erred m => Running m₀ m h
  | .failed m => Failed m₀ m h
  | .toRetry m => Retrying m₀ m h
  | .toBury m => Burying m₀ m h
  | .succeeded _ m _ => Won m₀ m h
  | .acked _ m _ => Won m₀ m h
  | .stored m _ => Won m₀ m h
  | .calling m _ _ => Won m₀ m h
  | .collected m _ _ => Won m₀ m h
  | .wrapping m _ => Won m₀ m h
  | .minting m _ _ => Won m₀ m h
  | .continuing m _ _ => Won m₀ m h
  | .chained m _ => Won m₀ m h
  | .finished m _ => Won m₀ m h
  | .gone => False

/-- The life a message with this token has behind it. -/
def Token.Fits (m₀ : TaskMessage) (h : List LifeEvent) : Token → Prop
  | .waiting m => Rounds m₀ m h
  | .buried m' => ∃ h', h = h' ++ [.buried m'] ∧ Burying m₀ m' h'
  | .held (.exec t) => t.Fits m₀ h
  | .held (.settling (.nack m')) => Retrying m₀ m' h
  | .held (.settling (.deadLetter m')) => Burying m₀ m' h
  | .held (.client _) => False

/-! ## One step -/

section Step

variable {S : Service resultBackendTrait} {codec : Codec}

/-- A call of the runtime keeps the execution with its message. -/
theorem Stage.Step.task_of_runtime {t t' : Stage} {op : RuntimeOp} {r : op.Res}
    (h : Stage.Step codec t (.runtime op) r t') :
    (Token.held (.exec t')).task = (Token.held (.exec t)).task := by
  cases h <;> rfl

/-- Whatever a call of the runtime says, it says about the message in hand. -/
theorem Stage.Step.lifeEvent_of_runtime {t t' : Stage} {op : RuntimeOp} {r : op.Res}
    (h : Stage.Step codec t (.runtime op) r t') {i : TaskId}
    (hi : (Token.held (.exec t)).task ≠ some i) :
    lifeEvent i (.call ⟨.runtime op, r⟩ : (memorySystem S codec).Label) = none := by
  cases h with
  | @note t e hmark => cases e <;> first | rfl | cases hmark
  | execute b heta => exact if_neg fun heq => hi (congrArg some heq)
  | executeCleared b m => exact if_neg fun heq => hi (congrArg some heq)
  | handled b m result => exact if_neg fun heq => hi (congrArg some heq)
  | beforeFailed b m e => exact if_neg fun heq => hi (congrArg some heq)
  | notFound b m e => exact if_neg fun heq => hi (congrArg some heq)
  | taskFailed m e => exact if_neg fun heq => hi (congrArg some heq)
  | _ => rfl

/-- A step that says nothing about the message leaves its life as it is. -/
theorem append_quiet {l : (memorySystem S codec).Label} {i : TaskId} (h : List LifeEvent)
    (hl : lifeEvent i l = none) : h ++ (lifeEvent i l).toList = h := by
  rw [hl, Option.toList_none, List.append_nil]

/-- A step that says something adds it. -/
theorem append_event {l : (memorySystem S codec).Label} {i : TaskId} (h : List LifeEvent)
    {e : LifeEvent} (hl : lifeEvent i l = some e) : h ++ (lifeEvent i l).toList = h ++ [e] := by
  rw [hl, Option.toList_some]

/-- A call of the runtime extends the life as its stage says. -/
theorem Stage.Step.fits_of_runtime {t t' : Stage} {op : RuntimeOp} {r : op.Res}
    (hstep : Stage.Step codec t (.runtime op) r t') {i : TaskId}
    (hi : (Token.held (.exec t)).task = some i) {m₀ : TaskMessage} {h : List LifeEvent}
    (hfits : t.Fits m₀ h) :
    t'.Fits m₀
      (h ++ (lifeEvent i (.call ⟨.runtime op, r⟩ : (memorySystem S codec).Label)).toList) := by
  cases hstep with
  | @note t e hmark =>
      rw [append_quiet h (by cases e <;> first | rfl | cases hmark)]
      exact hfits
  | execute b heta =>
      rw [append_event h (e := LifeEvent.executed _) (by exact if_pos (Option.some.inj hi))]
      exact ⟨h, rfl, hfits⟩
  | executeCleared b m =>
      rw [append_event h (e := LifeEvent.executed m) (by exact if_pos (Option.some.inj hi))]
      exact ⟨h, rfl, hfits⟩
  | handled b m result =>
      rw [append_event h (e := LifeEvent.succeeded) (by exact if_pos (Option.some.inj hi))]
      obtain ⟨h', rfl, hr⟩ := hfits
      exact ⟨h', List.append_assoc _ _ _, hr⟩
  | beforeFailed b m e =>
      rw [append_event h (e := LifeEvent.failed) (by exact if_pos (Option.some.inj hi))]
      obtain ⟨h', rfl, hr⟩ := hfits
      exact ⟨h', List.append_assoc _ _ _, hr⟩
  | notFound b m e =>
      rw [append_event h (e := LifeEvent.failed) (by exact if_pos (Option.some.inj hi))]
      obtain ⟨h', rfl, hr⟩ := hfits
      exact ⟨h', List.append_assoc _ _ _, hr⟩
  | taskFailed m e =>
      rw [append_event h (e := LifeEvent.failed) (by exact if_pos (Option.some.inj hi))]
      obtain ⟨h', rfl, hr⟩ := hfits
      exact ⟨h', List.append_assoc _ _ _, hr⟩
  | retry now hlt =>
      rw [append_quiet h rfl]
      obtain ⟨h', rfl, hr⟩ := hfits
      exact ⟨_, now, h', rfl, hr, hlt, rfl⟩
  | bury now hlt =>
      rw [append_quiet h rfl]
      obtain ⟨h', rfl, hr⟩ := hfits
      exact ⟨_, now, h', rfl, hr, hlt, rfl⟩
  | _ =>
      rw [append_quiet h rfl]
      exact hfits

/-- A call of the backend concerns no life. -/
theorem Stage.Step.of_backend {t t' : Stage} {op : ResultBackendOp} {r : op.Res}
    (hstep : Stage.Step codec t (.backend op) r t') :
    (Token.held (.exec t')).task = (Token.held (.exec t)).task ∧
      ∀ m₀ h, t.Fits m₀ h → t'.Fits m₀ h := by
  cases hstep <;> exact ⟨rfl, fun _ _ hfits => hfits⟩

/-- An acknowledgement or the enqueueing of another message concerns no life. -/
theorem Stage.Step.of_broker {t t' : Stage} {op : BrokerOp} {r : TaskResult Unit}
    (hstep : Stage.Step codec t (.broker op) r t')
    (hop : (∃ id, op = .ack id) ∨ ∃ m, op = .enqueue m) :
    (Token.held (.exec t')).task = (Token.held (.exec t)).task ∧
      ∀ m₀ h, t.Fits m₀ h → t'.Fits m₀ h := by
  rcases hop with ⟨id, rfl⟩ | ⟨m, rfl⟩ <;> cases hstep <;>
    exact ⟨rfl, fun _ _ hfits => hfits⟩

/-- What a rule means for message `i`: another copy of it arrives, or the rule is
about other messages, or it moves the token of `i` and extends its life. -/
inductive Rule.About (i : TaskId) (A : Multiset Token) (l : (memorySystem S codec).Label)
    (B : Multiset Token) : Prop where
  | arrives (m : TaskMessage) :
      arrival i l = some m → lifeEvent i l = none →
      (tokensOf i A = 0 → tokensOf i B = {.waiting m}) → About i A l B
  | other :
      arrival i l = none → lifeEvent i l = none → tokensOf i A = 0 → tokensOf i B = 0 →
      About i A l B
  | moves (v v' : Token) :
      arrival i l = none → tokensOf i A = {v} → tokensOf i B = {v'} →
      (∀ m₀ h, v.Fits m₀ h → v'.Fits m₀ (h ++ (lifeEvent i l).toList)) → About i A l B

/-- A rule that replaces one token by one of the same message. -/
theorem Rule.About.of_single {i : TaskId} {v v' : Token} {l : (memorySystem S codec).Label}
    (harrival : arrival i l = none) (htask : v'.task = v.task)
    (hquiet : v.task ≠ some i → lifeEvent i l = none)
    (hfits : v.task = some i →
      ∀ m₀ h, v.Fits m₀ h → v'.Fits m₀ (h ++ (lifeEvent i l).toList)) :
    Rule.About i {v} l {v'} := by
  by_cases hv : v.task = some i
  · exact .moves v v' harrival (tokensOf_self hv) (tokensOf_self (htask.trans hv)) (hfits hv)
  · refine .other harrival (hquiet hv) (tokensOf_other hv) (tokensOf_other ?_)
    rw [htask]
    exact hv

/-- A rule by which a thread enqueues a message. -/
theorem Rule.About.of_enqueue {i : TaskId} {v v' : Token} {m : TaskMessage}
    (htask : v'.task = v.task) (hfits : ∀ m₀ h, v.Fits m₀ h → v'.Fits m₀ h) :
    Rule.About i {v} (.call ⟨.broker (.enqueue m), ()⟩ : (memorySystem S codec).Label)
      {.waiting m, v'} := by
  by_cases hm : m.id = i
  · refine .arrives m (if_pos hm) rfl ?_
    intro hzero
    have hv : v.task ≠ some i := by
      intro hv
      rw [tokensOf_self hv] at hzero
      exact Multiset.singleton_ne_zero v hzero
    rw [tokensOf_pair, tokensOf_self (show (Token.waiting m).task = some i from congrArg some hm),
      tokensOf_other (htask ▸ hv), add_zero]
  · have hwait : tokensOf i {.waiting m} = 0 := tokensOf_other fun h => hm (Option.some.inj h)
    by_cases hv : v.task = some i
    · refine .moves v v' (if_neg hm) (tokensOf_self hv) ?_ ?_
      · rw [tokensOf_pair, hwait, zero_add, tokensOf_self (htask.trans hv)]
      · intro m₀ h hv
        rw [append_quiet h rfl]
        exact hfits m₀ h hv
    · refine .other (if_neg hm) rfl (tokensOf_other hv) ?_
      rw [tokensOf_pair, hwait, zero_add, tokensOf_other (htask ▸ hv)]

/-- Every rule is one of the three. -/
theorem Rule.about {A B : Multiset Token} {l : (memorySystem S codec).Label}
    (hrule : Rule A l B) (i : TaskId) : Rule.About i A l B := by
  cases hrule with
  | arrive m =>
      by_cases hm : m.id = i
      · exact .arrives m (if_pos hm) rfl fun _ => tokensOf_self (congrArg some hm)
      · exact .other (if_neg hm) rfl rfl (tokensOf_other fun h => hm (Option.some.inj h))
  | outside o op => exact .other rfl rfl rfl rfl
  | poll w queues m =>
      refine .of_single rfl rfl (fun _ => rfl) ?_
      intro _ m₀ h hfits
      rw [append_quiet h rfl]
      exact hfits
  | @note e hmark =>
      refine .other rfl ?_ rfl rfl
      cases e <;> first | rfl | cases hmark
  | runtime hstep hgone =>
      exact .of_single rfl hstep.task_of_runtime (fun hv => hstep.lifeEvent_of_runtime hv)
        fun hv m₀ h hfits => hstep.fits_of_runtime hv hfits
  | backend hstep =>
      refine .of_single rfl hstep.of_backend.1 (fun _ => rfl) ?_
      intro _ m₀ h hfits
      rw [append_quiet h rfl]
      exact hstep.of_backend.2 m₀ h hfits
  | enqueue hstep =>
      have hof := hstep.of_broker (.inr ⟨_, rfl⟩)
      exact .of_enqueue hof.1 hof.2
  | ack hstep =>
      have hof := hstep.of_broker (.inl ⟨_, rfl⟩)
      refine .of_single rfl hof.1 (fun _ => rfl) ?_
      intro _ m₀ h hfits
      rw [append_quiet h rfl]
      exact hof.2 m₀ h hfits
  | schedule m eta =>
      refine .of_single rfl rfl (fun _ => rfl) ?_
      intro _ m₀ h hfits
      rw [append_quiet h rfl]
      exact hfits
  | @release t s hstep =>
      have hkeep : (Token.held (.settling s)).task = (Token.held (.exec t)).task ∧
          ∀ m₀ h, (Token.held (.exec t)).Fits m₀ h → (Token.held (.settling s)).Fits m₀ h := by
        cases s <;> cases hstep <;> exact ⟨rfl, fun _ _ hfits => hfits⟩
      refine .of_single rfl hkeep.1 (fun _ => rfl) ?_
      intro _ m₀ h hfits
      rw [append_quiet h rfl]
      exact hkeep.2 m₀ h hfits
  | requeue m =>
      refine .of_single rfl rfl (fun hv => if_neg fun heq => hv (congrArg some heq)) ?_
      intro hv m₀ h hfits
      rw [append_event h (e := LifeEvent.requeued m) (by exact if_pos (Option.some.inj hv))]
      obtain ⟨m', now, h', rfl, hr, hlt, rfl⟩ := hfits
      rw [List.append_assoc]
      exact .next now hr hlt
  | bury m =>
      refine .of_single rfl rfl (fun hv => if_neg fun heq => hv (congrArg some heq)) ?_
      intro hv m₀ h hfits
      rw [append_event h (e := LifeEvent.buried m) (by exact if_pos (Option.some.inj hv))]
      exact ⟨h, rfl, hfits⟩
  | clientRuntime hstep =>
      refine .other rfl ?_ (tokensOf_other nofun) (tokensOf_other nofun)
      cases hstep <;> rfl
  | clientBackend hstep => exact .other rfl rfl (tokensOf_other nofun) (tokensOf_other nofun)
  | clientEnqueue hstep => exact .of_enqueue rfl fun _ _ hfits => hfits

/-! ## Whole runs -/

/-- The messages with identifier `i` that the threads and the broker hold. -/
abbrev RoleConfig.tokensOf (c : RoleConfig S codec) (i : TaskId) : Multiset Token :=
  Kojin.Core.tokensOf i (ledger c.state.1 c.stages)

/-- What holds of message `i` after the history `tr`, as long as it was enqueued
no more than once: it has one token, and the token fits its life. -/
structure Chronicle (i : TaskId) (tr : List (memorySystem S codec).Label)
    (c : RoleConfig S codec) : Prop where
  absent : arrivals i tr = [] →
    c.tokensOf i = 0 ∧ life i tr = [] ∧ ∀ m, c.state.1.processing.lookup i ≠ some m
  present : ∀ m₀, arrivals i tr = [m₀] →
    (∃ v, c.tokensOf i = {v} ∧ v.Fits m₀ (life i tr)) ∧
      ∀ m, c.state.1.processing.lookup i = some m → m.SameTask m₀

theorem arrivals_snoc (i : TaskId) (tr : List (memorySystem S codec).Label)
    (l : (memorySystem S codec).Label) :
    arrivals i (tr ++ [l]) = arrivals i tr ++ (arrival i l).toList :=
  Machine.filterMap_snoc _ tr l

theorem life_snoc (i : TaskId) (tr : List (memorySystem S codec).Label)
    (l : (memorySystem S codec).Label) :
    life i (tr ++ [l]) = life i tr ++ (lifeEvent i l).toList :=
  Machine.filterMap_snoc _ tr l

/-- A message that is dequeued was waiting. -/
theorem waiting_mem_tokensOf {i : TaskId} {m : TaskMessage} {A rest : Multiset Token}
    (hid : m.id = i) (hmem : .waiting m ∈ A) : .waiting m ∈ Kojin.Core.tokensOf i (A + rest) := by
  rw [Kojin.Core.tokensOf, Multiset.mem_filter]
  exact ⟨Multiset.mem_add.mpr (.inl hmem), congrArg some hid⟩

/-- One step keeps the chronicle. -/
theorem Chronicle.step {i : TaskId} {tr : List (memorySystem S codec).Label}
    {c c' : RoleConfig S codec} {l : (memorySystem S codec).Label} (h : Chronicle i tr c)
    (hstep : LedgerStep c l c') : Chronicle i (tr ++ [l]) c' := by
  obtain ⟨A, B, rest, hrule, hc, hc', hprocessing⟩ := hstep.tokens
  have hsplit : c.tokensOf i = tokensOf i A + tokensOf i rest := by
    rw [RoleConfig.tokensOf, hc, tokensOf_add]
  have hsplit' : c'.tokensOf i = tokensOf i B + tokensOf i rest := by
    rw [RoleConfig.tokensOf, hc', tokensOf_add]
  have hwaiting : ∀ m, m.id = i → .waiting m ∈ A → .waiting m ∈ c.tokensOf i := by
    intro m hid hmem
    rw [RoleConfig.tokensOf, hc]
    exact waiting_mem_tokensOf hid hmem
  have hcases := hrule.about i
  refine ⟨?_, ?_⟩
  · intro harr
    rw [arrivals_snoc, List.append_eq_nil_iff] at harr
    obtain ⟨hzero, hlife, hnone⟩ := h.absent harr.1
    rw [hsplit, add_eq_zero_iff_of_nonneg (Multiset.zero_le _) (Multiset.zero_le _)] at hzero
    cases hcases with
    | arrives m harrival _ _ =>
        rw [harrival] at harr
        cases harr.2
    | moves v v' _ hA _ _ =>
        rw [hA] at hzero
        exact absurd hzero.1 (Multiset.singleton_ne_zero v)
    | other _ hquiet hA hB =>
        refine ⟨?_, ?_, ?_⟩
        · rw [hsplit', hB, hzero.2, add_zero]
        · rw [life_snoc, hlife, hquiet]
          rfl
        · intro m hm
          rcases hprocessing i m hm with hold | ⟨hid, hmem⟩
          · exact hnone m hold
          · have hin := hwaiting m hid hmem
            rw [hsplit, hzero.1, hzero.2] at hin
            exact Multiset.notMem_zero _ hin
  · intro m₀ harr
    rw [arrivals_snoc] at harr
    cases hcases with
    | arrives m harrival hquiet hB =>
        -- the message arrives now, so nothing of it was there before
        rw [harrival, Option.toList_some] at harr
        obtain ⟨hnil, hm⟩ : arrivals i tr = [] ∧ m = m₀ := by
          cases hprev : arrivals i tr with
          | nil =>
              rw [hprev] at harr
              exact ⟨rfl, by simpa using harr⟩
          | cons a as =>
              rw [hprev] at harr
              simp at harr
        subst hm
        obtain ⟨hzero, hlife, hnone⟩ := h.absent hnil
        rw [hsplit, add_eq_zero_iff_of_nonneg (Multiset.zero_le _) (Multiset.zero_le _)] at hzero
        refine ⟨⟨.waiting m, ?_, ?_⟩, ?_⟩
        · rw [hsplit', hB hzero.1, hzero.2, add_zero]
        · rw [life_snoc, hlife, hquiet]
          exact .first
        · intro m' hm'
          rcases hprocessing i m' hm' with hold | ⟨hid, hmem⟩
          · exact absurd hold (hnone m')
          · have hin := hwaiting m' hid hmem
            rw [hsplit, hzero.1, hzero.2] at hin
            exact absurd hin (Multiset.notMem_zero _)
    | other harrival hquiet hA hB =>
        rw [harrival, Option.toList_none, List.append_nil] at harr
        obtain ⟨⟨v, hv, hfits⟩, hcopies⟩ := h.present m₀ harr
        refine ⟨⟨v, ?_, ?_⟩, ?_⟩
        · rw [hsplit', hB, ← hA, ← hsplit, hv]
        · rw [life_snoc, hquiet, Option.toList_none, List.append_nil]
          exact hfits
        · intro m hm
          rcases hprocessing i m hm with hold | ⟨hid, hmem⟩
          · exact hcopies m hold
          · have hin := hwaiting m hid hmem
            rw [hv, Multiset.mem_singleton] at hin
            subst hin
            exact Rounds.same hfits
    | moves v v' harrival hA hB hmove =>
        rw [harrival, Option.toList_none, List.append_nil] at harr
        obtain ⟨⟨u, hu, hfits⟩, hcopies⟩ := h.present m₀ harr
        rw [hsplit, hA] at hu
        obtain ⟨rfl, hrest⟩ : v = u ∧ tokensOf i rest = 0 := by
          have hcons := (Multiset.singleton_eq_cons_iff (tokensOf i rest)).mp hu.symm
          exact ⟨hcons.1.symm, hcons.2⟩
        refine ⟨⟨v', ?_, ?_⟩, ?_⟩
        · rw [hsplit', hB, hrest, add_zero]
        · rw [life_snoc]
          exact hmove m₀ _ hfits
        · intro m hm
          rcases hprocessing i m hm with hold | ⟨hid, hmem⟩
          · exact hcopies m hold
          · have hin := hwaiting m hid hmem
            rw [hsplit, hA, hrest, add_zero, Multiset.mem_singleton] at hin
            subst hin
            exact Rounds.same hfits

/-- Every run keeps the chronicle of every message. -/
theorem chronicle_of_reach {s₀ : S.State} {canvases : List Canvas}
    {tr : List (memorySystem S codec).Label} {c : RoleConfig S codec}
    (h : RoleReach ⟨(MemoryBroker.new, s₀), canvases.map fun c => .client (.fresh c)⟩ tr c)
    (i : TaskId) : Chronicle i tr c := by
  induction h with
  | start =>
      refine ⟨?_, nofun⟩
      intro _
      refine ⟨?_, rfl, nofun⟩
      refine Multiset.filter_eq_nil.mpr ?_
      intro v hv
      rcases mem_ledger hv with ⟨m, hm, -⟩ | ⟨m, hm, -⟩ | ⟨r, hr, rfl⟩
      · exact absurd hm (Multiset.notMem_zero m)
      · exact absurd hm (Multiset.notMem_zero m)
      · obtain ⟨canvas, -, rfl⟩ := List.mem_map.mp hr
        exact nofun
  | step _ hstep ih => exact ih.step (ledgerStep_of_roleStep hstep)

end Step

/-! ## The five points of a life -/

/-- A life is a number of complete rounds and at most one incomplete one. -/
inductive Shape (m₀ : TaskMessage) : List LifeEvent → Prop where
  | rounds {m : TaskMessage} {h : List LifeEvent} : Rounds m₀ m h → Shape m₀ h
  | running {m : TaskMessage} {h : List LifeEvent} :
      Rounds m₀ m h → Shape m₀ (h ++ [.executed m])
  | failing {m : TaskMessage} {h : List LifeEvent} :
      Rounds m₀ m h → Shape m₀ (h ++ [.executed m, .failed])
  | buried {m : TaskMessage} {h : List LifeEvent} (now : DateTime) :
      Rounds m₀ m h → ¬ m.retries < m.maxRetries →
      Shape m₀ (h ++ [.executed m, .failed, .buried (m.buriedCopy now)])
  | won {m : TaskMessage} {h : List LifeEvent} :
      Rounds m₀ m h → Shape m₀ (h ++ [.executed m, .succeeded])

theorem Retrying.shape {m₀ m : TaskMessage} {h : List LifeEvent} (hr : Retrying m₀ m h) :
    Shape m₀ h := by
  obtain ⟨m', now, h', rfl, hrounds, -, -⟩ := hr
  exact .failing hrounds

theorem Burying.shape {m₀ m : TaskMessage} {h : List LifeEvent} (hr : Burying m₀ m h) :
    Shape m₀ h := by
  obtain ⟨m', now, h', rfl, hrounds, -, -⟩ := hr
  exact .failing hrounds

theorem Running.shape {m₀ m : TaskMessage} {h : List LifeEvent} (hr : Running m₀ m h) :
    Shape m₀ h := by
  obtain ⟨h', rfl, hrounds⟩ := hr
  exact .running hrounds

theorem Failed.shape {m₀ m : TaskMessage} {h : List LifeEvent} (hr : Failed m₀ m h) :
    Shape m₀ h := by
  obtain ⟨h', rfl, hrounds⟩ := hr
  exact .failing hrounds

theorem Won.shape {m₀ m : TaskMessage} {h : List LifeEvent} (hr : Won m₀ m h) :
    Shape m₀ h := by
  obtain ⟨h', rfl, hrounds⟩ := hr
  exact .won hrounds

theorem Stage.Fits.shape {m₀ : TaskMessage} {h : List LifeEvent} {t : Stage}
    (hfits : t.Fits m₀ h) : Shape m₀ h := by
  cases t with
  | received b m => exact .rounds hfits
  | cleared b m => exact .rounds hfits
  | postponed m eta => exact .rounds hfits
  | released m eta => exact .rounds hfits
  | running b m => exact Running.shape hfits
  | erred m => exact Running.shape hfits
  | failed m => exact Failed.shape hfits
  | toRetry m => exact Retrying.shape hfits
  | toBury m => exact Burying.shape hfits
  | gone => exact absurd hfits id
  | _ => exact Won.shape hfits

theorem Token.Fits.shape {m₀ : TaskMessage} {h : List LifeEvent} {v : Token}
    (hfits : v.Fits m₀ h) : Shape m₀ h := by
  cases v with
  | waiting m => exact .rounds hfits
  | buried m' =>
      obtain ⟨h', rfl, m, now, h'', rfl, hrounds, hlt, rfl⟩ := hfits
      rw [List.append_assoc]
      exact .buried now hrounds hlt
  | held r =>
      cases r with
      | exec t => exact Stage.Fits.shape hfits
      | client s => exact absurd hfits id
      | settling s =>
          cases s with
          | nack m => exact Retrying.shape hfits
          | deadLetter m => exact Burying.shape hfits

/-- What every life of a message enqueued with no retries comes to. -/
structure LifeSummary (m₀ : TaskMessage) (h : List LifeEvent) : Prop where
  executed : (executions h).map (·.retries.toNat) = List.range (executions h).length
  executed_le : (executions h).length ≤ m₀.maxRetries.toNat + 1
  requeued : (requeues h).map (·.retries.toNat) = (List.range (requeues h).length).map (· + 1)
  requeued_le : (requeues h).length ≤ m₀.maxRetries.toNat
  retryState : ∀ m ∈ requeues h, m.state = .retry
  buried : ∀ m ∈ burials h, m.state = .deadLettered ∧ m.retries = m₀.maxRetries ∧
    failures h = m₀.maxRetries.toNat + 1
  buried_once : (burials h).length ≤ 1
  ends : ∀ h₁ e h₂, h = h₁ ++ e :: h₂ → e.Ends → h₂ = []

/-- Where only the last event can end a life, nothing follows an end. -/
theorem eq_nil_of_ends {h : List LifeEvent} {x : LifeEvent} (hopen : ∀ e ∈ h, ¬ e.Ends)
    {h₁ h₂ : List LifeEvent} {e : LifeEvent} (heq : h ++ [x] = h₁ ++ e :: h₂) (he : e.Ends) :
    h₂ = [] := by
  rcases List.eq_nil_or_concat h₂ with rfl | ⟨h₃, y, rfl⟩
  · rfl
  · rw [List.concat_eq_append, ← List.cons_append, ← List.append_assoc] at heq
    have hfront := (List.append_inj' heq rfl).1
    exact absurd he (hopen e (by rw [hfront]; simp))

/-- Complete rounds followed by at most one incomplete one. -/
theorem RoundsSummary.extend {m₀ m : TaskMessage} {h t : List LifeEvent}
    (hs : RoundsSummary m₀ m h) (hexecuted : executions t = [] ∨ executions t = [m])
    (hrequeued : requeues t = [])
    (hburied : ∀ m' ∈ burials t, m'.state = .deadLettered ∧ m'.retries = m₀.maxRetries ∧
      m.retries = m₀.maxRetries ∧ failures t = 1)
    (honce : (burials t).length ≤ 1)
    (hends : ∀ h₁ e h₂, h ++ t = h₁ ++ e :: h₂ → e.Ends → h₂ = []) :
    LifeSummary m₀ (h ++ t) := by
  have hlen : (executions h).length = m.retries.toNat := by
    have := congrArg List.length hs.executed
    simpa using this
  have hrlen : (requeues h).length = m.retries.toNat := by
    have := congrArg List.length hs.requeued
    simpa using this
  have hbound := hs.bound
  refine ⟨?_, ?_, ?_, ?_, ?_, ?_, ?_, hends⟩
  · rw [executions_append, List.map_append, hs.executed, List.length_append, hlen]
    rcases hexecuted with h' | h'
    · simp [h']
    · simp [h', List.range_succ]
  · rw [executions_append, List.length_append, hlen]
    rcases hexecuted with h' | h' <;> rw [h'] <;> simp only [List.length_nil, List.length_singleton]
      <;> omega
  · rw [requeues_append, hrequeued, List.append_nil, hs.requeued, hrlen]
  · rw [requeues_append, hrequeued, List.append_nil, hrlen]
    exact hbound
  · rw [requeues_append, hrequeued, List.append_nil]
    exact hs.retryState
  · rw [burials_append, hs.buried, List.nil_append, failures_append, hs.failed]
    intro m' hm'
    obtain ⟨hstate, hretries, hmax, hfail⟩ := hburied m' hm'
    exact ⟨hstate, hretries, by rw [hmax, hfail]⟩
  · rw [burials_append, hs.buried, List.nil_append]
    exact honce

/-- Nothing ends an open life. -/
theorem not_ends_of_open {h : List LifeEvent} (hopen : ∀ e ∈ h, ¬ e.Ends) :
    ∀ h₁ e h₂, h = h₁ ++ e :: h₂ → e.Ends → h₂ = [] := by
  intro h₁ e h₂ heq he
  exact absurd he (hopen e (by rw [heq]; simp))

theorem Shape.summary {m₀ : TaskMessage} {h : List LifeEvent} (hshape : Shape m₀ h)
    (h₀ : m₀.retries = 0) : LifeSummary m₀ h := by
  cases hshape with
  | rounds hr =>
      have hs := hr.summary h₀
      have := hs.extend (t := []) (.inl rfl) rfl nofun (Nat.zero_le 1)
        (not_ends_of_open (by simpa using hs.open_))
      simpa using this
  | running hr =>
      have hs := hr.summary h₀
      refine hs.extend (.inr rfl) rfl nofun (Nat.zero_le 1) (not_ends_of_open ?_)
      intro e he
      rcases List.mem_append.mp he with hold | hnew
      · exact hs.open_ e hold
      · obtain rfl := List.mem_singleton.mp hnew
        exact id
  | failing hr =>
      have hs := hr.summary h₀
      refine hs.extend (.inr rfl) rfl nofun (Nat.zero_le 1) (not_ends_of_open ?_)
      intro e he
      simp only [List.mem_append, List.mem_cons, List.not_mem_nil, or_false] at he
      rcases he with hold | rfl | rfl
      · exact hs.open_ e hold
      · exact id
      · exact id
  | @won m h hr =>
      have hs := hr.summary h₀
      refine hs.extend (.inr rfl) rfl nofun (Nat.zero_le 1) ?_
      intro h₁ e h₂ heq he
      have hlast : (h ++ [.executed m]) ++ [.succeeded] = h₁ ++ e :: h₂ := by
        rw [List.append_assoc]
        exact heq
      refine eq_nil_of_ends ?_ hlast he
      intro e he
      rcases List.mem_append.mp he with hold | hnew
      · exact hs.open_ e hold
      · obtain rfl := List.mem_singleton.mp hnew
        exact id
  | @buried m h now hr hlt =>
      have hs := hr.summary h₀
      have hmax : m.maxRetries = m₀.maxRetries := hr.same.maxRetries_eq
      have hretries : m.retries = m₀.maxRetries := by
        have hge : ¬ m.retries.toNat < m.maxRetries.toNat := fun h => hlt (UInt32.lt_iff_toNat_lt.mpr h)
        have hle := hs.bound
        rw [hmax] at hge
        exact UInt32.toNat_inj.mp (by omega)
      refine hs.extend (.inr rfl) rfl ?_ (Nat.le_refl 1) ?_
      · intro m' hm'
        obtain rfl : m' = m.buriedCopy now := List.mem_singleton.mp hm'
        exact ⟨rfl, hretries, hretries, rfl⟩
      · intro h₁ e h₂ heq he
        have hlast : (h ++ [.executed m, .failed]) ++ [.buried (m.buriedCopy now)] =
            h₁ ++ e :: h₂ := by
          rw [List.append_assoc]
          exact heq
        refine eq_nil_of_ends ?_ hlast he
        intro e he
        simp only [List.mem_append, List.mem_cons, List.not_mem_nil, or_false] at he
        rcases he with hold | rfl | rfl
        · exact hs.open_ e hold
        · exact id
        · exact id

/-! ## Bounded retries -/

section Bounded

variable {S : Service resultBackendTrait} {codec : Codec}

/-- What every history says about a message `m₀` that is enqueued once, with no
retries, and about the copies of it the broker holds afterwards. -/
structure BoundedRetries (m₀ : TaskMessage) (tr : List (memorySystem S codec).Label)
    (c : (memorySystem S codec).Config) : Prop where
  /-- It is executed at most `max_retries + 1` times. -/
  executions_le : (executions (life m₀.id tr)).length ≤ m₀.maxRetries.toNat + 1
  /-- Execution `k` sees `retries = k`. -/
  sees : ∀ (k : Nat) (m : TaskMessage),
    (executions (life m₀.id tr))[k]? = some m → m.retries.toNat = k
  /-- The copy put back after the `k`-th failure is in state `Retry` and carries
  `k + 1` retries, and the backoff gets `k`. -/
  requeued : ∀ (k : Nat) (m : TaskMessage), (requeues (life m₀.id tr))[k]? = some m →
    m.state = .retry ∧ m.retries.toNat = k + 1 ∧ (m.retries - 1).toNat = k ∧
      k < m₀.maxRetries.toNat
  /-- Once no execution is under way, every failure has been answered by a copy put
  back or buried. -/
  answered : (∀ p ∈ c.threads, p = .ret ()) →
    failures (life m₀.id tr) =
      (requeues (life m₀.id tr)).length + (burials (life m₀.id tr)).length
  /-- A copy is buried after exactly `max_retries + 1` failures, with the final
  state and all retries used. -/
  buried : ∀ m ∈ burials (life m₀.id tr),
    m.state = .deadLettered ∧ m.retries = m₀.maxRetries ∧
      failures (life m₀.id tr) = m₀.maxRetries.toNat + 1
  buried_once : (burials (life m₀.id tr)).length ≤ 1
  /-- The dead-letter queues hold what was buried, at most once. -/
  deadLetters : ∀ m ∈ c.state.1.dlq.contents, m.id = m₀.id → m ∈ burials (life m₀.id tr)
  deadLetters_once : (c.state.1.dlq.contents.filter fun m => m.id = m₀.id).card ≤ 1
  /-- It is not executed again after a success or after it was buried. -/
  ends : ∀ tr₁ l tr₂ e, tr = tr₁ ++ l :: tr₂ → lifeEvent m₀.id l = some e → e.Ends →
    executions (life m₀.id tr₂) = []
  /-- The retry counter neither overflows nor underflows. -/
  arithmetic : ∀ m ∈ executions (life m₀.id tr), m.retries < m.maxRetries → ∀ now,
    (m.retryCopy now).retries.toNat = m.retries.toNat + 1 ∧
      ((m.retryCopy now).retries - 1).toNat = m.retries.toNat
  /-- Every copy in the broker differs from `m₀` in state, retries and update time
  at most. -/
  queued_same : ∀ m ∈ c.state.1.queues.contents, m.id = m₀.id → m.SameTask m₀
  dead_same : ∀ m ∈ c.state.1.dlq.contents, m.id = m₀.id → m.SameTask m₀
  processing_same : ∀ m, c.state.1.processing.lookup m₀.id = some m → m.SameTask m₀

/-- Decrementing what was incremented. -/
theorem add_one_sub_one (a : UInt32) : a + 1 - 1 = a := by
  rw [UInt32.add_sub_cancel]

theorem life_append (i : TaskId) (tr tr' : List (memorySystem S codec).Label) :
    life i (tr ++ tr') = life i tr ++ life i tr' := List.filterMap_append

/-- A token of message `i` that the ledger holds is the one token of `i`. -/
theorem eq_token {b : MemoryBroker} {rs : List Role} {i : TaskId} {v w : Token}
    (hv : tokensOf i (ledger b rs) = {v}) (hw : w ∈ ledger b rs) (hi : w.task = some i) :
    w = v := by
  have hmem : w ∈ tokensOf i (ledger b rs) := Multiset.mem_filter.mpr ⟨hw, hi⟩
  rw [hv] at hmem
  exact Multiset.mem_singleton.mp hmem

theorem waiting_mem_ledger {b : MemoryBroker} {m : TaskMessage} (rs : List Role)
    (h : m ∈ b.queues.contents) : .waiting m ∈ ledger b rs :=
  Multiset.mem_add.mpr (.inl (Multiset.mem_add.mpr (.inl (Multiset.mem_map_of_mem _ h))))

theorem buried_mem_ledger {b : MemoryBroker} {m : TaskMessage} (rs : List Role)
    (h : m ∈ b.dlq.contents) : .buried m ∈ ledger b rs :=
  Multiset.mem_add.mpr (.inl (Multiset.mem_add.mpr (.inr (Multiset.mem_map_of_mem _ h))))

/-- There are no more dead letters of message `i` than tokens of it. -/
theorem card_deadLetters_le (b : MemoryBroker) (rs : List Role) (i : TaskId) :
    (b.dlq.contents.filter fun m => m.id = i).card ≤ (tokensOf i (ledger b rs)).card := by
  have hmap : (b.dlq.contents.filter fun m => m.id = i).map Token.buried =
      tokensOf i (b.dlq.contents.map Token.buried) := by
    rw [tokensOf, Multiset.filter_map]
    congr 1
    refine Multiset.filter_congr ?_
    intro m _
    exact ⟨fun h => congrArg some h, fun h => Option.some.inj h⟩
  rw [← Multiset.card_map Token.buried, hmap]
  refine Multiset.card_le_card (Multiset.filter_le_filter _ ?_)
  exact (Multiset.le_add_left _ _).trans (Multiset.le_add_right _ _)

/-- A token at rest has answered all its failures. -/
theorem Token.Fits.answered {m₀ : TaskMessage} {h : List LifeEvent} {v : Token}
    (hfits : v.Fits m₀ h) (h₀ : m₀.retries = 0) (hrest : ∀ r, v = .held r → r.Final) :
    failures h = (requeues h).length + (burials h).length := by
  have hcount : ∀ {m h'}, Rounds m₀ m h' →
      failures h' = (requeues h').length ∧ burials h' = [] := by
    intro m h' hr
    have hs := hr.summary h₀
    have hlen : (requeues h').length = m.retries.toNat := by
      have := congrArg List.length hs.requeued
      simpa using this
    exact ⟨hs.failed.trans hlen.symm, hs.buried⟩
  cases v with
  | waiting m =>
      obtain ⟨hf, hb⟩ := hcount hfits
      rw [hf, hb]
      rfl
  | buried m' =>
      obtain ⟨h', rfl, m, now, h'', rfl, hrounds, -, -⟩ := hfits
      obtain ⟨hf, hb⟩ := hcount hrounds
      rw [List.append_assoc, failures_append, requeues_append, burials_append, hf, hb]
      simp [failures, requeues, burials]
  | held r =>
      have hfinal := hrest r rfl
      cases r with
      | client s => exact absurd hfits id
      | settling s => exact absurd hfinal id
      | exec t =>
          cases t with
          | gone => exact absurd hfits id
          | finished m result =>
              obtain ⟨h', rfl, hrounds⟩ := hfits
              obtain ⟨hf, hb⟩ := hcount hrounds
              rw [failures_append, requeues_append, burials_append, hf, hb]
              simp [failures, requeues, burials]
          | _ => exact absurd hfinal id

/-- Every copy that fits a life differs from the first only where it may. -/
theorem Token.Fits.same {m₀ m : TaskMessage} {h : List LifeEvent}
    (hfits : (Token.waiting m).Fits m₀ h ∨ (Token.buried m).Fits m₀ h) : m.SameTask m₀ := by
  rcases hfits with hr | ⟨h', -, m', now, h'', -, hr, -, rfl⟩
  · exact Rounds.same hr
  · exact hr.same

/-- The `k`-th element of a list whose image is known position by position. -/
theorem image_getElem {α : Type} {l : List α} {f : α → Nat} {g : Nat → Nat}
    (h : l.map f = (List.range l.length).map g) {k : Nat} {a : α} (hk : l[k]? = some a) :
    f a = g k := by
  obtain ⟨hlt, rfl⟩ := List.getElem?_eq_some_iff.mp hk
  have hget := congrArg (fun l => l[k]?) h
  simpa [hlt] using hget

/-- A thread that has returned has come to a final role. -/
theorem final_of_returned {threads : List (Prog memoryInterface Unit)} {rs : List Role}
    (h : List.Forall₂ (Prog.Follows (roles codec)) threads rs)
    (hret : ∀ p ∈ threads, p = .ret ()) : ∀ r ∈ rs, r.Final := by
  induction h with
  | nil => intro r hr; cases hr
  | @cons p r threads rs hp hrest ih =>
      intro r' hr'
      rcases List.mem_cons.mp hr' with rfl | hmem
      · have hfollows : Prog.Follows (roles codec) p r' := hp
        rw [hret p List.mem_cons_self] at hfollows
        exact hfollows
      · exact ih (fun p hp => hret p (List.mem_cons_of_mem _ hp)) r' hmem

/-- Bounded retries over the in-memory broker.  For every message enqueued once
with `retries = 0`, any retry budget, any handlers, middlewares and backend, and in
every interleaving with other messages, workers and clients. -/
theorem bounded_retries {s₀ : S.State} {canvases : List Canvas}
    {tr : List (memorySystem S codec).Label} {c : (memorySystem S codec).Config}
    (hreach : (memorySystem S codec).Reach (memoryStart S codec s₀ canvases) tr c)
    {m₀ : TaskMessage} (honce : arrivals m₀.id tr = [m₀]) (h₀ : m₀.retries = 0) :
    BoundedRetries m₀ tr c := by
  obtain ⟨rs, hroles, hfollow⟩ := reach_roles hreach
  obtain ⟨⟨v, hv, hfits⟩, hprocessing⟩ := (chronicle_of_reach hroles m₀.id).present m₀ honce
  have hv' : tokensOf m₀.id (ledger c.state.1 rs) = {v} := hv
  have hs := hfits.shape.summary h₀
  refine ⟨hs.executed_le, ?_, ?_, ?_, hs.buried, hs.buried_once, ?_, ?_, ?_, ?_, ?_, ?_,
    hprocessing⟩
  · intro k m hk
    have himage : (executions (life m₀.id tr)).map (·.retries.toNat) =
        (List.range (executions (life m₀.id tr)).length).map id := by
      rw [List.map_id, hs.executed]
    exact image_getElem himage hk
  · intro k m hk
    have hretries : m.retries.toNat = k + 1 := image_getElem hs.requeued hk
    obtain ⟨hlt, -⟩ := List.getElem?_eq_some_iff.mp hk
    have hle := hs.requeued_le
    refine ⟨hs.retryState m (List.mem_of_getElem? hk), hretries, ?_, by omega⟩
    have hone : (1 : UInt32) ≤ m.retries := UInt32.le_iff_toNat_le.mpr (by
      rw [hretries]
      exact Nat.le_add_left 1 k)
    rw [UInt32.toNat_sub_of_le _ _ hone, hretries]
    rfl
  · intro hret
    refine hfits.answered h₀ ?_
    rintro r rfl
    have hmem : Token.held r ∈ tokensOf m₀.id (ledger c.state.1 rs) := by
      rw [hv']
      exact Multiset.mem_singleton_self _
    rcases mem_ledger (Multiset.mem_of_mem_filter hmem) with ⟨m, -, h⟩ | ⟨m, -, h⟩ | ⟨r', hr', h⟩
    · cases h
    · cases h
    · cases h
      exact final_of_returned hfollow hret r hr'
  · intro m hm hid
    have hbur := eq_token hv' (buried_mem_ledger rs hm) (congrArg some hid)
    rw [← hbur] at hfits
    obtain ⟨h', hlife, -⟩ := hfits
    rw [hlife, burials_append]
    exact List.mem_append.mpr (.inr (List.mem_singleton.mpr rfl))
  · refine (card_deadLetters_le c.state.1 rs m₀.id).trans ?_
    rw [hv', Multiset.card_singleton]
  · intro tr₁ l tr₂ e htr hl he
    have hlife : life m₀.id tr = life m₀.id tr₁ ++ e :: life m₀.id tr₂ := by
      rw [htr, life_append]
      congr 1
      exact List.filterMap_cons_some hl
    rw [hs.ends _ e _ hlife he]
    rfl
  · intro m _ hlt now
    have hinc : (m.retryCopy now).retries.toNat = m.retries.toNat + 1 := toNat_add_one_of_lt hlt
    refine ⟨hinc, ?_⟩
    show (m.retries + 1 - 1).toNat = m.retries.toNat
    rw [add_one_sub_one]
  · intro m hm hid
    have heq := eq_token hv' (waiting_mem_ledger rs hm) (congrArg some hid)
    rw [← heq] at hfits
    exact Token.Fits.same (.inl hfits)
  · intro m hm hid
    have heq := eq_token hv' (buried_mem_ledger rs hm) (congrArg some hid)
    rw [← heq] at hfits
    exact Token.Fits.same (.inr hfits)

/-- The copies executed in complete rounds are copies of the message. -/
theorem Rounds.executed_same {m₀ m : TaskMessage} {h : List LifeEvent} (hr : Rounds m₀ m h) :
    ∀ x ∈ executions h, x.SameTask m₀ := by
  induction hr with
  | first => nofun
  | @next m h now hr _ ih =>
      intro x hx
      rw [executions_append] at hx
      rcases List.mem_append.mp hx with hx | hx
      · exact ih x hx
      · obtain rfl : x = m := by simpa [executions] using hx
        exact hr.same

theorem Shape.executed_same {m₀ : TaskMessage} {h : List LifeEvent} (hshape : Shape m₀ h) :
    ∀ x ∈ executions h, x.SameTask m₀ := by
  have hone : ∀ {m : TaskMessage} {h t : List LifeEvent}, Rounds m₀ m h → executions t = [m] →
      ∀ x ∈ executions (h ++ t), x.SameTask m₀ := by
    intro m h t hr ht x hx
    rw [executions_append, ht] at hx
    rcases List.mem_append.mp hx with hx | hx
    · exact hr.executed_same x hx
    · obtain rfl := List.mem_singleton.mp hx
      exact hr.same
  cases hshape with
  | rounds hr => exact hr.executed_same
  | running hr => exact hone hr rfl
  | failing hr => exact hone hr rfl
  | buried now hr => exact hone hr rfl
  | won hr => exact hone hr rfl

/-- Every executed copy of a message that was enqueued once is a copy of it. -/
theorem executed_same {s₀ : S.State} {canvases : List Canvas}
    {tr : List (memorySystem S codec).Label} {c : (memorySystem S codec).Config}
    (hreach : (memorySystem S codec).Reach (memoryStart S codec s₀ canvases) tr c)
    {m₀ : TaskMessage} (honce : arrivals m₀.id tr = [m₀]) :
    ∀ x ∈ executions (life m₀.id tr), x.SameTask m₀ := by
  obtain ⟨rs, hroles, -⟩ := reach_roles hreach
  obtain ⟨⟨v, -, hfits⟩, -⟩ := (chronicle_of_reach hroles m₀.id).present m₀ honce
  exact hfits.shape.executed_same

/-- Where a message that was enqueued once is at rest: in its queue, buried, or done. -/
theorem resting_cases {s₀ : S.State} {canvases : List Canvas}
    {tr : List (memorySystem S codec).Label} {c : (memorySystem S codec).Config}
    (hreach : (memorySystem S codec).Reach (memoryStart S codec s₀ canvases) tr c)
    {m₀ : TaskMessage} (honce : arrivals m₀.id tr = [m₀]) (hret : ∀ p ∈ c.threads, p = .ret ()) :
    (∃ m ∈ c.state.1.queues.contents, m.id = m₀.id) ∨ burials (life m₀.id tr) ≠ [] ∨
      .succeeded ∈ life m₀.id tr := by
  obtain ⟨rs, hroles, hfollow⟩ := reach_roles hreach
  obtain ⟨⟨v, hv, hfits⟩, -⟩ := (chronicle_of_reach hroles m₀.id).present m₀ honce
  have hv' : tokensOf m₀.id (ledger c.state.1 rs) = {v} := hv
  have hmem : v ∈ tokensOf m₀.id (ledger c.state.1 rs) := by
    rw [hv']
    exact Multiset.mem_singleton_self v
  obtain ⟨hledger, htask⟩ := Multiset.mem_filter.mp hmem
  rcases mem_ledger hledger with ⟨m, hm, rfl⟩ | ⟨m, hm, rfl⟩ | ⟨r, hr, rfl⟩
  · exact .inl ⟨m, hm, Option.some.inj htask⟩
  · obtain ⟨h', hlife, -⟩ := hfits
    refine .inr (.inl ?_)
    rw [hlife, burials_append]
    simp [burials]
  · have hfinal := final_of_returned hfollow hret r hr
    cases r with
    | client s => exact absurd hfits id
    | settling s => exact absurd hfinal id
    | exec t =>
        cases t with
        | gone => exact absurd hfits id
        | finished m result =>
            obtain ⟨h', hlife, -⟩ := hfits
            refine .inr (.inr ?_)
            rw [hlife]
            simp
        | _ => exact absurd hfinal id

end Bounded

/-- The in-memory broker with the in-memory result backend. -/
abbrev memoryPair : Machine memoryInterface := memorySystem MemoryResultBackend.service blankCodec

/-- A message whose task no worker knows, with one retry, and two workers that
execute it in turn. -/
def twoFailures : List memoryPair.Move :=
  let w : Worker := ⟨[], [], false⟩
  let o : memoryPair.Oracle := ⟨stillRuntime, (), ()⟩
  .env (.enqueue ((plainMessage ⟨7⟩).withMaxRetries 1)) ::
    .env (.poll w ["q"]) :: List.replicate 7 (.run 0 o) ++
    .env (.poll w ["q"]) :: List.replicate 6 (.run 1 o)

/-- The in-memory pair at its start. -/
def memoryOrigin : memoryPair.Config :=
  memoryStart MemoryResultBackend.service blankCodec MemoryResultBackend.new []

theorem twoFailures_plays : (memoryOrigin.playAll twoFailures).isSome = true := by
  decide +kernel

/-- The history of `twoFailures`. -/
def twoFailuresHistory : List memoryPair.Label :=
  ((memoryOrigin.playAll twoFailures).get twoFailures_plays).1

theorem twoFailures_arrivals :
    arrivals ⟨7⟩ twoFailuresHistory = [(plainMessage ⟨7⟩).withMaxRetries 1] := by rfl

/-- The run of `twoFailures`: executed twice, put back once, buried once. -/
theorem bounded_retries_twoFailures :
    (executions (life ⟨7⟩ twoFailuresHistory)).length = 2 ∧
      (requeues (life ⟨7⟩ twoFailuresHistory)).length = 1 ∧
      (burials (life ⟨7⟩ twoFailuresHistory)).length = 1 ∧
      ∃ c, memoryPair.Reach memoryOrigin twoFailuresHistory c ∧
        BoundedRetries ((plainMessage ⟨7⟩).withMaxRetries 1) twoFailuresHistory c := by
  have hreach := Machine.Config.reach_of_playAll (Option.some_get twoFailures_plays).symm
  refine ⟨by decide +kernel, by decide +kernel, by decide +kernel, _, hreach, ?_⟩
  exact bounded_retries hreach twoFailures_arrivals rfl

end Kojin.Core
