/-
  Core/Timings.lean --- the timings of `OtelMiddleware` (`kojin-core`:
  `middleware/otel.rs`).

  The middleware stands at one place of the list.  Its `before` hook writes down when the
  execution has started; its `after` or its `on_error` hook takes that back and records
  how long it took.  An execution is open between the two:

      durations it has recorded + 1 if it is open = 1 if its `before` hook has run

  and the timings are those of the open executions.

  The `on_error` hooks run whichever `before` hook has failed.  One that comes to an
  execution without a timing of its own finds no entry, unless another execution of the
  same message is open.  So the executions have to be told apart by their messages: one
  may begin when every earlier one of the same message has handed it back.
-/
import Kojin.Core.Metrics
import Kojin.Core.Redelivery
import Kojin.Foundation.Journal

set_option autoImplicit false

namespace Kojin.Core

open Kojin.Foundation

/-! ## Executions under measurement -/

/-- What arrives at a pool of executions whose middleware keeps a state: an execution
begins, or something changes around the middleware. -/
inductive PoolStimulus (mw : Middleware) where
  | execute (x : Execution)
  | tick (x : mw.Tick)

/-- Executions of any messages by workers of the fleet, whose `k`-th middleware is `mw`. -/
def mountedPool (mw : Middleware) (k : Nat) (service : Service traits) (codec : Codec)
    (crew : Fleet) : Machine traits where
  toService := mw.mount k service
  Stimulus := PoolStimulus mw
  accept
    | .execute x, s => (pool (mw.mount k service) codec crew).accept x s
    | .tick x, s => some ((s.1, mw.tick x s.2), [])

section Measured

variable (service : Service traits) (codec : Codec) (ahead : List Nat) (k : Nat)
  (behind : List Nat)

/-- Executions whose `k`-th middleware measures them. -/
abbrev measured : Machine traits :=
  mountedPool otelMiddleware k service codec ⟨ahead ++ k :: behind, []⟩

variable {service codec ahead k behind}

/-- The message a log is about. -/
def taskOf (log : (measured service codec ahead k behind).Log) : Option TaskId :=
  match log.origin with
  | .execute x => some x.message.id
  | .tick _ => none

/-- The `before` hook of the middleware has run. -/
def measures (log : (measured service codec ahead k behind).Log) : Bool :=
  log.calls.any fun call => starts k call.event

/-- How many durations the execution has recorded: those that the histogram has gained
in its calls. -/
def durations (log : (measured service codec ahead k behind).Log) : Nat :=
  (log.calls.map fun call =>
    call.after.2.otel.duration.length - call.before.2.otel.duration.length).sum

/-- The call hands the message back to the broker. -/
def handsBack : Event traits → Bool
  | ⟨.broker (.ack _), _⟩ => true
  | ⟨.broker (.nack _), _⟩ => true
  | ⟨.broker (.deadLetter _), _⟩ => true
  | _ => false

/-- The message has been handed back. -/
def handedBack (log : (measured service codec ahead k behind).Log) : Bool :=
  log.calls.any fun call => handsBack call.event

/-- Executions under way at the same time are of different messages: one may begin when
every earlier one of its message has handed it back. -/
def Distinct (logs : List (measured service codec ahead k behind).Log) :
    PoolStimulus otelMiddleware → Prop
  | .execute x => ∀ log ∈ logs, taskOf log = some x.message.id → handedBack log = true
  | .tick _ => True

/-- No timing is leaked.  The timings are of messages whose execution is in flight,
and has not handed its message back; and an execution has recorded one duration when it
has handed its message back or has returned if its `before` hook has run, none if it has
not, and never more. -/
structure NoLeak (threads : List ((measured service codec ahead k behind).Log × Prog traits Unit))
    (q : TimedOtel) : Prop where
  inFlight : ∀ id ∈ q.otel.timings, ∃ θ ∈ threads,
    taskOf θ.1 = some id ∧ handedBack θ.1 = false ∧ θ.2 ≠ .ret ()
  atMostOnce : ∀ θ ∈ threads, durations θ.1 ≤ (measures θ.1).toNat
  once : ∀ θ ∈ threads, handedBack θ.1 = true ∨ θ.2 = .ret () →
    durations θ.1 = (measures θ.1).toNat

end Measured

/-! ## The phases of a measurement -/

/-- The `before` hook of the `k`-th middleware is still to come. -/
def Phase.precedes (k : Nat) : Phase → Bool
  | .entering _ => true
  | .checking _ rest => decide (k ∈ rest)
  | _ => false

/-- If that hook has run, the `after` or `on_error` hook is still to come. -/
def Phase.awaits (k : Nat) : Phase → Bool
  | .checking _ _ => true
  | .rejected _ _ => true
  | .erred _ _ => true
  | .failing _ _ rest => decide (k ∈ rest)
  | .succeeding _ _ rest => decide (k ∈ rest)
  | _ => false

/-- The message in hand. -/
def Phase.task : Phase → Option TaskId
  | .entering m => some m.id
  | .leaving m => some m.id
  | .checking m _ => some m.id
  | .rejected m _ => some m.id
  | .erred m _ => some m.id
  | .failing m _ _ => some m.id
  | .retrying m => some m.id
  | .burying m => some m.id
  | .succeeding m _ _ => some m.id
  | .closing m _ => some m.id
  | .over => none

/-- What a call means to the measurement: it begins, it ends, or the call is none of its
hooks. -/
inductive Phase.Turn (k : Nat) (t : Phase) (q : TimedOtel) (e : Event traits) (t' : Phase)
    (q' : TimedOtel) : Prop where
  | begins {m : TaskMessage} :
      t.task = some m.id → t.precedes k = true → t'.precedes k = false → t'.awaits k = true →
      starts k e = true → handsBack e = false →
      q'.otel.timings = q.otel.timings.insert m.id q.clock →
      q'.otel.duration = q.otel.duration → Turn k t q e t' q'
  | ends {m : TaskMessage} :
      t.task = some m.id → t'.precedes k = false → t.awaits k = true → t'.awaits k = false →
      starts k e = false →
      q'.otel.timings = (q.otel.recordDuration q.clock m).timings →
      q'.otel.duration = (q.otel.recordDuration q.clock m).duration → Turn k t q e t' q'
  | other :
      (t'.precedes k = true → t.precedes k = true) →
      (t.precedes k = true ∨ t'.awaits k = t.awaits k) → starts k e = false →
      (handsBack e = true → t'.precedes k = false ∧ t'.awaits k = false) → q' = q →
      Turn k t q e t' q'

section Turns

variable {ahead behind : List Nat} {k : Nat} {t t' : Phase} {op : traits.Op} {r : traits.Res op}

/-- An execution keeps its message. -/
theorem Phase.Step.task_eq {crew : Fleet} (hstep : Phase.Step crew t op r t') {i : TaskId}
    (h : t'.task = some i) : t.task = some i := by
  cases hstep <;> first | exact h | cases h

/-- Behind one hook of the middleware there is no other. -/
theorem not_mem_behind (hahead : k ∉ ahead) (hbehind : k ∉ behind) {rest : List Nat}
    (h : k :: rest <:+ ahead ++ k :: behind) : k ∉ rest := by
  have hle := count_le_one hahead hbehind h
  rw [List.count_cons_self] at hle
  exact List.count_eq_zero.mp (by omega)

/-- One hook of another middleware makes no difference. -/
theorem decide_mem_behind {mw : Nat} {rest : List Nat} (hmw : mw ≠ k) :
    decide (k ∈ mw :: rest) = decide (k ∈ rest) := by
  simp [Ne.symm hmw]

/-- A call that is none of its hooks and hands nothing back. -/
theorem Phase.Turn.aside {q q' : TimedOtel} {e : Event traits} (hpassed : t'.precedes k = false)
    (hawaits : t'.awaits k = t.awaits k) (hstarts : starts k e = false)
    (hhands : handsBack e = false) (hsame : q' = q) : t.Turn k q e t' q' := by
  refine .other (fun hfirst => ?_) (.inr hawaits) hstarts (fun hback => ?_) hsame
  · rw [hpassed] at hfirst
    cases hfirst
  · rw [hhands] at hback
    cases hback

/-- A call behind all its hooks. -/
theorem Phase.Turn.closed {q q' : TimedOtel} {e : Event traits} (hpassed : t'.precedes k = false)
    (hclosed : t.awaits k = false) (hclosed' : t'.awaits k = false) (hstarts : starts k e = false)
    (hsame : q' = q) : t.Turn k q e t' q' := by
  refine .other (fun hfirst => ?_) (.inr (hclosed'.trans hclosed.symm)) hstarts
    (fun _ => ⟨hpassed, hclosed'⟩) hsame
  rw [hpassed] at hfirst
  cases hfirst

/-- What one call means to the measurement. -/
theorem Phase.Step.turn (hahead : k ∉ ahead) (hbehind : k ∉ behind)
    (hstep : Phase.Step ⟨ahead ++ k :: behind, []⟩ t op r t')
    (hsound : t.Sound (ahead ++ k :: behind)) {q q' : TimedOtel}
    (hq : otelMiddleware.answer k op q = some (r, q') ∨
      otelMiddleware.answer k op q = none ∧ q' = q) :
    t.Turn k q ⟨op, r⟩ t' q' := by
  have hquiet : otelMiddleware.answer k op q = none → q' = q := Middleware.unanswered hq
  cases hstep with
  | pass m mw rest =>
      by_cases hmw : mw = k
      · subst hmw
        have hrest := not_mem_behind hahead hbehind hsound
        cases Middleware.answered hq (if_pos rfl)
        exact .begins rfl (by simp [Phase.precedes]) (by simpa [Phase.precedes] using hrest)
          rfl (by simp [starts]) rfl rfl rfl
      · exact .other (by simp [Phase.precedes, Ne.symm hmw]) (.inr rfl) (by simp [starts, hmw])
          (fun hback => absurd hback Bool.false_ne_true)
          (hquiet (by simp [Middleware.answer, hmw]))
  | reject m mw rest e =>
      have hmw : mw ≠ k := by
        rintro rfl
        cases Middleware.answered hq (if_pos rfl)
      exact .aside rfl rfl (by simp [starts, hmw]) rfl
        (hquiet (by simp [Middleware.answer, hmw]))
  | onError m e mw rest r =>
      by_cases hmw : mw = k
      · subst hmw
        have hrest := not_mem_behind hahead hbehind hsound
        cases Middleware.answered hq (if_pos rfl)
        exact .ends rfl rfl (by simp [Phase.awaits]) (by simpa [Phase.awaits] using hrest)
          rfl rfl rfl
      · exact .aside rfl (decide_mem_behind hmw).symm rfl rfl
          (hquiet (by simp [Middleware.answer, hmw]))
  | after m result mw rest r =>
      by_cases hmw : mw = k
      · subst hmw
        have hrest := not_mem_behind hahead hbehind hsound
        cases Middleware.answered hq (if_pos rfl)
        exact .ends rfl rfl (by simp [Phase.awaits]) (by simpa [Phase.awaits] using hrest)
          rfl rfl rfl
      · exact .aside rfl (decide_mem_behind hmw).symm rfl rfl
          (hquiet (by simp [Middleware.answer, hmw]))
  | note _ hturns =>
      exact .other id (.inr rfl) rfl (fun hback => absurd hback Bool.false_ne_true) (hquiet rfl)
  | clock heta hnow =>
      exact .other id (.inr rfl) rfl (fun hback => absurd hback Bool.false_ne_true) (hquiet rfl)
  | enter m =>
      exact .other (fun _ => rfl) (.inl rfl) rfl (fun hback => absurd hback Bool.false_ne_true)
        (hquiet rfl)
  | rejection m e | handled m result | failure m e | unknown e hunknown =>
      exact .aside rfl (by simp [Phase.awaits]) rfl rfl (hquiet rfl)
  | postpone _ _ | err _ _ | retry _ _ _ | sleep _ _ | bury _ _ _ | reschedule _ _ =>
      exact .aside rfl rfl rfl rfl (hquiet rfl)
  | release _ _ | nack _ _ | deadLetter _ _ | ack _ _ _ =>
      exact .closed rfl rfl rfl rfl (hquiet rfl)
  | followUp m result r hop =>
      exact .closed rfl rfl rfl (starts_followsUp hop k r)
        (hquiet (Middleware.answer_followsUp hop otelMiddleware k q))

end Turns

/-! ## What a hook does to the timings -/

/-- A duration is recorded for a message that has a timing, and takes it away. -/
theorem OtelMiddleware.recordDuration_of_mem {q : OtelMiddleware} {m : TaskMessage}
    (h : m.id ∈ q.timings) (now : Nat) :
    (q.recordDuration now m).timings = q.timings.erase m.id ∧
      (q.recordDuration now m).duration.length = q.duration.length + 1 := by
  obtain ⟨start, hstart⟩ := Option.isSome_iff_exists.mp (AList.lookup_isSome.mpr h)
  rw [recordDuration, hstart]
  exact ⟨rfl, List.length_append⟩

/-- None is recorded for a message without one. -/
theorem OtelMiddleware.recordDuration_of_not_mem {q : OtelMiddleware} {m : TaskMessage}
    (h : m.id ∉ q.timings) (now : Nat) : q.recordDuration now m = q := by
  rw [recordDuration, AList.lookup_eq_none.mpr h]

/-! ## The invariant -/

section Invariant

variable {service : Service traits} {codec : Codec} {ahead behind : List Nat} {k : Nat}

/-- An execution with its log, and the phase it has come to. -/
abbrev Party (service : Service traits) (codec : Codec) (ahead : List Nat) (k : Nat)
    (behind : List Nat) : Type := (measured service codec ahead k behind).Log × Phase

/-- The execution is being measured. -/
def isOpen (p : Party service codec ahead k behind) : Bool := measures p.1 && p.2.awaits k

/-- The execution of this message is being measured. -/
def Opened (i : TaskId) (p : Party service codec ahead k behind) : Prop :=
  taskOf p.1 = some i ∧ isOpen p = true

/-- A log in keeping with the phase. -/
structure InStep (p : Party service codec ahead k behind) : Prop where
  sound : p.2.Sound (ahead ++ k :: behind)
  task : ∀ i, p.2.task = some i → taskOf p.1 = some i
  unmeasured : p.2.precedes k = true → measures p.1 = false
  balance : durations p.1 + (isOpen p).toNat = (measures p.1).toNat
  handedBack : handedBack p.1 = true → p.2.precedes k = false ∧ p.2.awaits k = false

/-- All logs are in keeping with their phases, executions of one message follow each
other, and the timings are those of the open executions. -/
structure Timekept (parties : List (Party service codec ahead k behind)) (q : TimedOtel) :
    Prop where
  inStep : ∀ p ∈ parties, InStep p
  apart : (parties.map Prod.fst).Pairwise fun a b => taskOf a = taskOf b → handedBack a = true
  entries : ∀ i, i ∈ q.otel.timings ↔ ∃ p ∈ parties, Opened i p

variable {log : (measured service codec ahead k behind).Log}
  {call : Machine.Call (measured service codec ahead k behind)}

theorem measures_add : measures (log.add call) = (measures log || starts k call.event) := by
  simp [measures, Machine.Log.add]

theorem handedBack_add : handedBack (log.add call) = (handedBack log || handsBack call.event) := by
  simp [handedBack, Machine.Log.add]

theorem durations_add : durations (log.add call) = durations log +
    (call.after.2.otel.duration.length - call.before.2.otel.duration.length) := by
  simp [durations, Machine.Log.add]

variable {p p' : Party service codec ahead k behind}
  {before after : List (Party service codec ahead k behind)} {q q' : TimedOtel}

/-- One member of a list set apart from the others. -/
theorem exists_mem_split {α : Type} (P : α → Prop) {before after : List α} {x : α} :
    (∃ y ∈ before ++ x :: after, P y) ↔ P x ∨ ∃ y ∈ before ++ after, P y := by
  simp only [List.mem_append, List.mem_cons]
  constructor
  · rintro ⟨y, hy | rfl | hy, h⟩
    · exact .inr ⟨y, .inl hy, h⟩
    · exact .inl h
    · exact .inr ⟨y, .inr hy, h⟩
  · rintro (h | ⟨y, hy | hy, h⟩)
    · exact ⟨x, .inr (.inl rfl), h⟩
    · exact ⟨y, .inl hy, h⟩
    · exact ⟨y, .inr (.inr hy), h⟩

/-- While an execution has its hooks to come, no other of the same message is open. -/
theorem Timekept.others (h : Timekept (before ++ p :: after) q) (hawaits : p.2.awaits k = true)
    {x : Party service codec ahead k behind} (hx : x ∈ before ++ after) (hopen : isOpen x = true) :
    taskOf x.1 ≠ taskOf p.1 := by
  intro htask
  have hxopen : x.2.awaits k = true := (Bool.and_eq_true_iff.mp hopen).2
  have hsteps := h.inStep
  have hapart := h.apart
  rw [List.map_append, List.map_cons, List.pairwise_append, List.pairwise_cons] at hapart
  obtain ⟨-, ⟨hlater, -⟩, hearlier⟩ := hapart
  rcases List.mem_append.mp hx with hx | hx
  · have hback := hearlier x.1 (List.mem_map_of_mem hx) p.1 List.mem_cons_self htask
    have hclosed := ((hsteps x (List.mem_append.mpr (.inl hx))).handedBack hback).2
    rw [hxopen] at hclosed
    cases hclosed
  · have hback := hlater x.1 (List.mem_map_of_mem hx) htask.symm
    have hclosed := ((hsteps p (List.mem_append.mpr (.inr List.mem_cons_self))).handedBack hback).2
    rw [hawaits] at hclosed
    cases hclosed

/-- One execution has moved on. -/
theorem Timekept.move (h : Timekept (before ++ p :: after) q) (hstep : InStep p')
    (htask : taskOf p'.1 = taskOf p.1)
    (hback : handedBack p.1 = true → handedBack p'.1 = true)
    (hentries : ∀ i, i ∈ q'.otel.timings ↔ Opened i p' ∨ ∃ p ∈ before ++ after, Opened i p) :
    Timekept (before ++ p' :: after) q' where
  inStep x hx := by
    rcases List.mem_append.mp hx with hx | hx
    · exact h.inStep x (List.mem_append.mpr (.inl hx))
    · rcases List.mem_cons.mp hx with rfl | hx
      · exact hstep
      · exact h.inStep x (List.mem_append.mpr (.inr (List.mem_cons_of_mem p hx)))
  apart := by
    have hapart := h.apart
    rw [List.map_append, List.map_cons, List.pairwise_append, List.pairwise_cons] at hapart ⊢
    obtain ⟨hbefore, ⟨hlater, hafter⟩, hearlier⟩ := hapart
    refine ⟨hbefore, ⟨?_, hafter⟩, ?_⟩
    · intro b hb heq
      exact hback (hlater b hb (htask ▸ heq))
    · intro a ha b hb heq
      rcases List.mem_cons.mp hb with rfl | hb
      · exact hearlier a ha p.1 List.mem_cons_self (htask ▸ heq)
      · exact hearlier a ha b (List.mem_cons_of_mem _ hb) heq
  entries i := (hentries i).trans (exists_mem_split (Opened i)).symm

variable {t t' : Phase}

/-- A call that is none of the hooks of the measurement. -/
theorem Timekept.other (h : Timekept (before ++ (log, t) :: after) call.before.2)
    (hsound : t'.Sound (ahead ++ k :: behind)) (htask : ∀ i, t'.task = some i → t.task = some i)
    (hprecedes : t'.precedes k = true → t.precedes k = true)
    (hawaits : t.precedes k = true ∨ t'.awaits k = t.awaits k) (hstarts : starts k call.event = false)
    (hhands : handsBack call.event = true → t'.precedes k = false ∧ t'.awaits k = false)
    (hsame : call.after.2 = call.before.2) :
    Timekept (before ++ (log.add call, t') :: after) call.after.2 := by
  have hin : InStep (log, t) := h.inStep _ (List.mem_append.mpr (.inr List.mem_cons_self))
  have hmeasures : measures (log.add call) = measures log := by
    rw [measures_add, hstarts, Bool.or_false]
  have hdurations : durations (log.add call) = durations log := by
    rw [durations_add, hsame, Nat.sub_self, Nat.add_zero]
  have hopen : isOpen (log.add call, t') = isOpen (log, t) := by
    unfold isOpen
    rw [hmeasures]
    rcases hawaits with hfirst | heq
    · rw [hin.unmeasured hfirst, Bool.false_and, Bool.false_and]
    · rw [heq]
  refine h.move ⟨hsound, fun i hi => hin.task i (htask i hi), ?_, ?_, ?_⟩ rfl ?_ ?_
  · intro hfirst
    rw [hmeasures]
    exact hin.unmeasured (hprecedes hfirst)
  · rw [hopen, hmeasures, hdurations]
    exact hin.balance
  · intro hback
    rw [handedBack_add, Bool.or_eq_true_iff] at hback
    rcases hback with hearlier | hnow
    · obtain ⟨hpassed, hclosed⟩ := hin.handedBack hearlier
      have heq := hawaits.resolve_left fun hfirst => by rw [hpassed] at hfirst; cases hfirst
      refine ⟨Bool.eq_false_iff.mpr fun hfirst => ?_, heq.trans hclosed⟩
      rw [hprecedes hfirst] at hpassed
      cases hpassed
    · exact hhands hnow
  · exact fun hback => by rw [handedBack_add, hback, Bool.true_or]
  · intro i
    have hopened : Opened i (log.add call, t') ↔ Opened i (log, t) := by
      rw [Opened, hopen]
      exact Iff.rfl
    rw [hsame, hopened]
    exact (h.entries i).trans (exists_mem_split (Opened i))

/-- The `before` hook of the measurement. -/
theorem Timekept.begins {m : TaskMessage} (h : Timekept (before ++ (log, t) :: after) call.before.2)
    (hsound : t'.Sound (ahead ++ k :: behind)) (htask : ∀ i, t'.task = some i → t.task = some i)
    (hm : t.task = some m.id) (hfirst : t.precedes k = true) (hpassed : t'.precedes k = false)
    (hawaits : t'.awaits k = true) (hstarts : starts k call.event = true)
    (hhands : handsBack call.event = false)
    (htimings : call.after.2.otel.timings =
      call.before.2.otel.timings.insert m.id call.before.2.clock)
    (hduration : call.after.2.otel.duration = call.before.2.otel.duration) :
    Timekept (before ++ (log.add call, t') :: after) call.after.2 := by
  have hin : InStep (log, t) := h.inStep _ (List.mem_append.mpr (.inr List.mem_cons_self))
  have hunmeasured := hin.unmeasured hfirst
  have hlog : taskOf log = some m.id := hin.task m.id hm
  have hmeasures : measures (log.add call) = true := by
    rw [measures_add, hstarts, Bool.or_true]
  have hclosed : isOpen (log, t) = false := by
    rw [isOpen, hunmeasured, Bool.false_and]
  have hopen : isOpen (log.add call, t') = true := by
    rw [isOpen, hmeasures, hawaits, Bool.true_and]
  refine h.move ⟨hsound, fun i hi => hin.task i (htask i hi), ?_, ?_, ?_⟩ rfl ?_ ?_
  · intro hagain
    rw [hpassed] at hagain
    cases hagain
  · have hbalance := hin.balance
    rw [hclosed, hunmeasured] at hbalance
    rw [hopen, hmeasures, durations_add, hduration, Nat.sub_self]
    exact congrArg (· + 1) hbalance
  · intro hback
    rw [handedBack_add, hhands, Bool.or_false] at hback
    rw [(hin.handedBack hback).1] at hfirst
    cases hfirst
  · exact fun hback => by rw [handedBack_add, hback, Bool.true_or]
  · intro i
    have hold : ¬ Opened i (log, t) := fun hi => by
      rw [Opened, hclosed] at hi
      cases hi.2
    have hnew : Opened i (log.add call, t') ↔ i = m.id := by
      constructor
      · intro hi
        exact Option.some.inj (hi.1.symm.trans hlog)
      · rintro rfl
        exact ⟨hlog, hopen⟩
    rw [htimings, AList.mem_insert, hnew]
    refine or_congr Iff.rfl ?_
    rw [h.entries, exists_mem_split (Opened i), or_iff_right hold]

/-- The hook that ends it. -/
theorem Timekept.ends {m : TaskMessage} (h : Timekept (before ++ (log, t) :: after) call.before.2)
    (hsound : t'.Sound (ahead ++ k :: behind)) (htask : ∀ i, t'.task = some i → t.task = some i)
    (hm : t.task = some m.id) (hpassed : t'.precedes k = false) (hawaits : t.awaits k = true)
    (hawaits' : t'.awaits k = false) (hstarts : starts k call.event = false)
    (htimings : call.after.2.otel.timings =
      (call.before.2.otel.recordDuration call.before.2.clock m).timings)
    (hduration : call.after.2.otel.duration =
      (call.before.2.otel.recordDuration call.before.2.clock m).duration) :
    Timekept (before ++ (log.add call, t') :: after) call.after.2 := by
  have hin : InStep (log, t) := h.inStep _ (List.mem_append.mpr (.inr List.mem_cons_self))
  have hlog : taskOf log = some m.id := hin.task m.id hm
  have hmeasures : measures (log.add call) = measures log := by
    rw [measures_add, hstarts, Bool.or_false]
  have hopen : isOpen (log, t) = measures log := by
    rw [isOpen, hawaits, Bool.and_true]
  have hclosed : isOpen (log.add call, t') = false := by
    rw [isOpen, hawaits', Bool.and_false]
  have hnew : ∀ i, ¬ Opened i (log.add call, t') := fun i hi => by
    rw [Opened, hclosed] at hi
    cases hi.2
  have hothers : ¬ ∃ p ∈ before ++ after, Opened m.id p := by
    rintro ⟨p, hp, hopened⟩
    exact h.others hawaits hp hopened.2 (hopened.1.trans hlog.symm)
  -- without a timing of its own the message has none at all
  have hmem : m.id ∈ call.before.2.otel.timings ↔ measures log = true := by
    rw [h.entries, exists_mem_split (Opened m.id), or_iff_left hothers, Opened, hopen]
    exact and_iff_right hlog
  refine h.move ⟨hsound, fun i hi => hin.task i (htask i hi), ?_, ?_, ?_⟩ rfl ?_ ?_
  · intro hagain
    rw [hpassed] at hagain
    cases hagain
  · have hbalance := hin.balance
    rw [hopen] at hbalance
    rw [hclosed, hmeasures, durations_add, hduration]
    cases hlogged : measures log with
    | true =>
        obtain ⟨-, hlength⟩ :=
          OtelMiddleware.recordDuration_of_mem (hmem.mpr hlogged) call.before.2.clock
        rw [hlogged] at hbalance
        rw [hlength, Nat.add_sub_cancel_left]
        exact hbalance
    | false =>
        have hnone : m.id ∉ call.before.2.otel.timings := fun hm => by
          rw [hmem.mp hm] at hlogged
          cases hlogged
        rw [hlogged] at hbalance
        rw [OtelMiddleware.recordDuration_of_not_mem hnone, Nat.sub_self]
        exact hbalance
  · exact fun _ => ⟨hpassed, hawaits'⟩
  · exact fun hback => by rw [handedBack_add, hback, Bool.true_or]
  · intro i
    rw [or_iff_right (hnew i), htimings]
    have hold : Opened i (log, t) → i = m.id := fun hi =>
      Option.some.inj (hi.1.symm.trans hlog)
    by_cases hlogged : measures log = true
    · rw [(OtelMiddleware.recordDuration_of_mem (hmem.mpr hlogged) _).1, AList.mem_erase,
        h.entries, exists_mem_split (Opened i)]
      constructor
      · rintro ⟨hne, hopened | hother⟩
        · exact absurd (hold hopened) hne
        · exact hother
      · intro hother
        refine ⟨?_, .inr hother⟩
        rintro rfl
        exact hothers hother
    · rw [OtelMiddleware.recordDuration_of_not_mem (fun hm => hlogged (hmem.mp hm)), h.entries,
        exists_mem_split (Opened i), or_iff_right]
      intro hopened
      rw [Opened, hopen] at hopened
      exact hlogged hopened.2

/-- One call of an execution keeps the timings. -/
theorem Timekept.step (h : Timekept (before ++ (log, t) :: after) call.before.2)
    (hsound : t'.Sound (ahead ++ k :: behind)) (htask : ∀ i, t'.task = some i → t.task = some i)
    (hturn : t.Turn k call.before.2 call.event t' call.after.2) :
    Timekept (before ++ (log.add call, t') :: after) call.after.2 := by
  cases hturn with
  | begins hm hfirst hpassed hawaits hstarts hhands htimings hduration =>
      exact h.begins hsound htask hm hfirst hpassed hawaits hstarts hhands htimings hduration
  | ends hm hpassed hawaits hawaits' hstarts htimings hduration =>
      exact h.ends hsound htask hm hpassed hawaits hawaits' hstarts htimings hduration
  | other hprecedes hawaits hstarts hhands hsame =>
      exact h.other hsound htask hprecedes hawaits hstarts hhands hsame

variable {parties : List (Party service codec ahead k behind)}

/-- An execution begins. -/
theorem Timekept.execute (h : Timekept parties q) {x : Execution}
    (hdistinct : Distinct (parties.map Prod.fst) (.execute x)) :
    Timekept (parties ++ [(.begin (.execute x), .entering x.message)]) q where
  inStep p hp := by
    rcases List.mem_append.mp hp with hp | hp
    · exact h.inStep p hp
    · obtain rfl := List.mem_singleton.mp hp
      exact ⟨trivial, fun i hi => hi, fun _ => rfl, rfl, fun h => absurd h Bool.false_ne_true⟩
  apart := by
    rw [List.map_append, List.pairwise_append]
    refine ⟨h.apart, List.pairwise_singleton _ _, ?_⟩
    intro a ha b hb htask
    obtain rfl := List.mem_singleton.mp hb
    exact hdistinct a ha htask
  entries i := by
    rw [h.entries]
    constructor
    · rintro ⟨p, hp, hopened⟩
      exact ⟨p, List.mem_append.mpr (.inl hp), hopened⟩
    · rintro ⟨p, hp, hopened⟩
      rcases List.mem_append.mp hp with hp | hp
      · exact ⟨p, hp, hopened⟩
      · obtain rfl := List.mem_singleton.mp hp
        cases hopened.2

/-- Before the first execution. -/
theorem timekept_new (clock : Nat) :
    Timekept ([] : List (Party service codec ahead k behind)) ⟨.new, clock⟩ where
  inStep p hp := by cases hp
  apart := .nil
  entries i := by
    constructor
    · intro hi
      exact absurd hi (AList.notMem_empty i)
    · rintro ⟨p, hp, -⟩
      cases hp

variable {threads : List ((measured service codec ahead k behind).Log × Prog traits Unit)}

/-- The timings along every journal. -/
theorem timekept_of_journal (hahead : k ∉ ahead) (hbehind : k ∉ behind) {s₀ : service.State}
    {clock : Nat} {s : (measured service codec ahead k behind).State}
    (h : Machine.Journal (M := measured service codec ahead k behind) Distinct
      (s₀, ⟨.new, clock⟩) threads s) :
    ∃ parties, List.Forall₂ (Machine.Plays (pipeline ⟨ahead ++ k :: behind, []⟩)) threads parties ∧
      Timekept parties s.2 := by
  refine Machine.Journal.rule (P := pipeline ⟨ahead ++ k :: behind, []⟩)
    (J := fun (parties : List (Party service codec ahead k behind)) s => Timekept parties s.2)
    ?_ ?_ ?_ h
  · exact timekept_new clock
  · intro o s s' op r log t t' before after hkept hrespond hstep
    have hin : InStep (log, t) := hkept.inStep _ (List.mem_append.mpr (.inr List.mem_cons_self))
    refine hkept.step (hstep.sound hin.sound) (fun i => hstep.task_eq) ?_
    refine hstep.turn hahead hbehind hin.sound ?_
    rcases Middleware.mount_cases hrespond with ⟨hsome, -⟩ | ⟨hnone, -, hsame⟩
    · exact .inl hsome
    · exact .inr ⟨hnone, hsame⟩
  · intro x s s' new parties hkept hdistinct haccept
    cases x with
    | execute x =>
        refine ⟨_, pool_entry x s s' new haccept, ?_⟩
        obtain rfl := pool_accept haccept
        exact hkept.execute hdistinct
    | tick n =>
        cases haccept
        refine ⟨[], .nil, ?_⟩
        rw [List.map_nil, List.append_nil]
        exact ⟨hkept.inStep, hkept.apart, hkept.entries⟩

/-- An execution that has returned has no hook to come. -/
theorem awaits_of_final {t : Phase} (h : t.Final) : t.awaits k = false := by
  cases t <;> first | rfl | exact h.elim

/-- `OtelMiddleware` does not leak timings, at whatever place of the list it stands
and whatever the other hooks answer, with any number of executions of different messages
at the same time and with messages that are executed again. -/
theorem timings_kept (hahead : k ∉ ahead) (hbehind : k ∉ behind) {s₀ : service.State}
    {clock : Nat} {s : (measured service codec ahead k behind).State}
    (h : Machine.Journal (M := measured service codec ahead k behind) Distinct
      (s₀, ⟨.new, clock⟩) threads s) : NoLeak threads s.2 := by
  obtain ⟨parties, hall, hkept⟩ := timekept_of_journal hahead hbehind h
  have hparty : ∀ θ ∈ threads, ∃ p ∈ parties, θ.1 = p.1 ∧ InStep p ∧
      (θ.2 = .ret () → p.2.awaits k = false) := by
    intro θ hθ
    obtain ⟨p, hp, hlog, hfollows⟩ := Machine.exists_of_forall₂ hall.flip hθ
    refine ⟨p, hp, hlog, hkept.inStep p hp, fun hret => ?_⟩
    rw [hret] at hfollows
    exact awaits_of_final hfollows
  refine ⟨?_, ?_, ?_⟩
  · intro i hi
    obtain ⟨p, hp, htask, hopen⟩ := (hkept.entries i).mp hi
    have hawaits : p.2.awaits k = true := (Bool.and_eq_true_iff.mp hopen).2
    obtain ⟨θ, hθ, hlog, hfollows⟩ := Machine.exists_of_forall₂ hall hp
    refine ⟨θ, hθ, hlog ▸ htask, ?_, ?_⟩
    · refine Bool.eq_false_iff.mpr fun hback => ?_
      rw [((hkept.inStep p hp).handedBack (hlog ▸ hback)).2] at hawaits
      cases hawaits
    · intro hret
      rw [hret] at hfollows
      rw [awaits_of_final hfollows] at hawaits
      cases hawaits
  · intro θ hθ
    obtain ⟨p, -, hlog, hin, -⟩ := hparty θ hθ
    rw [hlog, ← hin.balance]
    exact Nat.le_add_right _ _
  · intro θ hθ hover
    obtain ⟨p, -, hlog, hin, hret⟩ := hparty θ hθ
    have hawaits : p.2.awaits k = false := by
      rcases hover with hback | hreturned
      · exact (hin.handedBack (hlog ▸ hback)).2
      · exact hret hreturned
    have hbalance := hin.balance
    rw [isOpen, hawaits, Bool.and_false] at hbalance
    rw [hlog]
    exact hbalance

end Invariant

/-! ## A message that is retried -/

/-- The in-memory broker and backend, with one middleware ahead of the measurement and
one behind it. -/
abbrev measuredPair : Machine traits :=
  measured (systemService (wholeMethods MemoryBroker.driver MemoryBroker.service)
    MemoryResultBackend.service) blankCodec [0] 1 [2]

/-- An execution of this message begins. -/
def measuredStart (id : TaskId) : measuredPair.Move :=
  .env (.execute ⟨⟨["t"], [0, 1, 2], false⟩, plainMessage id⟩)

/-- The `i`-th execution makes `n` calls, with these answers of the runtime. -/
def measuredCalls (i n : Nat) (runtime : RuntimeOracle) : List measuredPair.Move :=
  List.replicate n (.run i ⟨runtime, [(), ()], ()⟩)

/-- One message is executed, fails and is executed again; another is still being
executed. -/
def measuredRun : List measuredPair.Move :=
  measuredStart ⟨7⟩ :: measuredCalls 0 4 failingRuntime ++
    measuredStart ⟨8⟩ :: measuredCalls 1 5 stillRuntime ++
    .env (.tick (5 : Nat)) :: measuredCalls 0 9 failingRuntime ++
    measuredStart ⟨7⟩ :: measuredCalls 2 10 stillRuntime

/-- Nothing has begun. -/
def measuredOrigin : List (measuredPair.Log × Prog traits Unit) × measuredPair.State :=
  ([], ((MemoryBroker.new, MemoryResultBackend.new), ⟨.new, 0⟩))

/-- The test of a schedule: an execution waits for the earlier ones of its message. -/
def measuredApart (logs : List measuredPair.Log) : PoolStimulus otelMiddleware → Bool
  | .execute x => logs.all fun log => taskOf log != some x.message.id || handedBack log
  | .tick _ => true

theorem distinct_of_measuredApart (logs : List measuredPair.Log)
    (x : PoolStimulus otelMiddleware) (h : measuredApart logs x = true) : Distinct logs x := by
  cases x with
  | execute x =>
      intro log hlog htask
      have hpass := List.all_eq_true.mp h log hlog
      rw [htask, bne_self_eq_false, Bool.false_or] at hpass
      exact hpass
  | tick n => trivial

theorem measured_plays :
    (Machine.writeAll measuredApart measuredOrigin measuredRun).isSome = true := by
  decide +kernel

/-- How that ends. -/
def measuredEnd : List (measuredPair.Log × Prog traits Unit) × measuredPair.State :=
  (Machine.writeAll measuredApart measuredOrigin measuredRun).get measured_plays

/-- Both executions of the retried message have recorded a duration, and the only timing
left is that of the message still in flight. -/
theorem timings_kept_retried :
    (∃ tr, measuredPair.Reach ⟨measuredOrigin.2, []⟩ tr
      ⟨measuredEnd.2, measuredEnd.1.map Prod.snd⟩) ∧
    measuredEnd.1.map (fun θ => (measures θ.1, handedBack θ.1, durations θ.1)) =
      [(true, true, 1), (true, false, 0), (true, true, 1)] ∧
    measuredEnd.2.2.otel.timings.keys = [⟨8⟩] ∧ NoLeak measuredEnd.1 measuredEnd.2.2 := by
  have hjournal : Machine.Journal (M := measuredPair) Distinct measuredOrigin.2 measuredEnd.1
      measuredEnd.2 :=
    Machine.Journal.of_writeAll distinct_of_measuredApart .start
      (Option.some_get measured_plays).symm
  exact ⟨hjournal.reach, by decide +kernel, by decide +kernel,
    timings_kept (by decide) (by decide) hjournal⟩

end Kojin.Core
