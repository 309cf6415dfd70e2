/-
  Core/DedupRetries.lean --- deduplication and the retries of one message
  (`kojin-core`: `middleware/dedup.rs`, `worker.rs`).

  The middleware remembers when it last let a key through.  A message that is retried
  carries its key with it, so its next attempt is checked against its own last one: the
  attempt reaches the handler only if the TTL has run out by then.

  SPACING.  `checkTimes` reads off a history at which instants the key was checked.
  If consecutive checks are a TTL or more apart, every check passes, and

      attempts  =  invocations + attempts among the hooks
      failures  =  errors of the handler - errors not yet logged

  so that every failure the retry budget is charged for is one of the handler.
-/
import Kojin.Core.Duplicates
import Kojin.Core.Redelivery
import Mathlib.Data.List.Chain

set_option autoImplicit false

namespace Kojin.Core

open Kojin.Foundation

/-! ## Events of one message -/

section Events

variable {B R : Interface}

/-- A call of the runtime with this operation and answer. -/
def ofRuntime (f : (op : RuntimeOp) → op.Res → Bool) : Event (system B R) → Bool
  | ⟨.runtime op, r⟩ => f op r
  | _ => false

/-- An attempt of the message begins. -/
def begins (i : TaskId) : Event (system B R) → Bool :=
  ofRuntime fun
    | .trace (.executing m), _ => decide (m.id = i)
    | _, _ => false

/-- The handler is invoked for the message. -/
def invokes (i : TaskId) : Event (system B R) → Bool :=
  ofRuntime fun
    | .handle m _ _, _ => decide (m.id = i)
    | _, _ => false

/-- The handler returns an error for the message. -/
def errs (i : TaskId) : Event (system B R) → Bool :=
  ofRuntime fun
    | .handle m _ _, .error _ => decide (m.id = i)
    | _, _ => false

/-- A failure of the message is logged. -/
def logsFailure (i : TaskId) : Event (system B R) → Bool :=
  ofRuntime fun
    | .trace (.beforeFailed task _), _ => decide (task = i)
    | .trace (.taskFailed task _ _), _ => decide (task = i)
    | _, _ => false

/-- A `before` hook other than the `k`-th rejects the message. -/
def rejectsElsewhere (k : Nat) (i : TaskId) : Event (system B R) → Bool :=
  ofRuntime fun
    | .before mw m, .error _ => decide (mw ≠ k ∧ m.id = i)
    | _, _ => false

/-- The `k`-th middleware checks the key. -/
def checks (k : Nat) (key : String) : Event (system B R) → Bool :=
  ofRuntime fun
    | .before mw m, _ => decide (mw = k ∧ m.dedupKey = some key)
    | _, _ => false

end Events

section Times

variable {S : Service resultBackendTrait} {codec : Codec} {k : Nat} {crew : Fleet}

/-- Workers whose `k`-th middleware is a deduplication. -/
abbrev dedupFleet (S : Service resultBackendTrait) (codec : Codec) (k : Nat) (crew : Fleet) :
    Machine memoryInterface :=
  memoryFleet S codec deduplicationMiddleware k crew

/-- The log line with which an attempt begins. -/
def executes (m : TaskMessage) : (dedupFleet S codec k crew).Label :=
  .call ⟨.runtime (.trace (.executing m)), ()⟩

/-- The time that passes in a step, in nanoseconds. -/
def elapsed : (dedupFleet S codec k crew).Label → Nat
  | .env (.tick n) => n
  | _ => 0

/-- The time that passes in a history. -/
def elapsedIn (tr : List (dedupFleet S codec k crew).Label) : Nat := (tr.map elapsed).sum

/-- The instants at which the key is checked in a history that begins at `clock`. -/
def checkTimes (key : String) (clock : Nat) : List (dedupFleet S codec k crew).Label → List Nat
  | [] => []
  | l :: tr =>
      if Machine.happens (checks k key) l then
        clock :: checkTimes key (clock + elapsed l) tr
      else checkTimes key (clock + elapsed l) tr

/-- Consecutive instants are a TTL or more apart. -/
def Spaced (ttl : Nat) (times : List Nat) : Prop := times.IsChain fun t t' => t + ttl ≤ t'

instance (ttl : Nat) (times : List Nat) : Decidable (Spaced ttl times) :=
  inferInstanceAs (Decidable (List.IsChain _ _))

theorem elapsedIn_snoc (tr : List (dedupFleet S codec k crew).Label)
    (l : (dedupFleet S codec k crew).Label) : elapsedIn (tr ++ [l]) = elapsedIn tr + elapsed l := by
  simp [elapsedIn]

theorem checkTimes_snoc (key : String) (clock : Nat) (tr : List (dedupFleet S codec k crew).Label)
    (l : (dedupFleet S codec k crew).Label) :
    checkTimes key clock (tr ++ [l]) = checkTimes key clock tr ++
      if Machine.happens (checks k key) l then [clock + elapsedIn tr] else [] := by
  induction tr generalizing clock with
  | nil => simp [checkTimes, elapsedIn]
  | cons l' tr ih =>
      have hsum : clock + elapsed l' + elapsedIn tr = clock + elapsedIn (l' :: tr) := by
        simp [elapsedIn, Nat.add_assoc]
      rw [List.cons_append, checkTimes, checkTimes, ih, hsum]
      split <;> rfl

/-- One more check keeps the spacing if the TTL has run out since the last. -/
theorem spaced_snoc {ttl t : Nat} {times : List Nat} :
    Spaced ttl (times ++ [t]) ↔ Spaced ttl times ∧ ∀ last ∈ times.getLast?, last + ttl ≤ t := by
  rw [Spaced, List.isChain_append]
  simp [Spaced]

end Times

/-! ## What the middleware remembers -/

/-- The middleware remembers the last check of the key, and no other. -/
structure TimedDeduplication.Remembers (q : TimedDeduplication) (key : String) (ttl now : Nat)
    (times : List Nat) : Prop where
  ttl_eq : q.filter.ttl = ttl
  clock_eq : q.clock = now
  last_eq : q.filter.seen.lookup key = times.getLast?

/-- A check a TTL after the last one passes, and is remembered. -/
theorem TimedDeduplication.Remembers.check {q : TimedDeduplication} {key : String} {ttl now : Nat}
    {times : List Nat} (h : q.Remembers key ttl now times) (hspaced : Spaced ttl (times ++ [now]))
    {m : TaskMessage} (hkey : m.dedupKey = some key) :
    (deduplicationMiddleware.before m q).1 = .ok () ∧
      TimedDeduplication.Remembers (deduplicationMiddleware.before m q).2 key ttl now
        (times ++ [now]) := by
  have hlast := (spaced_snoc.mp hspaced).2
  have hfresh : q.filter.recent q.clock key = false := by
    unfold DeduplicationMiddleware.recent
    rw [h.last_eq, h.clock_eq, h.ttl_eq]
    cases hget : times.getLast? with
    | none => rfl
    | some last =>
        have hle := hlast last hget
        simp only [decide_eq_false_iff_not]
        omega
  have hbefore : q.filter.before q.clock m =
      (.ok (), { q.filter with seen := q.filter.seen.insert key q.clock }) := by
    rw [DeduplicationMiddleware.before, hkey]
    simp only [hfresh]
    rfl
  simp only [deduplicationMiddleware, hbefore]
  refine ⟨trivial, h.ttl_eq, h.clock_eq, ?_⟩
  simp [h.clock_eq]

/-- A check of another key, or of a message without a key, is no check of this one. -/
theorem TimedDeduplication.Remembers.other {q : TimedDeduplication} {key : String} {ttl now : Nat}
    {times : List Nat} (h : q.Remembers key ttl now times) {m : TaskMessage}
    (hkey : m.dedupKey ≠ some key) :
    TimedDeduplication.Remembers (deduplicationMiddleware.before m q).2 key ttl now times := by
  simp only [deduplicationMiddleware, DeduplicationMiddleware.before]
  cases hm : m.dedupKey with
  | none => exact ⟨h.ttl_eq, h.clock_eq, h.last_eq⟩
  | some key' =>
      have hne : key ≠ key' := fun heq => hkey (by rw [hm, heq])
      simp only
      split
      · exact ⟨h.ttl_eq, h.clock_eq, h.last_eq⟩
      · refine ⟨h.ttl_eq, h.clock_eq, ?_⟩
        rw [← h.last_eq]
        exact AList.lookup_insert_ne hne

/-- The check, if this call is one. -/
def checkAt (k : Nat) (key : String) (now : Nat) (e : Event memoryInterface) : List Nat :=
  if checks k key e then [now] else []

/-- Only the `before` hook changes what the middleware has seen. -/
theorem kept_of_answer {k : Nat} {q q' : TimedDeduplication} {op : memoryInterface.Op}
    {r : memoryInterface.Res op} (hop : ∀ mw m, op ≠ .runtime (.before mw m))
    (h : deduplicationMiddleware.answer k op q = some (r, q')) : q' = q := by
  cases op with
  | broker op => cases h
  | backend op => cases h
  | runtime op =>
      cases op with
      | before mw m => exact absurd rfl (hop mw m)
      | after mw m result =>
          cases (Option.ite_none_right_eq_some.mp h).2
          rfl
      | onError mw m error =>
          cases (Option.ite_none_right_eq_some.mp h).2
          rfl
      | _ => cases h

/-- What a call leaves the middleware to remember; no check of the key fails. -/
theorem TimedDeduplication.Remembers.call {k : Nat} {q q' : TimedDeduplication} {key : String}
    {ttl now : Nat} {times : List Nat} (h : q.Remembers key ttl now times)
    {op : memoryInterface.Op} {r : memoryInterface.Res op}
    (hspaced : Spaced ttl (times ++ checkAt k key now ⟨op, r⟩))
    (hq : deduplicationMiddleware.answer k op q = some (r, q') ∨
      deduplicationMiddleware.answer k op q = none ∧ q' = q) :
    q'.Remembers key ttl now (times ++ checkAt k key now ⟨op, r⟩) ∧
      ∀ m e, (⟨op, r⟩ : Event memoryInterface) = ⟨.runtime (.before k m), .error e⟩ →
        m.dedupKey ≠ some key := by
  have hstay : deduplicationMiddleware.answer k op q = none → q' = q := Middleware.unanswered hq
  have hidle : checks k key ⟨op, r⟩ = false → q' = q →
      q'.Remembers key ttl now (times ++ checkAt k key now ⟨op, r⟩) := by
    rintro hcheck rfl
    rw [checkAt, hcheck]
    simpa using h
  cases op with
  | broker op => exact ⟨hidle rfl (hstay rfl), fun _ _ heq => (nomatch heq)⟩
  | backend op => exact ⟨hidle rfl (hstay rfl), fun _ _ heq => (nomatch heq)⟩
  | runtime op =>
      cases op with
      | before mw m =>
          by_cases hmw : mw = k
          · subst hmw
            have hans : deduplicationMiddleware.before m q = (r, q') :=
              Middleware.answered hq (if_pos rfl)
            by_cases hkey : m.dedupKey = some key
            · have hcheck : checks mw key (⟨.runtime (.before mw m), r⟩ : Event memoryInterface) =
                  true := by simp [checks, ofRuntime, hkey]
              rw [checkAt, if_pos hcheck] at hspaced ⊢
              obtain ⟨hok, hremembers⟩ := h.check hspaced hkey
              rw [hans] at hok hremembers
              refine ⟨hremembers, ?_⟩
              intro m' e heq
              obtain rfl : r = .ok () := hok
              cases heq
            · have hcheck : checks mw key (⟨.runtime (.before mw m), r⟩ : Event memoryInterface) =
                  false := by simp [checks, ofRuntime, hkey]
              have hother := h.other hkey
              rw [hans] at hother
              rw [checkAt, hcheck]
              refine ⟨by simpa using hother, ?_⟩
              intro m' e heq
              cases heq
              exact hkey
          · refine ⟨hidle (by simp [checks, ofRuntime, hmw])
              (hstay (by simp [Middleware.answer, hmw])), ?_⟩
            intro m' e heq
            cases heq
            exact absurd rfl hmw
      | _ =>
          refine ⟨hidle rfl (hq.elim (kept_of_answer nofun) fun h => h.2), ?_⟩
          exact fun _ _ heq => (nomatch heq)

/-! ## What one call does -/

/-- An attempt of message `i` among its hooks, before the handler. -/
def Phase.attempts (i : TaskId) : Phase → Nat
  | .checking m _ => if m.id = i then 1 else 0
  | _ => 0

/-- An error of the handler for message `i` that is not logged yet. -/
def Phase.unlogged (i : TaskId) : Phase → Nat
  | .erred m _ => if m.id = i then 1 else 0
  | _ => 0

/-- A count over phases, in sections. -/
def Sectioned.count (f : Phase → Nat) : Sectioned Phase → Nat
  | .at t => f t
  | .settling _ _ => 0

/-- An attempt of message `i` carries its key, and its task has a handler; none has been
rejected. -/
def Phase.Keyed (i : TaskId) (key : String) (tasks : List String) : Phase → Prop
  | .checking m _ => m.id = i → m.dedupKey = some key ∧ m.taskName ∈ tasks
  | .rejected m _ => m.id ≠ i
  | _ => True

/-- An attempt of message `i` carries its key, where the broker is called in sections. -/
def KeyedStage (i : TaskId) (key : String) (tasks : List String) : Sectioned Phase → Prop
  | .at t => t.Keyed i key tasks
  | .settling _ next => next = .over

section Calls

variable {crew : Fleet} {i : TaskId} {key : String}

/-- The call begins no attempt of message `i` under another key, and no hook rejects
it. -/
structure Unrejected (i : TaskId) (key : String) (tasks : List String) (op : traits.Op)
    (r : traits.Res op) : Prop where
  keyed : ∀ m, op = .runtime (.trace (.executing m)) → m.id = i →
    m.dedupKey = some key ∧ m.taskName ∈ tasks
  passed : ∀ mw m e, (⟨op, r⟩ : Event traits) = ⟨.runtime (.before mw m), .error e⟩ → m.id ≠ i

/-- Every step leads to a phase of a keyed message. -/
theorem Phase.Step.keyed {t t' : Phase} {op : traits.Op} {r : traits.Res op}
    (h : Phase.Step crew t op r t') (ht : t.Keyed i key crew.tasks)
    (hcall : Unrejected i key crew.tasks op r) : t'.Keyed i key crew.tasks := by
  cases h with
  | note => exact ht
  | clock | release | followUp => exact ht
  | enter m => exact fun hid => hcall.keyed m rfl hid
  | pass => exact ht
  | reject m mw rest e => exact hcall.passed mw m e rfl
  | _ => trivial

/-- What the step adds to the invocations is what it takes from the attempts that have
begun, and what it adds to the failures is what it takes from the errors. -/
theorem Phase.Step.counts {t t' : Phase} {op : traits.Op} {r : traits.Res op}
    (h : Phase.Step crew t op r t') (ht : t.Keyed i key crew.tasks)
    (hcall : Unrejected i key crew.tasks op r) :
    t'.attempts i + (invokes i ⟨op, r⟩).toNat = t.attempts i + (begins i ⟨op, r⟩).toNat ∧
      t'.unlogged i + (logsFailure i ⟨op, r⟩).toNat = t.unlogged i + (errs i ⟨op, r⟩).toNat := by
  cases h with
  | @note _ e hturns => cases e <;> first | exact ⟨rfl, rfl⟩ | cases hturns
  | enter m =>
      have hid : m.start.id = m.id := rfl
      by_cases hm : m.id = i <;>
        simp [Phase.attempts, Phase.unlogged, ofRuntime, begins, invokes, logsFailure, errs, hid, hm]
  | reject m mw rest e =>
      have hm : m.id ≠ i := hcall.passed mw m e rfl
      simp [Phase.attempts, Phase.unlogged, ofRuntime, begins, invokes, logsFailure, errs, hm]
  | rejection m e =>
      have hm : m.id ≠ i := ht
      simp [Phase.attempts, Phase.unlogged, ofRuntime, begins, invokes, logsFailure, errs, hm]
  | @unknown m e hunknown =>
      have hm : m.id ≠ i := fun hid => hunknown (ht hid).2
      simp [Phase.attempts, Phase.unlogged, ofRuntime, begins, invokes, logsFailure, errs, hm]
  | handled m result =>
      by_cases hm : m.id = i <;>
        simp [Phase.attempts, Phase.unlogged, ofRuntime, begins, invokes, logsFailure, errs, hm]
  | err m e =>
      by_cases hm : m.id = i <;>
        simp [Phase.attempts, Phase.unlogged, ofRuntime, begins, invokes, logsFailure, errs, hm]
  | failure m e =>
      by_cases hm : m.id = i <;>
        simp [Phase.attempts, Phase.unlogged, ofRuntime, begins, invokes, logsFailure, errs, hm]
  | followUp m result r hop =>
      rcases op with op | op | op
      · cases op <;> first | exact ⟨rfl, rfl⟩ | exact hop.elim
      · exact ⟨rfl, rfl⟩
      · exact ⟨rfl, rfl⟩
  | _ => exact ⟨rfl, rfl⟩

/-- A settling call is the last of an execution. -/
theorem Phase.Step.over_of_settle {t t' : Phase} {s : Settling} {r : TaskResult Unit}
    (h : Phase.Step crew t (.broker s.method) r t') : t' = .over := by
  cases s with
  | nack m =>
      cases h with
      | nack => rfl
      | followUp m result r hop => exact hop.elim
  | deadLetter m =>
      cases h with
      | deadLetter => rfl
      | followUp m result r hop => exact hop.elim

/-- What is asked of a call, where the broker is called in sections. -/
structure UnrejectedSection (i : TaskId) (key : String) (tasks : List String)
    (e : Event memoryInterface) : Prop where
  keyed : ∀ m r, e = ⟨.runtime (.trace (.executing m)), r⟩ → m.id = i →
    m.dedupKey = some key ∧ m.taskName ∈ tasks
  passed : ∀ mw m error, e = ⟨.runtime (.before mw m), .error error⟩ → m.id ≠ i

theorem UnrejectedSection.call {tasks : List String} {op : RuntimeOp} {r : op.Res}
    (h : UnrejectedSection i key tasks ⟨.runtime op, r⟩) :
    Unrejected i key tasks (.runtime op) r := by
  constructor
  · intro m heq hid
    cases heq
    exact h.keyed m r rfl hid
  · intro mw m e heq
    cases heq
    exact h.passed mw m e rfl

/-- Calls of the broker and the backend say nothing about attempts. -/
theorem unrejected_broker {tasks : List String} (op : BrokerOp) (r : TaskResult Unit) :
    Unrejected i key tasks (.broker op) r :=
  ⟨fun _ h => (nomatch h), fun _ _ _ h => (nomatch h)⟩

theorem unrejected_backend {tasks : List String} (op : ResultBackendOp) (r : op.Res) :
    Unrejected i key tasks (.backend op) r :=
  ⟨fun _ h => (nomatch h), fun _ _ _ h => (nomatch h)⟩

/-- One section of an execution, for a message whose attempts are not rejected. -/
theorem Sectioned.Step.counts {u u' : Sectioned Phase} {op : memoryInterface.Op}
    {r : memoryInterface.Res op} (h : Sectioned.Step (Phase.Step crew) u op r u')
    (hu : KeyedStage i key crew.tasks u)
    (hcall : UnrejectedSection i key crew.tasks ⟨op, r⟩) :
    KeyedStage i key crew.tasks u' ∧
      u'.count (Phase.attempts i) + (invokes i ⟨op, r⟩).toNat =
        u.count (Phase.attempts i) + (begins i ⟨op, r⟩).toNat ∧
      u'.count (Phase.unlogged i) + (logsFailure i ⟨op, r⟩).toNat =
        u.count (Phase.unlogged i) + (errs i ⟨op, r⟩).toNat := by
  cases h with
  | runtime hp => exact ⟨hp.keyed hu hcall.call, hp.counts hu hcall.call⟩
  | backend hp =>
      exact ⟨hp.keyed hu (unrejected_backend _ _), hp.counts hu (unrejected_backend _ _)⟩
  | enqueue hp | ack hp | schedule hp =>
      exact ⟨hp.keyed hu (unrejected_broker _ _), hp.counts hu (unrejected_broker _ _)⟩
  | release hp =>
      have hcounts := hp.counts hu (unrejected_broker _ _)
      rw [hp.over_of_settle] at hcounts
      exact ⟨hp.over_of_settle, hcounts⟩
  | deliver s t =>
      obtain rfl : t = .over := hu
      exact ⟨trivial, rfl, rfl⟩

end Calls

/-! ## Every history -/

section Histories

variable {S : Service resultBackendTrait} {codec : Codec} {k : Nat} {crew : Fleet} {i : TaskId}
  {key : String} {ttl clock : Nat}

/-- A sum over stages. -/
def total (f : Phase → Nat) (stages : List (Sectioned Phase)) : Nat :=
  (stages.map (Sectioned.count f)).sum

theorem total_split (f : Phase → Nat) (before after : List (Sectioned Phase))
    (u : Sectioned Phase) :
    total f (before ++ u :: after) = total f before + u.count f + total f after := by
  simp [total, Nat.add_assoc]

/-- The history under which nothing but the handler fails message `i`: checks of its key
are a TTL apart, its attempts carry that key and a known task, and no other hook rejects
it. -/
structure Unhurried (k : Nat) (crew : Fleet) (i : TaskId) (key : String) (ttl clock : Nat)
    (tr : List (dedupFleet S codec k crew).Label) : Prop where
  spaced : Spaced ttl (checkTimes key clock tr)
  keyed : ∀ m, executes m ∈ tr → m.id = i → m.dedupKey = some key ∧ m.taskName ∈ crew.tasks
  passed : Machine.happened (rejectsElsewhere k i) tr = 0

/-- What has become of the attempts of message `i`. -/
structure Attempts (crew : Fleet) (i : TaskId) (key : String) (ttl clock : Nat)
    (tr : List (dedupFleet S codec k crew).Label) (q : TimedDeduplication)
    (stages : List (Sectioned Phase)) : Prop where
  remembers : q.Remembers key ttl (clock + elapsedIn tr) (checkTimes key clock tr)
  keyed : ∀ u ∈ stages, KeyedStage i key crew.tasks u
  attempts : Machine.happened (begins i) tr =
    Machine.happened (invokes i) tr + total (Phase.attempts i) stages
  failures : Machine.happened (logsFailure i) tr + total (Phase.unlogged i) stages =
    Machine.happened (errs i) tr

/-- A shorter history has no fewer reasons to be unhurried. -/
theorem Unhurried.front {tr : List (dedupFleet S codec k crew).Label}
    {l : (dedupFleet S codec k crew).Label} (h : Unhurried k crew i key ttl clock (tr ++ [l])) :
    Unhurried k crew i key ttl clock tr := by
  refine ⟨?_, fun m hm => h.keyed m (List.mem_append.mpr (.inl hm)), ?_⟩
  · have hspaced := h.spaced
    rw [checkTimes_snoc, Spaced, List.isChain_append] at hspaced
    exact hspaced.1
  · have hpassed := h.passed
    rw [Machine.happened_snoc] at hpassed
    omega

/-- The last call of an unhurried history rejects nothing. -/
theorem Unhurried.call {tr : List (dedupFleet S codec k crew).Label} {e : Event memoryInterface}
    {u u' : Sectioned Phase} (h : Unhurried k crew i key ttl clock (tr ++ [.call e]))
    (hstep : Sectioned.Step (Phase.Step crew) u e.op e.res u')
    (hu : KeyedStage i key crew.tasks u)
    (hcheck : ∀ m error, e = ⟨.runtime (.before k m), .error error⟩ → m.dedupKey ≠ some key) :
    UnrejectedSection i key crew.tasks e := by
  constructor
  · intro m r he hid
    refine h.keyed m (List.mem_append.mpr (.inr ?_)) hid
    rw [he]
    exact List.mem_singleton.mpr rfl
  · rintro mw m error rfl hid
    have hkey : m.dedupKey = some key := by
      cases hstep with
      | runtime hp =>
          cases hp with
          | reject => exact (hu hid).1
          | followUp _ _ _ hop => exact hop.elim
    by_cases hmw : mw = k
    · subst hmw
      exact hcheck m error rfl hkey
    · have hpassed := h.passed
      rw [Machine.happened_snoc] at hpassed
      have hrejects : rejectsElsewhere k i
          (⟨.runtime (.before mw m), .error error⟩ : Event memoryInterface) = true := by
        simp [rejectsElsewhere, ofRuntime, hmw, hid]
      simp [Machine.happens, hrejects] at hpassed

/-- The middleware is left alone by every stimulus but time. -/
theorem Attempts.env {tr : List (dedupFleet S codec k crew).Label} {q q' : TimedDeduplication}
    {stages new : List (Sectioned Phase)} (h : Attempts crew i key ttl clock tr q stages)
    (x : (dedupFleet S codec k crew).Stimulus)
    (hq : q' = { q with clock := q.clock + elapsed (.env x : (dedupFleet S codec k crew).Label) })
    (hnew : ∀ u ∈ new, ∃ m, u = .at (.entering m)) :
    Attempts crew i key ttl clock (tr ++ [.env x]) q' (stages ++ new) := by
  have hnothing : ∀ f : Phase → Nat, (∀ m, f (.entering m) = 0) →
      total f (stages ++ new) = total f stages := by
    intro f hf
    have hzero : total f new = 0 := by
      refine List.sum_eq_zero fun n hn => ?_
      obtain ⟨u, hu, rfl⟩ := List.mem_map.mp hn
      obtain ⟨m, rfl⟩ := hnew u hu
      exact hf m
    simpa [total] using hzero
  have hsame : ∀ f : Event memoryInterface → Bool,
      Machine.happened f (tr ++ [(.env x : (dedupFleet S codec k crew).Label)]) =
        Machine.happened f tr := by
    intro f
    rw [Machine.happened_snoc]
    rfl
  refine ⟨?_, ?_, ?_, ?_⟩
  · rw [elapsedIn_snoc, checkTimes_snoc, hq]
    refine ⟨h.remembers.ttl_eq, ?_, ?_⟩
    · simp only [h.remembers.clock_eq]
      omega
    · simpa [Machine.happens] using h.remembers.last_eq
  · intro u hu
    rcases List.mem_append.mp hu with hu | hu
    · exact h.keyed u hu
    · obtain ⟨m, rfl⟩ := hnew u hu
      trivial
  · rw [hsame, hsame, h.attempts, hnothing _ fun _ => rfl]
  · rw [hsame, hsame, ← h.failures, hnothing _ fun _ => rfl]

/-- The attempts along every unhurried history. -/
theorem attempts_of_reach {s₀ : S.State} {tr : List (dedupFleet S codec k crew).Label}
    {c : Machine.Staged (dedupFleet S codec k crew) (sectioned (pipeline crew))}
    (h : Machine.StagedReach (sectioned (pipeline crew)) FleetStimulus.phases
      ⟨((MemoryBroker.new, s₀), ⟨.new ttl, clock⟩), []⟩ tr c)
    (hunhurried : Unhurried k crew i key ttl clock tr) :
    Attempts crew i key ttl clock tr c.state.2 c.stages := by
  induction h with
  | start => exact ⟨⟨rfl, rfl, rfl⟩, fun _ hu => (List.not_mem_nil hu).elim, rfl, rfl⟩
  | @step tr c c' l _ hstep ih =>
      have ih := ih hunhurried.front
      cases hstep with
      | @call o s s' op r u u' before after hr hp =>
          have hq : deduplicationMiddleware.answer k op s.2 = some (r, s'.2) ∨
              deduplicationMiddleware.answer k op s.2 = none ∧ s'.2 = s.2 := by
            rcases Middleware.mount_cases hr with ⟨hsome, -⟩ | ⟨hnone, -, hq⟩
            · exact .inl hsome
            · exact .inr ⟨hnone, hq⟩
          have hspaced := hunhurried.spaced
          have hcheckAt : (if Machine.happens (M := dedupFleet S codec k crew) (checks k key)
              (.call ⟨op, r⟩) then [clock + elapsedIn tr] else []) =
                checkAt k key (clock + elapsedIn tr) ⟨op, r⟩ := rfl
          rw [checkTimes_snoc, hcheckAt] at hspaced
          obtain ⟨hremembers, hpasses⟩ := ih.remembers.call hspaced hq
          have hu := ih.keyed u (List.mem_append.mpr (.inr List.mem_cons_self))
          obtain ⟨hkeyed, hattempts, hfailures⟩ :=
            Sectioned.Step.counts hp hu (hunhurried.call hp hu hpasses)
          have hbegun := ih.attempts
          have hfailed := ih.failures
          rw [total_split] at hbegun hfailed
          refine ⟨?_, ?_, ?_, ?_⟩
          · rw [elapsedIn_snoc, checkTimes_snoc, hcheckAt]
            exact hremembers
          · intro v hv
            rcases List.mem_append.mp hv with hv | hv
            · exact ih.keyed v (List.mem_append.mpr (.inl hv))
            · rcases List.mem_cons.mp hv with rfl | hv
              · exact hkeyed
              · exact ih.keyed v (List.mem_append.mpr (.inr (List.mem_cons_of_mem u hv)))
          · rw [Machine.happened_snoc, Machine.happened_snoc, total_split]
            simp only [Machine.happens]
            omega
          · rw [Machine.happened_snoc, Machine.happened_snoc, total_split]
            simp only [Machine.happens]
            omega
      | env x stages haccept =>
          have haccepted := fleet_accept haccept
          refine ih.env x ?_ fun u hu => entering_of_mem_phases hu
          cases x with
          | tick n => exact congrArg Prod.snd haccepted
          | memory x => exact haccepted

end Histories

/-! ## The life of the message -/

section Life

variable {S : Service resultBackendTrait} {codec : Codec} {k : Nat} {crew : Fleet}

/-- What a step adds to the life of message `i`. -/
theorem life_opened_cons (i : TaskId) (l : (dedupFleet S codec k crew).Label)
    (tr : List (dedupFleet S codec k crew).Label) :
    life i (opened (l :: tr)) =
      ((openLabel l).bind (lifeEvent i)).toList ++ life i (opened tr) := by
  rw [life, life, opened, opened, List.filterMap_filterMap, List.filterMap_filterMap]
  cases h : (openLabel l).bind (lifeEvent i) with
  | none => exact List.filterMap_cons_none h
  | some e => exact List.filterMap_cons_some h

/-- The executions and the failures of a life are calls of the history. -/
theorem life_step (i : TaskId) (l : (dedupFleet S codec k crew).Label) :
    (executions ((openLabel l).bind (lifeEvent i)).toList).length =
        (Machine.happens (begins i) l).toNat ∧
      failures ((openLabel l).bind (lifeEvent i)).toList =
        (Machine.happens (logsFailure i) l).toNat := by
  cases l with
  | env x => cases x <;> exact ⟨rfl, rfl⟩
  | call e =>
      obtain ⟨op, r⟩ := e
      have hopen : openLabel (.call ⟨op, r⟩ : (dedupFleet S codec k crew).Label) =
          some (.call ⟨op, r⟩) := rfl
      rw [hopen, Option.bind_some]
      cases op with
      | backend op => exact ⟨rfl, rfl⟩
      | broker op =>
          cases op with
          | deliver s =>
              cases s <;>
                simp only [lifeEvent, Machine.happens, begins, logsFailure, ofRuntime] <;>
                split <;> exact ⟨rfl, rfl⟩
          | _ => exact ⟨rfl, rfl⟩
      | runtime op =>
          cases op with
          | trace e =>
              cases e <;> first
                | exact ⟨rfl, rfl⟩
                | (simp only [lifeEvent, Machine.happens, begins, logsFailure, ofRuntime]
                   split <;> rename_i h <;> simp [h, executions, failures])
          | handle m name payload =>
              cases r <;>
                simp only [lifeEvent, Machine.happens, begins, logsFailure, ofRuntime] <;>
                first
                  | exact ⟨rfl, rfl⟩
                  | (split <;> exact ⟨rfl, rfl⟩)
          | _ => exact ⟨rfl, rfl⟩

theorem executions_opened (i : TaskId) (tr : List (dedupFleet S codec k crew).Label) :
    (executions (life i (opened tr))).length = Machine.happened (begins i) tr := by
  induction tr with
  | nil => rfl
  | cons l tr ih =>
      rw [life_opened_cons, executions_append, List.length_append, ih, (life_step i l).1,
        Machine.happened, Machine.happened, List.countP_cons, Nat.add_comm]
      cases Machine.happens (begins i) l <;> rfl

theorem failures_opened (i : TaskId) (tr : List (dedupFleet S codec k crew).Label) :
    failures (life i (opened tr)) = Machine.happened (logsFailure i) tr := by
  induction tr with
  | nil => rfl
  | cons l tr ih =>
      rw [life_opened_cons, failures_append, ih, (life_step i l).2,
        Machine.happened, Machine.happened, List.countP_cons, Nat.add_comm]
      cases Machine.happens (logsFailure i) l <;> rfl

/-- An attempt that begins is an execution of the life. -/
theorem mem_executions {m : TaskMessage} {tr : List (dedupFleet S codec k crew).Label}
    (h : executes m ∈ tr) : m ∈ executions (life m.id (opened tr)) := by
  obtain ⟨tr₁, tr₂, rfl⟩ := List.append_of_mem h
  have hopened : opened (tr₁ ++ executes m :: tr₂) =
      opened tr₁ ++ opened (executes m :: tr₂) := List.filterMap_append
  have hone : ((openLabel (executes m : (dedupFleet S codec k crew).Label)).bind
      (lifeEvent m.id)).toList = [.executed m] := by
    simp [openLabel, executes, lifeEvent]
  rw [hopened, life_append, executions_append, life_opened_cons, hone]
  simp [executions]

end Life

section Result

variable {S : Service resultBackendTrait} {codec : Codec} {k : Nat} {crew : Fleet}

/-- The deduplication does not eat the retries of `m₀`. -/
structure Uneaten (m₀ : TaskMessage) (tr : List (dedupFleet S codec k crew).Label)
    (c : (dedupFleet S codec k crew).Config) : Prop where
  /-- Every attempt that has come to its end has dispatched the handler. -/
  dispatched : (∀ p ∈ c.threads, p = .ret ()) →
    Machine.happened (invokes m₀.id) tr = (executions (life m₀.id (opened tr))).length
  /-- Only errors of the handler are charged for. -/
  charged : failures (life m₀.id (opened tr)) ≤ Machine.happened (errs m₀.id) tr
  /-- A handler that fails no more than `max_retries` times keeps its message out of
  the dead-letter queue. -/
  alive : Machine.happened (errs m₀.id) tr ≤ m₀.maxRetries.toNat →
    ∀ m ∈ c.state.1.1.dlq.contents, m.id ≠ m₀.id
  /-- Such a message ends in success. -/
  ends : Machine.happened (errs m₀.id) tr ≤ m₀.maxRetries.toNat →
    (∀ p ∈ c.threads, p = .ret ()) → (∀ m ∈ c.state.1.1.queues.contents, m.id ≠ m₀.id) →
    .succeeded ∈ life m₀.id (opened tr)

/-- At rest no attempt is among its hooks. -/
theorem attempts_at_rest {i : TaskId} {threads : List (Prog memoryInterface Unit)}
    {stages : List (Sectioned Phase)}
    (h : List.Forall₂ (Prog.Follows (sectioned (pipeline crew))) threads stages)
    (hrest : ∀ p ∈ threads, p = .ret ()) : total (Phase.attempts i) stages = 0 := by
  refine List.sum_eq_zero fun n hn => ?_
  obtain ⟨u, hu, rfl⟩ := List.mem_map.mp hn
  obtain ⟨p, hp, hrel⟩ := Machine.exists_of_forall₂ h hu
  rw [hrest p hp] at hrel
  have hfinal : (sectioned (pipeline crew)).Final u := hrel
  cases u with
  | settling s next => rfl
  | «at» t => cases t <;> first | rfl | exact hfinal.elim

/-- Retries are not eaten when the checks of the key are a TTL apart, whatever the
handler returns: every attempt of the message dispatches the handler, and a message whose
handler fails `max_retries` times or less ends in success and never in the dead-letter
queue. -/
theorem retries_not_eaten {s₀ : S.State} {ttl clock : Nat}
    {tr : List (dedupFleet S codec k crew).Label} {c : (dedupFleet S codec k crew).Config}
    (h : (dedupFleet S codec k crew).Reach
      (fleetStart S codec deduplicationMiddleware k crew s₀ ⟨.new ttl, clock⟩) tr c)
    {m₀ : TaskMessage} {key : String} (hkey : m₀.dedupKey = some key)
    (hknown : m₀.taskName ∈ crew.tasks) (h₀ : m₀.retries = 0)
    (honce : arrivals m₀.id (opened tr) = [m₀])
    (hspaced : Spaced ttl (checkTimes key clock tr))
    (hpassed : Machine.happened (rejectsElsewhere k m₀.id) tr = 0) : Uneaten m₀ tr c := by
  have hreach := reach_opened h
  have hbounded := bounded_retries hreach honce h₀
  have hkeyed : ∀ m, executes m ∈ tr → m.id = m₀.id →
      m.dedupKey = some key ∧ m.taskName ∈ crew.tasks := by
    intro m hm hid
    have hsame : m.SameTask m₀ := by
      refine executed_same hreach honce m ?_
      rw [← hid]
      exact mem_executions hm
    rw [hsame.dedupKey_eq, hsame.taskName_eq]
    exact ⟨hkey, hknown⟩
  obtain ⟨phases, hstaged, hfollows⟩ := fleet_phases h
  have hattempts := attempts_of_reach hstaged ⟨hspaced, hkeyed, hpassed⟩
  have hcharged : failures (life m₀.id (opened tr)) ≤ Machine.happened (errs m₀.id) tr := by
    rw [failures_opened, ← hattempts.failures]
    exact Nat.le_add_right _ _
  have hunburied : Machine.happened (errs m₀.id) tr ≤ m₀.maxRetries.toNat →
      burials (life m₀.id (opened tr)) = [] := by
    intro hle
    refine List.eq_nil_iff_forall_not_mem.mpr fun m hm => ?_
    have hall := (hbounded.buried m hm).2.2
    omega
  refine ⟨?_, hcharged, ?_, ?_⟩
  · intro hrest
    have hbegun := hattempts.attempts
    rw [attempts_at_rest hfollows hrest, Nat.add_zero] at hbegun
    rw [executions_opened, hbegun]
  · intro hle m hm hid
    have hburied := hbounded.deadLetters m hm hid
    rw [hunburied hle] at hburied
    cases hburied
  · intro hle hrest hempty
    rcases resting_cases hreach honce hrest with ⟨m, hm, hid⟩ | hburied | hsucceeded
    · exact absurd hid (hempty m hm)
    · exact absurd (hunburied hle) hburied
    · exact hsucceeded

end Result

/-! ## One failure, with and without the pause -/

/-- A message with the key `k` that may be retried once. -/
def keyedOnce : TaskMessage := { oneRetry with dedupKey := some "k" }

/-- The handler fails once, ten nanoseconds pass, and it succeeds. -/
def patientRetry : List dedupPair.Move :=
  .env (.memory (.enqueue keyedOnce)) ::
    dedupRound 0 10 failingRuntime ++ .env (.tick (10 : Nat)) :: dedupRound 1 6 stillRuntime

theorem patientRetry_plays : (dedupOrigin.playAll patientRetry).isSome = true := by
  decide +kernel

/-- How that ends. -/
def patientRetryEnd : List dedupPair.Label × dedupPair.Config :=
  (dedupOrigin.playAll patientRetry).get patientRetry_plays

set_option maxRecDepth 100000 in
theorem patientRetry_history :
    arrivals keyedOnce.id (opened patientRetryEnd.1) = [keyedOnce] ∧
      checkTimes "k" 0 patientRetryEnd.1 = [0, 10] := ⟨rfl, rfl⟩

/-- After a pause the retry is handled. -/
theorem retries_not_eaten_patientRetry :
    dedupPair.Reach dedupOrigin patientRetryEnd.1 patientRetryEnd.2 ∧
      Machine.happened (errs keyedOnce.id) patientRetryEnd.1 = 1 ∧
      Uneaten keyedOnce patientRetryEnd.1 patientRetryEnd.2 := by
  have hreach : dedupPair.Reach dedupOrigin patientRetryEnd.1 patientRetryEnd.2 :=
    Machine.Config.reach_of_get patientRetry_plays
  have hspaced : Spaced 10 (checkTimes "k" 0 patientRetryEnd.1) := by
    rw [patientRetry_history.2]
    decide
  exact ⟨hreach, by decide +kernel, retries_not_eaten hreach rfl (by decide) rfl
    patientRetry_history.1 hspaced (by decide +kernel)⟩

/-- The handler fails once, and the message is polled again at once. -/
def hastyRetry : List dedupPair.Move :=
  .env (.memory (.enqueue keyedOnce)) ::
    dedupRound 0 10 failingRuntime ++ dedupRound 1 8 stillRuntime

theorem hastyRetry_plays : (dedupOrigin.playAll hastyRetry).isSome = true := by
  decide +kernel

/-- How that ends. -/
def hastyRetryEnd : List dedupPair.Label × dedupPair.Config :=
  (dedupOrigin.playAll hastyRetry).get hastyRetry_plays

set_option maxRecDepth 100000 in
theorem hastyRetry_history :
    arrivals keyedOnce.id (opened hastyRetryEnd.1) = [keyedOnce] := rfl

/-- The retry is eaten: the handler has failed once of the two times it may, the
second attempt is rejected as a duplicate of the first, and the message is buried. -/
theorem retry_eaten :
    dedupPair.Reach dedupOrigin hastyRetryEnd.1 hastyRetryEnd.2 ∧
      arrivals keyedOnce.id (opened hastyRetryEnd.1) = [keyedOnce] ∧
      (executions (life keyedOnce.id (opened hastyRetryEnd.1))).length = 2 ∧
      Machine.happened (invokes keyedOnce.id) hastyRetryEnd.1 = 1 ∧
      hastyRetryEnd.2.state.1.1.dlqLen "q" = 1 ∧
      ¬ Uneaten keyedOnce hastyRetryEnd.1 hastyRetryEnd.2 := by
  have hreach : dedupPair.Reach dedupOrigin hastyRetryEnd.1 hastyRetryEnd.2 :=
    Machine.Config.reach_of_get hastyRetry_plays
  have htwo : (executions (life keyedOnce.id (opened hastyRetryEnd.1))).length = 2 := by
    decide +kernel
  have hone : Machine.happened (invokes keyedOnce.id) hastyRetryEnd.1 = 1 := by decide +kernel
  have hthreads : hastyRetryEnd.2.threads = [.ret (), .ret ()] := rfl
  refine ⟨hreach, hastyRetry_history, htwo, hone, by decide +kernel, fun huneaten => ?_⟩
  have heq := huneaten.dispatched (by rw [hthreads]; simp)
  rw [htwo, hone] at heq
  cases heq

end Kojin.Core
