/-
  Core/ResultClients.lean --- clients that store, read, delete and wait for results
  (`kojin-core`: `memory_result_backend.rs`).

      store, get, delete     one section under the lock
      wait                   get, again and again, 50 ms apart, until there is a result or
                             the timeout is over

  Many clients do so at once, and any time passes between and during their calls.  Beside
  the backend stands the history of its moments, so that what a caller of `wait` gets can
  be compared with what there was while he waited.
-/
import Kojin.Core.MemoryResultBackend
import Kojin.Foundation.Growing
import Kojin.Foundation.Polling

set_option autoImplicit false

namespace Kojin.Core

open Kojin.Foundation

/-! ## The backend -/

/-- Somebody waits for a result, from this time on. -/
structure WaitCall where
  id : TaskId
  timeout : Nat
  start : Nat

/-- What the clients do to results; `returned` is what a caller of `wait` gets. -/
inductive ResultOp where
  | store (id : TaskId) (result : Json)
  | get (id : TaskId)
  | delete (id : TaskId)
  | returned (call : WaitCall) (out : Option (Outcome KojinError Json))

/-- The answers. -/
abbrev ResultOp.Res : ResultOp → Type
  | .store _ _ => TaskResult Unit
  | .get _ => TaskResult (Option Json)
  | .delete _ => TaskResult Unit
  | .returned _ _ => Unit

/-- The interface of results. -/
abbrev resultCalls : Interface := ⟨ResultOp, ResultOp.Res⟩

namespace MemoryResultBackend

/-- `get`. -/
def get (s : MemoryResultBackend) (id : TaskId) : TaskResult (Option Json) :=
  .ok (s.results.lookup id.toText)

/-- `delete`. -/
def delete (s : MemoryResultBackend) (id : TaskId) : MemoryResultBackend :=
  { s with results := s.results.erase id.toText }

/-- `Duration::from_millis(50)`, in nanoseconds. -/
def interval : Nat := 50000000

/-- The rounds that a timeout leaves time for. -/
def rounds (timeout : Nat) : Nat := (timeout + interval - 1) / interval + 1

theorem interval_pos : 0 < interval := by decide

theorem lt_rounds (timeout : Nat) : (timeout + interval - 1) / interval < rounds timeout :=
  Nat.lt_succ_self _

/-- `wait`. -/
def wait (id : TaskId) (timeout : Nat) :
    Prog (timed resultCalls) (Option (Outcome KojinError Json)) :=
  poll (Prog.perform (I := resultCalls) (.get id)) interval timeout (rounds timeout)

end MemoryResultBackend

/-! ## Many clients -/

/-- The results at a time. -/
structure Moment where
  clock : Nat
  results : Table String Json

/-- The backend, the clock, and the moments there were, the last first. -/
structure ResultWorld where
  backend : MemoryResultBackend
  clock : Nat
  past : List Moment

namespace ResultWorld

/-- Time passes, and a moment comes. -/
def tick (s : ResultWorld) (elapsed : Nat) : ResultWorld where
  backend := s.backend
  clock := s.clock + elapsed
  past := ⟨s.clock + elapsed, s.backend.results⟩ :: s.past

/-- A call that is carried out. -/
def perform (s : ResultWorld) : (op : ResultOp) → op.Res × ResultWorld
  | .store id result => (.ok (), { s with backend := s.backend.store id result })
  | .get id => (s.backend.get id, s)
  | .delete id => (.ok (), { s with backend := s.backend.delete id })
  | .returned _ _ => ((), s)

/-- The calls of the clients; before each some time passes, and a sleep takes at least its
time. -/
def service : Service (timed resultCalls) where
  State := ResultWorld
  Oracle := Nat
  respond elapsed s
    | .base op => some ((s.tick elapsed).perform op)
    | .instant => some (s.clock + elapsed, s.tick elapsed)
    | .sleep duration => some ((), s.tick (max duration elapsed))

/-- What a client may do. -/
inductive Client where
  | store (id : TaskId) (result : Json)
  | get (id : TaskId)
  | delete (id : TaskId)
  | wait (id : TaskId) (timeout : Nat)

/-- Clients call, in any number and at any time. -/
def machine : Machine (timed resultCalls) where
  toService := service
  Stimulus := Client
  accept x s := some (s, [match x with
    | .store id result => do
        let _ ← Prog.perform (I := timed resultCalls) (.base (.store id result))
        pure ()
    | .get id => do
        let _ ← Prog.perform (I := timed resultCalls) (.base (.get id))
        pure ()
    | .delete id => do
        let _ ← Prog.perform (I := timed resultCalls) (.base (.delete id))
        pure ()
    | .wait id timeout => do
        let out ← MemoryResultBackend.wait id timeout
        Prog.perform (I := timed resultCalls) (.base (.returned ⟨id, timeout, s.clock⟩ out))])

/-! ## What a caller may be told -/

/-- Time goes on, and no moment is forgotten. -/
def Later (s s' : ResultWorld) : Prop := s.clock ≤ s'.clock ∧ s.past <:+ s'.past

theorem Later.refl (s : ResultWorld) : Later s s := ⟨Nat.le_refl _, List.suffix_refl _⟩

theorem Later.trans {s₁ s₂ s₃ : ResultWorld} (h : Later s₁ s₂) (h' : Later s₂ s₃) :
    Later s₁ s₃ :=
  ⟨h.1.trans h'.1, h.2.trans h'.2⟩

theorem later_tick (s : ResultWorld) (elapsed : Nat) : Later s (s.tick elapsed) :=
  ⟨Nat.le_add_right _ _, List.suffix_cons _ _⟩

theorem later_perform (s : ResultWorld) (op : ResultOp) : Later s (s.perform op).2 := by
  cases op <;> exact .refl s

theorem later_respond {elapsed : Nat} {s s' : ResultWorld} {op : TimedOp resultCalls}
    {r : (timed resultCalls).Res op} (h : service.respond elapsed s op = some (r, s')) :
    Later s s' := by
  cases op with
  | base op =>
      have hs : s' = ((s.tick elapsed).perform op).2 := congrArg Prod.snd (Option.some.inj h).symm
      rw [hs]
      exact (later_tick s elapsed).trans (later_perform _ op)
  | instant =>
      cases h
      exact later_tick s elapsed
  | sleep duration =>
      cases h
      exact later_tick s _

/-- Since a time there was a moment with this under an identifier. -/
def Seen (s : ResultWorld) (id : TaskId) (start : Nat) (found : Option Json) : Prop :=
  ∃ m ∈ s.past, start ≤ m.clock ∧ m.results.lookup id.toText = found

theorem Seen.later {s s' : ResultWorld} {id : TaskId} {start : Nat} {found : Option Json}
    (h : Seen s id start found) (hle : Later s s') : Seen s' id start found := by
  obtain ⟨m, hm, hclock, hfound⟩ := h
  exact ⟨m, hle.2.subset hm, hclock, hfound⟩

/-- What a caller of `wait` may be told: a result that there was while he waited, or that
the time is over, when there was none at some moment while he waited. -/
def Honest (s : ResultWorld) (call : WaitCall) : Outcome KojinError Json → Prop
  | .found v => Seen s call.id call.start (some v)
  | .failed _ => False
  | .timedOut => call.start + call.timeout ≤ s.clock ∧ Seen s call.id call.start none

theorem Honest.later {s s' : ResultWorld} {call : WaitCall} {outcome : Outcome KojinError Json}
    (h : Honest s call outcome) (hle : Later s s') : Honest s' call outcome := by
  cases outcome with
  | found v => exact Seen.later h hle
  | failed e => exact h
  | timedOut => exact ⟨h.1.trans hle.1, h.2.later hle⟩

/-- Callers of `wait` are told something, and nothing else. -/
def Allowed (s : ResultWorld) : TimedOp resultCalls → Prop
  | .base (.returned call out) => ∃ outcome, out = some outcome ∧ Honest s call outcome
  | _ => True

/-! ## The loop -/

/-- What there is when it is read. -/
theorem seen_get {elapsed : Nat} {s s' : ResultWorld} {id : TaskId} {start : Nat}
    {r : TaskResult (Option Json)} (hstart : start ≤ s.clock)
    (h : service.respond elapsed s (.base (.get id)) = some (r, s')) :
    ∃ found, r = .ok found ∧ Seen s' id start found := by
  cases h
  exact ⟨_, rfl, _, List.mem_cons_self, hstart.trans (Nat.le_add_right _ _), rfl⟩

/-- One round of the loop. -/
theorem guarded_round {call : WaitCall} {interval deadline rounds : Nat} {s : ResultWorld}
    (hdeadline : call.start + call.timeout ≤ deadline) (hstart : call.start ≤ s.clock)
    (hrest : ∀ now s', Later s s' → s.clock ≤ now → now < deadline →
      now + interval ≤ s'.clock →
      Prog.Guarded service Later Allowed
        (fun out s' => ∃ outcome, out = some outcome ∧ Honest s' call outcome)
        (pollUntil (Prog.perform (I := resultCalls) (.get call.id)) interval deadline
          rounds) s') :
    Prog.Guarded service Later Allowed
      (fun out s' => ∃ outcome, out = some outcome ∧ Honest s' call outcome)
      (pollUntil (Prog.perform (I := resultCalls) (.get call.id)) interval deadline
        (rounds + 1)) s := by
  intro s₁ hle₁
  refine ⟨trivial, fun elapsed r s₂ hget => ?_⟩
  obtain ⟨found, rfl, hseen⟩ := seen_get (hstart.trans hle₁.1) hget
  have hle₂ : Later s s₂ := hle₁.trans (later_respond hget)
  cases found with
  | some v => exact ⟨_, rfl, hseen⟩
  | none =>
      intro s₃ hle₃
      refine ⟨trivial, fun elapsed now s₄ hread => ?_⟩
      have hle₄ : Later s₂ s₄ := hle₃.trans (later_respond hread)
      have hnow : now = s₄.clock := by
        cases hread
        rfl
      subst hnow
      show Prog.Guarded service Later Allowed _ (if deadline ≤ s₄.clock then _ else _) s₄
      split
      · rename_i hreached
        exact ⟨_, rfl, hdeadline.trans hreached, hseen.later hle₄⟩
      · rename_i hbefore
        intro s₅ hle₅
        refine ⟨trivial, fun elapsed u s₆ hsleep => ?_⟩
        refine hrest s₄.clock s₆ ?_ (hle₂.trans hle₄).1 (Nat.lt_of_not_le hbefore) ?_
        · exact ((hle₂.trans hle₄).trans hle₅).trans (later_respond hsleep)
        · cases hsleep
          exact Nat.add_le_add hle₅.1 (Nat.le_max_left _ _)

/-- The loop of `wait`, while `n` more sleeps reach the deadline. -/
theorem guarded_pollUntil {call : WaitCall} {interval deadline n : Nat}
    (hdeadline : call.start + call.timeout ≤ deadline) :
    ∀ {rounds : Nat} {s : ResultWorld}, call.start ≤ s.clock →
      deadline ≤ s.clock + n * interval → n < rounds →
      Prog.Guarded service Later Allowed
        (fun out s' => ∃ outcome, out = some outcome ∧ Honest s' call outcome)
        (pollUntil (Prog.perform (I := resultCalls) (.get call.id)) interval deadline
          rounds) s := by
  induction n with
  | zero =>
      intro rounds s hstart hreach hrounds
      obtain ⟨rounds, rfl⟩ := Nat.exists_eq_succ_of_ne_zero (Nat.ne_zero_of_lt hrounds)
      refine guarded_round hdeadline hstart fun now s' _ hnow hbefore _ => ?_
      omega
  | succ n ih =>
      intro rounds s hstart hreach hrounds
      obtain ⟨rounds, rfl⟩ := Nat.exists_eq_succ_of_ne_zero (Nat.ne_zero_of_lt hrounds)
      refine guarded_round hdeadline hstart fun now s' hle hnow _ hslept => ?_
      refine ih (hstart.trans hle.1) ?_ (Nat.lt_of_succ_lt_succ hrounds)
      -- the sleep brings the deadline one interval nearer
      rw [Nat.add_mul, Nat.one_mul] at hreach
      omega

/-- `wait`, from when it is called. -/
theorem guarded_poll {id : TaskId} {interval timeout n rounds : Nat} {s : ResultWorld}
    (hcover : timeout ≤ n * interval) (hrounds : n < rounds) :
    Prog.Guarded service Later Allowed
      (fun out s' => ∃ outcome, out = some outcome ∧ Honest s' ⟨id, timeout, s.clock⟩ outcome)
      (poll (Prog.perform (I := resultCalls) (.get id)) interval timeout rounds) s := by
  intro s₁ hle₁
  refine ⟨trivial, fun elapsed now s₂ hread => ?_⟩
  have hle₂ : Later s s₂ := hle₁.trans (later_respond hread)
  have hnow : now = s₂.clock := by
    cases hread
    rfl
  subst hnow
  let call : WaitCall := ⟨id, timeout, s.clock⟩
  have hstart : call.start ≤ s₂.clock := hle₂.1
  exact guarded_pollUntil (Nat.add_le_add_right hstart timeout) hstart
    (Nat.add_le_add_left hcover _) hrounds

/-! ## Every run -/

/-- Waiting, among other clients.  In every interleaving of any number of clients that
store, read, delete and wait, with any delays: whatever a caller of `wait` is about to be
told, the loop has come to an end within the rounds its timeout leaves; a result was there
at some moment since the call; and the timeout is told only when it is over, and there was
no result at some moment since the call. -/
theorem wait_honest {s₀ : ResultWorld} {tr : List machine.Label} {c : machine.Config}
    (h : machine.Reach ⟨s₀, []⟩ tr c) {call : WaitCall} {out : Option (Outcome KojinError Json)}
    {k : Unit → Prog (timed resultCalls) Unit}
    (hout : .call (.base (.returned call out)) k ∈ c.threads) :
    ∃ outcome, out = some outcome ∧ Honest c.state call outcome := by
  have hentry : ∀ x s s' new, True → machine.accept x s = some (s', new) →
      True ∧ Later s s' ∧ ∀ p ∈ new, p.Guarded service Later Allowed (fun _ _ => True) s' := by
    intro x s s' new _ haccept
    cases haccept
    refine ⟨trivial, Later.refl s, fun p hp => ?_⟩
    rw [List.mem_singleton.mp hp]
    cases x with
    | store id result => exact fun s₁ _ => ⟨trivial, fun _ _ _ _ => trivial⟩
    | get id => exact fun s₁ _ => ⟨trivial, fun _ _ _ _ => trivial⟩
    | delete id => exact fun s₁ _ => ⟨trivial, fun _ _ _ _ => trivial⟩
    | wait id timeout =>
        refine Prog.Guarded.bind (guarded_poll (le_intervals MemoryResultBackend.interval_pos timeout)
          (MemoryResultBackend.lt_rounds timeout)) fun out s₁ hout s₂ hle => ?_
        obtain ⟨outcome, rfl, hhonest⟩ := hout
        exact ⟨⟨outcome, rfl, hhonest.later hle⟩, fun _ _ _ _ => trivial⟩
  obtain ⟨-, -, hguarded⟩ := Machine.Reach.growing (M := machine) (G := Allowed)
    (J := fun _ => True) (show ∀ s, Later s s from Later.refl) (fun _ _ _ => Later.trans)
    (fun _ _ _ _ _ _ _ hr => ⟨trivial, later_respond hr⟩) hentry
    (fun p hp => (List.not_mem_nil hp).elim) trivial h
  exact (hguarded _ hout c.state (Later.refl c.state)).1

/-! ## A result comes while somebody waits -/

/-- Nothing is stored. -/
def start : ResultWorld := ⟨.new, 0, []⟩

/-- No time passes. -/
def atOnce : machine.Oracle := (0 : Nat)

/-- A caller waits for 60 ms, and the result is stored while he sleeps. -/
def storedInTime : List machine.Move :=
  [.env (.wait ⟨1⟩ 60000000), .run 0 atOnce, .run 0 atOnce, .run 0 atOnce,
    .env (.store ⟨1⟩ .null), .run 1 atOnce, .run 0 atOnce, .run 0 atOnce]

theorem storedInTime_plays : (Machine.Config.playAll (M := machine) ⟨start, []⟩
    storedInTime).isSome = true := by
  decide +kernel

/-- He is told the result, rightly. -/
theorem wait_honest_found : ∃ c : machine.Config,
    Honest c.state ⟨⟨1⟩, 60000000, 0⟩ (.found .null) := by
  obtain ⟨outcome, heq, hhonest⟩ := wait_honest
    (Machine.Config.reach_of_get storedInTime_plays) (List.mem_of_getElem? (i := 0) rfl)
  cases heq
  exact ⟨_, hhonest⟩

end ResultWorld

end Kojin.Core
