/-
  Foundation/Polling.lean --- a loop that asks, looks at the clock and sleeps.

      poll    the deadline is set; then, again and again: ask, and stop with what is
              found; look at the clock, and give up at the deadline; sleep

  The answers may come from anywhere, and time passes as it likes, only that a sleep
  takes as long as it is told.  So the number of rounds is bounded by the timeout, and
  the loop does not give up before it is over, nor without having asked.  Nothing here
  mentions a particular program.
-/
import Kojin.Foundation.Prog
import Mathlib.Data.List.Infix

set_option autoImplicit false

namespace Kojin.Foundation

/-- The calls of an interface, the reading of a clock, and sleep. -/
inductive TimedOp (I : Interface) where
  | base (op : I.Op)
  | instant
  | sleep (duration : Nat)

/-- What the calls, the clock and sleep answer. -/
abbrev TimedOp.Res {I : Interface} : TimedOp I → Type
  | .base op => I.Res op
  | .instant => Nat
  | .sleep _ => Unit

/-- An interface with a clock. -/
abbrev timed (I : Interface) : Interface := ⟨TimedOp I, TimedOp.Res⟩

/-- How the loop ends. -/
inductive Outcome (E A : Type) where
  | found (a : A)
  | failed (e : E)
  | timedOut

variable {I : Interface} {E A α : Type}

namespace Prog

/-- A program of the interface, beside a clock. -/
def timed (p : Prog I α) : Prog (timed I) α :=
  p.interp fun op => perform (I := Foundation.timed I) (.base op)

/-- An event beside a clock. -/
def timedEvent (e : Event I) : Event (Foundation.timed I) := ⟨.base e.op, e.res⟩

/-- What a program does beside a clock. -/
theorem trace_timed_iff {p : Prog I α} {tr : List (Event (Foundation.timed I))} {a : α} :
    p.timed.Trace tr a ↔ ∃ part, p.Trace part a ∧ tr = part.map timedEvent := by
  induction p generalizing tr with
  | ret b =>
      rw [timed, interp, trace_ret_iff]
      constructor
      · rintro ⟨rfl, rfl⟩
        exact ⟨[], .ret _, rfl⟩
      · rintro ⟨part, hpart, rfl⟩
        obtain ⟨rfl, rfl⟩ := trace_ret_iff.mp hpart
        exact ⟨rfl, rfl⟩
  | call op k ih =>
      have hcall : (call op k).timed =
          call (I := Foundation.timed I) (.base op) fun r => (k r).timed := rfl
      rw [hcall, trace_call_iff]
      constructor
      · rintro ⟨r, rest, rfl, hrest⟩
        obtain ⟨part, hpart, rfl⟩ := (ih r).mp hrest
        exact ⟨⟨op, r⟩ :: part, .call hpart, rfl⟩
      · rintro ⟨part, hpart, rfl⟩
        obtain ⟨r, rest, rfl, hrest⟩ := trace_call_iff.mp hpart
        exact ⟨r, rest.map timedEvent, rfl, (ih r).mpr ⟨rest, hrest, rfl⟩⟩

end Prog

/-- The loop, for so many rounds; without any it has not ended. -/
def pollUntil (ask : Prog I (Except E (Option A))) (interval deadline : Nat) :
    Nat → Prog (timed I) (Option (Outcome E A))
  | 0 => .ret none
  | rounds + 1 => do
      match ← ask.timed with
      | .error e => .ret (some (.failed e))
      | .ok (some a) => .ret (some (.found a))
      | .ok none =>
          .call .instant fun now : Nat =>
            if deadline ≤ now then .ret (some .timedOut)
            else .call (.sleep interval) fun _ => pollUntil ask interval deadline rounds

/-- The loop with its timeout. -/
def poll (ask : Prog I (Except E (Option A))) (interval timeout rounds : Nat) :
    Prog (timed I) (Option (Outcome E A)) :=
  .call .instant fun now : Nat => pollUntil ask interval (now + timeout) rounds

/-- The clock does not go back, and a sleep takes its time. -/
def Timely : Nat → List (Event (timed I)) → Prop
  | _, [] => True
  | now, ⟨.base _, _⟩ :: tr => Timely now tr
  | now, ⟨.instant, (now' : Nat)⟩ :: tr => now ≤ now' ∧ Timely now' tr
  | now, ⟨.sleep duration, _⟩ :: tr => Timely (now + duration) tr

/-- The program slept. -/
def slept : Event (timed I) → Bool
  | ⟨.sleep _, _⟩ => true
  | _ => false

theorem timely_append_base {now : Nat} {part : List (Event I)} {tr : List (Event (timed I))} :
    Timely now (part.map Prog.timedEvent ++ tr) ↔ Timely now tr := by
  induction part with
  | nil => rfl
  | cons e part ih => exact ih

theorem countP_slept_base (part : List (Event I)) :
    (part.map Prog.timedEvent).countP slept = 0 := by
  rw [List.countP_eq_zero]
  intro e he
  obtain ⟨e', -, rfl⟩ := List.mem_map.mp he
  exact Bool.false_ne_true

/-- Rounds that found nothing, each before the deadline and followed by a sleep. -/
inductive Fruitless (ask : Prog I (Except E (Option A))) (interval deadline : Nat) :
    List (Event (timed I)) → Prop where
  | nil : Fruitless ask interval deadline []
  | round {part : List (Event I)} {now : Nat} {rest : List (Event (timed I))} :
      ask.Trace part (.ok none) → now < deadline → Fruitless ask interval deadline rest →
      Fruitless ask interval deadline
        (part.map Prog.timedEvent ++ [⟨.instant, now⟩, ⟨.sleep interval, ()⟩] ++ rest)

/-- How a history of the loop ends. -/
inductive Closes (ask : Prog I (Except E (Option A))) (interval deadline : Nat) :
    List (Event (timed I)) → Outcome E A → Prop where
  | found {before : List (Event (timed I))} {part : List (Event I)} {a : A} :
      Fruitless ask interval deadline before → ask.Trace part (.ok (some a)) →
      Closes ask interval deadline (before ++ part.map Prog.timedEvent) (.found a)
  | failed {before : List (Event (timed I))} {part : List (Event I)} {e : E} :
      Fruitless ask interval deadline before → ask.Trace part (.error e) →
      Closes ask interval deadline (before ++ part.map Prog.timedEvent) (.failed e)
  | timedOut {before : List (Event (timed I))} {part : List (Event I)} {now : Nat} :
      Fruitless ask interval deadline before → ask.Trace part (.ok none) → deadline ≤ now →
      Closes ask interval deadline (before ++ part.map Prog.timedEvent ++ [⟨.instant, now⟩])
        .timedOut

/-- A round before. -/
theorem Closes.round {ask : Prog I (Except E (Option A))} {interval deadline : Nat}
    {tr : List (Event (timed I))} {outcome : Outcome E A}
    (h : Closes ask interval deadline tr outcome) {part : List (Event I)} {now : Nat}
    (hpart : ask.Trace part (.ok none)) (hnow : now < deadline) :
    Closes ask interval deadline
      (part.map Prog.timedEvent ++ [⟨.instant, now⟩, ⟨.sleep interval, ()⟩] ++ tr) outcome := by
  cases h with
  | found hbefore h =>
      rw [← List.append_assoc]
      exact .found (.round hpart hnow hbefore) h
  | failed hbefore h =>
      rw [← List.append_assoc]
      exact .failed (.round hpart hnow hbefore) h
  | timedOut hbefore h hreached =>
      rw [← List.append_assoc, ← List.append_assoc]
      exact .timedOut (.round hpart hnow hbefore) h hreached

/-- One round. -/
theorem pollUntil_cases {ask : Prog I (Except E (Option A))} {interval deadline rounds : Nat}
    {tr : List (Event (timed I))} {out : Option (Outcome E A)}
    (h : (pollUntil ask interval deadline (rounds + 1)).Trace tr out) :
    (∃ outcome, out = some outcome ∧ Closes ask interval deadline tr outcome ∧
        tr.countP slept = 0) ∨
      ∃ (part : List (Event I)) (now : Nat) (rest : List (Event (timed I))),
        ask.Trace part (.ok none) ∧ now < deadline ∧
        tr = part.map Prog.timedEvent ++ [⟨.instant, now⟩, ⟨.sleep interval, ()⟩] ++ rest ∧
        (pollUntil ask interval deadline rounds).Trace rest out := by
  obtain ⟨tr₁, tr₂, answer, rfl, hask, hrest⟩ := Prog.trace_bind_iff.mp h
  obtain ⟨part, hpart, rfl⟩ := Prog.trace_timed_iff.mp hask
  have hnone := countP_slept_base part
  rcases answer with e | _ | a
  · obtain ⟨rfl, rfl⟩ := Prog.trace_ret_iff.mp hrest
    rw [List.append_nil]
    exact .inl ⟨_, rfl, .failed .nil hpart, hnone⟩
  · obtain ⟨now, rest, rfl, hread⟩ := Prog.trace_call_iff.mp hrest
    split at hread
    · rename_i hreached
      obtain ⟨rfl, rfl⟩ := Prog.trace_ret_iff.mp hread
      refine .inl ⟨_, rfl, .timedOut .nil hpart hreached, ?_⟩
      rw [List.countP_append, hnone]
      rfl
    · rename_i hbefore
      obtain ⟨r, rest, rfl, hloop⟩ := Prog.trace_call_iff.mp hread
      refine .inr ⟨part, now, rest, hpart, Nat.lt_of_not_le hbefore, ?_, hloop⟩
      rw [List.append_assoc]
      rfl
  · obtain ⟨rfl, rfl⟩ := Prog.trace_ret_iff.mp hrest
    rw [List.append_nil]
    exact .inl ⟨_, rfl, .found .nil hpart, hnone⟩

/-- The loop ends in time.  If `n` sleeps reach the deadline, `n + 1` rounds are
enough. -/
theorem pollUntil_spec {ask : Prog I (Except E (Option A))} {interval deadline n : Nat} :
    ∀ {rounds now : Nat} {tr : List (Event (timed I))} {out : Option (Outcome E A)},
      deadline ≤ now + n * interval → n < rounds → Timely now tr →
      (pollUntil ask interval deadline rounds).Trace tr out →
      ∃ outcome, out = some outcome ∧ Closes ask interval deadline tr outcome ∧
        tr.countP slept ≤ n := by
  induction n with
  | zero =>
      intro rounds now tr out hdeadline hrounds htimely h
      obtain ⟨rounds, rfl⟩ := Nat.exists_eq_succ_of_ne_zero (Nat.ne_zero_of_lt hrounds)
      rcases pollUntil_cases h with ⟨outcome, rfl, hends, hcount⟩ |
        ⟨part, now', rest, -, hlt, rfl, -⟩
      · exact ⟨outcome, rfl, hends, hcount.le⟩
      · rw [List.append_assoc, timely_append_base] at htimely
        have hle : now ≤ now' := htimely.1
        omega
  | succ n ih =>
      intro rounds now tr out hdeadline hrounds htimely h
      obtain ⟨rounds, rfl⟩ := Nat.exists_eq_succ_of_ne_zero (Nat.ne_zero_of_lt hrounds)
      rcases pollUntil_cases h with ⟨outcome, rfl, hends, hcount⟩ |
        ⟨part, now', rest, hpart, hlt, rfl, hrest⟩
      · exact ⟨outcome, rfl, hends, hcount.le.trans (Nat.zero_le _)⟩
      · rw [List.append_assoc, timely_append_base] at htimely
        obtain ⟨hle, hrestTimely⟩ : now ≤ now' ∧ Timely (now' + interval) rest := htimely
        -- the sleep brings the deadline one interval nearer
        have hnearer : deadline ≤ now' + interval + n * interval := by
          rw [Nat.add_mul, Nat.one_mul] at hdeadline
          omega
        obtain ⟨outcome, hout, hends, hcount⟩ := ih hnearer (Nat.lt_of_succ_lt_succ hrounds)
          hrestTimely hrest
        refine ⟨outcome, hout, hends.round hpart hlt, ?_⟩
        have hone : List.countP slept
            ([⟨.instant, now'⟩, ⟨.sleep interval, ()⟩] : List (Event (timed I))) = 1 := rfl
        rw [List.countP_append, List.countP_append, countP_slept_base, hone]
        omega

/-- A timeout is covered by its length divided by the interval, rounded up. -/
theorem le_intervals {interval : Nat} (hinterval : 0 < interval) (timeout : Nat) :
    timeout ≤ (timeout + interval - 1) / interval * interval := by
  have hmod := Nat.div_add_mod (timeout + interval - 1) interval
  have hlt := Nat.mod_lt (timeout + interval - 1) hinterval
  rw [Nat.mul_comm] at hmod
  omega

/-- The whole loop. -/
theorem poll_spec {ask : Prog I (Except E (Option A))} {interval timeout rounds : Nat}
    (hinterval : 0 < interval) (hrounds : (timeout + interval - 1) / interval < rounds)
    {now : Nat} {tr : List (Event (timed I))} {out : Option (Outcome E A)} (htimely : Timely now tr)
    (h : (poll ask interval timeout rounds).Trace tr out) :
    ∃ outcome start rest, out = some outcome ∧ tr = ⟨.instant, start⟩ :: rest ∧
      Closes ask interval (start + timeout) rest outcome ∧
      rest.countP slept ≤ (timeout + interval - 1) / interval := by
  obtain ⟨start, rest, rfl, hrest⟩ := Prog.trace_call_iff.mp h
  obtain ⟨outcome, hout, hends, hcount⟩ := pollUntil_spec
    (Nat.add_le_add_left (le_intervals hinterval timeout) start) hrounds htimely.2 hrest
  exact ⟨outcome, start, rest, hout, rfl, hends, hcount⟩

end Kojin.Foundation
