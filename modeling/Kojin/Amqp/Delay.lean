/-
  Amqp/Delay.lean --- the delay of a scheduled message (`kojin-amqp`: `broker.rs`).

  `schedule` publishes to an exchange that holds a message back for as many milliseconds
  as its `x-delay` header says.  The milliseconds are counted in 64 bits and cast to the
  32 bits of the header:

      delay          header         delivered
      2 147 483 647   2 147 483 647   after 24.8 days
      2 147 483 648  -2 147 483 648   at once

  A millisecond is also the unit of the exchange: what is left of the delay below one is
  cut off.
-/
import Kojin.Amqp.Broker

set_option autoImplicit false

namespace Kojin.Amqp

open Kojin.Foundation Kojin.Core

namespace AmqpBroker

/-- `(eta - now).num_milliseconds()`: whole milliseconds, rounded towards zero. -/
def wholeMillis (eta now : DateTime) : Int := (eta.nanos - now.nanos).tdiv 1000000

/-- The header is the real delay: its whole milliseconds, never negative, and never
shorter than the delay. -/
structure RealDelay (eta now : DateTime) (header : Int32) : Prop where
  exact : header.toInt = max 0 (wholeMillis eta now)
  nonneg : 0 ≤ header.toInt
  enough : wholeMillis eta now ≤ header.toInt

/-- The exchange delivers a message `x-delay` milliseconds after it was published, and at
once if that is not positive. -/
def deliveredAt (now : DateTime) (header : Int32) : DateTime :=
  ⟨now.nanos + max 0 header.toInt * 1000000⟩

theorem delayMs_eq (eta now : DateTime) : delayMs eta now = max 0 (wholeMillis eta now) :=
  max_comm _ _

/-- The header of a delay that fits. -/
theorem toInt_header {n : Int} (hnonneg : 0 ≤ n) (hlt : n < 2 ^ 31) : (Int32.ofInt n).toInt = n := by
  have hsize : (Int32.size : Int) = 4294967296 := rfl
  rw [Int32.toInt_ofInt]
  exact Int.bmod_eq_of_le (by omega) (by omega)

/-- No header is longer than that. -/
theorem header_lt (header : Int32) : header.toInt < 2 ^ 31 := by
  have h := header.toInt_lt
  omega

/-- When the header is the real delay: when the delay is below `2 ^ 31`
milliseconds. -/
theorem realDelay_iff (eta now : DateTime) :
    RealDelay eta now (Int32.ofInt (delayMs eta now)) ↔ wholeMillis eta now < 2 ^ 31 := by
  constructor
  · intro h
    exact lt_of_le_of_lt h.enough (header_lt _)
  · intro hlt
    have hheader : (Int32.ofInt (delayMs eta now)).toInt = max 0 (wholeMillis eta now) := by
      rw [delayMs_eq]
      exact toInt_header (le_max_left 0 _) (max_lt (by decide) hlt)
    refine ⟨hheader, ?_, ?_⟩
    · rw [hheader]
      exact le_max_left 0 _
    · rw [hheader]
      exact le_max_right 0 _

/-- When a message is not delivered early: when it is due, or its delay is below
`2 ^ 31` milliseconds and nothing of it is cut off. -/
theorem notEarly_iff (eta now : DateTime) :
    eta.nanos ≤ (deliveredAt now (Int32.ofInt (delayMs eta now))).nanos ↔
      eta.nanos ≤ now.nanos ∨
        wholeMillis eta now < 2 ^ 31 ∧ (1000000 : Int) ∣ eta.nanos - now.nanos := by
  have hmillis : 0 ≤ eta.nanos - now.nanos →
      wholeMillis eta now = (eta.nanos - now.nanos) / 1000000 :=
    fun h => Int.tdiv_eq_ediv_of_nonneg h
  constructor
  · intro h
    rw [or_iff_not_imp_left]
    intro hfuture
    have hnonneg : 0 ≤ eta.nanos - now.nanos := by omega
    have hheader := header_lt (Int32.ofInt (delayMs eta now))
    simp only [deliveredAt] at h
    rw [hmillis hnonneg]
    have hlt : (eta.nanos - now.nanos) / 1000000 < 2 ^ 31 := by omega
    have heq : (Int32.ofInt (delayMs eta now)).toInt = (eta.nanos - now.nanos) / 1000000 := by
      rw [delayMs_eq, hmillis hnonneg, max_eq_right (by omega)]
      exact toInt_header (by omega) hlt
    exact ⟨hlt, by omega⟩
  · rintro (hdue | ⟨hlt, hwhole⟩)
    · simp only [deliveredAt]
      omega
    · rcases Int.le_total eta.nanos now.nanos with hdue | hfuture
      · simp only [deliveredAt]
        omega
      · have hnonneg : 0 ≤ eta.nanos - now.nanos := by omega
        rw [hmillis hnonneg] at hlt
        have heq : (Int32.ofInt (delayMs eta now)).toInt = (eta.nanos - now.nanos) / 1000000 := by
          rw [delayMs_eq, hmillis hnonneg, max_eq_right (by omega)]
          exact toInt_header (by omega) hlt
        simp only [deliveredAt]
        omega

/-! ## The published header -/

/-- What a call of `schedule` does: it reads the clock and publishes. -/
theorem schedule_trace {b : AmqpBroker} {codec : AmqpCodec} {m : TaskMessage} {eta : DateTime}
    {tr : List (Event requests)} {out : TaskResult Unit}
    (h : Prog.Trace (b.schedule codec m eta) tr out) :
    ∃ now request answer, tr = [⟨.utcNow, now⟩, ⟨.basicPublish request, answer⟩] ∧
      request.delay = some (Int32.ofInt (delayMs eta now)) := by
  obtain ⟨now, rest, rfl, hrest⟩ := Prog.trace_call_iff.mp h
  obtain ⟨answer, rest', rfl, hreturn⟩ := Prog.trace_call_iff.mp hrest
  obtain ⟨rfl, -⟩ := Prog.trace_ret_iff.mp hreturn
  exact ⟨now, _, answer, rfl, rfl⟩

/-- The header of a scheduled message.  Every call of `schedule` publishes a message
with an `x-delay` header.  It is the real delay exactly if the delay is below `2 ^ 31`
milliseconds; and the message is not delivered before its eta exactly if it is due, or the
delay is below that and a whole number of milliseconds. -/
theorem x_delay_iff {b : AmqpBroker} {codec : AmqpCodec} {m : TaskMessage} {eta : DateTime}
    {tr : List (Event requests)} {out : TaskResult Unit}
    (h : Prog.Trace (b.schedule codec m eta) tr out) :
    ∃ now request answer header, tr = [⟨.utcNow, now⟩, ⟨.basicPublish request, answer⟩] ∧
      request.delay = some header ∧
      (RealDelay eta now header ↔ wholeMillis eta now < 2 ^ 31) ∧
      (eta.nanos ≤ (deliveredAt now header).nanos ↔ eta.nanos ≤ now.nanos ∨
        wholeMillis eta now < 2 ^ 31 ∧ (1000000 : Int) ∣ eta.nanos - now.nanos) := by
  obtain ⟨now, request, answer, htr, hdelay⟩ := schedule_trace h
  exact ⟨now, request, answer, _, htr, hdelay, realDelay_iff eta now, notEarly_iff eta now⟩

/-! ## A minute, and twenty-five days -/

/-- A call of `schedule` at time 0, answered by the server. -/
def scheduledAt (eta : DateTime) : List (Event requests) :=
  [⟨.utcNow, ⟨0⟩⟩,
    ⟨.basicPublish ⟨"kojin.delayed", "q", (plainMessage ⟨1⟩).encode fun _ => "", none,
      some (Int32.ofInt (delayMs eta ⟨0⟩))⟩, .ok ()⟩]

theorem scheduledAt_trace (eta : DateTime) :
    Prog.Trace (AmqpBroker.schedule ⟨"kojin.direct", "kojin.delayed", ["q"]⟩
      ⟨fun _ => "", fun _ => .error "no messages"⟩ (plainMessage ⟨1⟩) eta)
      (scheduledAt eta) (.ok ()) :=
  .call (.call (.ret _))

/-- A minute ahead. -/
theorem x_delay_iff_minute :
    ∃ now request answer header, scheduledAt ⟨60000000000⟩ =
        [⟨.utcNow, now⟩, ⟨.basicPublish request, answer⟩] ∧
      request.delay = some header ∧ RealDelay ⟨60000000000⟩ now header ∧
      (60000000000 : Int) ≤ (deliveredAt now header).nanos := by
  obtain ⟨now, request, answer, header, htr, hdelay, hreal, hearly⟩ :=
    x_delay_iff (scheduledAt_trace ⟨60000000000⟩)
  obtain rfl : (⟨0⟩ : DateTime) = now := by
    have hfirst := (List.cons.inj htr).1
    cases hfirst
    rfl
  exact ⟨_, request, answer, header, htr, hdelay, hreal.mpr (by decide),
    hearly.mpr (.inr ⟨by decide, by decide⟩)⟩

/-- Twenty-five days ahead is at once: the header of a delay of `2 ^ 31` milliseconds
is negative, and the message is delivered when it is published. -/
theorem long_delay_wraps :
    Prog.Trace (AmqpBroker.schedule ⟨"kojin.direct", "kojin.delayed", ["q"]⟩
        ⟨fun _ => "", fun _ => .error "no messages"⟩ (plainMessage ⟨1⟩) ⟨2147483648000000⟩)
        (scheduledAt ⟨2147483648000000⟩) (.ok ()) ∧
      Int32.ofInt (delayMs ⟨2147483648000000⟩ ⟨0⟩) = -2147483648 ∧
      ¬ RealDelay ⟨2147483648000000⟩ ⟨0⟩ (Int32.ofInt (delayMs ⟨2147483648000000⟩ ⟨0⟩)) ∧
      deliveredAt ⟨0⟩ (Int32.ofInt (delayMs ⟨2147483648000000⟩ ⟨0⟩)) = ⟨0⟩ := by
  refine ⟨scheduledAt_trace _, by decide, ?_, by decide⟩
  intro hreal
  exact absurd hreal.nonneg (by decide)

end AmqpBroker

end Kojin.Amqp
