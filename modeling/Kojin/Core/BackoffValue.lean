/-
  Core/BackoffValue.lean --- the value of an exponential backoff (`kojin-core`:
  `backoff.rs`, and `handle_failure` of `worker.rs`).

  `delay_for` computes `base * 2 ^ retry`, capped at `max`, in 64 bits:

      2 ^ retry      a checked shift, `u64::MAX` when it is refused
      base * _       a saturating product
      min _ max      the cap

  Wherever one of them gives up, the value it puts in place is at least `max`, unless the
  product is 0.  So the result is the mathematical one.
-/
import Kojin.Core.Backoff

set_option autoImplicit false

namespace Kojin.Core

open Kojin.Foundation

/-! ## One delay -/

theorem toNat_u64Max : u64Max.toNat = 2 ^ 64 - 1 := rfl

theorem toNat_min (a b : UInt64) : (min a b).toNat = min a.toNat b.toNat := by
  show (if a ≤ b then a else b).toNat = _
  split
  · exact (min_eq_left (UInt64.le_iff_toNat_le.mp ‹_›)).symm
  · rename_i hlt
    refine (min_eq_right ?_).symm
    exact Nat.le_of_not_le fun hle => hlt (UInt64.le_iff_toNat_le.mpr hle)

/-- A product that does not fit is replaced by the largest number. -/
theorem toNat_saturatingMul (a b : UInt64) :
    (saturatingMul a b).toNat = min (a.toNat * b.toNat) (2 ^ 64 - 1) := by
  unfold saturatingMul
  split
  · rw [UInt64.toNat_mul, Nat.mod_eq_of_lt ‹_›, min_eq_left (by omega)]
  · rw [toNat_u64Max, min_eq_right (by omega)]

theorem toNat_shlOrMax (retry : UInt32) :
    (shlOrMax retry).toNat = if retry.toNat < 64 then 2 ^ retry.toNat else 2 ^ 64 - 1 := by
  unfold shlOrMax
  split
  · rw [UInt64.toNat_ofNat', Nat.mod_eq_of_lt]
    exact Nat.pow_lt_pow_right (by decide) ‹_›
  · exact toNat_u64Max

/-- The delay is the mathematical value. -/
theorem toNat_delayFor (base max : UInt64) (retry : UInt32) :
    ((BackoffStrategy.exponential base max).delayFor retry).toNat =
      min (base.toNat * 2 ^ retry.toNat) max.toNat := by
  have hmax := max.toNat_lt
  have hcap : ∀ n, min (min n (2 ^ 64 - 1)) max.toNat = min n max.toNat := by
    intro n
    rw [min_assoc, min_eq_right (by omega : max.toNat ≤ 2 ^ 64 - 1)]
  rw [BackoffStrategy.delayFor, toNat_min, toNat_saturatingMul, hcap, toNat_shlOrMax]
  split
  · rfl
  · -- the shift is refused: both values are 0, or both are beyond the cap
    rename_i hlarge
    have hpow : 2 ^ 64 ≤ 2 ^ retry.toNat := Nat.pow_le_pow_right (by decide) (by omega)
    rcases Nat.eq_zero_or_pos base.toNat with hzero | hpos
    · rw [hzero, Nat.zero_mul, Nat.zero_mul]
    · have hleft : max.toNat ≤ base.toNat * (2 ^ 64 - 1) :=
        le_trans (by omega) (Nat.le_mul_of_pos_left (2 ^ 64 - 1) hpos)
      have hright : max.toNat ≤ base.toNat * 2 ^ retry.toNat :=
        le_trans (by omega) (Nat.le_mul_of_pos_left (2 ^ retry.toNat) hpos)
      rw [min_eq_right hleft, min_eq_right hright]

/-- A later retry does not wait less. -/
theorem delayFor_mono (base max : UInt64) {retry retry' : UInt32} (h : retry ≤ retry') :
    (BackoffStrategy.exponential base max).delayFor retry ≤
      (BackoffStrategy.exponential base max).delayFor retry' := by
  rw [UInt64.le_iff_toNat_le, toNat_delayFor, toNat_delayFor]
  have hpow : 2 ^ retry.toNat ≤ 2 ^ retry'.toNat :=
    Nat.pow_le_pow_right (by decide) (UInt32.le_iff_toNat_le.mp h)
  exact min_le_min_right _ (Nat.mul_le_mul_left base.toNat hpow)

/-! ## The delays of a message -/

/-- The message `m` after some retries, and the waits before them, whatever workers
execute it.  The broker hands the copy that it was given by `nack` to the next of them. -/
inductive Waited (m : TaskMessage) : List UInt64 → TaskMessage → Prop where
  | fresh : Waited m [] m
  | again {delays : List UInt64} {m' m'' : TaskMessage} {w : Worker} {codec : Codec}
      {tr : List (Event traits)} {r : TaskResult Unit} :
      Waited m delays m' → (executeTask w codec m').Trace tr () →
      ⟨.broker (.nack m''), r⟩ ∈ tr → Waited m (delays ++ waits tr) m''

/-- A message that is sent back had a retry left, so the number of its retries does not
wrap. -/
theorem retries_of_nack {w : Worker} {codec : Codec} {m m' : TaskMessage}
    {tr : List (Event traits)} {r : TaskResult Unit} (h : (executeTask w codec m).Trace tr ())
    (hm : (⟨.broker (.nack m'), r⟩ : Event traits) ∈ tr) :
    m'.retries.toNat = m.retries.toNat + 1 := by
  obtain ⟨-, hretries⟩ := waits_of_nack h hm
  have hmem : .inr m' ∈ retriesOf tr := List.mem_filterMap.mpr ⟨_, hm, rfl⟩
  rcases retriesOf_executeTask h with hnone | ⟨hlt, -⟩
  · rw [hnone] at hmem
    cases hmem
  · have hmax := m.maxRetries.toNat_lt
    have hlt' := UInt32.lt_iff_toNat_lt.mp hlt
    rw [hretries, UInt32.toNat_add, UInt32.toNat_one, Nat.mod_eq_of_lt (by omega)]

/-- The number of retries is the number of waits, and each wait is that of its retry. -/
theorem waits_of_fresh {m m' : TaskMessage} {delays : List UInt64} (hfresh : m.retries = 0)
    (h : Waited m delays m') :
    m'.retries.toNat = delays.length ∧
      delays.map UInt64.toNat = (List.range delays.length).map fun k => min (2 ^ k) 300 := by
  induction h with
  | fresh => exact ⟨by rw [hfresh]; rfl, rfl⟩
  | @again delays m' m'' w codec tr r _ htr hnack ih =>
      obtain ⟨hretries, hdelays⟩ := ih
      obtain ⟨hwaits, -⟩ := waits_of_nack htr hnack
      have hdelay : (BackoffStrategy.default.delayFor m'.retries).toNat =
          min (2 ^ m'.retries.toNat) 300 := by
        rw [BackoffStrategy.default, toNat_delayFor, UInt64.toNat_one, Nat.one_mul]
        rfl
      rw [hwaits, List.length_append, List.length_singleton, List.map_append, List.map_singleton,
        hdelay, hdelays, retries_of_nack htr hnack, hretries, List.range_succ, List.map_append]
      exact ⟨rfl, rfl⟩

/-- The backoff is exact.  The exponential strategy waits
`min (base * 2 ^ retry) max` seconds, computed without bounds, and no less at a later
retry; and the `k`-th retry of a message, `k = 1, 2, ...`, comes after
`min (2 ^ (k - 1)) 300` seconds. -/
theorem backoff_exact :
    (∀ (base max : UInt64) (retry : UInt32),
      ((BackoffStrategy.exponential base max).delayFor retry).toNat =
        min (base.toNat * 2 ^ retry.toNat) max.toNat) ∧
    (∀ (base max : UInt64) (retry retry' : UInt32), retry ≤ retry' →
      (BackoffStrategy.exponential base max).delayFor retry ≤
        (BackoffStrategy.exponential base max).delayFor retry') ∧
    ∀ (m m' : TaskMessage) (delays : List UInt64), m.retries = 0 → Waited m delays m' →
      m'.retries.toNat = delays.length ∧
        ∀ k < delays.length, (delays[k]?).map UInt64.toNat = some (min (2 ^ k) 300) := by
  refine ⟨toNat_delayFor, fun base max retry retry' h => delayFor_mono base max h, ?_⟩
  intro m m' delays hfresh h
  obtain ⟨hretries, hdelays⟩ := waits_of_fresh hfresh h
  refine ⟨hretries, fun k hk => ?_⟩
  have hget := congrArg (·[k]?) hdelays
  simpa [hk] using hget

/-- The message `ownMessage` after so many retries. -/
def ownRetried : Nat → TaskMessage
  | 0 => ownMessage
  | n + 1 => (ownRetried n).start.retryCopy ⟨0⟩

/-- The strategy of two seconds at the fortieth retry, and two retries of a message. -/
theorem backoff_exact_twice :
    ((BackoffStrategy.exponential 2 120).delayFor 40).toNat = 120 ∧
      (BackoffStrategy.exponential 2 120).delayFor 3 ≤
        (BackoffStrategy.exponential 2 120).delayFor 40 ∧
      ∃ delays, Waited ownMessage delays (ownRetried 2) ∧ delays.length = 2 ∧
        ∀ k < 2, (delays[k]?).map UInt64.toNat = some (min (2 ^ k) 300) := by
  obtain ⟨hexact, hmono, hretries⟩ := backoff_exact
  have htr : ∀ n, (executeTask ownWorker blankCodec (ownRetried n)).Trace
      (execution ownWorker (ownRetried n) failingRuntime) () := fun n => Prog.trace_answered _ _
  have hfirst : (⟨.broker (.nack (ownRetried 1)), .ok ()⟩ : Event traits) ∈
      execution ownWorker (ownRetried 0) failingRuntime :=
    List.mem_iff_get.mpr ⟨⟨6, by decide⟩, rfl⟩
  have hsecond : (⟨.broker (.nack (ownRetried 2)), .ok ()⟩ : Event traits) ∈
      execution ownWorker (ownRetried 1) failingRuntime :=
    List.mem_iff_get.mpr ⟨⟨6, by decide⟩, rfl⟩
  have hwaited : Waited ownMessage [1, 2] (ownRetried 2) :=
    .again (.again .fresh (htr 0) hfirst) (htr 1) hsecond
  exact ⟨(hexact 2 120 40).trans (by decide), hmono 2 120 3 40 (by decide),
    [1, 2], hwaited, rfl, (hretries _ _ _ rfl hwaited).2⟩

end Kojin.Core
