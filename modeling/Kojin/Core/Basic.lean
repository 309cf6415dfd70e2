/-
  Core/Basic.lean --- identifiers, states, errors and backoff (`kojin-core`:
  `task_id.rs`, `state.rs`, `error.rs`, `backoff.rs`).

  A task identifier is a 128-bit UUID.  What the rest of the program uses of it
  is equality and its text, the 8-4-4-4-12 hexadecimal form.  `TaskId.toText`
  prints that form; it is injective and 36 characters long.

  Unsigned machine integers keep their width: `UInt32` for retry counts and
  `UInt64` for the seconds of a backoff.
-/
import Kojin.Foundation.Json
import Mathlib.Data.List.Basic
import Mathlib.Tactic.IntervalCases

set_option autoImplicit false

namespace Kojin.Core

/-! ## Task identifiers -/

/-- `TaskId(Uuid)`. -/
structure TaskId where
  uuid : BitVec 128
  deriving DecidableEq, Repr, Inhabited

namespace TaskId

/-- The `i`-th hexadecimal digit of the UUID, most significant first. -/
def nibble (id : TaskId) (i : Nat) : Nat := id.uuid.toNat / 16 ^ (31 - i) % 16

/-- `Display for TaskId`: 32 lower-case hexadecimal digits with hyphens after the
8th, 12th, 16th and 20th. -/
def chars (id : TaskId) : List Char :=
  (List.range 32).flatMap fun i =>
    if i = 8 ∨ i = 12 ∨ i = 16 ∨ i = 20 then ['-', Nat.digitChar (id.nibble i)]
    else [Nat.digitChar (id.nibble i)]

/-- `TaskId::to_string`. -/
def toText (id : TaskId) : String := String.ofList id.chars

@[simp] theorem toList_toText (id : TaskId) : id.toText.toList = id.chars :=
  String.toList_ofList

theorem length_chars (id : TaskId) : id.chars.length = 36 := by
  simp [chars, List.range_succ]

theorem nibble_lt (id : TaskId) (i : Nat) : id.nibble i < 16 :=
  Nat.mod_lt _ (by decide)

/-- Distinct digits below sixteen have distinct characters. -/
theorem digitChar_inj {a b : Nat} (ha : a < 16) (hb : b < 16)
    (h : Nat.digitChar a = Nat.digitChar b) : a = b := by
  have key : ∀ a b : Fin 16, Nat.digitChar a.val = Nat.digitChar b.val → a = b := by decide
  exact congrArg Fin.val (key ⟨a, ha⟩ ⟨b, hb⟩ h)

/-- Agreement on the lowest `k` hexadecimal digits is agreement modulo `16 ^ k`. -/
theorem mod_eq_of_digits {a b : Nat} :
    ∀ k : Nat, (∀ j, j < k → a / 16 ^ j % 16 = b / 16 ^ j % 16) → a % 16 ^ k = b % 16 ^ k := by
  intro k
  induction k with
  | zero => intro _; simp [Nat.mod_one]
  | succ k ih =>
      intro h
      have hlow : a % 16 ^ k = b % 16 ^ k := ih fun j hj => h j (by omega)
      have htop : a / 16 ^ k % 16 = b / 16 ^ k % 16 := h k (by omega)
      rw [Nat.pow_succ, Nat.mod_mul, Nat.mod_mul, hlow, htop]

/-- The text of an identifier determines it. -/
theorem chars_injective {a b : TaskId} (h : a.chars = b.chars) : a = b := by
  have hdigits : ∀ i, i < 32 → a.nibble i = b.nibble i := by
    intro i hi
    refine digitChar_inj (nibble_lt a i) (nibble_lt b i) ?_
    simp only [chars, List.range_succ, List.range_zero, List.nil_append, List.flatMap_cons,
      List.flatMap_nil, List.append_nil, Nat.reduceEqDiff, if_true, if_false, or_false, or_true,
      List.cons_append, List.cons.injEq, true_and, and_true] at h
    interval_cases i <;> simp only [h]
  have hmod : a.uuid.toNat % 16 ^ 32 = b.uuid.toNat % 16 ^ 32 := by
    refine mod_eq_of_digits 32 fun j hj => ?_
    have hj' := hdigits (31 - j) (by omega)
    have hsub : 31 - (31 - j) = j := by omega
    rw [nibble, nibble, hsub] at hj'
    exact hj'
  have ha : a.uuid.toNat < 16 ^ 32 := a.uuid.isLt
  have hb : b.uuid.toNat < 16 ^ 32 := b.uuid.isLt
  rw [Nat.mod_eq_of_lt ha, Nat.mod_eq_of_lt hb] at hmod
  rcases a with ⟨u⟩
  rcases b with ⟨v⟩
  exact congrArg TaskId.mk (BitVec.eq_of_toNat_eq hmod)

end TaskId

/-! ## Time -/

/-- `DateTime<Utc>`: nanoseconds since the Unix epoch. -/
structure DateTime where
  nanos : Int
  deriving DecidableEq, Repr, Inhabited

/-! ## Task states -/

/-- `TaskState`. -/
inductive TaskState where
  | pending
  | received
  | started
  | success
  | failure
  | retry
  | revoked
  | deadLettered
  deriving DecidableEq, Repr, Inhabited

/-- The serialized name of a state (`rename_all = "snake_case"`). -/
def TaskState.toText : TaskState → String
  | .pending => "pending"
  | .received => "received"
  | .started => "started"
  | .success => "success"
  | .failure => "failure"
  | .retry => "retry"
  | .revoked => "revoked"
  | .deadLettered => "dead_lettered"

/-! ## Errors -/

/-- `KojinError`.  A `serde_json::Error` is kept as its message, a `Duration` as
its seconds. -/
inductive KojinError where
  | serialization (message : String)
  | broker (message : String)
  | taskNotFound (name : String)
  | taskFailed (message : String)
  | timeout (secs : UInt64)
  | revoked (message : String)
  | resultBackend (message : String)
  | queueNotFound (queue : String)
  | codec (message : String)
  | shutdownInProgress
  | duplicate (key : String)
  | other (message : String)
  deriving DecidableEq, Repr

/-- `TaskResult<T>`. -/
abbrev TaskResult (α : Type) : Type := Except KojinError α

/-! ## Backoff -/

/-- `BackoffStrategy`. -/
inductive BackoffStrategy where
  | fixed (delaySecs : UInt64)
  | exponential (baseSecs maxSecs : UInt64)
  deriving DecidableEq, Repr

/-- `u64::MAX`. -/
def u64Max : UInt64 := 18446744073709551615

/-- `1u64.checked_shl(retry).unwrap_or(u64::MAX)`: shifting by the width or more
is refused. -/
def shlOrMax (retry : UInt32) : UInt64 :=
  if retry.toNat < 64 then UInt64.ofNat (2 ^ retry.toNat) else u64Max

/-- `u64::saturating_mul`. -/
def saturatingMul (a b : UInt64) : UInt64 :=
  if a.toNat * b.toNat < 2 ^ 64 then a * b else u64Max

/-- `BackoffStrategy::delay_for`, in seconds. -/
def BackoffStrategy.delayFor : BackoffStrategy → UInt32 → UInt64
  | .fixed delaySecs, _ => delaySecs
  | .exponential baseSecs maxSecs, retry =>
      min (saturatingMul baseSecs (shlOrMax retry)) maxSecs

/-- `BackoffStrategy::default()`. -/
def BackoffStrategy.default : BackoffStrategy := .exponential 1 300

end Kojin.Core
