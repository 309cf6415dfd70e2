/-
  Core/Middleware.lean --- middlewares that keep a state (`kojin-core`:
  `middleware/mod.rs`, `middleware/metrics.rs`, `middleware/dedup.rs`,
  `middleware/otel.rs`).

  To an execution a middleware is a number whose hooks may answer anything.
  `Middleware.mount` gives one number an implementation: a state shared by all
  executions, and hooks that are computed from it.  The other numbers stay open.
-/
import Kojin.Core.Pipeline

set_option autoImplicit false

namespace Kojin.Core

open Kojin.Foundation

/-- An implementation of `trait Middleware`.  Besides its hooks, what goes on around it
may change its state, such as the passing of time. -/
structure Middleware where
  State : Type
  Tick : Type
  tick : Tick → State → State
  before : TaskMessage → State → TaskResult Unit × State
  after : TaskMessage → Json → State → TaskResult Unit × State
  onError : TaskMessage → KojinError → State → TaskResult Unit × State

namespace Middleware

variable {B R : Interface} (mw : Middleware) (k : Nat)

/-- The hooks of the middleware with the number `k`. -/
def answer : (op : (system B R).Op) → mw.State → Option ((system B R).Res op × mw.State)
  | .runtime (.before i m), q => if i = k then some (mw.before m q) else none
  | .runtime (.after i m result), q => if i = k then some (mw.after m result q) else none
  | .runtime (.onError i m error), q => if i = k then some (mw.onError m error q) else none
  | _, _ => none

/-- A service whose `k`-th middleware is `mw`. -/
def mount (service : Service (system B R)) : Service (system B R) where
  State := service.State × mw.State
  Oracle := service.Oracle
  respond o s op :=
    match mw.answer k op s.2 with
    | some p => some (p.1, (s.1, p.2))
    | none => (service.respond o s.1 op).map fun p => (p.1, (p.2, s.2))

variable {mw k}

/-- A call is a hook of the middleware, or is left to the service. -/
theorem mount_cases {service : Service (system B R)} {o : service.Oracle}
    {s s' : (mw.mount k service).State} {op : (system B R).Op} {r : (system B R).Res op}
    (h : (mw.mount k service).respond o s op = some (r, s')) :
    mw.answer k op s.2 = some (r, s'.2) ∧ s'.1 = s.1 ∨
      mw.answer k op s.2 = none ∧ service.respond o s.1 op = some (r, s'.1) ∧ s'.2 = s.2 := by
  simp only [mount] at h
  split at h
  · rename_i p hp
    cases h
    exact .inl ⟨hp, rfl⟩
  · rename_i hnone
    obtain ⟨p, hp, heq⟩ := Option.map_eq_some_iff.mp h
    cases heq
    exact .inr ⟨hnone, hp, rfl⟩

section Answer

variable {op : (system B R).Op} {r : (system B R).Res op} {q q' : mw.State}

/-- What a hook of the middleware answers, and the state it leaves. -/
theorem answered {p : (system B R).Res op × mw.State}
    (hq : mw.answer k op q = some (r, q') ∨ mw.answer k op q = none ∧ q' = q)
    (h : mw.answer k op q = some p) : p = (r, q') := by
  rw [h] at hq
  rcases hq with hsome | ⟨hnone, -⟩
  · exact Option.some.inj hsome
  · cases hnone

/-- A call that is no hook of it leaves its state alone. -/
theorem unanswered (hq : mw.answer k op q = some (r, q') ∨ mw.answer k op q = none ∧ q' = q)
    (h : mw.answer k op q = none) : q' = q := by
  rw [h] at hq
  rcases hq with hsome | ⟨-, hsame⟩
  · cases hsome
  · exact hsame

end Answer

/-- No call after the acknowledgement is a hook. -/
theorem answer_followsUp {op : traits.Op} (h : FollowsUp op) (mw : Middleware) (k : Nat)
    (q : mw.State) : mw.answer k op q = none := by
  rcases op with op | op | op
  · cases op <;> first | rfl | exact h.elim
  · rfl
  · rfl

end Middleware

/-! ## Counting executions -/

/-- `MetricsInner`: three atomic counters. -/
structure MetricsInner where
  tasksStarted : UInt64
  tasksSucceeded : UInt64
  tasksFailed : UInt64
  deriving DecidableEq

namespace MetricsInner

/-- `MetricsMiddleware::new`. -/
def new : MetricsInner := ⟨0, 0, 0⟩

/-- `before`: one more task started. -/
def before (q : MetricsInner) : MetricsInner := { q with tasksStarted := q.tasksStarted + 1 }

/-- `after`: one more task succeeded. -/
def after (q : MetricsInner) : MetricsInner := { q with tasksSucceeded := q.tasksSucceeded + 1 }

/-- `on_error`: one more task failed. -/
def onError (q : MetricsInner) : MetricsInner := { q with tasksFailed := q.tasksFailed + 1 }

end MetricsInner

/-- `MetricsMiddleware`: its hooks never fail. -/
def metricsMiddleware : Middleware where
  State := MetricsInner
  Tick := Empty
  tick := nofun
  before _ q := (.ok (), q.before)
  after _ _ q := (.ok (), q.after)
  onError _ _ q := (.ok (), q.onError)

/-! ## Dropping duplicates -/

/-- `DeduplicationMiddleware`: when each key was last let through, and for how long
a key stays known.  Instants and durations are counted in nanoseconds. -/
structure DeduplicationMiddleware where
  seen : Table String Nat
  ttl : Nat

namespace DeduplicationMiddleware

/-- `DeduplicationMiddleware::new`. -/
def new (ttl : Nat) : DeduplicationMiddleware := ⟨∅, ttl⟩

/-- The key was let through less than a TTL before `now`.  `duration_since` is zero
for an instant that lies ahead. -/
def recent (q : DeduplicationMiddleware) (now : Nat) (key : String) : Bool :=
  match q.seen.lookup key with
  | some last => now - last < q.ttl
  | none => false

/-- `before`, at the instant it reads. -/
def before (now : Nat) (m : TaskMessage) (q : DeduplicationMiddleware) :
    TaskResult Unit × DeduplicationMiddleware :=
  match m.dedupKey with
  | none => (.ok (), q)
  | some key =>
      if q.recent now key then (.error (.duplicate key), q)
      else (.ok (), { q with seen := q.seen.insert key now })

end DeduplicationMiddleware

/-- A deduplication and the monotonic clock its hook reads. -/
structure TimedDeduplication where
  filter : DeduplicationMiddleware
  clock : Nat

/-- `DeduplicationMiddleware` as a middleware: `after` and `on_error` are the
trait's own. -/
def deduplicationMiddleware : Middleware where
  State := TimedDeduplication
  Tick := Nat
  tick n q := { q with clock := q.clock + n }
  before m q := ((q.filter.before q.clock m).1, { q with filter := (q.filter.before q.clock m).2 })
  after _ _ q := (.ok (), q)
  onError _ _ q := (.ok (), q)

/-! ## Measuring executions -/

/-- The attributes of a measurement: `task.name` and `task.queue`. -/
structure TaskAttributes where
  name : String
  queue : String
  deriving DecidableEq

/-- `OtelMiddleware`.  Of an instrument the model keeps what it has been given: a
counter the attributes of each `add(1)`, the histogram each duration with its
attributes.  Instants and durations are counted in nanoseconds. -/
structure OtelMiddleware where
  started : List TaskAttributes
  succeeded : List TaskAttributes
  failed : List TaskAttributes
  duration : List (Nat × TaskAttributes)
  timings : Table TaskId Nat

namespace OtelMiddleware

/-- `OtelMiddleware::new`. -/
def new : OtelMiddleware := ⟨[], [], [], [], ∅⟩

/-- `attrs`. -/
def attrs (m : TaskMessage) : TaskAttributes := ⟨m.taskName, m.queue⟩

/-- `record_duration`, at the instant it reads. -/
def recordDuration (now : Nat) (m : TaskMessage) (q : OtelMiddleware) : OtelMiddleware :=
  match q.timings.lookup m.id with
  | some start =>
      { q with
        timings := q.timings.erase m.id
        duration := q.duration ++ [(now - start, attrs m)] }
  | none => q

/-- `before`, at the instant it reads. -/
def before (now : Nat) (m : TaskMessage) (q : OtelMiddleware) : OtelMiddleware :=
  { q with
    timings := q.timings.insert m.id now
    started := q.started ++ [attrs m] }

/-- `after`. -/
def after (now : Nat) (m : TaskMessage) (q : OtelMiddleware) : OtelMiddleware :=
  let q := q.recordDuration now m
  { q with succeeded := q.succeeded ++ [attrs m] }

/-- `on_error`. -/
def onError (now : Nat) (m : TaskMessage) (q : OtelMiddleware) : OtelMiddleware :=
  let q := q.recordDuration now m
  { q with failed := q.failed ++ [attrs m] }

end OtelMiddleware

/-- A measuring middleware and the monotonic clock its hooks read. -/
structure TimedOtel where
  otel : OtelMiddleware
  clock : Nat

/-- `OtelMiddleware` as a middleware: its hooks never fail. -/
def otelMiddleware : Middleware where
  State := TimedOtel
  Tick := Nat
  tick n q := { q with clock := q.clock + n }
  before m q := (.ok (), { q with otel := q.otel.before q.clock m })
  after m _ q := (.ok (), { q with otel := q.otel.after q.clock m })
  onError m _ q := (.ok (), { q with otel := q.otel.onError q.clock m })

end Kojin.Core
