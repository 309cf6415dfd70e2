/-
  Redis/Broker.lean --- queues in Redis (`kojin-redis`: `broker.rs`).

  Every method takes a connection and sends its commands one by one; other
  clients run in between.  An entry of a list is the text of a message.

      enqueue       claim the dedup key, if there is one, then LPUSH
      dequeue       BLMOVE from the first queue that has an entry, then decode
      ack           LRANGE the processing list, LREM the first entry that
                    contains the identifier
      nack          ack, then enqueue
      dead_letter   ack, then LPUSH to the dead-letter list
      schedule      ZADD

  A dedup key that is already claimed ends `enqueue` with success and without a
  push; so does a claim that fails.
-/
import Kojin.Core.Worker
import Kojin.Redis.Commands
import Kojin.Redis.Keys
import Mathlib.Data.List.Infix

set_option autoImplicit false

namespace Kojin.Redis

open Kojin.Foundation Kojin.Core

/-- `RedisBroker`: its keys, the worker it belongs to, and the lifetime of dedup
keys in seconds. -/
structure RedisBroker where
  keys : KeyBuilder
  workerId : String
  dedupTtl : Nat

/-- What the broker uses of other libraries: how messages are printed and read,
and how a timestamp in seconds becomes a score. -/
structure RedisCodec (σ : Type) where
  rfc3339 : DateTime → String
  decodeMessage : String → Except String TaskMessage
  score : Int → σ

namespace RedisBroker

variable {σ : Type} [LinearOrder σ]

/-- `broker_err`. -/
def brokerErr (e : CommandError) : KojinError := .broker e

/-- The dedup check of `enqueue`: whether the message is to be pushed.  A claim
that fails counts as a duplicate (`unwrap_or(false)`). -/
def claim (b : RedisBroker) : Option String → Attempt σ Bool
  | none => pure true
  | some key => ExceptT.mk do
      let answer ← Prog.perform (I := commands σ) (.setNxEx (b.keys.dedup key) (.int 1) b.dedupTtl)
      match answer with
      | .ok set => pure (.ok set)
      | .error _ => pure (.ok false)

/-- `RedisBroker::enqueue`. -/
def enqueue (b : RedisBroker) (codec : RedisCodec σ) (m : TaskMessage) : Attempt σ Unit := do
  command brokerErr .conn
  let fresh ← b.claim m.dedupKey
  if fresh then command brokerErr (.lpush (b.keys.queue m.queue) (m.encode codec.rfc3339))
  else pure ()

/-- The loop of `dequeue` over the queue names.  Every queue gets the whole timeout. -/
def dequeueFrom (b : RedisBroker) (codec : RedisCodec σ) (timeout : Nat) :
    List String → Attempt σ (Option TaskMessage)
  | [] => pure none
  | name :: names => do
      let entry ← command brokerErr
        (.blmove (b.keys.queue name) (b.keys.processing b.workerId) timeout)
      match entry with
      | some data => do
          let m ← decoded ((codec.decodeMessage data).mapError .serialization)
          pure (some m)
      | none => b.dequeueFrom codec timeout names

/-- `RedisBroker::dequeue`. -/
def dequeue (b : RedisBroker) (codec : RedisCodec σ) (queues : List String) (timeout : Nat) :
    Attempt σ (Option TaskMessage) := do
  command brokerErr .conn
  b.dequeueFrom codec timeout queues

/-- `item.contains(&id_str)`. -/
def mentions (id : TaskId) (item : String) : Bool := decide (id.chars <:+: item.toList)

/-- `RedisBroker::ack`. -/
def ack (b : RedisBroker) (id : TaskId) : Attempt σ Unit := do
  command brokerErr .conn
  let items ← command brokerErr (.lrange (b.keys.processing b.workerId) 0 (-1))
  match items.find? (mentions id) with
  | some item => command brokerErr (.lrem (b.keys.processing b.workerId) item)
  | none => pure ()

/-- `RedisBroker::nack`. -/
def nack (b : RedisBroker) (codec : RedisCodec σ) (m : TaskMessage) : Attempt σ Unit := do
  b.ack m.id
  b.enqueue codec m

/-- `RedisBroker::dead_letter`. -/
def deadLetter (b : RedisBroker) (codec : RedisCodec σ) (m : TaskMessage) : Attempt σ Unit := do
  command brokerErr .conn
  b.ack m.id
  command brokerErr (.lpush (b.keys.dlq m.queue) (m.encode codec.rfc3339))

/-- `eta.timestamp()`: whole seconds, rounded down. -/
def timestamp (eta : DateTime) : Int := eta.nanos / 1000000000

/-- `RedisBroker::schedule`. -/
def schedule (b : RedisBroker) (codec : RedisCodec σ) (m : TaskMessage) (eta : DateTime) :
    Attempt σ Unit := do
  command brokerErr .conn
  command brokerErr (.zadd b.keys.scheduled (codec.score (timestamp eta)) (m.encode codec.rfc3339))

/-- `RedisBroker::queue_len`. -/
def queueLen (b : RedisBroker) (queue : String) : Attempt σ Nat := do
  command brokerErr .conn
  command brokerErr (.llen (b.keys.queue queue))

/-- `RedisBroker::dlq_len`. -/
def dlqLen (b : RedisBroker) (queue : String) : Attempt σ Nat := do
  command brokerErr .conn
  command brokerErr (.llen (b.keys.dlq queue))

/-- `impl Broker for RedisBroker`. -/
def driver (b : RedisBroker) (codec : RedisCodec σ) : BrokerDriver (commands σ)
  | .enqueue m => (b.enqueue codec m).run
  | .ack id => (b.ack id).run
  | .nack m => (b.nack codec m).run
  | .deadLetter m => (b.deadLetter codec m).run
  | .schedule m eta => (b.schedule codec m eta).run

/-- `RedisBroker::poll_scheduled` at the given time, in seconds. -/
def pollScheduled (b : RedisBroker) (codec : RedisCodec σ) (now : Int) : Attempt σ Nat := do
  command brokerErr .conn
  command brokerErr
    (.pollScheduled b.keys.scheduled (codec.score now) (b.keys.scheduled.replace ":scheduled" ""))

end RedisBroker

end Kojin.Redis
