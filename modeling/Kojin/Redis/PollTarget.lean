/-
  Redis/PollTarget.lean --- where scheduled messages are moved to (`kojin-redis`:
  `poll_scheduled` of `broker.rs`, `POLL_SCHEDULED_SCRIPT`).

  `enqueue` pushes to the key that `KeyBuilder::queue` formats.  The script builds the key
  itself, from a prefix that `poll_scheduled` takes out of the key of the scheduled set by
  deleting `":scheduled"`:

      prefix       scheduled key          what is left    pushed to
      kojin        kojin:scheduled        kojin           kojin:queue:q
      a:scheduled  a:scheduled:scheduled  a               a:queue:q

  Every occurrence is deleted, those of the configured prefix, too.
-/
import Kojin.Foundation.Replace
import Kojin.Redis.Poll
import Kojin.Redis.Calls

set_option autoImplicit false

namespace Kojin.Redis

open Kojin.Foundation Kojin.Core

variable {σ : Type} [LinearOrder σ]

/-! ## The prefix -/

/-- The prefix that `poll_scheduled` computes. -/
theorem toList_pollPrefix (kb : KeyBuilder) :
    (kb.scheduled.replace ":scheduled" "").toList =
      erase ":scheduled".toList kb.keyPrefix.toList := by
  have htext : ":scheduled".toList = ':' :: "scheduled".toList := by decide
  rw [toList_replace_empty (by decide), KeyBuilder.scheduled, String.toList_append, htext]
  exact erase_append_self (by decide) _

/-- The prefix that `poll_scheduled` computes is the configured one exactly if `":scheduled"` does
not occur in that. -/
theorem pollPrefix_eq_iff (kb : KeyBuilder) :
    kb.scheduled.replace ":scheduled" "" = kb.keyPrefix ↔
      ¬ ":scheduled".toList <:+: kb.keyPrefix.toList := by
  rw [← String.toList_inj, toList_pollPrefix]
  exact erase_eq_self_iff (by decide)

/-- The two keys of a queue differ as the prefixes do. -/
theorem queueKey_eq_queue_iff (kb : KeyBuilder) (keyPrefix queue : String) :
    queueKey keyPrefix queue = kb.queue queue ↔ keyPrefix = kb.keyPrefix := by
  rw [queueKey, KeyBuilder.queue, String.append_left_inj, String.append_left_inj]

/-! ## The push -/

/-- The script pushes an item as `LPUSH` to its key does. -/
theorem pushDue_single {queueOf : String → Except CommandError String} {keyPrefix item queue : String}
    (hqueue : queueOf item = .ok queue) (r : Keyspace σ) :
    pushDue queueOf keyPrefix [item] r = perform queueOf r (.lpush (queueKey keyPrefix queue) item) := by
  rw [pushDue, hqueue]
  show _ = commit r ((r.lpush (queueKey keyPrefix queue) item).map ((), ·))
  dsimp only
  rw [← queueKey]
  cases r.lpush (queueKey keyPrefix queue) item <;> rfl

/-- The script is called with that prefix. -/
theorem prefix_of_pollScheduled {b : RedisBroker} {codec : RedisCodec σ} {now : Int}
    {tr : List (Event (commands σ))} {out : TaskResult Nat}
    (h : Prog.Trace (b.pollScheduled codec now).run tr out) {key keyPrefix : String} {score : σ}
    {answer : Except CommandError Nat}
    (hpoll : (⟨.pollScheduled key score keyPrefix, answer⟩ : Event (commands σ)) ∈ tr) :
    keyPrefix = b.keys.scheduled.replace ":scheduled" "" := by
  rcases trace_command h with ⟨a, tail, rfl, hlast⟩ | ⟨e, rfl, -⟩
  · obtain ⟨answer', rfl, -⟩ := trace_last hlast
    rcases List.mem_cons.mp hpoll with heq | hmem
    · cases heq
    · cases List.mem_singleton.mp hmem
      rfl
  · cases List.mem_singleton.mp hpoll

/-- Where scheduled messages go.  Whenever `poll_scheduled` calls the script, the
script pushes a message of any queue to the key built from the prefix it is given; and
that is the key `enqueue` pushes to and `dequeue` reads exactly if `":scheduled"` does not
occur in the configured prefix. -/
theorem poll_target_iff {b : RedisBroker} {codec : RedisCodec σ} {now : Int}
    {tr : List (Event (commands σ))} {out : TaskResult Nat}
    (h : Prog.Trace (b.pollScheduled codec now).run tr out) {key keyPrefix : String} {score : σ}
    {answer : Except CommandError Nat}
    (hpoll : (⟨.pollScheduled key score keyPrefix, answer⟩ : Event (commands σ)) ∈ tr)
    (queue : String) :
    (∀ (queueOf : String → Except CommandError String) (item : String) (r : Keyspace σ),
      queueOf item = .ok queue → pushDue queueOf keyPrefix [item] r =
        perform queueOf r (.lpush (queueKey keyPrefix queue) item)) ∧
    (queueKey keyPrefix queue = b.keys.queue queue ↔
      ¬ ":scheduled".toList <:+: b.keys.keyPrefix.toList) := by
  refine ⟨fun queueOf item r hqueue => pushDue_single hqueue r, ?_⟩
  rw [prefix_of_pollScheduled h hpoll, queueKey_eq_queue_iff]
  exact pollPrefix_eq_iff b.keys

/-! ## Two prefixes -/

/-- A broker with the given prefix. -/
def prefixedBroker (keyPrefix : String) : RedisBroker := ⟨⟨keyPrefix⟩, "w", 3600⟩

/-- What is printed and read does not matter here. -/
def plainCodec : RedisCodec Int := ⟨fun _ => "", fun _ => .error "no messages", id⟩

/-- A poll that finds nothing due. -/
def idlePoll (keyPrefix : String) : List (Event (commands Int)) :=
  [⟨.conn, .ok ()⟩, ⟨.pollScheduled (keyPrefix ++ ":scheduled") 0
    ((keyPrefix ++ ":scheduled").replace ":scheduled" ""), .ok 0⟩]

theorem idlePoll_trace (keyPrefix : String) :
    Prog.Trace ((prefixedBroker keyPrefix).pollScheduled plainCodec 0).run (idlePoll keyPrefix)
      (.ok 0) :=
  .call (.call (.ret _))

/-- The default prefix is kept. -/
theorem poll_target_iff_default :
    queueKey (("kojin" ++ ":scheduled").replace ":scheduled" "") "q" =
      (prefixedBroker "kojin").keys.queue "q" := by
  have hmem : (⟨.pollScheduled ("kojin" ++ ":scheduled") 0
      (("kojin" ++ ":scheduled").replace ":scheduled" ""), .ok 0⟩ : Event (commands Int)) ∈
        idlePoll "kojin" := List.mem_cons_of_mem _ List.mem_cons_self
  exact (poll_target_iff (idlePoll_trace "kojin") hmem "q").2.mpr (by decide)

/-- A prefix loses its own segment: the messages of `a:scheduled` are moved to the
queues of `a`. -/
theorem poll_target_moved :
    Prog.Trace ((prefixedBroker "a:scheduled").pollScheduled plainCodec 0).run
        (idlePoll "a:scheduled") (.ok 0) ∧
      ("a:scheduled" ++ ":scheduled").replace ":scheduled" "" = "a" ∧
      queueKey (("a:scheduled" ++ ":scheduled").replace ":scheduled" "") "q" = "a:queue:q" ∧
      (prefixedBroker "a:scheduled").keys.queue "q" = "a:scheduled:queue:q" ∧
      queueKey (("a:scheduled" ++ ":scheduled").replace ":scheduled" "") "q" ≠
        (prefixedBroker "a:scheduled").keys.queue "q" := by
  have htarget : ("a:scheduled" ++ ":scheduled").replace ":scheduled" "" = "a" := by
    rw [← String.toList_inj, toList_replace_empty (by decide)]
    decide
  rw [htarget]
  exact ⟨idlePoll_trace _, rfl, by decide, by decide, by decide⟩

end Kojin.Redis
