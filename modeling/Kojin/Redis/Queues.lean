/-
  Redis/Queues.lean --- which queues `list_queues` lists (`kojin-redis`: `broker.rs`).

  The call asks for the keys that match `prefix:queue:*` and takes the prefix off.  On a
  server that others use, and with queue names that may hold any characters, this could go
  wrong in several ways: a pattern can match keys of other objects or of other deployments,
  a queue that has become empty can stay behind, a name can come twice.  None of it
  happens, if the prefix has no characters that are special in a pattern and
  `poll_scheduled` reads it right (`Redis/PollTarget.lean`).

  The server lists its keys in an order of its own, each once.
-/
import Kojin.Redis.Neighbours
import Kojin.Redis.ResultStore

set_option autoImplicit false

namespace Kojin.Redis

open Kojin.Foundation Kojin.Core

variable {σ : Type} [LinearOrder σ]

/-- The enumeration has every key with a value, once. -/
structure Enumerates (order : List String) (r : Keyspace σ) : Prop where
  nodup : order.Nodup
  complete : ∀ key, (r.live key).isSome = true → key ∈ order

theorem Enumerates.nodup_matching {order : List String} {r : Keyspace σ}
    (h : Enumerates order r) (pattern : String) : (matching r pattern order).Nodup :=
  h.nodup.filter _

theorem Enumerates.mem_matching_iff {order : List String} {r : Keyspace σ}
    (h : Enumerates order r) {pattern key : String} : key ∈ matching r pattern order ↔
      (r.live key).isSome = true ∧ matchGlob (keyBytes pattern) (keyBytes key) = true := by
  unfold matching
  rw [List.mem_filter, Bool.and_eq_true]
  exact ⟨fun hkey => hkey.2, fun hkey => ⟨h.complete key hkey.1, hkey⟩⟩

/-- Taking off a prefix that is there. -/
theorem stripPrefix?_append (lead name : String) :
    stripPrefix? lead (lead ++ name) = some name := by
  simp [stripPrefix?]

namespace Deployment

variable {D : Deployment σ} {queueOf : String → Except CommandError String} {r r' : Keyspace σ}

omit [LinearOrder σ] in
/-- The names behind the keys of queues. -/
theorem stripped_queues (names : List String) :
    (names.map D.keys.queue).filterMap (stripPrefix? (D.keys.keyPrefix ++ ":queue:")) = names := by
  induction names with
  | nil => rfl
  | cons name names ih =>
      have hname : stripPrefix? (D.keys.keyPrefix ++ ":queue:") (D.keys.queue name) = some name :=
        stripPrefix?_append _ _
      rw [List.map_cons, List.filterMap_cons_some hname, ih]

omit [LinearOrder σ] in
/-- Keys that are all of queues. -/
theorem exists_names {keys : List String} (hkeys : ∀ key ∈ keys, ∃ q, key = D.keys.queue q) :
    ∃ names : List String, keys = names.map D.keys.queue := by
  induction keys with
  | nil => exact ⟨[], rfl⟩
  | cons key keys ih =>
      obtain ⟨q, rfl⟩ := hkeys key List.mem_cons_self
      obtain ⟨names, rfl⟩ := ih fun k hk => hkeys k (List.mem_cons_of_mem _ hk)
      exact ⟨q :: names, rfl⟩

/-- What the call makes of the keys that match. -/
theorem names_of_matching (hplain : ∀ b ∈ keyBytes D.keys.keyPrefix, Plain b)
    (htyped : D.schema.Typed r) {order : List String} (horder : Enumerates order r) :
    ∃ names, (matching r (D.keys.keyPrefix ++ ":queue:*") order).filterMap
        (stripPrefix? (D.keys.keyPrefix ++ ":queue:")) = names ∧ names.Nodup ∧
      ∀ q, q ∈ names ↔ r.items (D.keys.queue q) ≠ [] := by
  have hqueue : ∀ key ∈ matching r (D.keys.keyPrefix ++ ":queue:*") order,
      ∃ q, key = D.keys.queue q := by
    intro key hkey
    exact (match_queue_iff hplain).mp (horder.mem_matching_iff.mp hkey).2
  obtain ⟨names, hnames⟩ := exists_names hqueue
  have hnodup := horder.nodup_matching (D.keys.keyPrefix ++ ":queue:*")
  rw [hnames] at hnodup ⊢
  refine ⟨names, stripped_queues names, hnodup.of_map _, fun q => ?_⟩
  have hinjective : Function.Injective D.keys.queue := fun _ _ => D.keys.queue_inj
  rw [← List.mem_map_of_injective hinjective, ← hnames, horder.mem_matching_iff]
  have hlive : (r.live (D.keys.queue q)).isSome = true ↔ r.items (D.keys.queue q) ≠ [] :=
    Schema.Typed.live_iff (S := D.schema) (x := KeyObject.queue q) htyped rfl
  rw [hlive]
  exact and_iff_left ((match_queue_iff hplain).mpr ⟨q, rfl⟩)

/-- What `list_queues` lists.  After any run of the clients of a deployment whose prefix
does not contain `:scheduled` and has no special characters, the call, when nothing of its
commands is lost, lists each queue with entries once, and nothing else. -/
theorem lists_queues (hreads : D.ReadsQueue queueOf)
    (hscheduled : ¬ ":scheduled".toList <:+: D.keys.keyPrefix.toList)
    (hplain : ∀ b ∈ keyBytes D.keys.keyPrefix, Plain b) {r₀ : Keyspace σ}
    (hfresh : ∀ x, r₀.keys (D.keys.key x) = none) {tr : List (D.machine queueOf).Label}
    {c : (D.machine queueOf).Config} (h : (D.machine queueOf).Reach ⟨r₀, []⟩ tr c)
    {os : List ClientOracle} (hos : ∀ o ∈ os, o.failure = none)
    {part : List (Event (clientCommands σ))} {out : TaskResult (List String)}
    (hrun : (clientServer queueOf).run os (D.broker "" 0).listQueues.run c.state =
      some (part, out, r'))
    (horder : ∀ o ∈ os, Enumerates o.order r') :
    ∃ names, out = .ok names ∧ names.Nodup ∧ ∀ q, q ∈ names ↔ r'.items (D.keys.queue q) ≠ [] := by
  obtain ⟨htyped, -⟩ := namespace_sound hreads hscheduled hfresh h
  obtain ⟨o, rest, answer, r₁, tail, rfl, hconn, hrest⟩ := run_clientCommand hos hrun
  cases hconn
  obtain ⟨o', rest', answer', r₂, tail', rfl, hkeys, hlast⟩ :=
    run_clientCommand (fun o' ho' => hos o' (List.mem_cons_of_mem o ho')) hrest
  cases hkeys
  obtain ⟨-, rfl, rfl⟩ := Service.run_ret_iff.mp hlast
  have hlater : D.schema.Typed ((Keyspace.advance c.state o.elapsed).advance o'.elapsed) := htyped
  obtain ⟨names, hnames, hlists⟩ := names_of_matching hplain hlater (horder o' (by simp))
  exact ⟨names, congrArg Except.ok hnames, hlists⟩

/-! ## One queue -/

/-- The message is in its queue, and nothing else is on the server. -/
def oneQueue : Keyspace Nat := (Keyspace.empty 0).write "kojin:queue:q" (.list [plainText])

/-- A producer sends it. -/
def sendOne : List (plain.machine plainQueue).Move :=
  [.env (.broker "p" 300 (.enqueue (plainMessage ⟨1⟩))), .run 0 atOnce, .run 0 atOnce]

theorem sendOne_plays : ∃ tr threads,
    Machine.Config.playAll (M := plain.machine plainQueue) ⟨Keyspace.empty 0, []⟩ sendOne =
      some (tr, ⟨oneQueue, threads⟩) := ⟨_, _, rfl⟩

/-- The server lists its only key. -/
def listsOne : ClientOracle := ⟨⟨0, none⟩, ["kojin:queue:q"]⟩

theorem enumerates_one : Enumerates ["kojin:queue:q"] oneQueue := by
  refine ⟨List.nodup_singleton _, fun key hlive => ?_⟩
  by_contra hkey
  have hnone : oneQueue.keys key = none :=
    Function.update_of_ne (fun heq => hkey (List.mem_singleton.mpr heq)) _ _
  simp [Keyspace.live, hnone] at hlive

theorem lists_queues_one : ∃ names, names.Nodup ∧ (∀ q, q ∈ names ↔ q = "q") ∧ ∃ part,
    (clientServer plainQueue).run [listsOne, listsOne] (plain.broker "" 0).listQueues.run oneQueue =
      some (part, .ok names, oneQueue) := by
  obtain ⟨tr, threads, hplays⟩ := sendOne_plays
  have hreach := Machine.Config.reach_of_playAll hplays
  have hruns : ∃ part names, (clientServer plainQueue).run [listsOne, listsOne]
      (plain.broker "" 0).listQueues.run oneQueue = some (part, .ok names, oneQueue) :=
    ⟨_, _, rfl⟩
  obtain ⟨part, names', hrun⟩ := hruns
  have harrives : ∀ o ∈ [listsOne, listsOne], o.failure = none := by simp [listsOne]
  obtain ⟨names, hout, hnodup, hnames⟩ := lists_queues plain_reads (by decide)
    (by decide +kernel) (fun _ => rfl) hreach harrives hrun (by simpa [listsOne] using enumerates_one)
  cases hout
  refine ⟨names', hnodup, fun q => (hnames q).trans ?_, part, hrun⟩
  constructor
  · intro hitems
    by_contra hq
    have hne : plain.keys.queue q ≠ "kojin:queue:q" := fun heq =>
      hq (plain.keys.queue_inj (show plain.keys.queue q = plain.keys.queue "q" from heq))
    have hnone : oneQueue.keys (plain.keys.queue q) = none := Function.update_of_ne hne _ _
    simp [Keyspace.items, Keyspace.list?, Keyspace.get, Keyspace.live, hnone] at hitems
  · rintro rfl
    have hitems : oneQueue.items (plain.keys.queue "q") = [plainText] := rfl
    simp [hitems]

end Deployment

end Kojin.Redis
