/-
  Redis/Nack.lean --- what becomes of a message that is given back
  (`kojin-redis`: `RedisBroker::nack`).

  `nack` acknowledges the message and enqueues it again.  The second half goes
  through the deduplication of `enqueue`, and the dedup key was claimed by the very
  same message when it was enqueued first.  `nack_requeues` says that the message
  comes back exactly when that claim has expired, and that nothing else can stop
  a failed task with retries left.
-/
import Kojin.Core.HandOff
import Kojin.Redis.Calls

set_option autoImplicit false

namespace Kojin.Redis

open Kojin.Foundation Kojin.Core

namespace RedisBroker

variable {σ : Type} [LinearOrder σ]

section Call

variable {b : RedisBroker} {codec : RedisCodec σ} {m : TaskMessage}
  {queueOf : String → Except CommandError String} {os : List Transit} {r r' : Keyspace σ}
  {tr : List (Event (commands σ))} {out : TaskResult Unit} {xs ys : List String}

/-- What `nack` does when no command fails: it returns `Ok`, and the queue has
one more copy exactly if the dedup key is free when it is claimed. -/
theorem nack_count_iff (hproc : r.Lasting (b.keys.processing b.workerId))
    (hheld : r.list? (b.keys.processing b.workerId) = .ok xs)
    (hqueue : r.Lasting (b.keys.queue m.queue)) (hlist : r.list? (b.keys.queue m.queue) = .ok ys)
    (h : (server queueOf).run os (b.nack codec m).run r = some (tr, out, r'))
    (hsmooth : Smooth tr) :
    out = .ok () ∧ ∃ ys', r'.list? (b.keys.queue m.queue) = .ok ys' ∧
      (ys'.count (m.encode codec.rfc3339) = ys.count (m.encode codec.rfc3339) + 1 ↔
        b.Free m r (elapsed os (ackCommands m.id xs + 2))) := by
  have hne : b.keys.queue m.queue ≠ b.keys.processing b.workerId := b.keys.queue_ne_processing _ _
  obtain ⟨tr₁, tr₂, out₁, r₁, rfl, hack, hrest⟩ := run_then h
  rcases run_ack hproc hheld hack with ⟨rfl, hlength, -, hstate⟩ | ⟨-, hfailed, -, -⟩
  swap
  · exact absurd hsmooth.left hfailed
  rcases hrest with ⟨-, henqueue⟩ | ⟨e, he, -⟩
  swap
  · cases he
  have hkeys : r₁.keys (b.keys.queue m.queue) = r.keys (b.keys.queue m.queue) := by
    rw [hstate, keys_acked_ne hne]
    rfl
  have hlasting₁ : r₁.Lasting (b.keys.queue m.queue) := by
    intro e he
    rw [hkeys] at he
    exact hqueue e he
  have hlist₁ : r₁.list? (b.keys.queue m.queue) = .ok ys :=
    (Keyspace.list?_of_keys hqueue hkeys).trans hlist
  -- the dedup key is looked at two commands later
  have hfree : b.Free m r₁ (elapsed (os.drop tr₁.length) 2) ↔
      b.Free m r (elapsed os (ackCommands m.id xs + 2)) := by
    have hget : ∀ key, (r₁.advance (elapsed (os.drop tr₁.length) 2)).get (b.keys.dedup key) =
        (r.advance (elapsed os (ackCommands m.id xs + 2))).get (b.keys.dedup key) := by
      intro key
      apply Keyspace.get_congr
      · show r₁.keys _ = r.keys _
        rw [hstate, keys_acked_ne (b.keys.dedup_ne_processing key b.workerId)]
        rfl
      · rw [elapsed_add, ← hlength]
        show r₁.clock + _ = r.clock + (_ + _)
        rw [hstate, clock_acked, hlength, ← Nat.add_assoc]
        rfl
    unfold Free
    simp only [hget]
  obtain ⟨-, ⟨rfl, hdone⟩ | herror⟩ := run_enqueue hlasting₁ hlist₁ henqueue
  swap
  · exact absurd hsmooth.right herror.2.1
  · obtain ⟨hpushed, hkept⟩ := hdone hsmooth.right
    refine ⟨rfl, ?_⟩
    by_cases hf : b.Free m r₁ (elapsed (os.drop tr₁.length) 2)
    · refine ⟨_, hpushed hf, iff_of_true ?_ (hfree.mp hf)⟩
      rw [List.count_cons_self]
    · refine ⟨_, hkept hf, iff_of_false ?_ fun hno => hf (hfree.mpr hno)⟩
      omega

end Call

/-! ## A run of a worker -/

section Run

variable {b : RedisBroker} {codec : RedisCodec σ} {m : TaskMessage}
  {tr : List (Event (commands σ))} {out : TaskResult Unit}

/-- The command succeeded, and a claim was granted. -/
def Granted : Event (commands σ) → Prop
  | ⟨.setNxEx _ _ _, ans⟩ => ans = .ok true
  | ⟨_, ans⟩ => ∃ a, ans = .ok a

theorem Granted.smooth {e : Event (commands σ)} (h : Granted e) :
    ∃ a : e.op.Ans, e.res = (.ok a : Except CommandError e.op.Ans) := by
  rcases e with ⟨op, ans⟩
  cases op with
  | setNxEx key value secs => exact ⟨true, h⟩
  | _ => exact h

/-- When no command fails, an acknowledgement succeeds. -/
theorem ack_trace_ok {id : TaskId} (h : Prog.Trace (b.ack id).run tr out) (hsmooth : Smooth tr) :
    out = .ok () := by
  rcases trace_command h with ⟨⟨⟩, tail, rfl, h₁⟩ | ⟨e, rfl, -⟩
  swap
  · exact absurd hsmooth (not_smooth List.mem_cons_self)
  rcases trace_command h₁ with ⟨items, tail₁, rfl, h₂⟩ | ⟨e, rfl, -⟩
  swap
  · exact absurd hsmooth.tail (not_smooth List.mem_cons_self)
  cases hfind : items.find? (mentions id) with
  | none =>
      rw [hfind] at h₂
      exact (Prog.trace_ret_iff.mp (show Prog.Trace (.ret (.ok ())) tail₁ out from h₂)).2
  | some item =>
      rw [hfind] at h₂
      obtain ⟨ans, rfl, rfl⟩ := trace_last
        (show Prog.Trace (command brokerErr (.lrem (b.keys.processing b.workerId) item)).run
          tail₁ out from h₂)
      obtain ⟨⟨⟩, hans⟩ := hsmooth.tail.tail _ List.mem_cons_self
      obtain rfl : ans = .ok () := hans
      rfl

/-- With its claim granted, `enqueue` pushes the message. -/
theorem enqueue_pushes (h : Prog.Trace (b.enqueue codec m).run tr out)
    (hgranted : ∀ e ∈ tr, Granted e) :
    ⟨.lpush (b.keys.queue m.queue) (m.encode codec.rfc3339), .ok ()⟩ ∈ tr := by
  have hpush : ∀ {tail : List (Event (commands σ))}, (∀ e ∈ tail, Granted e) →
      Prog.Trace (command brokerErr
        (.lpush (b.keys.queue m.queue) (m.encode codec.rfc3339))).run tail out →
      ⟨.lpush (b.keys.queue m.queue) (m.encode codec.rfc3339), .ok ()⟩ ∈ tail := by
    intro tail hall htail
    obtain ⟨ans, rfl, -⟩ := trace_last htail
    obtain ⟨⟨⟩, rfl⟩ : ∃ a : Unit, ans = .ok a := hall _ List.mem_cons_self
    exact List.mem_cons_self
  rcases trace_command h with ⟨⟨⟩, tail, rfl, h₁⟩ | ⟨e, rfl, -⟩
  swap
  · obtain ⟨a, ha⟩ := hgranted _ List.mem_cons_self
    cases ha
  have hrest : ∀ e ∈ tail, Granted e := fun e he => hgranted e (List.mem_cons_of_mem _ he)
  refine List.mem_cons_of_mem _ ?_
  cases hkey : m.dedupKey with
  | none =>
      rw [hkey] at h₁
      exact hpush hrest h₁
  | some key =>
      rw [hkey] at h₁
      obtain ⟨ans, tail₁, rfl, h₂⟩ := Prog.trace_call_iff.mp
        (show Prog.Trace (I := commands σ)
          (.call (.setNxEx (b.keys.dedup key) (.int 1) b.dedupTtl) _) tail out from h₁)
      obtain rfl : ans = .ok true := hrest _ List.mem_cons_self
      exact List.mem_cons_of_mem _
        (hpush (fun e he => hrest e (List.mem_cons_of_mem _ he)) h₂)

theorem nack_pushes (h : Prog.Trace (b.nack codec m).run tr out)
    (hgranted : ∀ e ∈ tr, Granted e) :
    ⟨.lpush (b.keys.queue m.queue) (m.encode codec.rfc3339), .ok ()⟩ ∈ tr := by
  obtain ⟨tr₁, tr₂, out₁, rfl, hack, hrest⟩ := trace_then h
  have hsmooth : Smooth tr₁ := fun e he => (hgranted e (List.mem_append.mpr (.inl he))).smooth
  rcases hrest with ⟨-, henqueue⟩ | ⟨e, he, -⟩
  · have hpushed := enqueue_pushes henqueue fun e he => hgranted e (List.mem_append.mpr (.inr he))
    exact List.mem_append.mpr (.inr hpushed)
  · rw [ack_trace_ok hack hsmooth] at he
    cases he

/-- The events of a program on the broker are events of the system. -/
theorem mem_of_realizes {R : Interface} {p : Prog (commands σ) (TaskResult Unit)}
    {part : List (Event (system (commands σ) R))}
    (h : Prog.Trace (onBroker p : Prog (system (commands σ) R) (TaskResult Unit)) part out) :
    ∃ tr, Prog.Trace p tr out ∧
      ∀ e ∈ tr, (⟨.broker e.op, e.res⟩ : Event (system (commands σ) R)) ∈ part := by
  obtain ⟨tr, htr, rfl⟩ := trace_onBroker h
  exact ⟨tr, htr, fun e he => List.mem_map_of_mem he⟩

/-- A failed task with retries left is pushed again, in every run of an execution
on this broker in which no command fails and no claim is refused. -/
theorem failure_pushes {R : Interface} (backend : BackendDriver R) {w : Worker} {c : Codec}
    {tr : List (Event traits)} {tr' : List (Event (system (commands σ) R))}
    (h : Prog.Trace (executeTask w c m) tr ())
    (hreal : Prog.Realizes (drive (b.driver codec) backend) tr tr')
    (hleft : m.retries < m.maxRetries) (hguard : ∀ eta, ¬ EtaAhead m eta tr)
    (hfailed : handled tr = [])
    (hgranted : ∀ op ans, ⟨.broker op, ans⟩ ∈ tr' → Granted ⟨op, ans⟩) :
    ∃ now, ⟨.broker (.lpush (b.keys.queue m.queue)
      ((m.retryCopy now).encode codec.rfc3339)), .ok ()⟩ ∈ tr' := by
  obtain ⟨now, r, hnack⟩ := failure_nacks hleft hguard hfailed h
  obtain ⟨part, hpart, hsub⟩ := hreal.part hnack
  obtain ⟨cmds, hcmds, hmem⟩ := mem_of_realizes
    (show Prog.Trace (onBroker (b.nack codec (m.retryCopy now)).run) part r from hpart)
  have hpushed := nack_pushes hcmds fun e he => hgranted e.op e.res (hsub _ (hmem e he))
  exact ⟨now, hsub _ (hmem _ hpushed)⟩

end Run

/-! ## Both together -/

/-- When a message that is given back is in its queue again.  One call of `nack`
adds one copy exactly if the dedup key is free when the call claims it; so a failed
task with retries left is pushed in every run in which no claim is refused. -/
theorem nack_requeues (b : RedisBroker) (codec : RedisCodec σ) :
    (∀ (m : TaskMessage) (queueOf : String → Except CommandError String) (os : List Transit)
        (r r' : Keyspace σ) (tr : List (Event (commands σ))) (out : TaskResult Unit)
        (xs ys : List String),
      r.Lasting (b.keys.processing b.workerId) →
      r.list? (b.keys.processing b.workerId) = .ok xs →
      r.Lasting (b.keys.queue m.queue) → r.list? (b.keys.queue m.queue) = .ok ys →
      (server queueOf).run os (b.nack codec m).run r = some (tr, out, r') → Smooth tr →
      out = .ok () ∧ ∃ ys', r'.list? (b.keys.queue m.queue) = .ok ys' ∧
        (ys'.count (m.encode codec.rfc3339) = ys.count (m.encode codec.rfc3339) + 1 ↔
          b.Free m r (elapsed os (ackCommands m.id xs + 2)))) ∧
    (∀ (R : Interface) (backend : BackendDriver R) (w : Worker) (c : Codec) (m : TaskMessage)
        (tr : List (Event traits)) (tr' : List (Event (system (commands σ) R))),
      Prog.Trace (executeTask w c m) tr () →
      Prog.Realizes (drive (b.driver codec) backend) tr tr' →
      m.retries < m.maxRetries → (∀ eta, ¬ EtaAhead m eta tr) → handled tr = [] →
      (∀ op ans, ⟨.broker op, ans⟩ ∈ tr' → Granted ⟨op, ans⟩) →
      ∃ now, ⟨.broker (.lpush (b.keys.queue m.queue)
        ((m.retryCopy now).encode codec.rfc3339)), .ok ()⟩ ∈ tr') := by
  refine ⟨?_, ?_⟩
  · intro m queueOf os r r' tr out xs ys hproc hheld hqueue hlist h hsmooth
    exact nack_count_iff hproc hheld hqueue hlist h hsmooth
  · intro R backend w c m tr tr' h hreal hleft hguard hfailed hgranted
    exact failure_pushes backend h hreal hleft hguard hfailed hgranted

/-! ## With and without a dedup key -/

/-- A task with a dedup key. -/
def dedupTask : TaskMessage := { plainMessage ⟨1⟩ with dedupKey := some "k" }

/-- A codec for the concrete runs, in which this task is the only message. -/
def plainCodec : RedisCodec Nat := ⟨fun _ => "", fun _ => .ok dedupTask, Int.toNat⟩

/-- Commands that arrive at once. -/
def punctual (n : Nat) : List Transit := List.replicate n ⟨0, none⟩

/-- The text of the task. -/
def dedupText : String := dedupTask.encode fun _ => ""

/-- The store after a task with this text was enqueued, and after it was dequeued. -/
def enqueuedStore (text : String) : Keyspace Nat :=
  ((Keyspace.empty 0).store (plainBroker.keys.dedup "k") (.int 1) plainBroker.dedupTtl).writeList
    (plainBroker.keys.queue "q") [text]
def takenStore (text : String) : Keyspace Nat :=
  ((enqueuedStore text).writeList (plainBroker.keys.queue "q") []).writeList
    (plainBroker.keys.processing "w") [text]

theorem run_enqueue_dedup : ∃ tr, (server fun _ => .ok "q").run (punctual 3)
    (plainBroker.enqueue plainCodec dedupTask).run (Keyspace.empty 0) =
      some (tr, .ok (), enqueuedStore dedupText) := ⟨_, rfl⟩

theorem run_dequeue_dedup (text : String) : ∃ tr, (server fun _ => .ok "q").run (punctual 2)
    (plainBroker.dequeue plainCodec ["q"] 1).run (enqueuedStore text) =
      some (tr, .ok (some dedupTask), takenStore text) := ⟨_, rfl⟩

/-- The store after the acknowledgement, which came so many milliseconds later. -/
def emptiedStore (text : String) (later : Nat) : Keyspace Nat :=
  ((takenStore text).advance later).writeList (plainBroker.keys.processing "w") []

/-- The acknowledgement takes it out of the processing list. -/
theorem run_ack_dedup {text : String} (later : Nat) (h : mentions ⟨1⟩ text = true) :
    (server fun _ => .ok "q").run (⟨later, none⟩ :: punctual 5) (plainBroker.ack ⟨1⟩).run
        (takenStore text) =
      some ([⟨.conn, .ok ()⟩, ⟨.lrange (plainBroker.keys.processing "w") 0 (-1), .ok [text]⟩,
          ⟨.lrem (plainBroker.keys.processing "w") text, .ok ()⟩], .ok (),
        emptiedStore text later) := by
  have hfind : [text].find? (mentions ⟨1⟩) = some text := List.find?_cons_of_pos h
  have herase : [text].erase text = [] := List.erase_cons_head _ _
  refine Service.run_call_iff.mpr ⟨⟨later, none⟩, punctual 5, .ok (),
    (takenStore text).advance later, _, rfl, rfl, rfl, ?_⟩
  refine Service.run_call_iff.mpr ⟨⟨0, none⟩, punctual 4, .ok [text],
    (takenStore text).advance later, _, rfl, rfl, rfl, ?_⟩
  dsimp only [pure, Prog.bind, Except.mapError, ExceptT.bindCont]
  rw [hfind]
  refine Service.run_call_iff.mpr ⟨⟨0, none⟩, punctual 3, .ok (), emptiedStore text later, _, rfl,
    ?_, rfl, rfl⟩
  rw [emptiedStore, ← herase]
  rfl

/-- The dedup key is claimed for 300 seconds. -/
theorem keys_takenStore (text : String) :
    (takenStore text).keys (plainBroker.keys.dedup "k") = some ⟨.int 1, some 300000⟩ := by
  rw [takenStore, Keyspace.keys_writeList_ne _ (plainBroker.keys.dedup_ne_processing _ _),
    Keyspace.keys_writeList_ne _ (plainBroker.keys.queue_ne_dedup _ _).symm, enqueuedStore,
    Keyspace.keys_writeList_ne _ (plainBroker.keys.queue_ne_dedup _ _).symm]
  exact Keyspace.keys_store_self _ _ _ _

theorem clock_emptiedStore (text : String) (later : Nat) :
    (emptiedStore text later).clock = later := by
  simp [emptiedStore, takenStore, enqueuedStore, Keyspace.store, Keyspace.empty, Keyspace.advance]

/-- The dedup key after the acknowledgement. -/
theorem get_emptiedStore (text : String) (later : Nat) :
    (emptiedStore text later).get (plainBroker.keys.dedup "k") =
      if later < 300000 then some (.int 1) else none := by
  have hkeys : (emptiedStore text later).keys (plainBroker.keys.dedup "k") =
      some ⟨.int 1, some 300000⟩ := by
    rw [emptiedStore, Keyspace.keys_writeList_ne _ (plainBroker.keys.dedup_ne_processing _ _)]
    exact keys_takenStore text
  rw [Keyspace.get_of_expiry hkeys, clock_emptiedStore]

/-- Enqueued again, it is taken for a duplicate. -/
theorem run_enqueue_again (text : String) : (server fun _ => .ok "q").run (punctual 3)
    (plainBroker.enqueue plainCodec dedupTask).run (emptiedStore text 0) =
      some ([⟨.conn, .ok ()⟩,
          ⟨.setNxEx (plainBroker.keys.dedup "k") (.int 1) plainBroker.dedupTtl, .ok false⟩],
        .ok (), emptiedStore text 0) := by
  have hset : (emptiedStore text 0).setNxEx (plainBroker.keys.dedup "k") (.int 1)
      plainBroker.dedupTtl = .ok (false, emptiedStore text 0) := by
    have hvalid : (emptiedStore text 0).ValidExpire plainBroker.dedupTtl := by
      rw [Keyspace.ValidExpire, clock_emptiedStore]
      decide
    rw [Keyspace.setNxEx, if_pos hvalid, get_emptiedStore]
    rfl
  refine Service.run_call_iff.mpr ⟨⟨0, none⟩, punctual 2, .ok (), emptiedStore text 0, _, rfl, rfl,
    rfl, ?_⟩
  refine Service.run_call_iff.mpr ⟨⟨0, none⟩, punctual 1, .ok false, emptiedStore text 0, _, rfl, ?_,
    rfl, rfl⟩
  refine (server_respond_of rfl rfl).trans ?_
  show some (commit (emptiedStore text 0) ((emptiedStore text 0).setNxEx
    (plainBroker.keys.dedup "k") (.int 1) plainBroker.dedupTtl)) = _
  rw [hset]
  rfl

/-- The store in which its key was claimed again, and the one in which it is back. -/
def claimedStore (text : String) : Keyspace Nat :=
  (emptiedStore text 300000).store (plainBroker.keys.dedup "k") (.int 1) plainBroker.dedupTtl
def returnedStore (text : String) : Keyspace Nat :=
  (claimedStore text).writeList (plainBroker.keys.queue "q") [dedupText]

/-- Enqueued again after the lifetime of its dedup key, it is back. -/
theorem run_enqueue_late (text : String) : (server fun _ => .ok "q").run (punctual 3)
    (plainBroker.enqueue plainCodec dedupTask).run (emptiedStore text 300000) =
      some ([⟨.conn, .ok ()⟩,
          ⟨.setNxEx (plainBroker.keys.dedup "k") (.int 1) plainBroker.dedupTtl, .ok true⟩,
          ⟨.lpush (plainBroker.keys.queue "q") dedupText, .ok ()⟩],
        .ok (), returnedStore text) := by
  have hset : (emptiedStore text 300000).setNxEx (plainBroker.keys.dedup "k") (.int 1)
      plainBroker.dedupTtl = .ok (true, claimedStore text) := by
    have hvalid : (emptiedStore text 300000).ValidExpire plainBroker.dedupTtl := by
      rw [Keyspace.ValidExpire, clock_emptiedStore]
      decide
    rw [Keyspace.setNxEx, if_pos hvalid, get_emptiedStore]
    rfl
  refine Service.run_call_iff.mpr ⟨⟨0, none⟩, punctual 2, .ok (), emptiedStore text 300000, _, rfl,
    rfl, rfl, ?_⟩
  refine Service.run_call_iff.mpr ⟨⟨0, none⟩, punctual 1, .ok true, claimedStore text, _, rfl, ?_,
    rfl, ?_⟩
  · refine (server_respond_of rfl rfl).trans ?_
    show some (commit (emptiedStore text 300000) ((emptiedStore text 300000).setNxEx
      (plainBroker.keys.dedup "k") (.int 1) plainBroker.dedupTtl)) = _
    rw [hset]
    rfl
  · have hqueue : (claimedStore text).list? (plainBroker.keys.queue "q") = .ok [] := by
      have hnone : (emptiedStore text 300000).keys (plainBroker.keys.queue "q") = none := by
        rw [emptiedStore, Keyspace.keys_writeList_ne _ (plainBroker.keys.queue_ne_processing _ _)]
        show (takenStore text).keys (plainBroker.keys.queue "q") = _
        rw [takenStore, Keyspace.keys_writeList_ne _ (plainBroker.keys.queue_ne_processing _ _)]
        exact Keyspace.keys_writeList_nil _ _
      rw [Keyspace.list?, Keyspace.get, Keyspace.live, claimedStore,
        Keyspace.keys_store_ne _ (plainBroker.keys.queue_ne_dedup _ _), hnone]
      rfl
    refine Service.run_call_iff.mpr ⟨⟨0, none⟩, punctual 0, .ok (), returnedStore text, _, rfl, ?_,
      rfl, rfl⟩
    refine (server_respond_of rfl rfl).trans ?_
    show some (commit (claimedStore text) (((claimedStore text).lpush
      (plainBroker.keys.queue "q") dedupText).map ((), ·))) = _
    rw [Keyspace.lpush_of_list? hqueue]
    rfl

/-- What the worker holds, and its queue, before it gives the task back. -/
theorem takenStore_lists (text : String) :
    (takenStore text).Lasting (plainBroker.keys.processing "w") ∧
      (takenStore text).list? (plainBroker.keys.processing "w") = .ok [text] ∧
      (takenStore text).Lasting (plainBroker.keys.queue "q") ∧
      (takenStore text).list? (plainBroker.keys.queue "q") = .ok [] := by
  have hne := plainBroker.keys.queue_ne_processing "q" "w"
  refine ⟨?_, Keyspace.list?_writeList _ _ _, ?_, ?_⟩
  · refine Keyspace.lasting_writeList (fun e he => ?_) _
    rw [Keyspace.keys_writeList_ne _ hne.symm, enqueuedStore,
      Keyspace.keys_writeList_ne _ hne.symm,
      Keyspace.keys_store_ne _ (plainBroker.keys.dedup_ne_processing _ _).symm] at he
    cases he
  · intro e he
    rw [takenStore, Keyspace.keys_writeList_ne _ hne] at he
    rw [Keyspace.keys_writeList_nil] at he
    cases he
  · rw [takenStore, Keyspace.list?_writeList_ne _ hne]
    exact Keyspace.list?_writeList _ _ _

/-- Given back after the lifetime of its dedup key, the task is in its queue again. -/
theorem nack_requeues_late :
    ∃ tr, (server fun _ => .ok "q").run (⟨300000, none⟩ :: punctual 5)
        (plainBroker.nack plainCodec dedupTask).run (takenStore dedupText) =
          some (tr, .ok (), returnedStore dedupText) ∧
      ∃ ys', (returnedStore dedupText).list? (plainBroker.keys.queue "q") = .ok ys' ∧
        ys'.count dedupText = 1 := by
  have hack := run_ack_dedup 300000 (mentions_self (fun _ => "") dedupTask)
  have hnack := Service.run_append
    (f := ExceptT.bindCont fun _ => plainBroker.enqueue plainCodec dedupTask) hack
    (run_enqueue_late dedupText)
  obtain ⟨hproc, hheld, hqueue, hlist⟩ := takenStore_lists dedupText
  obtain ⟨-, ys', hys', hiff⟩ := (nack_requeues plainBroker plainCodec).1 dedupTask
    (fun _ => .ok "q") (⟨300000, none⟩ :: punctual 5) (takenStore dedupText) _ _ _ [dedupText] []
    hproc hheld hqueue hlist hnack
    (.cons _ (.cons _ (.cons _ (.cons _ (.cons _ (.cons _ .nil))))))
  refine ⟨_, hnack, ys', hys', hiff.mpr ?_⟩
  rintro key ⟨⟩
  have htime : elapsed (⟨300000, none⟩ :: punctual 5)
      (ackCommands dedupTask.id [dedupText] + 2) = 300000 := by
    have hfound : [dedupText].find? (mentions dedupTask.id) = some dedupText :=
      List.find?_cons_of_pos (mentions_self (fun _ => "") dedupTask)
    rw [ackCommands, hfound]
    rfl
  have hkeys : ((takenStore dedupText).advance 300000).keys (plainBroker.keys.dedup "k") =
      some ⟨.int 1, some 300000⟩ := keys_takenStore dedupText
  show ((takenStore dedupText).advance _).get (plainBroker.keys.dedup "k") = none
  rw [htime, Keyspace.get_of_expiry hkeys]
  rfl

theorem emptiedStore_items (text : String) (later : Nat) :
    (emptiedStore text later).items (plainBroker.keys.queue "q") = [] := by
  refine Keyspace.items_of_list? ?_
  rw [emptiedStore, Keyspace.list?_writeList_ne _ (plainBroker.keys.queue_ne_processing _ _)]
  obtain ⟨-, -, hlasting, hlist⟩ := takenStore_lists text
  exact (Keyspace.list?_advance_of_lasting hlasting later).trans hlist

/-- Given back within the lifetime of its dedup key, the message is gone: it was
enqueued, dequeued and given back, every call returned `Ok`, and its queue is
empty. -/
theorem nack_drops_dedup :
    ∃ tr₁ tr₂ tr₃ r₃,
      (server fun _ => .ok "q").run (punctual 3) (plainBroker.enqueue plainCodec dedupTask).run
        (Keyspace.empty 0) = some (tr₁, .ok (), enqueuedStore dedupText) ∧
      (server fun _ => .ok "q").run (punctual 2) (plainBroker.dequeue plainCodec ["q"] 1).run
        (enqueuedStore dedupText) = some (tr₂, .ok (some dedupTask), takenStore dedupText) ∧
      (server fun _ => .ok "q").run (punctual 6) (plainBroker.nack plainCodec dedupTask).run
        (takenStore dedupText) = some (tr₃, .ok (), r₃) ∧ Smooth tr₃ ∧
      r₃.items (plainBroker.keys.queue "q") = [] := by
  obtain ⟨tr₁, henqueue⟩ := run_enqueue_dedup
  obtain ⟨tr₂, hdequeue⟩ := run_dequeue_dedup dedupText
  have hack := run_ack_dedup 0 (mentions_self (fun _ => "") dedupTask)
  have hagain := run_enqueue_again dedupText
  have hnack := Service.run_append
    (f := ExceptT.bindCont fun _ => plainBroker.enqueue plainCodec dedupTask) hack hagain
  exact ⟨tr₁, tr₂, _, emptiedStore dedupText 0, henqueue, hdequeue, hnack,
    .cons _ (.cons _ (.cons _ (.cons _ (.cons _ .nil)))), emptiedStore_items _ 0⟩

end RedisBroker

end Kojin.Redis
