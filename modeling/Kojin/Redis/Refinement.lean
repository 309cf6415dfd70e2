/-
  Redis/Refinement.lean --- the queues in Redis against the queues in memory
  (`kojin-redis`: `broker.rs`; `kojin-core`: `memory_broker.rs`).

  A list in Redis is pushed on its left and taken from on its right, so read from right
  to left it is the queue in memory; the processing list holds the texts of the messages
  that the processing map has under their identifiers.

      queue in memory       m₁ m₂ m₃        first in, first out
      list in Redis         t₃ t₂ t₁        tᵢ is the text of mᵢ

  `Mirrors` says so, every call keeps it, and so two brokers that one worker calls alike
  answer alike, as long as every message is read back from its text and no `dequeue`
  without a time limit meets an empty queue first: Redis then waits for ever
  (`redis_refines_memory_iff`).
-/
import Kojin.Core.MemoryCalls
import Kojin.Redis.Errors
import Kojin.Redis.Nack

set_option autoImplicit false

namespace Kojin.Redis

open Kojin.Foundation Kojin.Core

variable {σ : Type} [LinearOrder σ]

/-! ## Calls that succeed -/

/-- With `n` commands, none of which is lost, the call succeeds, and `Q` holds of what it
returns and leaves behind. -/
def Does {α : Type} (queueOf : String → Except CommandError String) (n : Nat) (p : Attempt σ α)
    (r : Keyspace σ) (Q : α → Keyspace σ → Prop) : Prop :=
  ∀ os : List Transit, n ≤ os.length → (∀ o ∈ os, o.failure = none) →
    ∃ tr a r', (server queueOf).run os p.run r = some (tr, .ok a, r') ∧ tr.length ≤ n ∧ Q a r'

section Does

variable {queueOf : String → Except CommandError String} {α β : Type} {n n' : Nat}
  {r : Keyspace σ} {Q Q' : α → Keyspace σ → Prop}

theorem Does.weaken {p : Attempt σ α} (h : Does queueOf n p r Q) (hn : n ≤ n')
    (hQ : ∀ a r', Q a r' → Q' a r') : Does queueOf n' p r Q' := by
  intro os hlength hfine
  obtain ⟨tr, a, r', hrun, hle, ha⟩ := h os (hn.trans hlength) hfine
  exact ⟨tr, a, r', hrun, hle.trans hn, hQ a r' ha⟩

theorem does_pure {a : α} (h : Q a r) : Does queueOf n (pure a) r Q := by
  intro os _ _
  exact ⟨[], a, r, Service.run_ret_iff.mpr ⟨rfl, rfl, rfl⟩, Nat.zero_le n, h⟩

/-- A command that does not wait, and what follows it. -/
theorem does_command {err : CommandError → KojinError} {op : RedisOp σ}
    {f : op.Ans → Attempt σ α}
    (hop : ∀ t, op.waits (r.advance t) = false)
    (h : ∀ t, ∃ a r₁, perform queueOf (r.advance t) op = (.ok a, r₁) ∧ Does queueOf n (f a) r₁ Q) :
    Does queueOf (n + 1) (command err op >>= f) r Q := by
  intro os hlength hfine
  cases os with
  | nil => cases hlength
  | cons o rest =>
      obtain ⟨a, r₁, hperform, hf⟩ := h o.elapsed
      obtain ⟨tr, b, r', hrun, hle, hb⟩ := hf rest (Nat.le_of_succ_le_succ hlength)
        fun o' ho' => hfine o' (List.mem_cons_of_mem _ ho')
      have hrespond : (server queueOf).respond o r op = some (.ok a, r₁) := by
        rw [server_respond_of (hfine o List.mem_cons_self) (hop o.elapsed), hperform]
      exact ⟨⟨op, .ok a⟩ :: tr, b, r',
        Service.run_call_iff.mpr ⟨o, rest, .ok a, r₁, tr, rfl, hrespond, rfl, hrun⟩,
        Nat.succ_le_succ hle, hb⟩

/-- The last command of a call, if it does not wait. -/
theorem does_last {err : CommandError → KojinError} {op : RedisOp σ}
    {Q : op.Ans → Keyspace σ → Prop} (hop : ∀ t, op.waits (r.advance t) = false)
    (h : ∀ t, ∃ a r₁, perform queueOf (r.advance t) op = (.ok a, r₁) ∧ Q a r₁) :
    Does queueOf 1 (command err op) r Q := by
  intro os hlength hfine
  cases os with
  | nil => cases hlength
  | cons o rest =>
      obtain ⟨a, r₁, hperform, ha⟩ := h o.elapsed
      have hrespond : (server queueOf).respond o r op = some (.ok a, r₁) := by
        rw [server_respond_of (hfine o List.mem_cons_self) (hop o.elapsed), hperform]
      exact ⟨[⟨op, .ok a⟩], a, r₁, Service.run_call_iff.mpr
        ⟨o, rest, .ok a, r₁, [], rfl, hrespond, rfl, Service.run_ret_iff.mpr ⟨rfl, rfl, rfl⟩⟩,
        Nat.le_refl 1, ha⟩

/-- A call in two parts. -/
theorem does_then {p : Attempt σ β} {f : β → Attempt σ α} {P : β → Keyspace σ → Prop}
    (hp : Does queueOf n p r P) (hf : ∀ a r₁, P a r₁ → Does queueOf n' (f a) r₁ Q) :
    Does queueOf (n + n') (p >>= f) r Q := by
  intro os hlength hfine
  obtain ⟨tr₁, a, r₁, hrun₁, hle₁, ha⟩ := hp os (by omega) hfine
  have hrest : n' ≤ (os.drop tr₁.length).length := by
    rw [List.length_drop]
    omega
  obtain ⟨tr₂, b, r', hrun₂, hle₂, hb⟩ := hf a r₁ ha (os.drop tr₁.length) hrest
    fun o ho => hfine o (List.mem_of_mem_drop ho)
  refine ⟨tr₁ ++ tr₂, b, r', ?_, ?_, hb⟩
  · exact Service.run_append hrun₁ hrun₂
  · rw [List.length_append]
    omega

end Does

namespace RedisBroker

variable {b : RedisBroker} {codec : RedisCodec σ} {queueOf : String → Except CommandError String}
  {r : Keyspace σ} {s s' : MemoryBroker} {m : TaskMessage} {id : TaskId}

/-! ## The same messages -/

/-- The list of a queue: the text of the first message is the last. -/
def texts (rfc3339 : DateTime → String) (ms : List TaskMessage) : List String :=
  (ms.map (·.encode rfc3339)).reverse

/-- The store holds what the memory holds. -/
structure Mirrors (b : RedisBroker) (codec : RedisCodec σ) (r : Keyspace σ) (s : MemoryBroker) :
    Prop where
  lasting : ∀ key, b.IsList key → r.Lasting key
  queue : ∀ name, r.list? (b.keys.queue name) =
    .ok (texts codec.rfc3339 ((s.queues.lookup name).getD []))
  dlq : ∀ name, r.list? (b.keys.dlq name) =
    .ok (texts codec.rfc3339 ((s.dlq.lookup name).getD []))
  processing : ∃ held : List TaskMessage,
    r.list? (b.keys.processing b.workerId) = .ok (held.map (·.encode codec.rfc3339)) ∧
      (held.map (·.id)).Nodup ∧ ∀ m, m ∈ held ↔ s.processing.lookup m.id = some m

theorem texts_append (rfc3339 : DateTime → String) (ms : List TaskMessage) (m : TaskMessage) :
    texts rfc3339 (ms ++ [m]) = m.encode rfc3339 :: texts rfc3339 ms := by
  simp [texts]

theorem texts_cons (rfc3339 : DateTime → String) (m : TaskMessage) (ms : List TaskMessage) :
    texts rfc3339 (m :: ms) = texts rfc3339 ms ++ [m.encode rfc3339] := by
  simp [texts]

/-- Time that passes changes no list. -/
theorem Mirrors.advance (h : Mirrors b codec r s) (t : Nat) :
    Mirrors b codec (r.advance t) s where
  lasting key hkey := h.lasting key hkey
  queue name :=
    (Keyspace.list?_advance_of_lasting (h.lasting _ (b.isList_queue name)) t).trans (h.queue name)
  dlq name :=
    (Keyspace.list?_advance_of_lasting (h.lasting _ (b.isList_dlq name)) t).trans (h.dlq name)
  processing := by
    obtain ⟨held, hlist, hheld⟩ := h.processing
    exact ⟨held, (Keyspace.list?_advance_of_lasting (h.lasting _ b.isList_processing) t).trans hlist,
      hheld⟩

/-- Writing a list leaves the lists lasting. -/
theorem lasting_write (h : ∀ key, b.IsList key → r.Lasting key) (key : String)
    (items : List String) (key' : String) (hkey : b.IsList key') :
    (r.writeList key items).Lasting key' := by
  by_cases hne : key' = key
  · subst hne
    exact Keyspace.lasting_writeList (h _ hkey) items
  · intro e he
    rw [Keyspace.keys_writeList_ne r hne] at he
    exact h key' hkey e he

/-- A queue is written: the memory has the same queue, and everything else as before. -/
theorem Mirrors.writeQueue (h : Mirrors b codec r s) (name : String) (ms : List TaskMessage)
    (n : Notify) :
    Mirrors b codec (r.writeList (b.keys.queue name) (texts codec.rfc3339 ms))
      { s with queues := s.queues.insert name ms, notify := n } where
  lasting := lasting_write h.lasting _ _
  queue name' := by
    by_cases hname : name' = name
    · subst hname
      rw [Keyspace.list?_writeList, AList.lookup_insert]
      rfl
    · have hkey : b.keys.queue name' ≠ b.keys.queue name := fun heq => hname (b.keys.queue_inj heq)
      rw [Keyspace.list?_writeList_ne r hkey, AList.lookup_insert_ne hname]
      exact h.queue name'
  dlq name' := by
    rw [Keyspace.list?_writeList_ne r (b.keys.queue_ne_dlq name name').symm]
    exact h.dlq name'
  processing := by
    rw [Keyspace.list?_writeList_ne r (b.keys.queue_ne_processing name b.workerId).symm]
    exact h.processing

/-- A dead-letter queue is written: the memory has the same one, and everything else as before. -/
theorem Mirrors.writeDlq (h : Mirrors b codec r s) (name : String) (ms : List TaskMessage) :
    Mirrors b codec (r.writeList (b.keys.dlq name) (texts codec.rfc3339 ms))
      { s with dlq := s.dlq.insert name ms } where
  lasting := lasting_write h.lasting _ _
  queue name' := by
    rw [Keyspace.list?_writeList_ne r (b.keys.queue_ne_dlq name' name)]
    exact h.queue name'
  dlq name' := by
    by_cases hname : name' = name
    · subst hname
      rw [Keyspace.list?_writeList, AList.lookup_insert]
      rfl
    · have hkey : b.keys.dlq name' ≠ b.keys.dlq name := fun heq => hname (b.keys.dlq_inj heq)
      rw [Keyspace.list?_writeList_ne r hkey, AList.lookup_insert_ne hname]
      exact h.dlq name'
  processing := by
    rw [Keyspace.list?_writeList_ne r (b.keys.dlq_ne_processing name b.workerId).symm]
    exact h.processing

/-- The processing list is written. -/
theorem Mirrors.writeProcessing (h : Mirrors b codec r s) {held : List TaskMessage}
    (hnodup : (held.map (·.id)).Nodup) {processing : Table TaskId TaskMessage}
    (hheld : ∀ m, m ∈ held ↔ processing.lookup m.id = some m) :
    Mirrors b codec
      (r.writeList (b.keys.processing b.workerId) (held.map (·.encode codec.rfc3339)))
      { s with processing := processing } where
  lasting := lasting_write h.lasting _ _
  queue name := by
    rw [Keyspace.list?_writeList_ne r (b.keys.queue_ne_processing name b.workerId)]
    exact h.queue name
  dlq name := by
    rw [Keyspace.list?_writeList_ne r (b.keys.dlq_ne_processing name b.workerId)]
    exact h.dlq name
  processing := ⟨held, Keyspace.list?_writeList _ _ _, hnodup, hheld⟩

/-! ## The parts of a call -/

/-- A push to the queue of a message. -/
theorem push_mirrors (h : Mirrors b codec r s) (m : TaskMessage) :
    Does queueOf 1 (command brokerErr (.lpush (b.keys.queue m.queue) (m.encode codec.rfc3339))) r
      fun _ r' => Mirrors b codec r' (s.enqueue m) := by
  refine does_last (fun _ => rfl) fun t => ?_
  have hlist := (h.advance t).queue m.queue
  refine ⟨(), (r.advance t).writeList (b.keys.queue m.queue)
    (m.encode codec.rfc3339 :: texts codec.rfc3339 ((s.queues.lookup m.queue).getD [])), ?_, ?_⟩
  · have hpush := @Keyspace.lpush_of_list? _ _ _ _ (m.encode codec.rfc3339) _ hlist
    simp only [perform, hpush]
    rfl
  · rw [← texts_append]
    exact (h.advance t).writeQueue m.queue _ _

/-- `enqueue`. -/
theorem enqueue_mirrors (h : Mirrors b codec r s) (hplain : m.dedupKey = none) :
    Does queueOf 2 (b.enqueue codec m) r fun _ r' => Mirrors b codec r' (s.enqueue m) := by
  refine does_command (fun _ => rfl) fun t => ⟨(), _, rfl, ?_⟩
  rw [hplain]
  exact push_mirrors (h.advance t) m

/-- Two tests that agree on a list remove the same entry. -/
theorem eraseP_congr {α : Type} {p q : α → Bool} {l : List α} (h : ∀ x ∈ l, p x = q x) :
    l.eraseP p = l.eraseP q := by
  induction l with
  | nil => rfl
  | cons x l ih =>
      rw [List.eraseP_cons, List.eraseP_cons, h x List.mem_cons_self,
        ih fun y hy => h y (List.mem_cons_of_mem x hy)]

/-- Removing the message of an identifier that is there once. -/
theorem mem_eraseP_id {held : List TaskMessage} (hnodup : (held.map (·.id)).Nodup) :
    m ∈ held.eraseP (MemoryBroker.hasId id) ↔ m ∈ held ∧ m.id ≠ id := by
  induction held with
  | nil => simp
  | cons x held ih =>
      obtain ⟨hx, hrest⟩ := List.nodup_cons.mp (show (x.id :: held.map (·.id)).Nodup from hnodup)
      by_cases hid : x.id = id
      · rw [List.eraseP_cons_of_pos (MemoryBroker.hasId_iff.mpr hid), List.mem_cons]
        constructor
        · intro hm
          refine ⟨.inr hm, fun heq => hx ?_⟩
          rw [hid, ← heq]
          exact List.mem_map_of_mem hm
        · rintro ⟨rfl | hm, hne⟩
          · exact absurd hid hne
          · exact hm
      · rw [List.eraseP_cons_of_neg (mt MemoryBroker.hasId_iff.mp hid), List.mem_cons,
          List.mem_cons, ih hrest]
        constructor
        · rintro (rfl | ⟨hm, hne⟩)
          · exact ⟨.inl rfl, hid⟩
          · exact ⟨.inr hm, hne⟩
        · rintro ⟨rfl | hm, hne⟩
          · exact .inl rfl
          · exact .inr ⟨hm, hne⟩

/-- No text of a held message mentions the identifier, unless it is its own. -/
def OwnMention (codec : RedisCodec σ) (s : MemoryBroker) (id : TaskId) : Prop :=
  ∀ i m, s.processing.lookup i = some m → mentions id (m.encode codec.rfc3339) = true → m.id = id

/-- The entry that mentions the identifier is the one of its message. -/
theorem acked_mirrors (h : Mirrors b codec r s) (hown : OwnMention codec s id) {xs : List String}
    (hxs : r.list? (b.keys.processing b.workerId) = .ok xs) :
    Mirrors b codec (b.acked id xs r) (s.removeProcessing id) := by
  obtain ⟨held, hlist, hnodup, hheld⟩ := h.processing
  obtain rfl : xs = held.map (·.encode codec.rfc3339) := Except.ok.inj (hxs.symm.trans hlist)
  have hmentions : ∀ m ∈ held, mentions id (m.encode codec.rfc3339) = MemoryBroker.hasId id m := by
    intro m hm
    rw [Bool.eq_iff_iff, MemoryBroker.hasId_iff]
    constructor
    · exact hown m.id m ((hheld m).mp hm)
    · rintro rfl
      exact mentions_self codec.rfc3339 m
  have hheld' : ∀ m, m ∈ held.eraseP (MemoryBroker.hasId id) ↔
      (s.processing.erase id).lookup m.id = some m := by
    intro m
    rw [mem_eraseP_id hnodup, hheld m]
    by_cases hid : m.id = id
    · rw [hid, AList.lookup_erase]
      simp
    · rw [AList.lookup_erase_ne hid]
      simp [hid]
  unfold acked
  split
  · have herase : (held.map (·.encode codec.rfc3339)).eraseP (mentions id) =
        (held.eraseP (MemoryBroker.hasId id)).map (·.encode codec.rfc3339) := by
      rw [List.eraseP_map]
      exact congrArg _ (eraseP_congr hmentions)
    rw [herase]
    exact h.writeProcessing (hnodup.sublist (List.eraseP_sublist.map _)) hheld'
  · rename_i hnone
    have hsame : held.eraseP (MemoryBroker.hasId id) = held := by
      refine List.eraseP_of_forall_not ?_
      intro m hm hid
      refine hnone (List.find?_isSome.mpr
        ⟨m.encode codec.rfc3339, List.mem_map_of_mem hm, ?_⟩)
      rw [hmentions m hm]
      exact hid
    rw [hsame] at hheld'
    exact ⟨h.lasting, h.queue, h.dlq, held, hlist, hnodup, hheld'⟩

/-- `ack`. -/
theorem ack_mirrors (h : Mirrors b codec r s) (hown : OwnMention codec s id) :
    Does queueOf 3 (b.ack id) r fun _ r' => Mirrors b codec r' (s.removeProcessing id) := by
  obtain ⟨held, hlist, -⟩ := h.processing
  have hat : ∀ t, (r.advance t).list? (b.keys.processing b.workerId) =
      .ok (held.map (·.encode codec.rfc3339)) := fun t =>
    (Keyspace.list?_advance_of_lasting (h.lasting _ b.isList_processing) t).trans hlist
  refine does_command (fun _ => rfl) fun t₁ => ⟨(), r.advance t₁, rfl,
    does_command (fun _ => rfl) fun t₂ =>
      ⟨held.map (·.encode codec.rfc3339), r.advance (t₁ + t₂), ?_, ?_⟩⟩
  · rw [Keyspace.advance_advance]
    exact congrArg (·, r.advance (t₁ + t₂)) ((Keyspace.lrange_all _ _).trans (hat _))
  · cases hfind : (held.map (·.encode codec.rfc3339)).find? (mentions id) with
    | none =>
        refine does_pure ?_
        have hacked := acked_mirrors (h.advance (t₁ + t₂)) hown (hat _)
        rwa [acked, hfind] at hacked
    | some item =>
        refine does_last (fun _ => rfl) fun t₃ => ⟨(), ((r.advance (t₁ + t₂)).advance t₃).writeList
          (b.keys.processing b.workerId)
          ((held.map (·.encode codec.rfc3339)).erase item), ?_, ?_⟩
        · rw [Keyspace.advance_advance]
          have hrem := @Keyspace.lrem_of_list? _ _ _ _ item _ (hat (t₁ + t₂ + t₃))
          simp only [perform, hrem]
          rfl
        · rw [Keyspace.advance_advance]
          have hacked := acked_mirrors (h.advance (t₁ + t₂ + t₃)) hown (hat _)
          rwa [acked, hfind, ← erase_find hfind] at hacked

/-- `nack`: the message goes back to its queue. -/
theorem nack_mirrors (h : Mirrors b codec r s) (hown : OwnMention codec s m.id)
    (hplain : m.dedupKey = none) :
    Does queueOf 5 (b.nack codec m) r
      fun _ r' => Mirrors b codec r' ((s.removeProcessing m.id).enqueue m) :=
  does_then (ack_mirrors h hown) fun _ _ hacked => enqueue_mirrors hacked hplain

/-- `dead_letter`. -/
theorem deadLetter_mirrors (h : Mirrors b codec r s) (hown : OwnMention codec s m.id) :
    Does queueOf 5 (b.deadLetter codec m) r
      fun _ r' => Mirrors b codec r' ((s.removeProcessing m.id).pushDlq m) := by
  refine does_command (fun _ => rfl) fun t => ⟨(), r.advance t, rfl, ?_⟩
  refine does_then (ack_mirrors (h.advance t) hown) fun _ r₁ hacked =>
    does_last (fun _ => rfl) fun t₁ => ?_
  have hlist := (hacked.advance t₁).dlq m.queue
  refine ⟨(), (r₁.advance t₁).writeList (b.keys.dlq m.queue) (m.encode codec.rfc3339 ::
    texts codec.rfc3339 (((s.removeProcessing m.id).dlq.lookup m.queue).getD [])), ?_, ?_⟩
  · have hpush := @Keyspace.lpush_of_list? _ _ _ _ (m.encode codec.rfc3339) _ hlist
    simp only [perform, hpush]
    rfl
  · rw [← texts_append]
    exact (hacked.advance t₁).writeDlq m.queue _

/-- The length of a queue. -/
theorem queueLen_mirrors (h : Mirrors b codec r s) (name : String) :
    Does queueOf 2 (b.queueLen name) r
      fun n r' => n = s.queueLen name ∧ Mirrors b codec r' s := by
  refine does_command (fun _ => rfl) fun t =>
    ⟨(), r.advance t, rfl, does_last (fun _ => rfl) fun t₁ => ?_⟩
  have hlater := (h.advance t).advance t₁
  refine ⟨s.queueLen name, (r.advance t).advance t₁, ?_, rfl, hlater⟩
  have hlen : ((r.advance t).advance t₁).llen (b.keys.queue name) = .ok (s.queueLen name) := by
    rw [Keyspace.llen, hlater.queue name, MemoryBroker.queueLen]
    cases s.queues.lookup name <;> simp [texts, Except.map]
  exact congrArg (·, (r.advance t).advance t₁) hlen

/-- The length of a dead-letter queue. -/
theorem dlqLen_mirrors (h : Mirrors b codec r s) (name : String) :
    Does queueOf 2 (b.dlqLen name) r
      fun n r' => n = s.dlqLen name ∧ Mirrors b codec r' s := by
  refine does_command (fun _ => rfl) fun t =>
    ⟨(), r.advance t, rfl, does_last (fun _ => rfl) fun t₁ => ?_⟩
  have hlater := (h.advance t).advance t₁
  refine ⟨s.dlqLen name, (r.advance t).advance t₁, ?_, rfl, hlater⟩
  have hlen : ((r.advance t).advance t₁).llen (b.keys.dlq name) = .ok (s.dlqLen name) := by
    rw [Keyspace.llen, hlater.dlq name, MemoryBroker.dlqLen]
    cases s.dlq.lookup name <;> simp [texts, Except.map]
  exact congrArg (·, (r.advance t).advance t₁) hlen

/-- The message at the front of a queue is moved to the processing list. -/
theorem Mirrors.move (h : Mirrors b codec r s) {name : String} {ms : List TaskMessage}
    (hlookup : s.queues.lookup name = some (m :: ms)) (hnew : m.id ∉ s.processing) :
    ∃ r', r.lmove (b.keys.queue name) (b.keys.processing b.workerId) =
        .ok (some (m.encode codec.rfc3339), r') ∧
      Mirrors b codec r' { s with
        queues := s.queues.insert name ms
        processing := s.processing.insert m.id m } := by
  have hsource := h.queue name
  rw [hlookup, Option.getD_some, texts_cons] at hsource
  have hwritten := h.writeQueue name ms s.notify
  obtain ⟨held, hlist, hnodup, hheld⟩ := hwritten.processing
  have hfresh : m.id ∉ held.map (·.id) := by
    intro hmem
    obtain ⟨x, hx, hid⟩ := List.mem_map.mp hmem
    refine hnew (AList.lookup_isSome.mp ?_)
    rw [← hid, (hheld x).mp hx]
    rfl
  have hheld' : ∀ x, x ∈ m :: held ↔ (s.processing.insert m.id m).lookup x.id = some x := by
    intro x
    rw [List.mem_cons, hheld x]
    by_cases hid : x.id = m.id
    · rw [hid, AList.lookup_insert, AList.lookup_eq_none.mpr hnew]
      simp [eq_comm]
    · rw [AList.lookup_insert_ne hid]
      have hne : x ≠ m := fun heq => hid (congrArg TaskMessage.id heq)
      simp [hne]
  have hnodup' : ((m :: held).map (·.id)).Nodup := List.nodup_cons.mpr ⟨hfresh, hnodup⟩
  refine ⟨_, ?_, hwritten.writeProcessing hnodup' hheld'⟩
  unfold Keyspace.lmove
  rw [hsource]
  dsimp only [Except.bind]
  rw [List.getLast?_concat, List.dropLast_concat]
  dsimp only
  rw [hlist]
  rfl

/-- What `dequeue` needs of the queues: whatever is at a front can be read back, and is not
being processed. -/
def Ready (codec : RedisCodec σ) (s : MemoryBroker) : Prop :=
  ∀ name m ms, s.queues.lookup name = some (m :: ms) →
    codec.decodeMessage (m.encode codec.rfc3339) = .ok m ∧ m.id ∉ s.processing

/-- A queue that is passed over. -/
theorem answer_dequeue_cons {name : String} (names : List String) (timeout : Nat)
    (hnil : (s.queues.lookup name).getD [] = []) :
    s.answer (.dequeue (name :: names) timeout) = s.answer (.dequeue names timeout) := by
  have hscan : s.tryDequeue (name :: names) = s.tryDequeue names := by
    rw [MemoryBroker.tryDequeue]
    cases hlookup : s.queues.lookup name with
    | none => rfl
    | some ms =>
        rw [hlookup, Option.getD_some] at hnil
        rw [hnil]
  simp only [MemoryBroker.answer, hscan]

/-- A `dequeue` that has no time limit has to find a message in the first queue. -/
def AtOnce (s : MemoryBroker) : WorkerCall → Prop
  | .dequeue (name :: _) timeout => timeout = 0 → (s.queues.lookup name).getD [] ≠ []
  | _ => True

/-- BLMOVE waits for ever exactly if it has no time limit and the queue is empty. -/
theorem Mirrors.waits_iff (h : Mirrors b codec r s) (name : String) (timeout t : Nat) :
    RedisOp.waits (r.advance t)
        (.blmove (b.keys.queue name) (b.keys.processing b.workerId) timeout) = true ↔
      timeout = 0 ∧ (s.queues.lookup name).getD [] = [] := by
  rw [RedisOp.waits, (h.advance t).queue name]
  cases (s.queues.lookup name).getD [] with
  | nil => simp [texts]
  | cons m ms => simp [texts]

/-- The loop of `dequeue`, queue by queue. -/
theorem dequeueFrom_mirrors (h : Mirrors b codec r s) (hready : Ready codec s)
    (queues : List String) (timeout : Nat) (honce : AtOnce s (.dequeue queues timeout)) :
    Does queueOf queues.length (b.dequeueFrom codec timeout queues) r fun out r' =>
      out = (s.answer (.dequeue queues timeout)).1 ∧
        Mirrors b codec r' (s.answer (.dequeue queues timeout)).2 := by
  induction queues generalizing r with
  | nil => exact does_pure ⟨rfl, h⟩
  | cons name names ih =>
      have hwaits : ∀ t, RedisOp.waits (r.advance t)
          (.blmove (b.keys.queue name) (b.keys.processing b.workerId) timeout) = false := by
        intro t
        rw [Bool.eq_false_iff, ne_eq, h.waits_iff]
        exact fun hboth => honce hboth.1 hboth.2
      refine does_command hwaits fun t => ?_
      cases hqueue : (s.queues.lookup name).getD [] with
      | nil =>
          have hmove : (r.advance t).lmove (b.keys.queue name) (b.keys.processing b.workerId) =
              .ok (none, r.advance t) := by
            unfold Keyspace.lmove
            rw [(h.advance t).queue name, hqueue]
            rfl
          refine ⟨none, r.advance t, ?_, ?_⟩
          · simp only [perform, hmove]
            rfl
          · rw [answer_dequeue_cons names timeout hqueue]
            refine ih (h.advance t) ?_
            cases names with
            | nil => trivial
            | cons next rest => exact fun htimeout => absurd hqueue (honce htimeout)
      | cons m ms =>
          have hlookup : s.queues.lookup name = some (m :: ms) := by
            cases hsome : s.queues.lookup name with
            | none =>
                rw [hsome] at hqueue
                cases hqueue
            | some ms' =>
                rw [hsome] at hqueue
                exact congrArg some hqueue
          obtain ⟨hdecode, hnew⟩ := hready name m ms hlookup
          obtain ⟨r', hmove, hmoved⟩ := (h.advance t).move hlookup hnew
          refine ⟨some (m.encode codec.rfc3339), r', ?_, ?_⟩
          · simp only [perform, hmove]
            rfl
          · have hanswer : s.answer (.dequeue (name :: names) timeout) =
                (some m, { s with
                  queues := s.queues.insert name ms
                  processing := s.processing.insert m.id m }) := by
              simp only [MemoryBroker.answer, MemoryBroker.tryDequeue, hlookup]
            rw [hanswer]
            simp only [hdecode]
            exact does_pure ⟨rfl, hmoved⟩

theorem dequeue_mirrors (h : Mirrors b codec r s) (hready : Ready codec s)
    (queues : List String) (timeout : Nat) (honce : AtOnce s (.dequeue queues timeout)) :
    Does queueOf (queues.length + 1) (b.dequeue codec queues timeout) r fun out r' =>
      out = (s.answer (.dequeue queues timeout)).1 ∧
        Mirrors b codec r' (s.answer (.dequeue queues timeout)).2 :=
  does_command (fun _ => rfl) fun t =>
    ⟨(), r.advance t, rfl, dequeueFrom_mirrors (h.advance t) hready queues timeout honce⟩

/-- A `dequeue` that returns, its commands having come through, has not waited for ever. -/
theorem dequeue_atOnce (h : Mirrors b codec r s) {queues : List String} {timeout : Nat}
    {os : List Transit} {tr : List (Event (commands σ))} {out : TaskResult (Option TaskMessage)}
    {r' : Keyspace σ} (hos : ∀ o ∈ os, o.failure = none)
    (hrun : (server queueOf).run os (b.dequeue codec queues timeout).run r = some (tr, out, r')) :
    AtOnce s (.dequeue queues timeout) := by
  cases queues with
  | nil => trivial
  | cons name names =>
      obtain ⟨o, rest, rfl, ⟨tail, -, rfl, hrest⟩ | ⟨e, -, -, hlost, -⟩⟩ := run_conn hrun
      · obtain ⟨o₁, rest₁, ans, r₁, tail₁, rfl, hrespond, -⟩ := Service.run_call_iff.mp
          (show (server queueOf).run rest (.call (.blmove _ _ timeout) _) _ = some (tail, out, r')
            from hrest)
        have harrives : arrives o₁.failure = true := by
          rw [hos o₁ (List.mem_cons_of_mem _ List.mem_cons_self)]
          rfl
        have hwaits := (server_some hrespond).1 harrives
        rw [Keyspace.advance_advance, Bool.eq_false_iff, ne_eq, h.waits_iff] at hwaits
        exact fun htimeout hnil => hwaits ⟨htimeout, hnil⟩
      · exact absurd (hos o List.mem_cons_self) hlost

/-! ## A worker that calls either broker -/

/-- The methods of the broker that `WorkerCall` names. -/
def method (b : RedisBroker) (codec : RedisCodec σ) : (c : WorkerCall) → Attempt σ c.Ans
  | .enqueue m => b.enqueue codec m
  | .dequeue queues timeout => b.dequeue codec queues timeout
  | .ack id => b.ack id
  | .nack m => b.nack codec m
  | .deadLetter m => b.deadLetter codec m
  | .queueLen queue => b.queueLen queue
  | .dlqLen queue => b.dlqLen queue

/-- How many commands a call sends at most, of a message without a dedup key. -/
def commandsOf : WorkerCall → Nat
  | .enqueue _ => 2
  | .dequeue queues _ => queues.length + 1
  | .ack _ => 3
  | .nack _ => 5
  | .deadLetter _ => 5
  | .queueLen _ => 2
  | .dlqLen _ => 2

/-- The broker, called by one worker.  Every call comes with what becomes of its
commands. -/
abbrev alone (b : RedisBroker) (codec : RedisCodec σ)
    (queueOf : String → Except CommandError String) : Service workerCalls :=
  ⟨Keyspace σ, List Transit, fun os r c =>
    ((server queueOf).run os (b.method codec c).run r).map fun p => (p.2.1, p.2.2)⟩

/-- A call that is made of both brokers: what its polls are told about its time in memory,
and what becomes of its commands in Redis. -/
structure SharedCall where
  polls : List Bool
  transits : List Transit
  call : WorkerCall

namespace SharedCall

def memory (c : SharedCall) : List Bool × WorkerCall := (c.polls, c.call)

def redis (c : SharedCall) : List Transit × WorkerCall := (c.transits, c.call)

end SharedCall

/-- Every command of the call comes through. -/
def Arrives (c : SharedCall) : Prop :=
  commandsOf c.call ≤ c.transits.length ∧ ∀ o ∈ c.transits, o.failure = none

variable (queueOf) in
/-- One call of either broker: the same answer, and the same messages afterwards. -/
theorem method_mirrors (h : Mirrors b codec r s) (c : WorkerCall)
    (hplain : ∀ m, c.message = some m → m.dedupKey = none)
    (hown : ∀ id, c.settles = some id → OwnMention codec s id) (hready : Ready codec s)
    (honce : AtOnce s c) :
    Does queueOf (commandsOf c) (b.method codec c) r fun a r' =>
      a = (s.answer c).1 ∧ Mirrors b codec r' (s.answer c).2 := by
  cases c with
  | enqueue m => exact (enqueue_mirrors h (hplain m rfl)).weaken le_rfl fun _ _ hr => ⟨rfl, hr⟩
  | dequeue queues timeout => exact dequeue_mirrors h hready queues timeout honce
  | ack id => exact (ack_mirrors h (hown id rfl)).weaken le_rfl fun _ _ hr => ⟨rfl, hr⟩
  | nack m =>
      exact (nack_mirrors h (hown m.id rfl) (hplain m rfl)).weaken le_rfl fun _ _ hr => ⟨rfl, hr⟩
  | deadLetter m =>
      exact (deadLetter_mirrors h (hown m.id rfl)).weaken le_rfl fun _ _ hr => ⟨rfl, hr⟩
  | queueLen queue => exact queueLen_mirrors h queue
  | dlqLen queue => exact dlqLen_mirrors h queue

/-- A call that is answered has not waited for ever. -/
theorem Mirrors.atOnce (h : Mirrors b codec r s) (c : WorkerCall) {os : List Transit}
    {p : TaskResult c.Ans × Keyspace σ} (hos : ∀ o ∈ os, o.failure = none)
    (hrespond : (b.alone codec queueOf).respond os r c = some p) : AtOnce s c := by
  cases c with
  | dequeue queues timeout =>
      obtain ⟨⟨tr, out, r'⟩, hrun, -⟩ := Option.map_eq_some_iff.mp hrespond
      exact dequeue_atOnce h hos hrun
  | _ => trivial

/-! ## Whole histories -/

/-- What a worker does: its messages have no dedup key, those it enqueues have different
identifiers, it settles only messages that it holds, and no text mentions the identifier
of another message that is settled. -/
structure Proper (codec : RedisCodec σ) (history : List (Event workerCalls)) : Prop where
  plain : ∀ e ∈ history, ∀ m, e.op.message = some m → m.dedupKey = none
  distinct : history.Pairwise fun e e' => ∀ m m', e.op.enqueued = some m →
    e'.op.enqueued = some m' → m.id ≠ m'.id
  held : ∀ before e after, history = before ++ e :: after → ∀ id, e.op.settles = some id →
    InHand before id
  apart : ∀ e ∈ history, ∀ m, e.op.message = some m → ∀ e' ∈ history, ∀ id,
    e'.op.settles = some id → mentions id (m.encode codec.rfc3339) = true → m.id = id

/-- Each list of the store, read from right to left, decodes to the queue in memory, and
the processing list holds the messages of the processing map, each once. -/
structure Reflects (b : RedisBroker) (codec : RedisCodec σ) (r : Keyspace σ) (s : MemoryBroker) :
    Prop where
  queue : ∀ name, ∃ items, r.list? (b.keys.queue name) = .ok items ∧
    items.reverse.map codec.decodeMessage = ((s.queues.lookup name).getD []).map .ok
  dlq : ∀ name, ∃ items, r.list? (b.keys.dlq name) = .ok items ∧
    items.reverse.map codec.decodeMessage = ((s.dlq.lookup name).getD []).map .ok
  processing : ∃ (items : List String) (held : List TaskMessage),
    r.list? (b.keys.processing b.workerId) = .ok items ∧
      items.map codec.decodeMessage = held.map .ok ∧ held.Nodup ∧
      ∀ i m, s.processing.lookup i = some m ↔ m ∈ held ∧ m.id = i

omit [LinearOrder σ] in
/-- The messages of a queue are read back from their texts. -/
theorem map_decode_iff {ms : List TaskMessage} :
    (ms.map (·.encode codec.rfc3339)).map codec.decodeMessage = ms.map .ok ↔
      ∀ m ∈ ms, codec.decodeMessage (m.encode codec.rfc3339) = .ok m := by
  rw [List.map_map, List.map_inj_left]
  rfl

/-- Lists that hold the texts of the messages reflect them if these can be read. -/
theorem Mirrors.reflects {P : TaskMessage → Prop} (h : Mirrors b codec r s) (hknows : s.Knows P)
    (hlegible : ∀ m, P m → codec.decodeMessage (m.encode codec.rfc3339) = .ok m) :
    Reflects b codec r s := by
  have hlist : ∀ (t : Table String (List TaskMessage)) (name : String),
      (∀ name ms, t.lookup name = some ms → ∀ m ∈ ms, P m) →
        (texts codec.rfc3339 ((t.lookup name).getD [])).reverse.map codec.decodeMessage =
          ((t.lookup name).getD []).map .ok := by
    intro t name ht
    rw [texts, List.reverse_reverse]
    refine map_decode_iff.mpr fun m hm => hlegible m ?_
    cases hlookup : t.lookup name with
    | none =>
        rw [hlookup] at hm
        cases hm
    | some ms =>
        rw [hlookup] at hm
        exact ht name ms hlookup m hm
  obtain ⟨held, hprocessing, hnodup, hheld⟩ := h.processing
  refine ⟨fun name => ⟨_, h.queue name, hlist s.queues name hknows.queued⟩,
    fun name => ⟨_, h.dlq name, hlist s.dlq name hknows.dead⟩,
    _, held, hprocessing, ?_, hnodup.of_map, fun i m => ?_⟩
  · exact map_decode_iff.mpr fun m hm =>
      hlegible m (hknows.held m.id m ((hheld m).mp hm)).1
  · constructor
    · intro hlookup
      have hid := (hknows.held i m hlookup).2
      subst hid
      exact ⟨(hheld m).mpr hlookup, rfl⟩
    · rintro ⟨hm, rfl⟩
      exact (hheld m).mp hm

/-- Lists that hold the texts of the messages and reflect them can be read. -/
theorem Mirrors.reads (h : Mirrors b codec r s) (hreflects : Reflects b codec r s)
    {name : String} {ms : List TaskMessage}
    (hms : s.queues.lookup name = some ms ∨ s.dlq.lookup name = some ms) (hm : m ∈ ms) :
    codec.decodeMessage (m.encode codec.rfc3339) = .ok m := by
  rcases hms with hlookup | hlookup
  · obtain ⟨items, hlist, hread⟩ := hreflects.queue name
    obtain rfl := Except.ok.inj (hlist.symm.trans (h.queue name))
    rw [texts, List.reverse_reverse, hlookup] at hread
    exact map_decode_iff.mp hread m hm
  · obtain ⟨items, hlist, hread⟩ := hreflects.dlq name
    obtain rfl := Except.ok.inj (hlist.symm.trans (h.dlq name))
    rw [texts, List.reverse_reverse, hlookup] at hread
    exact map_decode_iff.mp hread m hm

/-- The message of a call is in a queue afterwards. -/
theorem mem_answer {c : WorkerCall} (hc : c.message = some m) (s : MemoryBroker) :
    ∃ name ms, ((s.answer c).2.queues.lookup name = some ms ∨
      (s.answer c).2.dlq.lookup name = some ms) ∧ m ∈ ms := by
  cases c with
  | enqueue m' =>
      cases hc
      exact ⟨m.queue, _, .inl (AList.lookup_insert _), by simp⟩
  | nack m' =>
      cases hc
      exact ⟨m.queue, _, .inl (AList.lookup_insert _), by simp⟩
  | deadLetter m' =>
      cases hc
      exact ⟨m.queue, _, .inr (AList.lookup_insert _), by simp⟩
  | dequeue queues timeout => cases hc
  | ack id => cases hc
  | queueLen queue => cases hc
  | dlqLen queue => cases hc

/-- A store without these lists is like a broker that is new. -/
theorem mirrors_new (hempty : ∀ key, b.IsList key → r.keys key = none) :
    Mirrors b codec r .new := by
  have hnone : ∀ key, b.IsList key → r.list? key = .ok [] := by
    intro key hkey
    have hlasting : r.Lasting key := by
      intro e he
      rw [hempty key hkey] at he
      cases he
    unfold Keyspace.list?
    rw [Keyspace.get_of_lasting hlasting, hempty key hkey]
    rfl
  refine ⟨fun key hkey e he => ?_, fun name => hnone _ (b.isList_queue name),
    fun name => hnone _ (b.isList_dlq name), [], hnone _ b.isList_processing, List.nodup_nil, ?_⟩
  · rw [hempty key hkey] at he
    cases he
  · intro m
    refine iff_of_false List.not_mem_nil fun hlookup => ?_
    cases hlookup

/-- What is kept along a history: the two brokers have the same messages, all of them
legible and apart from every identifier that will be settled, none of them twice, and
those the worker holds are in the map. -/
structure Related (b : RedisBroker) (codec : RedisCodec σ) (whole before : List (Event workerCalls))
    (s : MemoryBroker) (r : Keyspace σ) : Prop where
  mirrors : Mirrors b codec r s
  knows : s.Knows fun m => codec.decodeMessage (m.encode codec.rfc3339) = .ok m ∧
    ∀ e ∈ whole, ∀ id, e.op.settles = some id →
      mentions id (m.encode codec.rfc3339) = true → m.id = id
  sole : s.Sole fun i => ∃ e ∈ before, ∃ m, e.op.enqueued = some m ∧ m.id = i
  held : ∀ id, InHand before id → id ∈ s.processing

variable {whole before after : List (Event workerCalls)}

theorem related_new {r₀ : Keyspace σ} (hempty : ∀ key, b.IsList key → r₀.keys key = none) :
    Related b codec whole [] .new r₀ := by
  refine ⟨mirrors_new hempty, MemoryBroker.knows_new, MemoryBroker.sole_new, ?_⟩
  rintro id ⟨before, e, after, m, hsplit, -⟩
  cases before <;> cases hsplit

theorem Related.notify (h : Related b codec whole before s r) (n : Notify) :
    Related b codec whole before { s with notify := n } r :=
  ⟨⟨h.mirrors.lasting, h.mirrors.queue, h.mirrors.dlq, h.mirrors.processing⟩,
    h.knows.notify n, h.sole.notify n, h.held⟩

/-- What a call needs of the messages there are. -/
theorem Related.ready (h : Related b codec whole before s r) : Ready codec s :=
  fun name m ms hlookup =>
    ⟨(h.knows.queued name (m :: ms) hlookup m List.mem_cons_self).1, h.sole.front hlookup⟩

theorem Related.ownMention {e : Event workerCalls} (h : Related b codec whole before s r)
    (he : e ∈ whole) {id : TaskId} (hid : e.op.settles = some id) : OwnMention codec s id :=
  fun i m hlookup => (h.knows.held i m hlookup).1.2 e he id hid

variable (queueOf) in
/-- One call that does not wait is answered by Redis as by the memory; the lists hold the
texts of the messages afterwards. -/
theorem Related.respond {e : Event workerCalls} {os : List Transit}
    (hproper : Proper codec whole) (he : e ∈ whole) (hlength : commandsOf e.op ≤ os.length)
    (hos : ∀ o ∈ os, o.failure = none) (h : Related b codec whole before s r)
    (honce : AtOnce s e.op) :
    ∃ r', (b.alone codec queueOf).respond os r e.op = some (.ok (s.answer e.op).1, r') ∧
      Mirrors b codec r' (s.answer e.op).2 := by
  obtain ⟨tr, a, r', hrun, -, rfl, hmirrors⟩ := method_mirrors queueOf h.mirrors e.op
    (hproper.plain e he) (fun id hid => h.ownMention he hid) h.ready honce os hlength hos
  refine ⟨r', ?_, hmirrors⟩
  show ((server queueOf).run os (b.method codec e.op).run r).map _ = _
  rw [hrun]
  rfl

/-- One call keeps it, if its message can be read back. -/
theorem Related.step {e : Event workerCalls} {r' : Keyspace σ}
    (hsplit : before ++ e :: after = whole) (hproper : Proper codec whole)
    (hreads : ∀ m, e.op.message = some m → codec.decodeMessage (m.encode codec.rfc3339) = .ok m)
    (h : Related b codec whole before s r) (hres : e.res = .ok (s.answer e.op).1)
    (hmirrors : Mirrors b codec r' (s.answer e.op).2) :
    Related b codec whole (before ++ [e]) (s.answer e.op).2 r' := by
  have he : e ∈ whole := by
    rw [← hsplit]
    exact List.mem_append.mpr (.inr List.mem_cons_self)
  refine ⟨hmirrors, ?_, ?_, ?_⟩
  · exact h.knows.answer e.op fun m hm => ⟨hreads m hm, hproper.apart e he m hm⟩
  · have hnew : ∀ m, e.op.enqueued = some m →
        ¬ ∃ e' ∈ before, ∃ m', e'.op.enqueued = some m' ∧ m'.id = m.id := by
      rintro m hm ⟨e', he', m', hm', hid⟩
      have hpairs := hproper.distinct
      rw [← hsplit] at hpairs
      exact (List.pairwise_append.mp hpairs).2.2 e' he' e List.mem_cons_self m' m hm' hm hid
    have hheld : ∀ m, e.op = .nack m → m.id ∈ s.processing := fun m hm =>
      h.held m.id (hproper.held before e after hsplit.symm m.id (by rw [hm]; rfl))
    refine (h.sole.answer e.op hnew hheld).shrink ?_ fun i => le_refl _
    rintro i (⟨e', he', m, hm, hid⟩ | ⟨m, hm, hid⟩)
    · exact ⟨e', List.mem_append.mpr (.inl he'), m, hm, hid⟩
    · exact ⟨e, List.mem_append.mpr (.inr List.mem_cons_self), m, hm, hid⟩
  · intro id hid
    rcases inHand_snoc hid with ⟨m, hout, rfl⟩ | ⟨hbefore, hkept⟩
    · obtain ⟨op, res⟩ := e
      obtain rfl : res = .ok (s.answer op).1 := hres
      exact MemoryBroker.mem_processing_of_handedOut hout
    · exact MemoryBroker.mem_processing_answer e.op (h.held id hbefore) hkept

/-! ## The refinement -/

/-- The call can be mirrored after these: its message is read back from its text, and if it
is a `dequeue` without a time limit, the first queue has a message. -/
def Mirrorable (codec : RedisCodec σ) (done : List SharedCall) (c : SharedCall) : Prop :=
  (∀ m, c.call.message = some m → codec.decodeMessage (m.encode codec.rfc3339) = .ok m) ∧
    ∀ history s, MemoryBroker.alone.serve (done.map SharedCall.memory) .new = some (history, s) →
      AtOnce s c.call

/-- After any number of the calls both brokers have given the same answers, and the lists
reflect the memory. -/
def Refines (b : RedisBroker) (codec : RedisCodec σ)
    (queueOf : String → Except CommandError String) (todo : List SharedCall) (r₀ : Keyspace σ) :
    Prop :=
  ∀ done rest, todo = done ++ rest → ∃ history s r,
    MemoryBroker.alone.serve (done.map SharedCall.memory) .new = some (history, s) ∧
    (b.alone codec queueOf).serve (done.map SharedCall.redis) r₀ = some (history, r) ∧
    Reflects b codec r s

section Refinement

variable {todo : List SharedCall} {r₀ : Keyspace σ}

/-- The next call, in memory. -/
theorem memory_next {done rest : List SharedCall} {c : SharedCall}
    (hmemory : MemoryBroker.alone.serve ((done ++ c :: rest).map SharedCall.memory) .new =
      some (whole, s)) :
    ∃ before s₁ s₂ after,
      MemoryBroker.alone.serve (done.map SharedCall.memory) .new = some (before, s₁) ∧
      MemoryBroker.alone.serve ((done ++ [c]).map SharedCall.memory) .new =
        some (before ++ [⟨c.call, .ok (s₁.answer c.call).1⟩], s₂) ∧
      (∃ n, s₂ = { (s₁.answer c.call).2 with notify := n }) ∧
      before ++ ⟨c.call, .ok (s₁.answer c.call).1⟩ :: after = whole := by
  rw [List.map_append, List.map_cons] at hmemory
  obtain ⟨before, s₁, tail, hdone, hrest, rfl⟩ := Service.serve_append hmemory
  obtain ⟨res, s₂, after, hrespond, -, rfl⟩ := Service.serve_cons_iff.mp
    (show MemoryBroker.alone.serve ((c.polls, c.call) :: rest.map SharedCall.memory) s₁ =
      some (tail, s) from hrest)
  obtain ⟨rfl, hstate⟩ := MemoryBroker.alone_respond hrespond
  refine ⟨before, s₁, s₂, after, hdone, ?_, hstate, rfl⟩
  rw [List.map_append]
  exact Service.serve_snoc_iff.mpr ⟨before, s₁, _, hdone, hrespond, rfl⟩

variable (queueOf) in
/-- Calls that can be mirrored: both brokers answer them alike, and what relates them is
kept. -/
theorem related_of_mirrorable (hempty : ∀ key, b.IsList key → r₀.keys key = none)
    (harrives : ∀ c ∈ todo, Arrives c)
    (hmemory : MemoryBroker.alone.serve (todo.map SharedCall.memory) .new = some (whole, s))
    (hproper : Proper codec whole) (done : List SharedCall) :
    ∀ rest, todo = done ++ rest →
      (∀ done' c rest', done = done' ++ c :: rest' → Mirrorable codec done' c) →
      ∃ before s₁ r₁,
        MemoryBroker.alone.serve (done.map SharedCall.memory) .new = some (before, s₁) ∧
        (b.alone codec queueOf).serve (done.map SharedCall.redis) r₀ = some (before, r₁) ∧
        Related b codec whole before s₁ r₁ := by
  induction done using List.reverseRecOn with
  | nil => exact fun _ _ _ => ⟨[], .new, r₀, rfl, rfl, related_new hempty⟩
  | append_singleton done c ih =>
      intro rest htodo hmirrorable
      rw [List.append_assoc, List.singleton_append] at htodo
      have hearlier : ∀ done' c' rest', done = done' ++ c' :: rest' → Mirrorable codec done' c' := by
        rintro done' c' rest' rfl
        exact hmirrorable done' c' (rest' ++ [c]) (by simp)
      obtain ⟨before, s₁, r₁, hdone, hredis, hrelated⟩ := ih (c :: rest) htodo hearlier
      obtain ⟨hreads, honce⟩ := hmirrorable done c [] rfl
      obtain ⟨hlength, hos⟩ := harrives c (by rw [htodo]; simp)
      rw [htodo] at hmemory
      obtain ⟨before', s₁', s₂, after, hdone', hserved, ⟨n, hstate⟩, hsplit⟩ := memory_next hmemory
      obtain ⟨rfl, rfl⟩ : before = before' ∧ s₁ = s₁' :=
        Prod.mk.inj (Option.some.inj (hdone.symm.trans hdone'))
      have he : (⟨c.call, .ok (s₁.answer c.call).1⟩ : Event workerCalls) ∈ whole := by
        rw [← hsplit]
        exact List.mem_append.mpr (.inr List.mem_cons_self)
      obtain ⟨r₂, hrespond, hmirrors⟩ := hrelated.respond queueOf hproper he hlength hos
        (honce before s₁ hdone)
      refine ⟨_, s₂, r₂, hserved, ?_, ?_⟩
      · rw [List.map_append]
        exact Service.serve_snoc_iff.mpr ⟨before, r₁, _, hredis, hrespond, rfl⟩
      · rw [hstate]
        exact (hrelated.step hsplit hproper hreads rfl hmirrors).notify n

/-- A call that both brokers answer alike, with the lists reflecting the memory afterwards,
could be mirrored. -/
theorem mirrorable_of_refines (hempty : ∀ key, b.IsList key → r₀.keys key = none)
    (harrives : ∀ c ∈ todo, Arrives c)
    (hmemory : MemoryBroker.alone.serve (todo.map SharedCall.memory) .new = some (whole, s))
    (hproper : Proper codec whole) (hrefines : Refines b codec queueOf todo r₀)
    {done rest : List SharedCall} {c : SharedCall} (htodo : todo = done ++ c :: rest)
    (hearlier : ∀ done' c' rest', done = done' ++ c' :: rest' → Mirrorable codec done' c') :
    Mirrorable codec done c := by
  obtain ⟨before, s₁, r₁, hdone, hredis, hrelated⟩ :=
    related_of_mirrorable queueOf hempty harrives hmemory hproper done (c :: rest)
      htodo hearlier
  obtain ⟨hlength, hos⟩ := harrives c (by rw [htodo]; simp)
  rw [htodo] at hmemory
  obtain ⟨before', s₁', s₂, after, hdone', hserved, ⟨n, hstate⟩, hsplit⟩ := memory_next hmemory
  obtain ⟨rfl, rfl⟩ : before = before' ∧ s₁ = s₁' :=
    Prod.mk.inj (Option.some.inj (hdone.symm.trans hdone'))
  obtain ⟨history, s₃, r₂, hserved', hredis', hreflects⟩ :=
    hrefines (done ++ [c]) rest (by simpa using htodo)
  obtain ⟨rfl, rfl⟩ := Prod.mk.inj (Option.some.inj (hserved.symm.trans hserved'))
  rw [List.map_append] at hredis'
  obtain ⟨history₁, r₁', res, hfirst, hrespond, -⟩ := Service.serve_snoc_iff.mp
    (show (b.alone codec queueOf).serve (done.map SharedCall.redis ++ [(c.transits, c.call)]) r₀ =
      some (_, r₂) from hredis')
  obtain rfl : r₁ = r₁' := (Prod.mk.inj (Option.some.inj (hredis.symm.trans hfirst))).2
  have honce := hrelated.mirrors.atOnce c.call hos hrespond
  have he : (⟨c.call, .ok (s₁.answer c.call).1⟩ : Event workerCalls) ∈ whole := by
    rw [← hsplit]
    exact List.mem_append.mpr (.inr List.mem_cons_self)
  obtain ⟨r₂', hrespond', hmirrors⟩ := hrelated.respond queueOf hproper he hlength hos honce
  obtain rfl : r₂ = r₂' := (Prod.mk.inj (Option.some.inj (hrespond.symm.trans hrespond'))).2
  refine ⟨fun m hm => ?_, fun history s' hmemory' => ?_⟩
  · obtain ⟨name, ms, hms, hmem⟩ := mem_answer hm s₁
    subst hstate
    have hmirrors' : Mirrors b codec r₂ { (s₁.answer c.call).2 with notify := n } :=
      ⟨hmirrors.lasting, hmirrors.queue, hmirrors.dlq, hmirrors.processing⟩
    exact hmirrors'.reads hreflects hms hmem
  · obtain ⟨-, rfl⟩ := Prod.mk.inj (Option.some.inj (hdone.symm.trans hmemory'))
    exact honce

/-- When the broker in Redis refines the broker in memory.  One worker makes any calls
it may make, every command comes through, and the store has none of the lists at first:
both brokers answer every call alike, with the lists reflecting the memory all along,
exactly if every message is read back from its text and no `dequeue` without a time limit
meets an empty queue first. -/
theorem redis_refines_memory_iff (hempty : ∀ key, b.IsList key → r₀.keys key = none)
    (harrives : ∀ c ∈ todo, Arrives c)
    (hmemory : MemoryBroker.alone.serve (todo.map SharedCall.memory) .new = some (whole, s))
    (hproper : Proper codec whole) :
    Refines b codec queueOf todo r₀ ↔
      ∀ done c rest, todo = done ++ c :: rest → Mirrorable codec done c := by
  constructor
  · intro hrefines
    have hall : ∀ n done c rest, done.length < n → todo = done ++ c :: rest →
        Mirrorable codec done c := by
      intro n
      induction n with
      | zero => exact fun _ _ _ hlt => absurd hlt (Nat.not_lt_zero _)
      | succ n ih =>
          intro done c rest hlt htodo
          refine mirrorable_of_refines hempty harrives hmemory hproper hrefines htodo ?_
          rintro done' c' rest' rfl
          refine ih done' c' (rest' ++ c :: rest) ?_ (by rw [htodo]; simp)
          rw [List.length_append, List.length_cons] at hlt
          omega
    exact fun done c rest => hall (done.length + 1) done c rest (Nat.lt_succ_self _)
  · intro hmirrorable done rest htodo
    obtain ⟨before, s₁, r₁, hdone, hredis, hrelated⟩ :=
      related_of_mirrorable queueOf hempty harrives hmemory hproper done rest htodo
        (by
          rintro done' c rest' rfl
          exact hmirrorable done' c (rest' ++ rest) (by rw [htodo]; simp))
    exact ⟨before, s₁, r₁, hdone, hredis,
      hrelated.mirrors.reflects hrelated.knows fun m hm => hm.1⟩

end Refinement

/-! ## One message, twice -/

/-- A codec that reads back the text of one message. -/
def lentCodec : RedisCodec Nat :=
  ⟨fun _ => "", fun text =>
    if text = (plainMessage ⟨1⟩).encode (fun _ => "") then .ok (plainMessage ⟨1⟩)
    else .error "another message", Int.toNat⟩

theorem lentCodec_reads : lentCodec.decodeMessage ((plainMessage ⟨1⟩).encode lentCodec.rfc3339) =
    .ok (plainMessage ⟨1⟩) := by simp [lentCodec]

/-- A message is enqueued, taken without a time limit, given back, taken again after an
empty queue, and buried. -/
def lentHistory : List (Event workerCalls) :=
  [⟨.enqueue (plainMessage ⟨1⟩), .ok ()⟩, ⟨.dequeue ["q"] 0, .ok (some (plainMessage ⟨1⟩))⟩,
    ⟨.nack (plainMessage ⟨1⟩), .ok ()⟩, ⟨.dequeue ["p", "q"] 1, .ok (some (plainMessage ⟨1⟩))⟩,
    ⟨.deadLetter (plainMessage ⟨1⟩), .ok ()⟩]

/-- The calls, with five commands for each. -/
def lentCalls : List SharedCall := lentHistory.map fun e => ⟨[false], punctual 5, e.op⟩

theorem lentHistory_served : ∃ s, MemoryBroker.alone.serve (lentCalls.map SharedCall.memory) .new =
    some (lentHistory, s) := ⟨_, rfl⟩

theorem lentCalls_arrive : ∀ c ∈ lentCalls, Arrives c := by
  intro c hc
  obtain ⟨e, he, rfl⟩ := List.mem_map.mp hc
  refine ⟨?_, fun o ho => ?_⟩
  · have hfew : ∀ e ∈ lentHistory, commandsOf e.op ≤ 5 := by
      simp [lentHistory, commandsOf]
    exact hfew e he
  · rw [List.eq_of_mem_replicate ho]

/-- The places of a history of five calls. -/
theorem split_five {α : Type} {x₁ x₂ x₃ x₄ x₅ x : α} {before after : List α}
    (h : [x₁, x₂, x₃, x₄, x₅] = before ++ x :: after) :
    (before = [] ∧ x = x₁) ∨ (before = [x₁] ∧ x = x₂) ∨ (before = [x₁, x₂] ∧ x = x₃) ∨
      (before = [x₁, x₂, x₃] ∧ x = x₄) ∨ (before = [x₁, x₂, x₃, x₄] ∧ x = x₅) := by
  rcases before with _ | ⟨y₁, _ | ⟨y₂, _ | ⟨y₃, _ | ⟨y₄, _ | ⟨y₅, before⟩⟩⟩⟩⟩ <;> simp_all

theorem lentHistory_proper : Proper lentCodec lentHistory where
  plain := by
    simp [lentHistory, WorkerCall.message, plainMessage, TaskMessage.new]
  distinct := by
    simp [lentHistory, WorkerCall.enqueued]
  held := by
    have hlast : ∀ (before : List (Event workerCalls)) queues timeout,
        InHand (before ++ [⟨.dequeue queues timeout, .ok (some (plainMessage ⟨1⟩))⟩]) ⟨1⟩ :=
      fun before queues timeout => ⟨before, _, [], plainMessage ⟨1⟩, rfl, rfl, rfl,
        fun e' he' => (List.not_mem_nil he').elim⟩
    intro before e after hsplit id hid
    rcases split_five hsplit with ⟨rfl, rfl⟩ | ⟨rfl, rfl⟩ | ⟨rfl, rfl⟩ | ⟨rfl, rfl⟩ | ⟨rfl, rfl⟩
    · cases hid
    · cases hid
    · cases hid
      exact hlast [_] _ _
    · cases hid
    · cases hid
      exact hlast [_, _, _] _ _
  apart := by
    simp [lentHistory, WorkerCall.message, WorkerCall.settles, plainMessage, TaskMessage.new]

theorem lentCalls_mirrorable (done : List SharedCall) (c : SharedCall) (rest : List SharedCall)
    (h : lentCalls = done ++ c :: rest) : Mirrorable lentCodec done c := by
  refine ⟨fun m hm => ?_, fun history s hmemory => ?_⟩
  · have hplain : m = plainMessage ⟨1⟩ := by
      rcases split_five h with ⟨-, rfl⟩ | ⟨-, rfl⟩ | ⟨-, rfl⟩ | ⟨-, rfl⟩ | ⟨-, rfl⟩ <;>
        cases hm <;> rfl
    rw [hplain]
    exact lentCodec_reads
  · rcases split_five h with ⟨-, rfl⟩ | ⟨rfl, rfl⟩ | ⟨-, rfl⟩ | ⟨-, rfl⟩ | ⟨-, rfl⟩
    · trivial
    · cases hmemory
      exact fun _ hnil => by cases hnil
    · trivial
    · exact fun htimeout => by cases htimeout
    · trivial

/-- In a history of five calls both brokers hand the message out twice. -/
theorem redis_refines_memory_lent :
    Refines plainBroker lentCodec (fun _ => .ok "q") lentCalls (Keyspace.empty 0) := by
  obtain ⟨s, hserved⟩ := lentHistory_served
  exact (redis_refines_memory_iff (fun _ _ => rfl) lentCalls_arrive hserved lentHistory_proper).mpr
    lentCalls_mirrorable

/-- A `dequeue` without a time limit, from an empty queue. -/
def endlessCalls : List SharedCall := [⟨[false, true], punctual 5, .dequeue ["q"] 0⟩]

/-- Redis waits for ever where the broker in memory returns at once. -/
theorem dequeue_waits_for_ever :
    (∀ c ∈ endlessCalls, Arrives c) ∧
      (∃ s, MemoryBroker.alone.serve (endlessCalls.map SharedCall.memory) .new =
        some ([⟨.dequeue ["q"] 0, .ok none⟩], s)) ∧
      Proper lentCodec [⟨.dequeue ["q"] 0, .ok none⟩] ∧
      (plainBroker.alone lentCodec fun _ => .ok "q").serve (endlessCalls.map SharedCall.redis)
        (Keyspace.empty 0) = none ∧
      ¬ Refines plainBroker lentCodec (fun _ => .ok "q") endlessCalls (Keyspace.empty 0) := by
  have hnone : (plainBroker.alone lentCodec fun _ => .ok "q").serve
      (endlessCalls.map SharedCall.redis) (Keyspace.empty 0) = none := rfl
  refine ⟨?_, ⟨_, rfl⟩, ?_, hnone, ?_⟩
  · intro c hc
    obtain rfl := List.mem_singleton.mp hc
    exact ⟨by decide, fun o ho => by rw [List.eq_of_mem_replicate ho]⟩
  · exact ⟨by simp [WorkerCall.message], by simp, by
      intro before e after hsplit id hid
      rcases before with _ | ⟨y, before⟩
      · cases hsplit
        cases hid
      · simp at hsplit, by simp [WorkerCall.message]⟩
  · intro hrefines
    obtain ⟨history, s, r, -, hserved, -⟩ := hrefines endlessCalls [] (List.append_nil _).symm
    rw [hnone] at hserved
    cases hserved

end RedisBroker

end Kojin.Redis
