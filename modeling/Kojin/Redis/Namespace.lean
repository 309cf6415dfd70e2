/-
  Redis/Namespace.lean --- what the keys of a deployment hold, whoever writes them.

  Brokers, workers, backends and readers of one deployment share a Redis, without locks
  or transactions, and nothing on the server says what a key is for.  That their commands
  never meet a value of the wrong type is a matter of the key names alone: each command
  names an object, no two objects share a key, and what is written is what the object
  holds.

      queue, dlq           texts of messages of that queue
      processing           texts of messages
      scheduled            a sorted set of texts of messages
      result               the text of a value
      group                a total, and as many results as completions were counted
      dedup                1

  The exception is `poll_scheduled`, which writes to the queues of a prefix it computes
  (`Redis/PollTarget.lean`), so a prefix is assumed that it computes rightly.
-/
import Kojin.Foundation.JsonUnique
import Kojin.Foundation.Schema
import Kojin.Redis.Clients
import Kojin.Redis.PollTarget

set_option autoImplicit false

namespace Kojin.Redis

open Kojin.Foundation Kojin.Core

variable {σ : Type} [LinearOrder σ]

/-! ## What a command touches -/

/-- The keys a command may change. -/
def ClientOp.Touches : ClientOp σ → String → Prop
  | .base (.setNxEx key _ _), k => k = key
  | .base (.setEx key _ _), k => k = key
  | .base (.lpush key _), k => k = key
  | .base (.lrem key _), k => k = key
  | .base (.blmove source target _), k => k = source ∨ k = target
  | .base (.zadd key _ _), k => k = key
  | .base (.groupComplete completed results _), k => k = completed ∨ k = results
  | .base (.pollScheduled key _ keyPrefix), k => k = key ∨ ∃ q, k = queueKey keyPrefix q
  | .del key, k => k = key
  | _, _ => False

section Touches

variable {queueOf : String → Except CommandError String} {order : List String}
  {r r' : Keyspace σ} {k : String}

/-- A command that commits or fails. -/
theorem commit_cases {α : Type} {x : Except CommandError (α × Keyspace σ)}
    {answer : Except CommandError α} (h : commit r x = (answer, r')) :
    (∃ a, answer = .ok a ∧ x = .ok (a, r')) ∨ ∃ e, answer = .error e ∧ x = .error e ∧ r' = r := by
  cases x with
  | ok p =>
      cases h
      exact .inl ⟨p.1, rfl, rfl⟩
  | error e =>
      cases h
      exact .inr ⟨e, rfl, rfl, rfl⟩

/-- A command that answers nothing commits or fails. -/
theorem commit_map_cases {x : Except CommandError (Keyspace σ)} {answer : Except CommandError Unit}
    (h : commit r (x.map ((), ·)) = (answer, r')) :
    (answer = .ok () ∧ x = .ok r') ∨ ∃ e, answer = .error e ∧ x = .error e ∧ r' = r := by
  cases x with
  | ok r₁ =>
      cases h
      exact .inl ⟨rfl, rfl⟩
  | error e =>
      cases h
      exact .inr ⟨e, rfl, rfl, rfl⟩

theorem keys_writeZset_ne {key : String} (h : k ≠ key) (set : SortedSet σ) :
    (r.writeZset key set).keys k = r.keys k := by
  unfold Keyspace.writeZset
  split
  · exact r.keys_remove_ne h
  · exact r.keys_write_ne h _

theorem mem_members_add {set : SortedSet σ} {score : σ} {member text : String}
    (h : text ∈ (set.add score member).members) : text = member ∨ text ∈ set.members := by
  obtain ⟨e, he, rfl⟩ := List.mem_map.mp h
  rcases (List.mem_orderedInsert EntryLE).mp he with rfl | he
  · exact .inl rfl
  · exact .inr (List.mem_map.mpr ⟨e, (List.mem_filter.mp he).1, rfl⟩)

theorem keys_pushDue {keyPrefix : String} {items : List String} {a : Except CommandError Unit}
    (hk : ∀ q, k ≠ queueKey keyPrefix q) :
    ∀ {r r' : Keyspace σ}, pushDue queueOf keyPrefix items r = (a, r') → r'.keys k = r.keys k := by
  induction items with
  | nil =>
      intro r r' h
      cases h
      rfl
  | cons x xs ih =>
      intro r r' h
      rcases pushDue_cons h with ⟨-, -, rfl⟩ | ⟨q, ys, -, -, hrest⟩
      · rfl
      · rw [ih hrest, Keyspace.keys_writeList_ne _ (hk q)]

theorem keys_poll {key keyPrefix : String} {now : σ} {a : Except CommandError Nat}
    (hk : k ≠ key) (hq : ∀ q, k ≠ queueKey keyPrefix q)
    (h : pollScheduledScript queueOf key now keyPrefix r = (a, r')) : r'.keys k = r.keys k := by
  cases hset : r.zset? key with
  | error e =>
      unfold pollScheduledScript at h
      rw [hset] at h
      cases h
      rfl
  | ok set =>
      rcases poll_cases hset h with ⟨-, -, rfl⟩ | ⟨-, r₁, hpush, -, rfl⟩ | ⟨-, e, hpush, -⟩
      · rfl
      · rw [keys_writeZset_ne hk, keys_pushDue hq hpush]
      · exact keys_pushDue hq hpush

theorem keys_groupComplete {completed results result : String} {a : Except CommandError Int}
    (hcompleted : k ≠ completed) (hresults : k ≠ results)
    (h : groupCompleteScript completed results result r = (a, r')) : r'.keys k = r.keys k := by
  unfold groupCompleteScript at h
  split at h
  · cases h
    rfl
  · rename_i n r₁ hincr
    obtain ⟨rfl, -⟩ := Keyspace.incr_cases hincr
    split at h
    · cases h
      exact r.keys_write_ne hcompleted _
    · rename_i r₂ hpush
      obtain ⟨items, -, rfl⟩ := Keyspace.rpush_cases hpush
      cases h
      rw [Keyspace.keys_writeList_ne _ hresults, Keyspace.keys_write_ne _ hcompleted]

/-- A command leaves every other key alone. -/
theorem keys_performClient {op : ClientOp σ} {answer : Except CommandError op.Ans}
    (hk : ¬ op.Touches k) (h : performClient queueOf order r op = (answer, r')) :
    r'.keys k = r.keys k := by
  cases op with
  | get key =>
      cases h
      rfl
  | del key =>
      cases h
      exact r.keys_remove_ne hk
  | keys pattern =>
      cases h
      rfl
  | base op =>
      cases op with
      | conn =>
          cases h
          rfl
      | lrange key start stop =>
          cases h
          rfl
      | llen key =>
          cases h
          rfl
      | setNxEx key value secs =>
          rcases commit_cases h with ⟨set, -, hset⟩ | ⟨e, -, -, rfl⟩
          · obtain ⟨-, ⟨-, -, rfl⟩ | ⟨-, -, rfl⟩⟩ := Keyspace.setNxEx_cases hset
            · exact r.keys_store_ne hk _ _
            · rfl
          · rfl
      | setEx key value secs =>
          rcases commit_map_cases h with ⟨-, hset⟩ | ⟨e, -, -, rfl⟩
          · obtain rfl := Keyspace.setEx_cases hset
            exact r.keys_store_ne hk _ _
          · rfl
      | lpush key item =>
          rcases commit_map_cases h with ⟨-, hpush⟩ | ⟨e, -, -, rfl⟩
          · obtain ⟨xs, -, rfl⟩ := Keyspace.lpush_cases hpush
            exact r.keys_writeList_ne hk _
          · rfl
      | lrem key item =>
          rcases commit_map_cases h with ⟨-, hrem⟩ | ⟨e, -, -, rfl⟩
          · cases hlist : r.list? key with
            | error e =>
                rw [Keyspace.lrem, hlist] at hrem
                cases hrem
            | ok xs =>
                rw [Keyspace.lrem_of_list? hlist] at hrem
                cases hrem
                exact r.keys_writeList_ne hk _
          · rfl
      | blmove source target timeout =>
          rcases commit_cases h with ⟨entry, -, hmove⟩ | ⟨e, -, -, rfl⟩
          · rcases Keyspace.lmove_cases hmove with ⟨-, rfl⟩ | ⟨xs, x, ys, -, -, -, -, rfl⟩
            · rfl
            · rw [Keyspace.keys_writeList_ne _ fun heq => hk (.inr heq),
                Keyspace.keys_writeList_ne _ fun heq => hk (.inl heq)]
          · rfl
      | zadd key score member =>
          rcases commit_map_cases h with ⟨-, hadd⟩ | ⟨e, -, -, rfl⟩
          · cases hset : r.zset? key with
            | error e =>
                rw [Keyspace.zadd, hset] at hadd
                cases hadd
            | ok set =>
                rw [Keyspace.zadd, hset] at hadd
                cases hadd
                exact keys_writeZset_ne hk _
          · rfl
      | groupComplete completed results result =>
          exact keys_groupComplete (fun heq => hk (.inl heq)) (fun heq => hk (.inr heq)) h
      | pollScheduled key now keyPrefix =>
          exact keys_poll (fun heq => hk (.inl heq)) (fun q heq => hk (.inr ⟨q, heq⟩)) h

end Touches

namespace Deployment

variable (D : Deployment σ)

/-! ## What the objects hold -/

/-- The text of a message of a queue. -/
def IsMessageOf (queue text : String) : Prop :=
  ∃ m : TaskMessage, text = m.encode D.codec.rfc3339 ∧ m.queue = queue

/-- The text of a value. -/
def IsResult (text : String) : Prop := ∃ v : Json, text = v.print

/-- What an object holds. -/
def kind : KeyObject → Kind
  | .queue name => .list (D.IsMessageOf name)
  | .processing _ => .list D.IsMessage
  | .scheduled => .zset D.IsMessage
  | .dlq name => .list (D.IsMessageOf name)
  | .message _ => .nothing
  | .result _ => .text IsResult
  | .groupTotal _ => .int (0 ≤ ·)
  | .groupCompleted _ => .counter
  | .groupResults _ => .list IsResult
  | .dedup _ => .int (· = 1)

/-- The objects of the deployment. -/
def schema : Schema KeyObject := ⟨D.keys.key, key_injective D.keys, D.kind⟩

variable {D}

/-- The text of a message of a queue is that of no other queue's. -/
theorem queue_of_encode {rfc3339 : DateTime → String} {m m' : TaskMessage}
    (h : m.encode rfc3339 = m'.encode rfc3339) : m.queue = m'.queue := by
  have hjson := Json.print_inj h
  cases m
  cases m'
  rw [TaskMessage.toJson.eq_def, TaskMessage.toJson.eq_def] at hjson
  simp only [Json.obj.injEq, List.cons_append, List.cons.injEq, Prod.mk.injEq, Json.str.injEq,
    true_and] at hjson
  exact hjson.2.2.1

omit [LinearOrder σ] in
theorem isMessage_of {queue text : String} (h : D.IsMessageOf queue text) : D.IsMessage text := by
  obtain ⟨m, hm, -⟩ := h
  exact ⟨m, hm⟩

/-! ## One command -/

/-- The errors a command may be answered with: an expiry that cannot be set, a counter at
its bound, and a scheduled message that the server's JSON library cannot read. -/
def Expected (D : Deployment σ) (queueOf : String → Except CommandError String) :
    ClientOp σ → CommandError → Prop
  | .base (.setNxEx _ _ _), e => e = invalidExpire
  | .base (.setEx _ _ _), e => e = invalidExpire
  | .base (.groupComplete _ _ _), e => e = wouldOverflow
  | .base (.pollScheduled _ _ _), e => ∃ text, D.IsMessage text ∧ queueOf text = .error e
  | _, _ => False

/-- What a command may do to a typed store. -/
structure Keeps (D : Deployment σ) (queueOf : String → Except CommandError String)
    (op : ClientOp σ) (r r' : Keyspace σ) (answer : Except CommandError op.Ans) : Prop where
  typed : D.schema.Typed r'
  spares : D.schema.Spares r r'
  error : ∀ e, answer = .error e → D.Expected queueOf op e

section Step

variable {queueOf : String → Except CommandError String} {order : List String}
  {r r' : Keyspace σ}

/-- A command that changed nothing, and did not fail. -/
theorem keeps_ok {op : ClientOp σ} {a : op.Ans} (ht : D.schema.Typed r) :
    D.Keeps queueOf op r r (.ok a) := ⟨ht, .refl r, fun _ he => by cases he⟩

/-- A command that wrote to one object, and did not fail. -/
theorem keeps_sets {op : ClientOp σ} {a : op.Ans} (ht : D.schema.Typed r) {x : KeyObject}
    (h : D.schema.Sets r r' x) : D.Keeps queueOf op r r' (.ok a) :=
  ⟨ht.sets h, h.spares, fun _ he => by cases he⟩

/-- A command that failed as expected. -/
theorem keeps_error {op : ClientOp σ} {e : CommandError} (ht : D.schema.Typed r)
    (he : D.Expected queueOf op e) : D.Keeps queueOf op r r (.error e) := by
  refine ⟨ht, .refl r, fun e' he' => ?_⟩
  cases he'
  exact he

theorem setEx_error {key : String} {v : Value σ} {secs : Nat} {e : CommandError}
    (h : r.setEx key v secs = .error e) : e = invalidExpire := by
  unfold Keyspace.setEx at h
  split at h
  · cases h
  · cases h
    rfl

theorem setNxEx_error {key : String} {v : Value σ} {secs : Nat} {e : CommandError}
    (h : r.setNxEx key v secs = .error e) : e = invalidExpire := by
  unfold Keyspace.setNxEx at h
  split at h
  · split at h <;> cases h
  · cases h
    rfl

theorem keeps_setEx {key : String} {v : Value σ} {secs : Nat}
    {answer : Except CommandError Unit} (ht : D.schema.Typed r) {x : KeyObject}
    (hkey : key = D.keys.key x) (hv : ∀ t, (D.kind x).Holds (⟨v, t⟩ : Entry σ))
    (h : perform queueOf r (.setEx key v secs) = (answer, r')) :
    D.Keeps queueOf (.base (.setEx key v secs)) r r' answer := by
  rcases commit_map_cases h with ⟨rfl, hset⟩ | ⟨e, rfl, hset, rfl⟩
  · obtain rfl := Keyspace.setEx_cases hset
    rw [hkey]
    exact keeps_sets ht (Schema.sets_store (S := D.schema) (x := x) hv)
  · exact keeps_error ht (setEx_error hset)

/-- A push to a list of the deployment. -/
theorem keeps_lpush {key item : String} {good : String → Prop}
    {answer : Except CommandError Unit} (ht : D.schema.Typed r) {x : KeyObject}
    (hkey : key = D.keys.key x) (hkind : D.kind x = .list good) (hitem : good item)
    (h : perform queueOf r (.lpush key item) = (answer, r')) :
    D.Keeps queueOf (.base (.lpush key item)) r r' answer := by
  subst hkey
  obtain ⟨items, hlist, hitems⟩ := ht.list? hkind
  have hlist' : r.list? (D.keys.key x) = .ok items := hlist
  have hpush : perform queueOf r (.lpush (D.keys.key x) item) =
      (.ok (), r.writeList (D.keys.key x) (item :: items)) := by
    show commit r _ = _
    rw [Keyspace.lpush_of_list? hlist']
    rfl
  rw [hpush] at h
  cases h
  refine keeps_sets ht (ht.sets_writeList hkind _ fun i hi => ?_)
  rcases List.mem_cons.mp hi with rfl | hi
  · exact hitem
  · exact hitems i hi

/-- A move from a queue to a processing list. -/
theorem keeps_blmove {queue workerId : String} {timeout : Nat}
    {answer : Except CommandError (Option String)} (ht : D.schema.Typed r)
    (h : perform queueOf r (.blmove (D.keys.queue queue) (D.keys.processing workerId) timeout) =
      (answer, r')) :
    D.Keeps queueOf (.base (.blmove (D.keys.queue queue) (D.keys.processing workerId) timeout)) r
      r' answer := by
  obtain ⟨items, hlist, hitems⟩ := ht.list? (x := .queue queue) rfl
  have hlist' : r.list? (D.keys.queue queue) = .ok items := hlist
  have hmove : commit r (r.lmove (D.keys.queue queue) (D.keys.processing workerId)) =
      (answer, r') := h
  cases hlast : items.getLast? with
  | none =>
      have hnone : r.lmove (D.keys.queue queue) (D.keys.processing workerId) = .ok (none, r) := by
        rw [Keyspace.lmove, hlist']
        simp only [Except.bind, hlast]
      rw [hnone] at hmove
      cases hmove
      exact keeps_ok ht
  | some item =>
      have hmem : item ∈ items := List.mem_of_getLast? hlast
      -- the queue without its last entry
      have hsource := ht.sets_writeList (x := .queue queue) rfl items.dropLast
        fun i hi => hitems i (List.mem_of_mem_dropLast hi)
      have ht₁ := ht.sets hsource
      obtain ⟨others, htarget, hothers⟩ := ht₁.list? (x := .processing workerId) rfl
      have htarget' : (r.writeList (D.keys.queue queue) items.dropLast).list?
          (D.keys.processing workerId) = .ok others := htarget
      have hdone : r.lmove (D.keys.queue queue) (D.keys.processing workerId) =
          .ok (some item, (r.writeList (D.keys.queue queue) items.dropLast).writeList
            (D.keys.processing workerId) (item :: others)) := by
        rw [Keyspace.lmove, hlist']
        simp only [Except.bind, hlast, htarget']
        rfl
      rw [hdone] at hmove
      cases hmove
      have hsecond := ht₁.sets_writeList (x := .processing workerId) rfl (item :: others)
        fun i hi => by
          rcases List.mem_cons.mp hi with rfl | hi
          · exact isMessage_of (hitems _ hmem)
          · exact hothers i hi
      exact ⟨ht₁.sets hsecond, hsource.spares.trans hsecond.spares, fun _ he => by cases he⟩

/-- On a typed store the script counts and pushes, or it does nothing. -/
theorem groupComplete_typed {group : String} {v : Json} {answer : Except CommandError Int}
    (ht : D.schema.Typed r)
    (h : groupCompleteScript (D.keys.groupCompleted group) (D.keys.groupResults group) v.print r =
      (answer, r')) :
    (answer = .error wouldOverflow ∧ r' = r) ∨ ∃ n items, answer = .ok n ∧
      (∀ i ∈ items, IsResult i) ∧
      r' = (r.write (D.keys.groupCompleted group) (.int n)).writeList (D.keys.groupResults group)
        (items ++ [v.print]) := by
  unfold groupCompleteScript at h
  rcases ht.incr (x := .groupCompleted group) rfl with herror | ⟨n, hok⟩
  · have hincr : r.incr (D.keys.groupCompleted group) = .error wouldOverflow := herror
    rw [hincr] at h
    cases h
    exact .inl ⟨rfl, rfl⟩
  · have hincr : r.incr (D.keys.groupCompleted group) =
        .ok (n, r.write (D.keys.groupCompleted group) (.int n)) := hok
    have ht₁ := ht.sets (ht.sets_counter (x := .groupCompleted group) rfl n)
    obtain ⟨items, hlist, hitems⟩ := ht₁.list? (x := .groupResults group) rfl
    have hlist' : (r.write (D.keys.groupCompleted group) (.int n)).list?
        (D.keys.groupResults group) = .ok items := hlist
    rw [hincr] at h
    simp only [Keyspace.rpush, hlist', Except.map] at h
    cases h
    exact .inr ⟨n, items, rfl, hitems, rfl⟩

/-- The script that completes a member of a group. -/
theorem keeps_groupComplete {group : String} {v : Json} {answer : Except CommandError Int}
    (ht : D.schema.Typed r)
    (h : groupCompleteScript (D.keys.groupCompleted group) (D.keys.groupResults group) v.print r =
      (answer, r')) :
    D.Keeps queueOf (.base (.groupComplete (D.keys.groupCompleted group)
      (D.keys.groupResults group) v.print)) r r' answer := by
  rcases groupComplete_typed ht h with ⟨rfl, rfl⟩ | ⟨n, items, rfl, hitems, rfl⟩
  · exact keeps_error ht rfl
  · have hcount := ht.sets_counter (x := .groupCompleted group) rfl n
    have ht₁ := ht.sets hcount
    have hpush := ht₁.sets_writeList (x := .groupResults group) rfl (items ++ [v.print])
      fun i hi => by
        rcases List.mem_append.mp hi with hi | hi
        · exact hitems i hi
        · exact ⟨v, List.mem_singleton.mp hi⟩
    exact ⟨ht₁.sets hpush, hcount.spares.trans hpush.spares, fun _ he => by cases he⟩

/-- The JSON library of the server finds the queue of a message, if it reads its text. -/
def ReadsQueue (D : Deployment σ) (queueOf : String → Except CommandError String) : Prop :=
  ∀ (m : TaskMessage) (queue : String), queueOf (m.encode D.codec.rfc3339) = .ok queue →
    queue = m.queue

/-- The loop of the script pushes every message to a queue of its own. -/
theorem keeps_pushDue (hreads : D.ReadsQueue queueOf) {items : List String}
    {a : Except CommandError Unit} (hitems : ∀ text ∈ items, D.IsMessage text) :
    ∀ {r r' : Keyspace σ}, D.schema.Typed r →
      pushDue queueOf D.keys.keyPrefix items r = (a, r') →
      D.schema.Typed r' ∧ D.schema.Spares r r' ∧
        ∀ e, a = .error e → ∃ text, D.IsMessage text ∧ queueOf text = .error e := by
  induction items with
  | nil =>
      intro r r' ht h
      cases h
      exact ⟨ht, .refl r, fun e he => by cases he⟩
  | cons text items ih =>
      intro r r' ht h
      obtain ⟨m, rfl⟩ := hitems text List.mem_cons_self
      cases hqueue : queueOf (m.encode D.codec.rfc3339) with
      | error e =>
          rw [pushDue, hqueue] at h
          cases h
          refine ⟨ht, .refl r, fun e' he' => ⟨_, ⟨m, rfl⟩, ?_⟩⟩
          cases he'
          exact hqueue
      | ok queue =>
          obtain rfl := hreads m queue hqueue
          obtain ⟨others, hlist, hothers⟩ := ht.list? (x := .queue m.queue) rfl
          have hpush : r.lpush (D.keys.keyPrefix ++ ":queue:" ++ m.queue)
              (m.encode D.codec.rfc3339) = .ok (r.writeList (D.keys.queue m.queue)
                (m.encode D.codec.rfc3339 :: others)) := Keyspace.lpush_of_list? hlist
          rw [pushDue, hqueue] at h
          simp only [hpush] at h
          have hset := ht.sets_writeList (x := .queue m.queue) rfl
            (m.encode D.codec.rfc3339 :: others) fun i hi => by
              rcases List.mem_cons.mp hi with rfl | hi
              · exact ⟨m, rfl, rfl⟩
              · exact hothers i hi
          obtain ⟨ht', hspares, herror⟩ :=
            ih (fun x hx => hitems x (List.mem_cons_of_mem _ hx)) (ht.sets hset) h
          exact ⟨ht', hset.spares.trans hspares, herror⟩

/-- The script that moves what is due. -/
theorem keeps_poll (hreads : D.ReadsQueue queueOf) {now : σ} {answer : Except CommandError Nat}
    (ht : D.schema.Typed r)
    (h : pollScheduledScript queueOf D.keys.scheduled now D.keys.keyPrefix r = (answer, r')) :
    D.Keeps queueOf (.base (.pollScheduled D.keys.scheduled now D.keys.keyPrefix)) r r' answer := by
  obtain ⟨set, hset, hmembers⟩ := ht.zset? (x := .scheduled) rfl
  have hdue : ∀ text ∈ (set.upTo now).take 100, D.IsMessage text := fun text htext =>
    hmembers text (SortedSet.mem_members_of_upTo (List.mem_of_mem_take htext))
  rcases poll_cases hset h with ⟨-, rfl, rfl⟩ | ⟨-, r₁, hpush, rfl, rfl⟩ | ⟨-, e, hpush, rfl⟩
  · exact keeps_ok ht
  · obtain ⟨ht₁, hspares, -⟩ := keeps_pushDue hreads hdue ht hpush
    have hrest := ht₁.sets_writeZset (x := .scheduled) rfl (set.removeByScore now)
      fun text htext => hmembers text ((List.filter_sublist.map Prod.snd).subset htext)
    exact ⟨ht₁.sets hrest, hspares.trans hrest.spares, fun _ he => by cases he⟩
  · obtain ⟨ht₁, hspares, herror⟩ := keeps_pushDue hreads hdue ht hpush
    refine ⟨ht₁, hspares, fun e' he' => ?_⟩
    cases he'
    exact herror e rfl

/-- A fetch of a result. -/
theorem keeps_get {id : TaskId} {answer : Except CommandError (Option String)}
    (ht : D.schema.Typed r)
    (h : performClient queueOf order r (.get (D.keys.result id.toText)) = (answer, r')) :
    D.Keeps queueOf (.get (D.keys.result id.toText)) r r' answer := by
  cases h
  unfold getText
  cases hget : r.get (D.keys.result id.toText) with
  | none => exact keeps_ok ht
  | some v =>
      obtain ⟨e, he, halive⟩ := Keyspace.entry_of_get
        (show r.get (D.keys.result id.toText) ≠ none from by simp [hget])
      obtain ⟨s, hs, -⟩ := ht (.result id.toText) e he
      rw [Keyspace.get, Keyspace.live, he, Option.filter_some, if_pos halive, Option.map_some,
        hs] at hget
      cases hget
      exact keeps_ok ht

/-- A claim of a dedup key. -/
theorem keeps_setNxEx {name : String} {secs : Nat} {answer : Except CommandError Bool}
    (ht : D.schema.Typed r)
    (h : perform queueOf r (.setNxEx (D.keys.dedup name) (.int 1) secs) = (answer, r')) :
    D.Keeps queueOf (.base (.setNxEx (D.keys.dedup name) (.int 1) secs)) r r' answer := by
  rcases commit_cases h with ⟨set, rfl, hset⟩ | ⟨e, rfl, hset, rfl⟩
  · obtain ⟨-, ⟨-, -, rfl⟩ | ⟨-, -, rfl⟩⟩ := Keyspace.setNxEx_cases hset
    · exact keeps_sets ht (Schema.sets_store (S := D.schema) (x := .dedup name)
        fun _ => ⟨1, rfl, rfl⟩)
    · exact keeps_ok ht
  · exact keeps_error ht (setNxEx_error hset)

/-- A look at a list of the deployment. -/
theorem keeps_lrange {key : String} {start stop : Int} {items : List String}
    {answer : Except CommandError (List String)} (ht : D.schema.Typed r)
    (hlist : r.list? key = .ok items)
    (h : perform queueOf r (.lrange key start stop) = (answer, r')) :
    D.Keeps queueOf (.base (.lrange key start stop)) r r' answer := by
  have hrange : (r.lrange key start stop, r) = (answer, r') := h
  rw [lrange_of_list? hlist] at hrange
  cases hrange
  exact keeps_ok ht

/-- The length of such a list. -/
theorem keeps_llen {key : String} {items : List String} {answer : Except CommandError Nat}
    (ht : D.schema.Typed r) (hlist : r.list? key = .ok items)
    (h : perform queueOf r (.llen key) = (answer, r')) :
    D.Keeps queueOf (.base (.llen key)) r r' answer := by
  have hlen : (r.llen key, r) = (answer, r') := h
  rw [Keyspace.llen, hlist] at hlen
  cases hlen
  exact keeps_ok ht

/-- A removal from a processing list. -/
theorem keeps_lrem {workerId item : String} {answer : Except CommandError Unit}
    (ht : D.schema.Typed r)
    (h : perform queueOf r (.lrem (D.keys.processing workerId) item) = (answer, r')) :
    D.Keeps queueOf (.base (.lrem (D.keys.processing workerId) item)) r r' answer := by
  obtain ⟨items, hlist, hitems⟩ := ht.list? (x := .processing workerId) rfl
  have hlist' : r.list? (D.keys.processing workerId) = .ok items := hlist
  have hrem : commit r ((r.lrem (D.keys.processing workerId) item).map ((), ·)) =
      (answer, r') := h
  have hwrite := ht.sets_writeList (x := .processing workerId) rfl (items.erase item)
    fun i hi => hitems i (List.mem_of_mem_erase hi)
  rw [Keyspace.lrem_of_list? hlist'] at hrem
  cases hrem
  exact keeps_sets ht hwrite

/-- A message added to the schedule. -/
theorem keeps_zadd {score : σ} {member : String} {answer : Except CommandError Unit}
    (ht : D.schema.Typed r) (hmember : D.IsMessage member)
    (h : perform queueOf r (.zadd D.keys.scheduled score member) = (answer, r')) :
    D.Keeps queueOf (.base (.zadd D.keys.scheduled score member)) r r' answer := by
  obtain ⟨set, hset, hmembers⟩ := ht.zset? (x := .scheduled) rfl
  have hset' : r.zset? D.keys.scheduled = .ok set := hset
  have hadd : commit r ((r.zadd D.keys.scheduled score member).map ((), ·)) = (answer, r') := h
  have hwrite := ht.sets_writeZset (x := .scheduled) rfl (set.add score member)
    fun text htext => by
      rcases mem_members_add htext with rfl | hold
      · exact hmember
      · exact hmembers text hold
  rw [Keyspace.zadd, hset'] at hadd
  cases hadd
  exact keeps_sets ht hwrite

/-- One command of a client on a typed store. -/
theorem keeps_performClient (hreads : D.ReadsQueue queueOf)
    (hscheduled : D.keys.scheduled.replace ":scheduled" "" = D.keys.keyPrefix) {op : ClientOp σ}
    (hop : D.Proper op) {answer : Except CommandError op.Ans} (ht : D.schema.Typed r)
    (h : performClient queueOf order r op = (answer, r')) :
    D.Keeps queueOf op r r' answer := by
  cases op with
  | get key =>
      obtain ⟨id, rfl⟩ := hop
      exact keeps_get ht h
  | del key =>
      obtain ⟨id, rfl⟩ := hop
      cases h
      exact keeps_sets ht (Schema.sets_remove (S := D.schema) r (.result id.toText))
  | keys pattern =>
      cases h
      exact keeps_ok ht
  | base op =>
      cases op with
      | conn =>
          cases h
          exact keeps_ok ht
      | setNxEx key value secs =>
          obtain ⟨rfl, k, rfl⟩ := hop
          exact keeps_setNxEx ht h
      | setEx key value secs =>
          rcases hop with ⟨id, v, hkey, rfl⟩ | ⟨group, total, hkey, rfl⟩
          · exact keeps_setEx (x := .result id.toText) ht hkey (fun _ => ⟨_, rfl, v, rfl⟩) h
          · exact keeps_setEx (x := .groupTotal group) ht hkey
              (fun _ => ⟨_, rfl, Int.natCast_nonneg total⟩) h
      | lpush key item =>
          obtain ⟨m, rfl, hkey | hkey⟩ := hop
          · exact keeps_lpush (x := .queue m.queue) ht hkey rfl ⟨m, rfl, rfl⟩ h
          · exact keeps_lpush (x := .dlq m.queue) ht hkey rfl ⟨m, rfl, rfl⟩ h
      | lrange key start stop =>
          rcases hop with ⟨w, rfl⟩ | ⟨q, rfl⟩ | ⟨group, rfl⟩
          · obtain ⟨items, hlist, -⟩ := ht.list? (x := .processing w) rfl
            exact keeps_lrange ht hlist h
          · obtain ⟨items, hlist, -⟩ := ht.list? (x := .dlq q) rfl
            exact keeps_lrange ht hlist h
          · obtain ⟨items, hlist, -⟩ := ht.list? (x := .groupResults group) rfl
            exact keeps_lrange ht hlist h
      | lrem key item =>
          obtain ⟨w, rfl⟩ := hop
          exact keeps_lrem ht h
      | blmove source target timeout =>
          obtain ⟨q, w, rfl, rfl⟩ := hop
          exact keeps_blmove ht h
      | llen key =>
          obtain ⟨q, rfl | rfl⟩ := hop
          · obtain ⟨items, hlist, -⟩ := ht.list? (x := .queue q) rfl
            exact keeps_llen ht hlist h
          · obtain ⟨items, hlist, -⟩ := ht.list? (x := .dlq q) rfl
            exact keeps_llen ht hlist h
      | zadd key score member =>
          obtain ⟨rfl, hmember⟩ := hop
          exact keeps_zadd ht hmember h
      | groupComplete completed results result =>
          obtain ⟨group, v, rfl, rfl, rfl⟩ := hop
          exact keeps_groupComplete ht h
      | pollScheduled key now keyPrefix =>
          obtain ⟨rfl, rfl⟩ := hop
          have hpoll : pollScheduledScript queueOf D.keys.scheduled now
              (D.keys.scheduled.replace ":scheduled" "") r = (answer, r') := h
          rw [hscheduled] at hpoll ⊢
          exact keeps_poll hreads ht hpoll

/-! ## Who writes what -/

/-- The commands that write to an object. -/
def Writer (D : Deployment σ) (op : ClientOp σ) : KeyObject → Prop
  | .queue q => (∃ item, op = .base (.lpush (D.keys.queue q) item)) ∨
      (∃ w timeout, op = .base (.blmove (D.keys.queue q) (D.keys.processing w) timeout)) ∨
      ∃ now, op = .base (.pollScheduled D.keys.scheduled now D.keys.keyPrefix)
  | .processing w =>
      (∃ q timeout, op = .base (.blmove (D.keys.queue q) (D.keys.processing w) timeout)) ∨
      ∃ item, op = .base (.lrem (D.keys.processing w) item)
  | .scheduled => (∃ score member, op = .base (.zadd D.keys.scheduled score member)) ∨
      ∃ now, op = .base (.pollScheduled D.keys.scheduled now D.keys.keyPrefix)
  | .dlq q => ∃ item, op = .base (.lpush (D.keys.dlq q) item)
  | .message _ => False
  | .result id => (∃ value secs, op = .base (.setEx (D.keys.result id) value secs)) ∨
      op = .del (D.keys.result id)
  | .groupTotal group => ∃ value secs, op = .base (.setEx (D.keys.groupTotal group) value secs)
  | .groupCompleted group => ∃ v : Json, op = .base (.groupComplete
      (D.keys.groupCompleted group) (D.keys.groupResults group) v.print)
  | .groupResults group => ∃ v : Json, op = .base (.groupComplete
      (D.keys.groupCompleted group) (D.keys.groupResults group) v.print)
  | .dedup key => ∃ value secs, op = .base (.setNxEx (D.keys.dedup key) value secs)

/-- A client's command touches the objects it writes to, and no other key. -/
theorem writer_of_touches (hscheduled : D.keys.scheduled.replace ":scheduled" "" = D.keys.keyPrefix)
    {op : ClientOp σ} (hop : D.Proper op) {key : String} (hkey : op.Touches key) :
    ∃ x, key = D.keys.key x ∧ D.Writer op x := by
  cases op with
  | get k => exact hkey.elim
  | keys pattern => exact hkey.elim
  | del k =>
      obtain ⟨id, rfl⟩ := hop
      exact ⟨.result id.toText, hkey, .inr rfl⟩
  | base op =>
      cases op with
      | conn => exact hkey.elim
      | lrange k start stop => exact hkey.elim
      | llen k => exact hkey.elim
      | setNxEx k value secs =>
          obtain ⟨-, name, rfl⟩ := hop
          exact ⟨.dedup name, hkey, value, secs, rfl⟩
      | setEx k value secs =>
          rcases hop with ⟨id, v, rfl, -⟩ | ⟨group, total, rfl, -⟩
          · exact ⟨.result id.toText, hkey, .inl ⟨value, secs, rfl⟩⟩
          · exact ⟨.groupTotal group, hkey, value, secs, rfl⟩
      | lpush k item =>
          obtain ⟨m, -, rfl | rfl⟩ := hop
          · exact ⟨.queue m.queue, hkey, .inl ⟨item, rfl⟩⟩
          · exact ⟨.dlq m.queue, hkey, item, rfl⟩
      | lrem k item =>
          obtain ⟨w, rfl⟩ := hop
          exact ⟨.processing w, hkey, .inr ⟨item, rfl⟩⟩
      | blmove source target timeout =>
          obtain ⟨q, w, rfl, rfl⟩ := hop
          rcases hkey with hkey | hkey
          · exact ⟨.queue q, hkey, .inr (.inl ⟨w, timeout, rfl⟩)⟩
          · exact ⟨.processing w, hkey, .inl ⟨q, timeout, rfl⟩⟩
      | zadd k score member =>
          obtain ⟨rfl, -⟩ := hop
          exact ⟨.scheduled, hkey, .inl ⟨score, member, rfl⟩⟩
      | groupComplete completed results result =>
          obtain ⟨group, v, rfl, rfl, rfl⟩ := hop
          rcases hkey with hkey | hkey
          · exact ⟨.groupCompleted group, hkey, v, rfl⟩
          · exact ⟨.groupResults group, hkey, v, rfl⟩
      | pollScheduled k now keyPrefix =>
          obtain ⟨rfl, rfl⟩ := hop
          rw [hscheduled] at hkey ⊢
          rcases hkey with hkey | ⟨q, hkey⟩
          · exact ⟨.scheduled, hkey, .inr ⟨now, rfl⟩⟩
          · exact ⟨.queue q, hkey, .inr (.inr ⟨now, rfl⟩)⟩

/-- An object changes only when it is written to. -/
theorem keys_of_not_writer
    (hscheduled : D.keys.scheduled.replace ":scheduled" "" = D.keys.keyPrefix) {op : ClientOp σ}
    (hop : D.Proper op) {answer : Except CommandError op.Ans}
    (h : performClient queueOf order r op = (answer, r')) {x : KeyObject}
    (hx : ¬ D.Writer op x) : r'.keys (D.keys.key x) = r.keys (D.keys.key x) := by
  refine keys_performClient (fun htouch => ?_) h
  obtain ⟨y, hy, hwriter⟩ := writer_of_touches hscheduled hop htouch
  rw [key_injective D.keys hy] at hx
  exact hx hwriter

/-! ## Groups -/

/-- Every group has as many results as completions were counted. -/
def Counted (D : Deployment σ) (r : Keyspace σ) : Prop :=
  ∀ group, ∃ rs : List Json, RedisResultBackend.HoldsGroup (D.backend 0) r group rs

/-- The keys of a group change only when a member of it completes. -/
theorem counted_performClient
    (hscheduled : D.keys.scheduled.replace ":scheduled" "" = D.keys.keyPrefix) {op : ClientOp σ}
    (hop : D.Proper op) {answer : Except CommandError op.Ans} (ht : D.schema.Typed r)
    (hcounted : D.Counted r) (h : performClient queueOf order r op = (answer, r')) :
    D.Counted r' := by
  intro group
  obtain ⟨rs, hholds⟩ := hcounted group
  by_cases hwriter : D.Writer op (.groupCompleted group)
  · obtain ⟨v, rfl⟩ := hwriter
    rcases groupComplete_typed ht h with ⟨-, rfl⟩ | ⟨n, items, rfl, -, -⟩
    · exact ⟨rs, hholds⟩
    · exact ⟨_, (hholds.complete h).2⟩
  · -- the two keys of a group have the same writers
    have hwriter' : ¬ D.Writer op (.groupResults group) := hwriter
    exact ⟨rs, hholds.congr (keys_of_not_writer hscheduled hop h hwriter)
      (keys_of_not_writer hscheduled hop h hwriter')⟩

end Step

/-! ## Every run -/

section Runs

variable {queueOf : String → Except CommandError String}

/-- What holds in every state of the store. -/
structure Sound (D : Deployment σ) (r₀ r : Keyspace σ) : Prop where
  typed : D.schema.Typed r
  counted : D.Counted r
  spares : D.schema.Spares r₀ r

theorem Sound.advance {r₀ r : Keyspace σ} (h : D.Sound r₀ r) (millis : Nat) :
    D.Sound r₀ (r.advance millis) := by
  refine ⟨h.typed, fun group => ?_, h.spares⟩
  obtain ⟨rs, hholds⟩ := h.counted group
  exact ⟨rs, hholds.completed, hholds.results⟩

theorem Sound.respond {r₀ r r' : Keyspace σ} (h : D.Sound r₀ r) (hreads : D.ReadsQueue queueOf)
    (hscheduled : D.keys.scheduled.replace ":scheduled" "" = D.keys.keyPrefix) {o : ClientOracle}
    {op : ClientOp σ} (hop : D.Proper op) {answer : Except CommandError op.Ans}
    (hrespond : (clientServer queueOf).respond o r op = some (answer, r')) : D.Sound r₀ r' := by
  have hlater := h.advance o.elapsed
  rcases clientServer_respond hrespond with ⟨rfl, -⟩ | ⟨done, hperform, -⟩
  · exact hlater
  · have hkeeps := keeps_performClient hreads hscheduled hop hlater.typed hperform
    exact ⟨hkeeps.typed, counted_performClient hscheduled hop hlater.typed hlater.counted hperform,
      hlater.spares.trans hkeeps.spares⟩

/-- A store that knows nothing of the deployment. -/
theorem sound_fresh {r₀ : Keyspace σ} (h : ∀ x, r₀.keys (D.keys.key x) = none) :
    D.Sound r₀ r₀ := by
  refine ⟨fun x e he => ?_, fun group => ⟨[], ?_, ?_⟩, .refl r₀⟩
  · rw [show r₀.keys (D.schema.key x) = none from h x] at he
    cases he
  · exact h (.groupCompleted group)
  · exact h (.groupResults group)

/-- The namespace of a deployment whose prefix does not contain `:scheduled`.  In every run
of any number of brokers, workers, backends and readers, with any delays, and any commands
and answers lost: every key of the deployment holds what it is for, every group has as many
results as completions were counted, no other key of the server is ever touched, and
whichever command a client is about to send fails, if it reaches the server, for one of the
expected reasons only, never because a key holds a value of the wrong type. -/
theorem namespace_sound (hreads : D.ReadsQueue queueOf)
    (hscheduled : ¬ ":scheduled".toList <:+: D.keys.keyPrefix.toList) {r₀ : Keyspace σ}
    (hfresh : ∀ x, r₀.keys (D.keys.key x) = none) {tr : List (D.machine queueOf).Label}
    {c : (D.machine queueOf).Config} (h : (D.machine queueOf).Reach ⟨r₀, []⟩ tr c) :
    D.schema.Typed c.state ∧ D.Counted c.state ∧ D.schema.Spares r₀ c.state ∧
      ∀ op k, .call op k ∈ c.threads → ∀ order millis e r',
        performClient queueOf order (Keyspace.advance c.state millis) op = (.error e, r') →
        D.Expected queueOf op e := by
  have hpoll := (pollPrefix_eq_iff D.keys).mpr hscheduled
  obtain ⟨hsound, hcalls⟩ := h.rule (C := D.Proper) (J := D.Sound r₀) proper_entry
    (fun x s s' new hs haccept => by
      cases haccept
      exact hs)
    (fun o s op answer s' hs hop hrespond => hs.respond hreads hpoll hop hrespond)
    (fun p hp => (List.not_mem_nil hp).elim) (sound_fresh hfresh)
  refine ⟨hsound.typed, hsound.counted, hsound.spares, ?_⟩
  intro op k hmem order millis e r' hperform
  exact (keeps_performClient hreads hpoll (hcalls _ hmem).1 (hsound.advance millis).typed
    hperform).error e rfl

end Runs

/-! ## A message on its way -/

/-- The text of a message. -/
def plainText : String := (plainMessage ⟨1⟩).encode fun _ => ""

/-- A deployment that knows one message. -/
def plain : Deployment Nat where
  keys := ⟨"kojin"⟩
  codec := ⟨fun _ => "",
    fun s => if s = plainText then .ok (plainMessage ⟨1⟩) else .error "", Int.toNat⟩
  decode := fun s => if s = Json.null.print then .ok .null else .error ""

/-- The server's JSON library reads its queue. -/
def plainQueue (text : String) : Except CommandError String :=
  if text = plainText then .ok "q" else .error "no message"

theorem plain_reads : plain.ReadsQueue plainQueue := by
  intro m queue h
  unfold plainQueue at h
  split at h
  · rename_i htext
    cases h
    exact (queue_of_encode htext).symm
  · cases h

/-- A command that arrives at once. -/
def atOnce : ClientOracle := ⟨⟨0, none⟩, []⟩

/-- A producer sends the message, a worker takes it, and its result is stored. -/
def plainSchedule : List (plain.machine plainQueue).Move :=
  [.env (.broker "p" 300 (.enqueue (plainMessage ⟨1⟩))), .env (.dequeue "w" ["q"] 1),
    .env (.backend 60 (.store ⟨1⟩ .null)), .run 0 atOnce, .run 1 atOnce, .run 0 atOnce,
    .run 1 atOnce, .run 2 atOnce, .run 2 atOnce]

theorem plainSchedule_plays : (Machine.Config.playAll (M := plain.machine plainQueue)
    ⟨Keyspace.empty 0, []⟩ plainSchedule).isSome = true := by
  decide +kernel

/-- The message is in the processing list, and its result is there. -/
theorem namespace_sound_plain : ∃ c : (plain.machine plainQueue).Config,
    plain.schema.Typed c.state ∧ plain.Counted c.state ∧
      plain.schema.Spares (Keyspace.empty 0) c.state ∧
      (Keyspace.items c.state "kojin:processing:w", Keyspace.items c.state "kojin:queue:q",
        (Keyspace.get c.state ("kojin:result:" ++ (TaskId.mk 1).toText)).isSome) =
        ([plainText], [], true) := by
  have hreach := Machine.Config.reach_of_get plainSchedule_plays
  obtain ⟨htyped, hcounted, hspares, -⟩ :=
    namespace_sound plain_reads (by decide) (fun _ => rfl) hreach
  exact ⟨_, htyped, hcounted, hspares, by decide +kernel⟩

end Deployment

end Kojin.Redis
