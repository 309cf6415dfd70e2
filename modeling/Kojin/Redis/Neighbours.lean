/-
  Redis/Neighbours.lean --- deployments that share a Redis server.

  The prefix of its keys is all that keeps a deployment apart from others on the same
  server.  Two prefixes share a key in three cases: they are equal, or one of them goes on
  behind the other with a colon and a word the library uses itself.

      kojin, kojin:staging       apart
      kojin, kojin:queue         meet: the queue ":dlq:x" of the first ...

  Deployments apart do not notice each other.  What the clients of one do and are answered
  in a run of all is what they do and are answered in some run of their own, where the time
  the others took is spent waiting.  So whatever holds of every run of one deployment holds
  of its part of every run of many.

  Three things could break this: `poll_scheduled` computes a prefix (`Redis/PollTarget.lean`),
  and `list_queues` matches a pattern, where a prefix with special characters matches more
  than itself.
-/
import Kojin.Foundation.Footprint
import Kojin.Foundation.Tenants
import Kojin.Redis.Namespace

set_option autoImplicit false

namespace Kojin.Redis

open Kojin.Foundation Kojin.Core

variable {σ : Type} [LinearOrder σ]

/-! ## Prefixes that meet -/

/-- The words that other text may follow. -/
def ownWords : List String := ["queue", "processing", "dlq", "msg", "result", "group", "dedup"]

namespace KeyBuilder

/-- Behind `kb` and a colon, the other prefix goes on with one of the words. -/
def Nests (kb kb' : KeyBuilder) : Prop :=
  ∃ u, kb'.keyPrefix.toList = kb.keyPrefix.toList ++ ':' :: u ∧
    String.ofList (u.takeWhile (· ≠ ':')) ∈ ownWords

end KeyBuilder

/-- What is in front of a colon ends there. -/
theorem takeWhile_colon (u w : List Char) :
    (u ++ ':' :: w).takeWhile (· ≠ ':') = u.takeWhile (· ≠ ':') := by
  induction u with
  | nil => simp
  | cons c u ih =>
      by_cases hc : c = ':'
      · simp [hc]
      · simp only [List.cons_append, ne_eq, decide_not] at ih ⊢
        simp [hc, ih]

/-- The words are the segments behind which there is a colon. -/
theorem segment_mem_ownWords {x : KeyObject} (h : ':' ∈ x.rest.toList) : x.segment ∈ ownWords := by
  cases x with
  | scheduled => simp [KeyObject.rest] at h
  | _ => simp [KeyObject.segment, ownWords]

theorem colon_notMem_segment (x : KeyObject) : ':' ∉ x.segment.toList := by
  cases x <;> simp [KeyObject.segment]

/-- Behind every word there can be any text that ends right. -/
theorem exists_object {word : String} (h : word ∈ ownWords) (name : String) :
    ∃ x : KeyObject, x.segment = word ∧ x.rest = ":" ++ name ++ ":total" := by
  simp only [ownWords, List.mem_cons, List.not_mem_nil, or_false] at h
  rcases h with rfl | rfl | rfl | rfl | rfl | rfl | rfl
  · exact ⟨.queue (name ++ ":total"), rfl, by simp [KeyObject.rest, String.append_assoc]⟩
  · exact ⟨.processing (name ++ ":total"), rfl, by simp [KeyObject.rest, String.append_assoc]⟩
  · exact ⟨.dlq (name ++ ":total"), rfl, by simp [KeyObject.rest, String.append_assoc]⟩
  · exact ⟨.message (name ++ ":total"), rfl, by simp [KeyObject.rest, String.append_assoc]⟩
  · exact ⟨.result (name ++ ":total"), rfl, by simp [KeyObject.rest, String.append_assoc]⟩
  · exact ⟨.groupTotal name, rfl, rfl⟩
  · exact ⟨.dedup (name ++ ":total"), rfl, by simp [KeyObject.rest, String.append_assoc]⟩

/-- A key whose text goes on behind the other prefix. -/
theorem nests_of_text {kb kb' : KeyBuilder} {x : KeyObject} {u w : List Char}
    (hbegins : kb'.keyPrefix.toList = kb.keyPrefix.toList ++ ':' :: u)
    (htext : x.segment.toList ++ x.rest.toList = u ++ ':' :: w) : kb.Nests kb' := by
  refine ⟨u, hbegins, ?_⟩
  have hword : u.takeWhile (· ≠ ':') = x.segment.toList := by
    rw [← takeWhile_colon u w, ← htext, x.segment_of_text]
  rw [hword, String.ofList_toList]
  refine segment_mem_ownWords ?_
  -- the colon is not in the segment
  have hcolon : ':' ∈ x.segment.toList ++ x.rest.toList := by
    rw [htext]
    simp
  rcases List.mem_append.mp hcolon with hin | hin
  · exact absurd hin (colon_notMem_segment x)
  · exact hin

/-- A prefix nested in another gives a key of both. -/
theorem KeyBuilder.Nests.meet {kb kb' : KeyBuilder} (h : kb.Nests kb') :
    ∃ x y, kb.key x = kb'.key y := by
  obtain ⟨u, hbegins, hword⟩ := h
  -- behind the word there is nothing, or another colon
  obtain ⟨name, hname⟩ : ∃ name : List Char,
      u.dropWhile (· ≠ ':') ++ ":queue:".toList = ':' :: name := by
    cases hrest : u.dropWhile (· ≠ ':') with
    | nil => exact ⟨"queue:".toList, rfl⟩
    | cons c d =>
        have hc : c = ':' := by
          have hhead := List.head?_dropWhile_not (· ≠ ':') u
          rw [hrest] at hhead
          simpa using hhead
        exact ⟨d ++ ":queue:".toList, by rw [hc]; rfl⟩
  obtain ⟨x, hsegment, hrest⟩ := exists_object hword (String.ofList name)
  refine ⟨x, .queue ":total", String.toList_inj.mp ?_⟩
  rw [KeyObject.toList_key, KeyObject.toList_key, hbegins, hsegment, hrest]
  have hsplit := List.takeWhile_append_dropWhile (p := (· ≠ ':')) (l := u)
  have htext : u ++ ":queue:".toList = u.takeWhile (· ≠ ':') ++ ':' :: name := by
    rw [← hname, ← List.append_assoc, hsplit]
  have hgoal := congrArg (· ++ ":total".toList) htext
  simpa [KeyObject.segment, KeyObject.rest] using hgoal.symm

/-- When two prefixes share a key. -/
theorem keys_meet_iff (kb kb' : KeyBuilder) : (∃ x y, kb.key x = kb'.key y) ↔
    kb = kb' ∨ kb.Nests kb' ∨ kb'.Nests kb := by
  constructor
  · rintro ⟨x, y, h⟩
    have htext := congrArg String.toList h
    rw [KeyObject.toList_key, KeyObject.toList_key] at htext
    rcases List.append_eq_append_iff.mp htext with ⟨u, hu, hbehind⟩ | ⟨u, hu, hbehind⟩
    · cases u with
      | nil =>
          rw [List.append_nil] at hu
          obtain ⟨p⟩ := kb
          obtain ⟨q⟩ := kb'
          exact .inl (congrArg KeyBuilder.mk (String.toList_inj.mp hu.symm))
      | cons c u =>
          obtain ⟨rfl, htail⟩ := List.cons.inj hbehind
          exact .inr (.inl (nests_of_text hu htail))
    · cases u with
      | nil =>
          rw [List.append_nil] at hu
          obtain ⟨p⟩ := kb
          obtain ⟨q⟩ := kb'
          exact .inl (congrArg KeyBuilder.mk (String.toList_inj.mp hu))
      | cons c u =>
          obtain ⟨rfl, htail⟩ := List.cons.inj hbehind
          exact .inr (.inr (nests_of_text hu htail))
  · rintro (rfl | h | h)
    · exact ⟨.scheduled, .scheduled, rfl⟩
    · exact h.meet
    · obtain ⟨x, y, hkeys⟩ := h.meet
      exact ⟨y, x, hkeys.symm⟩

/-! ## Commands, seen by a deployment -/

/-- The keys that a command may read or change. -/
def ClientOp.Names : ClientOp σ → String → Prop
  | .base .conn, _ => False
  | .base (.setNxEx key _ _), k => k = key
  | .base (.setEx key _ _), k => k = key
  | .base (.lpush key _), k => k = key
  | .base (.lrange key _ _), k => k = key
  | .base (.lrem key _), k => k = key
  | .base (.blmove source target _), k => k = source ∨ k = target
  | .base (.llen key), k => k = key
  | .base (.zadd key _ _), k => k = key
  | .base (.groupComplete completed results _), k => k = completed ∨ k = results
  | .base (.pollScheduled key _ keyPrefix), k => k = key ∨ ∃ q, k = queueKey keyPrefix q
  | .get key, k => k = key
  | .del key, k => k = key
  | .keys pattern, k => matchGlob (keyBytes pattern) (keyBytes k) = true

section Restricted

variable {K : String → Prop} [DecidablePred K] {queueOf : String → Except CommandError String}
  {order : List String} {r : Keyspace σ}

theorem commit_restrict {α : Type} (r : Keyspace σ) (x : Except CommandError (α × Keyspace σ)) :
    commit (r.restrict K) (x.map (Prod.map id (Keyspace.restrict K))) =
      Prod.map id (Keyspace.restrict K) (commit r x) := by
  cases x with
  | error e => rfl
  | ok p => rfl

theorem commit_map_restrict (r : Keyspace σ) (x : Except CommandError (Keyspace σ)) :
    commit (r.restrict K) ((x.map (Keyspace.restrict K)).map ((), ·)) =
      Prod.map id (Keyspace.restrict K) (commit r (x.map ((), ·))) := by
  cases x with
  | error e => rfl
  | ok r' => rfl

theorem groupCompleteScript_restrict {completed results : String} (hcompleted : K completed)
    (hresults : K results) (result : String) :
    groupCompleteScript completed results result (r.restrict K) =
      Prod.map id (Keyspace.restrict K) (groupCompleteScript completed results result r) := by
  unfold groupCompleteScript
  rw [Keyspace.incr_restrict hcompleted]
  cases r.incr completed with
  | error e => rfl
  | ok p =>
      obtain ⟨count, r'⟩ := p
      simp only [Except.map, Prod.map_apply, id_eq]
      rw [Keyspace.rpush_restrict hresults]
      cases r'.rpush results result with
      | error e => rfl
      | ok r'' => rfl

theorem pushDue_restrict {keyPrefix : String} (hqueues : ∀ q, K (queueKey keyPrefix q))
    (items : List String) (r : Keyspace σ) :
    pushDue queueOf keyPrefix items (r.restrict K) =
      Prod.map id (Keyspace.restrict K) (pushDue queueOf keyPrefix items r) := by
  induction items generalizing r with
  | nil => rfl
  | cons item items ih =>
      unfold pushDue
      cases queueOf item with
      | error e => rfl
      | ok queue =>
          dsimp only
          have hkey : K (keyPrefix ++ ":queue:" ++ queue) := hqueues queue
          rw [Keyspace.lpush_restrict hkey]
          cases r.lpush (keyPrefix ++ ":queue:" ++ queue) item with
          | error e => rfl
          | ok r' => exact ih r'

theorem pollScheduledScript_restrict {key keyPrefix : String} (hkey : K key)
    (hqueues : ∀ q, K (queueKey keyPrefix q)) (now : σ) :
    pollScheduledScript queueOf key now keyPrefix (r.restrict K) =
      Prod.map id (Keyspace.restrict K) (pollScheduledScript queueOf key now keyPrefix r) := by
  unfold pollScheduledScript
  rw [Keyspace.zset?_restrict hkey]
  cases r.zset? key with
  | error e => rfl
  | ok set =>
      dsimp only
      split
      · rfl
      · rw [pushDue_restrict hqueues]
        obtain ⟨answer, r'⟩ := pushDue queueOf keyPrefix (set.rangeByScore now 100) r
        cases answer with
        | error e => rfl
        | ok _ =>
            simp only [Prod.map_apply, id_eq]
            rw [Keyspace.zset?_restrict hkey]
            cases r'.zset? key with
            | error e => rfl
            | ok set' => simp [Keyspace.writeZset_restrict hkey]

/-- The keys that match a pattern are found among those one knows. -/
theorem matching_restrict {pattern : String}
    (hkeys : ∀ k, matchGlob (keyBytes pattern) (keyBytes k) = true → K k) :
    matching (r.restrict K) pattern order = matching r pattern order := by
  unfold matching
  refine List.filter_congr fun key _ => ?_
  by_cases hmatch : matchGlob (keyBytes pattern) (keyBytes key) = true
  · rw [Keyspace.live_restrict (hkeys key hmatch)]
  · simp [hmatch]

/-- A command that names keys of `K` does to the restricted store what it does to the
store. -/
theorem performClient_restrict {op : ClientOp σ} (hop : ∀ k, op.Names k → K k) :
    performClient queueOf order (r.restrict K) op =
      Prod.map id (Keyspace.restrict K) (performClient queueOf order r op) := by
  cases op with
  | get key =>
      simp only [performClient, getText, Keyspace.get_restrict (hop key rfl)]
      rfl
  | del key =>
      simp only [performClient, Keyspace.remove_restrict (hop key rfl)]
      rfl
  | keys pattern =>
      simp only [performClient, matching_restrict hop]
      rfl
  | base op =>
      cases op with
      | conn => rfl
      | setNxEx key value secs =>
          simp only [performClient, perform, Keyspace.setNxEx_restrict (hop key rfl)]
          exact commit_restrict r _
      | setEx key value secs =>
          simp only [performClient, perform, Keyspace.setEx_restrict (hop key rfl)]
          exact commit_map_restrict r _
      | lpush key item =>
          simp only [performClient, perform, Keyspace.lpush_restrict (hop key rfl)]
          exact commit_map_restrict r _
      | lrange key start stop =>
          simp only [performClient, perform, Keyspace.lrange_restrict (hop key rfl)]
          rfl
      | lrem key item =>
          simp only [performClient, perform, Keyspace.lrem_restrict (hop key rfl)]
          exact commit_map_restrict r _
      | blmove source target timeout =>
          simp only [performClient, perform,
            Keyspace.lmove_restrict (hop source (.inl rfl)) (hop target (.inr rfl))]
          exact commit_restrict r _
      | llen key =>
          simp only [performClient, perform, Keyspace.llen_restrict (hop key rfl)]
          rfl
      | zadd key score member =>
          simp only [performClient, perform, Keyspace.zadd_restrict (hop key rfl)]
          exact commit_map_restrict r _
      | groupComplete completed results result =>
          exact groupCompleteScript_restrict (hop completed (.inl rfl)) (hop results (.inr rfl)) _
      | pollScheduled key now keyPrefix =>
          exact pollScheduledScript_restrict (hop key (.inl rfl)) (fun q => hop _ (.inr ⟨q, rfl⟩)) _

/-- Such a command waits at the restricted store as it waits at the store. -/
theorem waits_restrict {op : ClientOp σ} (hop : ∀ k, op.Names k → K k) :
    op.waits (r.restrict K) = op.waits r := by
  cases op with
  | base op =>
      cases op with
      | blmove source target timeout =>
          simp only [ClientOp.waits, RedisOp.waits, Keyspace.list?_restrict (hop source (.inl rfl))]
      | _ => rfl
  | _ => rfl

end Restricted

/-! ## Commands take no time of their own -/

section Clock

variable {queueOf : String → Except CommandError String} {order : List String}
  {r r' : Keyspace σ}

theorem clock_writeZset (r : Keyspace σ) (key : String) (set : SortedSet σ) :
    (r.writeZset key set).clock = r.clock := by
  unfold Keyspace.writeZset
  split <;> rfl

theorem clock_pushDue {keyPrefix : String} {items : List String} {a : Except CommandError Unit} :
    ∀ {r r' : Keyspace σ}, pushDue queueOf keyPrefix items r = (a, r') → r'.clock = r.clock := by
  induction items with
  | nil =>
      intro r r' h
      cases h
      rfl
  | cons x xs ih =>
      intro r r' h
      rcases pushDue_cons h with ⟨-, -, rfl⟩ | ⟨q, ys, -, -, hrest⟩
      · rfl
      · rw [ih hrest, Keyspace.clock_writeList]

theorem clock_poll {key keyPrefix : String} {now : σ} {a : Except CommandError Nat}
    (h : pollScheduledScript queueOf key now keyPrefix r = (a, r')) : r'.clock = r.clock := by
  cases hset : r.zset? key with
  | error e =>
      unfold pollScheduledScript at h
      rw [hset] at h
      cases h
      rfl
  | ok set =>
      rcases poll_cases hset h with ⟨-, -, rfl⟩ | ⟨-, r₁, hpush, -, rfl⟩ | ⟨-, e, hpush, -⟩
      · rfl
      · rw [clock_writeZset, clock_pushDue hpush]
      · exact clock_pushDue hpush

theorem clock_groupComplete {completed results result : String} {a : Except CommandError Int}
    (h : groupCompleteScript completed results result r = (a, r')) : r'.clock = r.clock := by
  unfold groupCompleteScript at h
  split at h
  · cases h
    rfl
  · rename_i n r₁ hincr
    obtain ⟨rfl, -⟩ := Keyspace.incr_cases hincr
    split at h
    · cases h
      rfl
    · rename_i r₂ hpush
      obtain ⟨items, -, rfl⟩ := Keyspace.rpush_cases hpush
      cases h
      rw [Keyspace.clock_writeList]
      rfl

/-- A command that reads a list and writes it back. -/
theorem clock_map_writeList {key : String} {f : List String → List String}
    (h : (r.list? key).map (fun items => r.writeList key (f items)) = .ok r') :
    r'.clock = r.clock := by
  cases hlist : r.list? key with
  | error e =>
      rw [hlist] at h
      cases h
  | ok items =>
      rw [hlist] at h
      cases h
      exact r.clock_writeList key _

theorem clock_performClient {op : ClientOp σ} {answer : Except CommandError op.Ans}
    (h : performClient queueOf order r op = (answer, r')) : r'.clock = r.clock := by
  cases op with
  | get key =>
      cases h
      rfl
  | del key =>
      cases h
      rfl
  | keys pattern =>
      cases h
      rfl
  | base op =>
      cases op with
      | conn =>
          cases h
          rfl
      | lrange key start stop =>
          cases h
          rfl
      | llen key =>
          cases h
          rfl
      | setNxEx key value secs =>
          rcases commit_cases h with ⟨set, -, hset⟩ | ⟨e, -, -, rfl⟩
          · obtain ⟨-, ⟨-, -, rfl⟩ | ⟨-, -, rfl⟩⟩ := Keyspace.setNxEx_cases hset <;> rfl
          · rfl
      | setEx key value secs =>
          rcases commit_map_cases h with ⟨-, hset⟩ | ⟨e, -, -, rfl⟩
          · obtain rfl := Keyspace.setEx_cases hset
            rfl
          · rfl
      | lpush key item =>
          rcases commit_map_cases h with ⟨-, hpush⟩ | ⟨e, -, -, rfl⟩
          · exact clock_map_writeList (f := (item :: ·)) hpush
          · rfl
      | lrem key item =>
          rcases commit_map_cases h with ⟨-, hrem⟩ | ⟨e, -, -, rfl⟩
          · exact clock_map_writeList (f := (·.erase item)) hrem
          · rfl
      | blmove source target timeout =>
          rcases commit_cases h with ⟨entry, -, hmove⟩ | ⟨e, -, -, rfl⟩
          · rcases Keyspace.lmove_cases hmove with ⟨-, rfl⟩ | ⟨xs, x, ys, -, -, -, -, rfl⟩
            · rfl
            · rw [Keyspace.clock_writeList, Keyspace.clock_writeList]
          · rfl
      | zadd key score member =>
          rcases commit_map_cases h with ⟨-, hadd⟩ | ⟨e, -, -, rfl⟩
          · unfold Keyspace.zadd at hadd
            cases hset : r.zset? key with
            | error e =>
                rw [hset] at hadd
                cases hadd
            | ok set =>
                rw [hset] at hadd
                cases hadd
                exact clock_writeZset r key _
          · rfl
      | groupComplete completed results result => exact clock_groupComplete h
      | pollScheduled key now keyPrefix => exact clock_poll h

end Clock

/-! ## What a deployment sees -/

theorem keyBytes_append (s t : String) : keyBytes (s ++ t) = keyBytes s ++ keyBytes t := by
  simp [keyBytes, String.toByteArray_append]

/-- A key that begins with the bytes of a text begins with the text. -/
theorem prefix_of_keyBytes {s key : String} {bytes : List UInt8}
    (h : keyBytes key = keyBytes s ++ bytes) : ∃ t, key = s ++ t := by
  have hbegins : s.toList <+: key.toList := by
    refine List.isPrefix_of_utf8Encode_append_eq_utf8Encode ⟨bytes.toArray⟩ ?_
    rw [String.utf8Encode_toList, String.utf8Encode_toList]
    ext1
    apply Array.toList_inj.mp
    unfold keyBytes at h
    simp [h]
  obtain ⟨t, ht⟩ := hbegins
  exact ⟨String.ofList t, String.toList_inj.mp (by simp [← ht])⟩

/-- The keys that `list_queues` asks for are those of queues. -/
theorem match_queue_iff {kb : KeyBuilder} (hplain : ∀ b ∈ keyBytes kb.keyPrefix, Plain b)
    {key : String} :
    matchGlob (keyBytes (kb.keyPrefix ++ ":queue:*")) (keyBytes key) = true ↔
      ∃ name, key = kb.queue name := by
  have hpattern : keyBytes (kb.keyPrefix ++ ":queue:*") =
      keyBytes (kb.keyPrefix ++ ":queue:") ++ [42] := by
    rw [show ":queue:*" = ":queue:" ++ "*" from rfl, ← String.append_assoc, keyBytes_append]
    rfl
  have hsegment : ∀ b ∈ keyBytes ":queue:", Plain b := by decide +kernel
  have hbytes : ∀ b ∈ keyBytes (kb.keyPrefix ++ ":queue:"), Plain b := by
    rw [keyBytes_append]
    intro b hb
    rcases List.mem_append.mp hb with hb | hb
    · exact hplain b hb
    · exact hsegment b hb
  rw [hpattern, matchGlob_plain_append hbytes]
  constructor
  · rintro ⟨rest, hkey, -⟩
    exact prefix_of_keyBytes hkey
  · rintro ⟨name, rfl⟩
    exact ⟨keyBytes name, keyBytes_append _ _, matchGlob_star _⟩

namespace Deployment

/-- The deployment knows the key. -/
def Knows (D : Deployment σ) (key : String) : Prop := ∃ x, key = D.keys.key x

noncomputable instance (D : Deployment σ) : DecidablePred D.Knows :=
  fun key => Classical.propDecidable (D.Knows key)

/-- What a deployment sees of the server. -/
noncomputable def sight (D : Deployment σ) (r : Keyspace σ) : Keyspace σ := r.restrict D.Knows

variable {D : Deployment σ}

/-- A client's command names keys of its deployment. -/
theorem knows_of_names (hplain : ∀ b ∈ keyBytes D.keys.keyPrefix, Plain b)
    (hscheduled : D.keys.scheduled.replace ":scheduled" "" = D.keys.keyPrefix) {op : ClientOp σ}
    (hop : D.Proper op) {key : String} (hkey : op.Names key) : D.Knows key := by
  cases op with
  | get k =>
      obtain ⟨id, rfl⟩ := hop
      exact ⟨.result id.toText, hkey⟩
  | del k =>
      obtain ⟨id, rfl⟩ := hop
      exact ⟨.result id.toText, hkey⟩
  | keys pattern =>
      obtain rfl : pattern = D.keys.keyPrefix ++ ":queue:*" := hop
      obtain ⟨name, hname⟩ := (match_queue_iff hplain).mp hkey
      exact ⟨.queue name, hname⟩
  | base op =>
      cases op with
      | conn => exact hkey.elim
      | lrange k start stop =>
          rcases hop with ⟨w, rfl⟩ | ⟨q, rfl⟩ | ⟨group, rfl⟩
          · exact ⟨.processing w, hkey⟩
          · exact ⟨.dlq q, hkey⟩
          · exact ⟨.groupResults group, hkey⟩
      | llen k =>
          obtain ⟨q, rfl | rfl⟩ := hop
          · exact ⟨.queue q, hkey⟩
          · exact ⟨.dlq q, hkey⟩
      | _ =>
          -- the others change the keys they name
          exact (writer_of_touches hscheduled hop hkey).imp fun _ h => h.1

/-! ## Deployments on one server -/

section Neighbours

variable {ι : Type} [DecidableEq ι] {D : ι → Deployment σ}
  {queueOf : String → Except CommandError String} {i : ι}

/-- The clients of all the deployments, on one server. -/
def neighbours (D : ι → Deployment σ) (queueOf : String → Except CommandError String) :
    Machine (tagged ι (clientCommands σ)) :=
  Machine.shared ((clientServer queueOf).openTo ι) fun i => (D i).program

/-- Two prefixes that do not meet. -/
def Apart (kb kb' : KeyBuilder) : Prop := kb ≠ kb' ∧ ¬ kb.Nests kb' ∧ ¬ kb'.Nests kb

omit [LinearOrder σ] in
theorem Apart.not_knows {D D' : Deployment σ} (h : Apart D'.keys D.keys) (x : KeyObject) :
    ¬ D.Knows (D'.keys.key x) := by
  rintro ⟨y, hkeys⟩
  rcases (keys_meet_iff D'.keys D.keys).mp ⟨x, y, hkeys⟩ with heq | hnests | hnests
  · exact h.1 heq
  · exact h.2.1 hnests
  · exact h.2.2 hnests

/-- A server that is late. -/
theorem respond_late (o : ClientOracle) (r : Keyspace σ) (op : ClientOp σ) (late : Nat) :
    (clientServer queueOf).respond { o with elapsed := late + o.elapsed } r op =
      (clientServer queueOf).respond o (r.advance late) op := by
  unfold clientServer
  dsimp only
  rw [Keyspace.advance_advance]

/-- What a restricted server answers. -/
theorem respond_restrict {K : String → Prop} [DecidablePred K] {op : ClientOp σ}
    (hop : ∀ k, op.Names k → K k) (o : ClientOracle) (r : Keyspace σ) :
    (clientServer queueOf).respond o (r.restrict K) op =
      ((clientServer queueOf).respond o r op).map (Prod.map id (Keyspace.restrict K)) := by
  unfold clientServer
  dsimp only
  rw [Keyspace.restrict_advance, performClient_restrict hop, waits_restrict hop, carried_map]
  split <;> rfl

/-- The deployment, late by the time the others have taken. -/
def Behind (D : Deployment σ) (r a : Keyspace σ) : Prop := ∃ late, D.sight r = a.advance late

/-- A deployment's own commands do to its part of the server what they do to the server. -/
theorem Behind.own {D : Deployment σ} (hplain : ∀ b ∈ keyBytes D.keys.keyPrefix, Plain b)
    (hpoll : D.keys.scheduled.replace ":scheduled" "" = D.keys.keyPrefix) {op : ClientOp σ}
    (hop : D.Proper op) {o : ClientOracle} {r r' a : Keyspace σ}
    {answer : Except CommandError op.Ans} (h : D.Behind r a)
    (hrespond : (clientServer queueOf).respond o r op = some (answer, r')) :
    ∃ (o' : ClientOracle) (a' : Keyspace σ),
      (clientServer queueOf).respond o' a op = some (answer, a') ∧ D.Behind r' a' := by
  obtain ⟨late, hlate⟩ := h
  refine ⟨{ o with elapsed := late + o.elapsed }, D.sight r', ?_, 0, rfl⟩
  rw [respond_late, ← hlate, sight, respond_restrict (K := D.Knows) _ o r, hrespond]
  · rfl
  · exact fun k hk => knows_of_names hplain hpoll hop hk

/-- The commands of the others do nothing to it. -/
theorem Behind.other {D D' : Deployment σ} (hapart : Apart D'.keys D.keys)
    (hpoll : D'.keys.scheduled.replace ":scheduled" "" = D'.keys.keyPrefix) {op : ClientOp σ}
    (hop : D'.Proper op) {o : ClientOracle} {r r' a : Keyspace σ}
    {answer : Except CommandError op.Ans} (h : D.Behind r a)
    (hrespond : (clientServer queueOf).respond o r op = some (answer, r')) : D.Behind r' a := by
  obtain ⟨late, hlate⟩ := h
  have hunseen : D.sight r' = D.sight (r.advance o.elapsed) := by
    rcases clientServer_respond hrespond with ⟨rfl, -⟩ | ⟨done, hperform, -⟩
    · rfl
    · refine Keyspace.restrict_congr (fun key hkey => ?_) (clock_performClient hperform)
      refine keys_performClient (fun htouch => ?_) hperform
      obtain ⟨x, rfl, -⟩ := writer_of_touches hpoll hop htouch
      exact hapart.not_knows x hkey
  have hlater : D.sight (r.advance o.elapsed) = (D.sight r).advance o.elapsed := rfl
  exact ⟨late + o.elapsed, by rw [hunseen, hlater, hlate, Keyspace.advance_advance]⟩

/-- Neighbours do not notice each other.  Deployments share a server, each with any
number of clients, in any order, with any delays and losses.  The prefix of one of them is
apart from those of all the others and has no special characters, and no prefix makes
`poll_scheduled` miss.  Then the history of the server, without what the others do, is a
history of that deployment on a server of its own, with the same answers; what it sees of
the shared server is what is on its own one, when as much time has passed; and its clients
have the same programs left. -/
theorem neighbours_apart (hapart : ∀ j, j ≠ i → Apart (D j).keys (D i).keys)
    (hscheduled : ∀ j, ¬ ":scheduled".toList <:+: (D j).keys.keyPrefix.toList)
    (hplain : ∀ b ∈ keyBytes (D i).keys.keyPrefix, Plain b) {r₀ : Keyspace σ}
    {tr : List (neighbours D queueOf).Label} {c : (neighbours D queueOf).Config}
    (h : (neighbours D queueOf).Reach ⟨r₀, []⟩ tr c) :
    ∃ r ps late, ((D i).machine queueOf).Reach ⟨(D i).sight r₀, []⟩
        (tr.filterMap (Machine.own (clientServer queueOf) i)) ⟨r, Machine.programsOf i ps⟩ ∧
      (D i).sight c.state = r.advance late ∧ c.threads = ps.map fun p => p.2.tag p.1 := by
  have hpoll : ∀ j, (D j).keys.scheduled.replace ":scheduled" "" = (D j).keys.keyPrefix :=
    fun j => (pollPrefix_eq_iff (D j).keys).mpr (hscheduled j)
  have hseparate : Machine.Separate ((clientServer queueOf).openTo ι) (clientServer queueOf)
      (fun j => (D j).Proper) i (D i).Behind :=
    ⟨fun o r op answer r' a hop hbehind hrespond =>
        Behind.own hplain (hpoll i) hop hbehind hrespond,
      fun o r j op answer r' a hj hop hbehind hrespond =>
        Behind.other (hapart j hj) (hpoll j) hop hbehind hrespond⟩
  have hstart : (D i).Behind r₀ ((D i).sight r₀) := ⟨0, rfl⟩
  obtain ⟨r, ps, hreach, ⟨late, hlate⟩, htenanted⟩ :=
    Machine.Reach.tenant (fun j call => proper_program (D := D j) call) hseparate hstart h
  exact ⟨r, ps, late, hreach, hlate, htenanted.eq⟩

end Neighbours

/-- Two deployments on one server. -/
def pair (second : Bool) : Deployment Nat :=
  { plain with keys := ⟨if second then "kojin:b" else "kojin"⟩ }

theorem pair_apart (j : Bool) (hj : j ≠ false) : Apart (pair j).keys (pair false).keys := by
  cases j with
  | false => exact absurd rfl hj
  | true =>
      refine ⟨by decide, ?_, ?_⟩
      · rintro ⟨u, hu, -⟩
        exact absurd (congrArg List.length hu) (by simp [pair])
      · rintro ⟨u, hu, hword⟩
        have hu' : u = ['b'] := by simpa [pair] using hu.symm
        rw [hu'] at hword
        revert hword
        decide

/-- The two deployments send a message each, and a worker of the first takes its own. -/
def pairSchedule : List (neighbours pair plainQueue).Move :=
  [.env ⟨false, .broker "p" 300 (.enqueue (plainMessage ⟨1⟩))⟩,
    .env ⟨true, .broker "p" 300 (.enqueue (plainMessage ⟨1⟩))⟩,
    .env ⟨false, .dequeue "w" ["q"] 1⟩, .run 0 atOnce, .run 1 atOnce, .run 1 atOnce, .run 0 atOnce,
    .run 2 atOnce, .run 2 atOnce]

theorem pairSchedule_plays : (Machine.Config.playAll (M := neighbours pair plainQueue)
    ⟨Keyspace.empty 0, []⟩ pairSchedule).isSome = true := by
  decide +kernel

/-- The first deployment, and what it sees. -/
theorem neighbours_apart_pair : ∃ (tr : List (neighbours pair plainQueue).Label)
    (c : (neighbours pair plainQueue).Config) (r : Keyspace Nat)
    (ps : List (Bool × Prog (clientCommands Nat) Unit)) (late : Nat),
    (tr.length, Keyspace.items c.state "kojin:processing:w",
      Keyspace.items c.state "kojin:b:queue:q") = (9, [plainText], [plainText]) ∧
    ((pair false).machine plainQueue).Reach ⟨(pair false).sight (Keyspace.empty 0), []⟩
      (tr.filterMap (Machine.own (clientServer plainQueue) false))
      ⟨r, Machine.programsOf false ps⟩ ∧
    (pair false).sight c.state = r.advance late ∧ c.threads = ps.map fun p => p.2.tag p.1 := by
  have hreach := Machine.Config.reach_of_get pairSchedule_plays
  obtain ⟨r, ps, late, hown⟩ := neighbours_apart (i := false) pair_apart
    (fun j => by cases j <;> decide) (by decide +kernel) hreach
  exact ⟨_, _, r, ps, late, by decide +kernel, hown⟩

end Deployment

end Kojin.Redis
