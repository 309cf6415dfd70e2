/-
  Redis/Poll.lean --- moving due messages to their queues (`kojin-redis`:
  `POLL_SCHEDULED_SCRIPT`).

  The script reads at most a hundred due members, pushes them, and then removes
  all due members.  So it moves exactly what it removes as long as no more than a
  hundred are due and every one of them can be pushed, or when the very first
  cannot, in which case nothing happens at all.  `poll_exact_iff` says that these
  are the only cases.

  A member can be pushed when its text names a queue whose key holds a list or
  nothing.
-/
import Kojin.Core.Message
import Kojin.Redis.Keys
import Kojin.Redis.Commands

set_option autoImplicit false

namespace Kojin.Redis

open Kojin.Foundation

variable {σ : Type} [LinearOrder σ]

section Poll

variable (queueOf : String → Except CommandError String) (keyPrefix : String)

/-- The key of the list a member with queue `q` is pushed to. -/
def queueKey (q : String) : String := keyPrefix ++ ":queue:" ++ q

/-- The member names a queue, and its key can be pushed to. -/
def Pushable (r : Keyspace σ) (x : String) : Prop :=
  ∃ q, queueOf x = .ok q ∧ ∃ xs, r.list? (queueKey keyPrefix q) = .ok xs

variable {queueOf keyPrefix}

/-! ## The loop -/

/-- One round of the loop. -/
theorem pushDue_cons {x : String} {xs : List String} {r r' : Keyspace σ}
    {a : Except CommandError Unit} (h : pushDue queueOf keyPrefix (x :: xs) r = (a, r')) :
    (¬ Pushable queueOf keyPrefix r x ∧ (∃ e, a = .error e) ∧ r' = r) ∨
      ∃ q ys, queueOf x = .ok q ∧ r.list? (queueKey keyPrefix q) = .ok ys ∧
        pushDue queueOf keyPrefix xs (r.writeList (queueKey keyPrefix q) (x :: ys)) = (a, r') := by
  unfold pushDue at h
  split at h
  · rename_i e hqueue
    cases h
    refine .inl ⟨?_, ⟨e, rfl⟩, rfl⟩
    rintro ⟨q, hq, -⟩
    rw [hqueue] at hq
    cases hq
  · rename_i q hqueue
    split at h
    · rename_i e hpush
      cases h
      refine .inl ⟨?_, ⟨e, rfl⟩, rfl⟩
      rintro ⟨q', hq', ys, hys⟩
      obtain rfl : q = q' := Except.ok.inj (hqueue.symm.trans hq')
      unfold Keyspace.lpush at hpush
      rw [show r.list? (keyPrefix ++ ":queue:" ++ q) = .ok ys from hys] at hpush
      cases hpush
    · rename_i r₁ hpush
      obtain ⟨ys, hys, rfl⟩ := Keyspace.lpush_cases hpush
      exact .inr ⟨q, ys, hqueue, hys, h⟩

/-- A push does not change which members can be pushed. -/
theorem pushable_writeList {r : Keyspace σ} {key x : String} {ys : List String}
    (hys : ∃ xs, r.list? key = .ok xs) :
    Pushable queueOf keyPrefix (r.writeList key ys) x ↔ Pushable queueOf keyPrefix r x := by
  have hkey : ∀ k, (∃ xs, (r.writeList key ys).list? k = .ok xs) ↔ ∃ xs, r.list? k = .ok xs := by
    intro k
    by_cases hk : k = key
    · subst hk
      rw [Keyspace.list?_writeList]
      exact ⟨fun _ => hys, fun _ => ⟨ys, rfl⟩⟩
    · rw [Keyspace.list?_writeList_ne r hk]
  unfold Pushable
  simp only [hkey]

/-- How often a member is in the list of its queue after one push. -/
theorem count_push {r : Keyspace σ} {x y p q : String} {ys : List String}
    (hp : queueOf x = .ok p) (hq : queueOf y = .ok q)
    (hys : r.list? (queueKey keyPrefix q) = .ok ys) :
    ((r.writeList (queueKey keyPrefix q) (y :: ys)).items (queueKey keyPrefix p)).count x =
      (r.items (queueKey keyPrefix p)).count x + [y].count x := by
  by_cases hkey : queueKey keyPrefix p = queueKey keyPrefix q
  · rw [hkey, Keyspace.items_of_list? (Keyspace.list?_writeList r _ _),
      Keyspace.items_of_list? hys, List.count_cons, List.count_singleton]
  · -- another list, so another member
    have hne : y ≠ x := by
      rintro rfl
      exact hkey (congrArg _ (Except.ok.inj (hp.symm.trans hq)))
    rw [Keyspace.items_congr (Keyspace.get_writeList_ne r hkey _),
      List.count_cons_of_ne hne, List.count_nil, Nat.add_zero]

/-- A loop that succeeds has pushed every member, and each once. -/
theorem pushDue_ok {xs : List String} :
    ∀ {r r' : Keyspace σ}, pushDue queueOf keyPrefix xs r = (.ok (), r') →
      (∀ x ∈ xs, Pushable queueOf keyPrefix r x) ∧
      ∀ x q, queueOf x = .ok q → (r'.items (queueKey keyPrefix q)).count x =
        (r.items (queueKey keyPrefix q)).count x + xs.count x := by
  induction xs with
  | nil =>
      intro r r' h
      cases h
      exact ⟨nofun, fun _ _ _ => rfl⟩
  | cons y xs ih =>
      intro r r' h
      rcases pushDue_cons h with ⟨-, ⟨e, he⟩, -⟩ | ⟨q, ys, hq, hys, hrest⟩
      · cases he
      · obtain ⟨hpushable, hcount⟩ := ih hrest
        refine ⟨?_, ?_⟩
        · intro x hx
          rcases List.mem_cons.mp hx with rfl | hx
          · exact ⟨q, hq, ys, hys⟩
          · exact (pushable_writeList ⟨ys, hys⟩).mp (hpushable x hx)
        · intro x p hp
          have hsplit : (y :: xs).count x = [y].count x + xs.count x := by
            rw [← List.count_append, List.singleton_append]
          rw [hcount x p hp, count_push hp hq hys, hsplit, Nat.add_assoc]

/-- A loop that fails has pushed the members before the first that cannot be
pushed. -/
theorem pushDue_error {xs : List String} {e : CommandError} :
    ∀ {r r' : Keyspace σ}, pushDue queueOf keyPrefix xs r = (.error e, r') →
      ∃ before x after, xs = before ++ x :: after ∧ ¬ Pushable queueOf keyPrefix r x ∧
        pushDue queueOf keyPrefix before r = (.ok (), r') := by
  induction xs with
  | nil =>
      intro r r' h
      cases h
  | cons y xs ih =>
      intro r r' h
      rcases pushDue_cons h with ⟨hnot, -, rfl⟩ | ⟨q, ys, hq, hys, hrest⟩
      · exact ⟨[], y, xs, rfl, hnot, rfl⟩
      · obtain ⟨before, x, after, rfl, hnot, hbefore⟩ := ih hrest
        refine ⟨y :: before, x, after, rfl, fun h => hnot ((pushable_writeList ⟨ys, hys⟩).mpr h), ?_⟩
        have hlpush : r.lpush (keyPrefix ++ ":queue:" ++ q) y =
            .ok (r.writeList (queueKey keyPrefix q) (y :: ys)) := by
          unfold Keyspace.lpush
          rw [show r.list? (keyPrefix ++ ":queue:" ++ q) = .ok ys from hys]
          rfl
        rw [pushDue, hq]
        simp only [hlpush]
        exact hbefore

/-- The loop does not touch a sorted set. -/
theorem get_pushDue {xs : List String} {key : String} {set : SortedSet σ}
    {a : Except CommandError Unit} :
    ∀ {r r' : Keyspace σ}, pushDue queueOf keyPrefix xs r = (a, r') →
      r.get key = some (.zset set) → r'.get key = some (.zset set) := by
  induction xs with
  | nil =>
      intro r r' h hget
      cases h
      exact hget
  | cons y xs ih =>
      intro r r' h hget
      rcases pushDue_cons h with ⟨-, -, rfl⟩ | ⟨q, ys, hq, hys, hrest⟩
      · exact hget
      · refine ih hrest ?_
        have hne : key ≠ queueKey keyPrefix q := by
          rintro rfl
          unfold Keyspace.list? at hys
          rw [hget] at hys
          cases hys
        rw [Keyspace.get_writeList_ne r hne]
        exact hget

/-! ## The script -/

variable {r r' : Keyspace σ} {scheduledKey : String} {now : σ} {set : SortedSet σ}
  {a : Except CommandError Nat}

/-- What the script can do. -/
theorem poll_cases (hset : r.zset? scheduledKey = .ok set)
    (h : pollScheduledScript queueOf scheduledKey now keyPrefix r = (a, r')) :
    (set.upTo now = [] ∧ a = .ok 0 ∧ r' = r) ∨
    (set.upTo now ≠ [] ∧ ∃ r₁,
      pushDue queueOf keyPrefix ((set.upTo now).take 100) r = (.ok (), r₁) ∧
      a = .ok ((set.upTo now).take 100).length ∧
      r' = r₁.writeZset scheduledKey (set.removeByScore now)) ∨
    (set.upTo now ≠ [] ∧ ∃ e,
      pushDue queueOf keyPrefix ((set.upTo now).take 100) r = (.error e, r') ∧ a = .error e) := by
  have hrange : set.rangeByScore now 100 = (set.upTo now).take 100 := rfl
  unfold pollScheduledScript at h
  simp only [hset, hrange] at h
  by_cases hnil : set.upTo now = []
  · rw [if_pos (by rw [hnil]; rfl)] at h
    cases h
    exact .inl ⟨hnil, rfl, rfl⟩
  · have htake : (set.upTo now).take 100 ≠ [] := by
      intro heq
      rcases List.take_eq_nil_iff.mp heq with hzero | hnil'
      · cases hzero
      · exact hnil hnil'
    have hentries : set.entries ≠ [] := by
      intro heq
      unfold SortedSet.upTo at hnil
      rw [heq] at hnil
      exact hnil rfl
    rw [if_neg htake] at h
    split at h
    · rename_i e r₁ hpush
      cases h
      exact .inr (.inr ⟨hnil, e, hpush, rfl⟩)
    · rename_i r₁ hpush
      have hget := get_pushDue hpush (Keyspace.get_of_zset? hset hentries)
      have hset₁ : r₁.zset? scheduledKey = .ok set := by
        unfold Keyspace.zset?
        rw [hget]
      simp only [hset₁] at h
      cases h
      exact .inr (.inl ⟨hnil, r₁, hpush, rfl, rfl⟩)

variable (queueOf keyPrefix) in
/-- The member is once more in the list of its queue, and no longer scheduled. -/
def Moved (r r' : Keyspace σ) (set' : SortedSet σ) (x : String) : Prop :=
  x ∉ set'.members ∧ ∃ q, queueOf x = .ok q ∧
    (r'.items (queueKey keyPrefix q)).count x = (r.items (queueKey keyPrefix q)).count x + 1

variable (queueOf keyPrefix) in
/-- The member is still scheduled, and has not been pushed. -/
def Kept (r r' : Keyspace σ) (set' : SortedSet σ) (x : String) : Prop :=
  x ∈ set'.members ∧ ∀ q, queueOf x = .ok q →
    (r'.items (queueKey keyPrefix q)).count x = (r.items (queueKey keyPrefix q)).count x

variable (queueOf keyPrefix) in
/-- A run of the script moves exactly what it removes: `set` is the scheduled set
before it, `r` and `r'` the stores before and after, `a` its answer. -/
def PollExact (scheduledKey : String) (now : σ) (set : SortedSet σ) (r : Keyspace σ)
    (a : Except CommandError Nat) (r' : Keyspace σ) : Prop :=
  ∃ set', r'.zset? scheduledKey = .ok set' ∧
    (∀ x ∈ set.upTo now, Moved queueOf keyPrefix r r' set' x ∨ Kept queueOf keyPrefix r r' set' x) ∧
    (∀ e ∈ set.entries, ¬ e.1 ≤ now → e ∈ set'.entries) ∧
    ∀ n, a = .ok n → n + set'.entries.length = set.entries.length

/-- Without an effect on the store the script is exact, if it counts nothing. -/
theorem pollExact_idle (hset : r.zset? scheduledKey = .ok set) (ha : ∀ n, a = .ok n → n = 0) :
    PollExact queueOf keyPrefix scheduledKey now set r a r := by
  refine ⟨set, hset, ?_, fun e he _ => he, ?_⟩
  · intro x hx
    exact .inr ⟨SortedSet.mem_members_of_upTo hx, fun _ _ => rfl⟩
  · intro n hn
    rw [ha n hn, Nat.zero_add]

/-- Every due member has been pushed. -/
theorem pollExact_of_pushed {r₁ : Keyspace σ} (hset : r.zset? scheduledKey = .ok set)
    (hne : set.upTo now ≠ [])
    (hpush : pushDue queueOf keyPrefix (set.upTo now) r = (.ok (), r₁)) :
    PollExact queueOf keyPrefix scheduledKey now set r (.ok (set.upTo now).length)
      (r₁.writeZset scheduledKey (set.removeByScore now)) := by
  obtain ⟨hpushable, hcount⟩ := pushDue_ok hpush
  have hentries : set.entries ≠ [] := by
    intro heq
    unfold SortedSet.upTo at hne
    rw [heq] at hne
    exact hne rfl
  have hget := Keyspace.get_of_zset? hset hentries
  refine ⟨set.removeByScore now, Keyspace.zset?_writeZset r₁ _ _, ?_, ?_, ?_⟩
  · intro x hx
    obtain ⟨q, hq, ys, hys⟩ := hpushable x hx
    have hkey : queueKey keyPrefix q ≠ scheduledKey := by
      intro heq
      rw [heq] at hys
      unfold Keyspace.list? at hys
      rw [hget] at hys
      cases hys
    refine .inl ⟨SortedSet.notMem_removeByScore hx, q, hq, ?_⟩
    rw [Keyspace.items_congr (Keyspace.get_writeZset_ne r₁ hkey _), hcount x q hq,
      List.count_eq_one_of_mem (set.nodup_upTo now) hx]
  · intro e he hlate
    exact List.mem_filter.mpr ⟨he, by simpa using hlate⟩
  · intro n hn
    cases hn
    exact set.length_removeByScore now

/-- More than a hundred are due: the others are removed without having been
pushed. -/
theorem not_pollExact_of_many {r₁ : Keyspace σ} {a : Except CommandError Nat}
    (hset : r.zset? scheduledKey = .ok set) (hmany : 100 < (set.upTo now).length)
    (hpush : pushDue queueOf keyPrefix ((set.upTo now).take 100) r = (.ok (), r₁)) :
    ¬ PollExact queueOf keyPrefix scheduledKey now set r a
      (r₁.writeZset scheduledKey (set.removeByScore now)) := by
  rintro ⟨set', hset', hdue, -, -⟩
  obtain rfl : set.removeByScore now = set' :=
    Except.ok.inj ((Keyspace.zset?_writeZset r₁ _ _).symm.trans hset')
  -- the first member behind the page
  obtain ⟨x, rest, hdrop⟩ : ∃ x rest, (set.upTo now).drop 100 = x :: rest := by
    refine List.exists_cons_of_ne_nil ?_
    intro hnil
    have hle := List.drop_eq_nil_iff.mp hnil
    omega
  have hsplit : set.upTo now = (set.upTo now).take 100 ++ x :: rest := by
    rw [← hdrop, List.take_append_drop]
  have hx : x ∈ set.upTo now := by
    rw [hsplit]
    exact List.mem_append.mpr (.inr List.mem_cons_self)
  have hunpushed : ((set.upTo now).take 100).count x = 0 := by
    refine List.count_eq_zero.mpr ?_
    intro hmem
    have hnodup := set.nodup_upTo now
    rw [hsplit] at hnodup
    exact (List.nodup_append.mp hnodup).2.2 x hmem x List.mem_cons_self rfl
  rcases hdue x hx with ⟨-, q, hq, hcount⟩ | ⟨hmem, -⟩
  · by_cases hkey : queueKey keyPrefix q = scheduledKey
    · rw [hkey, Keyspace.items_of_zset? hset', Keyspace.items_of_zset? hset] at hcount
      cases hcount
    · rw [Keyspace.items_congr (Keyspace.get_writeZset_ne r₁ hkey _),
        (pushDue_ok hpush).2 x q hq, hunpushed] at hcount
      omega
  · exact SortedSet.notMem_removeByScore hx hmem

/-- The loop stopped after it had pushed something: that is now in its queue and
still scheduled. -/
theorem not_pollExact_of_stopped {a : Except CommandError Nat} {before : List String}
    (hset : r.zset? scheduledKey = .ok set) (hne : before ≠ [])
    (hsub : ∀ x ∈ before, x ∈ set.upTo now)
    (hpush : pushDue queueOf keyPrefix before r = (.ok (), r')) :
    ¬ PollExact queueOf keyPrefix scheduledKey now set r a r' := by
  rintro ⟨set', hset', hdue, -, -⟩
  obtain ⟨x, rest, rfl⟩ := List.exists_cons_of_ne_nil hne
  have hx : x ∈ set.upTo now := hsub x List.mem_cons_self
  have hentries : set.entries ≠ [] := by
    intro heq
    have hmem := SortedSet.mem_members_of_upTo hx
    unfold SortedSet.members at hmem
    rw [heq] at hmem
    cases hmem
  obtain rfl : set = set' := by
    unfold Keyspace.zset? at hset'
    rw [get_pushDue hpush (Keyspace.get_of_zset? hset hentries)] at hset'
    exact Except.ok.inj hset'
  rcases hdue x hx with ⟨hnot, -⟩ | ⟨-, hcount⟩
  · exact hnot (SortedSet.mem_members_of_upTo hx)
  · obtain ⟨hpushable, hpushed⟩ := pushDue_ok hpush
    obtain ⟨q, hq, -⟩ := hpushable x List.mem_cons_self
    have hsame := hcount q hq
    rw [hpushed x q hq, List.count_cons_self] at hsame
    omega

variable (queueOf keyPrefix) in
/-- At most a hundred members are due and all can be pushed, or the first of them
cannot. -/
def PollSafe (now : σ) (set : SortedSet σ) (r : Keyspace σ) : Prop :=
  ((set.upTo now).length ≤ 100 ∧ ∀ x ∈ set.upTo now, Pushable queueOf keyPrefix r x) ∨
    ∃ x ∈ (set.upTo now).head?, ¬ Pushable queueOf keyPrefix r x

/-- When polling moves exactly what it removes. -/
theorem poll_exact_iff (hset : r.zset? scheduledKey = .ok set)
    (h : pollScheduledScript queueOf scheduledKey now keyPrefix r = (a, r')) :
    PollExact queueOf keyPrefix scheduledKey now set r a r' ↔
      PollSafe queueOf keyPrefix now set r := by
  rcases poll_cases hset h with ⟨hnil, rfl, rfl⟩ | ⟨hne, r₁, hpush, rfl, rfl⟩ |
    ⟨hne, e, hpush, rfl⟩
  · refine ⟨fun _ => .inl ?_, fun _ => pollExact_idle hset ?_⟩
    · rw [hnil]
      exact ⟨Nat.zero_le _, nofun⟩
    · intro n hn
      exact (Except.ok.inj hn).symm
  · obtain ⟨hpushable, -⟩ := pushDue_ok hpush
    by_cases hle : (set.upTo now).length ≤ 100
    · rw [List.take_of_length_le hle] at hpush hpushable ⊢
      exact ⟨fun _ => .inl ⟨hle, hpushable⟩, fun _ => pollExact_of_pushed hset hne hpush⟩
    · refine ⟨fun hexact => ?_, fun hsafe => ?_⟩
      · exact absurd hexact (not_pollExact_of_many hset (by omega) hpush)
      · rcases hsafe with ⟨hle', -⟩ | ⟨x, hx, hnot⟩
        · exact absurd hle' hle
        · obtain ⟨rest, hdue⟩ := List.head?_eq_some_iff.mp hx
          refine absurd (hpushable x ?_) hnot
          rw [hdue]
          exact List.mem_cons_self
  · obtain ⟨before, x, after, hsplit, hnot, hbefore⟩ := pushDue_error hpush
    have hsub : ∀ y ∈ before ++ x :: after, y ∈ set.upTo now := by
      intro y hy
      rw [← hsplit] at hy
      exact List.mem_of_mem_take hy
    cases before with
    | nil =>
        cases hbefore
        have hhead : x ∈ (set.upTo now).head? := by
          have hhead' := congrArg List.head? hsplit
          rw [List.head?_take] at hhead'
          exact hhead'
        exact ⟨fun _ => .inr ⟨x, hhead, hnot⟩, fun _ => pollExact_idle hset nofun⟩
    | cons y before =>
        refine ⟨fun hexact => ?_, fun hsafe => ?_⟩
        · refine absurd hexact (not_pollExact_of_stopped hset (List.cons_ne_nil y before) ?_ hbefore)
          intro z hz
          exact hsub z (List.mem_append.mpr (.inl hz))
        · rcases hsafe with ⟨-, hall⟩ | ⟨z, hz, hnotz⟩
          · exact absurd (hall x (hsub x (List.mem_append.mpr (.inr List.mem_cons_self)))) hnot
          · -- the head of the due members is the first that was pushed
            have hhead := congrArg List.head? hsplit
            rw [List.head?_take] at hhead
            obtain rfl : y = z := Option.some.inj (hhead.symm.trans hz)
            exact absurd ((pushDue_ok hbefore).1 y List.mem_cons_self) hnotz

end Poll

/-! ## More than a page -/

section Page

open Kojin.Core

/-- The `i`-th of many scheduled messages. -/
def scheduledMessage (i : Nat) : String := (plainMessage ⟨BitVec.ofNat 128 i⟩).encode fun _ => ""

theorem scheduledMessage_inj {i j : Nat} (hi : i < 2 ^ 128) (hj : j < 2 ^ 128)
    (h : scheduledMessage i = scheduledMessage j) : i = j := by
  have hid : (⟨BitVec.ofNat 128 i⟩ : TaskId) = ⟨BitVec.ofNat 128 j⟩ := TaskMessage.id_of_encode h
  have hnat := congrArg BitVec.toNat (congrArg TaskId.uuid hid)
  rwa [BitVec.toNat_ofNat, BitVec.toNat_ofNat, Nat.mod_eq_of_lt hi, Nat.mod_eq_of_lt hj] at hnat

/-- A hundred and one messages, due one after the other. -/
def crowdedSet : SortedSet Nat where
  entries := (List.range 101).map fun i => (i, scheduledMessage i)
  sorted := by
    refine List.pairwise_map.mpr (List.pairwise_lt_range.imp ?_)
    intro i j hij
    exact Prod.Lex.toLex_le_toLex.mpr (.inl hij)
  nodup := by
    rw [List.map_map]
    refine List.Nodup.map_on ?_ List.nodup_range
    intro i hi j hj h
    have hi' := List.mem_range.mp hi
    have hj' := List.mem_range.mp hj
    exact scheduledMessage_inj (by omega) (by omega) h

/-- A store that holds only a scheduled set. -/
def scheduledStore (set : SortedSet Nat) : Keyspace Nat :=
  (Keyspace.empty 0).write "kojin:scheduled" (.zset set)

/-- Everything is scheduled for the queue `q`. -/
def queueQ : String → Except CommandError String := fun _ => .ok "q"

theorem scheduledStore_zset (set : SortedSet Nat) :
    (scheduledStore set).zset? "kojin:scheduled" = .ok set := by
  unfold Keyspace.zset? scheduledStore
  rw [Keyspace.get_write, if_pos rfl]

theorem scheduledStore_pushable (set : SortedSet Nat) (x : String) :
    Pushable queueQ "kojin" (scheduledStore set) x := by
  refine ⟨"q", rfl, [], ?_⟩
  have hne : queueKey "kojin" "q" ≠ "kojin:scheduled" :=
    KeyBuilder.queue_ne_scheduled ⟨"kojin"⟩ "q"
  unfold Keyspace.list? scheduledStore
  rw [Keyspace.get_write, if_neg hne]
  rfl

/-- Two messages that are due at 5, and one that is not. -/
def mixedSet : SortedSet Nat where
  entries := [(2, scheduledMessage 2), (4, scheduledMessage 0), (9, scheduledMessage 1)]
  sorted := by
    simp [EntryLE, Prod.Lex.toLex_le_toLex]
  nodup := by
    have hne : ∀ {i j : Nat}, i < 3 → j < 3 → i ≠ j → scheduledMessage i ≠ scheduledMessage j :=
      fun hi hj h heq => h (scheduledMessage_inj (by omega) (by omega) heq)
    simp [hne]

/-- The two are due in the order of their times. -/
theorem upTo_mixedSet : mixedSet.upTo 5 = [scheduledMessage 2, scheduledMessage 0] := by
  simp [SortedSet.upTo, mixedSet]

/-- The two due messages are moved, and the third stays. -/
theorem poll_exact_mixed :
    PollExact queueQ "kojin" "kojin:scheduled" 5 mixedSet (scheduledStore mixedSet)
      (pollScheduledScript queueQ "kojin:scheduled" 5 "kojin" (scheduledStore mixedSet)).1
      (pollScheduledScript queueQ "kojin:scheduled" 5 "kojin" (scheduledStore mixedSet)).2 := by
  refine (poll_exact_iff (scheduledStore_zset mixedSet) rfl).mpr (.inl ⟨?_, ?_⟩)
  · rw [upTo_mixedSet]
    decide
  · intro x _
    exact scheduledStore_pushable mixedSet x

theorem length_crowdedSet : (crowdedSet.upTo 100).length = 101 := by
  have hall : (crowdedSet.entries.filter fun e => e.1 ≤ 100) = crowdedSet.entries := by
    refine List.filter_eq_self.mpr ?_
    intro e he
    obtain ⟨i, hi, rfl⟩ := List.mem_map.mp he
    have hlt := List.mem_range.mp hi
    exact decide_eq_true (show i ≤ 100 by omega)
  rw [SortedSet.upTo, List.length_map, hall, crowdedSet, List.length_map, List.length_range]

/-- The hundred and first due message is lost. -/
theorem poll_loses_101st :
    ¬ PollExact queueQ "kojin" "kojin:scheduled" 100 crowdedSet (scheduledStore crowdedSet)
      (pollScheduledScript queueQ "kojin:scheduled" 100 "kojin" (scheduledStore crowdedSet)).1
      (pollScheduledScript queueQ "kojin:scheduled" 100 "kojin" (scheduledStore crowdedSet)).2 := by
  have hset := scheduledStore_zset crowdedSet
  have hlength := length_crowdedSet
  generalize hout : pollScheduledScript queueQ "kojin:scheduled" 100 "kojin"
    (scheduledStore crowdedSet) = out
  obtain ⟨a, r'⟩ := out
  rcases poll_cases hset hout with ⟨hnil, -, -⟩ | ⟨-, r₁, hpush, -, rfl⟩ | ⟨-, e, hpush, -⟩
  · rw [hnil] at hlength
    cases hlength
  · exact not_pollExact_of_many hset (by rw [hlength]; decide) hpush
  · obtain ⟨before, x, after, -, hnot, -⟩ := pushDue_error hpush
    exact absurd (scheduledStore_pushable crowdedSet x) hnot

end Page

end Kojin.Redis
