/-
  Redis/DlqPages.lean --- the pages of a dead-letter list (`kojin-redis`:
  `RedisBroker::dlq_messages`).

  The page goes to Redis as the indices of its first and last entry.  The last is
  `offset + limit - 1`, computed in `usize`, and both are cast to `isize`, so that a large
  index reaches Redis as a negative one, which counts from the end of the list.
-/
import Kojin.Foundation.Page
import Kojin.Redis.Ack

set_option autoImplicit false

namespace Kojin.Redis

open Kojin.Foundation Kojin.Core

/-- `offset + limit - 1` in `usize`, of 64 bits; nothing where the sum or the difference
leaves the range. -/
def pageEnd (offset limit : UInt64) : Option UInt64 :=
  if offset.toNat + limit.toNat < 2 ^ 64 then
    if 1 ≤ (offset + limit).toNat then some (offset + limit - 1) else none
  else none

/-- `u as isize`. -/
def asIsize (u : UInt64) : Int := if u.toNat < 2 ^ 63 then u.toNat else u.toNat - 2 ^ 64

namespace RedisBroker

variable {σ : Type} [LinearOrder σ]

/-- The entries as messages, up to the first that cannot be read. -/
def decodeAll (codec : RedisCodec σ) (items : List String) : TaskResult (List TaskMessage) :=
  items.mapM fun s => (codec.decodeMessage s).mapError .serialization

/-- `RedisBroker::dlq_messages`.  It answers `none` where the arithmetic of the range fails. -/
def dlqMessages (b : RedisBroker) (codec : RedisCodec σ) (queue : String)
    (offset limit : UInt64) : Attempt σ (Option (List TaskMessage)) := do
  command brokerErr .conn
  match pageEnd offset limit with
  | none => pure none
  | some stop => do
      let items ← command brokerErr (.lrange (b.keys.dlq queue) (asIsize offset) (asIsize stop))
      decoded ((decodeAll codec items).map some)

end RedisBroker

/-! ## The indices -/

/-- What `LRANGE` answers on a list. -/
def slice (items : List String) (start stop : Int) : List String :=
  let first := (if start < 0 then start + items.length else start).toNat
  let last := if stop < 0 then stop + items.length else stop
  (items.drop first).take (last + 1 - first).toNat

theorem lrange_of_list? {σ : Type} [LinearOrder σ] {r : Keyspace σ} {key : String}
    {items : List String} (h : r.list? key = .ok items) (start stop : Int) :
    r.lrange key start stop = .ok (slice items start stop) := by
  unfold Keyspace.lrange
  rw [h]
  rfl

/-- The range of a page can be computed, and Redis reads both its indices from the front,
or what it reads otherwise is as empty as the page. -/
def PageInRange (length offset limit : Nat) : Prop :=
  1 ≤ offset + limit ∧ offset + limit < 2 ^ 64 ∧
    (offset < 2 ^ 63 ∧ (offset + limit ≤ 2 ^ 63 ∨ length ≤ offset) ∨
      2 ^ 63 ≤ offset ∧ (length = 0 ∨ limit = 0 ∧ 2 ^ 63 < offset ∨
        1 ≤ limit ∧ length + offset + limit ≤ 2 ^ 64))

instance (length offset limit : Nat) : Decidable (PageInRange length offset limit) := by
  unfold PageInRange
  infer_instance

section Indices

variable {items : List String} {offset limit stop : UInt64}

theorem pageEnd_eq_some (h : pageEnd offset limit = some stop) :
    1 ≤ offset.toNat + limit.toNat ∧ offset.toNat + limit.toNat < 2 ^ 64 ∧
      stop.toNat = offset.toNat + limit.toNat - 1 := by
  unfold pageEnd at h
  split at h
  · rename_i hsum
    have hadd : (offset + limit).toNat = offset.toNat + limit.toNat := by
      rw [UInt64.toNat_add, Nat.mod_eq_of_lt hsum]
    split at h
    · rename_i hone
      cases h
      rw [hadd] at hone
      refine ⟨hone, hsum, ?_⟩
      rw [UInt64.toNat_sub_of_le _ _ (UInt64.le_iff_toNat_le.mpr (by rw [hadd]; exact hone)), hadd]
      rfl
    · cases h
  · cases h

theorem pageEnd_isSome (hone : 1 ≤ offset.toNat + limit.toNat)
    (hsum : offset.toNat + limit.toNat < 2 ^ 64) : ∃ stop, pageEnd offset limit = some stop := by
  have hadd : (offset + limit).toNat = offset.toNat + limit.toNat := by
    rw [UInt64.toNat_add, Nat.mod_eq_of_lt hsum]
  exact ⟨offset + limit - 1, by rw [pageEnd, if_pos hsum, if_pos (by rw [hadd]; exact hone)]⟩

/-- How many entries are read. -/
theorem length_slice (start stop : Int) :
    (slice items start stop).length =
      min ((if stop < 0 then stop + items.length else stop) + 1 -
        ((if start < 0 then start + items.length else start).toNat : Int)).toNat
        (items.length - (if start < 0 then start + items.length else start).toNat) := by
  unfold slice
  rw [List.length_take, List.length_drop]

/-- What is read has the length of the page just when the range is in order. -/
theorem length_slice_page (hitems : items.length < 2 ^ 63) (h : pageEnd offset limit = some stop) :
    (slice items (asIsize offset) (asIsize stop)).length =
        (page items offset.toNat limit.toNat).length ↔
      PageInRange items.length offset.toNat limit.toNat := by
  obtain ⟨hone, hsum, hstop⟩ := pageEnd_eq_some h
  rw [length_slice, length_page, PageInRange, asIsize, asIsize, hstop]
  generalize offset.toNat = o at *
  generalize limit.toNat = m at *
  generalize items.length = n at *
  clear h hstop
  split <;> split <;> split <;> split <;> omega

/-- What is read is the page just when the range is in order. -/
theorem slice_eq_page_iff (hitems : items.length < 2 ^ 63) (h : pageEnd offset limit = some stop) :
    slice items (asIsize offset) (asIsize stop) = page items offset.toNat limit.toNat ↔
      PageInRange items.length offset.toNat limit.toNat := by
  refine ⟨fun heq => (length_slice_page hitems h).mp (congrArg List.length heq), fun hrange => ?_⟩
  have hlength := (length_slice_page hitems h).mpr hrange
  by_cases hoffset : offset.toNat < 2 ^ 63
  · -- the page begins where the reading does
    have hfirst : (if asIsize offset < 0 then asIsize offset + items.length
        else asIsize offset).toNat = offset.toNat := by
      rw [asIsize, if_pos hoffset]
      split <;> omega
    rw [length_slice, length_page, hfirst] at hlength
    unfold slice page
    rw [hfirst]
    refine List.take_eq_take_iff.mpr ?_
    rw [List.length_drop]
    exact hlength
  · -- the page is empty
    have hpage : page items offset.toNat limit.toNat = [] := by
      rw [← List.length_eq_zero_iff, length_page]
      omega
    rw [hpage, List.length_nil] at hlength
    rw [hpage, List.length_eq_zero_iff.mp hlength]

end Indices

/-! ## The answer -/

section Answer

variable {σ : Type} [LinearOrder σ] {b : RedisBroker} {codec : RedisCodec σ}
  {queueOf : String → Except CommandError String} {dt : Nat} {r : Keyspace σ} {queue : String}
  {items : List String} {offset limit : UInt64}

namespace RedisBroker

omit [LinearOrder σ] in
/-- Entries that can be read. -/
theorem decodeAll_of_readable
    (h : ∀ s ∈ items, ∃ m, codec.decodeMessage s = .ok m) :
    ∃ ms, decodeAll codec items = .ok ms ∧ ms.length = items.length := by
  induction items with
  | nil => exact ⟨[], rfl, rfl⟩
  | cons s rest ih =>
      obtain ⟨m, hm⟩ := h s List.mem_cons_self
      obtain ⟨ms, hms, hlength⟩ := ih fun t ht => h t (List.mem_cons_of_mem s ht)
      refine ⟨m :: ms, ?_, congrArg Nat.succ hlength⟩
      unfold decodeAll at hms ⊢
      rw [List.mapM_cons, hm, hms]
      rfl

/-- What the call answers, where the range can be computed. -/
theorem eval_dlqMessages {stop : UInt64} (hend : pageEnd offset limit = some stop)
    (hlist : (r.advance (dt + dt)).list? (b.keys.dlq queue) = .ok items) :
    (steadyServer queueOf).eval dt (b.dlqMessages codec queue offset limit).run r =
      some ((decodeAll codec (slice items (asIsize offset) (asIsize stop))).map some,
        r.advance (dt + dt)) := by
  refine eval_bind_of () rfl rfl ?_
  rw [hend]
  refine eval_bind_of (slice items (asIsize offset) (asIsize stop)) rfl ?_ rfl
  show (((r.advance dt).advance dt).lrange _ _ _, (r.advance dt).advance dt) = _
  rw [Keyspace.advance_advance, lrange_of_list? hlist]

/-- What the call answers, where the range cannot be computed. -/
theorem eval_dlqMessages_none (hend : pageEnd offset limit = none) :
    (steadyServer queueOf).eval dt (b.dlqMessages codec queue offset limit).run r =
      some (.ok none, r.advance dt) := by
  refine eval_bind_of () rfl rfl ?_
  rw [hend]
  rfl

/-- The call answers the messages of the page. -/
def AnswersPage (b : RedisBroker) (codec : RedisCodec σ)
    (queueOf : String → Except CommandError String) (dt : Nat) (r : Keyspace σ) (queue : String)
    (offset limit : UInt64) (items : List String) : Prop :=
  (steadyServer queueOf).eval dt (b.dlqMessages codec queue offset limit).run r =
    some ((decodeAll codec (page items offset.toNat limit.toNat)).map some, r.advance (dt + dt))

/-- The call answers the messages of the page where the range is in order. -/
theorem answersPage_of_inRange (hitems : items.length < 2 ^ 63)
    (hlist : (r.advance (dt + dt)).list? (b.keys.dlq queue) = .ok items)
    (hrange : PageInRange items.length offset.toNat limit.toNat) :
    b.AnswersPage codec queueOf dt r queue offset limit items := by
  obtain ⟨stop, hend⟩ := pageEnd_isSome hrange.1 hrange.2.1
  rw [AnswersPage, eval_dlqMessages hend hlist, (slice_eq_page_iff hitems hend).mpr hrange]

/-- The pages of a dead-letter list.  Redis counts the entries of a list in a signed
64-bit integer.  The call answers the page where the range is in order, and if all entries
can be read, only there. -/
theorem dlq_page_iff (b : RedisBroker) (codec : RedisCodec σ)
    (queueOf : String → Except CommandError String) (dt : Nat) (r : Keyspace σ) (queue : String)
    (offset limit : UInt64) (items : List String) (hitems : items.length < 2 ^ 63)
    (hlist : (r.advance (dt + dt)).list? (b.keys.dlq queue) = .ok items) :
    (PageInRange items.length offset.toNat limit.toNat →
      b.AnswersPage codec queueOf dt r queue offset limit items) ∧
    ((∀ s ∈ items, ∃ m, codec.decodeMessage s = .ok m) →
      (b.AnswersPage codec queueOf dt r queue offset limit items ↔
        PageInRange items.length offset.toNat limit.toNat)) := by
  refine ⟨answersPage_of_inRange hitems hlist, fun hread => ⟨fun hanswer => ?_,
    answersPage_of_inRange hitems hlist⟩⟩
  have hpage : ∀ s ∈ page items offset.toNat limit.toNat, ∃ m, codec.decodeMessage s = .ok m :=
    fun s hs => hread s (mem_of_mem_page hs)
  obtain ⟨ms, hms, hcount⟩ := decodeAll_of_readable hpage
  unfold AnswersPage at hanswer
  rw [hms] at hanswer
  cases hend : pageEnd offset limit with
  | none =>
      rw [eval_dlqMessages_none hend] at hanswer
      cases hanswer
  | some stop =>
      rw [eval_dlqMessages hend hlist] at hanswer
      have hslice : ∀ s ∈ slice items (asIsize offset) (asIsize stop),
          ∃ m, codec.decodeMessage s = .ok m :=
        fun s hs => hread s (List.mem_of_mem_drop (List.mem_of_mem_take hs))
      obtain ⟨ms', hms', hcount'⟩ := decodeAll_of_readable hslice
      rw [hms'] at hanswer
      cases hanswer
      exact (length_slice_page hitems hend).mp (hcount'.symm.trans hcount)

end RedisBroker

end Answer

/-! ## Three pages -/

open RedisBroker

/-- A store with two entries in a dead-letter list. -/
def buriedStore : Keyspace Nat :=
  (Keyspace.empty 0).writeList (plainBroker.keys.dlq "q") ["a", "b"]

/-- A codec that reads every text as the same message. -/
def anyCodec : RedisCodec Nat := ⟨fun _ => "", fun _ => .ok (plainMessage ⟨1⟩), Int.toNat⟩

theorem buriedStore_list : (buriedStore.advance (0 + 0)).list? (plainBroker.keys.dlq "q") =
    .ok ["a", "b"] := by
  show buriedStore.list? _ = _
  exact Keyspace.list?_writeList _ _ _

/-- The page with the second entry. -/
theorem dlq_page_iff_second :
    plainBroker.AnswersPage anyCodec (fun _ => .ok "q") 0 buriedStore "q" 1 1 ["a", "b"] :=
  (plainBroker.dlq_page_iff anyCodec (fun _ => .ok "q") 0 buriedStore "q" 1 1 ["a", "b"]
    (by decide) buriedStore_list).1 (by decide)

/-- An empty page at the start cannot be computed; a page of all entries and more lacks
the last one. -/
theorem dlq_pages_wrong :
    ((steadyServer fun _ => .ok "q").eval (0 : Nat)
      (plainBroker.dlqMessages anyCodec "q" 0 0).run buriedStore = some (.ok none, buriedStore) ∧
      page ["a", "b"] 0 0 = []) ∧
    ((steadyServer fun _ => .ok "q").eval (0 : Nat)
      (plainBroker.dlqMessages anyCodec "q" 0 18446744073709551615).run buriedStore =
        some (.ok (some [plainMessage ⟨1⟩]), buriedStore) ∧
      page ["a", "b"] 0 18446744073709551615 = ["a", "b"]) := by
  have hzero : pageEnd 0 0 = none := by decide
  have hall : pageEnd 0 18446744073709551615 = some 18446744073709551614 := by decide
  exact ⟨⟨eval_dlqMessages_none hzero, rfl⟩, eval_dlqMessages hall buriedStore_list,
    List.take_of_length_le (by decide)⟩

end Kojin.Redis
