/-
  Foundation/Keyspace.lean --- an in-memory data structure store.

  Keys hold strings, lists or sorted sets, and may expire.  The commands are the
  ones a queue is built from; each is a function on the whole store that either
  answers and changes it, or fails with a message and leaves it as it was.

  A command on a key that holds another type fails.  A list that becomes empty
  takes its key with it, so an absent key and an empty list are the same thing.
  Pushing to a key keeps its expiry; setting it replaces the expiry.

  Time is the store's own clock, in milliseconds.  It moves only between
  commands.
-/
import Mathlib.Algebra.Ring.Int.Defs
import Mathlib.Data.List.Sort
import Mathlib.Data.Prod.Lex
import Mathlib.Data.String.Basic
import Mathlib.Logic.Function.Basic

set_option autoImplicit false

namespace Kojin.Foundation

/-! ## Sorted sets -/

section SortedSet

variable {σ : Type} [LinearOrder σ]

/-- The order of the entries of a sorted set: by score, then by member. -/
def EntryLE (a b : σ × String) : Prop := toLex a ≤ toLex b

instance : DecidableRel (@EntryLE σ _) :=
  fun a b => inferInstanceAs (Decidable (toLex a ≤ toLex b))

instance : Std.Total (@EntryLE σ _) := ⟨fun a b => le_total (toLex a) (toLex b)⟩

instance : IsTrans (σ × String) EntryLE := ⟨fun _ _ _ hab hbc => le_trans hab hbc⟩

variable (σ) in
/-- A set of members with scores, in the order of the entries. -/
structure SortedSet where
  entries : List (σ × String)
  sorted : entries.Pairwise EntryLE
  nodup : (entries.map Prod.snd).Nodup

namespace SortedSet

/-- The set without members. -/
def empty : SortedSet σ := ⟨[], .nil, .nil⟩

/-- The entries that meet a condition, in order. -/
def filter (s : SortedSet σ) (p : σ × String → Bool) : SortedSet σ where
  entries := s.entries.filter p
  sorted := s.sorted.filter p
  nodup := s.nodup.sublist (List.filter_sublist.map _)

/-- `ZADD`: a member has one score, the last it was given. -/
def add (s : SortedSet σ) (score : σ) (member : String) : SortedSet σ where
  entries := (s.filter fun e => e.2 ≠ member).entries.orderedInsert EntryLE (score, member)
  sorted := (s.filter fun e => e.2 ≠ member).sorted.orderedInsert _ _
  nodup := by
    have hperm := (List.perm_orderedInsert EntryLE (score, member)
      (s.filter fun e => e.2 ≠ member).entries).map Prod.snd
    refine hperm.nodup_iff.mpr (List.nodup_cons.mpr ⟨?_, (s.filter _).nodup⟩)
    intro hmem
    obtain ⟨e, he, heq⟩ := List.mem_map.mp hmem
    have hne := (List.mem_filter.mp he).2
    simp only [ne_eq, decide_not, Bool.not_eq_true', decide_eq_false_iff_not] at hne
    exact hne heq

/-- The members with a score up to `max`, in order. -/
def upTo (s : SortedSet σ) (max : σ) : List String :=
  (s.entries.filter fun e => e.1 ≤ max).map Prod.snd

/-- `ZRANGEBYSCORE -inf max LIMIT 0 limit`. -/
def rangeByScore (s : SortedSet σ) (max : σ) (limit : Nat) : List String :=
  (s.upTo max).take limit

/-- `ZREMRANGEBYSCORE -inf max`. -/
def removeByScore (s : SortedSet σ) (max : σ) : SortedSet σ := s.filter fun e => ¬ e.1 ≤ max

/-- The members. -/
def members (s : SortedSet σ) : List String := s.entries.map Prod.snd

theorem nodup_upTo (s : SortedSet σ) (max : σ) : (s.upTo max).Nodup :=
  s.nodup.sublist (List.filter_sublist.map _)

theorem mem_members_of_upTo {s : SortedSet σ} {max : σ} {x : String} (h : x ∈ s.upTo max) :
    x ∈ s.members :=
  (List.filter_sublist.map Prod.snd).subset h

/-- A member in the range is not among those left when the range is removed. -/
theorem notMem_removeByScore {s : SortedSet σ} {max : σ} {x : String} (h : x ∈ s.upTo max) :
    x ∉ (s.removeByScore max).members := by
  intro hmem
  obtain ⟨e, he, rfl⟩ := List.mem_map.mp h
  obtain ⟨e', he', heq⟩ := List.mem_map.mp hmem
  have hdue := (List.mem_filter.mp he).2
  have hlate := (List.mem_filter.mp he').2
  -- members are distinct, so the two entries are one
  have hsame : e' = e := List.inj_on_of_nodup_map s.nodup (List.mem_filter.mp he').1
    (List.mem_filter.mp he).1 heq
  rw [hsame] at hlate
  simp only [decide_eq_true_eq] at hdue hlate
  exact hlate hdue

/-- Removing the range removes as many entries as there are members in it. -/
theorem length_removeByScore (s : SortedSet σ) (max : σ) :
    (s.upTo max).length + (s.removeByScore max).entries.length = s.entries.length := by
  have hsplit := List.length_eq_length_filter_add (l := s.entries) fun e => decide (e.1 ≤ max)
  have hrest : (s.removeByScore max).entries = s.entries.filter fun e => !decide (e.1 ≤ max) := by
    simp only [removeByScore, filter, decide_not]
  rw [upTo, List.length_map, hrest, hsplit]

end SortedSet

end SortedSet

/-! ## The store -/

/-- What a key holds.  A string that is the text of an integer is kept as that
integer. -/
inductive Value (σ : Type) [LinearOrder σ] where
  | text (s : String)
  | int (n : Int)
  | list (items : List String)
  | zset (set : SortedSet σ)

/-- A value, and the clock reading at which it is gone. -/
structure Entry (σ : Type) [LinearOrder σ] where
  value : Value σ
  expiry : Option Nat

/-- The store. -/
structure Keyspace (σ : Type) [LinearOrder σ] where
  keys : String → Option (Entry σ)
  clock : Nat

/-- The message of a failed command. -/
abbrev CommandError : Type := String

def wrongType : CommandError :=
  "WRONGTYPE Operation against a key holding the wrong kind of value"

def invalidExpire : CommandError := "ERR invalid expire time in 'set' command"

def notAnInteger : CommandError := "ERR value is not an integer or out of range"

def wouldOverflow : CommandError := "ERR increment or decrement would overflow"

namespace Keyspace

variable {σ : Type} [LinearOrder σ]

/-- A store without keys. -/
def empty (clock : Nat) : Keyspace σ := ⟨fun _ => none, clock⟩

/-- Time passes. -/
def advance (r : Keyspace σ) (millis : Nat) : Keyspace σ :=
  { r with clock := r.clock + millis }

@[simp] theorem advance_zero (r : Keyspace σ) : r.advance 0 = r := rfl

theorem advance_advance (r : Keyspace σ) (s t : Nat) :
    (r.advance s).advance t = r.advance (s + t) := by
  unfold advance
  rw [Nat.add_assoc]

/-- An entry that has not expired. -/
def Entry.alive (clock : Nat) (e : Entry σ) : Bool := e.expiry.all fun t => clock < t

/-- The entry under a key. -/
def live (r : Keyspace σ) (key : String) : Option (Entry σ) :=
  (r.keys key).filter (Entry.alive r.clock)

/-- The value under a key. -/
def get (r : Keyspace σ) (key : String) : Option (Value σ) := (r.live key).map (·.value)

/-- Change the value under a key and keep its expiry. -/
def write (r : Keyspace σ) (key : String) (v : Value σ) : Keyspace σ :=
  { r with keys := Function.update r.keys key (some ⟨v, (r.live key).bind (·.expiry)⟩) }

/-- Remove a key. -/
def remove (r : Keyspace σ) (key : String) : Keyspace σ :=
  { r with keys := Function.update r.keys key none }

theorem get_write (r : Keyspace σ) (key key' : String) (v : Value σ) :
    (r.write key v).get key' = if key' = key then some v else r.get key' := by
  by_cases h : key' = key
  · subst h
    have hkeys : (r.write key' v).keys key' = some ⟨v, (r.live key').bind (·.expiry)⟩ :=
      Function.update_self _ _ _
    have halive : Entry.alive r.clock ⟨v, (r.live key').bind (·.expiry)⟩ = true := by
      -- the entry that was there had not expired
      cases hlive : r.live key' with
      | none => rfl
      | some e => exact (Option.filter_eq_some_iff.mp hlive).2
    rw [if_pos rfl, get, live, hkeys]
    have hclock : (r.write key' v).clock = r.clock := rfl
    rw [hclock, Option.filter_some, if_pos halive]
    rfl
  · have hkeys : (r.write key v).keys key' = r.keys key' := Function.update_of_ne h _ _
    rw [if_neg h, get, live, hkeys]
    rfl

theorem get_remove (r : Keyspace σ) (key key' : String) :
    (r.remove key).get key' = if key' = key then none else r.get key' := by
  by_cases h : key' = key
  · subst h
    have hkeys : (r.remove key').keys key' = none := Function.update_self _ _ _
    rw [if_pos rfl, get, live, hkeys]
    rfl
  · have hkeys : (r.remove key).keys key' = r.keys key' := Function.update_of_ne h _ _
    rw [if_neg h, get, live, hkeys]
    rfl

/-- The value under a key depends on its entry and the clock alone. -/
theorem get_congr {r r' : Keyspace σ} {key : String} (hkeys : r'.keys key = r.keys key)
    (hclock : r'.clock = r.clock) : r'.get key = r.get key := by
  unfold get live
  rw [hkeys, hclock]

/-- A key with a value has an entry, which has not expired. -/
theorem entry_of_get {r : Keyspace σ} {key : String} (h : r.get key ≠ none) :
    ∃ e, r.keys key = some e ∧ Entry.alive r.clock e = true := by
  cases hlive : r.live key with
  | none =>
      rw [get, hlive] at h
      exact absurd rfl h
  | some e => exact ⟨e, Option.filter_eq_some_iff.mp hlive⟩

/-- The key has no expiry. -/
def Lasting (r : Keyspace σ) (key : String) : Prop := ∀ e, r.keys key = some e → e.expiry = none

theorem get_of_lasting {r : Keyspace σ} {key : String} (h : r.Lasting key) :
    r.get key = (r.keys key).map (·.value) := by
  unfold get live
  cases hkey : r.keys key with
  | none => rfl
  | some e =>
      have halive : Entry.alive r.clock e = true := by
        unfold Entry.alive
        rw [h e hkey]
        rfl
      rw [Option.filter_some, if_pos halive]

theorem lasting_empty (clock : Nat) (key : String) :
    (empty clock : Keyspace σ).Lasting key := by
  intro e he
  cases he

/-- Time does not change a key without expiry. -/
theorem get_advance_of_lasting {r : Keyspace σ} {key : String} (h : r.Lasting key) (t : Nat) :
    (r.advance t).get key = r.get key := by
  have hlater : (r.advance t).Lasting key := h
  rw [get_of_lasting h, get_of_lasting hlater]
  rfl

/-- Writing to a key without expiry leaves it without. -/
theorem keys_write_of_lasting {r : Keyspace σ} {key : String} (h : r.Lasting key) (v : Value σ) :
    (r.write key v).keys key = some ⟨v, none⟩ := by
  have hexpiry : (r.live key).bind (·.expiry) = none := by
    cases hlive : r.live key with
    | none => rfl
    | some e => exact h e (Option.filter_eq_some_iff.mp hlive).1
  have hkeys : (r.write key v).keys key = some ⟨v, (r.live key).bind (·.expiry)⟩ :=
    Function.update_self _ _ _
  rw [hkeys, hexpiry]

theorem keys_write_ne (r : Keyspace σ) {key key' : String} (h : key' ≠ key) (v : Value σ) :
    (r.write key v).keys key' = r.keys key' := Function.update_of_ne h _ _

theorem keys_remove_ne (r : Keyspace σ) {key key' : String} (h : key' ≠ key) :
    (r.remove key).keys key' = r.keys key' := Function.update_of_ne h _ _

/-! ## Strings -/

/-- Whether an expiry so many seconds from now can be set. -/
def ValidExpire (r : Keyspace σ) (secs : Nat) : Prop :=
  0 < secs ∧ r.clock + 1000 * secs < 2 ^ 63

instance (r : Keyspace σ) (secs : Nat) : Decidable (r.ValidExpire secs) :=
  inferInstanceAs (Decidable (_ ∧ _))

/-- Replace whatever is under the key. -/
def store (r : Keyspace σ) (key : String) (v : Value σ) (secs : Nat) : Keyspace σ :=
  { r with keys := Function.update r.keys key (some ⟨v, some (r.clock + 1000 * secs)⟩) }

/-- `SET key value EX secs`. -/
def setEx (r : Keyspace σ) (key : String) (v : Value σ) (secs : Nat) :
    Except CommandError (Keyspace σ) :=
  if r.ValidExpire secs then .ok (r.store key v secs) else .error invalidExpire

/-- `SET key value NX EX secs`: whether the key was set. -/
def setNxEx (r : Keyspace σ) (key : String) (v : Value σ) (secs : Nat) :
    Except CommandError (Bool × Keyspace σ) :=
  if r.ValidExpire secs then
    if (r.get key).isNone then .ok (true, r.store key v secs) else .ok (false, r)
  else .error invalidExpire

/-- `INCR key`. -/
def incr (r : Keyspace σ) (key : String) : Except CommandError (Int × Keyspace σ) :=
  match r.get key with
  | none => .ok (1, r.write key (.int 1))
  | some (.int n) =>
      if n + 1 < 2 ^ 63 then .ok (n + 1, r.write key (.int (n + 1))) else .error wouldOverflow
  | some (.text _) => .error notAnInteger
  | some _ => .error wrongType

theorem keys_store_self (r : Keyspace σ) (key : String) (v : Value σ) (secs : Nat) :
    (r.store key v secs).keys key = some ⟨v, some (r.clock + 1000 * secs)⟩ :=
  Function.update_self _ _ _

theorem keys_store_ne (r : Keyspace σ) {key key' : String} (h : key' ≠ key) (v : Value σ)
    (secs : Nat) : (r.store key v secs).keys key' = r.keys key' := Function.update_of_ne h _ _

/-- A value with an expiry is there until then. -/
theorem get_of_expiry {r : Keyspace σ} {key : String} {v : Value σ} {t : Nat}
    (h : r.keys key = some ⟨v, some t⟩) : r.get key = if r.clock < t then some v else none := by
  rw [get, live, h, Option.filter_some]
  by_cases halive : r.clock < t
  · rw [if_pos halive, if_pos (by simpa [Entry.alive] using halive)]
    rfl
  · rw [if_neg halive, if_neg (by simpa [Entry.alive] using halive)]
    rfl

/-- What `SET` does when it succeeds. -/
theorem setEx_cases {r r' : Keyspace σ} {key : String} {v : Value σ} {secs : Nat}
    (h : r.setEx key v secs = .ok r') : r' = r.store key v secs := by
  unfold setEx at h
  split at h
  · cases h
    rfl
  · cases h

/-- What `INCR` does when it succeeds. -/
theorem incr_cases {r r' : Keyspace σ} {key : String} {n : Int}
    (h : r.incr key = .ok (n, r')) :
    r' = r.write key (.int n) ∧
      ((r.get key = none ∧ n = 1) ∨ ∃ m, r.get key = some (.int m) ∧ n = m + 1) := by
  unfold incr at h
  split at h
  · rename_i hget
    cases h
    exact ⟨rfl, .inl ⟨hget, rfl⟩⟩
  · rename_i m hget
    split at h
    · cases h
      exact ⟨rfl, .inr ⟨m, hget, rfl⟩⟩
    · cases h
  · cases h
  · cases h

/-! ## Lists -/

/-- The list under a key, as a list command sees it. -/
def list? (r : Keyspace σ) (key : String) : Except CommandError (List String) :=
  match r.get key with
  | none => .ok []
  | some (.list items) => .ok items
  | some _ => .error wrongType

/-- Put a list under a key; an empty one removes it. -/
def writeList (r : Keyspace σ) (key : String) (items : List String) : Keyspace σ :=
  if items = [] then r.remove key else r.write key (.list items)

/-- `LPUSH key item`. -/
def lpush (r : Keyspace σ) (key item : String) : Except CommandError (Keyspace σ) :=
  (r.list? key).map fun items => r.writeList key (item :: items)

/-- `RPUSH key item`. -/
def rpush (r : Keyspace σ) (key item : String) : Except CommandError (Keyspace σ) :=
  (r.list? key).map fun items => r.writeList key (items ++ [item])

/-- `LREM key 1 item`: remove the first occurrence. -/
def lrem (r : Keyspace σ) (key item : String) : Except CommandError (Keyspace σ) :=
  (r.list? key).map fun items => r.writeList key (items.erase item)

/-- `LRANGE key start stop`: indices from the end are negative, `stop` is
included. -/
def lrange (r : Keyspace σ) (key : String) (start stop : Int) :
    Except CommandError (List String) :=
  (r.list? key).map fun items =>
    let first := (if start < 0 then start + items.length else start).toNat
    let last := if stop < 0 then stop + items.length else stop
    (items.drop first).take (last + 1 - first).toNat

/-- `LLEN key`. -/
def llen (r : Keyspace σ) (key : String) : Except CommandError Nat :=
  (r.list? key).map List.length

/-- `LMOVE source target RIGHT LEFT`. -/
def lmove (r : Keyspace σ) (source target : String) :
    Except CommandError (Option String × Keyspace σ) :=
  (r.list? source).bind fun items =>
    match items.getLast? with
    | none => .ok (none, r)
    | some item =>
        let r' := r.writeList source items.dropLast
        (r'.list? target).map fun others => (some item, r'.writeList target (item :: others))

/-- The whole list. -/
theorem lrange_all (r : Keyspace σ) (key : String) : r.lrange key 0 (-1) = r.list? key := by
  unfold lrange
  cases r.list? key with
  | error e => rfl
  | ok items =>
      have hcount : ((-1 : Int) + items.length + 1 - (0 : Nat)).toNat = items.length := by omega
      have hall : (items.drop 0).take ((-1 : Int) + items.length + 1 - (0 : Nat)).toNat = items := by
        rw [hcount, List.drop_zero, List.take_length]
      exact congrArg Except.ok hall

theorem get_writeList_ne (r : Keyspace σ) {key key' : String} (h : key' ≠ key)
    (items : List String) : (r.writeList key items).get key' = r.get key' := by
  unfold writeList
  split
  · rw [get_remove, if_neg h]
  · rw [get_write, if_neg h]

@[simp] theorem clock_writeList (r : Keyspace σ) (key : String) (items : List String) :
    (r.writeList key items).clock = r.clock := by
  unfold writeList
  split <;> rfl

theorem list?_writeList (r : Keyspace σ) (key : String) (items : List String) :
    (r.writeList key items).list? key = .ok items := by
  by_cases hnil : items = []
  · rw [writeList, if_pos hnil, list?, get_remove, if_pos rfl, hnil]
  · rw [writeList, if_neg hnil, list?, get_write, if_pos rfl]

theorem list?_writeList_ne (r : Keyspace σ) {key key' : String} (h : key' ≠ key)
    (items : List String) : (r.writeList key items).list? key' = r.list? key' := by
  unfold list?
  rw [get_writeList_ne r h]

theorem keys_writeList_ne (r : Keyspace σ) {key key' : String} (h : key' ≠ key)
    (items : List String) : (r.writeList key items).keys key' = r.keys key' := by
  unfold writeList
  split
  · exact r.keys_remove_ne h
  · exact r.keys_write_ne h _

/-- An empty list is not kept. -/
theorem keys_writeList_nil (r : Keyspace σ) (key : String) :
    (r.writeList key []).keys key = none := by
  rw [writeList, if_pos rfl]
  exact Function.update_self _ _ _

theorem lasting_writeList {r : Keyspace σ} {key : String} (h : r.Lasting key)
    (items : List String) : (r.writeList key items).Lasting key := by
  intro e he
  unfold writeList at he
  split at he
  · have hnone : (r.remove key).keys key = none := Function.update_self _ _ _
    rw [hnone] at he
    cases he
  · rw [keys_write_of_lasting h] at he
    cases he
    rfl

theorem keys_writeList_of_lasting {r : Keyspace σ} {key : String} (h : r.Lasting key)
    {items : List String} (hne : items ≠ []) :
    (r.writeList key items).keys key = some ⟨.list items, none⟩ := by
  rw [writeList, if_neg hne]
  exact keys_write_of_lasting h _

/-- The items of a list; a key that holds something else has none. -/
def items (r : Keyspace σ) (key : String) : List String :=
  match r.list? key with
  | .ok xs => xs
  | .error _ => []

theorem items_of_list? {r : Keyspace σ} {key : String} {xs : List String}
    (h : r.list? key = .ok xs) : r.items key = xs := by
  unfold items
  rw [h]

theorem items_congr {r r' : Keyspace σ} {key : String} (h : r'.get key = r.get key) :
    r'.items key = r.items key := by
  unfold items list?
  rw [h]

theorem list?_advance_of_lasting {r : Keyspace σ} {key : String} (h : r.Lasting key) (t : Nat) :
    (r.advance t).list? key = r.list? key := by
  unfold list?
  rw [get_advance_of_lasting h]

/-- A list without expiry depends on its entry alone. -/
theorem list?_of_keys {r r' : Keyspace σ} {key : String} (h : r.Lasting key)
    (hkeys : r'.keys key = r.keys key) : r'.list? key = r.list? key := by
  have h' : r'.Lasting key := by
    intro e he
    rw [hkeys] at he
    exact h e he
  unfold list?
  rw [get_of_lasting h, get_of_lasting h', hkeys]

/-- What `SET NX` does when it succeeds: the key is set if and only if it was free. -/
theorem setNxEx_cases {r r' : Keyspace σ} {key : String} {v : Value σ} {secs : Nat} {set : Bool}
    (h : r.setNxEx key v secs = .ok (set, r')) :
    r.ValidExpire secs ∧ ((set = true ∧ r.get key = none ∧ r' = r.store key v secs) ∨
      (set = false ∧ r.get key ≠ none ∧ r' = r)) := by
  unfold setNxEx at h
  split at h
  · rename_i hvalid
    refine ⟨hvalid, ?_⟩
    split at h
    · rename_i hnone
      cases h
      exact .inl ⟨rfl, Option.isNone_iff_eq_none.mp hnone, rfl⟩
    · rename_i hsome
      cases h
      exact .inr ⟨rfl, fun hnone => hsome (Option.isNone_iff_eq_none.mpr hnone), rfl⟩
  · cases h

/-- What `LMOVE` does when it succeeds: nothing, or it moves the last item of the
source to the front of the target. -/
theorem lmove_cases {r r' : Keyspace σ} {source target : String} {ans : Option String}
    (h : r.lmove source target = .ok (ans, r')) :
    (ans = none ∧ r' = r) ∨ ∃ items item others, ans = some item ∧ r.list? source = .ok items ∧
      items.getLast? = some item ∧
      (r.writeList source items.dropLast).list? target = .ok others ∧
      r' = (r.writeList source items.dropLast).writeList target (item :: others) := by
  unfold lmove at h
  cases hsource : r.list? source with
  | error e =>
      rw [hsource] at h
      cases h
  | ok items =>
      rw [hsource] at h
      dsimp only [Except.bind] at h
      split at h
      · cases h
        exact .inl ⟨rfl, rfl⟩
      · rename_i item hlast
        cases htarget : (r.writeList source items.dropLast).list? target with
        | error e =>
            rw [htarget] at h
            cases h
        | ok others =>
            rw [htarget] at h
            cases h
            exact .inr ⟨items, item, others, rfl, rfl, hlast, htarget, rfl⟩

/-- `LMOVE` between two lists. -/
theorem lmove_of_list? {r : Keyspace σ} {source target : String} {items others : List String}
    (hne : target ≠ source) (hsource : r.list? source = .ok items)
    (htarget : r.list? target = .ok others) :
    r.lmove source target = .ok (match items.getLast? with
      | none => (none, r)
      | some item =>
          (some item, (r.writeList source items.dropLast).writeList target (item :: others))) := by
  unfold lmove
  rw [hsource]
  dsimp only [Except.bind]
  cases items.getLast? with
  | none => rfl
  | some item =>
      dsimp only
      rw [list?_writeList_ne r hne, htarget]
      rfl

/-- `LREM` on a list. -/
theorem lrem_of_list? {r : Keyspace σ} {key item : String} {xs : List String}
    (h : r.list? key = .ok xs) : r.lrem key item = .ok (r.writeList key (xs.erase item)) := by
  unfold lrem
  rw [h]
  rfl

/-- `LPUSH` on a list. -/
theorem lpush_of_list? {r : Keyspace σ} {key item : String} {xs : List String}
    (h : r.list? key = .ok xs) : r.lpush key item = .ok (r.writeList key (item :: xs)) := by
  unfold lpush
  rw [h]
  rfl

/-- What `LPUSH` does when it succeeds. -/
theorem lpush_cases {r r' : Keyspace σ} {key item : String} (h : r.lpush key item = .ok r') :
    ∃ xs, r.list? key = .ok xs ∧ r' = r.writeList key (item :: xs) := by
  unfold lpush at h
  cases hlist : r.list? key with
  | error e =>
      rw [hlist] at h
      cases h
  | ok xs =>
      rw [hlist] at h
      cases h
      exact ⟨xs, rfl, rfl⟩

/-- What `RPUSH` does when it succeeds. -/
theorem rpush_cases {r r' : Keyspace σ} {key item : String} (h : r.rpush key item = .ok r') :
    ∃ items, r.list? key = .ok items ∧ r' = r.writeList key (items ++ [item]) := by
  unfold rpush at h
  cases hlist : r.list? key with
  | error e =>
      rw [hlist] at h
      cases h
  | ok items =>
      rw [hlist] at h
      cases h
      exact ⟨items, rfl, rfl⟩

/-! ## Sorted sets -/

/-- The sorted set under a key, as a command sees it. -/
def zset? (r : Keyspace σ) (key : String) : Except CommandError (SortedSet σ) :=
  match r.get key with
  | none => .ok .empty
  | some (.zset set) => .ok set
  | some _ => .error wrongType

/-- Put a sorted set under a key; an empty one removes it. -/
def writeZset (r : Keyspace σ) (key : String) (set : SortedSet σ) : Keyspace σ :=
  if set.entries = [] then r.remove key else r.write key (.zset set)

/-- `ZADD key score member`. -/
def zadd (r : Keyspace σ) (key : String) (score : σ) (member : String) :
    Except CommandError (Keyspace σ) :=
  (r.zset? key).map fun set => r.writeZset key (set.add score member)

theorem get_writeZset_ne (r : Keyspace σ) {key key' : String} (h : key' ≠ key)
    (set : SortedSet σ) : (r.writeZset key set).get key' = r.get key' := by
  unfold writeZset
  split
  · rw [get_remove, if_neg h]
  · rw [get_write, if_neg h]

theorem zset?_writeZset (r : Keyspace σ) (key : String) (set : SortedSet σ) :
    (r.writeZset key set).zset? key = .ok set := by
  by_cases hnil : set.entries = []
  · have hempty : set = .empty := by
      obtain ⟨entries, _, _⟩ := set
      obtain rfl : entries = [] := hnil
      rfl
    rw [writeZset, if_pos hnil, zset?, get_remove, if_pos rfl, hempty]
  · rw [writeZset, if_neg hnil, zset?, get_write, if_pos rfl]

/-- A set with members is there. -/
theorem get_of_zset? {r : Keyspace σ} {key : String} {set : SortedSet σ}
    (h : r.zset? key = .ok set) (hne : set.entries ≠ []) : r.get key = some (.zset set) := by
  unfold zset? at h
  split at h
  · cases h
    exact absurd rfl hne
  · rename_i hget
    cases h
    exact hget
  · cases h

/-- A key that holds a sorted set, or nothing, has no list items. -/
theorem items_of_zset? {r : Keyspace σ} {key : String} {set : SortedSet σ}
    (h : r.zset? key = .ok set) : r.items key = [] := by
  unfold zset? at h
  unfold items list?
  split at h
  · rename_i hget
    rw [hget]
  · rename_i hget
    rw [hget]
  · cases h

end Keyspace

end Kojin.Foundation
