/-
  Foundation/Footprint.lean --- a store, seen by someone who knows some of its keys.

      r.restrict K    the keys of `K` and the clock; the others hold nothing

  A command that names keys of `K` only does to the restricted store what it does to the
  store: it finds the same values, so it answers the same, and it leaves what the store is
  then restricted to.  Nothing here mentions a particular program.
-/
import Kojin.Foundation.Keyspace

set_option autoImplicit false

namespace Kojin.Foundation.Keyspace

variable {σ : Type} [LinearOrder σ] {K : String → Prop} [DecidablePred K] {r r' : Keyspace σ}
  {key : String}

/-- The keys of `K`, and the clock. -/
def restrict (K : String → Prop) [DecidablePred K] (r : Keyspace σ) : Keyspace σ :=
  { r with keys := fun key => if K key then r.keys key else none }

theorem restrict_advance (r : Keyspace σ) (millis : Nat) :
    (r.restrict K).advance millis = (r.advance millis).restrict K := rfl

/-- What happens to other keys is not seen. -/
theorem restrict_congr (hkeys : ∀ key, K key → r'.keys key = r.keys key)
    (hclock : r'.clock = r.clock) : r'.restrict K = r.restrict K := by
  unfold restrict
  rw [hclock]
  congr 1
  funext key
  by_cases h : K key
  · simp [h, hkeys key h]
  · simp [h]

/-! ## Reading -/

theorem live_restrict (h : K key) : (r.restrict K).live key = r.live key := by
  simp [live, restrict, h]

theorem get_restrict (h : K key) : (r.restrict K).get key = r.get key := by
  rw [get, live_restrict h, get]

theorem list?_restrict (h : K key) : (r.restrict K).list? key = r.list? key := by
  rw [list?, get_restrict h, list?]

theorem zset?_restrict (h : K key) : (r.restrict K).zset? key = r.zset? key := by
  rw [zset?, get_restrict h, zset?]

theorem llen_restrict (h : K key) : (r.restrict K).llen key = r.llen key := by
  rw [llen, list?_restrict h, llen]

theorem lrange_restrict (h : K key) (start stop : Int) :
    (r.restrict K).lrange key start stop = r.lrange key start stop := by
  rw [lrange, list?_restrict h, lrange]

/-! ## Writing -/

theorem update_restrict (h : K key) (r : Keyspace σ) (e : Option (Entry σ)) :
    Function.update (r.restrict K).keys key e =
      fun key' => if K key' then Function.update r.keys key e key' else none := by
  funext key'
  by_cases heq : key' = key
  · subst heq
    simp [h]
  · simp [heq, restrict]

theorem write_restrict (h : K key) (v : Value σ) :
    (r.restrict K).write key v = (r.write key v).restrict K := by
  unfold write
  rw [update_restrict h, live_restrict h]
  rfl

theorem remove_restrict (h : K key) : (r.restrict K).remove key = (r.remove key).restrict K := by
  unfold remove
  rw [update_restrict h]
  rfl

theorem store_restrict (h : K key) (v : Value σ) (secs : Nat) :
    (r.restrict K).store key v secs = (r.store key v secs).restrict K := by
  unfold store
  rw [update_restrict h]
  rfl

theorem writeList_restrict (h : K key) (items : List String) :
    (r.restrict K).writeList key items = (r.writeList key items).restrict K := by
  unfold writeList
  split
  · exact remove_restrict h
  · exact write_restrict h _

theorem writeZset_restrict (h : K key) (set : SortedSet σ) :
    (r.restrict K).writeZset key set = (r.writeZset key set).restrict K := by
  unfold writeZset
  split
  · exact remove_restrict h
  · exact write_restrict h _

/-! ## Commands -/

theorem setEx_restrict (h : K key) (v : Value σ) (secs : Nat) :
    (r.restrict K).setEx key v secs = (r.setEx key v secs).map (restrict K) := by
  have hvalid : (r.restrict K).ValidExpire secs ↔ r.ValidExpire secs := Iff.rfl
  by_cases hsecs : r.ValidExpire secs
  · simp [setEx, hvalid, hsecs, store_restrict h, Except.map]
  · simp [setEx, hvalid, hsecs, Except.map]

theorem setNxEx_restrict (h : K key) (v : Value σ) (secs : Nat) :
    (r.restrict K).setNxEx key v secs =
      (r.setNxEx key v secs).map (Prod.map id (restrict K)) := by
  have hvalid : (r.restrict K).ValidExpire secs ↔ r.ValidExpire secs := Iff.rfl
  by_cases hsecs : r.ValidExpire secs
  · by_cases hfree : (r.get key).isNone = true
    · simp [setNxEx, hvalid, hsecs, get_restrict h, hfree, store_restrict h, Except.map]
    · simp [setNxEx, hvalid, hsecs, get_restrict h, hfree, Except.map]
  · simp [setNxEx, hvalid, hsecs, Except.map]

theorem incr_restrict (h : K key) :
    (r.restrict K).incr key = (r.incr key).map (Prod.map id (restrict K)) := by
  unfold incr
  rw [get_restrict h]
  split
  · simp [write_restrict h, Except.map]
  · split
    · simp [write_restrict h, Except.map]
    · rfl
  · rfl
  · rfl

/-- Commands that read a list and write it back. -/
theorem map_writeList_restrict (h : K key) (f : List String → List String) :
    ((r.restrict K).list? key).map (fun items => (r.restrict K).writeList key (f items)) =
      ((r.list? key).map fun items => r.writeList key (f items)).map (restrict K) := by
  rw [list?_restrict h]
  cases r.list? key with
  | error e => rfl
  | ok items => exact congrArg Except.ok (writeList_restrict h _)

theorem lpush_restrict (h : K key) (item : String) :
    (r.restrict K).lpush key item = (r.lpush key item).map (restrict K) :=
  map_writeList_restrict h (item :: ·)

theorem rpush_restrict (h : K key) (item : String) :
    (r.restrict K).rpush key item = (r.rpush key item).map (restrict K) :=
  map_writeList_restrict h (· ++ [item])

theorem lrem_restrict (h : K key) (item : String) :
    (r.restrict K).lrem key item = (r.lrem key item).map (restrict K) :=
  map_writeList_restrict h (·.erase item)

theorem zadd_restrict (h : K key) (score : σ) (member : String) :
    (r.restrict K).zadd key score member = (r.zadd key score member).map (restrict K) := by
  unfold zadd
  rw [zset?_restrict h]
  cases r.zset? key with
  | error e => rfl
  | ok set => exact congrArg Except.ok (writeZset_restrict h _)

theorem lmove_restrict {source target : String} (hsource : K source) (htarget : K target) :
    (r.restrict K).lmove source target =
      (r.lmove source target).map (Prod.map id (restrict K)) := by
  unfold lmove
  rw [list?_restrict hsource]
  cases r.list? source with
  | error e => rfl
  | ok items =>
      dsimp only [Except.bind]
      cases items.getLast? with
      | none => rfl
      | some item =>
          dsimp only
          rw [writeList_restrict hsource, list?_restrict htarget]
          cases (r.writeList source items.dropLast).list? target with
          | error e => rfl
          | ok others => simp [writeList_restrict htarget, Except.map]

end Kojin.Foundation.Keyspace
