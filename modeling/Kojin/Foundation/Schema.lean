/-
  Foundation/Schema.lean --- what the keys of a store stand for.

  A key-value store has no types of its own: a command on a key that holds something
  else fails when it is sent.  Clients that share a store agree on a schema, which
  gives every object they know a key and a kind of value.

      Schema.Typed r       every object's key holds its kind of value, or nothing
      Schema.Spares r r'   no key that is not an object's was touched

  If the keys of the objects are distinct, the commands that write to one object keep
  the store typed; and on a typed store no command of the right kind fails.

  Lists, sorted sets and counters are kept for good; texts and numbers may expire.  A list
  without items is not kept.

  Nothing here mentions a particular program.
-/
import Kojin.Foundation.Keyspace

set_option autoImplicit false

namespace Kojin.Foundation

/-- What an object holds. -/
inductive Kind where
  | list (item : String → Prop)
  | zset (member : String → Prop)
  | text (good : String → Prop)
  | int (good : Int → Prop)
  | counter
  | nothing

variable {σ : Type} [LinearOrder σ]

/-- An entry of a kind. -/
def Kind.Holds : Kind → Entry σ → Prop
  | .list item, e => e.expiry = none ∧
      ∃ items, e.value = .list items ∧ items ≠ [] ∧ ∀ i ∈ items, item i
  | .zset member, e => e.expiry = none ∧ ∃ set, e.value = .zset set ∧ ∀ x ∈ set.members, member x
  | .text good, e => ∃ s, e.value = .text s ∧ good s
  | .int good, e => ∃ n, e.value = .int n ∧ good n
  | .counter, e => e.expiry = none ∧ ∃ n, e.value = .int n
  | .nothing, _ => False

/-- The objects that the clients of a store know. -/
structure Schema (Obj : Type) where
  key : Obj → String
  key_injective : Function.Injective key
  kind : Obj → Kind

namespace Schema

variable {Obj : Type} (S : Schema Obj) {r r' r'' : Keyspace σ} {x y : Obj}

/-- Every object's key holds its kind of value, or nothing. -/
def Typed (r : Keyspace σ) : Prop := ∀ x e, r.keys (S.key x) = some e → (S.kind x).Holds e

/-- No key that is not an object's was touched. -/
def Spares (r r' : Keyspace σ) : Prop :=
  ∀ key, (∀ x, key ≠ S.key x) → r'.keys key = r.keys key

variable {S}

theorem Spares.refl (r : Keyspace σ) : S.Spares r r := fun _ _ => rfl

theorem Spares.trans (h : S.Spares r r') (h' : S.Spares r' r'') : S.Spares r r'' :=
  fun key hkey => (h' key hkey).trans (h key hkey)

theorem key_ne (h : y ≠ x) : S.key y ≠ S.key x := fun heq => h (S.key_injective heq)

/-! ## One key at a time -/

/-- Only the key of `x` was written, and what it holds now is of its kind. -/
structure Sets (S : Schema Obj) (r r' : Keyspace σ) (x : Obj) : Prop where
  self : ∀ e, r'.keys (S.key x) = some e → (S.kind x).Holds e
  other : ∀ key, key ≠ S.key x → r'.keys key = r.keys key

theorem Sets.spares (h : S.Sets r r' x) : S.Spares r r' := fun key hkey => h.other key (hkey x)

theorem Typed.sets (ht : S.Typed r) (h : S.Sets r r' x) : S.Typed r' := by
  intro y e he
  by_cases hy : y = x
  · subst hy
    exact h.self e he
  · rw [h.other _ (key_ne hy)] at he
    exact ht y e he

theorem sets_remove (r : Keyspace σ) (x : Obj) : S.Sets r (r.remove (S.key x)) x where
  self e he := by
    have hnone : (r.remove (S.key x)).keys (S.key x) = none := Function.update_self _ _ _
    rw [hnone] at he
    cases he
  other key hkey := r.keys_remove_ne hkey

/-- A key that is kept for good stays so when its value is changed. -/
theorem sets_write {v : Value σ} (hlasting : r.Lasting (S.key x))
    (hv : (S.kind x).Holds ⟨v, none⟩) : S.Sets r (r.write (S.key x) v) x where
  self e he := by
    rw [Keyspace.keys_write_of_lasting hlasting] at he
    cases he
    exact hv
  other key hkey := r.keys_write_ne hkey v

theorem sets_store {v : Value σ} {secs : Nat}
    (hv : ∀ t, (S.kind x).Holds (⟨v, t⟩ : Entry σ)) : S.Sets r (r.store (S.key x) v secs) x where
  self e he := by
    rw [Keyspace.keys_store_self] at he
    cases he
    exact hv _
  other key hkey := r.keys_store_ne hkey v secs

/-! ## Lists -/

section Lists

variable {item : String → Prop} (ht : S.Typed r) (hkind : S.kind x = .list item)

include ht hkind

theorem Typed.lasting_list : r.Lasting (S.key x) := by
  intro e he
  have hholds := ht x e he
  rw [hkind] at hholds
  exact hholds.1

/-- A list command finds a list. -/
theorem Typed.list? : ∃ items, r.list? (S.key x) = .ok items ∧ ∀ i ∈ items, item i := by
  unfold Keyspace.list?
  rw [Keyspace.get_of_lasting (ht.lasting_list hkind)]
  cases hkey : r.keys (S.key x) with
  | none => exact ⟨[], rfl, fun i hi => (List.not_mem_nil hi).elim⟩
  | some e =>
      have hholds := ht x e hkey
      rw [hkind] at hholds
      obtain ⟨-, items, hvalue, -, hitems⟩ := hholds
      rw [Option.map_some, hvalue]
      exact ⟨items, rfl, hitems⟩

/-- A list that is there has items. -/
theorem Typed.live_iff : (r.live (S.key x)).isSome = true ↔ r.items (S.key x) ≠ [] := by
  have hlasting := ht.lasting_list hkind
  unfold Keyspace.items Keyspace.list?
  rw [Keyspace.get_of_lasting hlasting]
  cases hkey : r.keys (S.key x) with
  | none => simp [Keyspace.live, hkey]
  | some e =>
      have hholds := ht x e hkey
      rw [hkind] at hholds
      obtain ⟨hexpiry, items, hvalue, hne, -⟩ := hholds
      have halive : Keyspace.Entry.alive r.clock e = true := by
        simp [Keyspace.Entry.alive, hexpiry]
      simp [Keyspace.live, hkey, halive, hvalue, hne]

theorem Typed.items {items : List String} (h : r.list? (S.key x) = .ok items) :
    ∀ i ∈ items, item i := by
  obtain ⟨items', hlist, hitems⟩ := ht.list? hkind
  rw [hlist] at h
  cases h
  exact hitems

theorem Typed.sets_writeList (items : List String) (hitems : ∀ i ∈ items, item i) :
    S.Sets r (r.writeList (S.key x) items) x := by
  unfold Keyspace.writeList
  split
  · exact sets_remove r x
  · rename_i hne
    refine sets_write (ht.lasting_list hkind) ?_
    rw [hkind]
    exact ⟨rfl, items, rfl, hne, hitems⟩

end Lists

/-! ## Sorted sets -/

section Sets

variable {member : String → Prop} (ht : S.Typed r) (hkind : S.kind x = .zset member)

include ht hkind

theorem Typed.lasting_zset : r.Lasting (S.key x) := by
  intro e he
  have hholds := ht x e he
  rw [hkind] at hholds
  exact hholds.1

/-- A command on a sorted set finds one. -/
theorem Typed.zset? : ∃ set, r.zset? (S.key x) = .ok set ∧ ∀ m ∈ set.members, member m := by
  unfold Keyspace.zset?
  rw [Keyspace.get_of_lasting (ht.lasting_zset hkind)]
  cases hkey : r.keys (S.key x) with
  | none => exact ⟨.empty, rfl, fun m hm => (List.not_mem_nil hm).elim⟩
  | some e =>
      have hholds := ht x e hkey
      rw [hkind] at hholds
      obtain ⟨-, set, hvalue, hset⟩ := hholds
      rw [Option.map_some, hvalue]
      exact ⟨set, rfl, hset⟩

theorem Typed.sets_writeZset (set : SortedSet σ) (hset : ∀ m ∈ set.members, member m) :
    S.Sets r (r.writeZset (S.key x) set) x := by
  unfold Keyspace.writeZset
  split
  · exact sets_remove r x
  · refine sets_write (ht.lasting_zset hkind) ?_
    rw [hkind]
    exact ⟨rfl, set, rfl, hset⟩

end Sets

/-! ## Counters -/

section Counters

variable (ht : S.Typed r) (hkind : S.kind x = .counter)

include ht hkind

theorem Typed.lasting_counter : r.Lasting (S.key x) := by
  intro e he
  have hholds := ht x e he
  rw [hkind] at hholds
  exact hholds.1

/-- A counter is counted up unless it is at its bound. -/
theorem Typed.incr : r.incr (S.key x) = .error wouldOverflow ∨
    ∃ n, r.incr (S.key x) = .ok (n, r.write (S.key x) (.int n)) := by
  unfold Keyspace.incr
  rw [Keyspace.get_of_lasting (ht.lasting_counter hkind)]
  cases hkey : r.keys (S.key x) with
  | none => exact .inr ⟨1, rfl⟩
  | some e =>
      have hholds := ht x e hkey
      rw [hkind] at hholds
      obtain ⟨-, n, hvalue⟩ := hholds
      rw [Option.map_some, hvalue]
      dsimp only
      split
      · exact .inr ⟨n + 1, rfl⟩
      · exact .inl rfl

theorem Typed.sets_counter (n : Int) : S.Sets r (r.write (S.key x) (.int n)) x := by
  refine sets_write (ht.lasting_counter hkind) ?_
  rw [hkind]
  exact ⟨rfl, n, rfl⟩

end Counters

end Schema

end Kojin.Foundation
