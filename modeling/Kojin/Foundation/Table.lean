/-
  Foundation/Table.lean --- finite maps, and the total of a weight over their
  entries.

  A `Table` is a map with finitely many keys, kept as a list of entries without
  repeated keys.  The list order stands for the iteration order of a hash map,
  which no statement below depends on.

  A conservation argument over a table of queues needs a total over all of them
  together: how often something occurs, or the bag of everything there is.
  `tally f t` is that total, in any commutative monoid, and `tally_insert` says
  how it moves when one entry is replaced.  The last section turns a tally of one
  back into a statement about places: there is exactly one key, and at that key
  exactly one position.
-/
import Mathlib.Data.List.AList
import Mathlib.Algebra.BigOperators.Group.List.Basic
import Mathlib.Algebra.Order.Group.Multiset
import Mathlib.Tactic.Abel

set_option autoImplicit false

namespace Kojin.Foundation

/-- A finite map from `α` to `β`. -/
abbrev Table (α β : Type) : Type := AList fun _ : α => β

namespace Table

variable {α β : Type} [DecidableEq α] {M : Type} [AddCommMonoid M]

/-- The total of `f` over all values of the table. -/
def tally (f : β → M) (t : Table α β) : M :=
  (t.entries.map fun e => f e.2).sum

omit [DecidableEq α] in
@[simp] theorem tally_empty (f : β → M) : tally f (∅ : Table α β) = 0 := rfl

/-- Removing the first entry of a key from a list of entries removes its weight. -/
theorem sum_kerase (f : β → M) (k : α) (l : List ((_ : α) × β)) :
    ((l.kerase k).map fun e => f e.2).sum + ((l.dlookup k).elim 0 f) =
      (l.map fun e => f e.2).sum := by
  induction l with
  | nil => simp
  | cons e l ih =>
      rcases e with ⟨k', v⟩
      by_cases hk : k = k'
      · subst hk
        have herase : List.kerase k ((⟨k, v⟩ : (_ : α) × β) :: l) = l :=
          List.kerase_cons_eq rfl
        rw [herase, List.dlookup_cons_eq]
        simp [add_comm]
      · have herase : List.kerase k ((⟨k', v⟩ : (_ : α) × β) :: l) = ⟨k', v⟩ :: l.kerase k :=
          List.kerase_cons_ne hk
        have hlookup : List.dlookup k ((⟨k', v⟩ : (_ : α) × β) :: l) = l.dlookup k :=
          List.dlookup_cons_ne l _ hk
        rw [herase, hlookup]
        simp only [List.map_cons, List.sum_cons]
        rw [add_assoc, ih]

/-- Replacing the entry at `k` trades the old weight for the new one. -/
theorem tally_insert (f : β → M) (k : α) (v : β) (t : Table α β) :
    tally f (t.insert k v) + ((t.lookup k).elim 0 f) = f v + tally f t := by
  have h := sum_kerase f k t.entries
  unfold tally
  rw [AList.entries_insert, List.map_cons, List.sum_cons]
  change f v + _ + ((t.entries.dlookup k).elim 0 f) = _
  rw [add_assoc, h]

omit [DecidableEq α] in
/-- A list without repeated keys has no key twice after a filter. -/
theorem nodupKeys_filter {l : List ((_ : α) × β)} (h : l.NodupKeys) (keep : β → Bool) :
    (l.filter fun e => keep e.2).NodupKeys :=
  h.sublist List.filter_sublist

/-- The entries whose values pass a test. -/
def retain (keep : β → Bool) (t : Table α β) : Table α β :=
  ⟨t.entries.filter fun e => keep e.2, nodupKeys_filter t.nodupKeys keep⟩

theorem lookup_retain (keep : β → Bool) (t : Table α β) (k : α) :
    (retain keep t).lookup k = (t.lookup k).filter keep := by
  obtain ⟨l, hl⟩ := t
  show (l.filter fun e => keep e.2).dlookup k = (l.dlookup k).filter keep
  induction l with
  | nil => rfl
  | cons e l ih =>
      obtain ⟨k', v⟩ := e
      obtain ⟨hk', hl⟩ := List.nodupKeys_cons.mp hl
      rw [List.filter_cons]
      by_cases hk : k = k'
      · subst hk
        have hgone : (l.filter fun e => keep e.2).dlookup k = none := by
          refine List.dlookup_eq_none.mpr fun hmem => hk' ?_
          exact (List.filter_sublist.map _).subset hmem
        rw [List.dlookup_cons_eq]
        cases hv : keep v with
        | true => simp [Option.filter, hv]
        | false => simp [Option.filter, hv, hgone]
      · rw [List.dlookup_cons_ne l _ hk, ← ih hl]
        split
        · rw [List.dlookup_cons_ne _ _ hk]
        · rfl

/-- A single entry weighs no more than the table. -/
theorem le_tally {f : β → Nat} {k : α} {v : β} {t : Table α β}
    (h : t.lookup k = some v) : f v ≤ tally f t := by
  have hsum := sum_kerase f k t.entries
  have hlookup : t.entries.dlookup k = some v := h
  rw [hlookup] at hsum
  unfold tally
  simp only [Option.elim_some] at hsum
  omega

/-- Two entries together weigh no more than the table. -/
theorem add_le_tally {f : β → Nat} {k k' : α} {v v' : β} {t : Table α β}
    (hne : k ≠ k') (h : t.lookup k = some v) (h' : t.lookup k' = some v') :
    f v + f v' ≤ tally f t := by
  have hrest : f v' ≤ tally f (t.erase k) := by
    refine le_tally (k := k') ?_
    rw [AList.lookup_erase_ne (Ne.symm hne)]
    exact h'
  have hsum := sum_kerase f k t.entries
  have hlookup : t.entries.dlookup k = some v := h
  rw [hlookup] at hsum
  have herase : (t.erase k).entries = t.entries.kerase k := rfl
  unfold tally at hrest ⊢
  rw [herase] at hrest
  simp only [Option.elim_some] at hsum
  omega

/-- A table of positive weight has an entry of positive weight. -/
theorem exists_of_tally_pos {f : β → Nat} {t : Table α β} (h : 0 < tally f t) :
    ∃ k v, t.lookup k = some v ∧ 0 < f v := by
  unfold tally at h
  have hne : ∃ e ∈ t.entries, 0 < f e.2 := by
    by_contra hnone
    push Not at hnone
    have hzero : (t.entries.map fun e => f e.2).sum = 0 := by
      rw [List.sum_eq_zero]
      intro n hn
      obtain ⟨e, he, rfl⟩ := List.mem_map.mp hn
      exact Nat.le_zero.mp (hnone e he)
    omega
  obtain ⟨e, he, hpos⟩ := hne
  exact ⟨e.1, e.2, AList.mem_lookup_iff.mpr he, hpos⟩

/-! ## The bag of all elements -/

/-- Everything the lists of the table hold, as a bag. -/
def contents (t : Table α (List β)) : Multiset β := tally (fun l : List β => (l : Multiset β)) t

omit [DecidableEq α] in
@[simp] theorem contents_empty : contents (∅ : Table α (List β)) = 0 := rfl

/-- Pushing onto one list adds the element to the bag. -/
theorem contents_push (t : Table α (List β)) (k : α) (b : β) :
    contents (t.insert k ((t.lookup k).getD [] ++ [b])) = b ::ₘ contents t := by
  have h := tally_insert (fun l : List β => (l : Multiset β)) k ((t.lookup k).getD [] ++ [b]) t
  cases hlookup : t.lookup k with
  | none =>
      rw [hlookup] at h
      simpa [contents] using h
  | some l =>
      rw [hlookup] at h
      simp only [Option.elim_some, Option.getD_some, ← Multiset.coe_add] at h
      have h' : contents (t.insert k (l ++ [b])) + (l : Multiset β) =
          (b ::ₘ contents t) + (l : Multiset β) := by
        unfold contents
        rw [h, Multiset.coe_singleton, ← Multiset.singleton_add]
        abel
      exact add_right_cancel h'

/-- Taking the front of one list takes the element out of the bag. -/
theorem contents_pop {t : Table α (List β)} {k : α} {b : β} {l : List β}
    (hlookup : t.lookup k = some (b :: l)) :
    contents t = b ::ₘ contents (t.insert k l) := by
  have h := tally_insert (fun l : List β => (l : Multiset β)) k l t
  rw [hlookup] at h
  simp only [Option.elim_some, ← Multiset.cons_coe] at h
  have h' : contents t + (l : Multiset β) =
      (b ::ₘ contents (t.insert k l)) + (l : Multiset β) := by
    unfold contents
    rw [add_comm, ← h, ← Multiset.singleton_add, ← Multiset.singleton_add]
    abel
  exact add_right_cancel h'

end Table

/-! ## Occurrences as positions -/

section Positions

variable {β : Type} {p : β → Bool}

/-- Two different positions that satisfy `p` count twice. -/
theorem two_le_countP_of_ne {l : List β} {i j : Nat} {a b : β} (hij : i < j)
    (hi : l[i]? = some a) (hj : l[j]? = some b) (ha : p a = true) (hb : p b = true) :
    2 ≤ l.countP p := by
  induction l generalizing i j with
  | nil => simp at hi
  | cons c l ih =>
      cases j with
      | zero => omega
      | succ j =>
          have hmem : b ∈ l := List.mem_of_getElem? (by simpa using hj)
          have hpos : 0 < l.countP p := List.countP_pos_iff.mpr ⟨b, hmem, hb⟩
          cases i with
          | zero =>
              have hc : c = a := by simpa using hi
              rw [List.countP_cons, hc, if_pos ha]
              omega
          | succ i =>
              have h2 := ih (i := i) (j := j) (by omega) (by simpa using hi) (by simpa using hj)
              rw [List.countP_cons]
              omega

/-- Where `p` occurs at most once, its positions coincide. -/
theorem position_unique {l : List β} {i j : Nat} {a b : β} (hle : l.countP p ≤ 1)
    (hi : l[i]? = some a) (hj : l[j]? = some b) (ha : p a = true) (hb : p b = true) :
    i = j := by
  rcases Nat.lt_trichotomy i j with h | h | h
  · have := two_le_countP_of_ne h hi hj ha hb
    omega
  · exact h
  · have := two_le_countP_of_ne h hj hi hb ha
    omega

/-- An occurrence has a position. -/
theorem exists_position {l : List β} (h : 0 < l.countP p) :
    ∃ (i : Nat) (a : β), l[i]? = some a ∧ p a = true := by
  obtain ⟨a, hmem, ha⟩ := List.countP_pos_iff.mp h
  obtain ⟨i, hi⟩ := List.mem_iff_getElem?.mp hmem
  exact ⟨i, a, hi, ha⟩

/-- A position that satisfies `p` counts. -/
theorem countP_pos_of_position {l : List β} {i : Nat} {a : β} (hi : l[i]? = some a)
    (ha : p a = true) : 0 < l.countP p :=
  List.countP_pos_iff.mpr ⟨a, List.mem_of_getElem? hi, ha⟩

end Positions

end Kojin.Foundation
