/-
  Foundation/Leases.lean --- items that are lent out under receipts.

  An item is put down, and it is lent under a receipt that was never used before.  What is
  lent is given back, or it is settled and gone:

      put ──> free ── lend r ──> lent under r ── settle r ──> gone
               ^                      │
               └───── giveBack r ─────┘

  In every history two accounts balance:

      put down and given back   =   free and lent out
      lent out                  =   still lent, given back, and settled

  A receipt is for one item, and settles it at most once.  A `Book` is what a lender keeps:
  such a history, and the receipts it has not used.  Nothing here mentions a particular
  program.
-/
import Mathlib.Algebra.Order.Group.Multiset
import Mathlib.Data.Multiset.Filter
import Mathlib.Tactic.Abel

set_option autoImplicit false

namespace Kojin.Foundation

/-- What happens to an item, under which receipt. -/
inductive Dealing (ρ α : Type) where
  | put (x : α)
  | lend (receipt : ρ) (x : α)
  | giveBack (receipt : ρ) (x : α)
  | settle (receipt : ρ) (x : α)
  deriving DecidableEq

/-- The items that can be lent, and those that are. -/
structure Leases (ρ α : Type) where
  free : Multiset α
  lent : Multiset (ρ × α)

namespace Dealing

variable {ρ α β : Type}

/-- The item a dealing put down. -/
def put? : Dealing ρ α → Option α
  | .put x => some x
  | _ => none

/-- The item a dealing lent. -/
def lent? : Dealing ρ α → Option (ρ × α)
  | .lend receipt x => some (receipt, x)
  | _ => none

/-- The item a dealing gave back. -/
def returned? : Dealing ρ α → Option (ρ × α)
  | .giveBack receipt x => some (receipt, x)
  | _ => none

/-- The item a dealing settled. -/
def settled? : Dealing ρ α → Option (ρ × α)
  | .settle receipt x => some (receipt, x)
  | _ => none

/-- What the dealings of one kind amount to. -/
def tally (kind : Dealing ρ α → Option β) (ds : List (Dealing ρ α)) : Multiset β :=
  ds.filterMap kind

@[simp] theorem tally_nil (kind : Dealing ρ α → Option β) : tally kind [] = 0 := rfl

@[simp] theorem tally_snoc (kind : Dealing ρ α → Option β) (ds : List (Dealing ρ α))
    (d : Dealing ρ α) : tally kind (ds ++ [d]) = tally kind ds + (kind d).elim 0 fun b => {b} := by
  unfold tally
  rw [List.filterMap_append, ← Multiset.coe_add]
  cases h : kind d <;> simp [h]

theorem mem_lent {ds : List (Dealing ρ α)} {e : ρ × α} :
    e ∈ tally lent? ds ↔ .lend e.1 e.2 ∈ ds := by
  rw [tally, Multiset.mem_coe, List.mem_filterMap]
  constructor
  · rintro ⟨d, hd, heq⟩
    cases d with
    | lend receipt x =>
        cases heq
        exact hd
    | _ => cases heq
  · exact fun h => ⟨_, h, rfl⟩

theorem mem_settled {ds : List (Dealing ρ α)} {e : ρ × α} :
    e ∈ tally settled? ds ↔ .settle e.1 e.2 ∈ ds := by
  rw [tally, Multiset.mem_coe, List.mem_filterMap]
  constructor
  · rintro ⟨d, hd, heq⟩
    cases d with
    | settle receipt x =>
        cases heq
        exact hd
    | _ => cases heq
  · exact fun h => ⟨_, h, rfl⟩

end Dealing

/-- A list with one more element. -/
theorem coe_snoc {α : Type} (l : List α) (a : α) :
    ((l ++ [a] : List α) : Multiset α) = a ::ₘ (l : Multiset α) :=
  Multiset.coe_eq_coe.mpr (List.perm_append_singleton a l)

/-- What a list has of a kind: nothing, or its first element is taken out. -/
theorem find?_eraseP_cases {α : Type} (p : α → Bool) (l : List α) :
    (l.find? p = none ∧ l.eraseP p = l) ∨
      ∃ a, l.find? p = some a ∧ p a = true ∧ l.Perm (a :: l.eraseP p) := by
  cases hfind : l.find? p with
  | none => exact .inl ⟨rfl, List.eraseP_of_forall_not fun a ha => List.find?_eq_none.mp hfind a ha⟩
  | some a =>
      obtain ⟨ha, before, after, rfl, hbefore⟩ := List.find?_eq_some_iff_append.mp hfind
      refine .inr ⟨a, rfl, ha, ?_⟩
      rw [List.eraseP_append_right _ fun b hb => by simpa using hbefore b hb,
        List.eraseP_cons_of_pos ha]
      exact List.perm_middle

namespace Leases

variable {ρ α : Type}

open Dealing

/-- What happened since there was nothing, and what it left. -/
inductive Run : List (Dealing ρ α) → Leases ρ α → Prop where
  | start : Run [] ⟨0, 0⟩
  | put {ds : List (Dealing ρ α)} {free : Multiset α} {lent : Multiset (ρ × α)} (x : α) :
      Run ds ⟨free, lent⟩ → Run (ds ++ [.put x]) ⟨x ::ₘ free, lent⟩
  | lend {ds : List (Dealing ρ α)} {free : Multiset α} {lent : Multiset (ρ × α)} {receipt : ρ}
      {x : α} :
      Run ds ⟨x ::ₘ free, lent⟩ → (∀ y, .lend receipt y ∉ ds) →
      Run (ds ++ [.lend receipt x]) ⟨free, (receipt, x) ::ₘ lent⟩
  | giveBack {ds : List (Dealing ρ α)} {free : Multiset α} {lent : Multiset (ρ × α)}
      {receipt : ρ} {x : α} :
      Run ds ⟨free, (receipt, x) ::ₘ lent⟩ →
      Run (ds ++ [.giveBack receipt x]) ⟨x ::ₘ free, lent⟩
  | settle {ds : List (Dealing ρ α)} {free : Multiset α} {lent : Multiset (ρ × α)}
      {receipt : ρ} {x : α} :
      Run ds ⟨free, (receipt, x) ::ₘ lent⟩ →
      Run (ds ++ [.settle receipt x]) ⟨free, lent⟩

variable {ds : List (Dealing ρ α)} {L : Leases ρ α}

/-- What was put down or given back is free, or it was lent out. -/
theorem Run.free_eq (h : Run ds L) :
    tally put? ds + (tally returned? ds).map Prod.snd =
      L.free + (tally lent? ds).map Prod.snd := by
  induction h with
  | start => rfl
  | put x _ ih =>
      simp only [tally_snoc, put?, returned?, lent?, Option.elim_some, Option.elim_none,
        add_zero, ← Multiset.singleton_add] at ih ⊢
      rw [add_right_comm, ih]
      abel
  | lend _ _ ih =>
      simp only [tally_snoc, put?, returned?, lent?, Option.elim_some, Option.elim_none,
        add_zero, Multiset.map_add, Multiset.map_singleton, ← Multiset.singleton_add] at ih ⊢
      rw [ih]
      abel
  | giveBack _ ih =>
      simp only [tally_snoc, put?, returned?, lent?, Option.elim_some, Option.elim_none,
        add_zero, Multiset.map_add, Multiset.map_singleton, ← Multiset.singleton_add] at ih ⊢
      rw [← add_assoc, ih]
      abel
  | settle _ ih => simpa [put?, returned?, lent?] using ih

/-- What was lent out is still lent, was given back, or is settled. -/
theorem Run.lent_eq (h : Run ds L) :
    tally lent? ds = L.lent + tally returned? ds + tally settled? ds := by
  induction h with
  | start => rfl
  | put x _ ih => simpa [put?, returned?, lent?, settled?] using ih
  | lend _ _ ih =>
      simp only [tally_snoc, returned?, lent?, settled?, Option.elim_some, Option.elim_none,
        add_zero, ← Multiset.singleton_add] at ih ⊢
      rw [ih]
      abel
  | giveBack _ ih =>
      simp only [tally_snoc, returned?, lent?, settled?, Option.elim_some, Option.elim_none,
        add_zero, ← Multiset.singleton_add] at ih ⊢
      rw [ih]
      abel
  | settle _ ih =>
      simp only [tally_snoc, returned?, lent?, settled?, Option.elim_some, Option.elim_none,
        add_zero, ← Multiset.singleton_add] at ih ⊢
      rw [ih]
      abel

/-- What was put down is free, lent or settled. -/
theorem Run.put_eq (h : Run ds L) :
    tally put? ds = L.free + L.lent.map Prod.snd + (tally settled? ds).map Prod.snd := by
  have hfree := h.free_eq
  rw [h.lent_eq] at hfree
  simp only [Multiset.map_add] at hfree
  apply add_right_cancel (b := (tally returned? ds).map Prod.snd)
  rw [hfree]
  abel

/-- No receipt is used for two loans. -/
theorem Run.receipts_nodup (h : Run ds L) : ((tally lent? ds).map Prod.fst).Nodup := by
  induction h with
  | start => exact Multiset.nodup_zero
  | put x _ ih => simpa [lent?] using ih
  | @lend ds _ _ receipt x _ hfresh ih =>
      have hnew : receipt ∉ (tally lent? ds).map Prod.fst := by
        intro hmem
        obtain ⟨⟨receipt', y⟩, he, heq⟩ := Multiset.mem_map.mp hmem
        obtain rfl : receipt' = receipt := heq
        exact hfresh y (mem_lent.mp he)
      simp only [tally_snoc, lent?, Option.elim_some, Multiset.map_add, Multiset.map_singleton]
      rw [add_comm, Multiset.singleton_add]
      exact Multiset.nodup_cons.mpr ⟨hnew, ih⟩
  | giveBack _ ih => simpa [lent?] using ih
  | settle _ ih => simpa [lent?] using ih

/-- A receipt is for one item. -/
theorem Run.lend_unique (h : Run ds L) {receipt : ρ} {x y : α} (hx : .lend receipt x ∈ ds)
    (hy : .lend receipt y ∈ ds) : x = y := by
  have hinj := Multiset.inj_on_of_nodup_map h.receipts_nodup
  have heq := hinj (receipt, x) (mem_lent.mpr hx) (receipt, y) (mem_lent.mpr hy) rfl
  exact congrArg Prod.snd heq

/-- What is lent was lent out under its receipt. -/
theorem Run.lend_of_lent (h : Run ds L) {receipt : ρ} {x : α} (hx : (receipt, x) ∈ L.lent) :
    .lend receipt x ∈ ds := by
  apply (mem_lent (e := (receipt, x))).mp
  rw [h.lent_eq]
  simp [hx]

/-! ## Keeping book -/

/-- The dealings led to the leases, and no receipt that is still to be issued was used. -/
structure Book (unused : ρ → Prop) (ds : List (Dealing ρ α)) (L : Leases ρ α) : Prop where
  run : Run ds L
  used : ∀ receipt x, .lend receipt x ∈ ds → ¬ unused receipt

section Book

variable {unused unused' : ρ → Prop} {free : Multiset α} {lent : Multiset (ρ × α)} {receipt : ρ}
  {x : α}

/-- A dealing that is no loan uses no receipt. -/
theorem Book.next (h : Book unused ds L) {d : Dealing ρ α} {L' : Leases ρ α}
    (hrun : Run (ds ++ [d]) L') (hd : ∀ receipt x, d ≠ .lend receipt x) :
    Book unused (ds ++ [d]) L' := by
  refine ⟨hrun, fun receipt x hmem => ?_⟩
  rcases List.mem_append.mp hmem with hmem | hmem
  · exact h.used receipt x hmem
  · exact absurd (List.mem_singleton.mp hmem).symm (hd receipt x)

theorem Book.put (h : Book unused ds L) (x : α) :
    Book unused (ds ++ [.put x]) ⟨x ::ₘ L.free, L.lent⟩ :=
  h.next (h.run.put x) fun _ _ heq => by cases heq

theorem Book.giveBack (h : Book unused ds ⟨free, (receipt, x) ::ₘ lent⟩) :
    Book unused (ds ++ [.giveBack receipt x]) ⟨x ::ₘ free, lent⟩ :=
  h.next h.run.giveBack fun _ _ heq => by cases heq

theorem Book.settle (h : Book unused ds ⟨free, (receipt, x) ::ₘ lent⟩) :
    Book unused (ds ++ [.settle receipt x]) ⟨free, lent⟩ :=
  h.next h.run.settle fun _ _ heq => by cases heq

/-- A loan uses a receipt, which is not issued again. -/
theorem Book.lend (h : Book unused ds ⟨x ::ₘ free, lent⟩) (hreceipt : unused receipt)
    (hunused : ∀ r, unused' r → unused r ∧ r ≠ receipt) :
    Book unused' (ds ++ [.lend receipt x]) ⟨free, (receipt, x) ::ₘ lent⟩ := by
  refine ⟨h.run.lend fun y hy => h.used receipt y hy hreceipt, fun r y hmem hr => ?_⟩
  rcases List.mem_append.mp hmem with hmem | hmem
  · exact h.used r y hmem (hunused r hr).1
  · cases List.mem_singleton.mp hmem
    exact (hunused receipt hr).2 rfl

end Book

end Leases

end Kojin.Foundation
