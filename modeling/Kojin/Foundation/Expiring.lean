/-
  Foundation/Expiring.lean --- what a store of values that expire is for.

  A key is given a value, for good or until a time, or its value is dropped.  What a
  reader is to find under a key follows from the changes alone: the value of the last
  one, if that gave one and its time is not up.

      valueAt ws k now     the value under `k` at `now` after the changes `ws`

  Keys, values and times are arbitrary.  Nothing here mentions a particular store.
-/
import Mathlib.Data.List.Induction
import Mathlib.Order.Lattice

set_option autoImplicit false

namespace Kojin.Foundation

/-- What may be done to a key. -/
inductive Change (V T : Type) where
  | put (value : V) (until? : Option T)
  | drop
  deriving DecidableEq

/-- A change to a key. -/
structure Write (K V T : Type) where
  key : K
  change : Change V T
  deriving DecidableEq

section Values

variable {K V T : Type} [DecidableEq K]

/-- The last change to a key. -/
def lastChange (ws : List (Write K V T)) (k : K) : Option (Change V T) :=
  ((ws.filter fun w => w.key = k).getLast?).map Write.change

@[simp] theorem lastChange_nil (k : K) : lastChange ([] : List (Write K V T)) k = none := rfl

theorem lastChange_snoc (ws : List (Write K V T)) (w : Write K V T) (k : K) :
    lastChange (ws ++ [w]) k = if w.key = k then some w.change else lastChange ws k := by
  unfold lastChange
  by_cases h : w.key = k
  · simp [List.filter_append, h]
  · simp [List.filter_append, h]

/-- A key was never changed, or there is a last change to it; the changes may be part of
something. -/
theorem lastChange_map_cases {ω : Type} (f : ω → Write K V T) (ws : List ω) (k : K) :
    (lastChange (ws.map f) k = none ∧ ∀ w ∈ ws, (f w).key ≠ k) ∨
      ∃ before w after, ws = before ++ w :: after ∧ (f w).key = k ∧
        (∀ w' ∈ after, (f w').key ≠ k) ∧ lastChange (ws.map f) k = some (f w).change := by
  induction ws using List.reverseRecOn with
  | nil => exact .inl ⟨rfl, fun _ hw => (List.not_mem_nil hw).elim⟩
  | append_singleton ws w ih =>
      rw [List.map_append, List.map_singleton, lastChange_snoc]
      by_cases hkey : (f w).key = k
      · rw [if_pos hkey]
        exact .inr ⟨ws, w, [], rfl, hkey, fun _ hw => (List.not_mem_nil hw).elim, rfl⟩
      · rw [if_neg hkey]
        rcases ih with ⟨hnone, hnever⟩ | ⟨before, w₁, after, rfl, hw₁, hafter, hlast⟩
        · refine .inl ⟨hnone, fun w' hw' => ?_⟩
          rcases List.mem_append.mp hw' with hw' | hw'
          · exact hnever w' hw'
          · rw [List.mem_singleton.mp hw']
            exact hkey
        · refine .inr ⟨before, w₁, after ++ [w], by simp, hw₁, fun w' hw' => ?_, hlast⟩
          rcases List.mem_append.mp hw' with hw' | hw'
          · exact hafter w' hw'
          · rw [List.mem_singleton.mp hw']
            exact hkey

variable [LinearOrder T]

/-- What a change leaves under its key at a time. -/
def Change.valueAt (now : T) : Change V T → Option V
  | .put value until? => if until?.all (now < ·) then some value else none
  | .drop => none

/-- The time of a value is not up. -/
def Current (now : T) (until? : Option T) : Prop := ∀ t ∈ until?, now < t

theorem Change.valueAt_put_iff {now : T} {value v : V} {until? : Option T} :
    (Change.put value until?).valueAt now = some v ↔ value = v ∧ Current now until? := by
  have hall : until?.all (now < ·) = true ↔ Current now until? := by
    cases until? with
    | none => simp [Current]
    | some t => simp [Current]
  rw [Change.valueAt]
  split
  · rename_i halive
    simp [hall.mp halive]
  · rename_i hup
    have hnot : ¬ Current now until? := fun h => hup (hall.mpr h)
    simp [hnot]

/-- What is under a key at a time. -/
def valueAt (ws : List (Write K V T)) (k : K) (now : T) : Option V :=
  (lastChange ws k).bind (Change.valueAt now)

@[simp] theorem valueAt_nil (k : K) (now : T) :
    valueAt ([] : List (Write K V T)) k now = none := rfl

/-- A change decides what is under its key, and nothing else. -/
theorem valueAt_snoc (ws : List (Write K V T)) (w : Write K V T) (k : K) (now : T) :
    valueAt (ws ++ [w]) k now = if w.key = k then w.change.valueAt now else valueAt ws k now := by
  unfold valueAt
  rw [lastChange_snoc]
  split <;> rfl

/-- What is there was put there, and nothing was done to the key since. -/
theorem valueAt_eq_some_iff {ws : List (Write K V T)} {k : K} {now : T} {v : V} :
    valueAt ws k now = some v ↔ ∃ before until? after,
      ws = before ++ ⟨k, .put v until?⟩ :: after ∧ (∀ w ∈ after, w.key ≠ k) ∧
        Current now until? := by
  induction ws using List.reverseRecOn with
  | nil => simp
  | append_singleton ws w ih =>
      rw [valueAt_snoc]
      constructor
      · intro h
        split at h
        · rename_i hkey
          obtain ⟨key, change⟩ := w
          obtain rfl : key = k := hkey
          cases change with
          | drop => cases h
          | put value until? =>
              obtain ⟨rfl, hcurrent⟩ := Change.valueAt_put_iff.mp h
              exact ⟨ws, until?, [], rfl, fun _ hw => (List.not_mem_nil hw).elim, hcurrent⟩
        · rename_i hkey
          obtain ⟨before, until?, after, rfl, hafter, halive⟩ := ih.mp h
          refine ⟨before, until?, after ++ [w], by simp, fun w' hw' => ?_, halive⟩
          rcases List.mem_append.mp hw' with hw' | hw'
          · exact hafter w' hw'
          · rw [List.mem_singleton.mp hw']
            exact hkey
      · rintro ⟨before, until?, after, heq, hafter, halive⟩
        cases after using List.reverseRecOn with
        | nil =>
            obtain ⟨rfl, hw⟩ := List.append_inj' heq rfl
            obtain rfl := List.cons.inj hw |>.1
            rw [if_pos rfl]
            exact Change.valueAt_put_iff.mpr ⟨rfl, halive⟩
        | append_singleton after w' =>
            have hsplit : ws ++ [w] = (before ++ ⟨k, .put v until?⟩ :: after) ++ [w'] := by
              simpa using heq
            obtain ⟨rfl, hw⟩ := List.append_inj' hsplit rfl
            obtain rfl := List.cons.inj hw |>.1
            have hne : w.key ≠ k := hafter w (List.mem_append.mpr (.inr List.mem_cons_self))
            rw [if_neg hne]
            exact ih.mpr ⟨before, until?, after, rfl,
              fun w' hw' => hafter w' (List.mem_append.mpr (.inl hw')), halive⟩

end Values

end Kojin.Foundation
