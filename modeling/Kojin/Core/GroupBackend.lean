/-
  Core/GroupBackend.lean --- what a chord needs of a result backend.

  A group collects the results of its members.  `GroupBackend` states, over any
  backend that answers method by method, what each answer is as long as the group
  is used as a workflow uses it: announced once before the first member
  completes, and with fewer than `2 ^ 32` members, the range of the counter.

  `Faithful` are the results that survive the way through the backend.  In memory
  these are all of them; a backend that stores text keeps those its JSON library
  prints and reads back unchanged.
-/
import Kojin.Core.MemoryResultBackend

set_option autoImplicit false

namespace Kojin.Core

open Kojin.Foundation

/-- The group a backend call is about. -/
def ResultBackendOp.group : ResultBackendOp → Option String
  | .store _ _ => none
  | .initGroup group _ => some group
  | .completeGroupMember group _ _ => some group
  | .getGroupResults group => some group

/-- The groups of a backend, abstractly: not yet touched, or holding a list of
results. -/
structure GroupBackend (S : Service resultBackendTrait) where
  Untouched : S.State → String → Prop
  Holds : S.State → String → List Json → Prop
  Faithful : Json → Prop
  init : ∀ {o : S.Oracle} {s s' : S.State} {group : String} {total : UInt32}
    {r : TaskResult Unit}, Untouched s group →
    S.respond o s (.initGroup group total) = some (r, s') → r = .ok () ∧ Holds s' group []
  complete : ∀ {o : S.Oracle} {s s' : S.State} {group : String} {task : TaskId} {result : Json}
    {r : TaskResult UInt32} {rs : List Json}, Holds s group rs → rs.length + 1 < 2 ^ 32 →
    S.respond o s (.completeGroupMember group task result) = some (r, s') →
    r = .ok (UInt32.ofNat (rs.length + 1)) ∧ Holds s' group (rs ++ [result])
  results : ∀ {o : S.Oracle} {s s' : S.State} {group : String} {r : TaskResult (List Json)}
    {rs : List Json}, Holds s group rs → (∀ x ∈ rs, Faithful x) →
    S.respond o s (.getGroupResults group) = some (r, s') → r = .ok rs ∧ Holds s' group rs
  frame : ∀ {o : S.Oracle} {s s' : S.State} {group : String} {op : ResultBackendOp}
    {r : op.Res}, op.group ≠ some group → S.respond o s op = some (r, s') →
    (Untouched s group → Untouched s' group) ∧ ∀ rs, Holds s group rs → Holds s' group rs

namespace MemoryResultBackend

/-- A counter of `n` members moves on to `n + 1`. -/
theorem ofNat_succ (n : Nat) : UInt32.ofNat n + 1 = UInt32.ofNat (n + 1) := by
  rw [UInt32.ofNat_add]
  rfl

/-- The call leaves the entry of every other group alone. -/
theorem lookup_of_respond {o : Unit} {s s' : MemoryResultBackend} {group : String}
    {op : ResultBackendOp} {r : op.Res} (hne : op.group ≠ some group)
    (h : service.respond o s op = some (r, s')) :
    s'.groups.lookup group = s.groups.lookup group := by
  cases op with
  | store id result =>
      cases h
      rfl
  | initGroup group' total =>
      cases h
      exact AList.lookup_insert_ne fun heq => hne (congrArg some heq.symm)
  | completeGroupMember group' task result =>
      have h' : s.completeGroupMember group' result = (r, s') := Option.some.inj h
      unfold completeGroupMember at h'
      split at h'
      · cases h'
        rfl
      · cases h'
        exact AList.lookup_insert_ne fun heq => hne (congrArg some heq.symm)
  | getGroupResults group' =>
      cases h
      rfl

/-- The in-memory backend keeps the groups of a chord. -/
def groupBackend : GroupBackend service where
  Untouched s group := s.groups.lookup group = none
  Holds s group rs := ∃ total, s.groups.lookup group = some ⟨total, UInt32.ofNat rs.length, rs⟩
  Faithful _ := True
  init := by
    intro o s s' group total r _ h
    cases h
    exact ⟨rfl, total, AList.lookup_insert _⟩
  complete := by
    intro o s s' group task result r rs hholds _ h
    obtain ⟨total, hlookup⟩ := hholds
    have h' : s.completeGroupMember group result = (r, s') := Option.some.inj h
    simp only [completeGroupMember, hlookup, ofNat_succ] at h'
    cases h'
    refine ⟨rfl, total, ?_⟩
    rw [List.length_append, List.length_singleton]
    exact AList.lookup_insert _
  results := by
    intro o s s' group r rs hholds _ h
    obtain ⟨total, hlookup⟩ := hholds
    have h' : some (s.getGroupResults group, s) = some (r, s') := h
    simp only [getGroupResults, hlookup, Option.some.injEq, Prod.mk.injEq] at h'
    obtain ⟨rfl, rfl⟩ := h'
    exact ⟨rfl, total, hlookup⟩
  frame := by
    intro o s s' group op r hne h
    have hlookup := lookup_of_respond hne h
    exact ⟨fun hnone => hlookup.trans hnone,
      fun rs ⟨total, hsome⟩ => ⟨total, hlookup.trans hsome⟩⟩

end MemoryResultBackend

end Kojin.Core
