/-
  Core/GroupHistory.lean --- groups in a sequential history of a result backend.

  The calls made so far determine what has completed in a group: `completionsIn` lists
  the completions of a group, `sinceInit` those after its last initialisation.  Every
  backend is held to what it says of these lists; here it is the in-memory one, whose
  groups are exactly the lists since the last initialisation.

  `CountsMembers` is about the answers: every completion is answered with the number of
  different tasks that have completed in the group.  Each backend meets it exactly as
  long as its calls meet a condition, `Fresh` in memory.
-/
import Kojin.Core.GroupBackend
import Kojin.Foundation.History
import Mathlib.Data.List.Dedup

set_option autoImplicit false

namespace Kojin.Core

open Kojin.Foundation

/-! ## The calls of a history -/

/-- The completion a call makes in a group. -/
def ResultBackendOp.completion (group : String) : ResultBackendOp → Option (TaskId × Json)
  | .completeGroupMember g task result => if g = group then some (task, result) else none
  | _ => none

/-- The completions of a group, in order. -/
def completionsIn (group : String) (calls : List ResultBackendOp) : List (TaskId × Json) :=
  calls.filterMap (ResultBackendOp.completion group)

/-- What a call makes of the completions since the group was last initialised. -/
def ResultBackendOp.track (group : String) (entries : Option (List (TaskId × Json))) :
    ResultBackendOp → Option (List (TaskId × Json))
  | .initGroup g _ => if g = group then some [] else entries
  | .completeGroupMember g task result =>
      if g = group then entries.map (· ++ [(task, result)]) else entries
  | _ => entries

/-- The completions of a group since it was last initialised; none before that. -/
def sinceInit (group : String) (calls : List ResultBackendOp) : Option (List (TaskId × Json)) :=
  calls.foldl (ResultBackendOp.track group) none

section Calls

variable {group : String} {calls : List ResultBackendOp}

theorem completionsIn_snoc (op : ResultBackendOp) :
    completionsIn group (calls ++ [op]) =
      completionsIn group calls ++ (op.completion group).toList := by
  rw [completionsIn, List.filterMap_append, completionsIn]
  cases h : op.completion group <;> simp [List.filterMap, h]

/-- A completion adds its task. -/
theorem tasks_complete (calls : List ResultBackendOp) (group : String) (task : TaskId)
    (result : Json) :
    (completionsIn group (calls ++ [.completeGroupMember group task result])).map Prod.fst =
      (completionsIn group calls).map Prod.fst ++ [task] := by
  rw [completionsIn_snoc]
  simp [ResultBackendOp.completion]

/-- There is one completion more after a completion. -/
theorem length_complete (calls : List ResultBackendOp) (group : String) (task : TaskId)
    (result : Json) :
    (completionsIn group (calls ++ [.completeGroupMember group task result])).length =
      (completionsIn group calls).length + 1 := by
  rw [completionsIn_snoc]
  simp [ResultBackendOp.completion]

theorem completionsIn_cons (op : ResultBackendOp) :
    completionsIn group (op :: calls) =
      (op.completion group).toList ++ completionsIn group calls := by
  rw [completionsIn, List.filterMap_cons, completionsIn]
  cases h : op.completion group <;> simp

theorem sinceInit_snoc (op : ResultBackendOp) :
    sinceInit group (calls ++ [op]) = op.track group (sinceInit group calls) := by
  rw [sinceInit, List.foldl_append]
  rfl

/-- What a group holds has completed in it. -/
theorem sinceInit_subset {entries : List (TaskId × Json)} (h : sinceInit group calls = some entries) :
    entries ⊆ completionsIn group calls := by
  induction calls using List.reverseRec generalizing entries with
  | nil => cases h
  | append_singleton calls op ih =>
      rw [sinceInit_snoc] at h
      rw [completionsIn_snoc]
      have hkeep : ∀ {old}, sinceInit group calls = some old →
          old ⊆ completionsIn group calls ++ (op.completion group).toList :=
        fun hold _ he => List.mem_append.mpr (.inl (ih hold he))
      cases op with
      | store id result => exact hkeep h
      | getGroupResults g => exact hkeep h
      | initGroup g total =>
          by_cases hg : g = group
          · rw [ResultBackendOp.track, if_pos hg] at h
            cases h
            exact List.nil_subset _
          · rw [ResultBackendOp.track, if_neg hg] at h
            exact hkeep h
      | completeGroupMember g task result =>
          by_cases hg : g = group
          · rw [ResultBackendOp.track, if_pos hg] at h
            obtain ⟨old, hold, rfl⟩ := Option.map_eq_some_iff.mp h
            refine List.append_subset.mpr ⟨hkeep hold, fun e he => ?_⟩
            rw [ResultBackendOp.completion, if_pos hg]
            exact List.mem_append.mpr (.inr he)
          · rw [ResultBackendOp.track, if_neg hg] at h
            exact hkeep h

end Calls

/-! ## The answers of a history -/

/-- The call of an event. -/
def callOf (e : Event resultBackendTrait) : ResultBackendOp := e.op

/-- The calls of a history. -/
def callsOf (history : List (Event resultBackendTrait)) : List ResultBackendOp :=
  history.map callOf

@[simp] theorem callsOf_nil : callsOf [] = [] := rfl

@[simp] theorem callsOf_cons (e : Event resultBackendTrait)
    (history : List (Event resultBackendTrait)) :
    callsOf (e :: history) = callOf e :: callsOf history := rfl

@[simp] theorem callsOf_append (history history' : List (Event resultBackendTrait)) :
    callsOf (history ++ history') = callsOf history ++ callsOf history' := List.map_append

/-- The number of different tasks that have completed in a group. -/
def membersDone (group : String) (calls : List ResultBackendOp) : Nat :=
  ((completionsIn group calls).map Prod.fst).dedup.length

/-- There are no more of them than calls. -/
theorem membersDone_le (group : String) (calls : List ResultBackendOp) :
    membersDone group calls ≤ calls.length := by
  have hle : ((completionsIn group calls).map Prod.fst).length ≤ calls.length := by
    rw [List.length_map]
    exact List.length_filterMap_le _ _
  exact (List.dedup_sublist _).length_le.trans hle

/-- What is asked of an answer: a completion is answered with the number of different tasks
that have completed in its group, this one included. -/
def Counted (calls : List ResultBackendOp) : (op : ResultBackendOp) → op.Res → Prop
  | .completeGroupMember group task result, r => ∃ count, r = .ok count ∧
      count.toNat = membersDone group (calls ++ [.completeGroupMember group task result])
  | _, _ => True

/-- Groups count their members. -/
def CountsMembers (history : List (Event resultBackendTrait)) : Prop :=
  Answered Counted [] history

/-- Then no number reaches the size of the group before as many members have completed. -/
theorem CountsMembers.not_early {before after : List (Event resultBackendTrait)} {group : String}
    {task : TaskId} {result : Json} {total : UInt32}
    (h : CountsMembers (before ++ ⟨.completeGroupMember group task result, .ok total⟩ :: after)) :
    total.toNat ≤
      membersDone group (callsOf before ++ [.completeGroupMember group task result]) := by
  obtain ⟨count, hcount, heq⟩ := h.at
  cases hcount
  exact heq.le

section Members

variable {group : String} {calls : List ResultBackendOp}

/-- A task that completes for the first time is one more. -/
theorem membersDone_of_new {task : TaskId} {result : Json}
    (hnodup : ((completionsIn group calls).map Prod.fst).Nodup)
    (hnew : task ∉ (completionsIn group calls).map Prod.fst) :
    membersDone group (calls ++ [.completeGroupMember group task result]) =
      (completionsIn group calls).length + 1 := by
  rw [membersDone, tasks_complete, List.Nodup.dedup, List.length_append, List.length_map,
    List.length_singleton]
  exact hnodup.append (List.nodup_singleton task) (by simpa using hnew)

/-- A task that has completed before is not one more. -/
theorem membersDone_of_old {task : TaskId} {result : Json}
    (hold : task ∈ (completionsIn group calls).map Prod.fst) :
    membersDone group (calls ++ [.completeGroupMember group task result]) =
      membersDone group calls := by
  rw [membersDone, membersDone, tasks_complete]
  refine List.Perm.length_eq ((List.perm_ext_iff_of_nodup (List.nodup_dedup _)
    (List.nodup_dedup _)).mpr fun x => ?_)
  rw [List.mem_dedup, List.mem_dedup, List.mem_append, List.mem_singleton]
  exact ⟨fun h => h.elim id fun heq => heq ▸ hold, .inl⟩

/-- The members that there are after a completion, listed once each. -/
theorem membersDone_complete {task : TaskId} {result : Json} {tasks : List TaskId}
    (hnodup : tasks.Nodup)
    (h : ∀ x, x ∈ tasks ↔ x ∈ (completionsIn group calls).map Prod.fst ∨ x = task) :
    membersDone group (calls ++ [.completeGroupMember group task result]) = tasks.length := by
  rw [membersDone, tasks_complete]
  refine List.Perm.length_eq ((List.perm_ext_iff_of_nodup (List.nodup_dedup _) hnodup).mpr
    fun x => ?_)
  rw [List.mem_dedup, List.mem_append, List.mem_singleton, h]

end Members

/-! ## In memory -/

namespace MemoryResultBackend

variable {group : String} {calls : List ResultBackendOp}

/-- Every group holds the completions since its last initialisation. -/
def Tracks (calls : List ResultBackendOp) (s : MemoryResultBackend) : Prop :=
  ∀ group, (s.groups.lookup group).map (fun g => (g.completed, g.results)) =
    (sinceInit group calls).map fun entries =>
      (UInt32.ofNat entries.length, entries.map Prod.snd)

/-- What the calls answer after those made so far. -/
def Answers (calls : List ResultBackendOp) : (op : ResultBackendOp) → op.Res → Prop
  | .store _ _, r => r = .ok ()
  | .initGroup _ _, r => r = .ok ()
  | .completeGroupMember group _ _, r =>
      r = ((sinceInit group calls).map fun entries => UInt32.ofNat (entries.length + 1)).elim
        (.error (groupNotFound group)) .ok
  | .getGroupResults group, r =>
      r = ((sinceInit group calls).map fun entries => entries.map Prod.snd).elim
        (.error (groupNotFound group)) .ok

theorem tracks_new : Tracks [] new := fun _ => rfl

/-- One call. -/
theorem Tracks.respond {o : Unit} {s s' : MemoryResultBackend} {op : ResultBackendOp} {r : op.Res}
    (h : Tracks calls s) (hrespond : service.respond o s op = some (r, s')) :
    Answers calls op r ∧ Tracks (calls ++ [op]) s' := by
  cases op with
  | store id result =>
      cases hrespond
      refine ⟨rfl, fun group => ?_⟩
      rw [sinceInit_snoc]
      exact h group
  | initGroup g total =>
      cases hrespond
      refine ⟨rfl, fun group => ?_⟩
      rw [sinceInit_snoc, initGroup, ResultBackendOp.track]
      by_cases hg : g = group
      · simp [hg]
      · simpa [hg, AList.lookup_insert_ne (Ne.symm hg)] using h group
  | completeGroupMember g task result =>
      have hcomplete : s.completeGroupMember g result = (r, s') := Option.some.inj hrespond
      have hentry := h g
      unfold completeGroupMember at hcomplete
      cases hlookup : s.groups.lookup g with
      | none =>
          rw [hlookup] at hcomplete hentry
          cases hcomplete
          have hnone : sinceInit g calls = none := by simpa using hentry.symm
          refine ⟨by simp [Answers, hnone], fun group => ?_⟩
          rw [sinceInit_snoc, ResultBackendOp.track]
          by_cases hg : g = group
          · subst hg
            simp [hnone, hlookup]
          · simpa [hg] using h group
      | some state =>
          rw [hlookup] at hcomplete hentry
          cases hcomplete
          obtain ⟨entries, hsome, heq⟩ := Option.map_eq_some_iff.mp hentry.symm
          obtain ⟨hcompleted, hresults⟩ := Prod.mk.inj heq
          refine ⟨by simp [Answers, hsome, ← hcompleted], fun group => ?_⟩
          rw [sinceInit_snoc, ResultBackendOp.track]
          by_cases hg : g = group
          · subst hg
            simp [hsome, ← hcompleted, ← hresults]
          · simpa [hg, AList.lookup_insert_ne (Ne.symm hg)] using h group
  | getGroupResults g =>
      cases hrespond
      refine ⟨?_, fun group => ?_⟩
      · have hentry := h g
        rw [Answers, getGroupResults]
        cases hlookup : s.groups.lookup g with
        | none =>
            rw [hlookup] at hentry
            have hnone : sinceInit g calls = none := by simpa using hentry.symm
            simp [hnone]
        | some state =>
            rw [hlookup] at hentry
            obtain ⟨entries, hsome, heq⟩ := Option.map_eq_some_iff.mp hentry.symm
            simp [hsome, (Prod.mk.inj heq).2]
      · rw [sinceInit_snoc]
        exact h group

/-- Every call is answered. -/
theorem answers_every (o : Unit) (s : MemoryResultBackend) (op : ResultBackendOp) :
    ∃ p, service.respond o s op = some p := by
  cases op <;> exact ⟨_, rfl⟩

/-- What memory needs of a completion: its group has been initialised, the task has not
completed in it since, but every other task has that ever completed in it; and there are
fewer than `2 ^ 32` of them. -/
def Fresh (calls : List ResultBackendOp) : ResultBackendOp → Prop
  | .completeGroupMember group task result =>
      (∃ entries, sinceInit group calls = some entries ∧ task ∉ entries.map Prod.fst ∧
        ∀ e ∈ completionsIn group calls, e.1 = task ∨ e.1 ∈ entries.map Prod.fst) ∧
      membersDone group (calls ++ [.completeGroupMember group task result]) < 2 ^ 32
  | _ => True

/-- What a group holds as long as its calls are like this: every task once, and, once it holds
one, every task that has completed in it. -/
structure HoldsMembers (group : String) (calls : List ResultBackendOp)
    (entries : List (TaskId × Json)) : Prop where
  nodup : (entries.map Prod.fst).Nodup
  all : entries = [] ∨ ∀ e ∈ completionsIn group calls, e.1 ∈ entries.map Prod.fst

theorem holdsMembers_of_fresh {entries : List (TaskId × Json)} (h : Throughout Fresh calls)
    (hheld : sinceInit group calls = some entries) : HoldsMembers group calls entries := by
  induction calls using List.reverseRec generalizing entries with
  | nil => cases hheld
  | append_singleton calls op ih =>
      obtain ⟨hbefore, hlast⟩ := throughout_snoc.mp h
      rw [sinceInit_snoc] at hheld
      -- a call that is not about this group
      have hkeep : sinceInit group calls = some entries → op.completion group = none →
          HoldsMembers group (calls ++ [op]) entries := by
        intro hold hnone
        have hmembers := ih hbefore hold
        refine ⟨hmembers.nodup, ?_⟩
        rw [completionsIn_snoc, hnone, Option.toList_none, List.append_nil]
        exact hmembers.all
      cases op with
      | store id result => exact hkeep hheld rfl
      | getGroupResults g => exact hkeep hheld rfl
      | initGroup g total =>
          by_cases hg : g = group
          · rw [ResultBackendOp.track, if_pos hg] at hheld
            cases hheld
            exact ⟨List.nodup_nil, .inl rfl⟩
          · rw [ResultBackendOp.track, if_neg hg] at hheld
            exact hkeep hheld rfl
      | completeGroupMember g task result =>
          by_cases hg : g = group
          · subst hg
            obtain ⟨⟨old, hold, hnew, hothers⟩, -⟩ := hlast
            rw [ResultBackendOp.track, if_pos rfl, hold] at hheld
            cases hheld
            constructor
            · rw [List.map_append]
              exact (ih hbefore hold).nodup.append (List.nodup_singleton task)
                (by simpa using hnew)
            · refine .inr fun e he => ?_
              rw [completionsIn_snoc, ResultBackendOp.completion, if_pos rfl] at he
              rw [List.map_append]
              rcases List.mem_append.mp he with he | he
              · rcases hothers e he with heq | hmem
                · exact List.mem_append.mpr (.inr (by simp [heq]))
                · exact List.mem_append.mpr (.inl hmem)
              · cases List.mem_singleton.mp he
                exact List.mem_append.mpr (.inr (by simp))
          · rw [ResultBackendOp.track, if_neg hg] at hheld
            exact hkeep hheld (if_neg hg)

section Members

variable {entries : List (TaskId × Json)} {task : TaskId} {result : Json}

/-- What a group holds has completed in it. -/
theorem HoldsMembers.tasks_subset (hheld : sinceInit group calls = some entries) :
    entries.map Prod.fst ⊆ (completionsIn group calls).map Prod.fst :=
  List.map_subset _ (sinceInit_subset hheld)

/-- A task that the group holds completes again: there are as many members as before. -/
theorem HoldsMembers.again (h : HoldsMembers group calls entries)
    (hheld : sinceInit group calls = some entries) (hmem : task ∈ entries.map Prod.fst) :
    membersDone group (calls ++ [.completeGroupMember group task result]) = entries.length := by
  have hall := h.all.resolve_left (by rintro rfl; cases hmem)
  rw [membersDone_complete h.nodup, List.length_map]
  intro x
  refine ⟨fun hx => .inl (tasks_subset hheld hx), ?_⟩
  rintro (hx | rfl)
  · obtain ⟨e, he, rfl⟩ := List.mem_map.mp hx
    exact hall e he
  · exact hmem

/-- A task completes that the group does not hold, and the group holds all others. -/
theorem HoldsMembers.next (h : HoldsMembers group calls entries)
    (hheld : sinceInit group calls = some entries) (hnew : task ∉ entries.map Prod.fst)
    (hothers : ∀ e ∈ completionsIn group calls, e.1 = task ∨ e.1 ∈ entries.map Prod.fst) :
    membersDone group (calls ++ [.completeGroupMember group task result]) =
      entries.length + 1 := by
  have hnodup : (entries.map Prod.fst ++ [task]).Nodup :=
    h.nodup.append (List.nodup_singleton task) (by simpa using hnew)
  rw [membersDone_complete hnodup, List.length_append, List.length_map, List.length_singleton]
  intro x
  rw [List.mem_append, List.mem_singleton]
  constructor
  · rintro (hx | rfl)
    · exact .inl (tasks_subset hheld hx)
    · exact .inr rfl
  · rintro (hx | rfl)
    · obtain ⟨e, he, rfl⟩ := List.mem_map.mp hx
      exact (hothers e he).symm
    · exact .inr rfl

/-- A number that is right says that the group holds all other tasks: an empty one has seen
no other. -/
theorem HoldsMembers.others (h : HoldsMembers group calls entries)
    (hcount : (entries.length + 1) % 2 ^ 32 =
      membersDone group (calls ++ [.completeGroupMember group task result])) :
    ∀ e ∈ completionsIn group calls, e.1 = task ∨ e.1 ∈ entries.map Prod.fst := by
  intro e he
  rcases h.all with rfl | hall
  · have hone : ((completionsIn group calls).map Prod.fst ++ [task]).dedup.length = 1 := by
      rw [← tasks_complete calls group task result]
      exact hcount.symm
    obtain ⟨x, hx⟩ := List.length_eq_one_iff.mp hone
    have hin : ∀ y ∈ (completionsIn group calls).map Prod.fst ++ [task], y = x := by
      intro y hy
      rw [← List.mem_dedup, hx] at hy
      exact List.mem_singleton.mp hy
    refine .inl ((hin e.1 ?_).trans (hin task ?_).symm)
    · exact List.mem_append.mpr (.inl (List.mem_map_of_mem he))
    · exact List.mem_append.mpr (.inr (List.mem_singleton.mpr rfl))
  · exact .inr (hall e he)

/-- The number that is answered to a completion. -/
theorem counted_iff_mod (hheld : sinceInit group calls = some entries) {r : TaskResult UInt32}
    (hanswer : Answers calls (.completeGroupMember group task result) r) :
    Counted calls (.completeGroupMember group task result) r ↔ (entries.length + 1) % 2 ^ 32 =
      membersDone group (calls ++ [.completeGroupMember group task result]) := by
  have hr : r = .ok (UInt32.ofNat (entries.length + 1)) := by
    simpa [Answers, hheld] using hanswer
  rw [Counted, hr]
  constructor
  · rintro ⟨count, hcount, heq⟩
    cases hcount
    rw [← heq, UInt32.toNat_ofNat']
  · intro heq
    exact ⟨_, rfl, by rw [UInt32.toNat_ofNat', heq]⟩

end Members

/-- One completion: it is counted rightly exactly when it is like this. -/
theorem counted_iff_fresh (calls : List ResultBackendOp) (op : ResultBackendOp) (r : op.Res)
    (h : Throughout Fresh calls) (hanswer : Answers calls op r) :
    Counted calls op r ↔ Fresh calls op := by
  cases op with
  | store id result => exact Iff.rfl
  | initGroup g total => exact Iff.rfl
  | getGroupResults g => exact Iff.rfl
  | completeGroupMember group task result =>
      cases hheld : sinceInit group calls with
      | none =>
          have hr : r = .error (groupNotFound group) := by simpa [Answers, hheld] using hanswer
          constructor
          · rintro ⟨count, hcount, -⟩
            rw [hr] at hcount
            cases hcount
          · rintro ⟨⟨entries, hentries, -⟩, -⟩
            rw [hheld] at hentries
            cases hentries
      | some entries =>
          have hmembers := holdsMembers_of_fresh h hheld
          rw [counted_iff_mod hheld hanswer]
          constructor
          · intro hcount
            refine ⟨⟨entries, hheld, fun hmem => ?_, hmembers.others hcount⟩,
              hcount ▸ Nat.mod_lt _ (by decide)⟩
            have hsame : membersDone group (calls ++ [.completeGroupMember group task result]) =
                entries.length := hmembers.again hheld hmem
            have hpos : 0 < (entries.map Prod.fst).length := List.length_pos_of_mem hmem
            rw [List.length_map] at hpos
            omega
          · rintro ⟨⟨entries', hheld', hnew, hothers⟩, hlt⟩
            rw [hheld] at hheld'
            cases hheld'
            rw [hmembers.next hheld hnew hothers] at hlt ⊢
            exact Nat.mod_eq_of_lt hlt

/-- What every history answers. -/
theorem answered {todo : List (Unit × ResultBackendOp)} {s : MemoryResultBackend}
    {history : List (Event resultBackendTrait)}
    (h : service.serve todo new = some (history, s)) : Answered Answers [] history :=
  (Service.serve_answered (R := Tracks) (fun _ _ _ _ _ _ hs => hs.respond) tracks_new h).1

/-- When the in-memory backend counts members. -/
theorem countsMembers_iff {todo : List (Unit × ResultBackendOp)} {s : MemoryResultBackend}
    {history : List (Event resultBackendTrait)}
    (h : service.serve todo new = some (history, s)) :
    CountsMembers history ↔ Throughout Fresh (callsOf history) :=
  (answered h).iff_throughout counted_iff_fresh

end MemoryResultBackend

end Kojin.Core
