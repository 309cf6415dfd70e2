/-
  Core/Duplicates.lean --- what becomes of a message that `DeduplicationMiddleware`
  rejects (`kojin-core`: `middleware/dedup.rs`, `worker.rs`).

  The middleware answers `KojinError::Duplicate` and leaves it to the worker to
  acknowledge and discard the message.  To `execute_task` a failed `before` hook is a
  failed execution like any other: the rejected message is given back to its queue
  while retries are left, and goes to the dead-letter queue afterwards.

  Every execution that is past such a rejection owes the broker the second section of
  `nack` or of `dead_letter`.
-/
import Kojin.Core.MemoryFleet
import Kojin.Core.MemoryResultBackend
import Kojin.Core.Retry

set_option autoImplicit false

namespace Kojin.Core

open Kojin.Foundation

section Rejected

variable {S : Service resultBackendTrait} {codec : Codec} {mw : Middleware} {k : Nat}
  {crew : Fleet}

/-- The message that the `k`-th middleware rejects as a duplicate in this step. -/
def duplicateOf (k : Nat) : (memoryFleet S codec mw k crew).Label → Option TaskId
  | .call ⟨.runtime (.before i m), .error (.duplicate _)⟩ => if i = k then some m.id else none
  | _ => none

/-- The message whose handler is invoked in this step. -/
def handlerOf : (memoryFleet S codec mw k crew).Label → Option TaskId
  | .call ⟨.runtime (.handle m _ _), _⟩ => some m.id
  | _ => none

/-- The acknowledgement of a message. -/
def acknowledges (i : TaskId) : (memoryFleet S codec mw k crew).Label :=
  .call ⟨.broker (.ack i), ()⟩

/-- The second section of a settling call. -/
def delivers (s : Settling) : (memoryFleet S codec mw k crew).Label :=
  .call ⟨.broker (.deliver s), ()⟩

/-- What is to happen after the rejection of message `i`: it is acknowledged, and it is
not given back, not buried and not handled. -/
structure Discarded (i : TaskId) (tr : List (memoryFleet S codec mw k crew).Label) : Prop where
  acked : acknowledges i ∈ tr
  notRequeued : requeues (life i (opened tr)) = []
  notBuried : burials (life i (opened tr)) = []
  notHandled : ∀ l ∈ tr, handlerOf l ≠ some i

/-! ## A rejected message is settled -/

/-- The execution is past a failure of message `i` and has not settled it. -/
def Phase.Fails (i : TaskId) : Phase → Prop
  | .rejected m _ => m.id = i
  | .failing m _ _ => m.id = i
  | .retrying m => m.id = i
  | .burying m => m.id = i
  | _ => False

/-- The execution is past a failure of message `i`, where the broker is called in sections. -/
def Failing (i : TaskId) : Sectioned Phase → Prop
  | .at t => t.Fails i
  | .settling s _ => s.message.id = i

/-- The second section of a settling call for message `i` has run. -/
def Settled (i : TaskId) (tr : List (memoryFleet S codec mw k crew).Label) : Prop :=
  ∃ s : Settling, s.message.id = i ∧ delivers s ∈ tr

/-- A failed execution goes on to fail, until it calls `nack` or `dead_letter`. -/
theorem Phase.Step.fails {i : TaskId} {t t' : Phase} {op : traits.Op} {r : traits.Res op}
    (h : Phase.Step crew t op r t') (ht : t.Fails i) :
    t'.Fails i ∨ ∃ s : Settling, s.message.id = i ∧ op = .broker s.method := by
  cases h with
  | nack m => exact .inr ⟨.nack m, ht, rfl⟩
  | deadLetter m => exact .inr ⟨.deadLetter m, ht, rfl⟩
  | note => exact .inl ht
  | rejection | onError | retry | sleep | bury => exact .inl ht
  | _ => exact ht.elim

theorem method_inj {s s' : Settling} (h : s.method = s'.method) : s = s' := by
  cases s <;> cases s' <;> cases h <;> rfl

/-- In sections: until the second section has run. -/
theorem Sectioned.Step.failing {i : TaskId} {u u' : Sectioned Phase} {op : memoryInterface.Op}
    {r : memoryInterface.Res op} (h : Sectioned.Step (Phase.Step crew) u op r u')
    (hu : Failing i u) :
    Failing i u' ∨ ∃ s : Settling, s.message.id = i ∧ op = .broker (.deliver s) := by
  cases h with
  | runtime hp =>
      refine .inl ((Phase.Step.fails hp hu).resolve_right ?_)
      rintro ⟨s, -, heq⟩
      cases heq
  | backend hp =>
      refine .inl ((Phase.Step.fails hp hu).resolve_right ?_)
      rintro ⟨s, -, heq⟩
      cases heq
  | enqueue hp | ack hp | schedule hp =>
      refine .inl ((Phase.Step.fails hp hu).resolve_right ?_)
      rintro ⟨s, -, heq⟩
      cases s <;> cases heq
  | @release t t' s hp =>
      rcases Phase.Step.fails hp hu with hfails | ⟨s', hs', heq⟩
      · cases s <;> cases hp <;> exact hfails.elim
      · have hmethod : s.method = s'.method := by
          injection heq
        rw [method_inj hmethod]
        exact .inl hs'
  | deliver s t => exact .inr ⟨s, hu, rfl⟩

/-- A rejection is a failure. -/
theorem failing_of_duplicate {i : TaskId} {u u' : Sectioned Phase} {op : memoryInterface.Op}
    {r : memoryInterface.Res op} (h : Sectioned.Step (Phase.Step crew) u op r u')
    (hdup : duplicateOf k (.call ⟨op, r⟩ : (memoryFleet S codec mw k crew).Label) = some i) :
    Failing i u' := by
  cases h with
  | @runtime t t' op r hp =>
      cases hp with
      | reject m i rest e =>
          cases e <;> simp only [duplicateOf, reduceCtorEq, Option.ite_none_right_eq_some,
            Option.some.injEq] at hdup
          exact hdup.2
      | followUp m result r hop => cases op <;> first | cases hdup | exact hop.elim
      | _ => cases hdup
  | _ => cases hdup

/-- Every rejected message has been settled since, or its execution is about to. -/
theorem settled_or_failing {s₀ : S.State} {q₀ : mw.State}
    {tr : List (memoryFleet S codec mw k crew).Label}
    {c : Machine.Staged (memoryFleet S codec mw k crew) (sectioned (pipeline crew))}
    (h : Machine.StagedReach (sectioned (pipeline crew)) FleetStimulus.phases
      ⟨((MemoryBroker.new, s₀), q₀), []⟩ tr c) {i : TaskId} :
    ∀ tr₁ l tr₂, tr = tr₁ ++ l :: tr₂ → duplicateOf k l = some i →
      Settled i tr₂ ∨ ∃ u ∈ c.stages, Failing i u := by
  induction h with
  | start =>
      intro tr₁ l tr₂ htr _
      simp at htr
  | @step tr c c' l' _ hstep ih =>
      intro tr₁ l tr₂ htr hdup
      rcases List.eq_nil_or_concat tr₂ with rfl | ⟨tr₃, l₃, rfl⟩
      · -- the step is the rejection
        obtain ⟨-, hlast⟩ := List.append_inj' htr rfl
        obtain rfl : l' = l := by simpa using hlast
        cases hstep with
        | call o before after hr hp =>
            refine .inr ⟨_, List.mem_append.mpr (.inr List.mem_cons_self), ?_⟩
            exact failing_of_duplicate hp hdup
        | env x stages haccept => cases hdup
      · rw [List.concat_eq_append, ← List.cons_append, ← List.append_assoc] at htr
        obtain ⟨hfront, hlast⟩ := List.append_inj' htr rfl
        obtain rfl : l' = l₃ := by simpa using hlast
        rw [List.concat_eq_append]
        rcases ih tr₁ l tr₃ hfront hdup with ⟨s, hs, hmem⟩ | ⟨u, hu, hfails⟩
        · exact .inl ⟨s, hs, List.mem_append.mpr (.inl hmem)⟩
        · cases hstep with
          | env x stages haccept =>
              exact .inr ⟨u, List.mem_append.mpr (.inl hu), hfails⟩
          | @call o s s' op r t t' before after hr hp =>
              rcases List.mem_append.mp hu with hu | hu
              · exact .inr ⟨u, List.mem_append.mpr (.inl hu), hfails⟩
              rcases List.mem_cons.mp hu with rfl | hu
              · rcases Sectioned.Step.failing hp hfails with hfails' | ⟨s₁, hs₁, rfl⟩
                · exact .inr ⟨t', List.mem_append.mpr (.inr List.mem_cons_self), hfails'⟩
                · refine .inl ⟨s₁, hs₁, List.mem_append.mpr (.inr ?_)⟩
                  exact List.mem_singleton.mpr rfl
              · exact .inr ⟨u, List.mem_append.mpr (.inr (List.mem_cons_of_mem t' hu)), hfails⟩

/-- What a settling call adds to the life of its message. -/
theorem life_delivers (s : Settling) (tr₁ tr₂ : List (memoryFleet S codec mw k crew).Label) :
    ∃ e, life s.message.id (opened (tr₁ ++ delivers s :: tr₂)) =
        life s.message.id (opened tr₁) ++ e :: life s.message.id (opened tr₂) ∧
      (e = .requeued s.message ∨ e = .buried s.message) := by
  rw [opened, List.filterMap_append]
  cases s with
  | nack m =>
      refine ⟨.requeued m, (life_append _ _ _).trans ?_, .inl rfl⟩
      congr 1
      exact List.filterMap_cons_some (if_pos rfl)
  | deadLetter m =>
      refine ⟨.buried m, (life_append _ _ _).trans ?_, .inr rfl⟩
      congr 1
      exact List.filterMap_cons_some (if_pos rfl)

/-- A settled message has been put back or buried. -/
theorem requeued_or_buried {i : TaskId} {tr : List (memoryFleet S codec mw k crew).Label}
    (h : Settled i tr) :
    requeues (life i (opened tr)) ≠ [] ∨ burials (life i (opened tr)) ≠ [] := by
  obtain ⟨s, rfl, hmem⟩ := h
  obtain ⟨tr₁, tr₂, rfl⟩ := List.append_of_mem hmem
  obtain ⟨e, hlife, he⟩ := life_delivers s tr₁ tr₂
  rw [hlife]
  rcases he with rfl | rfl
  · refine .inl ?_
    rw [requeues_append]
    simp [requeues]
  · refine .inr ?_
    rw [burials_append]
    simp [burials]

/-- No duplicate is discarded: in every history that has come to rest, whatever
message the middleware has rejected was put back into its queue or buried since. -/
theorem duplicates_not_discarded {s₀ : S.State} {q₀ : mw.State}
    {tr : List (memoryFleet S codec mw k crew).Label}
    {c : (memoryFleet S codec mw k crew).Config}
    (h : (memoryFleet S codec mw k crew).Reach (fleetStart S codec mw k crew s₀ q₀) tr c)
    (hrest : ∀ p ∈ c.threads, p = .ret ()) (i : TaskId)
    (tr₁ tr₂ : List (memoryFleet S codec mw k crew).Label)
    (l : (memoryFleet S codec mw k crew).Label) (htr : tr = tr₁ ++ l :: tr₂)
    (hdup : duplicateOf k l = some i) : ¬ Discarded i tr₂ := by
  obtain ⟨phases, hstaged, hfollows⟩ := fleet_phases h
  intro hdiscarded
  rcases settled_or_failing hstaged tr₁ l tr₂ htr hdup with hsettled | ⟨u, hu, hfails⟩
  · rcases requeued_or_buried hsettled with hne | hne
    · exact hne hdiscarded.notRequeued
    · exact hne hdiscarded.notBuried
  · obtain ⟨p, hp, hrel⟩ := Machine.exists_of_forall₂ hfollows hu
    rw [hrest p hp] at hrel
    have hfinal : (sectioned (pipeline crew)).Final u := hrel
    cases u with
    | settling s next => exact hfinal
    | «at» t => cases t <;> first | exact hfails | exact hfinal

end Rejected

/-! ## A duplicate that comes back -/

/-- Workers whose only middleware drops duplicates. -/
abbrev dedupPair : Machine memoryInterface :=
  memoryFleet MemoryResultBackend.service blankCodec deduplicationMiddleware 0 ⟨[0], ["t"]⟩

/-- Nothing has been sent, and a key stays known for ten nanoseconds. -/
def dedupOrigin : dedupPair.Config :=
  fleetStart MemoryResultBackend.service blankCodec deduplicationMiddleware 0 ⟨[0], ["t"]⟩
    MemoryResultBackend.new ⟨.new 10, 0⟩

/-- A message with the key `k`. -/
def keyedMessage (id : TaskId) : TaskMessage := { plainMessage id with dedupKey := some "k" }

/-- A worker polls and its execution, the `i`-th, makes `n` calls. -/
def dedupRound (i n : Nat) (runtime : RuntimeOracle) : List dedupPair.Move :=
  .env (.memory (.poll ⟨["t"], [0], false⟩ ["q"])) :: List.replicate n (.run i ⟨runtime, (), ()⟩)

/-- Two messages with one key: the first succeeds, the second is rejected. -/
def twoOfAKind : List dedupPair.Move :=
  .env (.memory (.enqueue (keyedMessage ⟨7⟩))) ::
    .env (.memory (.enqueue (keyedMessage ⟨8⟩))) ::
    dedupRound 0 6 stillRuntime ++ dedupRound 1 9 stillRuntime

theorem twoOfAKind_plays : (dedupOrigin.playAll twoOfAKind).isSome = true := by
  decide +kernel

/-- How that ends. -/
def twoOfAKindEnd : List dedupPair.Label × dedupPair.Config :=
  (dedupOrigin.playAll twoOfAKind).get twoOfAKind_plays

/-- The rejection is the twelfth step. -/
theorem twoOfAKind_rejection :
    ∃ l, twoOfAKindEnd.1 = twoOfAKindEnd.1.take 11 ++ l :: twoOfAKindEnd.1.drop 12 ∧
      duplicateOf 0 l = some ⟨8⟩ := by
  have hat : twoOfAKindEnd.1[11]?.bind (duplicateOf 0) = some ⟨8⟩ := by decide +kernel
  obtain ⟨l, hl, hdup⟩ := Option.bind_eq_some_iff.mp hat
  obtain ⟨hlt, rfl⟩ := List.getElem?_eq_some_iff.mp hl
  refine ⟨_, ?_, hdup⟩
  rw [List.getElem_cons_drop, List.take_append_drop]

/-- What is rejected in that run is not discarded. -/
theorem duplicates_not_discarded_twoOfAKind :
    dedupPair.Reach dedupOrigin twoOfAKindEnd.1 twoOfAKindEnd.2 ∧
      ¬ Discarded ⟨8⟩ (twoOfAKindEnd.1.drop 12) := by
  have hreach : dedupPair.Reach dedupOrigin twoOfAKindEnd.1 twoOfAKindEnd.2 :=
    Machine.Config.reach_of_get twoOfAKind_plays
  have hthreads : twoOfAKindEnd.2.threads = [.ret (), .ret ()] := rfl
  have hrest : ∀ p ∈ twoOfAKindEnd.2.threads, p = .ret () := by
    rw [hthreads]
    simp
  obtain ⟨l, hsplit, hdup⟩ := twoOfAKind_rejection
  exact ⟨hreach, duplicates_not_discarded hreach hrest ⟨8⟩ _ _ l hsplit hdup⟩

/-- The duplicate is back in its queue, with one retry used up: it was rejected,
never acknowledged, and put back. -/
theorem duplicate_requeued :
    dedupPair.Reach dedupOrigin twoOfAKindEnd.1 twoOfAKindEnd.2 ∧
      (∃ l, twoOfAKindEnd.1 = twoOfAKindEnd.1.take 11 ++ l :: twoOfAKindEnd.1.drop 12 ∧
        duplicateOf 0 l = some ⟨8⟩) ∧
      (requeues (life ⟨8⟩ (opened (twoOfAKindEnd.1.drop 12)))).map (·.retries) = [1] ∧
      twoOfAKindEnd.2.state.1.1.queueLen "q" = 1 ∧
      ¬ Discarded ⟨8⟩ (twoOfAKindEnd.1.drop 12) := by
  have hreach : dedupPair.Reach dedupOrigin twoOfAKindEnd.1 twoOfAKindEnd.2 :=
    Machine.Config.reach_of_get twoOfAKind_plays
  have hback : (requeues (life ⟨8⟩ (opened (twoOfAKindEnd.1.drop 12)))).map (·.retries) = [1] := by
    decide +kernel
  refine ⟨hreach, twoOfAKind_rejection, hback, by decide +kernel, fun hdiscarded => ?_⟩
  rw [hdiscarded.notRequeued] at hback
  cases hback

end Kojin.Core
